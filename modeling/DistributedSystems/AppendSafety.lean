import DistributedSystems.AppendSystem
import DistributedSystems.KvDefinite

/-! # No append is lost or duplicated

The values installed for the key `"k"` are the prefixes of one list of entries (`AppendInv`): a
`Put` of a client replaces the list the client has read, so the server accepts it only when it adds
one entry to the current list.  The call of an accepted request is one that its client still waits
for, so the entry is that of the client's current iteration, and every earlier entry of this client
is from an earlier iteration.

Hence the final list has the entries of every client in increasing order, every entry whose `Put`
returned `OK` once, those of `ErrMaybe` at most once and no others, and `CheckAppends` passes
(`appends_exactly_once`).  Late executions of requests are allowed. -/

namespace DistributedSystems.Append

open DistributedSystems.Kv

/-! ### The counters of a client -/

/-- `i` counts the finished iterations, and `nok` and `nmay` their outcomes. -/
structure Client.Counted (c : Client) : Prop where
  length : c.i = c.results.length
  nok : c.nok = c.results.count .ok
  total : c.nok + c.nmay = c.i
  outcome : ∀ err ∈ c.results, err = .ok ∨ err = .errMaybe

theorem Client.Counted.advance {c : Client} (h : c.Counted) {err : Err}
    (he : err = .ok ∨ err = .errMaybe) : (c.advance err).Counted := by
  have htotal := h.total
  constructor
  · simp [h.length]
  · rcases he with rfl | rfl <;> simp [h.nok]
  · rcases he with rfl | rfl
    · simp only [Client.advance_nok, Client.advance_nmay, Client.advance_i, if_true]
      omega
    · simp only [Client.advance_nok, Client.advance_nmay, Client.advance_i, reduceCtorEq, if_false]
      omega
  · intro err' he'
    rcases List.mem_append.mp he' with he' | he'
    · exact h.outcome err' he'
    · rw [List.mem_singleton.mp he']
      exact he

/-- The clients are numbered from `0`, and their counters are right. -/
structure Clients (nclnt : ℕ) (s : State) : Prop where
  mes : s.clients.map Client.me = List.range nclnt
  counted : ∀ c ∈ s.clients, c.Counted

theorem Clients.set {nclnt : ℕ} {s : State} (h : Clients nclnt s) {l : ℕ} {c d : Client}
    (hc : s.clients[l]? = some c) (hme : d.me = c.me) (hd : d.Counted) (kv : Kv.State) :
    Clients nclnt { s with kv := kv, clients := s.clients.set l d } := by
  constructor
  · dsimp only
    rw [map_set_of_eq hc hme]
    exact h.mes
  · intro d' hd'
    rcases List.mem_or_eq_of_mem_set hd' with hd' | rfl
    · exact h.counted d' hd'
    · exact hd

theorem Clients.step {nclnt : ℕ} {s s' : State} {a : Action} (h : Clients nclnt s)
    (hs : Stepped s a s') : Clients nclnt s' := by
  -- a client that only changes its program counter
  have keep : ∀ {l : ℕ} {c : Client} {pc : Pc} {kv : Kv.State}, s.clients[l]? = some c →
      Clients nclnt { s with kv := kv, clients := s.clients.set l { c with pc := pc } } := by
    intro l c pc kv hc
    obtain ⟨h1, h2, h3, h4⟩ := h.counted c (List.mem_of_getElem? hc)
    exact h.set (d := { c with pc := pc }) hc rfl ⟨h1, h2, h3, h4⟩ kv
  cases hs with
  | next hc hpc => exact keep hc
  | stop hc hpc => exact keep hc
  | append hc hpc hr hes => exact keep hc
  | fatal hc hpc hr hes => exact keep hc
  | @advance l n c err hc hpc hr he =>
      have hcd := (h.counted c (List.mem_of_getElem? hc)).advance he
      exact h.set (d := c.advance err) hc rfl hcd s.kv
  | retry hc hpc hr hok hmay => exact keep hc
  | net ha hs => exact ⟨h.mes, h.counted⟩

theorem reachable_clients {nclnt : ℕ} {C : State → Action → Prop} {s : State}
    (h : (system nclnt).ReachableBy C s) : Clients nclnt s := by
  refine h.invariant ⟨?_, ?_⟩ (fun _ _ _ _ hc _ hs => hc.step (State.step_cases hs))
  · simp [system, State.init, Function.comp_def]
  · intro c hc
    obtain ⟨me, -, rfl⟩ := List.mem_map.mp hc
    constructor <;> simp

theorem Clients.eq_of_me {nclnt : ℕ} {s : State} (h : Clients nclnt s) {c c' : Client}
    (hc : c ∈ s.clients) (hc' : c' ∈ s.clients) (hme : c.me = c'.me) : c = c' := by
  refine List.inj_on_of_nodup_map ?_ hc hc' hme
  rw [h.mes]
  exact List.nodup_range

theorem Clients.me_lt {nclnt : ℕ} {s : State} (h : Clients nclnt s) {c : Client}
    (hc : c ∈ s.clients) : c.me < nclnt := by
  rw [← List.mem_range, ← h.mes]
  exact List.mem_map_of_mem hc

/-- The client at position `l` is the client `l`. -/
theorem Clients.me_eq {nclnt : ℕ} {s : State} (h : Clients nclnt s) {l : ℕ} {c : Client}
    (hc : s.clients[l]? = some c) : c.me = l := by
  have hl : (s.clients.map Client.me)[l]? = some c.me := by simp [hc]
  rw [h.mes] at hl
  obtain ⟨hlt, he⟩ := List.getElem?_eq_some_iff.mp hl
  simpa using he.symm

/-! ### The invariant -/

/-- The `Put` of the client in its current iteration, when it has read the first `m` entries. -/
def putAfter (es : List Entry) (c : Client) (m : ℕ) : Op :=
  .put ⟨"k", marshal (es.take m ++ [⟨c.me, c.i⟩]), UInt64.ofNat (m + 1)⟩

/-- What a client can rely on when the list is `es`: its `OK` entries are in the list, all its
entries are of finished iterations or of an accepted `Put` it waits for, and it waits for what its
code has started. -/
structure ClientOk (kv : Kv.State) (es : List Entry) (c : Client) : Prop where
  appended : ∀ j, c.results[j]? = some .ok → ⟨c.me, j⟩ ∈ es
  fresh : ∀ e ∈ es, e.id = c.me →
    e.n < c.i ∨ (e.n = c.i ∧ ∃ n, c.pc = .putJson n ∧ Accepted kv.log n)
  getting : ∀ n, c.pc = .getJson n → opOf kv n = some (.get ⟨"k"⟩)
  putting : ∀ n, c.pc = .putJson n →
    (∃ m, m ≤ es.length ∧ opOf kv n = some (putAfter es c m)) ∧
      (Accepted kv.log n → ⟨c.me, c.i⟩ ∈ es)
  running : c.pc ≠ .failed

/-- The values of the key are the prefixes of the list `es`. -/
structure AppendInv (es : List Entry) (s : State) : Prop where
  count : puts "k" s.kv = es.length + 1
  value : ∀ j p, (installs "k" s.kv.log)[j]? = some p → p.2 = marshal (es.take j)
  increasing : Increasing es
  dated : Dated "k" s.kv
  live : ∀ n args, opOf s.kv n = some (.put args) → args.key = "k" →
    Executed s.kv.log n ∨ ∃ c ∈ s.clients, c.pc = .putJson n
  found : Found "k" s.kv.log
  author : ∀ e ∈ es, ∃ c ∈ s.clients, c.me = e.id
  client : ∀ c ∈ s.clients, ClientOk s.kv es c

theorem marshal_injective {es es' : List Entry} (h : marshal es = marshal es') : es = es' := by
  have := unmarshal_marshal es
  rw [h, unmarshal_marshal, Option.some.injEq] at this
  exact this.symm

/-- A `Put` tells whose it is. -/
theorem me_of_putAfter {es es' : List Entry} {c c' : Client} {m m' : ℕ}
    (h : putAfter es c m = putAfter es' c' m') : c.me = c'.me := by
  simp only [putAfter, Op.put.injEq, PutArgs.mk.injEq] at h
  have he := (List.append_inj' (marshal_injective h.2.1) rfl).2
  simp only [List.cons.injEq, Entry.mk.injEq] at he
  exact he.1.1

theorem putAfter_append {es : List Entry} {c : Client} {m : ℕ} (hm : m ≤ es.length)
    (es' : List Entry) : putAfter (es ++ es') c m = putAfter es c m := by
  rw [putAfter, putAfter, List.take_append_of_le_length hm]

theorem appendInv_init (nclnt : ℕ) : AppendInv [] (State.init nclnt) := by
  have hlog : setup.log =
      [.invoke 0 setupPut, .exec 0 0 setupPut (.put ⟨.ok⟩), .ret 0 (.put .ok)] := rfl
  have hop : ∀ n op, opOf setup n = some op → n = 0 ∧ op = setupPut := by
    intro n op ho
    cases n with
    | zero => exact ⟨rfl, (Option.some.inj ho).symm⟩
    | succ n => cases ho
  have hex : Executed setup.log 0 := ⟨0, setupPut, .put ⟨.ok⟩, by rw [hlog]; simp⟩
  constructor
  · rfl
  · intro j p hj
    cases j with
    | zero =>
        cases hj
        rfl
    | succ j => cases hj
  · exact List.Pairwise.nil
  · intro n args ho hk
    obtain ⟨rfl, he⟩ := hop n _ ho
    cases he
    exact ⟨0, Nat.zero_le _, rfl, fun _ => Nat.zero_lt_one⟩
  · intro n args ho hk
    obtain ⟨rfl, -⟩ := hop n _ ho
    exact Or.inl hex
  · intro n a op r he hk
    change _ ∈ setup.log at he
    rw [hlog] at he
    simp only [List.mem_cons, reduceCtorEq, Event.exec.injEq, List.not_mem_nil, or_false,
      false_or] at he
    rw [he.2.2.2]
    simp [Reply.err]
  · simp
  · intro c hc
    obtain ⟨me, -, rfl⟩ := List.mem_map.mp hc
    constructor <;> simp

/-! ### Steps that execute nothing -/

theorem ClientOk.of_quiet {kv kv' : Kv.State} {es : List Entry} {c : Client}
    (h : ClientOk kv es c) (hq : Quiet kv kv') : ClientOk kv' es c where
  appended := h.appended
  fresh := by simpa only [hq.accepted] using h.fresh
  getting := fun n hpc => hq.op _ _ (h.getting n hpc)
  putting := by
    intro n hpc
    obtain ⟨⟨m, hm, ho⟩, ha⟩ := h.putting n hpc
    rw [hq.accepted]
    exact ⟨⟨m, hm, hq.op _ _ ho⟩, ha⟩
  running := h.running

theorem AppendInv.of_quiet {es : List Entry} {s : State} {kv' : Kv.State} (I : AppendInv es s)
    (hq : Quiet s.kv kv') (hop : ∀ n, opOf kv' n = opOf s.kv n) :
    AppendInv es { s with kv := kv' } where
  count := by rw [hq.puts, I.count]
  value := by simpa only [hq.installs] using I.value
  increasing := I.increasing
  dated := I.dated.of_quiet hq (fun n args ho _ => Or.inl ((hop n).symm.trans ho))
  live := by
    intro n args ho hk
    rw [hq.executed]
    exact I.live n args ((hop n).symm.trans ho) hk
  found := I.found.of_quiet hq
  author := I.author
  client := fun c hc => (I.client c hc).of_quiet hq

/-! ### Executing a request -/

section exec

variable {es : List Entry} {s : State} {i : ℕ} {q : Request} {nclnt : ℕ}

/-- A request that can change the list adds the entry of the current iteration of a client that
waits for it. -/
theorem AppendInv.waiting (I : AppendInv es s) (w : WellFormed s.kv) (t : Tracks s.kv)
    (hb : puts "k" s.kv < 2 ^ 64) (hq : q ∈ s.kv.requests) {args : PutArgs}
    (h : Installs "k" s.kv q args) :
    ¬ Executed s.kv.log q.call ∧ ∃ c ∈ s.clients, c.pc = .putJson q.call ∧
      opOf s.kv q.call = some (putAfter es c es.length) ∧
      args.value = marshal (es ++ [⟨c.me, c.i⟩]) := by
  obtain ⟨ho, hv, hne⟩ := I.dated.not_executed w t hb hq h
  refine ⟨hne, ?_⟩
  rcases I.live _ _ ho h.2.1 with hex | ⟨c, hc, hpc⟩
  · exact absurd hex hne
  · obtain ⟨⟨m, hm, hom⟩, -⟩ := (I.client c hc).putting _ hpc
    have hargs := Option.some.inj (ho.symm.trans hom)
    simp only [putAfter, Op.put.injEq] at hargs
    have hmv : UInt64.ofNat (m + 1) = UInt64.ofNat (puts "k" s.kv) := by rw [← hv, hargs]
    have hcount := I.count
    have hmeq : m + 1 = puts "k" s.kv := ofNat_inj_of_lt (by omega) hb hmv
    obtain rfl : m = es.length := by omega
    exact ⟨c, hc, hpc, hom, by rw [hargs, List.take_length]⟩

/-- A client whose own `Put` is not the accepted one. -/
theorem ClientOk.exec_other {c : Client} (hok : ClientOk s.kv es c)
    (hq : s.kv.requests[i]? = some q) (hn : c.pc ≠ .putJson q.call) {e : Entry}
    (he : e.id ≠ c.me) : ClientOk (s.kv.exec i q) (es ++ [e]) c where
  appended := fun j hj => List.mem_append_left _ (hok.appended j hj)
  fresh := by
    intro e' he' hid
    rcases List.mem_append.mp he' with he' | he'
    · rcases hok.fresh e' he' hid with hlt | ⟨heq, n, hpc, ha⟩
      · exact Or.inl hlt
      · exact Or.inr ⟨heq, n, hpc, (accepted_exec_of_ne (by rintro rfl; exact hn hpc)).mpr ha⟩
    · rw [List.mem_singleton.mp he'] at hid
      exact absurd hid he
  getting := fun n hpc => opOf_step (.exec hq) (hok.getting n hpc)
  putting := by
    intro n hpc
    obtain ⟨⟨m, hm, ho⟩, ha⟩ := hok.putting n hpc
    refine ⟨⟨m, by simp; omega, ?_⟩, ?_⟩
    · rw [putAfter_append hm]
      exact opOf_step (.exec hq) ho
    · rw [accepted_exec_of_ne (by rintro rfl; exact hn hpc)]
      exact fun h => List.mem_append_left _ (ha h)
  running := hok.running

/-- The client whose `Put` is accepted. -/
theorem ClientOk.exec_self {c : Client} (hok : ClientOk s.kv es c)
    (hq : s.kv.requests[i]? = some q) (hpc : c.pc = .putJson q.call) {args : PutArgs}
    (h : Installs "k" s.kv q args) :
    ClientOk (s.kv.exec i q) (es ++ [⟨c.me, c.i⟩]) c where
  appended := fun j hj => List.mem_append_left _ (hok.appended j hj)
  fresh := by
    intro e' he' hid
    rcases List.mem_append.mp he' with he' | he'
    · rcases hok.fresh e' he' hid with hlt | ⟨heq, -⟩
      · exact Or.inl hlt
      · exact Or.inr ⟨heq, _, hpc, accepted_exec h⟩
    · exact Or.inr ⟨by rw [List.mem_singleton.mp he'], _, hpc, accepted_exec h⟩
  getting := by simp [hpc]
  putting := by
    intro n hpc'
    obtain ⟨⟨m, hm, ho⟩, -⟩ := hok.putting n hpc'
    refine ⟨⟨m, by simp; omega, ?_⟩, fun _ => by simp⟩
    rw [putAfter_append hm]
    exact opOf_step (.exec hq) ho
  running := hok.running

theorem AppendInv.exec_installs (I : AppendInv es s) (hcl : Clients nclnt s)
    (w : WellFormed s.kv) (t : Tracks s.kv) (hb : puts "k" s.kv < 2 ^ 64)
    (hq : s.kv.requests[i]? = some q) {args : PutArgs} (h : Installs "k" s.kv q args) :
    ∃ e, AppendInv (es ++ [e]) { s with kv := s.kv.exec i q } := by
  obtain ⟨hne, c, hc, hpc, ho, hval⟩ := I.waiting w t hb (List.mem_of_getElem? hq) h
  have hcount := I.count
  refine ⟨⟨c.me, c.i⟩, ?_⟩
  constructor
  · dsimp only
    rw [puts_of_installs h, hcount, List.length_append, List.length_singleton]
  · intro j p hj
    dsimp only at hj
    rw [installs_of_installs h, List.getElem?_append] at hj
    split_ifs at hj with hlt
    · rw [I.value j p hj, List.take_append_of_le_length]
      change j < puts "k" s.kv at hlt
      omega
    · change ¬ j < puts "k" s.kv at hlt
      obtain ⟨hj0, rfl⟩ := List.getElem?_eq_some_iff.mp hj
      simp only [List.length_singleton] at hj0
      have hj1 : (es ++ [⟨c.me, c.i⟩] : List Entry).length ≤ j := by
        simp only [List.length_append, List.length_singleton]
        omega
      rw [List.take_of_length_le hj1, ← hval]
      simp
  · refine List.pairwise_append.mpr ⟨I.increasing, List.pairwise_singleton _ _, ?_⟩
    intro e he e' he' hid
    rw [List.mem_singleton.mp he'] at hid ⊢
    rcases (I.client c hc).fresh e he hid with hlt | ⟨-, n, hn, ha⟩
    · exact hlt
    · obtain rfl := Pc.putJson.inj (hpc.symm.trans hn)
      exact absurd ha.executed hne
  · exact I.dated.exec w t hq
  · intro n args' ho' hk'
    by_cases hn : n = q.call
    · exact Or.inl (hn ▸ executed_exec)
    · rcases I.live n args' ho' hk' with hex | hcl'
      · exact Or.inl ((executed_exec_of_ne hn).mpr hex)
      · exact Or.inr hcl'
  · exact I.found.exec t (by omega) i q
  · intro e he
    rcases List.mem_append.mp he with he | he
    · exact I.author e he
    · exact ⟨c, hc, by rw [List.mem_singleton.mp he]⟩
  · intro c' hc'
    by_cases hcc : c = c'
    · subst hcc
      exact (I.client c hc).exec_self hq hpc h
    · have hme : c.me ≠ c'.me := fun hme => hcc (hcl.eq_of_me hc hc' hme)
      refine (I.client c' hc').exec_other hq ?_ hme
      intro hpc'
      obtain ⟨⟨m, -, ho'⟩, -⟩ := (I.client c' hc').putting _ hpc'
      exact hme (me_of_putAfter (Option.some.inj (ho.symm.trans ho')))

theorem AppendInv.exec_unchanged (I : AppendInv es s) (w : WellFormed s.kv) (t : Tracks s.kv)
    (hq : s.kv.requests[i]? = some q) (h : ∀ args, ¬ Installs "k" s.kv q args) :
    AppendInv es { s with kv := s.kv.exec i q } where
  count := by
    dsimp only
    rw [puts_of_not h, I.count]
  value := by
    dsimp only
    rw [installs_of_not h]
    exact I.value
  increasing := I.increasing
  dated := I.dated.exec w t hq
  live := by
    intro n args ho hk
    rcases I.live n args ho hk with hex | hcl
    · exact Or.inl hex.exec
    · exact Or.inr hcl
  found := I.found.exec t (by have := I.count; omega) i q
  author := I.author
  client := by
    intro c hc
    have hok := I.client c hc
    refine ⟨hok.appended, ?_, fun n hpc => opOf_step (.exec hq) (hok.getting n hpc), ?_,
      hok.running⟩
    · intro e he hid
      rcases hok.fresh e he hid with hlt | ⟨heq, n, hpc, ha⟩
      · exact Or.inl hlt
      · exact Or.inr ⟨heq, n, hpc, ha.exec⟩
    · intro n hpc
      obtain ⟨⟨m, hm, ho⟩, ha⟩ := hok.putting n hpc
      exact ⟨⟨m, hm, opOf_step (.exec hq) ho⟩, fun hacc => ha (accepted_of_not w hq h ho rfl hacc)⟩

end exec

/-! ### The steps of a client -/

section client

variable {es : List Entry} {s : State} {l n : ℕ} {c : Client}

/-- The client `l` moves on: it leaves a `Put` only once an attempt of it was executed, and a new
`Put` is one it then waits for. -/
theorem AppendInv.move (I : AppendInv es s) {d : Client} {kv' : Kv.State}
    (hc : s.clients[l]? = some c) (hme : d.me = c.me) (hq : Quiet s.kv kv')
    (hok : ClientOk kv' es d) (hleft : ∀ n, c.pc = .putJson n → Executed s.kv.log n)
    (hnew : ∀ n args, opOf kv' n = some (.put args) → args.key = "k" →
      opOf s.kv n = some (.put args) ∨ (d.pc = .putJson n ∧ ¬ Executed s.kv.log n ∧
        ∃ m, m ≤ puts "k" s.kv ∧ args.version = UInt64.ofNat m)) :
    AppendInv es { s with kv := kv', clients := s.clients.set l d } := by
  have hmem : d ∈ s.clients.set l d := List.mem_set (List.getElem?_eq_some_iff.mp hc).1 d
  refine ⟨by rw [hq.puts, I.count], by simpa only [hq.installs] using I.value, I.increasing, ?_, ?_,
    I.found.of_quiet hq, ?_, ?_⟩
  · refine I.dated.of_quiet hq (fun n args ho hk => ?_)
    rcases hnew n args ho hk with ho | ⟨-, hver⟩
    · exact Or.inl ho
    · exact Or.inr hver
  · intro n args ho hk
    dsimp only
    rw [hq.executed]
    rcases hnew n args ho hk with ho | ⟨hpc, -⟩
    · rcases I.live n args ho hk with hex | ⟨c', hc', hpc⟩
      · exact Or.inl hex
      · rcases eq_or_mem_set hc hc' with rfl | hc'
        · exact Or.inl (hleft n hpc)
        · exact Or.inr ⟨c', hc', hpc⟩
    · exact Or.inr ⟨d, hmem, hpc⟩
  · intro e he
    obtain ⟨c', hc', hme'⟩ := I.author e he
    rcases eq_or_mem_set hc hc' with rfl | hc'
    · exact ⟨d, hmem, hme.trans hme'⟩
    · exact ⟨c', hc', hme'⟩
  · exact forall_mem_set (fun c' hc' => (I.client c' hc').of_quiet hq) hok

/-- The entries of a client without an accepted `Put` to wait for are of finished iterations. -/
theorem ClientOk.lt_of_mem {kv : Kv.State} (hok : ClientOk kv es c)
    (hpc : ∀ n, c.pc = .putJson n → ¬ Accepted kv.log n) {e : Entry} (he : e ∈ es)
    (hid : e.id = c.me) : e.n < c.i := by
  rcases hok.fresh e he hid with hlt | ⟨-, n, hn, ha⟩
  · exact hlt
  · exact absurd ha (hpc n hn)

/-- The client starts an iteration, or starts it again. -/
theorem AppendInv.call_get (I : AppendInv es s) (hc : s.clients[l]? = some c)
    (hleft : ∀ n, c.pc = .putJson n → Executed s.kv.log n ∧ ¬ Accepted s.kv.log n) :
    AppendInv es (s.call l c (.get ⟨"k"⟩) .getJson) := by
  have hok := I.client c (List.mem_of_getElem? hc)
  refine I.move (d := { c with pc := .getJson s.kv.calls.length }) hc rfl (quiet_invoke _ _ _) ?_
    (fun n hn => (hleft n hn).1) ?_
  · refine ⟨hok.appended, ?_, ?_, by simp, by simp⟩
    · intro e he hid
      exact Or.inl (hok.lt_of_mem (fun n hn => (hleft n hn).2) he hid)
    · intro n hn
      obtain rfl := Pc.getJson.inj hn
      exact opOf_invoke _ _ _
  · intro n args ho hk
    rcases opOf_invoke_cases ho with ho | ⟨-, ho⟩
    · exact Or.inl ho
    · cases ho

/-- The client stays outside of Clerk calls. -/
theorem AppendInv.goto (I : AppendInv es s) (hc : s.clients[l]? = some c)
    (hpc : c.pc = .select) : AppendInv es (s.goto l c .returned) := by
  have hok := I.client c (List.mem_of_getElem? hc)
  refine I.move (d := { c with pc := .returned }) hc rfl (quiet_refl _) ?_ (by simp [hpc])
    (fun _ _ ho _ => Or.inl ho)
  refine ⟨hok.appended, ?_, by simp, by simp, by simp⟩
  intro e he hid
  exact Or.inl (hok.lt_of_mem (by simp [hpc]) he hid)

/-- The value a client has read is a prefix of the list. -/
theorem AppendInv.read (I : AppendInv es s) (hkv : Kv.system.Reachable s.kv)
    (hc : s.clients[l]? = some c) (hpc : c.pc = .getJson n) {val : String} {ver : Tversion}
    {err : Err} (hr : resultOf s.kv n = some (.get val ver err)) :
    ∃ m, m ≤ es.length ∧ val = marshal (es.take m) ∧ ver = UInt64.ofNat (m + 1) ∧ err = .ok := by
  have ho := (I.client c (List.mem_of_getElem? hc)).getting n hpc
  rcases saw_result hkv ho hr with ⟨-, rfl⟩ | ⟨m, p, hm, rfl, rfl, rfl⟩
  · obtain ⟨a, reply, he, hf⟩ := result_exec (reachable_wellFormed hkv) ho hr
    cases reply with
    | put reply => cases hf
    | get reply =>
        simp only [Op.finish, Option.some.injEq, Ret.get.injEq] at hf
        exact absurd hf.2.2 (I.found n a _ _ he rfl)
  · have hlt : m < puts "k" s.kv := (List.getElem?_eq_some_iff.mp hm).1
    rw [I.count] at hlt
    exact ⟨m, by omega, I.value m p hm, rfl, rfl⟩

theorem AppendInv.append (I : AppendInv es s) (hkv : Kv.system.Reachable s.kv)
    (hc : s.clients[l]? = some c) (hpc : c.pc = .getJson n) {val : String} {ver : Tversion}
    {es' : List Entry} (hr : resultOf s.kv n = some (.get val ver .ok))
    (hes : unmarshal val = some es') :
    AppendInv es (s.call l c (.put ⟨"k", marshal (es' ++ [⟨c.me, c.i⟩]), ver⟩) .putJson) := by
  have hok := I.client c (List.mem_of_getElem? hc)
  have hnew := not_executed_new (reachable_wellFormed hkv)
  obtain ⟨m, hm, rfl, rfl, -⟩ := I.read hkv hc hpc hr
  rw [unmarshal_marshal, Option.some.injEq] at hes
  subst hes
  refine I.move (d := { c with pc := .putJson s.kv.calls.length }) hc rfl (quiet_invoke _ _ _) ?_
    (by simp [hpc]) ?_
  · refine ⟨hok.appended, ?_, by simp, ?_, by simp⟩
    · intro e he hid
      exact Or.inl (hok.lt_of_mem (by simp [hpc]) he hid)
    · intro n' hn'
      obtain rfl := Pc.putJson.inj hn'
      rw [(quiet_invoke _ _ _).accepted]
      exact ⟨⟨m, hm, opOf_invoke _ _ _⟩, fun ha => absurd ha.executed hnew⟩
  · intro n' args ho hk
    rcases opOf_invoke_cases ho with ho | ⟨rfl, he⟩
    · exact Or.inl ho
    · cases he
      exact Or.inr ⟨rfl, hnew, m + 1, by rw [I.count]; omega, rfl⟩

/-- An iteration ends: after `OK` its entry is in the list. -/
theorem AppendInv.advance (I : AppendInv es s) (w : WellFormed s.kv) (hcd : c.Counted)
    (hc : s.clients[l]? = some c) (hpc : c.pc = .putJson n) {err : Err}
    (hr : resultOf s.kv n = some (.put err)) : AppendInv es (s.advance l c err) := by
  have hok := I.client c (List.mem_of_getElem? hc)
  obtain ⟨⟨m, -, ho⟩, hacc⟩ := hok.putting n hpc
  refine I.move (d := c.advance err) hc rfl (quiet_refl _) ?_ ?_ (fun _ _ ho _ => Or.inl ho)
  · refine ⟨?_, ?_, by simp, by simp, by simp⟩
    · intro j hj
      rw [Client.advance_results, List.getElem?_append] at hj
      split_ifs at hj with hlt
      · exact hok.appended j hj
      · obtain ⟨hj0, he⟩ := List.getElem?_eq_some_iff.mp hj
        rw [List.length_singleton] at hj0
        obtain rfl : c.i = j := by
          have := hcd.length
          omega
        rw [List.getElem_singleton] at he
        subst he
        exact hacc (accepted_of_ok w ho hr)
    · intro e he hid
      refine Or.inl ?_
      rcases hok.fresh e he hid with hlt | ⟨heq, -⟩
      · exact hlt.trans (Nat.lt_succ_self _)
      · exact heq ▸ Nat.lt_succ_self _
  · intro n' hn'
    obtain rfl := Pc.putJson.inj (hpc.symm.trans hn')
    exact executed_of_result w hr

/-- A `Put` that has returned another error than `OK` and `ErrMaybe` was not accepted. -/
theorem AppendInv.not_accepted (I : AppendInv es s) (w : WellFormed s.kv)
    (hc : s.clients[l]? = some c) (hpc : c.pc = .putJson n) {err : Err}
    (hr : resultOf s.kv n = some (.put err)) (hok : err ≠ .ok) (hmay : err ≠ .errMaybe) :
    ¬ Accepted s.kv.log n := by
  obtain ⟨⟨m, -, ho⟩, -⟩ := (I.client c (List.mem_of_getElem? hc)).putting n hpc
  obtain ⟨call, hcall, hop⟩ := Option.map_eq_some_iff.mp ho
  rw [resultOf, hcall, Option.bind_some] at hr
  obtain ⟨reply, he, herr⟩ := w.put_reply hcall hop hr
  have hver : err = .errVersion := by
    have hfound := I.found _ _ _ _ he rfl
    split_ifs at herr with hg
    · exact absurd herr hmay
    · subst herr
      cases hre : reply.err with
      | ok => exact absurd hre hok
      | errNoKey => exact absurd hre hfound
      | errVersion => rfl
      | errMaybe => exact absurd hre hmay
  rintro ⟨a, args, ha⟩
  have hzero := applied_of_errVersion w hcall hop (hver ▸ hr)
  have hpos := applied_pos ha
  omega

end client

theorem AppendInv.step {nclnt : ℕ} {es : List Entry} {s s' : State} {a : Action}
    (I : AppendInv es s) (hcl : Clients nclnt s) (hkv : Kv.system.Reachable s.kv)
    (hb : puts "k" s.kv < 2 ^ 64) (h : Stepped s a s') : ∃ es', AppendInv es' s' := by
  have w := reachable_wellFormed hkv
  have t := reachable_tracks hkv
  cases h with
  | next hc hpc => exact ⟨es, I.call_get hc (by simp [hpc])⟩
  | stop hc hpc => exact ⟨es, I.goto hc hpc⟩
  | append hc hpc hr hes => exact ⟨es, I.append hkv hc hpc hr hes⟩
  | fatal hc hpc hr hes =>
      obtain ⟨m, -, rfl, -, rfl⟩ := I.read hkv hc hpc hr
      cases (unmarshal_marshal _).symm.trans (hes rfl)
  | advance hc hpc hr he =>
      exact ⟨es, I.advance w (hcl.counted _ (List.mem_of_getElem? hc)) hc hpc hr⟩
  | retry hc hpc hr hok hmay =>
      refine ⟨es, I.call_get hc ?_⟩
      intro n hn
      obtain rfl := Pc.putJson.inj (hpc.symm.trans hn)
      exact ⟨executed_of_result w hr, I.not_accepted w hc hpc hr hok hmay⟩
  | net ha hs =>
      rcases (Kv.State.step_cases hs).exec_or_quiet ha with ⟨i, q, hq, rfl⟩ | ⟨hq, ho⟩
      · by_cases h : ∃ args, Installs "k" s.kv q args
        · obtain ⟨args, h⟩ := h
          obtain ⟨e, I'⟩ := I.exec_installs hcl w t hb hq h
          exact ⟨_, I'⟩
        · exact ⟨es, I.exec_unchanged w t hq (not_exists.mp h)⟩
      · exact ⟨es, I.of_quiet hq ho⟩

theorem reachable_appendInv {nclnt : ℕ} {C : State → Action → Prop} {s : State}
    (h : (system nclnt).ReachableBy C s) (hb : puts "k" s.kv < 2 ^ 64) :
    ∃ es, AppendInv es s := by
  refine h.invariant (I := fun s => puts "k" s.kv < 2 ^ 64 → ∃ es, AppendInv es s)
    (fun _ => ⟨[], appendInv_init nclnt⟩) ?_ hb
  intro s a s' hr I _ hs hb
  have hst := State.step_cases hs
  have hmono : puts "k" s.kv ≤ puts "k" s'.kv := by
    rcases hst.kv with he | ⟨b, hb⟩
    · rw [he]
    · exact (Kv.State.step_cases hb).puts_mono "k"
  obtain ⟨es, I⟩ := I (hmono.trans_lt hb)
  exact I.step (reachable_clients hr) (reachable_kv hr) (hmono.trans_lt hb) hst

/-! ### The final list -/

theorem AppendInv.last {es : List Entry} {s : State} (I : AppendInv es s) :
    last "k" s.kv = some (marshal es) := by
  have hlen : (installs "k" s.kv.log).length = es.length + 1 := I.count
  have hp := List.getElem?_eq_getElem (l := installs "k" s.kv.log) (i := es.length) (by omega)
  rw [Kv.last, List.getLast?_eq_getElem?, hlen, Nat.add_sub_cancel, hp, Option.map_some,
    I.value _ _ hp, List.take_length]

theorem Increasing.nodup {es : List Entry} (h : Increasing es) : es.Nodup := by
  refine h.imp ?_
  rintro e e' hlt rfl
  exact lt_irrefl _ (hlt rfl)

/-- A client has at least as many entries as `OK` results. -/
theorem count_le_entriesOf {me : ℕ} {results : List Err} :
    ∀ {es : List Entry}, (∀ j, results[j]? = some .ok → ⟨me, j⟩ ∈ es) →
      results.count .ok ≤ entriesOf me es := by
  induction results using List.reverseRecOn with
  | nil => simp
  | append_singleton results err ih =>
      intro es h
      have hold : ∀ j, results[j]? = some .ok → ⟨me, j⟩ ∈ es.erase ⟨me, results.length⟩ := by
        intro j hj
        have hlt : j < results.length := (List.getElem?_eq_some_iff.mp hj).1
        have hne : (⟨me, j⟩ : Entry) ≠ ⟨me, results.length⟩ := by
          intro he
          have := (Entry.mk.inj he).2
          omega
        rw [List.mem_erase_of_ne hne]
        exact h j (by rw [List.getElem?_append_left hlt, hj])
      rw [List.count_append, List.count_singleton]
      split_ifs with he
      · have hmem : ⟨me, results.length⟩ ∈ es := h results.length (by simpa using he)
        have hperm := (List.perm_cons_erase hmem).countP_eq (fun e => e.id == me)
        rw [List.countP_cons_of_pos (by simp)] at hperm
        have := ih hold
        rw [entriesOf] at this ⊢
        omega
      · have hsub := (List.erase_sublist (a := ⟨me, results.length⟩) (l := es)).countP_le
          (p := fun e => e.id == me)
        have := ih hold
        rw [entriesOf] at this ⊢
        omega

/-- When all clients have stopped, the stored list has the entries of every client in increasing
order, every entry whose `Put` returned `OK` exactly once, every one whose `Put` returned
`ErrMaybe` at most once and no other; its version is its length plus one, and `CheckAppends`
passes. -/
theorem appends_exactly_once {nclnt : ℕ} {s : State} (h : (system nclnt).Reachable s)
    (hb : (installs "k" s.kv.log).length < 2 ^ 64) (hstop : ∀ c ∈ s.clients, c.pc = .returned) :
    ∃ es, s.kv.server.store "k" = some ⟨marshal es, UInt64.ofNat (es.length + 1)⟩ ∧
      Increasing es ∧
      (∀ c ∈ s.clients, ∀ i, c.results[i]? = some .ok → es.count ⟨c.me, i⟩ = 1) ∧
      (∀ c ∈ s.clients, ∀ i, c.results[i]? = some .errMaybe → es.count ⟨c.me, i⟩ ≤ 1) ∧
      (∀ e ∈ es, ∃ c ∈ s.clients, c.me = e.id ∧
        (c.results[e.n]? = some .ok ∨ c.results[e.n]? = some .errMaybe)) ∧
      checkAppends es nclnt (s.clients.map Client.res) (UInt64.ofNat (es.length + 1)) = .ok () := by
  obtain ⟨es, I⟩ := reachable_appendInv h hb
  have hcl := reachable_clients h
  have t := reachable_tracks (reachable_kv h)
  have hnodup := I.increasing.nodup
  have hlt : ∀ c ∈ s.clients, ∀ e ∈ es, e.id = c.me → e.n < c.i := by
    intro c hc e he hid
    exact (I.client c hc).lt_of_mem (by simp [hstop c hc]) he hid
  refine ⟨es, ?_, I.increasing, ?_, ?_, ?_, ?_⟩
  · rw [t.store_of_last I.last, I.count]
  · intro c hc i hi
    exact List.count_eq_one_of_mem hnodup ((I.client c hc).appended i hi)
  · intro c hc i hi
    exact List.nodup_iff_count_le_one.mp hnodup _
  · intro e he
    obtain ⟨c, hc, hme⟩ := I.author e he
    have hcd := hcl.counted c hc
    have hi : e.n < c.results.length := hcd.length ▸ hlt c hc e he hme.symm
    refine ⟨c, hc, hme, ?_⟩
    rw [List.getElem?_eq_getElem hi, Option.some.injEq, Option.some.injEq]
    exact hcd.outcome _ (List.getElem_mem hi)
  · have hres : ∀ l r, (s.clients.map Client.res)[l]? = some r →
        ∃ c ∈ s.clients, c.me = l ∧ r = ⟨c.nok, c.nmay⟩ := by
      intro l r hr
      rw [List.getElem?_map] at hr
      obtain ⟨c, hc, rfl⟩ := Option.map_eq_some_iff.mp hr
      exact ⟨c, List.mem_of_getElem? hc, hcl.me_eq hc, rfl⟩
    refine checkAppends_ok I.increasing rfl ?_ ?_ ?_ ?_
    · simpa using congrArg List.length hcl.mes
    · intro e he
      obtain ⟨c, hc, hme⟩ := I.author e he
      exact hme ▸ hcl.me_lt hc
    · intro l r hr
      obtain ⟨c, hc, rfl, rfl⟩ := hres l r hr
      rw [(hcl.counted c hc).nok]
      exact count_le_entriesOf (I.client c hc).appended
    · intro l r hr e he hid
      obtain ⟨c, hc, rfl, rfl⟩ := hres l r hr
      rw [(hcl.counted c hc).total]
      exact hlt c hc e he hid

/-- Both clients read the empty list.  The `Put` of client 0 is accepted, but the reply is lost and
the resend returns `ErrMaybe`; the `Put` of client 1 returns `ErrVersion`, and its second one
`OK`. -/
def twoClientsRun : List Action :=
  [.next 0, .next 1, .net (.exec 0), .net (.exec 0), .net (.callTrue 0), .net (.callTrue 0),
    .resume 0, .resume 1, .net (.exec 0), .net (.callFalse 3), .net (.exec 1), .net (.callTrue 1),
    .resume 0, .stop 0, .net (.exec 0), .net (.callTrue 1), .resume 1, .net (.exec 0),
    .net (.callTrue 1), .resume 1, .net (.exec 0), .net (.callTrue 1), .resume 1, .stop 1]

theorem appends_exactly_once_two : ∃ s, (system 2).Reachable s ∧
    s.clients = [⟨0, 1, 0, 1, .returned, [.errMaybe]⟩, ⟨1, 1, 1, 0, .returned, [.ok]⟩] ∧
    ∃ es, s.kv.server.store "k" = some ⟨marshal es, UInt64.ofNat (es.length + 1)⟩ ∧
      es.count ⟨1, 0⟩ = 1 ∧ es.count ⟨0, 0⟩ ≤ 1 ∧
      checkAppends es 2 [⟨0, 1⟩, ⟨1, 0⟩] (UInt64.ofNat (es.length + 1)) = .ok () := by
  obtain ⟨s, hr, hs⟩ := Lts.exists_of_exec (L := system 2) (C := fun _ _ => True)
    (p := fun s => decide ((installs "k" s.kv.log).length < 2 ^ 64 ∧
      s.clients = [⟨0, 1, 0, 1, .returned, [.errMaybe]⟩, ⟨1, 1, 1, 0, .returned, [.ok]⟩]))
    twoClientsRun (by decide)
  obtain ⟨hb, hc⟩ := of_decide_eq_true hs
  obtain ⟨es, hstore, -, hok, hmay, -, hcheck⟩ := appends_exactly_once hr hb (by simp [hc])
  rw [hc] at hcheck
  refine ⟨s, hr, hc, es, hstore, ?_, ?_, hcheck⟩
  · exact hok ⟨1, 1, 1, 0, .returned, [.ok]⟩ (by simp [hc]) 0 rfl
  · exact hmay ⟨0, 1, 0, 1, .returned, [.errMaybe]⟩ (by simp [hc]) 0 rfl

end DistributedSystems.Append
