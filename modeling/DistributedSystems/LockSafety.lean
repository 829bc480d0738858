import DistributedSystems.KvPuts
import DistributedSystems.LockSystem

/-! # Mutual exclusion and release of the locks

The invariant of the locks on one key `K` (`LockInv`).  Its core is about versions: a lock's `Put`
names a version that some `Get` read, so it names at most the current one, and once one attempt of
it has been executed it names an older one.  Hence the late attempts of a `Put` that has returned
are dead, and the only `Put`s that can still change the key belong to clients that wait for them.
A client waiting to acquire read a value that does not say another lock has the key, and a client
waiting to release still has it.

From this follow mutual exclusion (`held_unique`) and that a `Release` never leaves the key locked
(`no_orphaned_lock`). -/

namespace DistributedSystems.Lock

open DistributedSystems.Kv

/-! ### The invariant -/

/-- What a client of a lock on `K` can rely on at every point of its code. -/
def ClientOk (K : String) (kv : Kv.State) (c : Client) : Prop :=
  (c.held = true → last K kv = some (lockedBy c.id)) ∧
  match c.pc with
  | .idle => c.held = false → last K kv ≠ some (lockedBy c.id)
  | .acquireGet n => opOf kv n = some (.get ⟨K⟩)
  | .acquirePut n =>
      (∃ m, m ≤ puts K kv ∧ opOf kv n = some (.put ⟨K, lockedBy c.id, UInt64.ofNat m⟩) ∧
        ∀ p, 0 < m → (installs K kv.log)[m - 1]? = some p → mayAcquire c.id p.2 = true) ∧
      (Accepted kv.log n → last K kv = some (lockedBy c.id))
  | .releaseGet n =>
      c.held = false ∧ opOf kv n = some (.get ⟨K⟩) ∧ last K kv = some (lockedBy c.id) ∧
      ∀ a op r, Event.exec n a op r ∈ kv.log →
        r = .get ⟨lockedBy c.id, UInt64.ofNat (puts K kv), .ok⟩
  | .releasePut n =>
      c.held = false ∧ ∃ ver, opOf kv n = some (.put ⟨K, releasedBy c.id, ver⟩) ∧
      (¬ Executed kv.log n →
        ver = UInt64.ofNat (puts K kv) ∧ last K kv = some (lockedBy c.id)) ∧
      (Executed kv.log n → Accepted kv.log n ∧ last K kv ≠ some (lockedBy c.id))

/-- The invariant of the locks on the key `K`. -/
structure LockInv (K : String) (s : State) : Prop where
  ids : ∀ c ∈ s.clients, ∃ k, k ≤ s.count ∧ c.id = idOf k
  distinct : (s.clients.map Client.id).Nodup
  client : ∀ c ∈ s.clients, c.lockname = K → ClientOk K s.kv c
  dated : Dated K s.kv
  live : ∀ n args, opOf s.kv n = some (.put args) → args.key = K →
    Executed s.kv.log n ∨
      ∃ c ∈ s.clients, c.lockname = K ∧ (c.pc = .acquirePut n ∨ c.pc = .releasePut n)
  values : ∀ p ∈ installs K s.kv.log,
    ∃ c ∈ s.clients, c.lockname = K ∧ (p.2 = lockedBy c.id ∨ p.2 = releasedBy c.id)

/-- The conditions on a step: a lock on `K` is released only while it is held, and the
application writes `K` only through locks. -/
def Proper (K : String) (s : State) : Action → Prop
  | .release l => ∀ c ∈ s.clients[l]?, c.lockname = K → c.held = true
  | .app _ (.put args) => args.key ≠ K
  | _ => True

instance (K : String) (s : State) : (a : Action) → Decidable (Proper K s a)
  | .release l => inferInstanceAs (Decidable (∀ c ∈ s.clients[l]?, c.lockname = K → c.held = true))
  | .app _ (.put args) => inferInstanceAs (Decidable (args.key ≠ K))
  | .app _ (.get _) => inferInstanceAs (Decidable True)
  | .makeLock _ => inferInstanceAs (Decidable True)
  | .acquire _ => inferInstanceAs (Decidable True)
  | .resume _ => inferInstanceAs (Decidable True)
  | .net _ => inferInstanceAs (Decidable True)

theorem lockInv_init (K : String) : LockInv K State.init := by
  constructor <;> simp [State.init, Kv.State.init, opOf, Dated]

theorem LockInv.named {K : String} {s : State} (I : LockInv K s) : Named s := ⟨I.ids, I.distinct⟩

theorem LockInv.eq_of_id {K : String} {s : State} (I : LockInv K s) {c c' : Client}
    (hc : c ∈ s.clients) (hc' : c' ∈ s.clients) (h : c.id = c'.id) : c = c' :=
  List.inj_on_of_nodup_map I.distinct hc hc' h

/-! ### Steps that execute nothing -/

theorem ClientOk.of_quiet {K : String} {kv kv' : Kv.State} {c : Client} (h : ClientOk K kv c)
    (hq : Quiet kv kv') : ClientOk K kv' c := by
  obtain ⟨hheld, hpc⟩ := h
  refine ⟨by rwa [hq.last], ?_⟩
  cases hp : c.pc with
  | idle =>
      rw [hp] at hpc
      simpa only [hq.last] using hpc
  | acquireGet n =>
      rw [hp] at hpc
      exact hq.op _ _ hpc
  | acquirePut n =>
      rw [hp] at hpc
      obtain ⟨⟨m, hm, ho, hv⟩, ha⟩ := hpc
      refine ⟨⟨m, by rwa [hq.puts], hq.op _ _ ho, by rwa [hq.installs]⟩, ?_⟩
      rwa [hq.accepted, hq.last]
  | releaseGet n =>
      rw [hp] at hpc
      obtain ⟨hh, ho, hl, he⟩ := hpc
      refine ⟨hh, hq.op _ _ ho, by rwa [hq.last], ?_⟩
      intro a op r hx
      rw [hq.puts]
      exact he a op r ((hq.exec _ _ _ _).mp hx)
  | releasePut n =>
      rw [hp] at hpc
      obtain ⟨hh, ver, ho, h1, h2⟩ := hpc
      refine ⟨hh, ver, hq.op _ _ ho, ?_, ?_⟩
      · rwa [hq.executed, hq.puts, hq.last]
      · rwa [hq.executed, hq.accepted, hq.last]

theorem LockInv.of_quiet {K : String} {s : State} {kv' : Kv.State} (I : LockInv K s)
    (hq : Quiet s.kv kv')
    (hop : ∀ n args, opOf kv' n = some (.put args) → args.key = K →
      opOf s.kv n = some (.put args)) : LockInv K { s with kv := kv' } where
  ids := I.ids
  distinct := I.distinct
  client := fun c hc hK => (I.client c hc hK).of_quiet hq
  dated := I.dated.of_quiet hq (fun n args ho hk => Or.inl (hop n args ho hk))
  live := by
    intro n args ho hk
    dsimp only
    rw [hq.executed]
    exact I.live n args (hop n args ho hk) hk
  values := by
    dsimp only
    rw [hq.installs]
    exact I.values

/-! ### Executing a request -/

section exec

variable {K : String} {s : State} {i : ℕ} {q : Request}

/-- A request that can change the key belongs to a client that waits for it, and no attempt of
its call has been executed. -/
theorem LockInv.waiting (I : LockInv K s) (w : WellFormed s.kv) (t : Tracks s.kv)
    (hb : puts K s.kv < 2 ^ 64) (hq : q ∈ s.kv.requests) {args : PutArgs}
    (h : Installs K s.kv q args) :
    opOf s.kv q.call = some (.put args) ∧ args.version = UInt64.ofNat (puts K s.kv) ∧
      ¬ Executed s.kv.log q.call ∧ ∃ c ∈ s.clients, c.lockname = K ∧
        (c.pc = .acquirePut q.call ∨ c.pc = .releasePut q.call) := by
  obtain ⟨ho, hv, hne⟩ := I.dated.not_executed w t hb hq h
  refine ⟨ho, hv, hne, ?_⟩
  rcases I.live _ _ ho h.2.1 with hex | hcl
  · exact absurd hex hne
  · exact hcl

/-- When a waiting client's `Put` can be installed, the key is not locked by another lock. -/
theorem LockInv.unowned (I : LockInv K s) (hb : puts K s.kv < 2 ^ 64) {args : PutArgs} {n : ℕ}
    (ho : opOf s.kv n = some (.put args)) (hv : args.version = UInt64.ofNat (puts K s.kv))
    (hne : ¬ Executed s.kv.log n) {c c' : Client} (hc : c ∈ s.clients) (hK : c.lockname = K)
    (hpc : c.pc = .acquirePut n ∨ c.pc = .releasePut n) (hc' : c' ∈ s.clients)
    (hl : last K s.kv = some (lockedBy c'.id)) : c = c' := by
  refine I.eq_of_id hc hc' ?_
  obtain ⟨-, hok⟩ := I.client c hc hK
  rcases hpc with hpc | hpc
  · rw [hpc] at hok
    obtain ⟨⟨m, hm, hom, hmay⟩, -⟩ := hok
    rw [ho, Option.some.injEq, Op.put.injEq] at hom
    subst hom
    have hmeq : m = puts K s.kv := ofNat_inj_of_lt (by omega) hb hv
    obtain ⟨hpos, p, hp, hpv⟩ := getElem?_of_last hl
    have hmay := hmay p (hmeq ▸ hpos) (hmeq ▸ hp)
    obtain ⟨k, -, hk⟩ := I.ids c' hc'
    rw [hpv, hk] at hmay
    rw [hk]
    exact mayAcquire_lockedBy hmay
  · rw [hpc] at hok
    obtain ⟨-, ver, -, h1, -⟩ := hok
    have := (h1 hne).2
    rw [hl, Option.some.injEq] at this
    exact (lockedBy_injective this).symm

/-- The client whose `Put` is installed. -/
theorem ClientOk.installed {c : Client} (hok : ClientOk K s.kv c) {args : PutArgs}
    (h : Installs K s.kv q args) (hq : s.kv.requests[i]? = some q)
    (ho : opOf s.kv q.call = some (.put args))
    (hpc : c.pc = .acquirePut q.call ∨ c.pc = .releasePut q.call) :
    ClientOk K (s.kv.exec i q) c ∧ (args.value = lockedBy c.id ∨ args.value = releasedBy c.id) := by
  have hop' : opOf (s.kv.exec i q) q.call = some (.put args) := opOf_step (.exec hq) ho
  obtain ⟨hheld, hok⟩ := hok
  rcases hpc with hpc | hpc
  · rw [hpc] at hok
    obtain ⟨⟨m, hm, hom, hmay⟩, -⟩ := hok
    rw [ho, Option.some.injEq, Op.put.injEq] at hom
    subst hom
    have hlast := last_of_installs (i := i) h
    refine ⟨⟨fun _ => hlast, ?_⟩, Or.inl rfl⟩
    rw [hpc]
    refine ⟨⟨m, ?_, hop', ?_⟩, fun _ => hlast⟩
    · rw [puts_of_installs h]
      omega
    · intro p hpos hp
      rw [getElem?_installs_of_lt h (by omega)] at hp
      exact hmay p hpos hp
  · rw [hpc] at hok
    obtain ⟨hh, ver, hov, -, -⟩ := hok
    rw [ho, Option.some.injEq, Op.put.injEq] at hov
    subst hov
    refine ⟨⟨fun hh' => absurd hh' (by simp [hh]), ?_⟩, Or.inr rfl⟩
    rw [hpc]
    refine ⟨hh, ver, hop', fun hne => absurd (accepted_exec h).executed hne, fun _ => ?_⟩
    refine ⟨accepted_exec h, ?_⟩
    rw [last_of_installs h]
    exact fun he => releasedBy_ne_lockedBy _ _ (Option.some.inj he)

/-- A client that the value of the key does not name, when another client's `Put` is installed. -/
theorem ClientOk.other {c : Client} (hok : ClientOk K s.kv c) {args : PutArgs}
    (h : Installs K s.kv q args) (hq : s.kv.requests[i]? = some q)
    (ho : opOf s.kv q.call = some (.put args)) (hl : last K s.kv ≠ some (lockedBy c.id))
    (hval : args.value ≠ lockedBy c.id) (hval' : args.value ≠ releasedBy c.id) :
    ClientOk K (s.kv.exec i q) c := by
  have hl' : last K (s.kv.exec i q) ≠ some (lockedBy c.id) := by
    rw [last_of_installs h]
    exact fun he => hval (Option.some.inj he)
  obtain ⟨hheld, hok⟩ := hok
  refine ⟨fun hh => absurd (hheld hh) hl, ?_⟩
  cases hpc : c.pc with
  | idle => exact fun _ => hl'
  | acquireGet n =>
      rw [hpc] at hok
      exact opOf_step (.exec hq) hok
  | acquirePut n =>
      rw [hpc] at hok
      obtain ⟨⟨m, hm, hom, hmay⟩, hacc⟩ := hok
      have hn : n ≠ q.call := by
        rintro rfl
        rw [ho, Option.some.injEq, Op.put.injEq] at hom
        exact hval (by rw [hom])
      refine ⟨⟨m, ?_, opOf_step (.exec hq) hom, ?_⟩, ?_⟩
      · rw [puts_of_installs h]
        omega
      · intro p hpos hp
        rw [getElem?_installs_of_lt h (by omega)] at hp
        exact hmay p hpos hp
      · rw [accepted_exec_of_ne hn]
        exact fun ha => absurd (hacc ha) hl
  | releaseGet n =>
      rw [hpc] at hok
      exact absurd hok.2.2.1 hl
  | releasePut n =>
      rw [hpc] at hok
      obtain ⟨hh, ver, hov, h1, h2⟩ := hok
      have hn : n ≠ q.call := by
        rintro rfl
        rw [ho, Option.some.injEq, Op.put.injEq] at hov
        exact hval' (by rw [hov])
      refine ⟨hh, ver, opOf_step (.exec hq) hov, ?_, ?_⟩
      · rw [executed_exec_of_ne hn]
        exact fun hne => absurd (h1 hne).2 hl
      · rw [executed_exec_of_ne hn, accepted_exec_of_ne hn]
        exact fun he => ⟨(h2 he).1, hl'⟩

/-- A client when the execution installs nothing for the key. -/
theorem ClientOk.unchanged {c : Client} (hok : ClientOk K s.kv c) (w : WellFormed s.kv)
    (t : Tracks s.kv) (h : ∀ args, ¬ Installs K s.kv q args) (hq : s.kv.requests[i]? = some q) :
    ClientOk K (s.kv.exec i q) c := by
  have hputs := puts_of_not (i := i) h
  have hlast := last_of_not (i := i) h
  obtain ⟨hheld, hok⟩ := hok
  refine ⟨by rwa [hlast], ?_⟩
  cases hpc : c.pc with
  | idle =>
      rw [hpc] at hok
      simpa only [hlast] using hok
  | acquireGet n =>
      rw [hpc] at hok
      exact opOf_step (.exec hq) hok
  | acquirePut n =>
      rw [hpc] at hok
      obtain ⟨⟨m, hm, hom, hmay⟩, hacc⟩ := hok
      refine ⟨⟨m, by rwa [hputs], opOf_step (.exec hq) hom, by rwa [installs_of_not h]⟩, ?_⟩
      intro ha
      rw [hlast]
      exact hacc (accepted_of_not w hq h hom rfl ha)
  | releaseGet n =>
      rw [hpc] at hok
      obtain ⟨hh, hog, hl, hx⟩ := hok
      refine ⟨hh, opOf_step (.exec hq) hog, by rwa [hlast], ?_⟩
      intro a op r he
      rw [hputs]
      simp only [Kv.State.exec_log, List.mem_append, List.mem_singleton, Event.exec.injEq] at he
      rcases he with he | ⟨rfl, -, -, hrep⟩
      · exact hx a op r he
      · rw [w.opOf_request (List.mem_of_getElem? hq), Option.some.injEq] at hog
        rw [hog] at hrep
        obtain ⟨p, hp, hpv⟩ := Option.map_eq_some_iff.mp hl
        rw [hrep, KVServer.handle, t.get, hp, ← hpv]
        rfl
  | releasePut n =>
      rw [hpc] at hok
      obtain ⟨hh, ver, hov, h1, h2⟩ := hok
      refine ⟨hh, ver, opOf_step (.exec hq) hov, ?_, ?_⟩
      · intro hne
        rw [hputs, hlast]
        exact h1 (fun hex => hne hex.exec)
      · intro hex
        have hold : Executed s.kv.log n := by
          by_contra hne
          have hn := ne_call_of_not w t hq h hov rfl (h1 hne).1
          exact hne ((executed_exec_of_ne hn).mp hex)
        obtain ⟨hacc, hl⟩ := h2 hold
        exact ⟨hacc.exec, by rwa [hlast]⟩

theorem LockInv.exec_installs (I : LockInv K s) (w : WellFormed s.kv) (t : Tracks s.kv)
    (hb : puts K s.kv < 2 ^ 64) (hq : s.kv.requests[i]? = some q) {args : PutArgs}
    (h : Installs K s.kv q args) : LockInv K { s with kv := s.kv.exec i q } := by
  obtain ⟨ho, hv, hne, c, hc, hK, hpc⟩ := I.waiting w t hb (List.mem_of_getElem? hq) h
  obtain ⟨hcok, hval⟩ := (I.client c hc hK).installed h hq ho hpc
  refine ⟨I.ids, I.distinct, ?_, I.dated.exec w t hq, ?_, ?_⟩
  · intro c' hc' hK'
    by_cases hcc : c = c'
    · exact hcc ▸ hcok
    have hid : c.id ≠ c'.id := fun he => hcc (I.eq_of_id hc hc' he)
    refine (I.client c' hc' hK').other h hq ho ?_ ?_ ?_
    · intro hl
      exact hcc (I.unowned hb ho hv hne hc hK hpc hc' hl)
    · intro he
      rcases hval with hval | hval
      · exact hid (lockedBy_injective (hval.symm.trans he))
      · exact releasedBy_ne_lockedBy _ _ (hval.symm.trans he)
    · intro he
      rcases hval with hval | hval
      · exact releasedBy_ne_lockedBy _ _ (he.symm.trans hval)
      · exact hid (releasedBy_injective (hval.symm.trans he))
  · intro n args' ho' hk'
    rcases I.live n args' ho' hk' with hex | hcl
    · exact Or.inl hex.exec
    · exact Or.inr hcl
  · intro p hp
    dsimp only at hp
    rw [installs_of_installs h, List.mem_append, List.mem_singleton] at hp
    rcases hp with hp | rfl
    · exact I.values p hp
    · exact ⟨c, hc, hK, hval⟩

theorem LockInv.exec_unchanged (I : LockInv K s) (w : WellFormed s.kv) (t : Tracks s.kv)
    (hq : s.kv.requests[i]? = some q) (h : ∀ args, ¬ Installs K s.kv q args) :
    LockInv K { s with kv := s.kv.exec i q } := by
  refine ⟨I.ids, I.distinct, ?_, I.dated.exec w t hq, ?_, ?_⟩
  · intro c hc hK
    exact (I.client c hc hK).unchanged w t h hq
  · intro n args ho hk
    rcases I.live n args ho hk with hex | hcl
    · exact Or.inl hex.exec
    · exact Or.inr hcl
  · dsimp only
    rw [installs_of_not h]
    exact I.values

theorem LockInv.exec (I : LockInv K s) (w : WellFormed s.kv) (t : Tracks s.kv)
    (hb : puts K s.kv < 2 ^ 64) (hq : s.kv.requests[i]? = some q) :
    LockInv K { s with kv := s.kv.exec i q } := by
  by_cases h : ∃ args, Installs K s.kv q args
  · obtain ⟨args, h⟩ := h
    exact I.exec_installs w t hb hq h
  · exact I.exec_unchanged w t hq (not_exists.mp h)

end exec

/-! ### The steps of a client -/

section client

variable {K : String} {s : State} {l : ℕ} {c c' : Client} {kv' : Kv.State}

/-- The client `l` moves on: it leaves a `Put` only once an attempt of it was executed, and a new
`Put` on the key is one it then waits for. -/
theorem LockInv.move (I : LockInv K s) (hc : s.clients[l]? = some c) (hid : c'.id = c.id)
    (hname : c'.lockname = c.lockname) (hq : Quiet s.kv kv')
    (hok : c.lockname = K → ClientOk K kv' c')
    (hleft : c.lockname = K → ∀ n, c.pc = .acquirePut n ∨ c.pc = .releasePut n →
      Executed s.kv.log n)
    (hnew : ∀ n args, opOf kv' n = some (.put args) → args.key = K →
      opOf s.kv n = some (.put args) ∨
        (c.lockname = K ∧ (c'.pc = .acquirePut n ∨ c'.pc = .releasePut n) ∧
          ¬ Executed s.kv.log n ∧ ∃ m, m ≤ puts K s.kv ∧ args.version = UInt64.ofNat m)) :
    LockInv K { s with kv := kv', clients := s.clients.set l c' } := by
  have hl : l < s.clients.length := (List.getElem?_eq_some_iff.mp hc).1
  have hmem : c' ∈ s.clients.set l c' := List.mem_set hl c'
  have named : Named { s with kv := kv', clients := s.clients.set l c' } := I.named.set hc hid kv'
  refine ⟨named.ids, named.distinct, ?_, ?_, ?_, ?_⟩
  · intro d hd hK
    rcases List.mem_or_eq_of_mem_set hd with hd | rfl
    · exact (I.client d hd hK).of_quiet hq
    · exact hok (hname ▸ hK)
  · refine I.dated.of_quiet hq (fun n args ho hk => ?_)
    rcases hnew n args ho hk with ho | ⟨-, -, hver⟩
    · exact Or.inl ho
    · exact Or.inr hver
  · intro n args ho hk
    dsimp only
    rw [hq.executed]
    rcases hnew n args ho hk with ho | ⟨hK, hpc, -⟩
    · rcases I.live n args ho hk with hex | ⟨d, hd, hK, hpc⟩
      · exact Or.inl hex
      · rcases eq_or_mem_set hc hd with rfl | hd
        · exact Or.inl (hleft hK n hpc)
        · exact Or.inr ⟨d, hd, hK, hpc⟩
    · exact Or.inr ⟨c', hmem, hname.trans hK, hpc⟩
  · dsimp only
    rw [hq.installs]
    intro p hp
    obtain ⟨d, hd, hK, hv⟩ := I.values p hp
    rcases eq_or_mem_set hc hd with rfl | hd
    · exact ⟨c', hmem, hname.trans hK, hid ▸ hv⟩
    · exact ⟨d, hd, hK, hv⟩

/-- The client starts a `Get`. -/
theorem LockInv.call_get (I : LockInv K s) {d : Client} (hc : s.clients[l]? = some c)
    (hid : d.id = c.id) (hname : d.lockname = c.lockname) {pc : ℕ → Pc}
    (hok : c.lockname = K →
      ClientOk K (s.kv.invoke l (.get ⟨d.lockname⟩)) { d with pc := pc s.kv.calls.length })
    (hleft : c.lockname = K → ∀ n, c.pc = .acquirePut n ∨ c.pc = .releasePut n →
      Executed s.kv.log n) : LockInv K (s.call l d (.get ⟨d.lockname⟩) pc) := by
  refine I.move hc hid hname (quiet_invoke _ _ _) hok hleft ?_
  intro n args ho hk
  rcases opOf_invoke_cases ho with ho | ⟨-, ho⟩
  · exact Or.inl ho
  · cases ho

/-- The client starts an attempt to acquire, or starts it again. -/
theorem LockInv.acquireGet (I : LockInv K s) (hc : s.clients[l]? = some c)
    (hleft : ∀ n, c.pc = .acquirePut n ∨ c.pc = .releasePut n → Executed s.kv.log n) :
    LockInv K (s.call l c (.get ⟨c.lockname⟩) .acquireGet) := by
  refine I.call_get hc rfl rfl ?_ (fun _ => hleft)
  rintro rfl
  obtain ⟨hheld, -⟩ := I.client c (List.mem_of_getElem? hc) rfl
  refine ⟨?_, opOf_invoke _ _ _⟩
  rwa [(quiet_invoke _ _ _).last]

/-- The client starts a `Put` that names a version up to the current one. -/
theorem LockInv.call_put (I : LockInv K s) (w : WellFormed s.kv) (hc : s.clients[l]? = some c)
    {args : PutArgs} {pc : ℕ → Pc} (hpcs : pc = .acquirePut ∨ pc = .releasePut)
    (hkey : args.key = c.lockname)
    (hver : c.lockname = K → ∃ m, m ≤ puts K s.kv ∧ args.version = UInt64.ofNat m)
    (hok : c.lockname = K →
      ClientOk K (s.kv.invoke l (.put args)) { c with pc := pc s.kv.calls.length })
    (hleft : ∀ n, ¬ (c.pc = .acquirePut n ∨ c.pc = .releasePut n)) :
    LockInv K (s.call l c (.put args) pc) := by
  refine I.move hc rfl rfl (quiet_invoke _ _ _) hok (fun _ n hn => absurd hn (hleft n)) ?_
  intro n args' ho hk
  rcases opOf_invoke_cases ho with ho | ⟨rfl, he⟩
  · exact Or.inl ho
  · cases he
    have hK : c.lockname = K := hkey.symm.trans hk
    refine Or.inr ⟨hK, ?_, not_executed_new w, hver hK⟩
    rcases hpcs with rfl | rfl
    · exact Or.inl rfl
    · exact Or.inr rfl

/-- The client returns. -/
theorem LockInv.done (I : LockInv K s) (hc : s.clients[l]? = some c) {held : Bool}
    (hok : c.lockname = K → ClientOk K s.kv { c with pc := .idle, held := held })
    (hleft : c.lockname = K → ∀ n, c.pc = .acquirePut n ∨ c.pc = .releasePut n →
      Executed s.kv.log n) : LockInv K (s.done l c held) := by
  exact I.move hc rfl rfl (quiet_refl _) hok hleft (fun _ _ ho _ => Or.inl ho)

end client

theorem LockInv.makeLock {K : String} {s : State} (I : LockInv K s) (lockname : String) :
    LockInv K (s.makeLock lockname) := by
  have named := I.named.makeLock lockname
  refine ⟨named.ids, named.distinct, ?_, I.dated, ?_, ?_⟩
  · intro c hc hK
    rw [State.makeLock_clients, List.mem_append, List.mem_singleton] at hc
    rcases hc with hc | rfl
    · exact I.client c hc hK
    · refine ⟨fun hh => absurd hh (by simp), fun _ hl => ?_⟩
      obtain ⟨p, hp, hpv⟩ := Option.map_eq_some_iff.mp hl
      obtain ⟨c, hc, -, hv⟩ := I.values p (List.mem_of_getLast? hp)
      rcases hv with hv | hv
      · exact I.named.fresh c hc (lockedBy_injective (hv.symm.trans hpv))
      · exact releasedBy_ne_lockedBy _ _ (hv.symm.trans hpv)
  · intro n args ho hk
    rcases I.live n args ho hk with hex | ⟨c, hc, hK, hpc⟩
    · exact Or.inl hex
    · exact Or.inr ⟨c, by simp [hc], hK, hpc⟩
  · intro p hp
    obtain ⟨c, hc, hK, hv⟩ := I.values p hp
    exact ⟨c, by simp [hc], hK, hv⟩

/-! ### Every step keeps the invariant -/

section step

variable {K : String} {s : State} {l n : ℕ} {c : Client}

/-- What the `Get` of a client that releases has returned. -/
theorem ClientOk.releaseGet_result (hok : ClientOk K s.kv c) (w : WellFormed s.kv)
    (hpc : c.pc = .releaseGet n) {val : String} {ver : Tversion} {err : Err}
    (hr : resultOf s.kv n = some (.get val ver err)) :
    val = lockedBy c.id ∧ ver = UInt64.ofNat (puts K s.kv) ∧ err = .ok := by
  obtain ⟨-, hok⟩ := hok
  rw [hpc] at hok
  obtain ⟨-, ho, -, hx⟩ := hok
  obtain ⟨a, reply, he, hf⟩ := result_exec w ho hr
  rw [hx a _ _ he] at hf
  simp only [Op.finish, Option.some.injEq, Ret.get.injEq] at hf
  exact ⟨hf.1.symm, hf.2.1.symm, hf.2.2.symm⟩

/-- The `Release` of a lock on the key never stops after its `Get`. -/
theorem ClientOk.not_nothing (hok : ClientOk K s.kv c) (w : WellFormed s.kv)
    (hid : ∃ k, c.id = idOf k) (hpc : c.pc = .releaseGet n) {val : String} {ver : Tversion}
    {err : Err} (hr : resultOf s.kv n = some (.get val ver err)) :
    ¬ (err = .errNoKey ∨ (parse val).1 = "") := by
  obtain ⟨rfl, -, rfl⟩ := hok.releaseGet_result w hpc hr
  obtain ⟨k, hk⟩ := hid
  rintro (he | he)
  · cases he
  · rw [hk, parse_lockedBy] at he
    exact idOf_ne_empty k he

/-- The `Put` of a client that acquires, once it has returned `OK`, has locked the key. -/
theorem ClientOk.acquirePut_ok (hok : ClientOk K s.kv c) (w : WellFormed s.kv)
    (hpc : c.pc = .acquirePut n) (hr : resultOf s.kv n = some (.put .ok)) :
    last K s.kv = some (lockedBy c.id) := by
  obtain ⟨-, hok⟩ := hok
  rw [hpc] at hok
  obtain ⟨⟨m, -, ho, -⟩, hacc⟩ := hok
  exact hacc (accepted_of_ok w ho hr)

/-- When the `Put` of a `Release` has returned, it was accepted and the lock is gone. -/
theorem ClientOk.releasePut_done (hok : ClientOk K s.kv c) (w : WellFormed s.kv)
    (hpc : c.pc = .releasePut n) {r : Ret} (hr : resultOf s.kv n = some r) :
    (∃ ver, opOf s.kv n = some (.put ⟨K, releasedBy c.id, ver⟩)) ∧ Accepted s.kv.log n ∧
      last K s.kv ≠ some (lockedBy c.id) := by
  have hex := executed_of_result w hr
  obtain ⟨-, hok⟩ := hok
  rw [hpc] at hok
  obtain ⟨-, ver, ho, -, h2⟩ := hok
  exact ⟨⟨ver, ho⟩, h2 hex⟩

/-- A client that holds the lock starts to release it. -/
theorem LockInv.releaseGet (I : LockInv K s) (w : WellFormed s.kv) (hc : s.clients[l]? = some c)
    (hpc : c.pc = .idle) (hheld : c.lockname = K → c.held = true) :
    LockInv K (s.call l { c with held := false } (.get ⟨c.lockname⟩) .releaseGet) := by
  refine I.call_get (d := { c with held := false }) hc rfl rfl ?_ (by simp [hpc])
  rintro rfl
  obtain ⟨hlocked, -⟩ := I.client _ (List.mem_of_getElem? hc) rfl
  refine ⟨fun hh => absurd hh (by simp), rfl, opOf_invoke _ _ _, ?_, ?_⟩
  · rw [(quiet_invoke _ _ _).last]
    exact hlocked (hheld rfl)
  · intro a op r he
    rw [(quiet_invoke _ _ _).exec] at he
    exact absurd ⟨a, op, r, he⟩ (not_executed_new w)

/-- A client that has read a value it may replace tries to lock the key. -/
theorem LockInv.acquirePut (I : LockInv K s) (hk : Kv.system.Reachable s.kv)
    (hc : s.clients[l]? = some c) (hpc : c.pc = .acquireGet n) {val : String} {ver : Tversion}
    {err : Err} (hr : resultOf s.kv n = some (.get val ver err)) (hv : mayAcquire c.id val = true) :
    LockInv K (s.call l c (.put ⟨c.lockname, lockedBy c.id, ver⟩) .acquirePut) := by
  have w := reachable_wellFormed hk
  have hsaw : ∀ hK : c.lockname = K, _ := fun hK => by
    obtain ⟨-, ho⟩ := I.client _ (List.mem_of_getElem? hc) hK
    rw [hpc] at ho
    exact saw_version hk ho hr
  refine I.call_put w hc (Or.inl rfl) rfl ?_ ?_ (by simp [hpc])
  · intro hK
    obtain ⟨m, hm, hmv, -⟩ := hsaw hK
    exact ⟨m, hm, hmv⟩
  · rintro rfl
    obtain ⟨m, hm, rfl, hval⟩ := hsaw rfl
    obtain ⟨hheld, -⟩ := I.client _ (List.mem_of_getElem? hc) rfl
    refine ⟨by rwa [(quiet_invoke _ _ _).last], ⟨m, ?_, opOf_invoke _ _ _, ?_⟩, ?_⟩
    · rwa [(quiet_invoke _ _ _).puts]
    · rw [(quiet_invoke _ _ _).installs]
      intro p hpos hp
      rw [hval p hpos hp]
      exact hv
    · rw [(quiet_invoke _ _ _).accepted]
      exact fun ha => absurd ha.executed (not_executed_new w)

/-- A client that has read its own lock frees it at the current version. -/
theorem LockInv.releasePut (I : LockInv K s) (w : WellFormed s.kv) (hc : s.clients[l]? = some c)
    (hpc : c.pc = .releaseGet n) {val : String} {ver : Tversion} {err : Err}
    (hr : resultOf s.kv n = some (.get val ver err)) :
    LockInv K (s.call l c (.put ⟨c.lockname, releasedBy c.id, ver⟩) .releasePut) := by
  have hok := I.client _ (List.mem_of_getElem? hc)
  refine I.call_put w hc (Or.inr rfl) rfl ?_ ?_ (by simp [hpc])
  · intro hK
    exact ⟨_, le_rfl, ((hok hK).releaseGet_result w hpc hr).2.1⟩
  · rintro rfl
    obtain ⟨-, hver, -⟩ := (hok rfl).releaseGet_result w hpc hr
    obtain ⟨-, hpcok⟩ := hok rfl
    rw [hpc] at hpcok
    obtain ⟨hh, -, hl, -⟩ := hpcok
    refine ⟨fun hh' => absurd hh' (by simp [hh]), hh, _, opOf_invoke _ _ _, ?_, ?_⟩
    · intro _
      rw [(quiet_invoke _ _ _).puts, (quiet_invoke _ _ _).last]
      exact ⟨hver, hl⟩
    · rw [(quiet_invoke _ _ _).executed]
      exact fun hex => absurd hex (not_executed_new w)

theorem LockInv.step {s s' : State} {a : Action} (I : LockInv K s) (hk : Kv.system.Reachable s.kv)
    (hb : puts K s.kv < 2 ^ 64) (hp : Proper K s a) (h : Stepped s a s') : LockInv K s' := by
  have w := reachable_wellFormed hk
  have t := reachable_tracks hk
  cases h with
  | makeLock lockname => exact I.makeLock lockname
  | acquire hc hpc => exact I.acquireGet hc (by simp [hpc])
  | release hc hpc => exact I.releaseGet w hc hpc (fun hK => hp _ hc hK)
  | tryPut hc hpc hr hv => exact I.acquirePut hk hc hpc hr hv
  | @tryAgain l n c hc hpc hr =>
      obtain ⟨r, hr⟩ := Option.isSome_iff_exists.mp hr
      refine I.acquireGet hc ?_
      intro n' hpc'
      obtain rfl : n = n' := by
        rcases hpc with hpc | hpc
        · simp [hpc] at hpc'
        · simpa [hpc] using hpc'
      exact executed_of_result w hr
  | @acquired l n c hc hpc hr =>
      have hok := I.client _ (List.mem_of_getElem? hc)
      refine I.done hc ?_ ?_
      · intro hK
        exact ⟨fun _ => (hok hK).acquirePut_ok w hpc hr, fun hh => absurd hh (by simp)⟩
      · intro hK n' hpc'
        obtain rfl : n = n' := by simpa [hpc] using hpc'
        exact executed_of_result w hr
  | free hc hpc hr he hv => exact I.releasePut w hc hpc hr
  | nothing hc hpc hr hv =>
      obtain ⟨k, -, hid⟩ := I.ids _ (List.mem_of_getElem? hc)
      refine I.done hc ?_ (by simp [hpc])
      intro hK
      have hok := I.client _ (List.mem_of_getElem? hc) hK
      exact absurd hv (hok.not_nothing w ⟨k, hid⟩ hpc hr)
  | @released l n c err hc hpc hr =>
      have hok := I.client _ (List.mem_of_getElem? hc)
      refine I.done hc ?_ ?_
      · intro hK
        exact ⟨fun hh => absurd hh (by simp), fun _ => ((hok hK).releasePut_done w hpc hr).2.2⟩
      · intro hK n' hpc'
        obtain rfl : n = n' := by simpa [hpc] using hpc'
        exact executed_of_result w hr
  | app clerk op =>
      refine I.of_quiet (quiet_invoke _ _ _) ?_
      intro n args ho hkey
      rcases opOf_invoke_cases ho with ho | ⟨-, rfl⟩
      · exact ho
      · exact absurd hkey hp
  | net ha hs =>
      rcases (Kv.State.step_cases hs).exec_or_quiet ha with ⟨i, q, hq, rfl⟩ | ⟨hq, ho⟩
      · exact I.exec w t hb hq
      · exact I.of_quiet hq (fun n args h _ => (ho n).symm.trans h)

theorem puts_mono {s s' : State} {a : Action} (h : Stepped s a s') (K : String) :
    puts K s.kv ≤ puts K s'.kv := by
  rcases h.kv with he | ⟨b, hb⟩
  · rw [he]
  · exact (Kv.State.step_cases hb).puts_mono K

theorem reachable_lockInv {s : State} (h : system.ReachableBy (Proper K) s)
    (hb : puts K s.kv < 2 ^ 64) : LockInv K s := by
  refine h.invariant (I := fun s => puts K s.kv < 2 ^ 64 → LockInv K s)
    (fun _ => lockInv_init K) ?_ hb
  intro s a s' hr I hp hs hb
  have hst := State.step_cases hs
  have hb' : puts K s.kv < 2 ^ 64 := (puts_mono hst K).trans_lt hb
  exact (I hb').step (reachable_kv hr) hb' hp hst

end step

/-! ### Mutual exclusion -/

/-- No two locks on one name are held at the same time. -/
theorem held_unique {K : String} {s : State} (h : system.ReachableBy (Proper K) s)
    (hb : (installs K s.kv.log).length < 2 ^ 64) {i j : ℕ} {c c' : Client}
    (hi : s.clients[i]? = some c) (hj : s.clients[j]? = some c') (hK : c.lockname = K)
    (hK' : c'.lockname = K) (hheld : c.held = true) (hheld' : c'.held = true) : i = j := by
  have I := reachable_lockInv h hb
  have hl := (I.client c (List.mem_of_getElem? hi) hK).1 hheld
  have hl' := (I.client c' (List.mem_of_getElem? hj) hK').1 hheld'
  exact I.named.eq_of_id hi hj (lockedBy_injective (Option.some.inj (hl.symm.trans hl')))

/-- The reply to the first lock's `Put` is lost and the resend returns `ErrMaybe`, so it reads the
key again and finds its own id; meanwhile the second lock waits. -/
def maybeRun : List Action :=
  [.makeLock "L", .makeLock "L", .acquire 0, .net (.exec 0), .net (.callTrue 0), .resume 0,
    .net (.exec 0), .net (.callFalse 1), .net (.exec 0), .net (.callTrue 1), .resume 0, .acquire 1,
    .net (.exec 0), .net (.exec 0), .net (.callTrue 1), .net (.callTrue 1), .resume 0, .resume 1,
    .net (.exec 0), .net (.callTrue 1), .resume 0]

theorem held_unique_maybe : ∃ s, system.ReachableBy (Proper "L") s ∧
    (installs "L" s.kv.log).length < 2 ^ 64 ∧
    s.clients = [⟨"L", "1", .idle, true⟩, ⟨"L", "2", .acquireGet 5, false⟩] ∧
    ∀ j c', s.clients[j]? = some c' → c'.lockname = "L" → c'.held = true → 0 = j := by
  obtain ⟨s, hr, hs⟩ := Lts.exists_of_exec (L := system) (C := Proper "L")
    (p := fun s => decide ((installs "L" s.kv.log).length < 2 ^ 64 ∧
      s.clients = [⟨"L", "1", .idle, true⟩, ⟨"L", "2", .acquireGet 5, false⟩])) maybeRun (by decide)
  obtain ⟨hb, hc⟩ := of_decide_eq_true hs
  refine ⟨s, hr, hb, hc, ?_⟩
  intro j c' hj hK' hheld'
  exact held_unique hr hb (i := 0) (c := ⟨"L", "1", .idle, true⟩) (by rw [hc]; rfl) hj rfl hK' rfl
    hheld'

/-! ### Release -/

/-- The value of the key names a lock that is held or whose code runs. -/
theorem LockInv.locked_owner {K : String} {s : State} (I : LockInv K s) {id : String}
    (hl : last K s.kv = some (lockedBy id)) :
    ∃ c ∈ s.clients, c.lockname = K ∧ c.id = id ∧ (c.held = true ∨ c.pc ≠ .idle) := by
  obtain ⟨p, hp, hpv⟩ := Option.map_eq_some_iff.mp hl
  obtain ⟨c, hc, hK, hv | hv⟩ := I.values p (List.mem_of_getLast? hp)
  · have hid : c.id = id := lockedBy_injective (hv.symm.trans hpv)
    refine ⟨c, hc, hK, hid, ?_⟩
    by_contra hn
    obtain ⟨hheld, hpc⟩ := not_or.mp hn
    obtain ⟨-, hidle⟩ := I.client c hc hK
    rw [not_not.mp hpc] at hidle
    exact hidle (Bool.eq_false_of_not_eq_true hheld) (hid ▸ hl)
  · exact absurd (hv.symm.trans hpv) (releasedBy_ne_lockedBy _ _)

/-- When the code of a `Release` returns, the `Put` it made was accepted. -/
theorem LockInv.released {K : String} {s s' : State} (I : LockInv K s) (w : WellFormed s.kv)
    {l : ℕ} {c : Client} (hc : s.clients[l]? = some c) (hK : c.lockname = K)
    (hpc : ∃ n, c.pc = .releaseGet n ∨ c.pc = .releasePut n) (h : Stepped s (.resume l) s')
    (hidle : s'.clients[l]?.map Client.pc = some .idle) :
    ∃ n ver, c.pc = .releasePut n ∧ opOf s.kv n = some (.put ⟨K, releasedBy c.id, ver⟩) ∧
      Accepted s.kv.log n := by
  have hlt : l < s.clients.length := (List.getElem?_eq_some_iff.mp hc).1
  have hok := I.client c (List.mem_of_getElem? hc) hK
  have same : ∀ {d}, s.clients[l]? = some d → d = c := fun hd => Option.some.inj (hd.symm.trans hc)
  cases h with
  | tryPut hd hpc' hr hv => simp [List.getElem?_set_self hlt] at hidle
  | tryAgain hd hpc' hr => simp [List.getElem?_set_self hlt] at hidle
  | acquired hd hpc' hr =>
      obtain rfl := same hd
      simp [hpc'] at hpc
  | free hd hpc' hr he hv => simp [List.getElem?_set_self hlt] at hidle
  | nothing hd hpc' hr hv =>
      obtain rfl := same hd
      obtain ⟨k, -, hid⟩ := I.ids _ (List.mem_of_getElem? hc)
      exact absurd hv (hok.not_nothing w ⟨k, hid⟩ hpc' hr)
  | released hd hpc' hr =>
      obtain rfl := same hd
      obtain ⟨⟨ver, ho⟩, hacc, -⟩ := hok.releasePut_done w hpc' hr
      exact ⟨_, ver, hpc', ho, hacc⟩

/-- Whenever a `Release` returns, the server has accepted the `Put` of `"0-" + id` that it made;
and a key whose value is `"1-" + id` belongs to a lock that is held or inside `Acquire` or
`Release`. -/
theorem no_orphaned_lock {K : String} {s : State} (h : system.ReachableBy (Proper K) s)
    (hb : (installs K s.kv.log).length < 2 ^ 64) :
    (∀ l c s', s.clients[l]? = some c → c.lockname = K →
      (∃ n, c.pc = .releaseGet n ∨ c.pc = .releasePut n) → s.step (.resume l) = some s' →
      s'.clients[l]?.map Client.pc = some .idle →
      ∃ n ver, c.pc = .releasePut n ∧ opOf s.kv n = some (.put ⟨K, releasedBy c.id, ver⟩) ∧
        Accepted s.kv.log n) ∧
    (∀ id ver, s.kv.server.store K = some ⟨lockedBy id, ver⟩ →
      ∃ c ∈ s.clients, c.lockname = K ∧ c.id = id ∧ (c.held = true ∨ c.pc ≠ .idle)) := by
  have I := reachable_lockInv h hb
  have hk := reachable_kv h
  constructor
  · intro l c s' hc hK hpc hs hidle
    exact I.released (reachable_wellFormed hk) hc hK hpc (State.step_cases hs) hidle
  · intro id ver hs
    exact I.locked_owner ((reachable_tracks hk).last_of_store hs)

/-- The first lock then releases; its `Put` too is answered only by `ErrMaybe`. -/
def maybeReleaseRun : List Action :=
  maybeRun ++ [.release 0, .net (.exec 1), .net (.callTrue 1), .resume 0, .net (.exec 1),
    .net (.callFalse 7), .net (.exec 1), .net (.callTrue 2)]

theorem no_orphaned_lock_maybe :
    (∃ s, system.ReachableBy (Proper "L") s ∧ resultOf s.kv 7 = some (.put .errMaybe) ∧
      ∃ ver, opOf s.kv 7 = some (.put ⟨"L", "0-1", ver⟩) ∧ Accepted s.kv.log 7) ∧
    ∃ s, system.ReachableBy (Proper "L") s ∧ s.kv.server.store "L" = some ⟨"1-1", 2⟩ ∧
      ∃ c ∈ s.clients, c.lockname = "L" ∧ c.id = "1" ∧ (c.held = true ∨ c.pc ≠ .idle) := by
  constructor
  · obtain ⟨s, hr, hs⟩ := Lts.exists_of_exec (L := system) (C := Proper "L")
      (p := fun s => decide ((installs "L" s.kv.log).length < 2 ^ 64 ∧
        resultOf s.kv 7 = some (.put .errMaybe) ∧
        s.clients[0]? = some (⟨"L", "1", .releasePut 7, false⟩ : Client) ∧
        (s.step (.resume 0)).bind (fun s' => s'.clients[0]?.map Client.pc) = some .idle))
      maybeReleaseRun (by decide)
    obtain ⟨hb, hret, hc, hidle⟩ := of_decide_eq_true hs
    obtain ⟨s', hs', hidle⟩ := Option.bind_eq_some_iff.mp hidle
    obtain ⟨n, ver, hn, ho, hacc⟩ :=
      (no_orphaned_lock hr hb).1 0 _ s' hc rfl ⟨7, Or.inr rfl⟩ hs' hidle
    obtain rfl : 7 = n := Pc.releasePut.inj hn
    exact ⟨s, hr, hret, ver, ho, hacc⟩
  · obtain ⟨s, hr, hs⟩ := Lts.exists_of_exec (L := system) (C := Proper "L")
      (p := fun s => decide ((installs "L" s.kv.log).length < 2 ^ 64 ∧
        s.kv.server.store "L" = some (⟨"1-1", 2⟩ : ValueVersion))) maybeRun (by decide)
    obtain ⟨hb, hst⟩ := of_decide_eq_true hs
    exact ⟨s, hr, hst, (no_orphaned_lock hr hb).2 "1" 2 hst⟩

end DistributedSystems.Lock
