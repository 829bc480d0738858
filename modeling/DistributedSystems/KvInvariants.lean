import DistributedSystems.KvSystem

/-! # Invariants of the Clerks and the server

Two invariants of every run, whatever the network does.

* `WellFormed`: requests, replies and executions belong to calls; every attempt is executed
  at most once; a call that has returned did so with the reply of its last attempt.
* `Tracks`: the server's map is the abstract history of installed values.  `installs k log` lists
  the accepted `Put`s on the key `k`; the `i`-th of them named version `i` (modulo the size of
  `Tversion`), and the map holds the last one.

As long as a key has seen fewer than `2 ^ 64` accepted `Put`s no version occurs twice, so the
attempts of one call are accepted at most once in total (`applied_le_one`). -/

namespace DistributedSystems.Kv

/-! ### Calls, attempts and executions -/

def Request.tag (q : Request) : ℕ × ℕ := (q.call, q.attempt)

/-- The call and attempt an execution belongs to. -/
def Event.tag? : Event → Option (ℕ × ℕ)
  | .exec n a _ _ => some (n, a)
  | _ => none

structure WellFormed (s : State) : Prop where
  request : ∀ q ∈ s.requests, ∃ c, s.calls[q.call]? = some c ∧ c.op = q.op ∧ q.attempt ≤ c.attempt
  response : ∀ p ∈ s.replies, ∃ op, Event.exec p.call p.attempt op p.reply ∈ s.log
  executed : ∀ n a op r, Event.exec n a op r ∈ s.log →
    ∃ c, s.calls[n]? = some c ∧ c.op = op ∧ a ≤ c.attempt
  once : (s.requests.map Request.tag ++ s.log.filterMap Event.tag?).Nodup
  returned : ∀ n c r, s.calls[n]? = some c → c.ret = some r →
    ∃ reply, Event.exec n c.attempt c.op reply ∈ s.log ∧ c.op.finish c.attempt reply = some r

theorem wellFormed_init : WellFormed State.init := by
  constructor <;> simp [State.init]

/-- What a step does to the table of calls. -/
inductive CallStep (s : State) (n : ℕ) (c' : Call) : Prop
  | same (h : s.calls[n]? = some c')
  | new (hn : n = s.calls.length) (ha : c'.attempt = 0) (hr : c'.ret = none)
  | finish {p : Response} {c : Call} {r : Ret} (hp : p ∈ s.replies) (hn : p.call = n)
      (hc : s.calls[n]? = some c) (hopen : c.ret = none) (hatt : c.attempt = p.attempt)
      (hr : c.op.finish c.attempt p.reply = some r) (he : c' = { c with ret := some r })
  | resend {c : Call} (hc : s.calls[n]? = some c) (hopen : c.ret = none)
      (he : c' = { c with attempt := c.attempt + 1 })

theorem Stepped.callStep {s s' : State} {a : Action} (h : Stepped s a s') {n : ℕ} {c' : Call}
    (hc' : s'.calls[n]? = some c') : CallStep s n c' := by
  cases h with
  | invoke clerk op =>
      rw [State.invoke_calls, List.getElem?_append] at hc'
      split at hc'
      · exact .same hc'
      · rename_i hn
        rw [List.getElem?_singleton] at hc'
        split at hc'
        · rename_i hz
          simp only [Option.some.injEq] at hc'
          subst hc'
          exact .new (by omega) rfl rfl
        · cases hc'
  | exec hq => exact .same hc'
  | lose hq => exact .same hc'
  | @callTrue i p c r hp hc hopen hatt hr =>
      rcases getElem?_set_cases hc' with ⟨rfl, he⟩ | ⟨-, hc'⟩
      · exact .finish (List.mem_of_getElem? hp) rfl hc hopen hatt hr he
      · exact .same hc'
  | @callFalse m c hc hopen =>
      rcases getElem?_set_cases hc' with ⟨rfl, he⟩ | ⟨-, hc'⟩
      · exact .resend hc hopen he
      · exact .same hc'

theorem Stepped.length_calls_le {s s' : State} {a : Action} (h : Stepped s a s') :
    s.calls.length ≤ s'.calls.length := by
  cases h <;> simp

/-- Calls only change their attempt upwards and their return value, never their operation. -/
theorem Stepped.calls_mono {s s' : State} {a : Action} (h : Stepped s a s') {n : ℕ} {c : Call}
    (hc : s.calls[n]? = some c) :
    ∃ c', s'.calls[n]? = some c' ∧ c'.op = c.op ∧ c.attempt ≤ c'.attempt := by
  have hn : n < s.calls.length := (List.getElem?_eq_some_iff.mp hc).1
  have hc' := List.getElem?_eq_getElem (hn.trans_le h.length_calls_le)
  refine ⟨_, hc', ?_⟩
  cases h.callStep hc' with
  | same h₁ =>
      rw [hc, Option.some.injEq] at h₁
      rw [← h₁]
      exact ⟨rfl, le_rfl⟩
  | new h₁ => omega
  | finish _ _ h₁ _ _ _ he =>
      rw [hc, Option.some.injEq] at h₁
      rw [he, ← h₁]
      exact ⟨rfl, le_rfl⟩
  | resend h₁ _ he =>
      rw [hc, Option.some.injEq] at h₁
      rw [he, ← h₁]
      exact ⟨rfl, Nat.le_succ _⟩

/-- The log only grows, at its end. -/
theorem Stepped.log_append {s s' : State} {a : Action} (h : Stepped s a s') :
    ∃ l, s'.log = s.log ++ l := by
  cases h with
  | invoke clerk op => exact ⟨_, rfl⟩
  | exec hq => exact ⟨_, rfl⟩
  | lose hq => exact ⟨[], (List.append_nil _).symm⟩
  | callTrue hp hc hopen hatt hr => exact ⟨_, rfl⟩
  | callFalse hc hopen => exact ⟨[], (List.append_nil _).symm⟩

theorem Stepped.log_subset {s s' : State} {a : Action} (h : Stepped s a s') {e : Event}
    (he : e ∈ s.log) : e ∈ s'.log := by
  obtain ⟨l, hl⟩ := h.log_append
  rw [hl]
  exact List.mem_append_left _ he

theorem WellFormed.call_lt {s : State} (w : WellFormed s) {n a : ℕ}
    (h : (n, a) ∈ s.requests.map Request.tag ++ s.log.filterMap Event.tag?) :
    ∃ c, s.calls[n]? = some c ∧ a ≤ c.attempt := by
  rcases List.mem_append.mp h with h | h
  · obtain ⟨q, hq, he⟩ := List.mem_map.mp h
    simp only [Request.tag, Prod.mk.injEq] at he
    obtain ⟨c, hc, _, ha⟩ := w.request q hq
    exact ⟨c, he.1 ▸ hc, he.2 ▸ ha⟩
  · obtain ⟨e, he, ht⟩ := List.mem_filterMap.mp h
    cases e with
    | exec m b op r =>
        simp only [Event.tag?, Option.some.injEq, Prod.mk.injEq] at ht
        obtain ⟨c, hc, _, ha⟩ := w.executed m b op r he
        exact ⟨c, ht.1 ▸ hc, ht.2 ▸ ha⟩
    | invoke m op => simp [Event.tag?] at ht
    | ret m r => simp [Event.tag?] at ht

theorem WellFormed.once_step {s s' : State} {a : Action} (w : WellFormed s)
    (h : Stepped s a s') : (s'.requests.map Request.tag ++ s'.log.filterMap Event.tag?).Nodup := by
  have fresh : ∀ t, t ∉ s.requests.map Request.tag ++ s.log.filterMap Event.tag? →
      ((s.requests.map Request.tag ++ [t]) ++ s.log.filterMap Event.tag?).Nodup := by
    intro t ht
    have hp : ((s.requests.map Request.tag ++ [t]) ++ s.log.filterMap Event.tag?).Perm
        (t :: (s.requests.map Request.tag ++ s.log.filterMap Event.tag?)) := by
      rw [List.append_assoc]
      exact List.perm_middle
    exact hp.nodup_iff.mpr (List.nodup_cons.mpr ⟨ht, w.once⟩)
  cases h with
  | invoke clerk op =>
      have := fresh (s.calls.length, 0) (fun hm => by
        obtain ⟨c, hc, _⟩ := w.call_lt hm
        simp at hc)
      simpa [Request.tag, Event.tag?, List.filterMap_cons] using this
  | @exec i q hq =>
      obtain ⟨hi, rfl⟩ := List.getElem?_eq_some_iff.mp hq
      have hp := (List.getElem_cons_eraseIdx_perm hi).map Request.tag
      have hn : ((s.requests[i].tag :: (s.requests.eraseIdx i).map Request.tag) ++
          s.log.filterMap Event.tag?).Nodup := (hp.append_right _).nodup_iff.mpr w.once
      have he : Event.tag? (.exec s.requests[i].call s.requests[i].attempt s.requests[i].op
          (s.server.handle s.requests[i].op).2) = some s.requests[i].tag := rfl
      simp only [State.exec, List.filterMap_append, List.filterMap_cons, he, List.filterMap_nil]
      rw [← List.append_assoc]
      exact (List.perm_append_singleton _ _).nodup_iff.mpr hn
  | @lose i q hq =>
      exact w.once.sublist (((List.eraseIdx_sublist _ _).map _).append (List.Sublist.refl _))
  | callTrue hp hc hopen hatt hr =>
      simpa [Event.tag?, List.filterMap_cons] using w.once
  | @callFalse n c hc hopen =>
      have := fresh (n, c.attempt + 1) (fun hm => by
        obtain ⟨c', hc', ha⟩ := w.call_lt hm
        rw [hc] at hc'
        cases hc'
        omega)
      simpa [Request.tag] using this

section

variable {s s' : State} {a : Action}

/-- A call that has made its attempt `b` has still made it. -/
theorem Stepped.attempted (h : Stepped s a s') {n b : ℕ} {op : Op}
    (hc : ∃ c, s.calls[n]? = some c ∧ c.op = op ∧ b ≤ c.attempt) :
    ∃ c, s'.calls[n]? = some c ∧ c.op = op ∧ b ≤ c.attempt := by
  obtain ⟨c, hc, ho, hb⟩ := hc
  obtain ⟨c', hc', ho', ha⟩ := h.calls_mono hc
  exact ⟨c', hc', ho'.trans ho, hb.trans ha⟩

theorem WellFormed.request_step (w : WellFormed s) (h : Stepped s a s') : ∀ q ∈ s'.requests,
    ∃ c, s'.calls[q.call]? = some c ∧ c.op = q.op ∧ q.attempt ≤ c.attempt := by
  have hold : ∀ q ∈ s.requests,
      ∃ c, s'.calls[q.call]? = some c ∧ c.op = q.op ∧ q.attempt ≤ c.attempt :=
    fun q hq => h.attempted (w.request q hq)
  intro q hq
  cases h with
  | invoke clerk op =>
      rcases List.mem_append.mp hq with hq | hq
      · exact hold q hq
      · obtain rfl := List.mem_singleton.mp hq
        exact ⟨⟨clerk, op, 0, none⟩, by simp, rfl, le_rfl⟩
  | exec hq' => exact hold q (List.mem_of_mem_eraseIdx hq)
  | lose hq' => exact hold q (List.mem_of_mem_eraseIdx hq)
  | callTrue hp hc hopen hatt hr => exact hold q hq
  | @callFalse n c hc hopen =>
      have hn : n < s.calls.length := (List.getElem?_eq_some_iff.mp hc).1
      rcases List.mem_append.mp hq with hq | hq
      · exact hold q hq
      · obtain rfl := List.mem_singleton.mp hq
        exact ⟨{ c with attempt := c.attempt + 1 }, by simp [hn], rfl, le_rfl⟩

theorem WellFormed.response_step (w : WellFormed s) (h : Stepped s a s') :
    ∀ p ∈ s'.replies, ∃ op, Event.exec p.call p.attempt op p.reply ∈ s'.log := by
  have hold : ∀ p ∈ s.replies, ∃ op, Event.exec p.call p.attempt op p.reply ∈ s'.log := by
    intro p hp
    obtain ⟨op, ho⟩ := w.response p hp
    exact ⟨op, h.log_subset ho⟩
  intro p hp
  cases h with
  | invoke clerk op => exact hold p hp
  | @exec i q hq =>
      rcases List.mem_append.mp hp with hp | hp
      · exact hold p hp
      · obtain rfl := List.mem_singleton.mp hp
        exact ⟨q.op, by simp⟩
  | lose hq => exact hold p hp
  | callTrue hp' hc hopen hatt hr => exact hold p (List.mem_of_mem_eraseIdx hp)
  | callFalse hc hopen => exact hold p hp

theorem WellFormed.executed_step (w : WellFormed s) (h : Stepped s a s') {n b : ℕ} {op : Op}
    {r : Reply} (he : Event.exec n b op r ∈ s'.log) :
    ∃ c, s'.calls[n]? = some c ∧ c.op = op ∧ b ≤ c.attempt := by
  refine h.attempted ?_
  cases h with
  | invoke clerk op' =>
      simp only [State.invoke_log, List.mem_append, List.mem_singleton, reduceCtorEq, or_false]
        at he
      exact w.executed n b op r he
  | @exec i q hq =>
      simp only [State.exec_log, List.mem_append, List.mem_singleton, Event.exec.injEq] at he
      rcases he with he | ⟨rfl, rfl, rfl, -⟩
      · exact w.executed n b op r he
      · exact w.request q (List.mem_of_getElem? hq)
  | lose hq => exact w.executed n b op r he
  | callTrue hp hc hopen hatt hr =>
      simp only [State.finish_log, List.mem_append, List.mem_singleton, reduceCtorEq, or_false]
        at he
      exact w.executed n b op r he
  | callFalse hc hopen => exact w.executed n b op r he

theorem WellFormed.returned_step (w : WellFormed s) (h : Stepped s a s') {n : ℕ} {c : Call}
    {r : Ret} (hc : s'.calls[n]? = some c) (hr : c.ret = some r) :
    ∃ reply, Event.exec n c.attempt c.op reply ∈ s'.log ∧
      c.op.finish c.attempt reply = some r := by
  cases h.callStep hc with
  | same h₁ =>
      obtain ⟨reply, he, hf⟩ := w.returned n c r h₁ hr
      exact ⟨reply, h.log_subset he, hf⟩
  | new _ _ hr' =>
      rw [hr'] at hr
      cases hr
  | @finish p c₁ r₁ hp hn h₁ hopen hatt hr₁ he =>
      obtain ⟨op, ho⟩ := w.response p hp
      obtain ⟨c₂, hc₂, hop, -⟩ := w.executed _ _ _ _ ho
      subst hn
      rw [h₁, Option.some.injEq] at hc₂
      subst hc₂ hop he
      simp only [Option.some.injEq] at hr
      subst hr
      refine ⟨p.reply, ?_, hr₁⟩
      rw [← hatt] at ho
      exact h.log_subset ho
  | resend _ hopen he =>
      subst he
      rw [hopen] at hr
      cases hr

theorem WellFormed.step (w : WellFormed s) (h : Stepped s a s') : WellFormed s' where
  request := w.request_step h
  response := w.response_step h
  executed := fun _ _ _ _ he => w.executed_step h he
  once := w.once_step h
  returned := fun _ _ _ hc hr => w.returned_step h hc hr

end

theorem reachable_wellFormed {C : State → Action → Prop} {s : State}
    (h : system.ReachableBy C s) : WellFormed s :=
  h.invariant wellFormed_init (fun _ _ _ _ w _ hs => w.step (State.step_cases hs))

/-- Two executions of one attempt are the same execution. -/
theorem WellFormed.exec_unique {s : State} (w : WellFormed s) {n a : ℕ} {op op' : Op}
    {r r' : Reply} (h : Event.exec n a op r ∈ s.log) (h' : Event.exec n a op' r' ∈ s.log) :
    r = r' := by
  have hn : (s.log.filterMap Event.tag?).Nodup := w.once.of_append_right
  have he := eq_of_nodup_filterMap hn h h' (k := (n, a)) rfl rfl
  simp only [Event.exec.injEq] at he
  exact he.2.2.2

/-- An attempt that is still in flight has not been executed. -/
theorem WellFormed.not_exec_of_mem {s : State} (w : WellFormed s) {q : Request}
    (hq : q ∈ s.requests) (op : Op) (r : Reply) : Event.exec q.call q.attempt op r ∉ s.log := by
  intro he
  exact List.disjoint_of_nodup_append w.once (List.mem_map_of_mem (f := Request.tag) hq)
    (List.mem_filterMap.mpr ⟨_, he, rfl⟩)

/-! ### The history of installed values -/

/-- The version and value a `Put` on the key `k` installs, when the event is one. -/
def Event.install? (k : String) : Event → Option (Tversion × String)
  | .exec _ _ (.put args) (.put ⟨.ok⟩) =>
      if args.key = k then some (args.version, args.value) else none
  | _ => none

/-- The accepted `Put`s on the key `k`, in order. -/
def installs (k : String) (log : List Event) : List (Tversion × String) :=
  log.filterMap (Event.install? k)

@[simp] theorem installs_nil (k : String) : installs k [] = [] := rfl

@[simp] theorem installs_append (k : String) (l₁ l₂ : List Event) :
    installs k (l₁ ++ l₂) = installs k l₁ ++ installs k l₂ := List.filterMap_append

@[simp] theorem installs_invoke (k : String) (n : ℕ) (op : Op) :
    installs k [.invoke n op] = [] := rfl

@[simp] theorem installs_ret (k : String) (n : ℕ) (r : Ret) : installs k [.ret n r] = [] := rfl

/-- The map entry the installed values amount to. -/
def current (l : List (Tversion × String)) : Option ValueVersion :=
  l.getLast?.map (fun p => ⟨p.2, p.1 + 1⟩)

/-- The server's map is the last installed value of every key, and the `i`-th accepted `Put`
named version `i`. -/
structure Tracks (s : State) : Prop where
  store : ∀ k, s.server.store k = current (installs k s.log)
  versions : ∀ k, (installs k s.log).map Prod.fst =
    (List.range (installs k s.log).length).map UInt64.ofNat

theorem tracks_init : Tracks State.init := by
  constructor <;> intro k <;> rfl

theorem Tracks.getElem {s : State} (t : Tracks s) {k : String} {i : ℕ} {p : Tversion × String}
    (h : (installs k s.log)[i]? = some p) : p.1 = UInt64.ofNat i := by
  have hi : i < (installs k s.log).length := (List.getElem?_eq_some_iff.mp h).1
  have he : ((installs k s.log).map Prod.fst)[i]? = some p.1 := by simp [h]
  rw [t.versions, List.getElem?_map, List.getElem?_range hi] at he
  simpa using he.symm

/-- The current version of a key is the number of accepted `Put`s on it. -/
theorem Tracks.version {s : State} (t : Tracks s) (k : String) :
    s.server.version k = UInt64.ofNat (installs k s.log).length := by
  rcases List.eq_nil_or_concat (installs k s.log) with hl | ⟨l, p, hl⟩
  · rw [KVServer.version_of_none (by rw [t.store, hl]; rfl), hl]
    rfl
  · have hp : p.1 = UInt64.ofNat l.length := t.getElem (k := k) (by simp [hl])
    rw [KVServer.version_of_some (v := ⟨p.2, p.1 + 1⟩) (by simp [t.store, hl, current]), hl]
    simp [hp, UInt64.ofNat_add]

/-- What one execution adds to the history of a key: the arguments of an accepted `Put`. -/
theorem installs_exec (s : State) (k : String) (n a : ℕ) (op : Op) :
    installs k [.exec n a op (s.server.handle op).2] =
      match op with
      | .put args =>
          if args.key = k ∧ args.version = s.server.version k then [(args.version, args.value)]
          else []
      | .get _ => [] := by
  cases op with
  | get args => rfl
  | put args =>
      simp only [KVServer.handle]
      by_cases hv : args.version = s.server.version args.key
      · rw [KVServer.put_of_eq hv]
        by_cases hk : args.key = k
        · subst hk
          simp [installs, Event.install?, hv]
        · simp [installs, Event.install?, hk]
      · have hne : ¬ (args.key = k ∧ args.version = s.server.version k) := by
          rintro ⟨rfl, h⟩
          exact hv h
        rw [KVServer.put_of_ne hv, if_neg hne]
        split_ifs <;> rfl

theorem Tracks.exec {s : State} (t : Tracks s) (i : ℕ) (q : Request) : Tracks (s.exec i q) := by
  constructor
  · intro k
    rw [State.exec_log, installs_append, installs_exec, State.exec_server]
    cases hop : q.op with
    | get args => simpa [KVServer.handle] using t.store k
    | put args =>
        simp only [KVServer.handle]
        by_cases hv : args.version = s.server.version args.key
        · rw [KVServer.put_of_eq hv]
          by_cases hk : args.key = k
          · subst hk
            simp [hv, current]
          · simp [hk, Ne.symm hk, t.store k]
        · have hne : ¬ (args.key = k ∧ args.version = s.server.version k) := by
            rintro ⟨rfl, h⟩
            exact hv h
          rw [KVServer.put_of_ne hv, if_neg hne, List.append_nil]
          exact t.store k
  · intro k
    rw [State.exec_log, installs_append, installs_exec]
    cases hop : q.op with
    | get args => simpa using t.versions k
    | put args =>
        dsimp only
        split_ifs with h
        · rw [List.map_append, t.versions k, List.length_append, List.length_singleton,
            List.range_succ, List.map_append]
          simp [h.2, t.version k]
        · simpa using t.versions k

theorem Tracks.step {s s' : State} {a : Action} (t : Tracks s) (h : Stepped s a s') :
    Tracks s' := by
  cases h with
  | invoke clerk op => exact ⟨by simpa using t.store, by simpa using t.versions⟩
  | exec hq => exact t.exec _ _
  | lose hq => exact ⟨t.store, t.versions⟩
  | callTrue hp hc hopen hatt hr => exact ⟨by simpa using t.store, by simpa using t.versions⟩
  | callFalse hc hopen => exact ⟨t.store, t.versions⟩

theorem reachable_tracks {C : State → Action → Prop} {s : State}
    (h : system.ReachableBy C s) : Tracks s :=
  h.invariant tracks_init (fun _ _ _ _ t _ hs => t.step (State.step_cases hs))

/-- What a `Get` reply says about the history of the key: nothing is installed yet, or the reply
is one of the installed values with its version. -/
def Saw (l : List (Tversion × String)) (reply : GetReply) : Prop :=
  reply = ⟨"", 0, .errNoKey⟩ ∨
    ∃ i p, l[i]? = some p ∧ reply = ⟨p.2, UInt64.ofNat (i + 1), .ok⟩

theorem Saw.append {l : List (Tversion × String)} {reply : GetReply} (h : Saw l reply)
    (l' : List (Tversion × String)) : Saw (l ++ l') reply := by
  rcases h with h | ⟨i, p, hi, h⟩
  · exact Or.inl h
  · exact Or.inr ⟨i, p, by
      rw [List.getElem?_append_left (List.getElem?_eq_some_iff.mp hi).1, hi], h⟩

/-- The reply of a `Get` executed now is the last installed value. -/
theorem Tracks.get {s : State} (t : Tracks s) (k : String) :
    s.server.get ⟨k⟩ = match (installs k s.log).getLast? with
      | none => ⟨"", 0, .errNoKey⟩
      | some p => ⟨p.2, UInt64.ofNat (installs k s.log).length, .ok⟩ := by
  simp only [KVServer.get]
  cases hl : (installs k s.log).getLast? with
  | none => rw [t.store, current, hl]; rfl
  | some p =>
      have hv := t.version k
      rw [KVServer.version_of_some (v := ⟨p.2, p.1 + 1⟩) (by simp [t.store, current, hl])] at hv
      rw [t.store, current, hl]
      simp [← hv]

theorem Tracks.saw {s : State} (t : Tracks s) (k : String) :
    Saw (installs k s.log) (s.server.get ⟨k⟩) := by
  rw [t.get]
  rcases List.eq_nil_or_concat (installs k s.log) with hl | ⟨l, p, hl⟩
  · rw [hl]
    exact Or.inl rfl
  · rw [hl]
    exact Or.inr ⟨l.length, p, by simp, by simp⟩

/-- Every executed `Get` was answered with an installed value of its key. -/
theorem reachable_saw {C : State → Action → Prop} {s : State} (h : system.ReachableBy C s) :
    ∀ n a k reply, Event.exec n a (.get ⟨k⟩) (.get reply) ∈ s.log →
      Saw (installs k s.log) reply := by
  refine h.invariant (I := fun s => ∀ n a k reply,
    Event.exec n a (.get ⟨k⟩) (.get reply) ∈ s.log → Saw (installs k s.log) reply)
    (by simp [system, State.init]) ?_
  intro s a s' hr ih _ hs n b k reply he
  have hst := State.step_cases hs
  obtain ⟨l, hl⟩ := hst.log_append
  have old : Event.exec n b (.get ⟨k⟩) (.get reply) ∈ s.log → Saw (installs k s'.log) reply := by
    intro he
    rw [hl, installs_append]
    exact (ih n b k reply he).append _
  cases hst with
  | invoke clerk op => exact old (by simpa using he)
  | @exec i q hq =>
      simp only [State.exec_log, List.mem_append, List.mem_singleton, Event.exec.injEq] at he
      rcases he with he | ⟨-, -, hop, hrep⟩
      · exact old he
      · rw [← hop] at hrep
        simp only [KVServer.handle, Reply.get.injEq] at hrep
        rw [hrep, State.exec_log, installs_append]
        exact ((reachable_tracks hr).saw k).append _
  | lose hq => exact old he
  | callTrue hp hc hopen hatt hf => exact old (by simpa using he)
  | callFalse hc hopen => exact old he

/-- Every key has seen fewer than `2 ^ 64` accepted `Put`s. -/
def FewPuts (s : State) : Prop := ∀ k, (installs k s.log).length < 2 ^ 64

theorem FewPuts.of_step {s s' : State} {a : Action} (h : Stepped s a s') (hb : FewPuts s') :
    FewPuts s := by
  intro k
  obtain ⟨l, hl⟩ := h.log_append
  have := hb k
  rw [hl, installs_append, List.length_append] at this
  omega

theorem fewPuts_of_length {s : State} (h : s.log.length < 2 ^ 64) : FewPuts s := by
  intro k
  exact lt_of_le_of_lt (List.length_filterMap_le _ _) h

/-! ### At most one accepted attempt per call -/

/-- The event is an accepted attempt of the call `n`. -/
def Event.applies (n : ℕ) : Event → Bool
  | .exec m _ (.put _) (.put ⟨.ok⟩) => m == n
  | _ => false

/-- The number of accepted attempts of the call `n`. -/
def applied (n : ℕ) (log : List Event) : ℕ := log.countP (Event.applies n)

theorem Event.applies_iff {n : ℕ} {e : Event} :
    e.applies n = true ↔ ∃ a args, e = .exec n a (.put args) (.put ⟨.ok⟩) := by
  constructor
  · intro h
    unfold Event.applies at h
    split at h
    · simp only [beq_iff_eq] at h
      subst h
      exact ⟨_, _, rfl⟩
    · cases h
  · rintro ⟨a, args, rfl⟩
    simp [Event.applies]

theorem applied_pos {n a : ℕ} {args : PutArgs} {log : List Event}
    (h : Event.exec n a (.put args) (.put ⟨.ok⟩) ∈ log) : 0 < applied n log :=
  List.countP_pos_iff.mpr ⟨_, h, Event.applies_iff.mpr ⟨a, args, rfl⟩⟩

theorem ofNat_inj_of_lt {m k : ℕ} (hm : m < 2 ^ 64) (hk : k < 2 ^ 64)
    (h : UInt64.ofNat m = UInt64.ofNat k) : m = k := by
  have := congrArg UInt64.toNat h
  rwa [UInt64.toNat_ofNat', UInt64.toNat_ofNat', Nat.mod_eq_of_lt hm, Nat.mod_eq_of_lt hk] at this

theorem nodup_versions {m : ℕ} (h : m ≤ 2 ^ 64) : ((List.range m).map UInt64.ofNat).Nodup := by
  refine List.Nodup.map_on ?_ List.nodup_range
  intro x hx y hy he
  rw [List.mem_range] at hx hy
  exact ofNat_inj_of_lt (by omega) (by omega) he

/-- **A call is accepted at most once**, whatever the number of its attempts, as long as the
key's versions have not wrapped around. -/
theorem applied_le_one {s : State} (w : WellFormed s) (t : Tracks s) {n : ℕ} {c : Call}
    {args : PutArgs} (hc : s.calls[n]? = some c) (hop : c.op = .put args)
    (hb : (installs args.key s.log).length ≤ 2 ^ 64) : applied n s.log ≤ 1 := by
  have hsub : ∀ e ∈ s.log, e.applies n = true →
      (((e.install? args.key).map (fun p => p.1 == args.version)).getD false) = true := by
    intro e he ha
    obtain ⟨a, args', rfl⟩ := Event.applies_iff.mp ha
    obtain ⟨c', hc', hop', -⟩ := w.executed _ _ _ _ he
    rw [hc, Option.some.injEq] at hc'
    subst hc'
    rw [hop, Op.put.injEq] at hop'
    subst hop'
    simp [Event.install?]
  have h1 : applied n s.log ≤ (installs args.key s.log).countP (fun p => p.1 == args.version) := by
    rw [installs, List.countP_filterMap]
    exact List.countP_mono_left hsub
  have h2 : (installs args.key s.log).countP (fun p => p.1 == args.version) =
      ((installs args.key s.log).map Prod.fst).count args.version := by
    rw [List.count, List.countP_map]
    rfl
  have h3 : ((installs args.key s.log).map Prod.fst).count args.version ≤ 1 := by
    rw [t.versions]
    exact List.nodup_iff_count_le_one.mp (nodup_versions hb) _
  omega

end DistributedSystems.Kv
