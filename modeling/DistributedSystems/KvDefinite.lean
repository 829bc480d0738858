import DistributedSystems.KvInvariants

/-! # Which outcomes of a Put are definite

`Clerk.Put` reports `OK`, `ErrVersion` or `ErrNoKey` as definite outcomes and `ErrMaybe` as an open
one.  Requests may be executed after their `Call` has returned `false`, so an outcome is
definite only if it also speaks for the earlier attempts still in flight.

`OK` does: an accepted attempt moves the version past the one all attempts name.  `ErrVersion`
does: it is returned on the first attempt only.  `ErrNoKey` is returned on a resend as well, and
then it does not: an earlier attempt may be accepted later, when another Clerk has created the key
(`errNoKey_applied_later`).  `definite_of_noStraggler` shows that this is the only way to fail: in
every run in which the server answers `ErrNoKey` to an attempt only when no other attempt of the
same call is in flight, all definite outcomes are definite. -/

namespace DistributedSystems.Kv

/-- A `Put` that has returned `OK` has exactly one accepted attempt, and one that has returned
`ErrVersion` or `ErrNoKey` has none. -/
def DefinitePuts (s : State) : Prop :=
  ∀ n c args err, s.calls[n]? = some c → c.op = .put args → c.ret = some (.put err) →
    (err = .ok → applied n s.log = 1) ∧
    (err = .errVersion ∨ err = .errNoKey → applied n s.log = 0)

/-- The server would answer `ErrNoKey`: the key is absent and the version is not `0`. -/
def missesKey (s : State) : Op → Bool
  | .get _ => false
  | .put args => (s.server.store args.key).isNone && args.version != 0

/-- The condition on a step: the server executes an attempt that it answers with `ErrNoKey` only
when no other attempt of the same call is in flight. -/
def NoStraggler (s : State) : Action → Prop
  | .exec i => ∀ q ∈ s.requests[i]?, missesKey s q.op = true →
      ∀ q' ∈ s.requests, q'.call = q.call → q'.attempt = q.attempt
  | _ => True

instance (s : State) : (a : Action) → Decidable (NoStraggler s a)
  | .exec i => inferInstanceAs (Decidable (∀ q ∈ s.requests[i]?, missesKey s q.op = true →
      ∀ q' ∈ s.requests, q'.call = q.call → q'.attempt = q.attempt))
  | .invoke _ _ => inferInstanceAs (Decidable True)
  | .lose _ => inferInstanceAs (Decidable True)
  | .callTrue _ => inferInstanceAs (Decidable True)
  | .callFalse _ => inferInstanceAs (Decidable True)

/-! ### The three definite outcomes -/

theorem applied_eq_zero {n : ℕ} {log : List Event}
    (h : ∀ a args, Event.exec n a (.put args) (.put ⟨.ok⟩) ∉ log) : applied n log = 0 := by
  refine List.countP_eq_zero.mpr ?_
  intro e he ha
  obtain ⟨a, args, rfl⟩ := Event.applies_iff.mp ha
  exact h a args he

/-- The reply behind an outcome of a `Put`. -/
theorem WellFormed.put_reply {s : State} (w : WellFormed s) {n : ℕ} {c : Call} {args : PutArgs}
    {err : Err} (hc : s.calls[n]? = some c) (hop : c.op = .put args)
    (hr : c.ret = some (.put err)) :
    ∃ reply, Event.exec n c.attempt (.put args) (.put reply) ∈ s.log ∧
      err = if 0 < c.attempt ∧ reply.err = .errVersion then .errMaybe else reply.err := by
  obtain ⟨reply, he, hf⟩ := w.returned n c _ hc hr
  rw [hop] at he hf
  cases reply with
  | get g => simp [Op.finish] at hf
  | put reply =>
      simp only [Op.finish, Option.some.injEq, Ret.put.injEq] at hf
      exact ⟨reply, he, by rw [← hf, putErr_eq]⟩

theorem applied_of_ok {s : State} (w : WellFormed s) (t : Tracks s) (hb : FewPuts s) {n : ℕ}
    {c : Call} {args : PutArgs} (hc : s.calls[n]? = some c) (hop : c.op = .put args)
    (hr : c.ret = some (.put .ok)) : applied n s.log = 1 := by
  obtain ⟨⟨err⟩, he, hf⟩ := w.put_reply hc hop hr
  have hok : err = .ok := by
    split_ifs at hf
    exact hf.symm
  subst hok
  have hpos := applied_pos he
  have hle := applied_le_one w t hc hop (hb args.key).le
  omega

theorem applied_of_errVersion {s : State} (w : WellFormed s) {n : ℕ} {c : Call} {args : PutArgs}
    (hc : s.calls[n]? = some c) (hop : c.op = .put args)
    (hr : c.ret = some (.put .errVersion)) : applied n s.log = 0 := by
  obtain ⟨⟨err⟩, he, hf⟩ := w.put_reply hc hop hr
  have hfirst : c.attempt = 0 ∧ err = .errVersion := by
    split_ifs at hf with hg
    have herr : err = .errVersion := hf.symm
    exact ⟨by by_contra h0; exact hg ⟨Nat.pos_of_ne_zero h0, herr⟩, herr⟩
  refine applied_eq_zero (fun a args' ha => ?_)
  obtain ⟨c', hc', -, hle⟩ := w.executed _ _ _ _ ha
  rw [hc, Option.some.injEq] at hc'
  subst hc'
  have h0 : a = c.attempt := by omega
  subst h0
  have := w.exec_unique he ha
  simp [hfirst.2] at this

/-- A call whose last attempt was answered `ErrNoKey` has nothing in flight any more and no
accepted attempt. -/
def Settled (s : State) : Prop :=
  ∀ n c args, s.calls[n]? = some c → c.op = .put args →
    Event.exec n c.attempt (.put args) (.put ⟨.errNoKey⟩) ∈ s.log →
    (∀ q ∈ s.requests, q.call ≠ n) ∧ applied n s.log = 0

theorem settled_init : Settled State.init := by
  intro n c args hc
  simp [State.init] at hc

/-- As long as a key is absent no call on it has been accepted. -/
theorem applied_of_absent {s : State} (w : WellFormed s) (t : Tracks s) {n : ℕ} {c : Call}
    {args : PutArgs} (hc : s.calls[n]? = some c) (hop : c.op = .put args)
    (habs : s.server.store args.key = none) : applied n s.log = 0 := by
  refine applied_eq_zero (fun a args' ha => ?_)
  obtain ⟨c', hc', hop', -⟩ := w.executed _ _ _ _ ha
  rw [hc, Option.some.injEq] at hc'
  subst hc'
  rw [hop, Op.put.injEq] at hop'
  subst hop'
  have hmem : (args.version, args.value) ∈ installs args.key s.log :=
    List.mem_filterMap.mpr ⟨_, ha, by simp [Event.install?]⟩
  rw [t.store, current, Option.map_eq_none_iff, List.getLast?_eq_none_iff] at habs
  rw [habs] at hmem
  cases hmem

theorem missesKey_of_reply {s : State} {args : PutArgs}
    (h : (s.server.handle (.put args)).2 = .put ⟨.errNoKey⟩) :
    missesKey s (.put args) = true ∧ s.server.store args.key = none := by
  simp only [KVServer.handle, KVServer.put] at h
  cases hs : s.server.store args.key with
  | some vv =>
      rw [hs] at h
      dsimp only at h
      split_ifs at h
      all_goals simp at h
  | none =>
      rw [hs] at h
      dsimp only at h
      split_ifs at h with hv
      · simp at h
      · exact ⟨by simp [missesKey, hs, hv], rfl⟩

/-- Executing an attempt keeps the settled calls settled, and settles the call it answers
with `ErrNoKey`. -/
theorem Settled.exec {s : State} (hS : Settled s) (w : WellFormed s) (t : Tracks s) {i : ℕ}
    {q : Request} (hq : s.requests[i]? = some q) (hC : NoStraggler s (.exec i)) :
    Settled (s.exec i q) := by
  intro n c args hc hop he
  have hc : s.calls[n]? = some c := hc
  simp only [State.exec_log, List.mem_append, List.mem_singleton, Event.exec.injEq] at he
  have hmem : q ∈ s.requests := List.mem_of_getElem? hq
  rcases he with he | ⟨hn, ha, ho, hrep⟩
  · obtain ⟨hflight, happ⟩ := hS n c args hc hop he
    have hqn : q.call ≠ n := hflight q hmem
    refine ⟨fun q' hq' => hflight q' (List.mem_of_mem_eraseIdx hq'), ?_⟩
    rw [State.exec_log, applied, List.countP_append, ← applied, happ]
    have : Event.applies n (.exec q.call q.attempt q.op (s.server.handle q.op).2) = false := by
      rw [Bool.eq_false_iff]
      intro hap
      obtain ⟨a, args', he'⟩ := Event.applies_iff.mp hap
      simp only [Event.exec.injEq] at he'
      exact hqn he'.1
    simp [this]
  · rw [← ho] at hrep
    obtain ⟨hmiss, habs⟩ := missesKey_of_reply hrep.symm
    have hcond := hC q hq (by rw [← ho]; exact hmiss)
    refine ⟨fun q' hq' hn' => ?_, ?_⟩
    · have hq's : q' ∈ s.requests := List.mem_of_mem_eraseIdx hq'
      have htag : q'.tag = q.tag := by
        simp only [Request.tag, Prod.mk.injEq]
        exact ⟨hn'.trans hn, hcond q' hq's (hn'.trans hn)⟩
      obtain ⟨hi, rfl⟩ := List.getElem?_eq_some_iff.mp hq
      have hnd : (s.requests[i].tag :: (s.requests.eraseIdx i).map Request.tag).Nodup :=
        (((List.getElem_cons_eraseIdx_perm hi).map Request.tag).nodup_iff).mpr
          w.once.of_append_left
      exact (List.nodup_cons.mp hnd).1 (htag ▸ List.mem_map_of_mem hq')
    · rw [State.exec_log, applied, List.countP_append, ← applied,
        applied_of_absent w t hc hop habs]
      rw [← ho, ← hrep]
      rfl

theorem Settled.step {s s' : State} {a : Action} (hS : Settled s) (w : WellFormed s)
    (t : Tracks s) (h : Stepped s a s') (hC : NoStraggler s a) : Settled s' := by
  cases h with
  | invoke clerk op =>
      intro n c args hc hop he
      simp only [State.invoke_log, List.mem_append, List.mem_singleton, reduceCtorEq,
        or_false] at he
      obtain ⟨c', hc', -⟩ := w.executed _ _ _ _ he
      have hn : n < s.calls.length := (List.getElem?_eq_some_iff.mp hc').1
      rw [State.invoke_calls, List.getElem?_append_left hn] at hc
      obtain ⟨hflight, happ⟩ := hS n c args hc hop he
      refine ⟨fun q hq => ?_, by simpa [applied, Event.applies] using happ⟩
      rcases List.mem_append.mp hq with hq | hq
      · exact hflight q hq
      · obtain rfl := List.mem_singleton.mp hq
        exact hn.ne'
  | exec hq => exact hS.exec w t hq hC
  | lose hq =>
      intro n c args hc hop he
      obtain ⟨hflight, happ⟩ := hS n c args hc hop he
      exact ⟨fun q hq => hflight q (List.mem_of_mem_eraseIdx hq), happ⟩
  | @callTrue i p c₀ r hp hc₀ hopen hatt hr =>
      intro n c args hc hop he
      simp only [State.finish_log, List.mem_append, List.mem_singleton, reduceCtorEq,
        or_false] at he
      have hold : ∃ c₁, s.calls[n]? = some c₁ ∧ c₁.op = c.op ∧ c₁.attempt = c.attempt := by
        rcases getElem?_set_cases hc with ⟨rfl, rfl⟩ | ⟨-, hc⟩
        · exact ⟨c₀, hc₀, rfl, rfl⟩
        · exact ⟨c, hc, rfl, rfl⟩
      obtain ⟨c₁, hc₁, hop₁, ha₁⟩ := hold
      obtain ⟨hflight, happ⟩ := hS n c₁ args hc₁ (hop₁.trans hop) (ha₁ ▸ he)
      exact ⟨hflight, by simpa [applied, Event.applies] using happ⟩
  | @callFalse m c₀ hc₀ hopen =>
      intro n c args hc hop he
      have he : Event.exec n c.attempt (.put args) (.put ⟨.errNoKey⟩) ∈ s.log := he
      rcases getElem?_set_cases hc with ⟨rfl, rfl⟩ | ⟨hn, hc⟩
      · obtain ⟨c', hc', -, hle⟩ := w.executed _ _ _ _ he
        rw [hc₀, Option.some.injEq] at hc'
        subst hc'
        simp at hle
      · obtain ⟨hflight, happ⟩ := hS n c args hc hop he
        refine ⟨fun q hq => ?_, happ⟩
        rcases List.mem_append.mp hq with hq | hq
        · exact hflight q hq
        · obtain rfl := List.mem_singleton.mp hq
          exact hn.symm

theorem reachable_settled {s : State} (h : system.ReachableBy NoStraggler s) : Settled s :=
  h.invariant settled_init (fun _ _ _ hr hS hC hs =>
    hS.step (reachable_wellFormed hr) (reachable_tracks hr) (State.step_cases hs) hC)

theorem applied_of_errNoKey {s : State} (w : WellFormed s) (hS : Settled s) {n : ℕ} {c : Call}
    {args : PutArgs} (hc : s.calls[n]? = some c) (hop : c.op = .put args)
    (hr : c.ret = some (.put .errNoKey)) : applied n s.log = 0 := by
  obtain ⟨⟨err⟩, he, hf⟩ := w.put_reply hc hop hr
  have herr : err = .errNoKey := by
    split_ifs at hf
    exact hf.symm
  subst herr
  exact (hS n c args hc hop he).2

/-! ### The result -/

/-- **Definite outcomes.**  In every run in which the server answers `ErrNoKey` to an attempt only
when no other attempt of that call is in flight, a `Put` that has returned `OK` has exactly one
accepted attempt, now and at any later moment, and one that has returned `ErrVersion` or
`ErrNoKey` has none. -/
theorem definite_of_noStraggler {s : State} (h : system.ReachableBy NoStraggler s)
    (hb : FewPuts s) : DefinitePuts s := by
  have w := reachable_wellFormed h
  have t := reachable_tracks h
  have hS := reachable_settled h
  intro n c args err hc hop hr
  refine ⟨?_, ?_⟩
  · rintro rfl
    exact applied_of_ok w t hb hc hop hr
  · rintro (rfl | rfl)
    · exact applied_of_errVersion w hc hop hr
    · exact applied_of_errNoKey w hS hc hop hr

/-- The condition leaves room for lost requests and resends: a `Put` whose first attempt was
lost returns `ErrNoKey` on its resend. -/
theorem definite_of_noStraggler_lost :
    ∃ s, DefinitePuts s ∧ s.calls[0]? =
      some (⟨0, .put ⟨"k", "a", 1⟩, 1, some (.put .errNoKey)⟩ : Call) := by
  obtain ⟨s, hs, hp⟩ := Lts.exists_of_exec (L := system) (C := NoStraggler)
    (p := fun s => decide (s.calls[0]? =
        some (⟨0, .put ⟨"k", "a", 1⟩, 1, some (.put .errNoKey)⟩ : Call) ∧ s.log.length = 3))
    [.invoke 0 (.put ⟨"k", "a", 1⟩), .lose 0, .callFalse 0, .exec 0, .callTrue 0] (by decide)
  obtain ⟨hc, hlen⟩ := of_decide_eq_true hp
  exact ⟨s, definite_of_noStraggler hs (fewPuts_of_length (by omega)), hc⟩

/-! ### A late attempt -/

/-- The first attempt of a `Put` at version `1` stays in flight while its resend is answered
`ErrNoKey` and returned; another Clerk then creates the key. -/
def lateRun : List Action :=
  [.invoke 0 (.put ⟨"k", "a", 1⟩), .callFalse 0, .exec 1, .callTrue 0,
    .invoke 1 (.put ⟨"k", "b", 0⟩), .exec 1, .exec 0]

/-- The first Clerk's `Put` has returned `ErrNoKey` and its late attempt is accepted. -/
theorem errNoKey_applied_later :
    ¬ ∀ s, system.Reachable s → FewPuts s → DefinitePuts s := by
  intro hall
  obtain ⟨s, hs, hp⟩ := Lts.exists_of_exec (L := system) (C := fun _ _ => True)
    (p := fun s => decide (s.calls[0]? =
        some (⟨0, .put ⟨"k", "a", 1⟩, 1, some (.put .errNoKey)⟩ : Call) ∧
      applied 0 s.log = 1 ∧ s.log.length = 6)) lateRun (by decide)
  obtain ⟨hc, happ, hlen⟩ := of_decide_eq_true hp
  have := (hall s hs (fewPuts_of_length (by omega)) 0 _ _ _ hc rfl rfl).2 (Or.inr rfl)
  omega

end DistributedSystems.Kv
