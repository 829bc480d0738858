import Mathlib

/-! # Labelled transition systems and their runs

A system of several parties is a state, an initial state and a partial step function: one
labelled step of one party (or of the network) leads to at most one next state, and `none`
when the label is not enabled.  Nondeterminism is the choice of the labels, so a run is a
list of labels and can be evaluated (`Lts.exec`).

`ReachableBy C` collects the states reached by the runs all of whose steps meet the
condition `C` on the label and the state before the step; `Reachable` is the case without
a condition.  The rules are the induction over a run (`ReachableBy.invariant`), the
weakening of the condition (`ReachableBy.mono`) and the transfer along an abstraction
function that maps every step to at most one step (`ReachableBy.simulate`) or along a
relation (`ReachableBy.simulate_rel`).  `ReachesBy C s` collects the later states of a run that
has reached `s`.

What is said of the course of a run is said of the states of the system that records its own
history (`recorded`): each of them carries the steps that led to it. -/

namespace DistributedSystems

/-- A labelled transition system with states `σ` and labels `α`. -/
structure Lts (σ α : Type) where
  init : σ
  step : σ → α → Option σ

namespace Lts

variable {σ α τ β : Type}

/-- The states reached from the initial one by steps that all meet the condition `C`. -/
inductive ReachableBy (L : Lts σ α) (C : σ → α → Prop) : σ → Prop
  | init : ReachableBy L C L.init
  | step {s s' : σ} {a : α} :
      ReachableBy L C s → C s a → L.step s a = some s' → ReachableBy L C s'

/-- The states of all runs. -/
def Reachable (L : Lts σ α) : σ → Prop := L.ReachableBy (fun _ _ => True)

/-- **Induction over a run**: what holds initially and is preserved by every step holds in
every state reached.  The step may use that the state before it is itself reached, so
invariants can be proved one after the other. -/
theorem ReachableBy.invariant {L : Lts σ α} {C : σ → α → Prop} {I : σ → Prop}
    (hinit : I L.init)
    (hstep : ∀ s a s', L.ReachableBy C s → I s → C s a → L.step s a = some s' → I s')
    {s : σ} (h : L.ReachableBy C s) : I s := by
  induction h with
  | init => exact hinit
  | step hr hc hs ih => exact hstep _ _ _ hr ih hc hs

theorem ReachableBy.mono {L : Lts σ α} {C D : σ → α → Prop} (hCD : ∀ s a, C s a → D s a)
    {s : σ} (h : L.ReachableBy C s) : L.ReachableBy D s := by
  induction h with
  | init => exact .init
  | step _ hc hs ih => exact .step ih (hCD _ _ hc) hs

/-- **Transfer along an abstraction**: when every step of a run of `L` is matched by a step
of `M` or leaves the abstract state as it is, the abstraction of a reached state is reached. -/
theorem ReachableBy.simulate {L : Lts σ α} {M : Lts τ β} {C : σ → α → Prop}
    {D : τ → β → Prop} (f : σ → τ) (hinit : f L.init = M.init)
    (hstep : ∀ s a s', L.ReachableBy C s → C s a → L.step s a = some s' →
      f s' = f s ∨ ∃ b, D (f s) b ∧ M.step (f s) b = some (f s'))
    {s : σ} (h : L.ReachableBy C s) : M.ReachableBy D (f s) := by
  induction h with
  | init => rw [hinit]; exact .init
  | step hr hc hs ih =>
      rcases hstep _ _ _ hr hc hs with he | ⟨b, hd, hb⟩
      · rw [he]; exact ih
      · exact .step ih hd hb

/-- **Forward simulation**: a relation `R` that holds initially and that every step of a run of
`L` keeps, with at most one step of `M`, relates every reached state to a reached one. -/
theorem ReachableBy.simulate_rel {L : Lts σ α} {M : Lts τ β} {C : σ → α → Prop}
    {D : τ → β → Prop} (R : σ → τ → Prop) (hinit : R L.init M.init)
    (hstep : ∀ s a s' t, L.ReachableBy C s → M.ReachableBy D t → R s t → C s a →
      L.step s a = some s' → R s' t ∨ ∃ b t', D t b ∧ M.step t b = some t' ∧ R s' t')
    {s : σ} (h : L.ReachableBy C s) : ∃ t, M.ReachableBy D t ∧ R s t := by
  induction h with
  | init => exact ⟨M.init, .init, hinit⟩
  | step hr hc hs ih =>
      obtain ⟨t, ht, hR⟩ := ih
      rcases hstep _ _ _ _ hr ht hR hc hs with hR' | ⟨b, t', hd, hb, hR'⟩
      · exact ⟨t, ht, hR'⟩
      · exact ⟨t', .step ht hd hb, hR'⟩

/-! ### The rest of a run -/

/-- The states reached from `s` by steps that all meet the condition `C`. -/
inductive ReachesBy (L : Lts σ α) (C : σ → α → Prop) (s : σ) : σ → Prop
  | refl : ReachesBy L C s s
  | step {t t' : σ} {a : α} :
      ReachesBy L C s t → C t a → L.step t a = some t' → ReachesBy L C s t'

theorem ReachesBy.mono {L : Lts σ α} {C D : σ → α → Prop} (hCD : ∀ s a, C s a → D s a) {s t : σ}
    (h : L.ReachesBy C s t) : L.ReachesBy D s t := by
  induction h with
  | refl => exact .refl
  | step _ hc ht ih => exact .step ih (hCD _ _ hc) ht

theorem ReachesBy.single {L : Lts σ α} {C : σ → α → Prop} {s t : σ} {a : α} (hc : C s a)
    (h : L.step s a = some t) : L.ReachesBy C s t :=
  .step .refl hc h

theorem ReachesBy.trans {L : Lts σ α} {C : σ → α → Prop} {s t u : σ} (h : L.ReachesBy C s t)
    (h' : L.ReachesBy C t u) : L.ReachesBy C s u := by
  induction h' with
  | refl => exact h
  | step _ hc hs ih => exact .step ih hc hs

/-- **Progress by a measure**: when from every state with `I` that is not yet a goal a run leads
to one with `I` and a smaller measure, a run leads to a goal. -/
theorem exists_reaches_of_measure {L : Lts σ α} {C : σ → α → Prop} {I Q : σ → Prop} (μ : σ → ℕ)
    (hstep : ∀ s, I s → ¬ Q s → ∃ t, L.ReachesBy C s t ∧ I t ∧ μ t < μ s) {s : σ} (h : I s) :
    ∃ t, L.ReachesBy C s t ∧ I t ∧ Q t := by
  induction hm : μ s using Nat.strong_induction_on generalizing s with
  | _ m ih =>
      by_cases hq : Q s
      · exact ⟨s, .refl, h, hq⟩
      · obtain ⟨t, hst, ht, hlt⟩ := hstep s h hq
        obtain ⟨u, htu, hu, hqu⟩ := ih (μ t) (hm ▸ hlt) ht rfl
        exact ⟨u, hst.trans htu, hu, hqu⟩

theorem ReachableBy.trans {L : Lts σ α} {C : σ → α → Prop} {s t : σ} (h : L.ReachableBy C s)
    (ht : L.ReachesBy C s t) : L.ReachableBy C t := by
  induction ht with
  | refl => exact h
  | step _ hc hs ih => exact .step ih hc hs

/-- What a step never takes back still holds in every later state of the run. -/
theorem ReachesBy.stable {L : Lts σ α} {C : σ → α → Prop} {P : σ → Prop}
    (hstep : ∀ s a s', P s → C s a → L.step s a = some s' → P s') {s t : σ}
    (h : L.ReachesBy C s t) (hs : P s) : P t := by
  induction h with
  | refl => exact hs
  | step _ hc ht ih => exact hstep _ _ _ ih hc ht

/-! ### The history of a run -/

/-- A state with the steps that led to it: for each the state before it and its label. -/
structure Recorded (σ α : Type) where
  past : List (σ × α)
  now : σ

/-- One more step is taken. -/
@[simps] def Recorded.next (x : Recorded σ α) (a : α) (s : σ) : Recorded σ α where
  past := x.past ++ [(x.now, a)]
  now := s

/-- `P` holds, or held before some step. -/
def Recorded.Once (x : Recorded σ α) (P : σ → Prop) : Prop := P x.now ∨ ∃ e ∈ x.past, P e.1

theorem Recorded.Once.next {x : Recorded σ α} {P : σ → Prop} (h : x.Once P) (a : α) (s : σ) :
    (x.next a s).Once P := by
  rcases h with h | ⟨e, he, h⟩
  · exact Or.inr ⟨(x.now, a), by simp, h⟩
  · exact Or.inr ⟨e, List.mem_append_left _ he, h⟩

/-- The system that records its history. -/
def recorded (L : Lts σ α) : Lts (Recorded σ α) α where
  init := ⟨[], L.init⟩
  step x a := (L.step x.now a).map (x.next a)

/-- **Induction over a recorded run.** -/
theorem ReachableBy.recorded_invariant {L : Lts σ α} {C : Recorded σ α → α → Prop}
    {I : Recorded σ α → Prop} (hinit : I ⟨[], L.init⟩)
    (hstep : ∀ x a s', L.recorded.ReachableBy C x → I x → C x a → L.step x.now a = some s' →
      I (x.next a s'))
    {x : Recorded σ α} (h : L.recorded.ReachableBy C x) : I x := by
  refine h.invariant hinit ?_
  intro x a x' hr ih hc hs
  obtain ⟨s', hs', rfl⟩ := Option.map_eq_some_iff.mp hs
  exact hstep x a s' hr ih hc hs'

/-- A recorded run is a run. -/
theorem ReachableBy.of_recorded {L : Lts σ α} {C : Recorded σ α → α → Prop} {D : σ → α → Prop}
    (hCD : ∀ x a, C x a → D x.now a) {x : Recorded σ α} (h : L.recorded.ReachableBy C x) :
    L.ReachableBy D x.now := by
  refine h.recorded_invariant (I := fun x => L.ReachableBy D x.now) .init ?_
  intro x a s' _ ih hc hs
  exact .step ih (hCD x a hc) hs

/-! ### Evaluating a run -/

/-- The state after a list of labels, `none` when one of them is not enabled or violates
the condition. -/
def exec (L : Lts σ α) (C : σ → α → Prop) [∀ s a, Decidable (C s a)] :
    σ → List α → Option σ
  | s, [] => some s
  | s, a :: l => if C s a then (L.step s a).bind (fun s' => exec L C s' l) else none

theorem ReachesBy.of_exec {L : Lts σ α} {C : σ → α → Prop} [∀ s a, Decidable (C s a)] {s₀ : σ} :
    ∀ {l : List α} {s s' : σ}, L.ReachesBy C s₀ s → L.exec C s l = some s' →
      L.ReachesBy C s₀ s'
  | [], s, s', h, he => by
      simp only [exec, Option.some.injEq] at he
      exact he ▸ h
  | a :: l, s, s', h, he => by
      simp only [exec] at he
      split at he
      · rename_i hc
        obtain ⟨t, ht, he⟩ := Option.bind_eq_some_iff.mp he
        exact ReachesBy.of_exec (.step h hc ht) he
      · cases he

/-- A measure that every step decreases bounds the length of a run. -/
theorem length_add_le_of_exec {L : Lts σ α} {C : σ → α → Prop} [∀ s a, Decidable (C s a)]
    {μ : σ → ℕ} (hμ : ∀ s a s', C s a → L.step s a = some s' → μ s' < μ s) :
    ∀ {l : List α} {s s' : σ}, L.exec C s l = some s' → l.length + μ s' ≤ μ s
  | [], s, s', he => by
      simp only [exec, Option.some.injEq] at he
      simp [he]
  | a :: l, s, s', he => by
      simp only [exec] at he
      split at he
      · rename_i hc
        obtain ⟨t, ht, he⟩ := Option.bind_eq_some_iff.mp he
        have h1 := hμ s a t hc ht
        have h2 := length_add_le_of_exec hμ he
        rw [List.length_cons]
        omega
      · cases he

/-- A run that can be evaluated reaches its last state. -/
theorem reachableBy_of_exec {L : Lts σ α} {C : σ → α → Prop} [∀ s a, Decidable (C s a)]
    {l : List α} {s : σ} (h : L.exec C L.init l = some s) : L.ReachableBy C s :=
  ReachableBy.init.trans (.of_exec .refl h)

/-- A run whose last state passes the test `p` gives a reached state that passes it. -/
theorem exists_of_exec {L : Lts σ α} {C : σ → α → Prop} [∀ s a, Decidable (C s a)]
    {p : σ → Bool} (l : List α) (h : (L.exec C L.init l).any p = true) :
    ∃ s, L.ReachableBy C s ∧ p s = true := by
  cases he : L.exec C L.init l with
  | none => rw [he] at h; cases h
  | some s =>
      rw [he] at h
      exact ⟨s, reachableBy_of_exec he, h⟩

/-- Two runs, one after the other, whose last states pass the test `p`. -/
theorem exists_reaches_of_exec {L : Lts σ α} {C D : σ → α → Prop} [∀ s a, Decidable (C s a)]
    [∀ s a, Decidable (D s a)] {p : σ → σ → Bool} (l l' : List α)
    (h : (L.exec C L.init l).any (fun s => (L.exec D s l').any (p s)) = true) :
    ∃ s t, L.ReachableBy C s ∧ L.ReachesBy D s t ∧ p s t = true := by
  obtain ⟨s, hs, ht⟩ := exists_of_exec l h
  cases he : L.exec D s l' with
  | none => rw [he] at ht; cases ht
  | some t =>
      rw [he] at ht
      exact ⟨s, t, hs, .of_exec .refl he, ht⟩

end Lts

end DistributedSystems
