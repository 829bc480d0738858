import DistributedSystems.EventLog

/-! # Linearizability and linearization points

A concurrent history is a list of call and return events; it is linearizable with respect to a
sequential specification when its completed operations, and some of the pending ones, can be put
in one sequence that the specification can execute, that explains what every completed
operation returned, and that keeps the real-time order: an operation that returned before
another was called does not come after it.

What an operation returned need not be the specification's response: `expl r' r` says that the
observed value `r'` is explained by the response `r`, so an operation may report that it does not
know which of two responses it got.

`linearization_of_points` is the rule used for proofs: mark in the log of an execution one event
per operation, between its call and its return, so that the marked events in the order of
the log are a legal sequential execution.  Marks may be chosen by looking at the whole log, and
events that leave the specification's state as it is need not be marked (`Legal.filter`). -/

namespace DistributedSystems

/-- A deterministic sequential specification with operations `ω` and responses `ρ`. -/
structure SeqSpec (σ ω ρ : Type) where
  init : σ
  next : σ → ω → σ × ρ

variable {σ ω ρ ρ' ε : Type}

namespace SeqSpec

variable (spec : SeqSpec σ ω ρ)

/-- Executing the operations one after the other from `s` gives the listed responses. -/
def Legal : σ → List (ω × ρ) → Prop
  | _, [] => True
  | s, (op, r) :: l => (spec.next s op).2 = r ∧ Legal (spec.next s op).1 l

/-- The state after executing the operations. -/
def after : σ → List (ω × ρ) → σ
  | s, [] => s
  | s, (op, _) :: l => after (spec.next s op).1 l

theorem after_append (l₁ l₂ : List (ω × ρ)) (s : σ) :
    spec.after s (l₁ ++ l₂) = spec.after (spec.after s l₁) l₂ := by
  induction l₁ generalizing s with
  | nil => rfl
  | cons x l ih => exact ih _

theorem legal_append (l₁ l₂ : List (ω × ρ)) (s : σ) :
    spec.Legal s (l₁ ++ l₂) ↔ spec.Legal s l₁ ∧ spec.Legal (spec.after s l₁) l₂ := by
  induction l₁ generalizing s with
  | nil => simp [Legal, after]
  | cons x l ih => simp only [List.cons_append, Legal, after, ih, and_assoc]

variable {spec}

/-- Operations whose response leaves the state as it is may be left out of a legal sequence. -/
theorem Legal.filter {R : ρ → Prop} (hro : ∀ s op, R (spec.next s op).2 → (spec.next s op).1 = s)
    {α : Type} (f : α → ω × ρ) (keep : α → Bool) :
    ∀ (l : List α) (s : σ), (∀ x ∈ l, keep x = false → R (f x).2) → spec.Legal s (l.map f) →
      spec.Legal s ((l.filter keep).map f)
  | [], _, _, _ => trivial
  | x :: l, s, hdrop, h => by
      simp only [List.map_cons, Legal] at h
      obtain ⟨hr, hl⟩ := h
      have ih := Legal.filter hro f keep l _ (fun y hy => hdrop y (List.mem_cons_of_mem _ hy)) hl
      cases hk : keep x with
      | true =>
          rw [List.filter_cons_of_pos hk]
          exact ⟨hr, ih⟩
      | false =>
          rw [List.filter_cons_of_neg (by simp [hk])]
          have hx : R (spec.next s (f x).1).2 := hr ▸ hdrop x List.mem_cons_self hk
          rwa [hro _ _ hx] at ih

end SeqSpec

/-! ### Histories -/

/-- What a history shows of an execution: operation `id` is called, operation `id` returns. -/
inductive HEvent (ω ρ : Type) where
  | call (id : ℕ) (op : ω)
  | ret (id : ℕ) (r : ρ)

/-- The operation a call event starts. -/
def HEvent.callId? : HEvent ω ρ → Option ℕ
  | .call id _ => some id
  | .ret _ _ => none

/-- Operation `a` has returned before operation `b` is called. -/
def Precedes (H : List (HEvent ω ρ)) (a b : ℕ) : Prop :=
  ∃ pre post op r, H = pre ++ .call b op :: post ∧ .ret a r ∈ pre

theorem Precedes.append {H : List (HEvent ω ρ)} {a b : ℕ} (h : Precedes H a b)
    (l : List (HEvent ω ρ)) : Precedes (H ++ l) a b := by
  obtain ⟨pre, post, op, r, rfl, hr⟩ := h
  exact ⟨pre, post ++ l, op, r, by simp, hr⟩

/-- The sequence `S` of operations with their responses linearizes the history `H`. -/
structure Linearization (spec : SeqSpec σ ω ρ) (expl : ρ' → ρ → Prop)
    (H : List (HEvent ω ρ')) (S : List (ℕ × ω × ρ)) : Prop where
  nodup : (S.map Prod.fst).Nodup
  legal : spec.Legal spec.init (S.map Prod.snd)
  called : ∀ x ∈ S, .call x.1 x.2.1 ∈ H
  complete : ∀ id r', .ret id r' ∈ H → ∃ op r, (id, op, r) ∈ S ∧ expl r' r
  order : S.Pairwise (fun x y => ¬ Precedes H y.1 x.1)

/-- The history has a linearization. -/
def Linearizable (spec : SeqSpec σ ω ρ) (expl : ρ' → ρ → Prop) (H : List (HEvent ω ρ')) : Prop :=
  ∃ S, Linearization spec expl H S

/-- In a history that calls every operation once, what returned before the call of `a` lies in
the part of the history before that call. -/
theorem Precedes.mem_of_call {H : List (HEvent ω ρ)} {a b : ℕ} (h : Precedes H b a)
    (huniq : (H.filterMap HEvent.callId?).Nodup) {u v : List (HEvent ω ρ)} {op : ω}
    (hH : H = u ++ .call a op :: v) : ∃ r, .ret b r ∈ u := by
  obtain ⟨pre, post, op', r, he, hr⟩ := h
  rcases List.append_eq_append_iff.mp (hH.symm.trans he) with ⟨l, hpre, hrest⟩ | ⟨l, hu, _⟩
  · cases l with
    | nil =>
        rw [List.append_nil] at hpre
        exact ⟨r, hpre ▸ hr⟩
    | cons x l =>
        rw [List.cons_append, List.cons.injEq] at hrest
        have hx : HEvent.call a op ∈ pre := by simp [hpre, ← hrest.1]
        rw [he, List.filterMap_append,
          List.filterMap_cons_some (f := HEvent.callId?) (b := a) rfl] at huniq
        exact absurd rfl ((List.nodup_append.mp huniq).2.2 a
          (List.mem_filterMap.mpr ⟨_, hx, rfl⟩) a List.mem_cons_self)
  · exact ⟨r, by simp [hu, hr]⟩

/-- **Linearization points.**  `vis` reads the history off the log of an execution and `pt` marks
the linearization points.  If every point comes after the call and before the return of its
operation, no operation has two points, every operation that returned has one that explains
it, and the points are a legal sequential execution, then they linearize the history. -/
theorem linearization_of_points {spec : SeqSpec σ ω ρ} {expl : ρ' → ρ → Prop} {log : List ε}
    {vis : ε → Option (HEvent ω ρ')} {pt : ε → Option (ℕ × ω × ρ)}
    (hcalls : ((log.filterMap vis).filterMap HEvent.callId?).Nodup)
    (hnodup : ((log.filterMap pt).map Prod.fst).Nodup)
    (hlegal : spec.Legal spec.init ((log.filterMap pt).map Prod.snd))
    (hpt : EachEvent (fun pre e => ∀ x, pt e = some x →
      .call x.1 x.2.1 ∈ pre.filterMap vis ∧ ∀ r, .ret x.1 r ∉ pre.filterMap vis) log)
    (hret : ∀ id r', .ret id r' ∈ log.filterMap vis →
      ∃ op r, (id, op, r) ∈ log.filterMap pt ∧ expl r' r) :
    Linearization spec expl (log.filterMap vis) (log.filterMap pt) := by
  refine ⟨hnodup, hlegal, ?_, hret, ?_⟩
  · intro x hx
    obtain ⟨e, he, hp⟩ := List.mem_filterMap.mp hx
    obtain ⟨pre, post, rfl, hP⟩ := hpt.of_mem he
    rw [List.filterMap_append]
    exact List.mem_append_left _ (hP x hp).1
  · rw [List.pairwise_filterMap, List.pairwise_iff_forall_sublist]
    intro e e' hsub x hx y hy hprec
    obtain ⟨r₁, r₂, rfl, he, hr₂⟩ := List.cons_sublist_iff.mp hsub
    obtain ⟨p, q, rfl⟩ := List.append_of_mem he
    obtain ⟨p', q', rfl⟩ := List.append_of_mem (List.singleton_sublist.mp hr₂)
    obtain ⟨hcall, -⟩ := hpt p e (q ++ (p' ++ e' :: q')) (by simp) x hx
    obtain ⟨-, hnret⟩ := hpt (p ++ e :: q ++ p') e' q' (by simp) y hy
    obtain ⟨u, v, huv⟩ := List.append_of_mem hcall
    have hu : (p ++ e :: q ++ (p' ++ e' :: q')).filterMap vis =
        u ++ .call x.1 x.2.1 :: (v ++ (e :: q ++ (p' ++ e' :: q')).filterMap vis) := by
      rw [List.append_assoc, List.filterMap_append, huv]
      simp
    obtain ⟨r, hr⟩ := hprec.mem_of_call hcalls hu
    refine hnret r ?_
    rw [List.append_assoc, List.filterMap_append, huv]
    simp [hr]

end DistributedSystems
