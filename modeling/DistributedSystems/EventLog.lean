import Mathlib

/-! # Logs of events in the order of time

Systems of this development keep a log of what happened, oldest event first, so that a
property of a run ("every request was sent after …") is a property of the log of the state
it reaches.  `EachEvent P log` says that every event stands in the relation `P` to the events
before it; it is carried along a run one event at a time (`EachEvent.concat`).  `Since P Q log`
says that an event with the property `P` has happened and no event with the property `Q` since. -/

namespace DistributedSystems

variable {ε : Type}

/-- Every event `e` of the log satisfies `P pre e`, where `pre` is the log before it. -/
def EachEvent (P : List ε → ε → Prop) (log : List ε) : Prop :=
  ∀ pre e post, log = pre ++ e :: post → P pre e

theorem EachEvent.nil (P : List ε → ε → Prop) : EachEvent P [] := by
  intro pre e post h
  simp at h

theorem EachEvent.concat {P : List ε → ε → Prop} {log : List ε} {x : ε}
    (h : EachEvent P log) (hx : P log x) : EachEvent P (log ++ [x]) := by
  intro pre e post he
  rcases List.eq_nil_or_concat post with rfl | ⟨post', y, rfl⟩
  · obtain ⟨rfl, h2⟩ := List.append_inj' he rfl
    simp only [List.cons.injEq, and_true] at h2
    exact h2 ▸ hx
  · have he' : log ++ [x] = (pre ++ e :: post') ++ [y] := by simpa using he
    exact h pre e post' (List.append_inj' he' rfl).1

/-- Events that need nothing before them can be appended. -/
theorem EachEvent.append {P : List ε → ε → Prop} {log es : List ε} (h : EachEvent P log)
    (hes : ∀ e ∈ es, ∀ pre, P pre e) : EachEvent P (log ++ es) := by
  induction es using List.reverseRecOn with
  | nil => simpa using h
  | append_singleton es e ih =>
      rw [← List.append_assoc]
      refine (ih ?_).concat (hes e (by simp) _)
      intro x hx
      exact hes x (by simp [hx])

theorem EachEvent.of_mem {P : List ε → ε → Prop} {log : List ε} (h : EachEvent P log) {e : ε}
    (he : e ∈ log) : ∃ pre post, log = pre ++ e :: post ∧ P pre e := by
  obtain ⟨pre, post, rfl⟩ := List.append_of_mem he
  exact ⟨pre, post, rfl, h pre e post rfl⟩

/-- What happened at most once. -/
theorem EachEvent.countP_le_one {q : ε → Bool} {log : List ε}
    (h : EachEvent (fun pre e => q e = true → ∀ x ∈ pre, ¬ q x = true) log) :
    log.countP q ≤ 1 := by
  induction log using List.reverseRecOn with
  | nil => simp
  | append_singleton log e ih =>
      have hlog : EachEvent (fun pre e => q e = true → ∀ x ∈ pre, ¬ q x = true) log := by
        intro pre x post he
        exact h pre x (post ++ [e]) (by rw [he]; simp)
      rw [List.countP_append, List.countP_singleton]
      by_cases hq : q e = true
      · rw [List.countP_eq_zero.mpr (h log e [] rfl hq), if_pos hq]
      · rw [if_neg hq]
        exact ih hlog

/-- An event with the property `P` has happened, and no event with the property `Q` since. -/
def Since (P : List ε → ε → Prop) (Q : ε → Prop) (log : List ε) : Prop :=
  ∃ pre e post, log = pre ++ e :: post ∧ P pre e ∧ ∀ x ∈ post, ¬ Q x

theorem Since.now {P : List ε → ε → Prop} {Q : ε → Prop} {log : List ε} {x : ε} (h : P log x) :
    Since P Q (log ++ [x]) :=
  ⟨log, x, [], rfl, h, by simp⟩

theorem Since.concat {P : List ε → ε → Prop} {Q : ε → Prop} {log : List ε} {x : ε}
    (h : Since P Q log) (hx : ¬ Q x) : Since P Q (log ++ [x]) := by
  obtain ⟨pre, e, post, rfl, hp, hq⟩ := h
  refine ⟨pre, e, post ++ [x], by simp, hp, ?_⟩
  intro y hy
  rcases List.mem_append.mp hy with hy | hy
  · exact hq y hy
  · rw [List.mem_singleton.mp hy]
    exact hx

/-- When the event is none with the property `Q`, it stands after the last one. -/
theorem Since.after {P : List ε → ε → Prop} {Q : ε → Prop} {pre mid : List ε} {e₀ : ε}
    (h : Since P Q (pre ++ e₀ :: mid)) (he₀ : Q e₀) (hPQ : ∀ pre e, P pre e → ¬ Q e) :
    ∃ mid₁ e mid₂, mid = mid₁ ++ e :: mid₂ ∧ P (pre ++ e₀ :: mid₁) e := by
  obtain ⟨pre', e, post, he, hp, hq⟩ := h
  rcases List.append_eq_append_iff.mp he with ⟨l, rfl, hl⟩ | ⟨l, rfl, hl⟩
  · rcases List.cons_eq_append_iff.mp hl with ⟨rfl, hl⟩ | ⟨l', rfl, rfl⟩
    · rw [List.nil_append, List.cons.injEq] at hl
      exact absurd he₀ (hl.1 ▸ hPQ _ _ hp)
    · exact ⟨l', e, post, rfl, hp⟩
  · rcases List.cons_eq_append_iff.mp hl with ⟨rfl, hl⟩ | ⟨l', rfl, rfl⟩
    · rw [List.nil_append, List.cons.injEq] at hl
      rw [hl.1] at hp
      exact absurd he₀ (hPQ _ _ hp)
    · exact absurd he₀ (hq e₀ (by simp))

/-- When the keys that `f` reads off a log are pairwise distinct, a key determines its event. -/
theorem eq_of_nodup_filterMap {κ : Type} {f : ε → Option κ} :
    ∀ {log : List ε}, (log.filterMap f).Nodup → ∀ {x y : ε} {k : κ}, x ∈ log → y ∈ log →
      f x = some k → f y = some k → x = y
  | [], _, _, _, _, hx, _, _, _ => by simp at hx
  | e :: log, hn, x, y, k, hx, hy, hfx, hfy => by
      have hlog : (log.filterMap f).Nodup :=
        hn.sublist ((List.sublist_cons_self e log).filterMap f)
      have hkey : ∀ {z : ε}, z ∈ log → f z = some k → f e ≠ some k := by
        intro z hz hfz hfe
        rw [List.filterMap_cons_some hfe] at hn
        exact (List.nodup_cons.mp hn).1 (List.mem_filterMap.mpr ⟨z, hz, hfz⟩)
      rcases List.mem_cons.mp hx with rfl | hx' <;> rcases List.mem_cons.mp hy with rfl | hy'
      · rfl
      · exact absurd hfx (hkey hy' hfy)
      · exact absurd hfy (hkey hx' hfx)
      · exact eq_of_nodup_filterMap hlog hx' hy' hfx hfy

end DistributedSystems
