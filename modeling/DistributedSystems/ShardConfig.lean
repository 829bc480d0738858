import DistributedSystems.LoadBalance

/-! # Shard configurations

The configuration of `shardkv1/shardcfg/shardcfg.go` and the code that spreads the shards over the
groups.  A Go map is a `Finmap`; the order in which a `range` visits it is a list of its keys
(`Ranges`), and it may be another one at every `range`.  `analyze` sorts the keys, so that the order
does not matter (`analyze_congr`).

`Rebalance` places the shards of groups that are gone and then shifts shards from the group with
the most to the group with the fewest.  These are the moves of the library on balancing, so the
result is balanced (`rebalance_balances`) and no balanced assignment moves fewer shards
(`rebalance_moves_fewest`).  The second loop of `Rebalance` has fuel; every round moves a shard that
has not been moved before, so as many rounds as there are shards are enough.

`Tnum` and `Tgid` are `int` in the source and integers here.  A group is only compared with another,
and `num` counts the calls that return true, so nothing overflows in a run with fewer than `2 ^ 63`
of them. -/

namespace DistributedSystems.ShardCfg

/-! ### Configurations -/

/-- The number of shards. -/
abbrev NShards : ℕ := 12

abbrev Tshid := Fin NShards

abbrev Tgid := ℤ

abbrev Groups := Finmap (fun _ : Tgid => List String)

@[ext] structure ShardConfig where
  num : ℤ
  shards : Tshid → Tgid
  groups : Groups

instance : DecidableEq ShardConfig := fun _ _ => decidable_of_iff _ ShardConfig.ext_iff.symm

def makeShardConfig : ShardConfig := ⟨0, fun _ => 0, ∅⟩

/-- A `range` over the map can visit the keys in this order. -/
def Ranges (groups : Groups) (order : List Tgid) : Prop :=
  order.Nodup ∧ order.toFinset = groups.keys

instance (groups : Groups) (order : List Tgid) : Decidable (Ranges groups order) :=
  inferInstanceAs (Decidable (_ ∧ _))

/-- The group with the most shards and their number, and the group with the fewest and theirs. -/
structure Analysis where
  mg : Tgid
  mn : ℤ
  lg : Tgid
  ln : ℤ
deriving DecidableEq, Repr

namespace ShardConfig

variable (c : ShardConfig)

/-- `counts[g]`. -/
def counts (g : Tgid) : ℕ := load c.shards g

/-- The body of the loop of `analyze`. -/
def scan (a : Analysis) (g : Tgid) : Analysis :=
  let a := if c.counts g < a.ln then { a with ln := c.counts g, lg := g } else a
  if c.counts g > a.mn then { a with mn := c.counts g, mg := g } else a

/-- `analyze`, with the order in which it visits the groups before it sorts them. -/
def analyze (order : List Tgid) : Analysis :=
  (order.insertionSort (· ≤ ·)).foldl c.scan ⟨-1, -1, -1, 257⟩

def least (order : List Tgid) : Tgid := (c.analyze order).lg

/-- `c.Shards[s] = g`. -/
@[simps] def assign (s : Tshid) (g : Tgid) : ShardConfig :=
  { c with shards := Function.update c.shards s g }

/-- The loop over the unassigned shards.  Its `range` goes over a copy of the array. -/
def assignUnassigned (orders : ℕ → List Tgid) : ShardConfig :=
  (List.finRange NShards).foldl (fun c' s =>
    if c.shards s ∈ c.groups then c' else c'.assign s (c'.least (orders s))) c

/-- Moves one shard from `mg` to `lg`. -/
def moveOne (mg lg : Tgid) : ShardConfig :=
  match (List.finRange NShards).find? (fun s => c.shards s = mg) with
  | some s => c.assign s lg
  | none => c

/-- The loop that moves shards from the most to the least heavily loaded group; `none` when the
fuel does not suffice. -/
def moveLoop (orders : ℕ → List Tgid) : ℕ → ℕ → ShardConfig → Option ShardConfig
  | 0, _, _ => none
  | fuel + 1, round, c =>
      let a := c.analyze (orders round)
      if a.mn < a.ln + 2 then some c else moveLoop orders fuel (round + 1) (c.moveOne a.mg a.lg)

/-- `Rebalance`, with the orders in which its calls of `analyze` visit the groups. -/
def rebalance (orders : ℕ → List Tgid) (fuel : ℕ) : Option ShardConfig :=
  if c.groups.keys.card < 1 then some { c with shards := fun _ => 0 }
  else moveLoop orders fuel NShards (c.assignUnassigned orders)

end ShardConfig

/-! ### What `analyze` finds -/

section analyze

variable {c : ShardConfig}

theorem counts_lt (c : ShardConfig) (g : Tgid) : (c.counts g : ℤ) < 257 := by
  have h : c.counts g ≤ 12 := load_le_card c.shards g
  omega

/-- The extremes among the groups that the loop of `analyze` has seen. -/
structure Extremes (c : ShardConfig) (seen : List Tgid) (a : Analysis) : Prop where
  most : ∀ g ∈ seen, c.counts g ≤ a.mn
  least : ∀ g ∈ seen, a.ln ≤ c.counts g
  mg : (seen = [] ∧ a.mn = -1) ∨ (a.mg ∈ seen ∧ a.mn = c.counts a.mg)
  lg : (seen = [] ∧ a.ln = 257) ∨ (a.lg ∈ seen ∧ a.ln = c.counts a.lg)

theorem scan_of_fewer {a : Analysis} {g : Tgid} (h : c.counts g < a.ln) :
    (c.scan a g).ln = c.counts g ∧ (c.scan a g).lg = g := by
  simp only [ShardConfig.scan, if_pos h]
  split_ifs <;> exact ⟨rfl, rfl⟩

theorem scan_of_not_fewer {a : Analysis} {g : Tgid} (h : ¬ c.counts g < a.ln) :
    (c.scan a g).ln = a.ln ∧ (c.scan a g).lg = a.lg := by
  simp only [ShardConfig.scan, if_neg h]
  split_ifs <;> exact ⟨rfl, rfl⟩

theorem scan_of_more {a : Analysis} {g : Tgid} (h : c.counts g > a.mn) :
    (c.scan a g).mn = c.counts g ∧ (c.scan a g).mg = g := by
  by_cases hl : c.counts g < a.ln
  · simp only [ShardConfig.scan, if_pos hl, if_pos h, and_self]
  · simp only [ShardConfig.scan, if_neg hl, if_pos h, and_self]

theorem scan_of_not_more {a : Analysis} {g : Tgid} (h : ¬ c.counts g > a.mn) :
    (c.scan a g).mn = a.mn ∧ (c.scan a g).mg = a.mg := by
  by_cases hl : c.counts g < a.ln
  · simp only [ShardConfig.scan, if_pos hl, if_neg h, and_self]
  · simp only [ShardConfig.scan, if_neg hl, if_neg h, and_self]

theorem Extremes.scan {seen : List Tgid} {a : Analysis} (h : Extremes c seen a) (g : Tgid) :
    Extremes c (seen ++ [g]) (c.scan a g) := by
  have hmem : ∀ {P : Tgid → Prop}, (∀ x ∈ seen, P x) → P g → ∀ x ∈ seen ++ [g], P x := by
    intro P hseen hg x hx
    rcases List.mem_append.mp hx with hx | hx
    · exact hseen x hx
    · exact List.mem_singleton.mp hx ▸ hg
  have hlast : g ∈ seen ++ [g] := List.mem_append_right _ (List.mem_singleton_self g)
  have hmost : (∀ x ∈ seen ++ [g], c.counts x ≤ (c.scan a g).mn) ∧
      (c.scan a g).mg ∈ seen ++ [g] ∧ (c.scan a g).mn = c.counts (c.scan a g).mg := by
    by_cases hg : c.counts g > a.mn
    · obtain ⟨hmn, hmg⟩ := scan_of_more hg
      rw [hmn, hmg]
      refine ⟨hmem ?_ le_rfl, hlast, rfl⟩
      intro x hx
      have := h.most x hx
      omega
    · obtain ⟨hmn, hmg⟩ := scan_of_not_more hg
      rw [hmn, hmg]
      refine ⟨hmem h.most (by omega), ?_⟩
      rcases h.mg with ⟨-, hmn⟩ | ⟨hmg, hmn⟩
      · omega
      · exact ⟨List.mem_append_left _ hmg, hmn⟩
  have hleast : (∀ x ∈ seen ++ [g], (c.scan a g).ln ≤ c.counts x) ∧
      (c.scan a g).lg ∈ seen ++ [g] ∧ (c.scan a g).ln = c.counts (c.scan a g).lg := by
    by_cases hg : c.counts g < a.ln
    · obtain ⟨hln, hlg⟩ := scan_of_fewer hg
      rw [hln, hlg]
      refine ⟨hmem ?_ le_rfl, hlast, rfl⟩
      intro x hx
      have := h.least x hx
      omega
    · obtain ⟨hln, hlg⟩ := scan_of_not_fewer hg
      rw [hln, hlg]
      refine ⟨hmem h.least (by omega), ?_⟩
      -- no group has as many shards as the loop begins with
      have hlt := counts_lt c g
      rcases h.lg with ⟨-, hln⟩ | ⟨hlg, hln⟩
      · omega
      · exact ⟨List.mem_append_left _ hlg, hln⟩
  exact ⟨hmost.1, hleast.1, Or.inr hmost.2, Or.inr hleast.2⟩

theorem extremes_foldl (c : ShardConfig) (l : List Tgid) :
    Extremes c l (l.foldl c.scan ⟨-1, -1, -1, 257⟩) := by
  induction l using List.reverseRecOn with
  | nil => exact ⟨by simp, by simp, Or.inl ⟨rfl, rfl⟩, Or.inl ⟨rfl, rfl⟩⟩
  | append_singleton l g ih =>
      rw [List.foldl_append]
      exact ih.scan g

/-- What `analyze` returns for a configuration with groups. -/
structure Analyzed (c : ShardConfig) (a : Analysis) : Prop where
  mg : a.mg ∈ c.groups.keys
  mn : a.mn = load c.shards a.mg
  most : ∀ g ∈ c.groups.keys, load c.shards g ≤ load c.shards a.mg
  lg : a.lg ∈ c.groups.keys
  ln : a.ln = load c.shards a.lg
  least : ∀ g ∈ c.groups.keys, load c.shards a.lg ≤ load c.shards g

theorem mem_insertionSort {groups : Groups} {order : List Tgid} (h : Ranges groups order)
    {g : Tgid} : g ∈ order.insertionSort (· ≤ ·) ↔ g ∈ groups.keys := by
  rw [(List.perm_insertionSort _ order).mem_iff, ← h.2, List.mem_toFinset]

theorem analyzed {order : List Tgid} (h : Ranges c.groups order) (hne : c.groups.keys.Nonempty) :
    Analyzed c (c.analyze order) := by
  have hex := extremes_foldl c (order.insertionSort (· ≤ ·))
  have hnil : order.insertionSort (· ≤ ·) ≠ [] := by
    obtain ⟨g, hg⟩ := hne
    exact List.ne_nil_of_mem ((mem_insertionSort h).mpr hg)
  obtain ⟨hmg, hmn⟩ := hex.mg.resolve_left (fun hn => hnil hn.1)
  obtain ⟨hlg, hln⟩ := hex.lg.resolve_left (fun hn => hnil hn.1)
  refine ⟨(mem_insertionSort h).mp hmg, hmn, ?_, (mem_insertionSort h).mp hlg, hln, ?_⟩
  · intro g hg
    have hle := hex.most g ((mem_insertionSort h).mpr hg)
    rw [hmn] at hle
    exact Int.ofNat_le.mp hle
  · intro g hg
    have hle := hex.least g ((mem_insertionSort h).mpr hg)
    rw [hln] at hle
    exact Int.ofNat_le.mp hle

/-- The order in which the map is visited does not matter. -/
theorem analyze_congr {order order' : List Tgid} (h : Ranges c.groups order)
    (h' : Ranges c.groups order') : c.analyze order = c.analyze order' := by
  have hp : order.Perm order' :=
    List.perm_of_nodup_nodup_toFinset_eq h.1 h'.1 (h.2.trans h'.2.symm)
  have hsort : order.insertionSort (· ≤ ·) = order'.insertionSort (· ≤ ·) := by
    refine List.Perm.eq_of_pairwise (fun a b _ _ => le_antisymm)
      (List.pairwise_insertionSort _ _) (List.pairwise_insertionSort _ _) ?_
    exact ((List.perm_insertionSort _ _).trans hp).trans (List.perm_insertionSort _ _).symm
  unfold ShardConfig.analyze
  rw [hsort]

end analyze

/-! ### What `Rebalance` keeps -/

/-- Only the assignment of the shards differs. -/
structure SameGroups (c c' : ShardConfig) : Prop where
  num : c'.num = c.num
  groups : c'.groups = c.groups

theorem SameGroups.refl (c : ShardConfig) : SameGroups c c := ⟨rfl, rfl⟩

theorem SameGroups.assign {c c' : ShardConfig} (h : SameGroups c c') (s : Tshid) (g : Tgid) :
    SameGroups c (c'.assign s g) :=
  ⟨h.num, h.groups⟩

theorem SameGroups.moveOne {c c' : ShardConfig} (h : SameGroups c c') (mg lg : Tgid) :
    SameGroups c (c'.moveOne mg lg) := by
  unfold ShardConfig.moveOne
  split
  · exact h.assign _ _
  · exact h

theorem sameGroups_assignUnassigned (c : ShardConfig) (orders : ℕ → List Tgid) :
    SameGroups c (c.assignUnassigned orders) := by
  unfold ShardConfig.assignUnassigned
  refine List.foldlRecOn _ _ (SameGroups.refl c) ?_
  intro c' h s _
  split_ifs
  · exact h
  · exact h.assign _ _

theorem SameGroups.moveLoop {orders : ℕ → List Tgid} {c : ShardConfig} :
    ∀ {fuel round : ℕ} {c₁ c' : ShardConfig}, SameGroups c c₁ →
      ShardConfig.moveLoop orders fuel round c₁ = some c' → SameGroups c c'
  | 0, _, _, _, _, h => by cases h
  | fuel + 1, round, c₁, c', hc, h => by
      simp only [ShardConfig.moveLoop] at h
      split_ifs at h
      · cases h
        exact hc
      · exact SameGroups.moveLoop (hc.moveOne _ _) h

theorem sameGroups_rebalance {c c' : ShardConfig} {orders : ℕ → List Tgid} {fuel : ℕ}
    (h : c.rebalance orders fuel = some c') : SameGroups c c' := by
  unfold ShardConfig.rebalance at h
  split_ifs at h
  · cases h
    exact ⟨rfl, rfl⟩
  · exact (sameGroups_assignUnassigned c orders).moveLoop h

/-! ### Placing the unassigned shards -/

section rebalance

variable {c : ShardConfig} {orders : ℕ → List Tgid}

/-- The shards of the groups that are gone, as the first loop of `Rebalance` comes to them. -/
structure Assigning (c : ShardConfig) (done : List Tshid) (c' : ShardConfig) : Prop where
  same : SameGroups c c'
  filling : Filling c.groups.keys c.shards c'.shards
  placed : ∀ s ∈ done, c'.shards s ∈ c.groups.keys
  todo : ∀ s ∉ done, c'.shards s = c.shards s

theorem assigning_refl (c : ShardConfig) : Assigning c [] c :=
  ⟨.refl c, .refl _ _, by simp, fun _ _ => rfl⟩

theorem Assigning.step (horders : ∀ n, Ranges c.groups (orders n))
    (hne : c.groups.keys.Nonempty) {done : List Tshid} {c' : ShardConfig}
    (h : Assigning c done c') {s : Tshid} (hs : s ∉ done) :
    Assigning c (done ++ [s]) (if c.shards s ∈ c.groups then c'
      else c'.assign s (c'.least (orders s))) := by
  have hold := h.todo s hs
  split_ifs with hg
  · refine ⟨h.same, h.filling, ?_, ?_⟩
    · intro x hx
      rcases List.mem_append.mp hx with hx | hx
      · exact h.placed x hx
      · rw [List.mem_singleton.mp hx, hold]
        exact Finmap.mem_keys.mpr hg
    · intro x hx
      exact h.todo x (fun hd => hx (List.mem_append_left _ hd))
  · have ha : Analyzed c' (c'.analyze (orders s)) :=
      analyzed (h.same.groups ▸ horders s) (h.same.groups ▸ hne)
    have hlg : c'.least (orders s) ∈ c.groups.keys := h.same.groups ▸ ha.lg
    refine ⟨h.same.assign _ _, ?_, ?_, ?_⟩
    · refine h.filling.place ?_ hlg ?_
      · rw [hold, Finmap.mem_keys]
        exact hg
      · exact h.same.groups ▸ ha.least
    · intro x hx
      by_cases hxs : x = s
      · subst hxs
        simpa using hlg
      · rw [ShardConfig.assign_shards, Function.update_of_ne hxs]
        rcases List.mem_append.mp hx with hx | hx
        · exact h.placed x hx
        · exact absurd (List.mem_singleton.mp hx) hxs
    · intro x hx
      have hxs : x ≠ s := by
        rintro rfl
        exact hx (List.mem_append_right _ (List.mem_singleton_self x))
      rw [ShardConfig.assign_shards, Function.update_of_ne hxs]
      exact h.todo x (fun hd => hx (List.mem_append_left _ hd))

theorem assigning_foldl (horders : ∀ n, Ranges c.groups (orders n))
    (hne : c.groups.keys.Nonempty) (l : List Tshid) (hl : l.Nodup) :
    Assigning c l (l.foldl (fun c' s => if c.shards s ∈ c.groups then c'
      else c'.assign s (c'.least (orders s))) c) := by
  induction l using List.reverseRecOn with
  | nil => exact assigning_refl c
  | append_singleton l s ih =>
      rw [List.nodup_append] at hl
      obtain ⟨hl, -, hd⟩ := hl
      rw [List.foldl_append]
      refine (ih hl).step horders hne ?_
      intro hs
      exact hd s hs s (List.mem_singleton_self s) rfl

/-! ### Moving shards to the least loaded group -/

/-- What every round of the second loop keeps. -/
structure Moving (c c' : ShardConfig) : Prop where
  same : SameGroups c c'
  placed : Placed c.groups.keys c'.shards
  frugal : Frugal c.groups.keys c.shards c'.shards

theorem moving_assignUnassigned (horders : ∀ n, Ranges c.groups (orders n))
    (hne : c.groups.keys.Nonempty) : Moving c (c.assignUnassigned orders) := by
  have h := assigning_foldl horders hne (List.finRange NShards) (List.nodup_finRange NShards)
  exact ⟨h.same, fun s => h.placed s (List.mem_finRange s), h.filling.frugal⟩

/-- A group with shards gives one of them. -/
theorem moveOne_eq {c : ShardConfig} {mg : Tgid} (lg : Tgid) (h : 0 < load c.shards mg) :
    ∃ s, c.shards s = mg ∧ c.moveOne mg lg = c.assign s lg := by
  obtain ⟨s, hs⟩ := exists_of_load_pos h
  unfold ShardConfig.moveOne
  cases hf : (List.finRange NShards).find? (fun s => c.shards s = mg) with
  | none =>
      have := List.find?_eq_none.mp hf s (List.mem_finRange s)
      simp [hs] at this
  | some t =>
      have ht := List.find?_some hf
      exact ⟨t, of_decide_eq_true ht, rfl⟩

/-- One round: the loop ends with a balanced assignment, or moves a shard that has not been moved
before. -/
theorem Moving.round {c' : ShardConfig} (h : Moving c c') {order : List Tgid}
    (horder : Ranges c.groups order) (hne : c.groups.keys.Nonempty) :
    if (c'.analyze order).mn < (c'.analyze order).ln + 2 then Balanced c.groups.keys c'.shards
    else Moving c (c'.moveOne (c'.analyze order).mg (c'.analyze order).lg) ∧
      moved c.groups.keys c.shards
        (c'.moveOne (c'.analyze order).mg (c'.analyze order).lg).shards =
      moved c.groups.keys c.shards c'.shards + 1 := by
  have ha : Analyzed c' (c'.analyze order) :=
    analyzed (h.same.groups ▸ horder) (h.same.groups ▸ hne)
  have hmg := ha.mg
  have hlg := ha.lg
  have hmost := ha.most
  have hleast := ha.least
  rw [h.same.groups] at hmg hlg hmost hleast
  generalize c'.analyze order = a at ha hmg hlg hmost hleast ⊢
  split_ifs with hgap
  · intro g hg x hx
    have h1 := hmost g hg
    have h2 := hleast x hx
    have h3 := ha.mn
    have h4 := ha.ln
    omega
  · have hgap : load c'.shards a.lg + 2 ≤ load c'.shards a.mg := by
      have h3 := ha.mn
      have h4 := ha.ln
      omega
    obtain ⟨s, hs, hmove⟩ := moveOne_eq a.lg (show 0 < load c'.shards a.mg by omega)
    rw [hmove]
    rw [← hs] at hmg hmost hgap
    refine ⟨⟨h.same.assign s a.lg, ?_, h.frugal.shift hmg hlg hmost hleast hgap⟩,
      h.frugal.moved_shift hmg hlg hgap⟩
    intro x
    by_cases hx : x = s
    · subst hx
      simpa using hlg
    · rw [ShardConfig.assign_shards, Function.update_of_ne hx]
      exact h.placed x

theorem Moving.moveLoop (horders : ∀ n, Ranges c.groups (orders n))
    (hne : c.groups.keys.Nonempty) : ∀ {fuel round : ℕ} {c₁ : ShardConfig}, Moving c c₁ →
      NShards < fuel + moved c.groups.keys c.shards c₁.shards →
      ∃ c', ShardConfig.moveLoop orders fuel round c₁ = some c' ∧ Moving c c' ∧
        Balanced c.groups.keys c'.shards
  | 0, round, c₁, _, hfuel => by
      have hle : moved c.groups.keys c.shards c₁.shards ≤ Fintype.card Tshid :=
        Finset.card_le_univ _
      rw [Fintype.card_fin] at hle
      omega
  | fuel + 1, round, c₁, h, hfuel => by
      have hround := h.round (horders round) hne
      simp only [ShardConfig.moveLoop]
      split_ifs at hround ⊢ with hgap
      · exact ⟨c₁, rfl, h, hround⟩
      · exact Moving.moveLoop horders hne hround.1 (by omega)

/-! ### The result does not depend on the orders -/

theorem assignUnassigned_congr {orders' : ℕ → List Tgid}
    (horders : ∀ n, Ranges c.groups (orders n)) (horders' : ∀ n, Ranges c.groups (orders' n)) :
    c.assignUnassigned orders = c.assignUnassigned orders' := by
  have h : ∀ l : List Tshid, ∀ c' : ShardConfig, SameGroups c c' →
      l.foldl (fun c' s => if c.shards s ∈ c.groups then c'
        else c'.assign s (c'.least (orders s))) c' =
      l.foldl (fun c' s => if c.shards s ∈ c.groups then c'
        else c'.assign s (c'.least (orders' s))) c' := by
    intro l
    induction l with
    | nil => exact fun c' _ => rfl
    | cons s l ih =>
        intro c' hsame
        have hl : c'.least (orders s) = c'.least (orders' s) :=
          congrArg Analysis.lg (analyze_congr (hsame.groups ▸ horders s)
            (hsame.groups ▸ horders' s))
        rw [List.foldl_cons, List.foldl_cons, hl]
        split_ifs
        · exact ih c' hsame
        · exact ih _ (hsame.assign _ _)
  exact h _ c (.refl c)

theorem moveLoop_congr {orders' : ℕ → List Tgid} (horders : ∀ n, Ranges c.groups (orders n))
    (horders' : ∀ n, Ranges c.groups (orders' n)) : ∀ (fuel round : ℕ) {c₁ : ShardConfig},
      SameGroups c c₁ → ShardConfig.moveLoop orders fuel round c₁ =
        ShardConfig.moveLoop orders' fuel round c₁
  | 0, _, _, _ => rfl
  | fuel + 1, round, c₁, h => by
      have ha : c₁.analyze (orders round) = c₁.analyze (orders' round) :=
        analyze_congr (h.groups ▸ horders round) (h.groups ▸ horders' round)
      simp only [ShardConfig.moveLoop]
      rw [ha, moveLoop_congr horders horders' fuel (round + 1) (h.moveOne _ _)]

/-- More fuel does not change the result. -/
theorem moveLoop_mono {c' : ShardConfig} : ∀ {fuel fuel' round : ℕ} {c₁ : ShardConfig},
    fuel ≤ fuel' → ShardConfig.moveLoop orders fuel round c₁ = some c' →
      ShardConfig.moveLoop orders fuel' round c₁ = some c'
  | 0, _, _, _, _, h => by cases h
  | fuel + 1, 0, _, _, hle, _ => by omega
  | fuel + 1, fuel' + 1, round, c₁, hle, h => by
      simp only [ShardConfig.moveLoop] at h ⊢
      split_ifs at h ⊢
      · exact h
      · exact moveLoop_mono (by omega) h

theorem rebalance_congr {orders' : ℕ → List Tgid} (horders : ∀ n, Ranges c.groups (orders n))
    (horders' : ∀ n, Ranges c.groups (orders' n)) (fuel : ℕ) :
    c.rebalance orders fuel = c.rebalance orders' fuel := by
  unfold ShardConfig.rebalance
  rw [assignUnassigned_congr horders horders',
    moveLoop_congr horders horders' fuel NShards (sameGroups_assignUnassigned c orders')]

theorem rebalance_mono {c' : ShardConfig} {fuel fuel' : ℕ} (hle : fuel ≤ fuel')
    (h : c.rebalance orders fuel = some c') : c.rebalance orders fuel' = some c' := by
  unfold ShardConfig.rebalance at h ⊢
  split_ifs at h ⊢
  · exact h
  · exact moveLoop_mono hle h

end rebalance

/-! ### The result of `Rebalance` -/

/-- The configuration `c'` is what `Rebalance` makes of `c`, in whatever order it visits the
groups. -/
def RebalancesTo (c c' : ShardConfig) : Prop :=
  ∀ orders fuel, (∀ n, Ranges c.groups (orders n)) → NShards < fuel →
    c.rebalance orders fuel = some c'

theorem ranges_toList (groups : Groups) : Ranges groups groups.keys.toList :=
  ⟨Finset.nodup_toList _, Finset.toList_toFinset _⟩

theorem rebalancesTo_of_eq {c c' : ShardConfig} {orders : ℕ → List Tgid}
    (horders : ∀ n, Ranges c.groups (orders n))
    (h : c.rebalance orders (NShards + 1) = some c') : RebalancesTo c c' := by
  intro orders' fuel horders' hfuel
  rw [rebalance_congr horders' horders fuel]
  exact rebalance_mono hfuel h

theorem rebalance_of_empty {c : ShardConfig} (h : c.groups.keys = ∅) (orders : ℕ → List Tgid)
    (fuel : ℕ) : c.rebalance orders fuel = some { c with shards := fun _ => 0 } := by
  unfold ShardConfig.rebalance
  rw [if_pos]
  rw [h]
  simp

theorem rebalance_of_nonempty {c : ShardConfig} (hne : c.groups.keys.Nonempty)
    {orders : ℕ → List Tgid} (horders : ∀ n, Ranges c.groups (orders n)) :
    ∃ c', c.rebalance orders (NShards + 1) = some c' ∧ Moving c c' ∧
      Balanced c.groups.keys c'.shards := by
  have hcard : ¬ c.groups.keys.card < 1 := by
    have := hne.card_pos
    omega
  unfold ShardConfig.rebalance
  rw [if_neg hcard]
  exact (moving_assignUnassigned horders hne).moveLoop horders hne (by omega)

/-- `Rebalance` ends, and gives a balanced assignment. -/
theorem rebalance_balances (c : ShardConfig) : ∃ c', RebalancesTo c c' ∧
    c'.num = c.num ∧ c'.groups = c.groups ∧
    (c.groups.keys = ∅ → ∀ s, c'.shards s = 0) ∧
    (c.groups.keys ≠ ∅ → (∀ s, c'.shards s ∈ c.groups) ∧
      ∀ g ∈ c.groups, ∀ h ∈ c.groups, c'.counts g ≤ c'.counts h + 1) := by
  have horders : ∀ _ : ℕ, Ranges c.groups c.groups.keys.toList :=
    fun _ => ranges_toList c.groups
  rcases c.groups.keys.eq_empty_or_nonempty with he | hne
  · refine ⟨{ c with shards := fun _ => 0 },
      rebalancesTo_of_eq horders (rebalance_of_empty he _ _), rfl, rfl, fun _ _ => rfl, ?_⟩
    intro hn
    exact absurd he hn
  · obtain ⟨c', hc', hmoving, hbal⟩ := rebalance_of_nonempty hne horders
    refine ⟨c', rebalancesTo_of_eq horders hc', hmoving.same.num, hmoving.same.groups, ?_, ?_⟩
    · intro he
      exact absurd he hne.ne_empty
    · intro _
      refine ⟨fun s => Finmap.mem_keys.mp (hmoving.placed s), ?_⟩
      intro g hg h hh
      exact hbal g (Finmap.mem_keys.mpr hg) h (Finmap.mem_keys.mpr hh)

/-- No balanced assignment moves fewer shards away from the groups that are left. -/
theorem rebalance_moves_fewest (c : ShardConfig) (hne : c.groups.keys ≠ ∅) :
    ∃ c', RebalancesTo c c' ∧ ∀ shards : Tshid → Tgid, Placed c.groups.keys shards →
      Balanced c.groups.keys shards →
        moved c.groups.keys c.shards c'.shards ≤ moved c.groups.keys c.shards shards := by
  have horders : ∀ _ : ℕ, Ranges c.groups c.groups.keys.toList :=
    fun _ => ranges_toList c.groups
  obtain ⟨c', hc', hmoving, -⟩ :=
    rebalance_of_nonempty (Finset.nonempty_iff_ne_empty.mpr hne) horders
  refine ⟨c', rebalancesTo_of_eq horders hc', ?_⟩
  intro shards hplaced hbal
  exact hmoving.frugal.moved_le hmoving.placed hplaced hbal

/-- A second group has joined, and all shards are still on the first. -/
def joinedConfig : ShardConfig :=
  ⟨2, fun _ => 1, Finmap.insert 2 ["b"] (Finmap.insert 1 ["a"] ∅)⟩

theorem rebalance_moves_fewest_joined : joinedConfig.groups.keys ≠ ∅ ∧
    ∃ c', RebalancesTo joinedConfig c' ∧ ∀ shards : Tshid → Tgid,
      Placed joinedConfig.groups.keys shards → Balanced joinedConfig.groups.keys shards →
        moved joinedConfig.groups.keys joinedConfig.shards c'.shards ≤
          moved joinedConfig.groups.keys joinedConfig.shards shards :=
  ⟨by decide, rebalance_moves_fewest joinedConfig (by decide)⟩

example : (joinedConfig.rebalance (fun _ => [2, 1]) 13).map (fun c => (c.counts 1, c.counts 2)) =
    some (6, 6) := by decide

end DistributedSystems.ShardCfg
