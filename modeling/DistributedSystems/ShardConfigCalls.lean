import DistributedSystems.TransitionSystem
import DistributedSystems.ShardConfig

/-! # Changes of a shard configuration

`Join`, `Leave`, `JoinBalance` and `LeaveBalance` of `shardkv1/shardcfg/shardcfg.go`, and the
configurations that sequences of such calls reach from `MakeShardConfig` (`sessions`).  The map of
the groups that join is an association list, in the order in which the `range` over it goes;
`log.Fatalf` ends the program (`Outcome.fatal`).

`Join` and `Leave` change the groups one by one and return false at the first that they refuse,
with what they have changed so far.  A call that returns false leaves the configuration as it was
exactly when no group is refused after another was accepted (`Call.Clean`,
`failed_change_unchanged`).  Whatever the calls return, a server name stays in one group and `Num`
counts the calls that returned true (`servers_in_one_group`). -/

namespace DistributedSystems.ShardCfg

/-- Why `log.Fatalf` has ended the program. -/
inductive Fatal where
  | sharedServer (gid : Tgid)
  | joinNoChange
  | leaveNoChange
deriving DecidableEq, Repr

/-- What a call has come to: the configuration and the result it returns, or the end of the
program. -/
inductive Outcome where
  | returned (cfg : ShardConfig) (ok : Bool)
  | fatal (reason : Fatal)

/-- One of the servers is in a group already. -/
def Shares (groups : Groups) (servers : List String) : Prop :=
  ∃ xgid ∈ groups.keys, ∃ s1 ∈ (groups.lookup xgid).getD [], s1 ∈ servers

instance (groups : Groups) (servers : List String) : Decidable (Shares groups servers) :=
  inferInstanceAs (Decidable (∃ xgid ∈ groups.keys, _))

namespace ShardConfig

/-! ### The functions -/

/-- The loop of `Join` and what follows it. -/
def joinLoop : ShardConfig → Bool → List (Σ _ : Tgid, List String) → Outcome
  | cfg, changed, [] =>
      if changed = false then .fatal .joinNoChange
      else .returned { cfg with num := cfg.num + 1 } true
  | cfg, _, ⟨gid, servers⟩ :: rest =>
      if gid ∈ cfg.groups then .returned cfg false
      else if Shares cfg.groups servers then .fatal (.sharedServer gid)
      else joinLoop { cfg with groups := cfg.groups.insert gid servers } true rest

def join (cfg : ShardConfig) (servers : AList (fun _ : Tgid => List String)) : Outcome :=
  cfg.joinLoop false servers.entries

/-- The loop of `Leave` and what follows it. -/
def leaveLoop : ShardConfig → Bool → List Tgid → Outcome
  | cfg, changed, [] =>
      if changed = false then .fatal .leaveNoChange
      else .returned { cfg with num := cfg.num + 1 } true
  | cfg, _, gid :: rest =>
      if gid ∈ cfg.groups then leaveLoop { cfg with groups := cfg.groups.erase gid } true rest
      else .returned cfg false

def leave (cfg : ShardConfig) (gids : List Tgid) : Outcome := cfg.leaveLoop false gids

/-- The call of `Rebalance` after a change that has returned true. -/
def balanced (orders : ℕ → List Tgid) (fuel : ℕ) : Outcome → Option Outcome
  | .returned cfg true => (cfg.rebalance orders fuel).map (.returned · true)
  | .returned cfg false => some (.returned cfg false)
  | .fatal reason => some (.fatal reason)

def joinBalance (cfg : ShardConfig) (servers : AList (fun _ : Tgid => List String))
    (orders : ℕ → List Tgid) (fuel : ℕ) : Option Outcome :=
  balanced orders fuel (cfg.join servers)

def leaveBalance (cfg : ShardConfig) (gids : List Tgid) (orders : ℕ → List Tgid) (fuel : ℕ) :
    Option Outcome :=
  balanced orders fuel (cfg.leave gids)

end ShardConfig

/-! ### Sequences of calls -/

/-- A call, with the orders in which its `Rebalance` visits the groups. -/
inductive Call where
  | join (servers : AList (fun _ : Tgid => List String))
  | leave (gids : List Tgid)
  | joinBalance (servers : AList (fun _ : Tgid => List String)) (orders : ℕ → List Tgid)
  | leaveBalance (gids : List Tgid) (orders : ℕ → List Tgid)

/-- The outcome of a call.  The fuel is enough for every `Rebalance`. -/
def ShardConfig.call (cfg : ShardConfig) : Call → Option Outcome
  | .join servers => some (cfg.join servers)
  | .leave gids => some (cfg.leave gids)
  | .joinBalance servers orders => cfg.joinBalance servers orders (NShards + 1)
  | .leaveBalance gids orders => cfg.leaveBalance gids orders (NShards + 1)

/-- A configuration and what the calls that have led to it returned. -/
@[ext] structure Session where
  cfg : ShardConfig
  returns : List Bool

instance : DecidableEq Session := fun _ _ => decidable_of_iff _ Session.ext_iff.symm

def Session.step (s : Session) (call : Call) : Option Session :=
  match s.cfg.call call with
  | some (.returned cfg ok) => some ⟨cfg, s.returns ++ [ok]⟩
  | some (.fatal _) => none
  | none => none

/-- The sequences of calls on a new configuration. -/
def sessions : Lts Session Call := ⟨⟨makeShardConfig, []⟩, Session.step⟩

theorem Session.step_cases {s s' : Session} {call : Call} (h : s.step call = some s') :
    ∃ cfg ok, s.cfg.call call = some (.returned cfg ok) ∧ s' = ⟨cfg, s.returns ++ [ok]⟩ := by
  unfold Session.step at h
  split at h
  · rename_i cfg ok hcall
    cases h
    exact ⟨cfg, ok, hcall, rfl⟩
  · cases h
  · cases h

/-! ### What a change does -/

/-- What the loop of `Join` and the loop of `Leave` leave of a configuration. -/
structure Changed (cfg cfg' : ShardConfig) (ok : Bool) : Prop where
  shards : cfg'.shards = cfg.shards
  num : cfg'.num = cfg.num + if ok then 1 else 0

section loops

variable {cfg cfg' : ShardConfig} {changed ok : Bool}

theorem joinLoop_changed : ∀ {l : List (Σ _ : Tgid, List String)} {cfg : ShardConfig}
    {changed : Bool}, cfg.joinLoop changed l = .returned cfg' ok → Changed cfg cfg' ok
  | [], cfg, changed, h => by
      simp only [ShardConfig.joinLoop] at h
      split_ifs at h
      cases h
      exact ⟨rfl, rfl⟩
  | ⟨gid, servers⟩ :: rest, cfg, changed, h => by
      simp only [ShardConfig.joinLoop] at h
      split_ifs at h
      · cases h
        exact ⟨rfl, by simp⟩
      · have ih := joinLoop_changed h
        exact ⟨ih.shards, ih.num⟩

theorem leaveLoop_changed : ∀ {l : List Tgid} {cfg : ShardConfig} {changed : Bool},
    cfg.leaveLoop changed l = .returned cfg' ok → Changed cfg cfg' ok
  | [], cfg, changed, h => by
      simp only [ShardConfig.leaveLoop] at h
      split_ifs at h
      cases h
      exact ⟨rfl, rfl⟩
  | gid :: rest, cfg, changed, h => by
      simp only [ShardConfig.leaveLoop] at h
      split_ifs at h
      · have ih := leaveLoop_changed h
        exact ⟨ih.shards, ih.num⟩
      · cases h
        exact ⟨rfl, by simp⟩

/-- What joining a new group and removing a group keep of the groups, the loops keep. -/
theorem joinLoop_invariant {P : Groups → Prop}
    (hP : ∀ groups gid servers, P groups → gid ∉ groups → ¬ Shares groups servers →
      P (groups.insert gid servers)) : ∀ {l : List (Σ _ : Tgid, List String)}
    {cfg : ShardConfig} {changed : Bool}, P cfg.groups →
      cfg.joinLoop changed l = .returned cfg' ok → P cfg'.groups
  | [], cfg, changed, hcfg, h => by
      simp only [ShardConfig.joinLoop] at h
      split_ifs at h
      cases h
      exact hcfg
  | ⟨gid, servers⟩ :: rest, cfg, changed, hcfg, h => by
      simp only [ShardConfig.joinLoop] at h
      split_ifs at h with hgid hshares
      · cases h
        exact hcfg
      · exact joinLoop_invariant hP (hP _ _ _ hcfg hgid hshares) h

theorem leaveLoop_invariant {P : Groups → Prop}
    (hP : ∀ groups gid, P groups → P (groups.erase gid)) : ∀ {l : List Tgid}
    {cfg : ShardConfig} {changed : Bool}, P cfg.groups →
      cfg.leaveLoop changed l = .returned cfg' ok → P cfg'.groups
  | [], cfg, changed, hcfg, h => by
      simp only [ShardConfig.leaveLoop] at h
      split_ifs at h
      cases h
      exact hcfg
  | gid :: rest, cfg, changed, hcfg, h => by
      simp only [ShardConfig.leaveLoop] at h
      split_ifs at h
      · exact leaveLoop_invariant hP (hP _ _ hcfg) h
      · cases h
        exact hcfg

/-! ### When a change is refused -/

/-- `Join` returns true when all groups are new, and only then. -/
theorem joinLoop_ok_iff : ∀ {l : List (Σ _ : Tgid, List String)} {cfg : ShardConfig}
    {changed : Bool}, l.NodupKeys → cfg.joinLoop changed l = .returned cfg' ok →
      (ok = true ↔ ∀ gid ∈ l.keys, gid ∉ cfg.groups)
  | [], cfg, changed, _, h => by
      simp only [ShardConfig.joinLoop] at h
      split_ifs at h
      cases h
      simp
  | ⟨gid, servers⟩ :: rest, cfg, changed, hl, h => by
      simp only [ShardConfig.joinLoop] at h
      rw [List.nodupKeys_cons] at hl
      split_ifs at h with hgid
      · cases h
        simp [hgid]
      · rw [joinLoop_ok_iff hl.2 h, List.keys_cons, List.forall_mem_cons]
        constructor
        · intro hrest
          refine ⟨hgid, ?_⟩
          intro x hx hmem
          exact hrest x hx (Finmap.mem_insert.mpr (Or.inr hmem))
        · rintro ⟨-, hrest⟩ x hx hmem
          rcases Finmap.mem_insert.mp hmem with rfl | hmem
          · exact hl.1 hx
          · exact hrest x hx hmem

/-- `Leave` returns true when all gids are there and none is repeated, and only then. -/
theorem leaveLoop_ok_iff : ∀ {l : List Tgid} {cfg : ShardConfig} {changed : Bool},
    cfg.leaveLoop changed l = .returned cfg' ok →
      (ok = true ↔ l.Nodup ∧ ∀ gid ∈ l, gid ∈ cfg.groups)
  | [], cfg, changed, h => by
      simp only [ShardConfig.leaveLoop] at h
      split_ifs at h
      cases h
      simp
  | gid :: rest, cfg, changed, h => by
      simp only [ShardConfig.leaveLoop] at h
      split_ifs at h with hgid
      · rw [leaveLoop_ok_iff h, List.nodup_cons, List.forall_mem_cons]
        constructor
        · rintro ⟨hnodup, hrest⟩
          refine ⟨⟨?_, hnodup⟩, hgid, ?_⟩
          · intro hmem
            exact Finmap.notMem_erase_self (hrest gid hmem)
          · intro x hx
            exact (Finmap.mem_erase.mp (hrest x hx)).2
        · rintro ⟨⟨hnot, hnodup⟩, -, hrest⟩
          refine ⟨hnodup, ?_⟩
          intro x hx
          refine Finmap.mem_erase.mpr ⟨?_, hrest x hx⟩
          rintro rfl
          exact hnot hx
      · cases h
        simp [hgid]

end loops

/-! ### Calls that refuse nothing after a change -/

/-- No group is refused after another was accepted: the first group that the call comes to is
refused, or none is. -/
def Call.Clean (cfg : ShardConfig) : Call → Prop
  | .join servers | .joinBalance servers _ =>
      (∃ gid ∈ servers.keys.head?, gid ∈ cfg.groups) ∨ ∀ gid ∈ servers.keys, gid ∉ cfg.groups
  | .leave gids | .leaveBalance gids _ =>
      (∃ gid ∈ gids.head?, gid ∉ cfg.groups) ∨ (gids.Nodup ∧ ∀ gid ∈ gids, gid ∈ cfg.groups)

/-- A call that has changed something is right only to return true. -/
theorem unchanged_iff_of_ne {cfg cfg' : ShardConfig} {ok : Bool} (hne : cfg' ≠ cfg) :
    (ok = false → cfg' = cfg) ↔ ok = true := by
  cases ok with
  | false => simp [hne]
  | true => simp

theorem join_unchanged_iff {cfg cfg' : ShardConfig}
    {servers : AList (fun _ : Tgid => List String)} {ok : Bool}
    (h : cfg.join servers = .returned cfg' ok) :
    (ok = false → cfg' = cfg) ↔ (Call.join servers).Clean cfg := by
  obtain ⟨l, hl⟩ := servers
  have hok := joinLoop_ok_iff hl h
  unfold ShardConfig.join at h
  cases l with
  | nil =>
      simp [ShardConfig.joinLoop] at h
  | cons p rest =>
      obtain ⟨gid, servers⟩ := p
      by_cases hgid : gid ∈ cfg.groups
      · simp only [ShardConfig.joinLoop, if_pos hgid, Outcome.returned.injEq] at h
        exact iff_of_true (fun _ => h.1.symm) (Or.inl ⟨gid, by simp [AList.keys], hgid⟩)
      · -- the first group stays, so a later refusal shows
        have hstays : gid ∈ cfg'.groups := by
          simp only [ShardConfig.joinLoop, if_neg hgid] at h
          split_ifs at h
          refine joinLoop_invariant (P := fun groups => gid ∈ groups) ?_ ?_ h
          · intro groups x servers hmem _ _
            exact Finmap.mem_insert.mpr (Or.inr hmem)
          · exact Finmap.mem_insert.mpr (Or.inl rfl)
        have hclean : (Call.join ⟨⟨gid, servers⟩ :: rest, hl⟩).Clean cfg ↔ ok = true := by
          rw [hok]
          exact ⟨fun hc => hc.resolve_left (by simp [AList.keys, hgid]), Or.inr⟩
        rw [hclean]
        refine unchanged_iff_of_ne ?_
        rintro rfl
        exact hgid hstays

theorem leave_unchanged_iff {cfg cfg' : ShardConfig} {gids : List Tgid} {ok : Bool}
    (h : cfg.leave gids = .returned cfg' ok) :
    (ok = false → cfg' = cfg) ↔ (Call.leave gids).Clean cfg := by
  have hok := leaveLoop_ok_iff h
  unfold ShardConfig.leave at h
  cases gids with
  | nil => simp [ShardConfig.leaveLoop] at h
  | cons gid rest =>
      by_cases hgid : gid ∈ cfg.groups
      · -- the first group is gone, so a later refusal shows
        have hgone : gid ∉ cfg'.groups := by
          simp only [ShardConfig.leaveLoop, if_pos hgid] at h
          refine leaveLoop_invariant (P := fun groups => gid ∉ groups) ?_ ?_ h
          · intro groups x hnot hmem
            exact hnot (Finmap.mem_erase.mp hmem).2
          · exact Finmap.notMem_erase_self
        have hclean : (Call.leave (gid :: rest)).Clean cfg ↔ ok = true := by
          rw [hok]
          exact ⟨fun hc => hc.resolve_left (by simp [hgid]), Or.inr⟩
        rw [hclean]
        refine unchanged_iff_of_ne ?_
        rintro rfl
        exact hgone hgid
      · simp only [ShardConfig.leaveLoop, if_neg hgid, Outcome.returned.injEq] at h
        exact iff_of_true (fun _ => h.1.symm) (Or.inl ⟨gid, by simp, hgid⟩)

/-- What `JoinBalance` and `LeaveBalance` do after the change. -/
theorem balanced_cases {orders : ℕ → List Tgid} {fuel : ℕ} {o : Outcome} {cfg' : ShardConfig}
    {ok : Bool} (h : ShardConfig.balanced orders fuel o = some (.returned cfg' ok)) :
    (o = .returned cfg' false ∧ ok = false) ∨
    ∃ cfg, o = .returned cfg true ∧ cfg.rebalance orders fuel = some cfg' ∧ ok = true := by
  unfold ShardConfig.balanced at h
  split at h
  · rename_i cfg
    obtain ⟨c, hc, he⟩ := Option.map_eq_some_iff.mp h
    cases he
    exact Or.inr ⟨cfg, rfl, hc, rfl⟩
  · cases h
    exact Or.inl ⟨rfl, rfl⟩
  · cases h

/-- A balancing call returns false with what its change has left. -/
theorem unchanged_iff_of_balanced {orders : ℕ → List Tgid} {fuel : ℕ} {o : Outcome}
    {cfg cfg' : ShardConfig} {ok : Bool} {P : Prop}
    (ho : ∀ c ok, o = .returned c ok → ((ok = false → c = cfg) ↔ P))
    (h : ShardConfig.balanced orders fuel o = some (.returned cfg' ok)) :
    (ok = false → cfg' = cfg) ↔ P := by
  obtain ⟨rfl, rfl⟩ | ⟨c, rfl, -, rfl⟩ := balanced_cases h
  · exact ho cfg' false rfl
  · have := ho c true rfl
    simpa using this

theorem call_unchanged_iff {cfg cfg' : ShardConfig} {call : Call} {ok : Bool}
    (h : cfg.call call = some (.returned cfg' ok)) :
    (ok = false → cfg' = cfg) ↔ call.Clean cfg := by
  cases call with
  | join servers => exact join_unchanged_iff (Option.some.inj h)
  | leave gids => exact leave_unchanged_iff (Option.some.inj h)
  | joinBalance servers orders =>
      exact unchanged_iff_of_balanced (fun _ _ => join_unchanged_iff) h
  | leaveBalance gids orders =>
      exact unchanged_iff_of_balanced (fun _ _ => leave_unchanged_iff) h

/-! ### Balanced configurations -/

/-- The call ends with `Rebalance`. -/
def Call.Balances : Call → Prop
  | .join _ | .leave _ => False
  | .joinBalance _ _ | .leaveBalance _ _ => True

/-- The orders are orders in which the `Rebalance` of the call can visit its groups. -/
def Call.OrdersOk (cfg : ShardConfig) : Call → Prop
  | .join _ | .leave _ => True
  | .joinBalance servers orders =>
      ∀ cfg', cfg.join servers = .returned cfg' true → ∀ n, Ranges cfg'.groups (orders n)
  | .leaveBalance gids orders =>
      ∀ cfg', cfg.leave gids = .returned cfg' true → ∀ n, Ranges cfg'.groups (orders n)

/-- Every shard is on a group, and the groups have equally many up to one. -/
def Even (cfg : ShardConfig) : Prop :=
  cfg.groups.keys ≠ ∅ → (∀ s, cfg.shards s ∈ cfg.groups) ∧
    ∀ g ∈ cfg.groups, ∀ h ∈ cfg.groups, cfg.counts g ≤ cfg.counts h + 1

theorem even_of_rebalance {c c' : ShardConfig} {orders : ℕ → List Tgid}
    (horders : ∀ n, Ranges c.groups (orders n))
    (h : c.rebalance orders (NShards + 1) = some c') : Even c' := by
  intro hne
  have hgroups := (sameGroups_rebalance h).groups
  rw [hgroups] at hne ⊢
  obtain ⟨c₁, hc₁, hmoving, hbal⟩ :=
    rebalance_of_nonempty (Finset.nonempty_iff_ne_empty.mpr hne) horders
  rw [h, Option.some.injEq] at hc₁
  subst hc₁
  refine ⟨fun s => Finmap.mem_keys.mp (hmoving.placed s), ?_⟩
  intro g hg x hx
  exact hbal g (Finmap.mem_keys.mpr hg) x (Finmap.mem_keys.mpr hx)

theorem even_of_call {cfg cfg' : ShardConfig} {call : Call} {ok : Bool} (hcfg : Even cfg)
    (hb : call.Balances) (horders : call.OrdersOk cfg) (hclean : call.Clean cfg)
    (h : cfg.call call = some (.returned cfg' ok)) : Even cfg' := by
  have hsame := (call_unchanged_iff h).mpr hclean
  have main : ∀ {o : Outcome} {orders : ℕ → List Tgid},
      ShardConfig.balanced orders (NShards + 1) o = some (.returned cfg' ok) →
      (∀ c, o = .returned c true → ∀ n, Ranges c.groups (orders n)) → Even cfg' := by
    intro o orders h ho
    obtain ⟨-, hok⟩ | ⟨c, hc, hr, -⟩ := balanced_cases h
    · exact hsame hok ▸ hcfg
    · exact even_of_rebalance (ho c hc) hr
  cases call with
  | join servers => exact hb.elim
  | leave gids => exact hb.elim
  | joinBalance servers orders => exact main h horders
  | leaveBalance gids orders => exact main h horders

/-- The calls of `JoinBalance` and `LeaveBalance` that can happen. -/
def Call.Balancing (s : Session) (call : Call) : Prop := call.Balances ∧ call.OrdersOk s.cfg

/-- A call that returns false leaves the configuration as it was exactly when it is clean, and
clean calls keep the shards evenly spread. -/
theorem failed_change_unchanged (cfg : ShardConfig) (call : Call) (s : Session) :
    (∀ cfg' ok, cfg.call call = some (.returned cfg' ok) →
      ((ok = false → cfg' = cfg) ↔ call.Clean cfg)) ∧
    (sessions.ReachableBy (fun s call => call.Balancing s ∧ call.Clean s.cfg) s →
      s.cfg.groups.keys ≠ ∅ → (∀ x, s.cfg.shards x ∈ s.cfg.groups) ∧
        ∀ g ∈ s.cfg.groups, ∀ h ∈ s.cfg.groups, s.cfg.counts g ≤ s.cfg.counts h + 1) := by
  refine ⟨fun cfg' ok h => call_unchanged_iff h, ?_⟩
  intro h
  refine h.invariant (I := fun s => Even s.cfg) ?_ ?_
  · intro hne
    exact absurd rfl hne
  · rintro s call s' - ih ⟨⟨hb, horders⟩, hclean⟩ hstep
    obtain ⟨cfg', ok, hcall, rfl⟩ := Session.step_cases hstep
    exact even_of_call ih hb horders hclean hcall

/-- The groups 1 and 2. -/
def twoGroups : AList (fun _ : Tgid => List String) :=
  AList.insert 1 ["a"] (AList.singleton 2 ["b"])

/-- The configuration after `JoinBalance` of the groups 1 and 2. -/
def evenConfig : ShardConfig := ⟨1, fun s => if s.val % 2 = 0 then 1 else 2, twoGroups.toFinmap⟩

theorem reachable_evenConfig : sessions.ReachableBy
    (fun s call => call.Balancing s ∧ call.Clean s.cfg) ⟨evenConfig, [true]⟩ := by
  refine .step .init (a := .joinBalance twoGroups (fun _ => [2, 1]))
    ⟨⟨trivial, ?_⟩, Or.inr (fun _ _ => Finmap.notMem_empty)⟩ (by decide)
  intro cfg' h n
  have hjoin : makeShardConfig.join twoGroups =
      .returned ⟨1, fun _ => 0, Finmap.insert 2 ["b"] (Finmap.insert 1 ["a"] ∅)⟩ true := rfl
  have hranges : Ranges (Finmap.insert 2 ["b"] (Finmap.insert 1 ["a"] ∅)) [2, 1] := by decide
  obtain ⟨rfl, -⟩ := Outcome.returned.inj (hjoin.symm.trans h)
  exact hranges

theorem failed_change_unchanged_even : evenConfig.groups.keys ≠ ∅ ∧
    (∀ x, evenConfig.shards x ∈ evenConfig.groups) ∧
    ∀ g ∈ evenConfig.groups, ∀ h ∈ evenConfig.groups,
      evenConfig.counts g ≤ evenConfig.counts h + 1 :=
  ⟨by decide, (failed_change_unchanged evenConfig (.leave []) ⟨evenConfig, [true]⟩).2
    reachable_evenConfig (by decide)⟩

/-- A repeated gid: `Leave` returns false with the group removed, and after `LeaveBalance` the
shards of the group are still on it. -/
theorem repeated_leave_changes :
    (∃ cfg', evenConfig.leave [1, 1] = .returned cfg' false ∧ cfg' ≠ evenConfig) ∧
    ∃ s, sessions.ReachableBy (fun s call => call.Balancing s) s ∧ s.returns = [true, false] ∧
      s.cfg.groups.keys ≠ ∅ ∧ ¬ ∀ x, s.cfg.shards x ∈ s.cfg.groups := by
  refine ⟨⟨{ evenConfig with groups := evenConfig.groups.erase 1 }, rfl, by decide⟩,
    ⟨{ evenConfig with groups := evenConfig.groups.erase 1 }, [true, false]⟩, ?_, rfl,
    by decide, by decide⟩
  have heven : sessions.ReachableBy (fun s call => call.Balancing s) ⟨evenConfig, [true]⟩ :=
    reachable_evenConfig.mono (fun _ _ h => h.1)
  refine .step heven (a := .leaveBalance [1, 1] (fun _ => [2])) ⟨trivial, ?_⟩ (by decide)
  intro cfg' h
  have hnodup := ((leaveLoop_ok_iff h).mp rfl).1
  exact absurd hnodup (by decide)

/-! ### Servers and the configuration number -/

/-- No server name is in two groups. -/
def OneGroup (groups : Groups) : Prop :=
  ∀ g h, g ≠ h → ∀ name ∈ (groups.lookup g).getD [], name ∉ (groups.lookup h).getD []

theorem OneGroup.insert {groups : Groups} (h : OneGroup groups) {gid : Tgid}
    {servers : List String} (hs : ¬ Shares groups servers) :
    OneGroup (groups.insert gid servers) := by
  have hnew : ∀ x, ∀ name ∈ (groups.lookup x).getD [], name ∉ servers := by
    intro x name hname hmem
    refine hs ⟨x, ?_, name, hname, hmem⟩
    rw [Finmap.mem_keys, ← Finmap.lookup_isSome]
    cases hl : groups.lookup x with
    | none =>
        rw [hl] at hname
        cases hname
    | some l => rfl
  intro g x hgx name hname hmem
  by_cases hg : g = gid
  · subst hg
    rw [Finmap.lookup_insert] at hname
    rw [Finmap.lookup_insert_of_ne _ hgx.symm] at hmem
    exact hnew x name hmem hname
  · rw [Finmap.lookup_insert_of_ne _ hg] at hname
    by_cases hx : x = gid
    · subst hx
      rw [Finmap.lookup_insert] at hmem
      exact hnew g name hname hmem
    · rw [Finmap.lookup_insert_of_ne _ hx] at hmem
      exact h g x hgx name hname hmem

theorem OneGroup.erase {groups : Groups} (h : OneGroup groups) (gid : Tgid) :
    OneGroup (groups.erase gid) := by
  have hsub : ∀ x name, name ∈ ((groups.erase gid).lookup x).getD [] →
      name ∈ (groups.lookup x).getD [] := by
    intro x name hname
    by_cases hx : x = gid
    · subst hx
      rw [Finmap.lookup_erase] at hname
      cases hname
    · rwa [Finmap.lookup_erase_ne hx] at hname
  intro g x hgx name hname hmem
  exact h g x hgx name (hsub g name hname) (hsub x name hmem)

/-- What holds of the result of a change also holds after its `Rebalance`. -/
theorem of_balanced {orders : ℕ → List Tgid} {fuel : ℕ} {o : Outcome} {cfg' : ShardConfig}
    {ok : Bool} {Q : ℤ → Groups → Bool → Prop}
    (ho : ∀ c ok, o = .returned c ok → Q c.num c.groups ok)
    (h : ShardConfig.balanced orders fuel o = some (.returned cfg' ok)) :
    Q cfg'.num cfg'.groups ok := by
  obtain ⟨rfl, rfl⟩ | ⟨c, rfl, hr, rfl⟩ := balanced_cases h
  · exact ho cfg' false rfl
  · have hsame := sameGroups_rebalance hr
    rw [hsame.num, hsame.groups]
    exact ho c true rfl

theorem oneGroup_of_call {cfg cfg' : ShardConfig} {call : Call} {ok : Bool}
    (hcfg : OneGroup cfg.groups) (h : cfg.call call = some (.returned cfg' ok)) :
    OneGroup cfg'.groups ∧ cfg'.num = cfg.num + if ok then 1 else 0 := by
  have hjoin : ∀ servers c ok, cfg.join servers = .returned c ok →
      OneGroup c.groups ∧ c.num = cfg.num + if ok then 1 else 0 := by
    intro servers c ok hc
    refine ⟨joinLoop_invariant (P := OneGroup) ?_ hcfg hc, (joinLoop_changed hc).num⟩
    intro groups gid servers hg _ hs
    exact hg.insert hs
  have hleave : ∀ gids c ok, cfg.leave gids = .returned c ok →
      OneGroup c.groups ∧ c.num = cfg.num + if ok then 1 else 0 := by
    intro gids c ok hc
    refine ⟨leaveLoop_invariant (P := OneGroup) ?_ hcfg hc, (leaveLoop_changed hc).num⟩
    intro groups gid hg
    exact hg.erase gid
  cases call with
  | join servers => exact hjoin servers cfg' ok (Option.some.inj h)
  | leave gids => exact hleave gids cfg' ok (Option.some.inj h)
  | joinBalance servers orders =>
      exact of_balanced (Q := fun num groups ok => OneGroup groups ∧
        num = cfg.num + if ok then 1 else 0) (hjoin servers) h
  | leaveBalance gids orders =>
      exact of_balanced (Q := fun num groups ok => OneGroup groups ∧
        num = cfg.num + if ok then 1 else 0) (hleave gids) h

/-- Whatever the calls return, no server name is in two groups, and `Num` is the number of calls
that returned true. -/
theorem servers_in_one_group {s : Session} (h : sessions.Reachable s) :
    (∀ g h, g ≠ h → ∀ gs hs, s.cfg.groups.lookup g = some gs → s.cfg.groups.lookup h = some hs →
      ∀ name ∈ gs, name ∉ hs) ∧ s.cfg.num = s.returns.count true := by
  have hinv : OneGroup s.cfg.groups ∧ s.cfg.num = s.returns.count true := by
    refine h.invariant (I := fun s => OneGroup s.cfg.groups ∧ s.cfg.num = s.returns.count true)
      ⟨?_, rfl⟩ ?_
    · intro g h _ name hname
      cases hname
    · rintro s call s' - ⟨hone, hnum⟩ - hstep
      obtain ⟨cfg', ok, hcall, rfl⟩ := Session.step_cases hstep
      obtain ⟨hone', hnum'⟩ := oneGroup_of_call hone hcall
      refine ⟨hone', ?_⟩
      rw [hnum', hnum, List.count_append]
      cases ok <;> simp
  refine ⟨?_, hinv.2⟩
  intro g h hgh gs hs hg hh name hname hmem
  refine hinv.1 g h hgh name ?_ ?_
  · rw [hg]
    exact hname
  · rw [hh]
    exact hmem

/-- Two groups join, one of them is refused a second time, and the other leaves. -/
def joinAgain : List Call :=
  [.join twoGroups, .join (AList.singleton 1 ["c"]), .leave [2]]

theorem servers_in_one_group_joinAgain : ∃ s, sessions.Reachable s ∧
    s.returns = [true, false, true] ∧
    (∀ g h, g ≠ h → ∀ gs hs, s.cfg.groups.lookup g = some gs → s.cfg.groups.lookup h = some hs →
      ∀ name ∈ gs, name ∉ hs) ∧ s.cfg.num = s.returns.count true := by
  obtain ⟨s, hs, hp⟩ := Lts.exists_of_exec (L := sessions) (C := fun _ _ => True)
    (p := fun s : Session => decide (s.returns = [true, false, true])) joinAgain (by decide)
  exact ⟨s, hs, of_decide_eq_true hp, servers_in_one_group hs⟩

end DistributedSystems.ShardCfg
