import DistributedSystems.KvRecorder

/-! # The tests' linearizability check

The linearization of the Clerks' history is an order of the recorded operations that the checker
may find: it keeps the order of the recorded times, and the model accepts it (`checker_accepts`), as
long as no `Put` was answered with `ErrNoKey`, which the model does not know. -/

namespace DistributedSystems.Kv

namespace Recorder

/-- A `Get` that misses the key returns the empty value. -/
theorem get_errNoKey {C : Kv.State → Kv.Action → Prop} {s : Kv.State}
    (h : Kv.system.ReachableBy C s) {n : ℕ} {c : Call} {value : String} {version : Tversion}
    (hc : s.calls[n]? = some c) (hr : c.ret = some (.get value version .errNoKey)) :
    value = "" := by
  obtain ⟨reply, he, hf⟩ := (reachable_wellFormed h).returned n c _ hc hr
  obtain ⟨kv, rfl⟩ := reachable_handled h _ _ _ _ he
  cases hop : c.op with
  | put args =>
      rw [hop] at hf
      simp [KVServer.handle, Op.finish] at hf
  | get args =>
      rw [hop] at hf
      simp only [KVServer.handle, Op.finish, Option.some.injEq, Ret.get.injEq, KVServer.get] at hf
      cases hs : kv.store args.key with
      | none =>
          rw [hs] at hf
          exact hf.1.symm
      | some vv =>
          rw [hs] at hf
          exact absurd hf.2.2 (by simp)

/-- The points install no more `Put`s than the server. -/
theorem installed_points_le {C : Kv.State → Kv.Action → Prop} {s : Kv.State}
    (h : Kv.system.ReachableBy C s) (k : String) :
    installed k (s.log.filterMap (point s)) ≤ (installs k s.log).length := by
  rw [installed, List.countP_filterMap, installs, List.length_filterMap_eq_countP]
  refine List.countP_mono_left ?_
  intro e he hp
  cases e with
  | invoke n op => simp [point, Event.exec?] at hp
  | ret n r => simp [point, Event.exec?] at hp
  | exec n a op r =>
      simp only [point, Event.exec?, Option.bind_some, specOp] at hp
      split at hp
      · simp only [Option.map_some, Option.getD_some, decide_eq_true_eq] at hp
        have hr : r = .put ⟨.ok⟩ := by
          have := hp.2
          revert this
          unfold Reply.outcome
          split <;> simp
        subst hr
        obtain ⟨kv, hkv⟩ := reachable_handled h _ _ _ _ he
        obtain ⟨args, rfl⟩ := handle_put hkv
        simp [Event.install?, show args.key = k from hp.1]
      · cases hp

section check

variable {s : State} (h : system.ReachableBy Timely s) (hdone : ∀ e ∈ s.entries, e.logged = true)
include h hdone

/-- Every call has its operation in the log. -/
theorem exists_operation {n : ℕ} {c : Call} (hc : s.kv.calls[n]? = some c) :
    LoggedAt s.entries n ∧ ∃ r e t y, c.ret = some r ∧ s.entries[n]? = some e ∧
      e.stop = some t ∧ recorded c.op r e.start t e.cli = some y ∧ s.operation n = some y := by
  have hlt : n < s.entries.length := by
    rw [(reachable_ordered h).length]
    exact (List.getElem?_eq_some_iff.mp hc).1
  have hlog : LoggedAt s.entries n :=
    ⟨_, List.getElem?_eq_getElem hlt, hdone _ (List.getElem_mem hlt)⟩
  obtain ⟨ids, hids⟩ := reachable_loggedAs h
  obtain ⟨y, hy⟩ := hids.operation n ((hids.mem n).mpr hlog)
  obtain ⟨c', r, e, t, hc', hr, he, ht, hrec⟩ := operation_eq_some.mp hy
  rw [hc, Option.some.injEq] at hc'
  subst hc'
  exact ⟨hlog, r, e, t, y, hr, he, ht, hrec, hy⟩

/-- Every linearization point has an operation in the log, with a return that the point explains
and the model knows. -/
theorem point_recorded (hb : FewPuts s.kv)
    (hkey : ∀ c ∈ s.kv.calls, c.ret ≠ some (.put .errNoKey)) {x : ℕ × Op × Outcome}
    (hx : x ∈ s.kv.log.filterMap (point s.kv)) :
    ∃ r start stop cli y, s.operation x.1 = some y ∧ recorded x.2.1 r start stop cli = some y ∧
      Explains r x.2.2 ∧ r.Plain := by
  have hkv := reachable_kv h
  obtain ⟨ev, hev, hpt⟩ := List.mem_filterMap.mp hx
  cases ev with
  | invoke n op => simp [point, Event.exec?] at hpt
  | ret n r => simp [point, Event.exec?] at hpt
  | exec n a op reply =>
      have hx1 : x.1 = n ∧ x.2.1 = op := by
        simp only [point, Event.exec?, Option.bind_some, Option.ite_none_right_eq_some,
          Option.some.injEq] at hpt
        rw [← hpt.2]
        exact ⟨rfl, rfl⟩
      obtain ⟨c, hc, hop, -⟩ := (reachable_wellFormed hkv).executed _ _ _ _ hev
      obtain ⟨-, r, e, t, y, hr, he, ht, hrec, hy⟩ := exists_operation h hdone hc
      refine ⟨r, e.start, t, e.cli, y, hx1.1 ▸ hy, by rw [hx1.2, ← hop]; exact hrec, ?_, ?_⟩
      · -- the point of the call that explains its return is this one
        have hlin := points_linearize hkv hb
        obtain ⟨op', o', hmem, hex⟩ := hlin.complete n r (ret_mem_history hkv hc hr)
        have hsame : (n, op', o') = x :=
          List.inj_on_of_nodup_map hlin.nodup hmem hx hx1.1.symm
        rw [← hsame]
        exact hex
      · cases r with
        | get value version err =>
            rintro rfl
            exact get_errNoKey hkv hc hr
        | put err =>
            rintro rfl
            exact hkey c (List.mem_of_getElem? hc) hr

/-- The points and the log hold the same operations. -/
theorem points_perm_oplog (hb : FewPuts s.kv) :
    ((s.kv.log.filterMap (point s.kv)).filterMap (fun x => s.operation x.1)).Perm s.oplog := by
  have hkv := reachable_kv h
  have hlin := points_linearize hkv hb
  obtain ⟨ids, hids⟩ := reachable_loggedAs h
  have hperm : ((s.kv.log.filterMap (point s.kv)).map Prod.fst).Perm ids := by
    rw [List.perm_ext_iff_of_nodup hlin.nodup hids.nodup]
    intro n
    rw [hids.mem]
    constructor
    · intro hn
      obtain ⟨x, hx, rfl⟩ := List.mem_map.mp hn
      obtain ⟨ev, hev, hpt⟩ := List.mem_filterMap.mp hx
      cases ev with
      | invoke n op => simp [point, Event.exec?] at hpt
      | ret n r => simp [point, Event.exec?] at hpt
      | exec n a op reply =>
          simp only [point, Event.exec?, Option.bind_some, Option.ite_none_right_eq_some,
            Option.some.injEq] at hpt
          obtain ⟨c, hc, -⟩ := (reachable_wellFormed hkv).executed _ _ _ _ hev
          rw [← hpt.2]
          exact (exists_operation h hdone hc).1
    · rintro ⟨e, he, -⟩
      have hlt : n < s.kv.calls.length := by
        rw [← (reachable_ordered h).length]
        exact (List.getElem?_eq_some_iff.mp he).1
      obtain ⟨-, r, -, -, -, hr, -⟩ := exists_operation h hdone (List.getElem?_eq_getElem hlt)
      obtain ⟨op, o, hmem, -⟩ :=
        hlin.complete n r (ret_mem_history hkv (List.getElem?_eq_getElem hlt) hr)
      exact List.mem_map.mpr ⟨_, hmem, rfl⟩
  have := hperm.filterMap s.operation
  rwa [List.filterMap_map, ← hids.oplog] at this

end check

/-- The order of the points keeps the recorded times. -/
theorem operation_order {s : State} (h : system.ReachableBy Timely s) {m n : ℕ}
    {x y : TimedOperation} (hx : s.operation m = some x) (hy : s.operation n = some y)
    (hprec : ¬ Precedes (history s.kv) n m) : ¬ y.ret < x.call := by
  obtain ⟨c, r, e, t, -, -, he, ht, hrec⟩ := operation_eq_some.mp hx
  obtain ⟨c', r', e', t', -, -, he', ht', hrec'⟩ := operation_eq_some.mp hy
  have hcall := (recorded_times hrec).1
  have hret := (recorded_times hrec').2
  rw [hcall, hret]
  intro hlt
  exact hprec ((reachable_ordered h).order n m e' e t' he' he ht' hlt)

/-- **The tests accept the Clerks.**  In every timely run with fewer than `2 ^ 64` accepted `Put`s
per key, once all clients have logged their operations, the checker finds an order of them that the
model accepts, provided that no `Put` was answered with `ErrNoKey`. -/
theorem checker_accepts {s : State} (h : system.ReachableBy Timely s) (hb : FewPuts s.kv)
    (hdone : ∀ e ∈ s.entries, e.logged = true)
    (hkey : ∀ c ∈ s.kv.calls, c.ret ≠ some (.put .errNoKey)) :
    KvModel.CheckOperations s.oplog := by
  intro part hpart
  obtain ⟨op, -, rfl⟩ := KvModel.mem_partitionOf_iff.mp hpart
  obtain ⟨k, hk⟩ : ∃ k, op.input.key = k := ⟨_, rfl⟩
  rw [hk]
  have hkv := reachable_kv h
  have hlin := points_linearize hkv hb
  refine ⟨_, (points_perm_oplog h hdone hb).filter _, ?_, ?_⟩
  · refine List.Pairwise.filter _ (hlin.order.filterMap _ ?_)
    intro x y hxy a ha b hb'
    exact operation_order h ha hb' hxy
  · rw [KvModel.replay_eq]
    refine replay_legal k _ (fun _ => none) _ rfl hlin.legal ?_
      (fun x hx => point_recorded h hdone hb hkey hx)
    have hle := installed_points_le hkv k
    have hlt := hb k
    simp only [entryVersion]
    omega

/-- Two clients at work on one key: the `Put` that starts first is executed last and finds another
version. -/
def raced : List Action :=
  [.start 0 0 (.put ⟨"k", "a", 0⟩), .tick 1, .start 1 1 (.put ⟨"k", "b", 0⟩), .call 1, .call 0,
    .tick 1, .kv (.exec 0), .kv (.exec 0), .kv (.callTrue 0), .kv (.callTrue 0), .stop 1, .tick 1,
    .stop 0, .append 0, .append 1]

theorem checker_accepts_raced : ∃ s, system.ReachableBy Timely s ∧
    s.oplog = [⟨⟨⟨1, "k", "b", 0⟩, ⟨"", 0, "OK"⟩, 1⟩, 3, 1⟩,
      ⟨⟨⟨1, "k", "a", 0⟩, ⟨"", 0, "ErrVersion"⟩, 0⟩, 2, 0⟩] ∧
    KvModel.CheckOperations s.oplog := by
  obtain ⟨s, hs, hp⟩ := Lts.exists_of_exec (L := system) (C := Timely)
    (p := fun s => decide (s.oplog = [⟨⟨⟨1, "k", "b", 0⟩, ⟨"", 0, "OK"⟩, 1⟩, 3, 1⟩,
        ⟨⟨⟨1, "k", "a", 0⟩, ⟨"", 0, "ErrVersion"⟩, 0⟩, 2, 0⟩] ∧ s.kv.log.length = 6 ∧
      (∀ e ∈ s.entries, e.logged = true) ∧ ∀ c ∈ s.kv.calls, c.ret ≠ some (.put .errNoKey)))
    raced (by decide)
  obtain ⟨hlog, hlen, hdone, hkey⟩ := of_decide_eq_true hp
  exact ⟨s, hs, hlog, checker_accepts hs (fewPuts_of_length (by omega)) hdone hkey⟩

end Recorder

end DistributedSystems.Kv
