import DistributedSystems.KvReplay

/-! # The clients that record their calls

The tests make every `Clerk.Get` and `Clerk.Put` through the methods of `kvtest1/porcupine.go`,
which read the clock before and after the call and append an operation to a log that all clients
share.

`Recorder.State` is the whole test: a clock, clients between reading the clock and making the call,
the Clerks with their network and server, and clients between the return of the call and the entry
in the log.  Any number of steps, and of clock ticks, lie between any two of them.

The recorded times are only bounds of the real ones.  They never put two operations in an order
that they did not have (`reachable_ordered`), and the log has one operation of every call that was
logged (`reachable_loggedAs`). -/

namespace DistributedSystems.Kv

/-! ### The recording clients -/

namespace Recorder

/-- A client that has read the clock and is about to make the call. -/
structure Pending where
  cli : ℕ
  clerk : ℕ
  op : Op
  start : ℕ
deriving DecidableEq, Repr

/-- What a client knows of its call: when it started, the second reading of the clock, and whether
it has appended the operation to the log. -/
structure Entry where
  cli : ℕ
  start : ℕ
  stop : Option ℕ
  logged : Bool
deriving DecidableEq, Repr

/-- The test: the entry `n` is that of the Clerk call `n`. -/
structure State where
  kv : Kv.State
  now : ℕ
  pending : List Pending
  entries : List Entry
  oplog : List TimedOperation

inductive Action where
  | tick (d : ℕ)
  | start (cli clerk : ℕ) (op : Op)
  | call (i : ℕ)
  | kv (a : Kv.Action)
  | stop (n : ℕ)
  | append (n : ℕ)
deriving DecidableEq, Repr

namespace State

def init : State := ⟨Kv.State.init, 0, [], [], []⟩

@[simps] def setKv (s : State) (kv : Kv.State) : State := { s with kv := kv }

@[simps] def start (s : State) (cli clerk : ℕ) (op : Op) : State :=
  { s with pending := s.pending ++ [⟨cli, clerk, op, s.now⟩] }

@[simps] def call (s : State) (i : ℕ) (p : Pending) : State :=
  { s with
    kv := s.kv.invoke p.clerk p.op
    pending := s.pending.eraseIdx i
    entries := s.entries ++ [⟨p.cli, p.start, none, false⟩] }

@[simps] def stop (s : State) (n : ℕ) (e : Entry) : State :=
  { s with entries := s.entries.set n { e with stop := some s.now } }

@[simps] def append (s : State) (n : ℕ) (e : Entry) (y : TimedOperation) : State :=
  { s with
    entries := s.entries.set n { e with logged := true }
    oplog := s.oplog ++ [y] }

/-- The operation of the call `n`, once it has returned and the clock was read. -/
def operation (s : State) (n : ℕ) : Option TimedOperation := do
  let c ← s.kv.calls[n]?
  let r ← c.ret
  let e ← s.entries[n]?
  let stop ← e.stop
  recorded c.op r e.start stop e.cli

def step (s : State) : Action → Option State
  | .tick d => some { s with now := s.now + d }
  | .start cli clerk op => some (s.start cli clerk op)
  | .call i => s.pending[i]?.map (s.call i)
  | .kv a => if a.internal then (s.kv.step a).map s.setKv else none
  | .stop n => do
      let c ← s.kv.calls[n]?
      let e ← s.entries[n]?
      if c.ret ≠ none ∧ e.stop = none then some (s.stop n e) else none
  | .append n => do
      let e ← s.entries[n]?
      let y ← s.operation n
      if e.logged then none else some (s.append n e y)

end State

def system : Lts State Action := ⟨State.init, State.step⟩

/-- What a step can do: the inversion of `State.step`. -/
inductive Stepped (s : State) : Action → State → Prop
  | tick (d : ℕ) : Stepped s (.tick d) { s with now := s.now + d }
  | start (cli clerk : ℕ) (op : Op) : Stepped s (.start cli clerk op) (s.start cli clerk op)
  | call {i : ℕ} {p : Pending} (hp : s.pending[i]? = some p) : Stepped s (.call i) (s.call i p)
  | kv {a : Kv.Action} {kv : Kv.State} (ha : a.internal = true) (h : s.kv.step a = some kv) :
      Stepped s (.kv a) (s.setKv kv)
  | stop {n : ℕ} {c : Call} {r : Ret} {e : Entry} (hc : s.kv.calls[n]? = some c)
      (hr : c.ret = some r) (he : s.entries[n]? = some e) (hstop : e.stop = none) :
      Stepped s (.stop n) (s.stop n e)
  | append {n : ℕ} {e : Entry} {y : TimedOperation} (he : s.entries[n]? = some e)
      (hy : s.operation n = some y) (hlog : e.logged = false) :
      Stepped s (.append n) (s.append n e y)

theorem State.step_cases {s s' : State} {a : Action} (h : s.step a = some s') : Stepped s a s' := by
  cases a with
  | tick d => exact Option.some.inj h ▸ .tick d
  | start cli clerk op => exact Option.some.inj h ▸ .start cli clerk op
  | call i =>
      simp only [State.step, Option.map_eq_some_iff] at h
      obtain ⟨p, hp, rfl⟩ := h
      exact .call hp
  | kv a =>
      simp only [State.step, Option.ite_none_right_eq_some, Option.map_eq_some_iff] at h
      obtain ⟨ha, kv, hkv, rfl⟩ := h
      exact .kv ha hkv
  | stop n =>
      simp only [State.step, Option.bind_eq_bind, Option.bind_eq_some_iff,
        Option.ite_none_right_eq_some, Option.some.injEq] at h
      obtain ⟨c, hc, e, he, ⟨hr, hstop⟩, rfl⟩ := h
      obtain ⟨r, hr⟩ := Option.ne_none_iff_exists'.mp hr
      exact .stop hc hr he hstop
  | append n =>
      simp only [State.step, Option.bind_eq_bind, Option.bind_eq_some_iff,
        Option.ite_none_left_eq_some, Option.some.injEq] at h
      obtain ⟨e, he, y, hy, hlog, rfl⟩ := h
      exact .append he hy (by simpa using hlog)

/-- The condition on a step: the server executes an attempt only while its `Call` is outstanding. -/
def Timely (s : State) : Action → Prop
  | .kv a => Kv.Timely s.kv a
  | _ => True

instance (s : State) : (a : Action) → Decidable (Timely s a)
  | .kv a => inferInstanceAs (Decidable (Kv.Timely s.kv a))
  | .tick _ | .start _ _ _ | .call _ | .stop _ | .append _ => .isTrue trivial

/-- The Clerks of a test run as the Clerks of `Kv.system`. -/
theorem reachable_kv {s : State} (h : system.ReachableBy Timely s) :
    Kv.system.ReachableBy Kv.Timely s.kv := by
  refine h.simulate State.kv rfl ?_
  intro s a s' _ hC hs
  cases State.step_cases hs with
  | @call i p hp => exact Or.inr ⟨.invoke p.clerk p.op, trivial, rfl⟩
  | @kv a kv ha hkv => exact Or.inr ⟨a, hC, hkv⟩
  | _ => exact Or.inl rfl

/-! ### Times -/

/-- A call that has returned is in the log. -/
theorem ret_mem_history {C : Kv.State → Kv.Action → Prop} {s : Kv.State}
    (h : Kv.system.ReachableBy C s) {n : ℕ} {c : Call} {r : Ret} (hc : s.calls[n]? = some c)
    (hr : c.ret = some r) : .ret n r ∈ history s := by
  have hlog : Event.ret n r ∈ s.log := by
    refine h.invariant (I := fun s => ∀ (n : ℕ) (c : Call) (r : Ret), s.calls[n]? = some c →
      c.ret = some r → Event.ret n r ∈ s.log) (by simp [Kv.system, Kv.State.init]) ?_ n c r hc hr
    intro s a s' _ ih _ hs n c r hc hr
    cases Kv.State.step_cases hs with
    | invoke clerk op =>
        rcases getElem?_concat_cases hc with ⟨-, rfl⟩ | hc
        · cases hr
        · exact List.mem_append_left _ (ih n c r hc hr)
    | exec hq => exact List.mem_append_left _ (ih n c r hc hr)
    | lose hq => exact ih n c r hc hr
    | callTrue hp hc' hopen hatt hf =>
        rcases getElem?_set_cases hc with ⟨rfl, rfl⟩ | ⟨-, hc⟩
        · cases hr
          exact List.mem_append_right _ (List.mem_singleton_self _)
        · exact List.mem_append_left _ (ih n c r hc hr)
    | callFalse hc' hopen =>
        rcases getElem?_set_cases hc with ⟨-, rfl⟩ | ⟨-, hc⟩
        · exact absurd (hopen.symm.trans hr) (by simp)
        · exact ih n c r hc hr
  exact List.mem_filterMap.mpr ⟨_, hlog, rfl⟩

/-- The times of the entries lie in the past, a second reading comes after the return, and the
order of the times is an order of the calls. -/
structure Ordered (s : State) : Prop where
  length : s.entries.length = s.kv.calls.length
  pending : ∀ p ∈ s.pending, p.start ≤ s.now
  start : ∀ (n : ℕ) (e : Entry), s.entries[n]? = some e → e.start ≤ s.now
  stop : ∀ (n : ℕ) (e : Entry) (t : ℕ), s.entries[n]? = some e → e.stop = some t →
    t ≤ s.now ∧ ∃ r, .ret n r ∈ history s.kv
  order : ∀ (m n : ℕ) (e f : Entry) (t : ℕ), s.entries[m]? = some e → s.entries[n]? = some f →
    e.stop = some t → t < f.start → Precedes (history s.kv) m n

theorem history_append {s s' : Kv.State} {a : Kv.Action} (h : Kv.Stepped s a s') :
    ∃ l, history s' = history s ++ l := by
  obtain ⟨l, hl⟩ := h.log_append
  exact ⟨l.filterMap Event.visible, by rw [history, hl, List.filterMap_append]; rfl⟩

/-- A step that leaves the entries. -/
theorem Ordered.congr {s s' : State} (h : Ordered s) (hnow : s.now ≤ s'.now)
    (hlen : s'.kv.calls.length = s.kv.calls.length)
    (hpending : ∀ p ∈ s'.pending, p.start ≤ s'.now) (hentries : s'.entries = s.entries)
    (hhist : ∃ l, history s'.kv = history s.kv ++ l) : Ordered s' := by
  obtain ⟨l, hl⟩ := hhist
  constructor
  · rw [hentries, hlen]
    exact h.length
  · exact hpending
  · intro n e he
    exact (h.start n e (hentries ▸ he)).trans hnow
  · intro n e t he ht
    obtain ⟨hle, r, hr⟩ := h.stop n e t (hentries ▸ he) ht
    exact ⟨hle.trans hnow, r, by rw [hl]; exact List.mem_append_left _ hr⟩
  · intro m n e f t he hf ht hlt
    rw [hl]
    exact (h.order m n e f t (hentries ▸ he) (hentries ▸ hf) ht hlt).append l

/-- The call is made: whatever has stopped by the time it started has returned. -/
theorem Ordered.call {s : State} (h : Ordered s) {i : ℕ} {p : Pending}
    (hp : s.pending[i]? = some p) : Ordered (s.call i p) := by
  have hhist : history (s.call i p).kv = history s.kv ++ [.call s.kv.calls.length p.op] := by
    simp [history, Event.visible]
  constructor
  · simp [h.length]
  · intro q hq
    exact h.pending q (List.mem_of_mem_eraseIdx hq)
  · intro n e he
    rcases getElem?_concat_cases he with ⟨-, rfl⟩ | he
    · exact h.pending p (List.mem_of_getElem? hp)
    · exact h.start n e he
  · intro n e t he ht
    rcases getElem?_concat_cases he with ⟨-, rfl⟩ | he
    · cases ht
    · obtain ⟨hle, r, hr⟩ := h.stop n e t he ht
      exact ⟨hle, r, by rw [hhist]; exact List.mem_append_left _ hr⟩
  · intro m n e f t he hf ht hlt
    rw [hhist]
    rcases getElem?_concat_cases he with ⟨-, rfl⟩ | he
    · cases ht
    · rcases getElem?_concat_cases hf with ⟨rfl, rfl⟩ | hf
      · obtain ⟨-, r, hr⟩ := h.stop m e t he ht
        rw [h.length]
        exact ⟨_, [], p.op, r, rfl, hr⟩
      · exact (h.order m n e f t he hf ht hlt).append _

/-- The clock is read after the return: no call has started later. -/
theorem Ordered.stop_step {s : State} (h : Ordered s) {n : ℕ} {e : Entry} {r : Ret}
    (he : s.entries[n]? = some e) (hr : .ret n r ∈ history s.kv) : Ordered (s.stop n e) := by
  have hstart : ∀ (m : ℕ) (f : Entry), (s.stop n e).entries[m]? = some f →
      ∃ f', s.entries[m]? = some f' ∧ f.start = f'.start := by
    intro m f hf
    rcases getElem?_set_cases hf with ⟨rfl, rfl⟩ | ⟨-, hf⟩
    · exact ⟨e, he, rfl⟩
    · exact ⟨f, hf, rfl⟩
  constructor
  · simp [h.length]
  · exact h.pending
  · intro m f hf
    obtain ⟨f', hf', hst⟩ := hstart m f hf
    rw [hst]
    exact h.start m f' hf'
  · intro m f t hf ht
    rcases getElem?_set_cases hf with ⟨rfl, rfl⟩ | ⟨-, hf⟩
    · cases ht
      exact ⟨le_rfl, r, hr⟩
    · exact h.stop m f t hf ht
  · intro m k f g t hf hg ht hlt
    obtain ⟨g', hg', hst⟩ := hstart k g hg
    rw [hst] at hlt
    rcases getElem?_set_cases hf with ⟨rfl, rfl⟩ | ⟨-, hf⟩
    · cases ht
      have := h.start k g' hg'
      exact absurd hlt (Nat.not_lt.mpr this)
    · exact h.order m k f g' t hf hg' ht hlt

theorem Ordered.append {s : State} (h : Ordered s) {n : ℕ} {e : Entry} {y : TimedOperation}
    (he : s.entries[n]? = some e) : Ordered (s.append n e y) := by
  have hold : ∀ (m : ℕ) (f : Entry), (s.append n e y).entries[m]? = some f →
      ∃ f', s.entries[m]? = some f' ∧ f.start = f'.start ∧ f.stop = f'.stop := by
    intro m f hf
    rcases getElem?_set_cases hf with ⟨rfl, rfl⟩ | ⟨-, hf⟩
    · exact ⟨e, he, rfl, rfl⟩
    · exact ⟨f, hf, rfl, rfl⟩
  constructor
  · simp [h.length]
  · exact h.pending
  · intro m f hf
    obtain ⟨f', hf', hst, -⟩ := hold m f hf
    rw [hst]
    exact h.start m f' hf'
  · intro m f t hf ht
    obtain ⟨f', hf', -, hsp⟩ := hold m f hf
    exact h.stop m f' t hf' (hsp ▸ ht)
  · intro m k f g t hf hg ht hlt
    obtain ⟨f', hf', -, hsp⟩ := hold m f hf
    obtain ⟨g', hg', hst, -⟩ := hold k g hg
    exact h.order m k f' g' t hf' hg' (hsp ▸ ht) (hst ▸ hlt)

theorem reachable_ordered {s : State} (h : system.ReachableBy Timely s) : Ordered s := by
  refine h.invariant (by constructor <;> simp [system, State.init, Kv.State.init]) ?_
  intro s a s' hr ih hC hs
  cases State.step_cases hs with
  | tick d =>
      refine ih.congr (Nat.le_add_right _ _) rfl ?_ rfl ⟨[], by simp⟩
      intro p hp
      exact (ih.pending p hp).trans (Nat.le_add_right _ _)
  | start cli clerk op =>
      refine ih.congr le_rfl rfl ?_ rfl ⟨[], by simp⟩
      intro p hp
      rcases List.mem_append.mp hp with hp | hp
      · exact ih.pending p hp
      · rw [List.mem_singleton.mp hp]
        exact le_rfl
  | call hp => exact ih.call hp
  | @kv a kv ha hkv =>
      have hst := Kv.State.step_cases hkv
      refine ih.congr le_rfl ?_ ih.pending rfl (history_append hst)
      cases hst with
      | invoke clerk op => cases ha
      | _ => simp
  | stop hc hret he hstop => exact ih.stop_step he (ret_mem_history (reachable_kv hr) hc hret)
  | append he hy hlog => exact ih.append he

/-! ### The log -/

theorem operation_eq_some {s : State} {n : ℕ} {y : TimedOperation} :
    s.operation n = some y ↔ ∃ c r e t, s.kv.calls[n]? = some c ∧ c.ret = some r ∧
      s.entries[n]? = some e ∧ e.stop = some t ∧ recorded c.op r e.start t e.cli = some y := by
  simp only [State.operation, Option.bind_eq_bind, Option.bind_eq_some_iff]
  constructor
  · rintro ⟨c, hc, r, hr, e, he, t, ht, hy⟩
    exact ⟨c, r, e, t, hc, hr, he, ht, hy⟩
  · rintro ⟨c, r, e, t, hc, hr, he, ht, hy⟩
    exact ⟨c, hc, r, hr, e, he, t, ht, hy⟩

/-- The operation of a call does not change any more. -/
theorem Stepped.operation {s s' : State} {a : Action} (h : Stepped s a s') {n : ℕ}
    {y : TimedOperation} (hy : s.operation n = some y) : s'.operation n = some y := by
  obtain ⟨c, r, e, t, hc, hr, he, ht, hrec⟩ := operation_eq_some.mp hy
  rw [operation_eq_some]
  cases h with
  | tick d => exact ⟨c, r, e, t, hc, hr, he, ht, hrec⟩
  | start cli clerk op => exact ⟨c, r, e, t, hc, hr, he, ht, hrec⟩
  | call hp =>
      refine ⟨c, r, e, t, ?_, hr, ?_, ht, hrec⟩
      · rw [State.call_kv, Kv.State.invoke_calls,
          List.getElem?_append_left (List.getElem?_eq_some_iff.mp hc).1]
        exact hc
      · rw [State.call_entries, List.getElem?_append_left (List.getElem?_eq_some_iff.mp he).1]
        exact he
  | kv ha hkv =>
      have hst := Kv.State.step_cases hkv
      obtain ⟨c', hc', hr'⟩ := hst.returned hc hr
      obtain ⟨c'', hc'', hop, -⟩ := hst.calls_mono hc
      rw [hc', Option.some.injEq] at hc''
      subst hc''
      exact ⟨c', r, e, t, hc', hr', he, ht, by rw [hop]; exact hrec⟩
  | @stop m d r' f hd hr' hf hstop =>
      have hne : m ≠ n := by
        rintro rfl
        rw [he, Option.some.injEq] at hf
        rw [← hf, ht] at hstop
        cases hstop
      exact ⟨c, r, e, t, hc, hr, (List.getElem?_set_ne hne).trans he, ht, hrec⟩
  | @append m f z hf hz hlog =>
      by_cases hm : m = n
      · subst hm
        rw [he, Option.some.injEq] at hf
        subst hf
        exact ⟨c, r, { e with logged := true }, t, hc, hr,
          by simp [(List.getElem?_eq_some_iff.mp he).1], ht, hrec⟩
      · exact ⟨c, r, e, t, hc, hr, (List.getElem?_set_ne hm).trans he, ht, hrec⟩

/-- The entry `n` is marked as logged. -/
def LoggedAt (entries : List Entry) (n : ℕ) : Prop :=
  ∃ e, entries[n]? = some e ∧ e.logged = true

theorem loggedAt_concat {entries : List Entry} {e : Entry} (he : e.logged = false) (n : ℕ) :
    LoggedAt (entries ++ [e]) n ↔ LoggedAt entries n := by
  constructor
  · rintro ⟨f, hf, hlog⟩
    rcases getElem?_concat_cases hf with ⟨-, rfl⟩ | hf
    · rw [he] at hlog
      cases hlog
    · exact ⟨f, hf, hlog⟩
  · rintro ⟨f, hf, hlog⟩
    exact ⟨f, by rw [List.getElem?_append_left (List.getElem?_eq_some_iff.mp hf).1, hf], hlog⟩

theorem loggedAt_set {entries : List Entry} {m : ℕ} {e f : Entry} (he : entries[m]? = some e)
    (n : ℕ) : LoggedAt (entries.set m f) n ↔
      (n = m ∧ f.logged = true) ∨ (n ≠ m ∧ LoggedAt entries n) := by
  have hlt : m < entries.length := (List.getElem?_eq_some_iff.mp he).1
  by_cases hn : n = m
  · subst hn
    simp [LoggedAt, List.getElem?_set_self hlt]
  · simp [LoggedAt, List.getElem?_set_ne (Ne.symm hn), hn]

theorem loggedAt_iff {entries : List Entry} {n : ℕ} {e : Entry} (he : entries[n]? = some e) :
    LoggedAt entries n ↔ e.logged = true := by
  simp [LoggedAt, he]

/-- The entries marked as logged, in the order in which they were. -/
structure LoggedAs (s : State) (ids : List ℕ) : Prop where
  nodup : ids.Nodup
  mem : ∀ n, n ∈ ids ↔ LoggedAt s.entries n
  operation : ∀ n ∈ ids, ∃ y, s.operation n = some y
  oplog : s.oplog = ids.filterMap s.operation

theorem LoggedAs.congr {s s' : State} {a : Action} {ids : List ℕ} (h : LoggedAs s ids)
    (hs : Stepped s a s') (hlog : s'.oplog = s.oplog)
    (hmem : ∀ n, LoggedAt s'.entries n ↔ LoggedAt s.entries n) : LoggedAs s' ids where
  nodup := h.nodup
  mem n := (h.mem n).trans (hmem n).symm
  operation n hn := by
    obtain ⟨y, hy⟩ := h.operation n hn
    exact ⟨y, hs.operation hy⟩
  oplog := by
    rw [hlog, h.oplog]
    refine List.filterMap_congr ?_
    intro n hn
    obtain ⟨y, hy⟩ := h.operation n hn
    rw [hy, hs.operation hy]

theorem LoggedAs.append {s : State} {ids : List ℕ} (h : LoggedAs s ids) {n : ℕ} {e : Entry}
    {y : TimedOperation} (hs : Stepped s (.append n) (s.append n e y))
    (he : s.entries[n]? = some e) (hy : s.operation n = some y) (hlog : e.logged = false) :
    LoggedAs (s.append n e y) (ids ++ [n]) where
  nodup := by
    have hn : n ∉ ids := by
      rw [h.mem, loggedAt_iff he, hlog]
      simp
    exact List.nodup_append.mpr ⟨h.nodup, List.nodup_singleton n, by
      rintro a ha b hb rfl
      exact hn (List.mem_singleton.mp hb ▸ ha)⟩
  mem m := by
    rw [State.append_entries, loggedAt_set he, List.mem_append, List.mem_singleton, h.mem]
    by_cases hm : m = n
    · simp [hm]
    · simp [hm]
  operation m hm := by
    rcases List.mem_append.mp hm with hm | hm
    · obtain ⟨z, hz⟩ := h.operation m hm
      exact ⟨z, hs.operation hz⟩
    · rw [List.mem_singleton.mp hm]
      exact ⟨y, hs.operation hy⟩
  oplog := by
    have hold : ids.filterMap (s.append n e y).operation = ids.filterMap s.operation := by
      refine List.filterMap_congr ?_
      intro m hm
      obtain ⟨z, hz⟩ := h.operation m hm
      rw [hz, hs.operation hz]
    rw [State.append_oplog, List.filterMap_append, hold, h.oplog,
      List.filterMap_cons_some (hs.operation hy), List.filterMap_nil]

theorem reachable_loggedAs {s : State} (h : system.ReachableBy Timely s) :
    ∃ ids, LoggedAs s ids := by
  refine h.invariant (I := fun s => ∃ ids, LoggedAs s ids)
    ⟨[], by constructor <;> simp [system, State.init, LoggedAt]⟩ ?_
  rintro s a s' - ⟨ids, ih⟩ - hs
  have hst := State.step_cases hs
  cases hst with
  | tick d => exact ⟨ids, ih.congr (.tick d) rfl (fun _ => Iff.rfl)⟩
  | start cli clerk op => exact ⟨ids, ih.congr (.start cli clerk op) rfl (fun _ => Iff.rfl)⟩
  | call hp => exact ⟨ids, ih.congr (.call hp) rfl (loggedAt_concat rfl)⟩
  | kv ha hkv => exact ⟨ids, ih.congr (.kv ha hkv) rfl (fun _ => Iff.rfl)⟩
  | @stop n c r e hc hr he hstop =>
      refine ⟨ids, ih.congr (.stop hc hr he hstop) rfl ?_⟩
      intro m
      rw [State.stop_entries, loggedAt_set he]
      by_cases hm : m = n
      · subst hm
        simp [loggedAt_iff he]
      · simp [hm]
  | append he hy hlog => exact ⟨_, ih.append (.append he hy hlog) he hy hlog⟩

end Recorder

end DistributedSystems.Kv
