import DistributedSystems.DemuxRefinement

/-! # Every call over a shared connection returns

A call returns also when the connection breaks at any moment, between any two steps of it
(`demux_calls_return`).  The exception is a `ServeRequest` that does not return while the connection
stands: the call of its request then waits for ever.

While the connection stands, a request that was written is on its way, at the server, or on its way
back (`Live`); once it is broken, the reader answers all calls that are left. -/

namespace DistributedSystems.Demux

variable {σ β : Type}

/-! ### A connection that stands -/

/-- As long as the connection stands, both readers run, and a request that was written is on its
way, at the server, or on its way back. -/
structure Live (s : State σ β) : Prop where
  serving : s.serving = true
  alive : s.killed = false
  reading : s.reader.rest = none
  waiting : ∀ (n : ℕ) (c : Call β), s.calls[n]? = some c → c.stage = .waiting → n ∈ s.entries →
    InFlight s (tagOf n)

/-- A step that leaves the map, and nothing behind. -/
theorem Live.congr {s s' : State σ β} (h : Live s) (hsv : s'.serving = s.serving)
    (hk : s'.killed = s.killed) (hr : s'.reader.rest = none) (hmap : s'.entries = s.entries)
    (hcalls : ∀ (n : ℕ) (c : Call β), s'.calls[n]? = some c → c.stage = .waiting →
      s.calls[n]? = some c)
    (hfl : ∀ t, InFlight s t → InFlight s' t) : Live s' where
  serving := hsv.trans h.serving
  alive := hk.trans h.alive
  reading := hr
  waiting n c hc hst hn := hfl _ (h.waiting n c (hcalls n c hc hst) hst (hmap ▸ hn))

theorem waiting_of_set {calls : List (Call β)} {n : ℕ} {c : Call β} {stage : Stage β}
    (hst : stage ≠ .waiting) {m : ℕ} {d : Call β}
    (hd : (calls.set n { c with stage := stage })[m]? = some d) (hdst : d.stage = .waiting) :
    calls[m]? = some d := by
  rcases getElem?_set_cases hd with ⟨-, rfl⟩ | ⟨-, hd⟩
  · exact absurd hdst hst
  · exact hd

section live

variable {s : State σ β}

theorem Live.register (h : Live s) {n : ℕ} {c : Call β} (hc : s.calls[n]? = some c)
    (hst : c.stage = .tagged) : Live (s.register n c) := by
  refine ⟨h.serving, h.alive, h.reading, ?_⟩
  intro m d hd hdst hm
  have hd' := waiting_of_set (by simp) hd hdst
  obtain ⟨t, ht⟩ := mem_entries.mp hm
  rw [State.register_callmap, List.mem_cons] at ht
  rcases ht with ht | ht
  · -- the call in the new entry is not written yet
    rw [Prod.mk.injEq] at ht
    rw [ht.2, hc, Option.some.injEq] at hd'
    rw [← hd', hst] at hdst
    cases hdst
  · exact h.waiting m d hd' hdst (mem_entries.mpr ⟨t, (List.mem_filter.mp ht).1⟩)

theorem Live.write (h : Live s) (hT : Tags s) {n : ℕ} {c : Call β} (hc : s.calls[n]? = some c)
    (hconn : s.connected = true) : Live (s.write n c) := by
  have hreq : (s.write n c).requests = s.requests ++ [⟨c.tag, c.req, true⟩] := by simp [hconn]
  refine ⟨h.serving, h.alive, h.reading, ?_⟩
  intro m d hd hdst hm
  rcases getElem?_set_cases hd with ⟨rfl, -⟩ | ⟨-, hd⟩
  · exact Or.inl ⟨⟨c.tag, c.req, true⟩, by simp [hconn], hT.tag m c hc⟩
  · rcases h.waiting m d hd hdst hm with ⟨q, hq, hqt⟩ | hfl
    · exact Or.inl ⟨q, by rw [hreq]; exact List.mem_append_left _ hq, hqt⟩
    · exact Or.inr hfl

/-- The reply that is read was that of the call which leaves the map. -/
theorem Live.read (h : Live s) (hi : Inv s) {m : Msg β} {l : List (Msg β)}
    (hr : s.reader = .reading) (hm : s.replies = m :: l) :
    Live ({ s with replies := l }.answer m.tag (some (m.data, m.ok)) none) := by
  obtain ⟨n, hn, ht, he, -⟩ := hi.map.read hi.tags hi.traffic.answerable hr hm
  have hent : ({ s with replies := l }.take n (some (m.data, m.ok)) none).entries =
      s.entries.erase n := hi.map.entries_take hi.tags hn (some (m.data, m.ok)) none
  rw [he]
  refine ⟨h.serving, h.alive, rfl, ?_⟩
  intro k d hd hdst hk
  rw [hent, hi.map.nodup.mem_erase_iff] at hk
  rcases h.waiting k d hd hdst hk.2 with hfl | hfl | ⟨p, hp, hpt⟩
  · exact Or.inl hfl
  · exact Or.inr (Or.inl hfl)
  · rw [hm, List.mem_cons] at hp
    rcases hp with rfl | hp
    · exact absurd (hi.map.inj hi.tags hk.2 hn (hpt.symm.trans ht)) hk.1
    · exact Or.inr (Or.inr ⟨p, hp, hpt⟩)

/-- A request that is read becomes a task. -/
theorem InFlight.srvRead {t : Ttag} (h : InFlight s t) {m : Msg β} {l : List (Msg β)}
    (hm : s.requests = m :: l) :
    InFlight { s with requests := l, tasks := s.tasks ++ [⟨m.tag, m.data, .started⟩] } t := by
  rcases h with ⟨q, hq, hqt⟩ | ⟨x, hx, hxt, hact⟩ | hfl
  · rw [hm, List.mem_cons] at hq
    rcases hq with rfl | hq
    · exact Or.inr (Or.inl ⟨⟨q.tag, q.data, .started⟩, by simp, hqt, by simp⟩)
    · exact Or.inl ⟨q, hq, hqt⟩
  · exact Or.inr (Or.inl ⟨x, List.mem_append_left _ hx, hxt, hact⟩)
  · exact Or.inr (Or.inr hfl)

theorem InFlight.serve {t : Ttag} (h : InFlight s t) {i : ℕ} {x : Task β}
    (hx : s.tasks[i]? = some x) (server : σ) (r : β × Bool) :
    InFlight (s.serve i x server r) t := by
  have hlt : i < s.tasks.length := (List.getElem?_eq_some_iff.mp hx).1
  rcases h with hfl | ⟨y, hy, hyt, hact⟩ | hfl
  · exact Or.inl hfl
  · rcases eq_or_mem_set (b := { x with stage := .served r }) hx hy with rfl | hy
    · exact Or.inr (Or.inl ⟨_, List.mem_set hlt _, hyt, by simp⟩)
    · exact Or.inr (Or.inl ⟨y, hy, hyt, hact⟩)
  · exact Or.inr (Or.inr hfl)

/-- A task that is done becomes a reply. -/
theorem InFlight.reply {t : Ttag} (h : InFlight s t) {i : ℕ} {x : Task β}
    (hx : s.tasks[i]? = some x) (r : β × Bool) (hconn : s.connected = true) :
    InFlight (s.reply i x r) t := by
  have hrep : (s.reply i x r).replies = s.replies ++ [⟨x.tag, r.1, r.2⟩] := by simp [hconn]
  rcases h with hfl | ⟨y, hy, hyt, hact⟩ | ⟨p, hp, hpt⟩
  · exact Or.inl hfl
  · rcases eq_or_mem_set (b := { x with stage := .replied r }) hx hy with rfl | hy
    · exact Or.inr (Or.inr ⟨⟨y.tag, r.1, r.2⟩, by simp [hconn], hyt⟩)
    · exact Or.inr (Or.inl ⟨y, hy, hyt, hact⟩)
  · exact Or.inr (Or.inr ⟨p, by rw [hrep]; exact List.mem_append_left _ hp, hpt⟩)

/-- While the connection stands, the reader does not drain the map. -/
theorem Live.not_draining (h : Live s) (ts : List Ttag) : s.reader ≠ .draining ts := by
  intro hr
  have hrest := h.reading
  rw [hr] at hrest
  cases hrest

theorem Live.step {f : ServeRequest σ β} {s' : State σ β} {a : Action β} (h : Live s) (hi : Inv s)
    (hs : Stepped f s a s') (hconn : s'.connected = true) : Live s' := by
  have same : ∀ (n : ℕ) (c : Call β), s.calls[n]? = some c → c.stage = .waiting →
      s.calls[n]? = some c := fun _ _ hc _ => hc
  cases hs with
  | send req =>
      refine h.congr rfl rfl h.reading rfl ?_ (fun _ ht => ht)
      intro n c hc hst
      rcases getElem?_concat_cases hc with ⟨-, rfl⟩ | hc
      · cases hst
      · exact hc
  | refuse hc hst hcl =>
      exact h.congr rfl rfl h.reading rfl (fun _ _ => waiting_of_set (by simp)) (fun _ ht => ht)
  | register hc hst hcl => exact h.register hc hst
  | write hc hst => exact h.write hi.tags hc hconn
  | read hr hm => exact h.read hi hr hm
  | fail hr hd => cases hd.symm.trans hconn
  | drain hr ht => exact absurd hr (h.not_draining _)
  | finish hr => exact absurd hr (h.not_draining _)
  | @deliver n a back c hr hc hst =>
      refine h.congr rfl rfl ?_ rfl (fun _ _ => waiting_of_set (by simp)) (fun _ ht => ht)
      have hrest := h.reading
      rw [hr] at hrest
      cases back with
      | none => rfl
      | some ts => cases hrest
  | close hcl => cases hconn
  | srvRead hk hsv hm => exact h.congr rfl rfl h.reading rfl same (fun _ ht => ht.srvRead hm)
  | srvFail hd hsv => cases hd.symm.trans hconn
  | serve hx hst hf => exact h.congr rfl rfl h.reading rfl same (fun _ ht => ht.serve hx _ _)
  | crash i hk => cases hconn
  | reply hx hst => exact h.congr rfl rfl h.reading rfl same (fun _ ht => ht.reply hx _ hconn)
  | disconnect => cases hconn
  | kill => cases hconn

end live

theorem Stepped.connected {f : ServeRequest σ β} {s s' : State σ β} {a : Action β}
    (h : Stepped f s a s') (hconn : s'.connected = true) : s.connected = true := by
  cases h with
  | read hr hm =>
      unfold State.answer at hconn
      split at hconn <;> exact hconn
  | drain hr ht =>
      unfold State.answer at hconn
      split at hconn <;> exact hconn
  | close hcl => cases hconn
  | crash i hk => cases hconn
  | disconnect => cases hconn
  | kill => cases hconn
  | _ => exact hconn

theorem reachable_live {f : ServeRequest σ β} {server : σ} {s : State σ β}
    (h : (system f server).ReachableBy Few s) (hconn : s.connected = true) : Live s := by
  refine h.invariant (I := fun s => s.connected = true → Live s) ?_ ?_ hconn
  · exact fun _ => ⟨rfl, rfl, rfl, by simp [system, State.init]⟩
  · intro s a s' hr ih _ hs hconn'
    have hstep := State.step_cases hs
    exact (ih (hstep.connected hconn')).step (reachable_inv hr) hstep hconn'

/-! ### Calls that have not returned -/

/-- The internal steps but for the return of a `ServeRequest`. -/
def Action.prompt : Action β → Bool
  | .serve _ => false
  | a => a.internal

/-- The connection stands, and the `ServeRequest` for the call has not returned. -/
def Call.Unserved (s : State σ β) (c : Call β) : Prop :=
  s.connected = true ∧ ∃ x ∈ s.tasks, x.tag = c.tag ∧ x.stage = .started

section enabled

variable {f : ServeRequest σ β} {server : σ} {s : State σ β}

/-- A call that waits is in the map, unless its answer is being handed over. -/
theorem MapOk.mem_of_waiting (h : MapOk s) {n : ℕ} {c : Call β} (hc : s.calls[n]? = some c)
    (hst : c.stage = .waiting) (hr : ∀ a back, s.reader ≠ .delivering n a back) :
    n ∈ s.entries := by
  rcases h.held n ⟨c, hc, Or.inr hst⟩ with hn | ⟨a, back, hd⟩
  · exact hn
  · exact absurd hd (hr a back)

/-- A call goes on by itself until it waits. -/
theorem enabled_early (hrun : s.exited = false) {n : ℕ} {c : Call β} (hc : s.calls[n]? = some c)
    (hst : c.stage = .tagged ∨ c.stage = .registered) :
    ∃ a : Action β, a.prompt = true ∧ s.step f a ≠ none := by
  rcases hst with hst | hst
  · exact ⟨.register n, rfl, by simp [State.step, hrun, hc, hst]⟩
  · exact ⟨.write n, rfl, by simp [State.step, hrun, hc, hst]⟩

/-- A request in flight goes on, unless it is being served. -/
theorem enabled_inFlight (hrun : s.exited = false) (hlive : Live s) (hr : s.reader = .reading)
    {t : Ttag} (h : InFlight s t) : (∃ a : Action β, a.prompt = true ∧ s.step f a ≠ none) ∨
      ∃ x ∈ s.tasks, x.tag = t ∧ x.stage = .started := by
  rcases h with ⟨q, hq, -⟩ | ⟨x, hx, ht, hact⟩ | ⟨p, hp, -⟩
  · cases hreq : s.requests with
    | nil => simp [hreq] at hq
    | cons m l =>
        exact Or.inl ⟨.srvRead, rfl, by simp [State.step, hrun, hlive.alive, hlive.serving, hreq]⟩
  · obtain ⟨i, hi⟩ := List.mem_iff_getElem?.mp hx
    cases hxs : x.stage with
    | started => exact Or.inr ⟨x, hx, ht, hxs⟩
    | served r =>
        exact Or.inl ⟨.reply i, rfl, by simp [State.step, hrun, hi, hlive.alive, hxs]⟩
    | replied r => exact absurd hxs (hact r)
  · cases hrep : s.replies with
    | nil => simp [hrep] at hp
    | cons m l => exact Or.inl ⟨.read, rfl, by simp [State.step, hrun, hr, hrep]⟩

/-- A call that has not returned can go on, or one of the goroutines it waits for, or it waits for
its `ServeRequest`. -/
theorem enabled (h : (system f server).ReachableBy Few s) {n : ℕ} {c : Call β}
    (hc : s.calls[n]? = some c) (hopen : ∀ a, c.stage ≠ .returned a) :
    (∃ a : Action β, a.prompt = true ∧ s.step f a ≠ none) ∨ c.Unserved s := by
  have hi := reachable_inv h
  have hrun := hi.running
  cases hst : c.stage with
  | tagged => exact Or.inl (enabled_early hrun hc (Or.inl hst))
  | registered => exact Or.inl (enabled_early hrun hc (Or.inr hst))
  | returned a => exact absurd hst (hopen a)
  | waiting =>
      cases hr : s.reader with
      | delivering m a back =>
          obtain ⟨-, d, hd, hdst | hdst⟩ := hi.map.delivering m a back hr
          · exact Or.inl (enabled_early hrun hd (Or.inr hdst))
          · exact Or.inl ⟨.deliver, rfl, by simp [State.step, hrun, hr, hd, hdst]⟩
      | draining ts =>
          cases ts with
          | nil => exact Or.inl ⟨.finish, rfl, by simp [State.step, hrun, hr]⟩
          | cons t ts => exact Or.inl ⟨.drain 0, rfl, by simp [State.step, hrun, hr]⟩
      | ended =>
          have hn := hi.map.mem_of_waiting hc hst (by simp [hr])
          have hempty := (hi.map.rest [] (by rw [hr]; rfl)).2.symm.eq_nil
          rw [List.map_eq_nil_iff] at hempty
          simp [hempty] at hn
      | reading =>
          cases hconn : s.connected with
          | false => exact Or.inl ⟨.fail, rfl, by simp [State.step, hrun, hr, hconn]⟩
          | true =>
              have hlive := reachable_live h hconn
              have hn := hi.map.mem_of_waiting hc hst (by simp [hr])
              rcases enabled_inFlight hrun hlive hr (hlive.waiting n c hc hst hn) with
                hstep | ⟨x, hx, ht, hxs⟩
              · exact Or.inl hstep
              · exact Or.inr ⟨hconn, x, hx, ht.trans (hi.tags.tag n c hc).symm, hxs⟩

/-- A `ServeRequest` that has not returned can do so. -/
theorem Call.Unserved.step_serve_ne_none {c : Call β} (h : (system f server).ReachableBy Few s)
    (hc : c.Unserved s) : ∃ i, s.step f (.serve i) ≠ none := by
  obtain ⟨hconn, x, hx, -, hxs⟩ := hc
  obtain ⟨i, hi⟩ := List.mem_iff_getElem?.mp hx
  refine ⟨i, ?_⟩
  simp only [State.step, (reachable_inv h).running, hi, (reachable_live h hconn).alive, hxs,
    Bool.false_eq_true, if_false, Option.bind_eq_bind, Option.bind_some]
  split <;> simp

end enabled

/-! ### Every call returns -/

/-! How many steps both ends can still take by themselves.  A call on its way pays for its place in
the map, which the reader may have to answer, and for its request; a request pays for its task, and
a task for its reply. -/

def Stage.rank : Stage β → ℕ
  | .tagged => 9
  | .registered => 6
  | .waiting | .returned _ => 0

def TaskStage.rank : TaskStage β → ℕ
  | .started => 4
  | .served _ => 3
  | .replied _ => 0

/-- The steps of the reader, with `k` calls in the map. -/
def Reader.rank (k : ℕ) : Reader β → ℕ
  | .reading => 2 + 2 * k
  | .delivering _ _ none => 3 + 2 * k
  | .delivering _ _ (some ts) => 2 + 2 * ts.length
  | .draining ts => 1 + 2 * ts.length
  | .ended => 0

def Call.rank (c : Call β) : ℕ := c.stage.rank

def Task.rank (x : Task β) : ℕ := x.stage.rank

/-- A bound on the steps both ends can still take by themselves. -/
def State.work (s : State σ β) : ℕ :=
  (s.calls.map Call.rank).sum + 5 * s.requests.length + (s.tasks.map Task.rank).sum +
    2 * s.replies.length + s.reader.rank s.callmap.length + s.serving.toNat +
    (!s.killed).toNat + (!s.exited).toNat

theorem Reader.rank_mono (r : Reader β) {k l : ℕ} (h : k ≤ l) : r.rank k ≤ r.rank l := by
  cases r with
  | delivering n a back => cases back <;> simp [Reader.rank, h]
  | _ => simp [Reader.rank, h]

theorem Reader.rank_succ_le (r : Reader β) (k : ℕ) : r.rank (k + 1) ≤ r.rank k + 2 := by
  cases r with
  | delivering n a back =>
      cases back <;> simp only [Reader.rank] <;> omega
  | _ =>
      simp only [Reader.rank]
      omega

/-- The reader takes a call from the map, or the process ends. -/
theorem work_answer {s : State σ β} (hrun : s.exited = false) (t : Ttag)
    {a : Option (β × Bool)} (back : Option (List Ttag)) {k : ℕ}
    (hk : ∀ n, (Reader.delivering n a back).rank s.callmap.length + 1 ≤
      s.reader.rank s.callmap.length + k) : (s.answer t a back).work < s.work + k := by
  unfold State.answer
  split
  · rename_i n hn
    have hle := Reader.rank_mono (.delivering n a back) (List.length_filter_le (fun e => e.1 != t)
      s.callmap)
    have := hk n
    simp only [State.work]
    omega
  · simp only [State.work, hrun, Bool.not_false, Bool.not_true, Bool.toNat_true, Bool.toNat_false]
    omega

/-- Every step of the two ends leaves less work. -/
theorem Stepped.work {f : ServeRequest σ β} {s s' : State σ β} {a : Action β}
    (h : Stepped f s a s') (hint : a.internal = true) (hrun : s.exited = false) :
    s'.work < s.work := by
  cases h with
  | send req => cases hint
  | close hcl => cases hint
  | disconnect => cases hint
  | kill => cases hint
  | @refuse n c hc hst hcl =>
      have := sum_map_set_lt (f := Call.rank) hc
        (b := { c with stage := .returned none }) (by simp [Call.rank, hst, Stage.rank])
      simp only [State.work, State.ret]
      omega
  | @register n c hc hst hcl =>
      have hsum := sum_map_set (f := Call.rank) hc
        { c with stage := .registered }
      have hmap := (s.reader.rank_mono (Nat.succ_le_succ (List.length_filter_le
        (fun e => e.1 != c.tag) s.callmap))).trans (s.reader.rank_succ_le _)
      simp only [Call.rank, hst, Stage.rank] at hsum
      simp only [State.work, State.register, List.length_cons, Nat.succ_eq_add_one] at hmap ⊢
      omega
  | @write n c hc hst =>
      have hsum := sum_map_set (f := Call.rank) hc
        { c with stage := .waiting }
      have hreq : (s.write n c).requests.length ≤ s.requests.length + 1 := by
        rw [State.write_requests]
        split <;> simp
      simp only [Call.rank, hst, Stage.rank] at hsum
      simp only [State.write_requests] at hreq
      simp only [State.work, State.write] at hreq ⊢
      omega
  | @read m l hr hm =>
      have hrep : State.work { s with replies := l } + 2 = s.work := by
        simp only [State.work, hm, List.length_cons]
        omega
      have := work_answer (s := { s with replies := l }) hrun m.tag (a := some (m.data, m.ok)) none
        (k := 2) (by simp only [hr, Reader.rank]; omega)
      omega
  | fail hr hd =>
      simp only [State.work, hr, Reader.rank, List.length_map]
      omega
  | @drain ts i t hr ht =>
      have hlt : i < ts.length := (List.getElem?_eq_some_iff.mp ht).1
      have := work_answer (s := s) hrun t (a := none) (some (ts.eraseIdx i)) (k := 0)
        (by simp only [hr, Reader.rank, List.length_eraseIdx, hlt, if_true]; omega)
      omega
  | finish hr =>
      simp only [State.work, hr, Reader.rank]
      omega
  | @deliver n a back c hr hc hst =>
      have hsum := sum_map_set (f := Call.rank) hc
        { c with stage := .returned a }
      have hrd : (State.resumed back : Reader β).rank s.callmap.length <
          (Reader.delivering n a back).rank s.callmap.length := by
        cases back <;> simp only [State.resumed, Reader.rank] <;> omega
      simp only [Call.rank, hst, Stage.rank] at hsum
      simp only [State.work, State.ret, hr]
      omega
  | @srvRead m l hk hsv hm =>
      simp only [State.work, hm, List.length_cons, List.map_append, List.map_singleton,
        List.sum_append, List.sum_singleton, Task.rank, TaskStage.rank]
      omega
  | srvFail hd hsv =>
      simp only [State.work, hsv, Bool.toNat_true, Bool.toNat_false]
      omega
  | @serve i x server r hx hst hf =>
      have := sum_map_set_lt (f := Task.rank) hx
        (b := { x with stage := .served r }) (by simp [Task.rank, hst, TaskStage.rank])
      simp only [State.work, State.serve]
      omega
  | crash i hk =>
      simp only [State.work, State.kill, hk, Bool.not_false, Bool.not_true, Bool.toNat_true,
        Bool.toNat_false]
      omega
  | @reply i x r hx hst =>
      have hsum := sum_map_set (f := Task.rank) hx
        { x with stage := .replied r }
      have hrep : (s.reply i x r).replies.length ≤ s.replies.length + 1 := by
        rw [State.reply_replies]
        split <;> simp
      simp only [Task.rank, hst, TaskStage.rank] at hsum
      simp only [State.work, State.reply] at hrep ⊢
      omega

/-- The steps both ends take by themselves. -/
def Internal (_ : State σ β) (a : Action β) : Prop := a.internal = true

instance (s : State σ β) (a : Action β) : Decidable (Internal s a) :=
  inferInstanceAs (Decidable (a.internal = true))

/-- **Every call returns, unless its `ServeRequest` does not.**  From every state, whether the
connection still stands or not, the two ends take at most `work` steps by themselves.  When none is
left but the return of `ServeRequest`s, every call has returned, or the connection stands and the
`ServeRequest` for its own request has not returned.  When these have returned as well, every call
has returned. -/
theorem demux_calls_return {f : ServeRequest σ β} {server : σ} {s t : State σ β}
    (hs : (system f server).ReachableBy Few s) {l : List (Action β)}
    (ht : (system f server).exec Internal s l = some t) :
    l.length ≤ s.work ∧ ((∀ a : Action β, a.prompt = true → t.step f a = none) →
      (∀ c ∈ t.calls, (∃ a, c.stage = .returned a) ∨ c.Unserved t) ∧
      ((∀ i, t.step f (.serve i) = none) → ∀ c ∈ t.calls, ∃ a, c.stage = .returned a)) := by
  have hreach : (system f server).ReachableBy Few t := by
    refine hs.trans ((Lts.ReachesBy.of_exec .refl ht).mono ?_)
    intro s a ha
    cases a with
    | send req => cases ha
    | _ => trivial
  refine ⟨?_, ?_⟩
  · have hwork : ∀ (s : State σ β) a s', Internal s a → (system f server).step s a = some s' →
        s'.work < s.work := by
      intro s a s' hi hst
      refine (State.step_cases hst).work hi ?_
      cases he : s.exited with
      | false => rfl
      | true => simp [system, State.step, he] at hst
    have := Lts.length_add_le_of_exec hwork ht
    omega
  · intro hstuck
    have hcases : ∀ c ∈ t.calls, (∃ a, c.stage = .returned a) ∨ c.Unserved t := by
      intro c hc
      obtain ⟨n, hn⟩ := List.mem_iff_getElem?.mp hc
      by_contra hopen
      rw [not_or] at hopen
      rcases enabled hreach hn (fun r hr => hopen.1 ⟨r, hr⟩) with ⟨a, ha, hne⟩ | hunserved
      · exact hne (hstuck a ha)
      · exact hopen.2 hunserved
    refine ⟨hcases, ?_⟩
    intro hserved c hc
    rcases hcases c hc with hret | hunserved
    · exact hret
    · obtain ⟨i, hne⟩ := hunserved.step_serve_ne_none hreach
      exact absurd (hserved i) hne

theorem demux_calls_return_overtaken : ∃ s t : State ℕ ℕ,
    (system adder 0).ReachableBy Few s ∧
    (system adder 0).exec Internal s (overtaken.drop 14) = some t ∧
    (overtaken.drop 14).length ≤ s.work ∧
      ((∀ a : Action ℕ, a.prompt = true → t.step adder a = none) →
        (∀ c ∈ t.calls, (∃ a, c.stage = .returned a) ∨ c.Unserved t) ∧
        ((∀ i, t.step adder (.serve i) = none) → ∀ c ∈ t.calls, ∃ a, c.stage = .returned a)) := by
  obtain ⟨s, hs, hp⟩ := Lts.exists_of_exec (L := system adder 0) (C := Few)
    (p := fun s => ((system adder 0).exec Internal s (overtaken.drop 14)).isSome)
    (overtaken.take 14) (by decide)
  obtain ⟨t, ht⟩ := Option.isSome_iff_exists.mp hp
  exact ⟨s, t, hs, ht, demux_calls_return hs ht⟩

end DistributedSystems.Demux
