import DistributedSystems.DemuxTags

/-! # Messages and tasks on a shared connection

A request is written once, read once by the server, served by one task and replied to once.  So at
any time a written request whose call is in the map is at most one message or one unfinished task
(`Traffic`), and no reply arrives for which no call waits.  With the tags and the map this makes
the invariant of the connection (`Inv`). -/

namespace DistributedSystems.Demux

variable {σ β : Type}

/-! ### Messages and tasks -/

/-- A call in this stage has written its request, or never will. -/
def Stage.Written (stage : Stage β) : Prop := stage = .waiting ∨ ∃ a, stage = .returned a

/-- The tag and the data are those of a call that has written its request. -/
def Concerns (calls : List (Call β)) (t : Ttag) (data : β) : Prop :=
  ∃ n c, calls[n]? = some c ∧ t = tagOf n ∧ data = c.req ∧ c.stage.Written

/-- A task has replied `r` under the tag. -/
def Replied (tasks : List (Task β)) (t : Ttag) (r : β × Bool) : Prop :=
  ∃ x ∈ tasks, x.tag = t ∧ x.stage = .replied r

/-- A request with this tag is on its way, at the server, or its reply is on its way back. -/
def InFlight (s : State σ β) (t : Ttag) : Prop :=
  (∃ m ∈ s.requests, m.tag = t) ∨ (∃ x ∈ s.tasks, x.tag = t ∧ ∀ r, x.stage ≠ .replied r) ∨
    ∃ m ∈ s.replies, m.tag = t

/-- Every message and every task belongs to one call, and as long as the reader reads, each of them
that is still to be answered has its call in the map. -/
structure Traffic (s : State σ β) : Prop where
  request : ∀ m ∈ s.requests, Concerns s.calls m.tag m.data
  task : ∀ x ∈ s.tasks, Concerns s.calls x.tag x.req
  once : (s.requests.map Msg.tag ++ s.tasks.map Task.tag).Nodup
  reply : ∀ m ∈ s.replies, Replied s.tasks m.tag (m.data, m.ok)
  replies_once : (s.replies.map Msg.tag).Nodup
  delivering : ∀ n a back, s.reader = .delivering n a back →
    (back = none → a ≠ none) ∧ ∀ r, a = some r → Replied s.tasks (tagOf n) r
  inMap : s.reader.rest = none → ∀ t, InFlight s t → ∃ n ∈ s.entries, t = tagOf n

theorem Stepped.concerns {f : ServeRequest σ β} {s s' : State σ β} {a : Action β}
    (h : Stepped f s a s') {t : Ttag} {data : β} (hc : Concerns s.calls t data) :
    Concerns s'.calls t data := by
  obtain ⟨n, c, hc, ht, hd, hw⟩ := hc
  have hlt : n < s'.calls.length := by
    have := (List.getElem?_eq_some_iff.mp hc).1
    rcases h.send_or with ⟨req, -, rfl⟩ | ⟨hlen, -⟩
    · simp only [State.send_calls, List.length_append, List.length_singleton]
      omega
    · omega
  obtain ⟨c', hc'⟩ : ∃ c', s'.calls[n]? = some c' := ⟨_, List.getElem?_eq_getElem hlt⟩
  refine ⟨n, c', hc', ht, ?_⟩
  cases h.callStep hc' with
  | same h₁ =>
      rw [hc, Option.some.injEq] at h₁
      rw [← h₁]
      exact ⟨hd, hw⟩
  | new req hn => simp [hn] at hc
  | @moved d stage hd' hm =>
      rw [hc, Option.some.injEq] at hd'
      subst hd'
      refine ⟨hd, ?_⟩
      rcases hw with hw | ⟨a, hw⟩
      · rw [hw] at hm
        cases hm
        exact Or.inr ⟨_, rfl⟩
      · rw [hw] at hm
        cases hm

section traffic

variable {s : State σ β}

/-- Two tasks do not share a tag. -/
theorem Traffic.task_unique (h : Traffic s) {x y : Task β} (hx : x ∈ s.tasks) (hy : y ∈ s.tasks)
    (ht : x.tag = y.tag) : x = y :=
  List.inj_on_of_nodup_map h.once.of_append_right hx hy ht

/-- The other messages and tasks have other tags than a reply. -/
theorem Traffic.ne_of_reply (h : Traffic s) {m : Msg β} {l : List (Msg β)}
    (hm : s.replies = m :: l) {t : Ttag} (ht : InFlight { s with replies := l } t) : t ≠ m.tag := by
  obtain ⟨x, hx, hxt, hst⟩ := h.reply m (by simp [hm])
  rcases ht with ⟨q, hq, rfl⟩ | ⟨y, hy, rfl, hact⟩ | ⟨p, hp, rfl⟩
  · intro he
    exact List.disjoint_of_nodup_append h.once (List.mem_map_of_mem (f := Msg.tag) hq)
      (he ▸ hxt ▸ List.mem_map_of_mem (f := Task.tag) hx)
  · intro he
    have hyx := h.task_unique hy hx (he.trans hxt.symm)
    subst hyx
    exact hact _ hst
  · have hnodup := h.replies_once
    rw [hm, List.map_cons, List.nodup_cons] at hnodup
    intro he
    exact hnodup.1 (he ▸ List.mem_map_of_mem (f := Msg.tag) hp)

/-- A step that leaves the messages and the tasks. -/
theorem Traffic.congr {f : ServeRequest σ β} {s' : State σ β} {a : Action β} (h : Traffic s)
    (hs : Stepped f s a s') (hq : s'.requests = s.requests) (ht : s'.tasks = s.tasks)
    (hp : s'.replies = s.replies)
    (hdel : ∀ n a back, s'.reader = .delivering n a back →
      (back = none → a ≠ none) ∧ ∀ r, a = some r → Replied s.tasks (tagOf n) r)
    (hmap : s'.reader.rest = none → s.reader.rest = none ∧ ∀ n ∈ s.entries, n ∈ s'.entries) :
    Traffic s' where
  request m hm := hs.concerns (h.request m (hq ▸ hm))
  task x hx := hs.concerns (h.task x (ht ▸ hx))
  once := by rw [hq, ht]; exact h.once
  reply m hm := by rw [ht]; exact h.reply m (hp ▸ hm)
  replies_once := by rw [hp]; exact h.replies_once
  delivering n a back hr := by rw [ht]; exact hdel n a back hr
  inMap hr t hfl := by
    obtain ⟨hr', hsub⟩ := hmap hr
    rw [InFlight, hq, ht, hp] at hfl
    obtain ⟨n, hn, htn⟩ := h.inMap hr' t hfl
    exact ⟨n, hsub n hn, htn⟩

/-- A request that is written has a tag no message and no task has. -/
theorem Traffic.fresh (h : Traffic s) (hT : Tags s) {n : ℕ} {c : Call β}
    (hc : s.calls[n]? = some c) (hst : c.stage = .registered) :
    tagOf n ∉ s.requests.map Msg.tag ++ s.tasks.map Task.tag := by
  have key : ∀ {t : Ttag} {d : β}, Concerns s.calls t d → t ≠ tagOf n := by
    rintro t d ⟨m, e, he, rfl, -, hw⟩ ht
    have := hT.inj he hc ht
    subst this
    rw [hc, Option.some.injEq] at he
    subst he
    rcases hw with hw | ⟨a, hw⟩ <;> rw [hst] at hw <;> cases hw
  intro hmem
  rcases List.mem_append.mp hmem with hmem | hmem
  · obtain ⟨m, hm, he⟩ := List.mem_map.mp hmem
    exact key (h.request m hm) he
  · obtain ⟨x, hx, he⟩ := List.mem_map.mp hmem
    exact key (h.task x hx) he

theorem Traffic.write {f : ServeRequest σ β} (h : Traffic s) (hT : Tags s) (hM : MapOk s) {n : ℕ}
    {c : Call β} (hc : s.calls[n]? = some c) (hst : c.stage = .registered)
    (hs : Stepped f s (.write n) (s.write n c)) : Traffic (s.write n c) := by
  have htag := hT.tag n c hc
  have hfresh := h.fresh hT hc hst
  cases hconn : s.connected with
  | false =>
      exact h.congr hs (by simp [hconn]) rfl rfl h.delivering (fun hr => ⟨hr, fun _ hn => hn⟩)
  | true =>
      have hreq : (s.write n c).requests = s.requests ++ [⟨tagOf n, c.req, true⟩] := by
        simp [hconn, htag]
      have hnew : Concerns (s.write n c).calls (tagOf n) c.req :=
        ⟨n, { c with stage := .waiting }, by simp [(List.getElem?_eq_some_iff.mp hc).1], rfl, rfl,
          Or.inl rfl⟩
      constructor
      · intro m hm
        rw [hreq, List.mem_append, List.mem_singleton] at hm
        rcases hm with hm | rfl
        · exact hs.concerns (h.request m hm)
        · exact hnew
      · exact fun x hx => hs.concerns (h.task x hx)
      · rw [hreq, List.map_append, List.append_assoc]
        exact (List.nodup_middle).mpr (List.nodup_cons.mpr ⟨hfresh, h.once⟩)
      · exact h.reply
      · exact h.replies_once
      · exact h.delivering
      · intro hr t hfl
        rw [InFlight, hreq] at hfl
        have hcase : InFlight s t ∨ t = tagOf n := by
          rcases hfl with ⟨m, hm, rfl⟩ | hfl
          · rw [List.mem_append, List.mem_singleton] at hm
            rcases hm with hm | rfl
            · exact Or.inl (Or.inl ⟨m, hm, rfl⟩)
            · exact Or.inr rfl
          · exact Or.inl (Or.inr hfl)
        rcases hcase with hfl | rfl
        · exact h.inMap hr t hfl
        · -- the reader does not hold an answer for a request that was not written
          rcases hM.held n ((openAt_iff hc).mpr (Or.inl hst)) with hn | ⟨a, back, hd⟩
          · exact ⟨n, hn, rfl⟩
          · exfalso
            rw [State.write_reader] at hr
            cases back with
            | some ts =>
                rw [hd] at hr
                cases hr
            | none =>
                obtain ⟨hne, hrep⟩ := h.delivering n a none hd
                obtain ⟨r, rfl⟩ := Option.ne_none_iff_exists'.mp (hne rfl)
                obtain ⟨x, hx, hxt, -⟩ := hrep r rfl
                exact hfresh (List.mem_append_right _ (hxt ▸ List.mem_map_of_mem hx))

theorem Traffic.srvRead (h : Traffic s) {m : Msg β} {l : List (Msg β)}
    (hm : s.requests = m :: l) :
    Traffic { s with requests := l, tasks := s.tasks ++ [⟨m.tag, m.data, .started⟩] } := by
  have hrep : ∀ {t : Ttag} {r : β × Bool}, Replied s.tasks t r →
      Replied (s.tasks ++ [⟨m.tag, m.data, .started⟩]) t r := by
    rintro t r ⟨x, hx, hxr⟩
    exact ⟨x, List.mem_append_left _ hx, hxr⟩
  constructor
  · exact fun q hq => h.request q (by rw [hm]; exact List.mem_cons_of_mem _ hq)
  · intro x hx
    rcases List.mem_append.mp hx with hx | hx
    · exact h.task x hx
    · rw [List.mem_singleton.mp hx]
      exact h.request m (by simp [hm])
  · have hperm : (s.requests.map Msg.tag ++ s.tasks.map Task.tag).Perm
        (l.map Msg.tag ++ (s.tasks ++ [(⟨m.tag, m.data, .started⟩ : Task β)]).map Task.tag) := by
      rw [hm, List.map_cons, List.map_append, ← List.append_assoc]
      exact (List.perm_append_singleton _ _).symm
    exact hperm.nodup_iff.mp h.once
  · exact fun p hp => hrep (h.reply p hp)
  · exact h.replies_once
  · intro n a back hd
    obtain ⟨h₁, h₂⟩ := h.delivering n a back hd
    exact ⟨h₁, fun r hr => hrep (h₂ r hr)⟩
  · intro hr t hfl
    refine h.inMap hr t ?_
    rcases hfl with ⟨q, hq, rfl⟩ | ⟨x, hx, rfl, hact⟩ | hfl
    · exact Or.inl ⟨q, by rw [hm]; exact List.mem_cons_of_mem _ hq, rfl⟩
    · rcases List.mem_append.mp hx with hx | hx
      · exact Or.inr (Or.inl ⟨x, hx, rfl, hact⟩)
      · rw [List.mem_singleton.mp hx]
        exact Or.inl ⟨m, by simp [hm], rfl⟩
    · exact Or.inr (Or.inr hfl)

/-- A task that has not replied changes its stage. -/
theorem Replied.set {tasks : List (Task β)} {i : ℕ} {x : Task β} (hx : tasks[i]? = some x)
    (hact : ∀ r, x.stage ≠ .replied r) {stage : TaskStage β} {t : Ttag} {r : β × Bool}
    (h : Replied tasks t r) : Replied (tasks.set i { x with stage := stage }) t r := by
  obtain ⟨y, hy, hyt, hst⟩ := h
  rcases eq_or_mem_set (b := { x with stage := stage }) hx hy with rfl | hy
  · exact absurd hst (hact r)
  · exact ⟨y, hy, hyt, hst⟩

theorem map_tag_set {tasks : List (Task β)} {i : ℕ} {x : Task β} (hx : tasks[i]? = some x)
    (stage : TaskStage β) :
    (tasks.set i { x with stage := stage }).map Task.tag = tasks.map Task.tag :=
  map_set_of_eq hx rfl

theorem Traffic.serve (h : Traffic s) {i : ℕ} {x : Task β} (hx : s.tasks[i]? = some x)
    (hst : x.stage = .started) (server : σ) (r : β × Bool) : Traffic (s.serve i x server r) := by
  have hact : ∀ r, x.stage ≠ .replied r := by simp [hst]
  have hmem := List.mem_of_getElem? hx
  constructor
  · exact h.request
  · intro y hy
    rcases (List.mem_or_eq_of_mem_set hy).symm with rfl | hy
    · exact h.task x hmem
    · exact h.task y hy
  · rw [State.serve_tasks, map_tag_set hx]
    exact h.once
  · exact fun m hm => (h.reply m hm).set hx hact
  · exact h.replies_once
  · intro n a back hd
    obtain ⟨h₁, h₂⟩ := h.delivering n a back hd
    exact ⟨h₁, fun r hr => (h₂ r hr).set hx hact⟩
  · intro hr t hfl
    refine h.inMap hr t ?_
    rcases hfl with hfl | ⟨y, hy, rfl, hact'⟩ | hfl
    · exact Or.inl hfl
    · rcases (List.mem_or_eq_of_mem_set hy).symm with rfl | hy
      · exact Or.inr (Or.inl ⟨x, hmem, rfl, hact⟩)
      · exact Or.inr (Or.inl ⟨y, hy, rfl, hact'⟩)
    · exact Or.inr (Or.inr hfl)

theorem Traffic.reply_step (h : Traffic s) {i : ℕ} {x : Task β} {r : β × Bool}
    (hx : s.tasks[i]? = some x) (hst : x.stage = .served r) : Traffic (s.reply i x r) := by
  have hact : ∀ r, x.stage ≠ .replied r := by simp [hst]
  have hmem := List.mem_of_getElem? hx
  have hlt : i < s.tasks.length := (List.getElem?_eq_some_iff.mp hx).1
  have hnew : Replied (s.reply i x r).tasks x.tag r :=
    ⟨{ x with stage := .replied r }, List.mem_set hlt _, rfl, rfl⟩
  have hreplies : ∀ m ∈ (s.reply i x r).replies, m ∈ s.replies ∨ m = ⟨x.tag, r.1, r.2⟩ := by
    intro m hm
    rw [State.reply_replies] at hm
    split at hm
    · simpa using hm
    · exact Or.inl hm
  constructor
  · exact h.request
  · intro y hy
    rcases (List.mem_or_eq_of_mem_set hy).symm with rfl | hy
    · exact h.task x hmem
    · exact h.task y hy
  · rw [State.reply_tasks, map_tag_set hx]
    exact h.once
  · intro m hm
    rcases hreplies m hm with hm | rfl
    · exact (h.reply m hm).set hx hact
    · exact hnew
  · rw [State.reply_replies]
    split
    · rw [List.map_append, List.map_singleton]
      refine List.nodup_append.mpr ⟨h.replies_once, List.nodup_singleton _, ?_⟩
      rintro t ht t' ht' rfl
      rw [List.mem_singleton] at ht'
      subst ht'
      obtain ⟨m, hm, he⟩ := List.mem_map.mp ht
      obtain ⟨y, hy, hyt, hyst⟩ := h.reply m hm
      have hyx := h.task_unique hy hmem (hyt.trans he)
      subst hyx
      exact hact _ hyst
    · exact h.replies_once
  · intro n a back hd
    obtain ⟨h₁, h₂⟩ := h.delivering n a back hd
    exact ⟨h₁, fun r hr => (h₂ r hr).set hx hact⟩
  · intro hr t hfl
    refine h.inMap hr t ?_
    rcases hfl with hfl | ⟨y, hy, rfl, hact'⟩ | ⟨m, hm, rfl⟩
    · exact Or.inl hfl
    · rcases (List.mem_or_eq_of_mem_set hy).symm with rfl | hy
      · exact absurd rfl (hact' r)
      · exact Or.inr (Or.inl ⟨y, hy, rfl, hact'⟩)
    · rcases hreplies m hm with hm | rfl
      · exact Or.inr (Or.inr ⟨m, hm, rfl⟩)
      · exact Or.inr (Or.inl ⟨x, hmem, rfl, hact⟩)

theorem Traffic.read (h : Traffic s) (hT : Tags s) (hM : MapOk s) {m : Msg β} {l : List (Msg β)}
    (hr : s.reader = .reading) (hm : s.replies = m :: l) {n : ℕ} (hn : n ∈ s.entries)
    (ht : m.tag = tagOf n) :
    Traffic ({ s with replies := l }.take n (some (m.data, m.ok)) none) := by
  have hmem : ∀ p ∈ l, p ∈ s.replies := by
    intro p hp
    rw [hm]
    exact List.mem_cons_of_mem _ hp
  constructor
  · exact h.request
  · exact h.task
  · exact h.once
  · exact fun p hp => h.reply p (hmem p hp)
  · have := h.replies_once
    rw [hm, List.map_cons, List.nodup_cons] at this
    exact this.2
  · rintro k a back ⟨⟩
    refine ⟨by simp, ?_⟩
    rintro r ⟨⟩
    exact ht ▸ h.reply m (by simp [hm])
  · intro _ t hfl
    have hne := h.ne_of_reply hm hfl
    have hfl' : InFlight s t := by
      rcases hfl with hfl | hfl | ⟨p, hp, rfl⟩
      · exact Or.inl hfl
      · exact Or.inr (Or.inl hfl)
      · exact Or.inr (Or.inr ⟨p, hmem p hp, rfl⟩)
    obtain ⟨k, hk, rfl⟩ := h.inMap (by rw [hr]; rfl) t hfl'
    refine ⟨k, ?_, rfl⟩
    have hent : ({ s with replies := l }.take n (some (m.data, m.ok)) none).entries =
        (s.take n (some (m.data, m.ok)) none).entries := rfl
    rw [hent, hM.entries_take hT hn]
    refine (List.mem_erase_of_ne ?_).mpr hk
    rintro rfl
    exact hne ht.symm

theorem Traffic.answerable (h : Traffic s) : Answerable s := by
  intro hr m hm
  exact h.inMap (by rw [hr]; rfl) m.tag (Or.inr (Or.inr ⟨m, hm, rfl⟩))

theorem Traffic.step {f : ServeRequest σ β} {s' : State σ β} {a : Action β} (h : Traffic s)
    (hT : Tags s) (hM : MapOk s) (hs : Stepped f s a s') : Traffic s' := by
  have same : s.reader.rest = none → s.reader.rest = none ∧ ∀ n ∈ s.entries, n ∈ s.entries :=
    fun hr => ⟨hr, fun _ hn => hn⟩
  have hs' := hs
  cases hs with
  | send req => exact h.congr hs' rfl rfl rfl h.delivering same
  | refuse hc hst hcl => exact h.congr hs' rfl rfl rfl h.delivering same
  | @register n c hc hst hcl =>
      refine h.congr hs' rfl rfl rfl h.delivering (fun hr => ⟨hr, fun k hk => ?_⟩)
      obtain ⟨d, hd, hopen⟩ := hM.entry k hk
      refine mem_entries.mpr ⟨tagOf k, ?_⟩
      rw [State.register_callmap, hT.tag n c hc, List.mem_cons, List.mem_filter, bne_iff_ne]
      refine Or.inr ⟨hM.mem_callmap hk, ?_⟩
      intro ht
      have := hT.inj hd hc ht
      subst this
      rw [hc, Option.some.injEq] at hd
      simp [← hd, hst, Stage.IsOpen] at hopen
  | write hc hst => exact h.write hT hM hc hst hs'
  | read hr hm =>
      obtain ⟨n, hn, ht, he, -⟩ := hM.read hT h.answerable hr hm
      rw [he]
      exact h.read hT hM hr hm hn ht
  | fail hr hd => exact h.congr hs' rfl rfl rfl (by simp) (by simp [Reader.rest])
  | drain hr ht =>
      obtain ⟨n, -, he, -⟩ := hM.drain hT hr ht
      rw [he] at hs' ⊢
      refine h.congr hs' rfl rfl rfl ?_ (by simp [Reader.rest])
      rintro k a back ⟨⟩
      exact ⟨by simp, by simp⟩
  | finish hr => exact h.congr hs' rfl rfl rfl (by simp) (by simp [Reader.rest])
  | @deliver n a back c hr hc hst =>
      refine h.congr hs' rfl rfl rfl ?_ ?_
      · intro k a' back' hd
        cases back <;> simp [State.resumed] at hd
      · intro hrest
        refine ⟨?_, fun _ hk => hk⟩
        rw [hr]
        cases back with
        | none => rfl
        | some ts => cases hrest
  | close hcl => exact h.congr hs' rfl rfl rfl h.delivering same
  | srvRead hk hsv hm => exact h.srvRead hm
  | srvFail hd hsv => exact h.congr hs' rfl rfl rfl h.delivering same
  | serve hx hst hf => exact h.serve hx hst _ _
  | crash i hk => exact h.congr hs' rfl rfl rfl h.delivering same
  | reply hx hst => exact h.reply_step hx hst
  | disconnect => exact h.congr hs' rfl rfl rfl h.delivering same
  | kill => exact h.congr hs' rfl rfl rfl h.delivering same

end traffic

/-- All of it, and the process runs. -/
structure Inv (s : State σ β) : Prop where
  tags : Tags s
  map : MapOk s
  traffic : Traffic s
  running : s.exited = false

theorem inv_init (server : σ) : Inv (State.init server : State σ β) where
  tags := ⟨by simp [State.init], rfl, by simp [State.init]⟩
  map := by
    constructor <;> simp [State.init, State.entries, OpenAt, Reader.rest]
  traffic := by
    constructor <;> simp [State.init, State.entries, InFlight]
  running := rfl

theorem Inv.step {f : ServeRequest σ β} {s s' : State σ β} {a : Action β} (h : Inv s)
    (hs : Stepped f s a s') (hC : Few s a) : Inv s' where
  tags := h.tags.step hs hC
  map := h.map.step h.tags h.traffic.answerable hs
  traffic := h.traffic.step h.tags h.map hs
  running := by
    cases hs with
    | read hr hm =>
        obtain ⟨n, -, -, he, -⟩ := h.map.read h.tags h.traffic.answerable hr hm
        rw [he]
        exact h.running
    | drain hr ht =>
        obtain ⟨n, -, he, -⟩ := h.map.drain h.tags hr ht
        rw [he]
        exact h.running
    | _ => exact h.running

theorem reachable_inv {f : ServeRequest σ β} {server : σ} {s : State σ β}
    (h : (system f server).ReachableBy Few s) : Inv s :=
  h.invariant (inv_init server) (fun _ _ _ _ hi hC hs => hi.step (State.step_cases hs) hC)

end DistributedSystems.Demux
