import DistributedSystems.DemuxTraffic

/-! # What a call over a shared connection gets

For every run with fewer than `2 ^ 32` calls the connection refines `RemoteCall`: every call gets
the answer of its own request, which was executed at most once, or an error (`demux_lawful`), and
the reader never meets a reply without a call, for which it would end the process. -/

namespace DistributedSystems.Demux

variable {σ β : Type}

/-! ### Refinement -/

/-- What a call returned. -/
def Stage.ret? : Stage β → Option (Option (β × Bool))
  | .returned a => some a
  | _ => none

/-- The result of a task. -/
def TaskStage.result? : TaskStage β → Option (β × Bool)
  | .started => none
  | .served r | .replied r => some r

/-- The connection as remote calls: the call `n` was executed by the task with its tag. -/
structure Sim (s : State σ β) (k : RemoteCall.State β (β × Bool)) : Prop where
  log : k.log = s.log
  length : k.calls.length = s.calls.length
  call : ∀ (n : ℕ) (c : Call β) (x : RemoteCall.Call β (β × Bool)), s.calls[n]? = some c →
    k.calls[n]? = some x → x.op = c.req ∧ x.ret = c.stage.ret?
  exec : ∀ (n : ℕ) (x : RemoteCall.Call β (β × Bool)), k.calls[n]? = some x → ∀ r,
    x.exec = some r ↔ ∃ y ∈ s.tasks, y.tag = tagOf n ∧ y.stage.result? = some r

section sim

variable {s s' : State σ β} {k : RemoteCall.State β (β × Bool)}

theorem Sim.exists_call (h : Sim s k) {n : ℕ} {c : Call β} (hc : s.calls[n]? = some c) :
    ∃ x, k.calls[n]? = some x :=
  ⟨_, List.getElem?_eq_getElem (h.length ▸ (List.getElem?_eq_some_iff.mp hc).1)⟩

/-- A step that nobody notices. -/
theorem Sim.congr (h : Sim s k) (hlog : s'.log = s.log) (hlen : s'.calls.length = s.calls.length)
    (hcalls : ∀ (n : ℕ) (c' : Call β), s'.calls[n]? = some c' →
      ∃ c, s.calls[n]? = some c ∧ c'.req = c.req ∧ c'.stage.ret? = c.stage.ret?)
    (htasks : ∀ t r, (∃ y ∈ s'.tasks, y.tag = t ∧ y.stage.result? = some r) ↔
      ∃ y ∈ s.tasks, y.tag = t ∧ y.stage.result? = some r) : Sim s' k where
  log := h.log.trans hlog.symm
  length := h.length.trans hlen.symm
  call n c' x hc' hx := by
    obtain ⟨c, hc, hreq, hret⟩ := hcalls n c' hc'
    rw [hreq, hret]
    exact h.call n c x hc hx
  exec n x hx r := by
    rw [htasks]
    exact h.exec n x hx r

/-- A call goes on without returning. -/
theorem ret?_set {calls : List (Call β)} {n : ℕ} {c : Call β} (hc : calls[n]? = some c)
    {stage : Stage β} (hret : stage.ret? = c.stage.ret?) {m : ℕ} {c' : Call β}
    (hc' : (calls.set n { c with stage := stage })[m]? = some c') :
    ∃ d, calls[m]? = some d ∧ c'.req = d.req ∧ c'.stage.ret? = d.stage.ret? := by
  rcases getElem?_set_cases hc' with ⟨rfl, rfl⟩ | ⟨-, hc'⟩
  · exact ⟨c, hc, rfl, hret⟩
  · exact ⟨c', hc', rfl, rfl⟩

/-- The call `n` returns `a`. -/
theorem Sim.ret (h : Sim s k) {n : ℕ} {c : Call β} {x : RemoteCall.Call β (β × Bool)}
    (hc : s.calls[n]? = some c) (hx : k.calls[n]? = some x) (a : Option (β × Bool))
    (reader : Reader β) : Sim { s.ret n c a with reader := reader } (k.ret n x a) where
  log := by simp [h.log]
  length := by simp [h.length]
  call m c' y hc' hy := by
    rcases getElem?_set_cases hc' with ⟨rfl, rfl⟩ | ⟨hne, hc'⟩
    · rcases getElem?_set_cases hy with ⟨-, rfl⟩ | ⟨hne, -⟩
      · exact ⟨(h.call m c x hc hx).1, rfl⟩
      · exact absurd rfl hne
    · rcases getElem?_set_cases hy with ⟨he, -⟩ | ⟨-, hy⟩
      · exact absurd he hne
      · exact h.call m c' y hc' hy
  exec m y hy := by
    rcases getElem?_set_cases hy with ⟨rfl, rfl⟩ | ⟨-, hy⟩
    · exact h.exec m x hx
    · exact h.exec m y hy

/-- The results under a tag after the task `y` has changed its stage. -/
theorem exists_result_set {tasks : List (Task β)} {i : ℕ} {y : Task β} (hy : tasks[i]? = some y)
    {stage : TaskStage β} {t : Ttag} {r : β × Bool}
    (hkeep : ∀ r, y.stage.result? = some r → stage.result? = some r) :
    (∃ z ∈ tasks.set i { y with stage := stage }, z.tag = t ∧ z.stage.result? = some r) ↔
      (y.tag = t ∧ stage.result? = some r) ∨
        ∃ z ∈ tasks, z.tag = t ∧ z.stage.result? = some r := by
  have hlt : i < tasks.length := (List.getElem?_eq_some_iff.mp hy).1
  constructor
  · rintro ⟨z, hz, hzt, hzr⟩
    rcases (List.mem_or_eq_of_mem_set hz).symm with rfl | hz
    · exact Or.inl ⟨hzt, hzr⟩
    · exact Or.inr ⟨z, hz, hzt, hzr⟩
  · rintro (⟨ht, hr⟩ | ⟨z, hz, hzt, hzr⟩)
    · exact ⟨{ y with stage := stage }, List.mem_set hlt _, ht, hr⟩
    · rcases eq_or_mem_set (b := { y with stage := stage }) hy hz with rfl | hz
      · exact ⟨{ z with stage := stage }, List.mem_set hlt _, hzt, hkeep r hzr⟩
      · exact ⟨z, hz, hzt, hzr⟩

/-- A task has run. -/
theorem Sim.serve (h : Sim s k) (hT : Tags s) (hF : Traffic s) {i : ℕ} {y : Task β}
    (hy : s.tasks[i]? = some y) (hst : y.stage = .started) (server : σ) (r : β × Bool) :
    ∃ n k', k.step (.exec n r) = some k' ∧ Sim (s.serve i y server r) k' := by
  have hmem := List.mem_of_getElem? hy
  obtain ⟨n, c, hc, htag, -⟩ := hF.task y hmem
  have hn : y.tag.toNat - 1 = n := by
    rw [htag, toNat_tagOf (hT.lt hc)]
    omega
  obtain ⟨x, hx⟩ := h.exists_call hc
  -- no other task has its tag
  have hnone : x.exec = none := by
    rw [Option.eq_none_iff_forall_ne_some]
    intro r' hr'
    obtain ⟨z, hz, hzt, hzr⟩ := (h.exec n x hx r').mp hr'
    have hzy := hF.task_unique hz hmem (hzt.trans htag.symm)
    subst hzy
    rw [hst] at hzr
    cases hzr
  refine ⟨n, _, RemoteCall.step_exec r hx hnone, ?_⟩
  constructor
  · simp [h.log, hn]
  · simp [h.length]
  · intro m c' z hc' hz
    rcases getElem?_set_cases hz with ⟨rfl, rfl⟩ | ⟨-, hz⟩
    · exact h.call m c' x hc' hx
    · exact h.call m c' z hc' hz
  · intro m z hz r'
    rw [State.serve_tasks, exists_result_set hy (by simp [hst, TaskStage.result?])]
    rcases getElem?_set_cases hz with ⟨rfl, rfl⟩ | ⟨hne, hz⟩
    · rw [← h.exec m x hx r', hnone]
      simp [htag, TaskStage.result?]
    · obtain ⟨c', hc'⟩ : ∃ c', s.calls[m]? = some c' :=
        ⟨_, List.getElem?_eq_getElem (h.length ▸ (List.getElem?_eq_some_iff.mp hz).1)⟩
      have htag' : y.tag ≠ tagOf m := fun ht => hne (hT.inj hc' hc (ht.symm.trans htag))
      rw [← h.exec m z hz r']
      simp [htag']

/-- A call is new. -/
theorem Sim.send (h : Sim s k) (hT : Tags s) (hF : Traffic s)
    (hfew : s.calls.length + 1 < 2 ^ 32) (req : β) : Sim (s.send req) (k.call req) where
  log := by simp [h.log, h.length]
  length := by simp [h.length]
  call n c x hc hx := by
    rcases getElem?_concat_cases hc with ⟨rfl, rfl⟩ | hc
    · rcases getElem?_concat_cases hx with ⟨-, rfl⟩ | hx
      · exact ⟨rfl, rfl⟩
      · have := (List.getElem?_eq_some_iff.mp hx).1
        rw [h.length] at this
        omega
    · rcases getElem?_concat_cases hx with ⟨rfl, -⟩ | hx
      · have := (List.getElem?_eq_some_iff.mp hc).1
        rw [h.length] at this
        omega
      · exact h.call n c x hc hx
  exec n x hx r := by
    rcases getElem?_concat_cases hx with ⟨rfl, rfl⟩ | hx
    · -- the tasks belong to older calls
      simp only [State.send_tasks, reduceCtorEq, false_iff, not_exists, not_and]
      intro y hy ht
      obtain ⟨m, c, hc, htag, -⟩ := hF.task y hy
      have hlt := (List.getElem?_eq_some_iff.mp hc).1
      rw [h.length, htag] at ht
      have := tagOf_inj (hT.lt hc) hfew ht
      omega
    · exact h.exec n x hx r

/-- Every step of the connection is a step of the remote calls or goes unnoticed. -/
theorem Sim.step {f : ServeRequest σ β} {a : Action β} (h : Sim s k) (hi : Inv s) (hC : Few s a)
    (hs : Stepped f s a s') : Sim s' k ∨ ∃ b k', k.step b = some k' ∧ Sim s' k' := by
  cases hs with
  | send req => exact Or.inr ⟨.call req, k.call req, rfl, h.send hi.tags hi.traffic hC req⟩
  | @refuse n c hc hst hcl =>
      obtain ⟨x, hx⟩ := h.exists_call hc
      have hret : x.ret = none := by rw [(h.call n c x hc hx).2, hst]; rfl
      exact Or.inr ⟨.fail n, _, RemoteCall.step_fail hx hret, h.ret hc hx none s.reader⟩
  | register hc hst hcl =>
      exact Or.inl (h.congr rfl (by simp)
        (fun _ _ => ret?_set hc (by rw [hst]; rfl)) (fun _ _ => Iff.rfl))
  | write hc hst =>
      exact Or.inl (h.congr rfl (by simp)
        (fun _ _ => ret?_set hc (by rw [hst]; rfl)) (fun _ _ => Iff.rfl))
  | read hr hm =>
      obtain ⟨n, -, -, he, -⟩ := hi.map.read hi.tags hi.traffic.answerable hr hm
      rw [he]
      exact Or.inl (h.congr rfl rfl (fun _ c hc => ⟨c, hc, rfl, rfl⟩) (fun _ _ => Iff.rfl))
  | drain hr ht =>
      obtain ⟨n, -, he, -⟩ := hi.map.drain hi.tags hr ht
      rw [he]
      exact Or.inl (h.congr rfl rfl (fun _ c hc => ⟨c, hc, rfl, rfl⟩) (fun _ _ => Iff.rfl))
  | @deliver n a back c hr hc hst =>
      obtain ⟨x, hx⟩ := h.exists_call hc
      have hret : x.ret = none := by rw [(h.call n c x hc hx).2, hst]; rfl
      cases a with
      | none => exact Or.inr ⟨.fail n, _, RemoteCall.step_fail hx hret, h.ret hc hx none _⟩
      | some r =>
          obtain ⟨y, hy, hyt, hyst⟩ := (hi.traffic.delivering n _ back hr).2 r rfl
          have hex : x.exec = some r := (h.exec n x hx r).mpr ⟨y, hy, hyt, by rw [hyst]; rfl⟩
          exact Or.inr ⟨.answer n, _, RemoteCall.step_answer hx hex hret, h.ret hc hx (some r) _⟩
  | @srvRead m l hk hsv hm =>
      refine Or.inl (h.congr rfl rfl (fun _ c hc => ⟨c, hc, rfl, rfl⟩) ?_)
      intro t r
      simp [or_and_right, exists_or, TaskStage.result?]
  | serve hx hst hf =>
      obtain ⟨n, k', hk', hsim⟩ := h.serve hi.tags hi.traffic hx hst _ _
      exact Or.inr ⟨.exec n _, k', hk', hsim⟩
  | @reply i y r hy hst =>
      refine Or.inl (h.congr rfl rfl (fun _ c hc => ⟨c, hc, rfl, rfl⟩) ?_)
      intro t r'
      rw [State.reply_tasks, exists_result_set hy (by simp [hst, TaskStage.result?])]
      refine ⟨?_, Or.inr⟩
      rintro (⟨ht, hr⟩ | h')
      · exact ⟨y, List.mem_of_getElem? hy, ht, by rw [hst]; exact hr⟩
      · exact h'
  | _ => exact Or.inl (h.congr rfl rfl (fun _ c hc => ⟨c, hc, rfl, rfl⟩) (fun _ _ => Iff.rfl))

end sim

theorem reachable_sim {f : ServeRequest σ β} {server : σ} {s : State σ β}
    (h : (system f server).ReachableBy Few s) :
    ∃ k, (RemoteCall.system β (β × Bool)).Reachable k ∧ Sim s k := by
  refine h.simulate_rel Sim ?_ ?_
  · constructor <;> simp [system, State.init, RemoteCall.system]
  · intro s a s' k hr _ hsim hC hs
    rcases hsim.step (reachable_inv hr) hC (State.step_cases hs) with hsim | ⟨b, k', hb, hsim⟩
    · exact Or.inl hsim
    · exact Or.inr ⟨b, k', trivial, hb, hsim⟩

/-- The server executes the requests of the calls, one after the other. -/
theorem reachable_served {f : ServeRequest σ β} {server : σ} {s : State σ β}
    (h : (system f server).ReachableBy Few s) : RemoteCall.ServedBy f server s.log s.server := by
  refine h.invariant (I := fun s => RemoteCall.ServedBy f server s.log s.server) .init ?_
  intro s a s' hr ih hC hs
  have hi := reachable_inv hr
  cases State.step_cases hs with
  | send req => exact ih.call _ req
  | refuse hc hst hcl => exact ih.ret _ none
  | read hr hm =>
      obtain ⟨n, -, -, he, -⟩ := hi.map.read hi.tags hi.traffic.answerable hr hm
      rw [he]
      exact ih
  | drain hr ht =>
      obtain ⟨n, -, he, -⟩ := hi.map.drain hi.tags hr ht
      rw [he]
      exact ih
  | deliver hr hc hst => exact ih.ret _ _
  | @serve i x server' r hx hst hf =>
      obtain ⟨n, c, hc, htag, hreq, -⟩ := hi.traffic.task x (List.mem_of_getElem? hx)
      obtain ⟨k, hk, hsim⟩ := reachable_sim hr
      obtain ⟨y, hy⟩ := hsim.exists_call hc
      have hn : x.tag.toNat - 1 = n := by
        rw [htag, toNat_tagOf (hi.tags.lt hc)]
        omega
      have hcall : .call n x.req ∈ s.log := by
        rw [← hsim.log, (RemoteCall.reachable_logged hk).call]
        exact ⟨y, hy, (hsim.call n c y hc hy).1.trans hreq.symm⟩
      exact ih.exec (hn ▸ hcall) hf
  | _ => exact ih

/-- **Every call gets its own answer.**  However the calls, the reader, the tasks of the server and
the breaking of the connection interleave, each request is executed at most once, each call returns
at most once, and what it returns is an error or the result of the execution of its own request,
which comes before.  The reader never finds a reply for which no call waits. -/
theorem demux_lawful {f : ServeRequest σ β} {server : σ} {s : State σ β}
    (h : (system f server).ReachableBy Few s) :
    s.exited = false ∧ EachEvent RemoteCall.Lawful s.log ∧
      RemoteCall.ServedBy f server s.log s.server := by
  obtain ⟨k, hk, hsim⟩ := reachable_sim h
  refine ⟨(reachable_inv h).running, ?_, reachable_served h⟩
  rw [← hsim.log]
  exact RemoteCall.reachable_lawful hk

/-- A server that adds up the numbers it gets, and breaks on `0`. -/
def adder : ServeRequest ℕ ℕ := fun sum x => if x = 0 then none else some (sum + x, sum + x, true)

/-- Two calls; the second is answered first, and the connection breaks before the answer of the
first is written. -/
def overtaken : List (Action ℕ) :=
  [.send 3, .send 4, .register 1, .register 0, .write 0, .write 1, .srvRead, .srvRead, .serve 0,
    .serve 1, .reply 1, .read, .deliver, .disconnect, .reply 0, .fail, .drain 0, .deliver]

theorem demux_lawful_overtaken : ∃ s, (system adder 0).ReachableBy Few s ∧
    s.log = [.call 0 3, .call 1 4, .exec 0 (3, true), .exec 1 (7, true), .ret 1 (some (7, true)),
      .ret 0 none] ∧
    s.exited = false ∧ EachEvent RemoteCall.Lawful s.log ∧
      RemoteCall.ServedBy adder 0 s.log s.server := by
  obtain ⟨s, hs, hp⟩ := Lts.exists_of_exec (L := system adder 0) (C := Few)
    (p := fun s => decide (s.log = [.call 0 3, .call 1 4, .exec 0 (3, true), .exec 1 (7, true),
      .ret 1 (some (7, true)), .ret 0 none])) overtaken (by decide)
  rw [decide_eq_true_eq] at hp
  exact ⟨s, hs, hp, demux_lawful hs⟩

end DistributedSystems.Demux
