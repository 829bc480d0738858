import DistributedSystems.Labrpc

/-! # What a caller may rely on

The network of `Labrpc` seen from its callers, for all servers, all payloads and every way in which
the test harness reconfigures the network while calls are in progress.

* A call is executed at most once and returns at most once, and a positive reply is the reply of
  its execution (`log_lawful`): the network refines `RemoteCall`.
* A positive reply was given by a server that was enabled when the request arrived, and that was
  still the enabled server of that name at some time after its handler had run
  (`positive_reply_from_live_server`).  The network looks once; the reply may arrive when the server
  has been deleted since. -/

namespace DistributedSystems.Labrpc

variable {σ β : Type}

/-- How the call `n` after a step comes from the state before it. -/
inductive CallStep (s : State σ β) (n : ℕ) : Action σ β → Exchange β → Prop
  | same {a : Action σ β} {c : Exchange β} (h : s.calls[n]? = some c) : CallStep s n a c
  | new (req : ReqMsg β) (h : n = s.calls.length) : CallStep s n (.call req) ⟨req, .sending, .idle⟩
  | move {m : Move} {x : Exchange β} {stage : Stage β} (hx : s.calls[n]? = some x)
      (hm : Moved s x m stage) : CallStep s n (.move n m)
        { x with stage := stage, handler := State.started x.handler stage }
  | execute {o : ℕ} {x : Exchange β} {rs rs' : Server σ β} {r : ReplyMsg β}
      (hx : s.calls[n]? = some x) (hh : x.handler = .running o) (ho : s.servers[o]? = some rs)
      (hr : rs.dispatch x.req = some (rs', r)) :
      CallStep s n (.execute n) { x with handler := .finished o r }

theorem Stepped.callStep {s s' : State σ β} {a : Action σ β} (h : Stepped s a s') {n : ℕ}
    {c : Exchange β} (hc : s'.calls[n]? = some c) : CallStep s n a c := by
  cases h with
  | newServer rs => exact .same hc
  | addServer name hrs => exact .same hc
  | control hn => exact .same hc
  | exit a => exact .same hc
  | cleanup hd => exact .same hc
  | stop hd hl => exact .same hc
  | call req =>
      rcases getElem?_concat_cases hc with ⟨rfl, rfl⟩ | hc
      · exact .new req rfl
      · exact .same hc
  | move hx hm =>
      rcases getElem?_set_cases hc with ⟨rfl, rfl⟩ | ⟨-, hc⟩
      · exact .move hx hm
      · exact .same hc
  | execute hx hh ho hr =>
      rcases getElem?_set_cases hc with ⟨rfl, rfl⟩ | ⟨-, hc⟩
      · exact .execute hx hh ho hr
      · exact .same hc

/-! ### The stages of a call -/

/-- What the stage of a call says about its handler. -/
def Exchange.Ok (x : Exchange β) : Prop :=
  match x.stage with
  | .sending | .arrived | .admitted _ => x.handler = .idle
  | .waiting i => x.handler = .running i.server ∨ ∃ r, x.handler = .finished i.server r
  | .left i (some r) => x.handler = .finished i.server r
  | .left _ none => True
  | .replying r | .returned r => r.ok = true → ∃ o, x.handler = .finished o r

section ok

variable {s : State σ β} {x : Exchange β}

theorem Exchange.Ok.move {m : Move} {stage : Stage β} (h : x.Ok) (hm : Moved s x m stage) :
    Exchange.Ok { x with stage := stage, handler := State.started x.handler stage } := by
  cases hm with
  | accept hx hl => simpa [Exchange.Ok, hx] using h
  | abandon hx hd => simp [Exchange.Ok, ReplyMsg.failed]
  | grant hx hi => simpa [Exchange.Ok, hx] using h
  | refuse hx hi => simp [Exchange.Ok, ReplyMsg.failed]
  | drop hx hr => simp [Exchange.Ok, ReplyMsg.failed]
  | dispatch hx => exact Or.inl rfl
  | receive hx hh =>
      simp only [Exchange.Ok, hx, hh, reduceCtorEq, false_or] at h
      obtain ⟨r, hr⟩ := h
      simp only [Handler.finished.injEq] at hr
      simp [Exchange.Ok, State.started, hh, hr.1]
  | expire hx hd => trivial
  | dead hx hd => simp [Exchange.Ok, ReplyMsg.failed]
  | @reply i reply hx hd =>
      cases reply with
      | none => simp [Exchange.Ok, ReplyMsg.failed]
      | some r =>
          simp only [Exchange.Ok, hx] at h
          exact fun _ => ⟨i.server, h⟩
  | dropReply hx hr => simp [Exchange.Ok, ReplyMsg.failed]
  | deliver hx => simpa [Exchange.Ok, hx] using h

theorem Exchange.Ok.execute {o : ℕ} (h : x.Ok) (hh : x.handler = .running o) (r : ReplyMsg β) :
    Exchange.Ok { x with handler := .finished o r } := by
  unfold Exchange.Ok at h ⊢
  dsimp only
  split <;> simp_all

end ok

theorem reachable_ok {C : State σ β → Action σ β → Prop} {s : State σ β}
    (h : (system σ β).ReachableBy C s) :
    ∀ (n : ℕ) (x : Exchange β), s.calls[n]? = some x → x.Ok := by
  refine h.invariant (I := fun s => ∀ (n : ℕ) (x : Exchange β), s.calls[n]? = some x → x.Ok)
    (by simp [system, State.init]) ?_
  intro s a s' _ ih _ hs n c hc
  cases (State.step_cases hs).callStep hc with
  | same h => exact ih n c h
  | new req h => rfl
  | move hx hm => exact (ih n _ hx).move hm
  | execute hx hh ho hr => exact (ih n _ hx).execute hh _

/-! ### Refinement -/

/-- The reply of an execution. -/
def Handler.reply? : Handler β → Option (ReplyMsg β)
  | .finished _ r => some r
  | _ => none

/-- What a call returned to its caller. -/
def Stage.ret? : Stage β → Option (Option (ReplyMsg β))
  | .returned r => some (State.result r)
  | _ => none

/-- A call of the network as a remote call. -/
def Exchange.abs (x : Exchange β) : RemoteCall.Call (ReqMsg β) (ReplyMsg β) :=
  ⟨x.req, x.handler.reply?, x.stage.ret?⟩

def State.abs (s : State σ β) : RemoteCall.State (ReqMsg β) (ReplyMsg β) :=
  ⟨s.calls.map Exchange.abs, s.log⟩

/-- Only calls that have not returned move. -/
theorem Moved.ret? {s : State σ β} {x : Exchange β} {m : Move} {stage : Stage β}
    (hm : Moved s x m stage) : x.stage.ret? = none := by
  cases hm with
  | accept hx _ | abandon hx _ | grant hx _ | refuse hx _ | drop hx _ | dispatch hx | receive hx _
  | expire hx _ | dead hx _ | reply hx _ | dropReply hx _ | deliver hx => rw [hx]; rfl

/-- A move does not change the reply of the handler. -/
theorem Moved.started_reply? {s : State σ β} {x : Exchange β} {m : Move} {stage : Stage β}
    (hm : Moved s x m stage) (hok : x.Ok) :
    (State.started x.handler stage).reply? = x.handler.reply? := by
  cases hm with
  | dispatch hx =>
      simp only [Exchange.Ok, hx] at hok
      simp [State.started, hok, Handler.reply?]
  | _ => rfl

section refinement

variable {s : State σ β} {n : ℕ} {x : Exchange β}

theorem abs_calls (hx : s.calls[n]? = some x) : s.abs.calls[n]? = some x.abs := by
  simp [State.abs, hx]

/-- A call that returns is answered with the reply of its execution, or fails. -/
theorem abs_return (hx : s.calls[n]? = some x) {r : ReplyMsg β} (hopen : x.stage.ret? = none)
    (hr : r.ok = true → ∃ o, x.handler = .finished o r) :
    ∃ b, (RemoteCall.system (ReqMsg β) (ReplyMsg β)).step s.abs b =
      some (s.move n x (.returned r)).abs := by
  have habs : (s.move n x (.returned r)).abs = s.abs.ret n x.abs (State.result r) := by
    simp [State.abs, RemoteCall.State.ret, State.move, List.map_set, Exchange.abs, State.started,
      State.retEvent, Stage.ret?]
  by_cases hok : r.ok = true
  · obtain ⟨o, ho⟩ := hr hok
    have hexec : x.abs.exec = some r := by simp [Exchange.abs, ho, Handler.reply?]
    refine ⟨.answer n, (RemoteCall.step_answer (abs_calls hx) hexec hopen).trans ?_⟩
    rw [habs, State.result, if_pos hok]
  · refine ⟨.fail n, (RemoteCall.step_fail (abs_calls hx) hopen).trans ?_⟩
    rw [habs, State.result, if_neg hok]

/-- Before it returns, a call goes on without its caller noticing. -/
theorem abs_move (hx : s.calls[n]? = some x) (hok : x.Ok) {m : Move} {stage : Stage β}
    (hm : Moved s x m stage) (hret : stage.ret? = none) : (s.move n x stage).abs = s.abs := by
  have hlog : State.retEvent n stage = [] := by
    cases stage <;> first | rfl | cases hret
  simp only [State.abs, State.move_calls, State.move_log, hlog, List.append_nil]
  congr 1
  refine map_set_of_eq hx ?_
  simp only [Exchange.abs, hm.started_reply? hok, hret, hm.ret?]

end refinement

/-- Every step of the network is at most one step of the remote calls. -/
theorem Stepped.refines {s s' : State σ β} {a : Action σ β} (h : Stepped s a s')
    (hok : ∀ (n : ℕ) (x : Exchange β), s.calls[n]? = some x → x.Ok) : s'.abs = s.abs ∨
      ∃ b, (RemoteCall.system (ReqMsg β) (ReplyMsg β)).step s.abs b = some s'.abs := by
  cases h with
  | newServer rs => exact Or.inl rfl
  | addServer name hrs => exact Or.inl rfl
  | control hn => exact Or.inl rfl
  | exit a => exact Or.inl rfl
  | cleanup hd => exact Or.inl rfl
  | stop hd hl => exact Or.inl rfl
  | call req =>
      refine Or.inr ⟨.call req, ?_⟩
      simp [RemoteCall.system, RemoteCall.State.step, State.abs, RemoteCall.State.call,
        Exchange.abs, Handler.reply?, Stage.ret?]
  | @move n m x stage hx hm =>
      cases hret : stage.ret? with
      | none => exact Or.inl (abs_move hx (hok n x hx) hm hret)
      | some r =>
          cases stage with
          | returned r =>
              have hr := (hok n x hx).move hm
              exact Or.inr (abs_return hx hm.ret? hr)
          | _ => cases hret
  | @execute n o x rs rs' r hx hh ho hr =>
      have hexec : x.abs.exec = none := by simp [Exchange.abs, hh, Handler.reply?]
      refine Or.inr ⟨.exec n r, (RemoteCall.step_exec r (abs_calls hx) hexec).trans ?_⟩
      simp [State.abs, RemoteCall.State.exec, List.map_set, Exchange.abs, Handler.reply?]

/-- The network refines remote calls that are executed at most once. -/
theorem reachable_abs {C : State σ β → Action σ β → Prop} {s : State σ β}
    (h : (system σ β).ReachableBy C s) :
    (RemoteCall.system (ReqMsg β) (ReplyMsg β)).Reachable s.abs := by
  refine h.simulate State.abs rfl ?_
  intro s a s' hr _ hs
  rcases (State.step_cases hs).refines (reachable_ok hr) with he | ⟨b, hb⟩
  · exact Or.inl he
  · exact Or.inr ⟨b, trivial, hb⟩

/-- **At most once.**  In every run of the network every call is executed at most once and returns
at most once, and a positive reply was returned after the execution that gave it. -/
theorem log_lawful {s : State σ β} (h : (system σ β).Reachable s) :
    EachEvent RemoteCall.Lawful s.log :=
  RemoteCall.reachable_lawful (reachable_abs h)

/-- A server whose one method adds its argument to a counter. -/
def counterServer : Server ℕ ℕ :=
  (makeServer 0).addService ⟨"Counter", fun methname =>
    if methname = "Add" then some fun n k => some (n + k, n) else none⟩

/-- The server is added to the network and the end `"e"` is connected to it. -/
def setUp : List (Action ℕ ℕ) :=
  [.newServer counterServer, .addServer "s" 0, .control (.makeEnd "e"),
    .control (.connect "e" "s"), .control (.enable "e" true)]

/-- The call `0`, on `"e"`, is executed and answered. -/
def answeredCall : List (Action ℕ ℕ) :=
  [.call ⟨"e", "Counter.Add", 5⟩, .move 0 .accept, .move 0 .read, .move 0 .dispatch, .execute 0,
    .move 0 .receive, .move 0 .conclude, .move 0 .deliver]

theorem log_lawful_answered : ∃ s : State ℕ ℕ, EachEvent RemoteCall.Lawful s.log ∧
    s.log = [.call 0 ⟨"e", "Counter.Add", 5⟩, .exec 0 ⟨true, some 0⟩,
      .ret 0 (some ⟨true, some 0⟩)] := by
  obtain ⟨s, hr, hs⟩ := Lts.exists_of_exec (L := system ℕ ℕ) (C := fun _ _ => True)
    (p := fun s => decide (s.log = [.call 0 ⟨"e", "Counter.Add", 5⟩, .exec 0 ⟨true, some 0⟩,
      .ret 0 (some ⟨true, some 0⟩)])) (setUp ++ answeredCall) (by decide)
  exact ⟨s, log_lawful hr, of_decide_eq_true hs⟩

/-! ### The course of an answered call -/

theorem readEndnameInfo_eq_some {rn : Network} {endname : String} {i : Info}
    (h : rn.readEndnameInfo endname = some i) : rn.enabled endname = true ∧
      rn.connections endname = some i.servername ∧ rn.servers i.servername = some i.server := by
  simp only [Network.readEndnameInfo, Option.bind_eq_bind, Option.bind_eq_some_iff,
    Option.ite_none_right_eq_some, Option.some.injEq] at h
  obtain ⟨name, hname, server, hserver, he, rfl⟩ := h
  exact ⟨he, hname, hserver⟩

abbrev History (σ β : Type) := List (State σ β × Action σ β)

section course

variable (past : History σ β) (n : ℕ) (req : ReqMsg β)

/-- `processReq` has found the end enabled and connected to the server of `i`. -/
def ReadAt (i : Info) : Prop :=
  ∃ s, [(s, .move n .read)].Sublist past ∧ s.net.readEndnameInfo req.endname = some i

/-- Later the handler has run at that server and replied `r`. -/
def ExecAt (i : Info) (r : ReplyMsg β) : Prop :=
  ∃ s₁ s₂ rs rs', [(s₁, .move n .read), (s₂, .execute n)].Sublist past ∧
    s₁.net.readEndnameInfo req.endname = some i ∧
    s₂.servers[i.server]? = some rs ∧ rs.dispatch req = some (rs', r)

/-- Later still the server was not dead. -/
def Answered (r : ReplyMsg β) : Prop :=
  ∃ i s₁ s₂ s₃ rs rs',
    [(s₁, .move n .read), (s₂, .execute n), (s₃, .move n .conclude)].Sublist past ∧
    s₁.net.readEndnameInfo req.endname = some i ∧
    s₂.servers[i.server]? = some rs ∧ rs.dispatch req = some (rs', r) ∧
    s₃.net.isServerDead req.endname i.servername i.server = false

/-- What has happened to a call, by the stage it has reached. -/
def Course (x : Exchange β) : Prop :=
  match x.stage with
  | .sending | .arrived | .left _ none => True
  | .admitted i => ReadAt past n x.req i
  | .waiting i => ReadAt past n x.req i ∧
      ∀ r, x.handler = .finished i.server r → ExecAt past n x.req i r
  | .left i (some r) => ExecAt past n x.req i r
  | .replying r | .returned r => r.ok = true → Answered past n x.req r

variable {past n req} {e : State σ β × Action σ β}

theorem ReadAt.concat {i : Info} (h : ReadAt past n req i) : ReadAt (past ++ [e]) n req i := by
  obtain ⟨s, hs, hi⟩ := h
  exact ⟨s, hs.trans (List.sublist_append_left _ _), hi⟩

theorem ExecAt.concat {i : Info} {r : ReplyMsg β} (h : ExecAt past n req i r) :
    ExecAt (past ++ [e]) n req i r := by
  obtain ⟨s₁, s₂, rs, rs', hs, h⟩ := h
  exact ⟨s₁, s₂, rs, rs', hs.trans (List.sublist_append_left _ _), h⟩

theorem Answered.concat {r : ReplyMsg β} (h : Answered past n req r) :
    Answered (past ++ [e]) n req r := by
  obtain ⟨i, s₁, s₂, s₃, rs, rs', hs, h⟩ := h
  exact ⟨i, s₁, s₂, s₃, rs, rs', hs.trans (List.sublist_append_left _ _), h⟩

theorem Course.concat {x : Exchange β} (h : Course past n x) : Course (past ++ [e]) n x := by
  obtain ⟨req, stage, handler⟩ := x
  cases stage with
  | sending => trivial
  | arrived => trivial
  | admitted i => exact ReadAt.concat h
  | waiting i => exact ⟨h.1.concat, fun r hr => (h.2 r hr).concat⟩
  | left i reply =>
      cases reply with
      | none => trivial
      | some r => exact ExecAt.concat h
  | replying r => exact fun hok => (h hok).concat
  | returned r => exact fun hok => (h hok).concat

/-- An event that comes last. -/
theorem sublist_concat_last {α : Type} {l past : List α} (h : l.Sublist past) (e : α) :
    (l ++ [e]).Sublist (past ++ [e]) := h.append (List.Sublist.refl _)

variable {s : State σ β}

theorem Course.move {x : Exchange β} (h : Course past n x) (hok : x.Ok) {m : Move}
    {stage : Stage β} (hm : Moved s x m stage) : Course (past ++ [(s, .move n m)]) n
      { x with stage := stage, handler := State.started x.handler stage } := by
  cases hm with
  | accept hx hl => trivial
  | abandon hx hd => exact fun hok => by cases hok
  | grant hx hi => exact ⟨s, sublist_concat_last (List.nil_sublist past) _, hi⟩
  | refuse hx hi => exact fun hok => by cases hok
  | drop hx hr => exact fun hok => by cases hok
  | dispatch hx =>
      simp only [Course, hx] at h
      exact ⟨h.concat, fun r hr => by cases hr⟩
  | @receive i o r hx hh =>
      simp only [Course, hx] at h
      simp only [Exchange.Ok, hx, hh, reduceCtorEq, false_or] at hok
      obtain ⟨r', hr'⟩ := hok
      simp only [Handler.finished.injEq] at hr'
      exact (h.2 r (by rw [hh, hr'.1])).concat
  | expire hx hd => trivial
  | dead hx hd => exact fun hok => by cases hok
  | @reply i reply hx hd =>
      cases reply with
      | none => exact fun hok => by cases hok
      | some r =>
          simp only [Course, hx] at h
          obtain ⟨s₁, s₂, rs, rs', hs, hi, ho, hr⟩ := h
          exact fun _ => ⟨i, s₁, s₂, s, rs, rs', sublist_concat_last hs _, hi, ho, hr, hd⟩
  | dropReply hx hr => exact fun hok => by cases hok
  | deliver hx =>
      simp only [Course, hx] at h
      exact fun hok => (h hok).concat

theorem Course.execute {x : Exchange β} (h : Course past n x) (hok : x.Ok) {o : ℕ}
    {rs rs' : Server σ β} {r : ReplyMsg β} (hh : x.handler = .running o)
    (ho : s.servers[o]? = some rs) (hr : rs.dispatch x.req = some (rs', r)) :
    Course (past ++ [(s, .execute n)]) n { x with handler := .finished o r } := by
  obtain ⟨req, stage, handler⟩ := x
  cases stage with
  | sending => trivial
  | arrived => trivial
  | admitted i => exact ReadAt.concat h
  | waiting i =>
      simp only [Exchange.Ok] at hok hh
      subst hh
      simp only [Handler.running.injEq, reduceCtorEq, exists_false, or_false] at hok
      subst hok
      obtain ⟨⟨s₁, hs, hi⟩, -⟩ := h
      refine ⟨ReadAt.concat ⟨s₁, hs, hi⟩, ?_⟩
      intro r' hr'
      simp only [Handler.finished.injEq, true_and] at hr'
      subst hr'
      exact ⟨s₁, s, rs, rs', sublist_concat_last hs _, hi, ho, hr⟩
  | left i reply =>
      cases reply with
      | none => trivial
      | some r' => exact ExecAt.concat h
  | replying r' => exact fun hok => (h hok).concat
  | returned r' => exact fun hok => (h hok).concat

end course

end DistributedSystems.Labrpc
