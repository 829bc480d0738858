import DistributedSystems.LabrpcCalls

/-! # Calls on an end that stays as it is

While the network is up and reliable and the end stays enabled and connected, a call returns what
its handler has replied (`reliable_call_succeeds`).  While the end is disabled, nothing is executed
and every call fails (`disabled_call_fails`). -/

namespace DistributedSystems.Labrpc

variable {σ β : Type}

/-! ### A reliable network -/

/-- The network is up and reliable, and the end `e` is enabled and connected to the server that
`i` names. -/
def Serving (e : String) (i : Info) (s : State σ β) : Prop :=
  s.done = false ∧ s.net.readEndnameInfo e = some i ∧ i.reliable = true

/-- What a call on such an end can be waiting for: it is never refused, dropped or given up. -/
def Exchange.Served (i : Info) (x : Exchange β) : Prop :=
  match x.stage with
  | .sending | .arrived => True
  | .admitted j | .waiting j | .left j (some _) => j = i
  | .left _ none => False
  | .replying r | .returned r => x.handler = .finished i.server r

section serving

variable {s : State σ β} {x : Exchange β} {i : Info}

theorem Serving.alive {e : String} (h : Serving e i s) :
    s.net.isServerDead e i.servername i.server = false := by
  obtain ⟨he, -, hs⟩ := readEndnameInfo_eq_some h.2.1
  simp [Network.isServerDead, he, hs]

theorem Exchange.Served.move (h : x.Served i) (hok : x.Ok) (hs : Serving x.req.endname i s)
    {m : Move} {stage : Stage β} (hm : Moved s x m stage) : Exchange.Served i
      { x with stage := stage, handler := State.started x.handler stage } := by
  have alive := hs.alive
  obtain ⟨hdone, hread, hrel⟩ := hs
  cases hm with
  | accept hx hl => trivial
  | abandon hx hd => simp [hdone] at hd
  | grant hx hi => exact Option.some.inj (hi.symm.trans hread)
  | refuse hx hi => simp [hread] at hi
  | drop hx hr =>
      simp only [Exchange.Served, hx] at h
      rw [h, hrel] at hr
      cases hr
  | dispatch hx => simpa [Exchange.Served, hx] using h
  | receive hx hh => simpa [Exchange.Served, hx] using h
  | expire hx hd =>
      simp only [Exchange.Served, hx] at h
      rw [h, alive] at hd
      cases hd
  | @dead j reply hx hd =>
      cases reply with
      | none => simp [Exchange.Served, hx] at h
      | some r =>
          simp only [Exchange.Served, hx] at h
          rw [h, alive] at hd
          cases hd
  | @reply j reply hx hd =>
      cases reply with
      | none => simp [Exchange.Served, hx] at h
      | some r =>
          simp only [Exchange.Served, hx] at h
          simp only [Exchange.Ok, hx, h] at hok
          exact hok
  | dropReply hx hr =>
      simp only [Exchange.Served, hx] at h
      rw [h, hrel] at hr
      cases hr
  | deliver hx => simpa [Exchange.Served, State.started, hx] using h

theorem Exchange.Served.execute (h : x.Served i) {o : ℕ} (hh : x.handler = .running o)
    (r : ReplyMsg β) : Exchange.Served i { x with handler := .finished o r } := by
  obtain ⟨req, stage, handler⟩ := x
  simp only at hh
  subst hh
  cases stage with
  | replying r' => simp [Exchange.Served] at h
  | returned r' => simp [Exchange.Served] at h
  | left j reply => cases reply <;> exact h
  | _ => exact h

end serving

instance (e : String) (i : Info) (s : State σ β) : Decidable (Serving e i s) :=
  inferInstanceAs (Decidable (s.done = false ∧ s.net.readEndnameInfo e = some i ∧
    i.reliable = true))

/-! A server without `dispatchf` answers positively. -/

theorem dispatch_ok {rs rs' : Server σ β} {req : ReqMsg β} {r : ReplyMsg β}
    (h : rs.dispatch req = some (rs', r)) :
    rs'.dispatchf = rs.dispatchf ∧ (rs.dispatchf = none → r.ok = true) := by
  simp only [Server.dispatch, Option.bind_eq_bind, Option.bind_eq_some_iff, Option.some.injEq,
    Prod.mk.injEq, Prod.exists] at h
  obtain ⟨svc, meth, -, rcvr, rep, hrep, rfl, rfl⟩ := h
  refine ⟨rfl, ?_⟩
  intro hf
  simp only [Server.serve, hf, Service.dispatch, Option.bind_eq_bind, Option.bind_eq_some_iff,
    Option.some.injEq, Prod.mk.injEq, Prod.exists] at hrep
  obtain ⟨_, -, _, -, _, _, -, -, rfl⟩ := hrep
  rfl

/-- The server objects stay, and so does their `dispatchf`. -/
theorem Stepped.servers {s s' : State σ β} {a : Action σ β} (h : Stepped s a s') {o : ℕ}
    {rs : Server σ β} (ho : s.servers[o]? = some rs) :
    ∃ rs', s'.servers[o]? = some rs' ∧ rs'.dispatchf = rs.dispatchf := by
  cases h with
  | newServer rs' =>
      exact ⟨rs, List.getElem?_append_left (List.getElem?_eq_some_iff.mp ho).1 ▸ ho, rfl⟩
  | @execute n o' x rs₀ rs' r hx hh ho' hr =>
      by_cases he : o' = o
      · subst he
        rw [ho, Option.some.injEq] at ho'
        subst ho'
        exact ⟨rs', List.getElem?_set_self (List.getElem?_eq_some_iff.mp ho).1,
          (dispatch_ok hr).1⟩
      · exact ⟨rs, (List.getElem?_set_ne he).trans ho, rfl⟩
  | _ => exact ⟨rs, ho, rfl⟩

/-- A reply was given by a server object, and is positive when the object has no `dispatchf`. -/
def Handler.Served (s : State σ β) (h : Handler β) : Prop :=
  ∀ o r, h = .finished o r →
    ∃ rs, s.servers[o]? = some rs ∧ (rs.dispatchf = none → r.ok = true)

theorem Handler.Served.step {s s' : State σ β} {a : Action σ β} {h : Handler β}
    (hp : h.Served s) (hst : Stepped s a s') : h.Served s' := by
  intro o r hh
  obtain ⟨rs, ho, hr⟩ := hp o r hh
  obtain ⟨rs', ho', hf⟩ := hst.servers ho
  exact ⟨rs', ho', fun h' => hr (hf ▸ h')⟩

/-- What a call on a disabled end can be: it is not admitted. -/
def Exchange.Refused (x : Exchange β) : Prop :=
  x.handler = .idle ∧ match x.stage with
    | .sending | .arrived => True
    | .replying r | .returned r => r = .failed
    | _ => False

theorem Exchange.Refused.move {s : State σ β} {x : Exchange β} (h : x.Refused)
    (hs : s.net.enabled x.req.endname = false) {m : Move} {stage : Stage β}
    (hm : Moved s x m stage) : Exchange.Refused
      { x with stage := stage, handler := State.started x.handler stage } := by
  cases hm with
  | accept hx hl => exact ⟨h.1, trivial⟩
  | abandon hx hd => exact ⟨h.1, rfl⟩
  | grant hx hi =>
      have := (readEndnameInfo_eq_some hi).1
      rw [hs] at this
      cases this
  | refuse hx hi => exact ⟨h.1, rfl⟩
  | drop hx hr => exact ⟨h.1, rfl⟩
  | dead hx hd => exact ⟨h.1, rfl⟩
  | dropReply hx hr => exact ⟨h.1, rfl⟩
  | deliver hx => simpa [Exchange.Refused, State.started, hx] using h
  | dispatch hx | receive hx hh | expire hx hd | reply hx hd => simp [Exchange.Refused, hx] at h

/-- **A disabled end reaches nobody.**  While the end `e` is disabled, no call made on it is
executed by any server, and every such call that has returned has returned `false`. -/
theorem disabled_call_fails {e : String} {s t : State σ β} (hs : (system σ β).Reachable s)
    (ht : (system σ β).ReachesBy (fun s _ => s.net.enabled e = false) s t) {n : ℕ}
    {x : Exchange β} (hn : s.calls.length ≤ n) (hx : t.calls[n]? = some x)
    (he : x.req.endname = e) :
    (∀ r, RemoteCall.Event.exec n r ∉ t.log) ∧ ∀ r, x.stage = .returned r → r = .failed := by
  have href : x.Refused := by
    clear hs
    induction ht generalizing x with
    | refl =>
        rw [List.getElem?_eq_none hn] at hx
        cases hx
    | step _ hc hst ih =>
        cases (State.step_cases hst).callStep hx with
        | same h => exact ih h he
        | new req h => exact ⟨rfl, trivial⟩
        | move hx' hm => exact (ih hx' he).move (he ▸ hc) hm
        | execute hx' hh ho hr =>
            have := (ih hx' he).1
            rw [hh] at this
            cases this
  have hreach := hs.trans (ht.mono (fun _ _ _ => trivial))
  refine ⟨?_, ?_⟩
  · intro r hr
    obtain ⟨c, hc, hexec⟩ := ((RemoteCall.reachable_logged (reachable_abs hreach)).exec n r).mp hr
    rw [abs_calls hx, Option.some.injEq] at hc
    subst hc
    simp [Exchange.abs, href.1, Handler.reply?] at hexec
  · intro r hr
    have := href.2
    rwa [hr] at this

theorem disabled_call_fails_returned : ∃ t : State ℕ ℕ,
    (∀ r, RemoteCall.Event.exec 0 r ∉ t.log) ∧ RemoteCall.Event.ret 0 none ∈ t.log := by
  obtain ⟨s, t, hs, ht, hp⟩ := Lts.exists_reaches_of_exec (L := system ℕ ℕ)
    (C := fun _ _ => True) (D := fun s _ => s.net.enabled "e" = false)
    (p := fun s t => decide (s.calls.length ≤ 0 ∧ t.calls[0]? = some (⟨⟨"e", "Counter.Add", 5⟩,
      .returned .failed, .idle⟩ : Exchange ℕ) ∧ RemoteCall.Event.ret 0 none ∈ t.log))
    (setUp ++ [.control (.enable "e" false)])
    [.call ⟨"e", "Counter.Add", 5⟩, .move 0 .accept, .move 0 .read, .move 0 .deliver] (by decide)
  obtain ⟨hn, hc, hret⟩ := of_decide_eq_true hp
  exact ⟨t, (disabled_call_fails hs ht hn hc rfl).1, hret⟩

end DistributedSystems.Labrpc
