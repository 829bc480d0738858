import DistributedSystems.LabrpcCalls

/-! # Every call returns

The network takes finitely many steps by itself: every move of a call and every handler that returns
leaves less to do (`State.work`).  When no move is left, a call has returned, or its handler has not
returned and its server stays (`Exchange.Blocked`), or the process has ended (`calls_return`). -/

namespace DistributedSystems.Labrpc

variable {σ β : Type}

/-- How many moves a call can still make. -/
def Stage.rank : Stage β → ℕ
  | .sending => 6
  | .arrived => 5
  | .admitted _ => 4
  | .waiting _ => 3
  | .left _ _ => 2
  | .replying _ => 1
  | .returned _ => 0

/-- Whether the handler still has to run. -/
def Handler.rank : Handler β → ℕ
  | .running _ => 1
  | _ => 0

def Exchange.work (x : Exchange β) : ℕ := 2 * x.stage.rank + x.handler.rank

/-- A bound on the steps the network can still take by itself. -/
def State.work (s : State σ β) : ℕ :=
  (s.calls.map Exchange.work).sum + s.listening.toNat + (!s.exited).toNat

theorem Handler.rank_le (h : Handler β) : h.rank ≤ 1 := by
  cases h <;> simp [Handler.rank]

theorem Moved.rank {s : State σ β} {x : Exchange β} {m : Move} {stage : Stage β}
    (hm : Moved s x m stage) : stage.rank < x.stage.rank := by
  cases hm with
  | accept hx _ | abandon hx _ | grant hx _ | refuse hx _ | drop hx _ | dispatch hx | receive hx _
  | expire hx _ | dead hx _ | reply hx _ | dropReply hx _ | deliver hx =>
      rw [hx]
      simp [Stage.rank]

theorem Moved.work {s : State σ β} {x : Exchange β} {m : Move} {stage : Stage β}
    (hm : Moved s x m stage) :
    Exchange.work { x with stage := stage, handler := State.started x.handler stage } < x.work := by
  have hrank := hm.rank
  have hle := (State.started x.handler stage).rank_le
  simp only [Exchange.work]
  omega

/-- Every step the network takes by itself leaves it less work. -/
theorem Stepped.work {s s' : State σ β} {a : Action σ β} (h : Stepped s a s')
    (hi : a.internal = true) (he : s.exited = false) : s'.work < s.work := by
  cases h with
  | newServer rs => cases hi
  | addServer name hrs => cases hi
  | control hn => cases hi
  | exit a => simp [State.work, he]
  | cleanup hd => cases hi
  | stop hd hl => simp [State.work, hl]
  | call req => cases hi
  | move hx hm =>
      have := sum_map_set_lt hx hm.work
      simp only [State.work, State.move_calls, State.move_listening, State.move_exited]
      omega
  | @execute n o x rs rs' r hx hh ho hr =>
      have hwork : Exchange.work { x with handler := .finished o r } < x.work := by
        simp [Exchange.work, hh, Handler.rank]
      have := sum_map_set_lt hx hwork
      simp only [State.work, State.execute_calls, State.execute_listening, State.execute_exited]
      omega

/-- The call refers to one of the first `k` server objects. -/
structure Exchange.Within (k : ℕ) (x : Exchange β) : Prop where
  admitted : ∀ i, x.stage = .admitted i → i.server < k
  running : ∀ o, x.handler = .running o → o < k

theorem Exchange.Within.mono {k l : ℕ} {x : Exchange β} (h : x.Within k) (hle : k ≤ l) :
    x.Within l :=
  ⟨fun i hi => (h.admitted i hi).trans_le hle, fun o ho => (h.running o ho).trans_le hle⟩

/-- The network points to existing server objects, and it listens until it is cleaned up. -/
structure Sound (s : State σ β) : Prop where
  server : ∀ name o, s.net.servers name = some o → o < s.servers.length
  call : ∀ (n : ℕ) (x : Exchange β), s.calls[n]? = some x → x.Within s.servers.length
  listening : s.listening = true ∨ s.done = true

/-- Apart from `AddServer`, no method puts a server into the network. -/
theorem apply_servers {rn rn' : Network} {c : Control} (h : rn.apply c = some rn')
    {name : String} {o : ℕ} (ho : rn'.servers name = some o) : rn.servers name = some o := by
  cases c with
  | deleteServer servername =>
      simp only [Network.apply, Option.some.injEq] at h
      subst h
      rw [Network.deleteServer_servers, Function.update_apply] at ho
      split at ho
      · cases ho
      · exact ho
  | makeEnd endname =>
      simp only [Network.apply, Network.makeEnd, Option.ite_none_left_eq_some,
        Option.some.injEq] at h
      obtain ⟨-, rfl⟩ := h
      exact ho
  | deleteEnd endname =>
      simp only [Network.apply, Network.deleteEnd, Option.ite_none_right_eq_some,
        Option.some.injEq] at h
      obtain ⟨-, rfl⟩ := h
      exact ho
  | connect endname servername =>
      simp only [Network.apply, Option.some.injEq] at h
      subst h
      exact ho
  | enable endname enabled =>
      simp only [Network.apply, Option.some.injEq] at h
      subst h
      exact ho
  | reliable yes =>
      simp only [Network.apply, Option.some.injEq] at h
      subst h
      exact ho

theorem Stepped.servers_length {s s' : State σ β} {a : Action σ β} (h : Stepped s a s') :
    s.servers.length ≤ s'.servers.length := by
  cases h <;> simp

theorem Sound.call_step {s s' : State σ β} {a : Action σ β} (hS : Sound s) (h : Stepped s a s')
    {n : ℕ} {x : Exchange β} (hx : s'.calls[n]? = some x) : x.Within s'.servers.length := by
  refine Exchange.Within.mono ?_ h.servers_length
  cases h.callStep hx with
  | same hx => exact hS.call n x hx
  | new req hn => exact ⟨by simp, by simp⟩
  | move hx' hm =>
      have hold := hS.call n _ hx'
      cases hm with
      | grant hx hi =>
          refine ⟨?_, hold.running⟩
          rintro j ⟨⟩
          exact hS.server _ _ (readEndnameInfo_eq_some hi).2.2
      | dispatch hstage =>
          refine ⟨by simp, ?_⟩
          rintro o ⟨⟩
          exact hold.admitted _ hstage
      | _ => exact ⟨by simp, hold.running⟩
  | execute hx' hh ho hr => exact ⟨(hS.call n _ hx').admitted, by simp⟩

theorem Sound.step {s s' : State σ β} {a : Action σ β} (hS : Sound s) (h : Stepped s a s') :
    Sound s' := by
  refine ⟨?_, fun n x hx => hS.call_step h hx, ?_⟩
  · intro name o ho
    refine lt_of_lt_of_le ?_ h.servers_length
    cases h with
    | control hn => exact hS.server name o (apply_servers hn ho)
    | addServer servername hrs =>
        simp only [State.setNet_net, Network.addServer_servers, Function.update_apply] at ho
        split at ho
        · exact Option.some.inj ho ▸ hrs
        · exact hS.server name o ho
    | _ => exact hS.server name o ho
  · cases h with
    | stop hd hl => exact Or.inr hd
    | cleanup hd => exact Or.inr rfl
    | _ => exact hS.listening

theorem reachable_sound {C : State σ β → Action σ β → Prop} {s : State σ β}
    (h : (system σ β).ReachableBy C s) : Sound s := by
  refine h.invariant ?_ (fun _ _ _ _ hS _ hs => hS.step (State.step_cases hs))
  exact ⟨by simp [system, State.init, Network.make], by simp [system, State.init], Or.inl rfl⟩

/-- The call waits for a handler that has not returned, at a server that is still there. -/
def Exchange.Blocked (s : State σ β) (x : Exchange β) : Prop :=
  ∃ i, x.stage = .waiting i ∧ x.handler = .running i.server ∧
    s.net.isServerDead x.req.endname i.servername i.server = false

/-- A call that has not returned can go on or waits for its handler. -/
theorem Sound.enabled {s : State σ β} (hS : Sound s)
    (hok : ∀ (n : ℕ) (x : Exchange β), s.calls[n]? = some x → x.Ok) (he : s.exited = false)
    {n : ℕ} {x : Exchange β} (hx : s.calls[n]? = some x) (hopen : ∀ r, x.stage ≠ .returned r) :
    (∃ m, s.step (.move n m) ≠ none) ∨ x.Blocked s := by
  have move : ∀ m, s.next x m ≠ none → ∃ m, s.step (.move n m) ≠ none := by
    intro m hm
    refine ⟨m, ?_⟩
    obtain ⟨stage, hstage⟩ := Option.ne_none_iff_exists'.mp hm
    simp [State.step, he, hx, hstage]
  cases hst : x.stage with
  | sending =>
      rcases hS.listening with hl | hd
      · exact Or.inl (move .accept (by simp [State.next, hst, hl]))
      · exact Or.inl (move .abandon (by simp [State.next, hst, hd]))
  | arrived =>
      refine Or.inl (move .read ?_)
      simp only [State.next, hst]
      split <;> simp
  | admitted i => exact Or.inl (move .dispatch (by simp [State.next, hst]))
  | waiting i =>
      have := hok n x hx
      simp only [Exchange.Ok, hst] at this
      rcases this with hh | ⟨r, hh⟩
      · cases hdead : s.net.isServerDead x.req.endname i.servername i.server with
        | true => exact Or.inl (move .expire (by simp [State.next, hst, hdead]))
        | false => exact Or.inr ⟨i, hst, hh, hdead⟩
      · exact Or.inl (move .receive (by simp [State.next, hst, hh]))
  | left i reply =>
      refine Or.inl (move .conclude ?_)
      simp only [State.next, hst]
      split <;> simp
  | replying r => exact Or.inl (move .deliver (by simp [State.next, hst]))
  | returned r => exact absurd hst (hopen r)

/-- A handler that is running can return. -/
theorem Sound.step_execute_ne_none {s : State σ β} (hS : Sound s) (he : s.exited = false) {n o : ℕ}
    {x : Exchange β} (hx : s.calls[n]? = some x) (hh : x.handler = .running o) :
    s.step (.execute n) ≠ none := by
  have hlt := (hS.call n x hx).running _ hh
  simp only [State.step, he, hx, hh, List.getElem?_eq_getElem hlt, Option.bind_eq_bind,
    Option.bind_some, Bool.false_eq_true, if_false]
  split <;> simp

/-- The steps taken by the network itself. -/
def Internal (_ : State σ β) (a : Action σ β) : Prop := a.internal = true

instance (s : State σ β) (a : Action σ β) : Decidable (Internal s a) :=
  inferInstanceAs (Decidable (a.internal = true))

/-- **Every call returns, unless its handler does not.**  From every state the network takes at most
`work` steps by itself.  When no move is left, every call has returned, or waits for a handler that
has not returned at a server that is still there, or the process has ended.  When the handlers have
returned as well, every call has returned. -/
theorem calls_return {s t : State σ β} (hs : (system σ β).Reachable s) {l : List (Action σ β)}
    (ht : (system σ β).exec Internal s l = some t) :
    l.length ≤ s.work ∧ ((∀ n m, t.step (.move n m) = none) → t.exited = true ∨
      (∀ x ∈ t.calls, (∃ r, x.stage = .returned r) ∨ x.Blocked t) ∧
      ((∀ n, t.step (.execute n) = none) → ∀ x ∈ t.calls, ∃ r, x.stage = .returned r)) := by
  have hreach : (system σ β).Reachable t :=
    hs.trans ((Lts.ReachesBy.of_exec .refl ht).mono (fun _ _ _ => trivial))
  have hS := reachable_sound hreach
  refine ⟨?_, ?_⟩
  · have hwork : ∀ (s : State σ β) a s', Internal s a → (system σ β).step s a = some s' →
        s'.work < s.work := by
      intro s a s' hi hst
      refine (State.step_cases hst).work hi ?_
      cases he : s.exited with
      | false => rfl
      | true => simp [system, State.step, he] at hst
    have := Lts.length_add_le_of_exec hwork ht
    omega
  · intro hstuck
    cases he : t.exited with
    | true => exact Or.inl rfl
    | false =>
        have hcases : ∀ x ∈ t.calls, (∃ r, x.stage = .returned r) ∨ x.Blocked t := by
          intro x hx
          obtain ⟨n, hn⟩ := List.mem_iff_getElem?.mp hx
          by_contra hopen
          rw [not_or] at hopen
          rcases hS.enabled (reachable_ok hreach) he hn (fun r hr => hopen.1 ⟨r, hr⟩) with
            ⟨m, hm⟩ | hblocked
          · exact hm (hstuck n m)
          · exact hopen.2 hblocked
        refine Or.inr ⟨hcases, ?_⟩
        intro hreturn x hx
        rcases hcases x hx with hret | ⟨i, -, hh, -⟩
        · exact hret
        · obtain ⟨n, hn⟩ := List.mem_iff_getElem?.mp hx
          exact absurd (hreturn n) (hS.step_execute_ne_none he hn hh)

theorem calls_return_answered : ∃ s t : State ℕ ℕ,
    s.calls.length = 1 ∧ (∃ l, (system ℕ ℕ).exec Internal s l = some t ∧ l.length = 7) ∧
      7 ≤ s.work := by
  obtain ⟨s, hs, hp⟩ := Lts.exists_of_exec (L := system ℕ ℕ) (C := fun _ _ => True)
    (p := fun s => decide (s.calls.length = 1) &&
      ((system ℕ ℕ).exec Internal s (answeredCall.drop 1)).isSome)
    (setUp ++ answeredCall.take 1) (by decide)
  rw [Bool.and_eq_true, decide_eq_true_eq] at hp
  obtain ⟨t, ht⟩ := Option.isSome_iff_exists.mp hp.2
  exact ⟨s, t, hp.1, ⟨_, ht, rfl⟩, (calls_return hs ht).1⟩

end DistributedSystems.Labrpc
