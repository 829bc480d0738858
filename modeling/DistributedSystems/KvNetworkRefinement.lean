import DistributedSystems.KvNetwork

/-! # What the Clerks see on the simulated network

`Kv.system` describes Clerks and server over a network of its own, with requests and replies in
flight.  Here that description is justified: every run of `KvNetwork.system` shows its Clerks the
history of a run of `Kv.system` (`exists_kv`), whatever the harness does to the network.

The simulation relates a network call to the attempt it carries (`Carries`): before its handler
has run the attempt's request is in flight in `Kv.system`, afterwards its reply is.

When moreover no end is disabled or deleted and the server is not deleted, `processReq` waits for
every handler it has started.  Then a request is executed only while its `Call` is outstanding,
also when the network is unreliable, and the Clerks see a linearizable store
(`clerks_linearizable`). -/

namespace DistributedSystems.KvNetwork

open Kv (Op Reply Ret Event KVServer)
open Labrpc (Server Network Exchange)

variable {β : Type}

/-! ### The simulation -/

/-- A call as `Kv.system` sees it. -/
def Call.abs (c : Call) : Kv.Call := ⟨c.clerk, c.op, c.attempt, c.ret⟩

/-- What the network call `x`, which carries the attempt `t.2` of the Clerk's call `t.1`, means
for the abstract state `k`: it is the Clerk's request; as long as it has not been executed the
request is in flight, and once it has been executed the reply is in flight until the Clerk goes
on; and the Clerk goes on only after it has returned. -/
structure Carries (w : Wire β) (k : Kv.State) (x : Exchange β) (t : ℕ × ℕ) : Prop where
  call : ∃ c, k.calls[t.1]? = some c ∧ t.2 ≤ c.attempt ∧
    x.req.svcMeth = svcMeth c.op ∧ x.req.args = w.args c.op
  request : x.handler.reply? = none →
    ∀ c, k.calls[t.1]? = some c → ⟨t.1, t.2, c.op⟩ ∈ k.requests
  reply : ∀ r, x.handler.reply? = some r → ∀ c, k.calls[t.1]? = some c → c.ret = none →
    c.attempt = t.2 → ∃ reply, r.reply = some (w.encode reply) ∧
      w.decode c.op (w.encode reply) = some reply ∧ ⟨t.1, t.2, reply⟩ ∈ k.replies
  past : ∀ c, k.calls[t.1]? = some c → c.ret ≠ none ∨ t.2 < c.attempt → x.stage.ret? ≠ none

/-- The state `s` of the network system and the abstract state `k`, where `owners` tells for every
network call which attempt of which call it carries. -/
structure Sim (w : Wire β) (s : State β) (k : Kv.State) (owners : List (ℕ × ℕ)) : Prop where
  calls : k.calls = s.calls.map Call.abs
  history : Kv.history k = s.history
  server : ∃ rs, s.net.servers = [rs] ∧ rs.rcvr = k.server ∧
    rs.services "KVServer" = some w.service ∧ rs.dispatchf = none
  length : owners.length = s.net.calls.length
  nodup : owners.Nodup
  current : ∀ (n : ℕ) (c : Call), s.calls[n]? = some c → owners[c.cur]? = some (n, c.attempt)
  carries : ∀ (m : ℕ) (x : Exchange β) (t : ℕ × ℕ), s.net.calls[m]? = some x →
    owners[m]? = some t → Carries w k x t
  executed : ∀ t ∈ k.log.filterMap Event.tag?, t ∈ owners

theorem sim_init (w : Wire β) : Sim w (State.init w) Kv.State.init [] where
  calls := rfl
  history := rfl
  server := ⟨w.server, rfl, rfl, by simp [Wire.server, Server.addService, Wire.service], rfl⟩
  length := rfl
  nodup := List.nodup_nil
  current := by simp [State.init]
  carries := by simp [State.init, Labrpc.State.init]
  executed := by simp [Kv.State.init]

/-- Nothing changes for a network call whose messages stay in flight. -/
theorem Carries.of_same {w : Wire β} {k k' : Kv.State} {x : Exchange β} {t : ℕ × ℕ}
    (h : Carries w k x t) (hc : k'.calls[t.1]? = k.calls[t.1]?)
    (hq : ∀ op, ⟨t.1, t.2, op⟩ ∈ k.requests → ⟨t.1, t.2, op⟩ ∈ k'.requests)
    (hp : ∀ reply, ⟨t.1, t.2, reply⟩ ∈ k.replies → ⟨t.1, t.2, reply⟩ ∈ k'.replies) :
    Carries w k' x t where
  call := by rw [hc]; exact h.call
  request hx c hcall := hq _ (h.request hx c (hc ▸ hcall))
  reply r hr c hcall hopen hatt := by
    obtain ⟨reply, h₁, h₂, h₃⟩ := h.reply r hr c (hc ▸ hcall) hopen hatt
    exact ⟨reply, h₁, h₂, hp _ h₃⟩
  past c hcall := h.past c (hc ▸ hcall)

section sim

variable {w : Wire β} {s : State β} {k : Kv.State} {owners : List (ℕ × ℕ)}

theorem Sim.getElem? (h : Sim w s k owners) {n : ℕ} {c : Call} (hc : s.calls[n]? = some c) :
    k.calls[n]? = some c.abs := by simp [h.calls, hc]

theorem Sim.exchange (h : Sim w s k owners) {t : ℕ × ℕ} (ht : t ∈ owners) :
    ∃ (m : ℕ) (x : Exchange β), owners[m]? = some t ∧ s.net.calls[m]? = some x ∧
      Carries w k x t := by
  obtain ⟨m, hm⟩ := List.mem_iff_getElem?.mp ht
  have hlt : m < s.net.calls.length := h.length ▸ (List.getElem?_eq_some_iff.mp hm).1
  have hx := List.getElem?_eq_getElem hlt
  exact ⟨m, _, hm, hx, h.carries m _ t hx hm⟩

/-- The attempts made so far. -/
theorem Sim.attempt_le (h : Sim w s k owners) {n a : ℕ} (ht : (n, a) ∈ owners) :
    ∃ c, s.calls[n]? = some c ∧ a ≤ c.attempt := by
  obtain ⟨m, x, -, -, hcar⟩ := h.exchange ht
  obtain ⟨c, hc, hle, -⟩ := hcar.call
  rw [h.calls, List.getElem?_map, Option.map_eq_some_iff] at hc
  obtain ⟨c', hc', rfl⟩ := hc
  exact ⟨c', hc', hle⟩

theorem Sim.index_unique (h : Sim w s k owners) {m m' : ℕ} {t : ℕ × ℕ}
    (hm : owners[m]? = some t) (hm' : owners[m']? = some t) : m = m' := by
  obtain ⟨hlt, rfl⟩ := List.getElem?_eq_some_iff.mp hm
  obtain ⟨hlt', he⟩ := List.getElem?_eq_some_iff.mp hm'
  exact (h.nodup.getElem_inj_iff.mp he).symm

/-- When the current network call of the call `n` has returned, all its network calls have. -/
theorem Sim.all_returned (h : Sim w s k owners) {n : ℕ} {c : Call} (hc : s.calls[n]? = some c)
    {y : Exchange β} (hy : s.net.calls[c.cur]? = some y) (hret : y.stage.ret? ≠ none) {m a : ℕ}
    {x : Exchange β} (hx : s.net.calls[m]? = some x) (hm : owners[m]? = some (n, a)) :
    x.stage.ret? ≠ none := by
  have hcar := h.carries m x _ hx hm
  obtain ⟨c', hc', hle⟩ := h.attempt_le (List.mem_of_getElem? hm)
  rw [hc, Option.some.injEq] at hc'
  subst hc'
  rcases hle.lt_or_eq with hlt | rfl
  · exact hcar.past _ (h.getElem? hc) (Or.inr hlt)
  · have := h.index_unique hm (h.current n c hc)
    subst this
    rw [hx, Option.some.injEq] at hy
    exact hy ▸ hret

/-! #### Steps of the Clerks -/

theorem Sim.invoke (h : Sim w s k owners) (clerk : ℕ) (op : Op) (rn : Network) (e : String) :
    Sim w (s.invoke w clerk op rn e) (k.invoke clerk op) (owners ++ [(s.calls.length, 0)]) := by
  have hlen : k.calls.length = s.calls.length := by simp [h.calls]
  constructor
  · simp [h.calls, Call.abs]
  · simp [Kv.history, ← h.history, Event.visible, hlen]
  · exact h.server
  · simp [h.length]
  · refine List.nodup_append.mpr ⟨h.nodup, List.nodup_singleton _, ?_⟩
    rintro t ht t' ht' rfl
    rw [List.mem_singleton] at ht'
    subst ht'
    obtain ⟨c, hc, -⟩ := h.attempt_le ht
    simp at hc
  · intro n c hc
    rcases getElem?_concat_cases hc with ⟨rfl, rfl⟩ | hc
    · simp [← h.length]
    · have := h.current n c hc
      rwa [List.getElem?_append_left (List.getElem?_eq_some_iff.mp this).1]
  · intro m x t hx ht
    rcases getElem?_concat_cases hx with ⟨rfl, rfl⟩ | hx
    · simp only [Labrpc.State.setNet_calls, ← h.length, List.getElem?_concat_length,
        Option.some.injEq] at ht
      subst ht
      have hnew : (k.invoke clerk op).calls[s.calls.length]? =
          some ⟨clerk, op, 0, none⟩ := by simp [← hlen]
      refine ⟨⟨_, hnew, le_rfl, rfl, rfl⟩, ?_, by simp [Labrpc.Handler.reply?], ?_⟩
      · intro _ c hc
        rw [hnew, Option.some.injEq] at hc
        subst hc
        simp [hlen]
      · intro c hc hp
        rw [hnew, Option.some.injEq] at hc
        subst hc
        simp at hp
    · have hlt : m < owners.length := h.length ▸ (List.getElem?_eq_some_iff.mp hx).1
      rw [List.getElem?_append_left hlt] at ht
      have hcar := h.carries m x t hx ht
      refine hcar.of_same ?_ (fun op' hq => by simp [hq]) (fun reply hp => hp)
      obtain ⟨c, hc, -⟩ := hcar.call
      rw [Kv.State.invoke_calls, List.getElem?_append_left (List.getElem?_eq_some_iff.mp hc).1]
  · intro t ht
    refine List.mem_append_left _ (h.executed t ?_)
    simpa [Event.tag?] using ht

theorem Sim.finish (h : Sim w s k owners) {i n : ℕ} {c : Call} {y : Exchange β} {p : Kv.Response}
    (hc : s.calls[n]? = some c) (hy : s.net.calls[c.cur]? = some y)
    (hret : y.stage.ret? ≠ none) (hp : k.replies[i]? = some p) (hn : p.call = n) (r : Ret) :
    Sim w (s.finish n c r) (k.finish i n c.abs r) owners := by
  have hset : (k.finish i n c.abs r).calls[n]? = some { c.abs with ret := some r } := by
    simp [(List.getElem?_eq_some_iff.mp (h.getElem? hc)).1]
  constructor
  · simp [h.calls, List.map_set, Call.abs]
  · simp [Kv.history, ← h.history, Event.visible]
  · exact h.server
  · exact h.length
  · exact h.nodup
  · intro m d hd
    rcases getElem?_set_cases hd with ⟨rfl, rfl⟩ | ⟨-, hd⟩
    · exact h.current m c hc
    · exact h.current m d hd
  · intro m x t hx ht
    have hcar := h.carries m x t hx ht
    obtain ⟨n', a⟩ := t
    by_cases htn : n' = n
    · subst htn
      obtain ⟨c', hc', hcall⟩ := hcar.call
      rw [h.getElem? hc, Option.some.injEq] at hc'
      subst hc'
      refine ⟨⟨_, hset, hcall⟩, ?_, ?_, fun _ _ _ => h.all_returned hc hy hret hx ht⟩
      · intro hx' d hd
        rw [hset, Option.some.injEq] at hd
        subst hd
        exact hcar.request hx' c.abs (h.getElem? hc)
      · intro r' _ d hd hopen
        rw [hset, Option.some.injEq] at hd
        subst hd
        cases hopen
    · refine hcar.of_same (List.getElem?_set_ne (Ne.symm htn)) (fun op hq => hq) ?_
      intro reply hreply
      refine mem_eraseIdx_of_ne hp hreply ?_
      rintro rfl
      exact htn hn
  · intro t ht
    exact h.executed t (by simpa [Event.tag?] using ht)

theorem Sim.resend (h : Sim w s k owners) {n : ℕ} {c : Call} {y : Exchange β}
    (hc : s.calls[n]? = some c) (hopen : c.ret = none) (hy : s.net.calls[c.cur]? = some y)
    (hret : y.stage.ret? ≠ none) (e : String) :
    Sim w (s.resend w n c e) (k.resend n c.abs) (owners ++ [(n, c.attempt + 1)]) := by
  have hset : (k.resend n c.abs).calls[n]? = some { c.abs with attempt := c.attempt + 1 } := by
    simp [(List.getElem?_eq_some_iff.mp (h.getElem? hc)).1, Call.abs]
  constructor
  · simp [h.calls, List.map_set, Call.abs]
  · exact h.history
  · exact h.server
  · simp [h.length]
  · refine List.nodup_append.mpr ⟨h.nodup, List.nodup_singleton _, ?_⟩
    rintro t ht t' ht' rfl
    rw [List.mem_singleton] at ht'
    subst ht'
    obtain ⟨c', hc', hle⟩ := h.attempt_le ht
    rw [hc, Option.some.injEq] at hc'
    subst hc'
    omega
  · intro m d hd
    rcases getElem?_set_cases hd with ⟨rfl, rfl⟩ | ⟨-, hd⟩
    · simp [← h.length]
    · have := h.current m d hd
      rwa [List.getElem?_append_left (List.getElem?_eq_some_iff.mp this).1]
  · intro m x t hx ht
    rcases getElem?_concat_cases hx with ⟨rfl, rfl⟩ | hx₀
    · rw [← h.length, List.getElem?_concat_length, Option.some.injEq] at ht
      subst ht
      refine ⟨⟨_, hset, le_rfl, rfl, rfl⟩, ?_, by simp [Labrpc.Handler.reply?], ?_⟩
      · intro _ d hd
        rw [hset, Option.some.injEq] at hd
        subst hd
        simp [Call.abs]
      · intro d hd hp
        rw [hset, Option.some.injEq] at hd
        subst hd
        simp [Call.abs, hopen] at hp
    · have hlt : m < owners.length := h.length ▸ (List.getElem?_eq_some_iff.mp hx₀).1
      rw [List.getElem?_append_left hlt] at ht
      have hcar := h.carries m x t hx₀ ht
      obtain ⟨n', a⟩ := t
      by_cases htn : n' = n
      · subst htn
        obtain ⟨c', hc', hle, hcall⟩ := hcar.call
        rw [h.getElem? hc, Option.some.injEq] at hc'
        subst hc'
        refine ⟨⟨_, hset, Nat.le_succ_of_le hle, hcall⟩, ?_, ?_,
          fun _ _ _ => h.all_returned hc hy hret hx₀ ht⟩
        · intro hx' d hd
          rw [hset, Option.some.injEq] at hd
          subst hd
          exact List.mem_append_left _ (hcar.request hx' c.abs (h.getElem? hc))
        · intro r _ d hd _ hatt
          rw [hset, Option.some.injEq] at hd
          subst hd
          simp only [Call.abs] at hatt hle
          omega
      · exact hcar.of_same (List.getElem?_set_ne (Ne.symm htn)) (fun op hq => by simp [hq])
          (fun reply hp => hp)
  · intro t ht
    exact List.mem_append_left _ (h.executed t ht)

/-! #### Steps of the network -/

/-- The network executes the request that carries the attempt `t`. -/
theorem Sim.exec (h : Sim w s k owners) {m o i : ℕ} {x : Exchange β} {rs rs' : Server KVServer β}
    {r : Labrpc.ReplyMsg β} {q : Kv.Request} (hx : s.net.calls[m]? = some x)
    (hh : x.handler = .running o) (ho : s.net.servers[o]? = some rs)
    (hr : rs.dispatch x.req = some (rs', r)) (hm : owners[m]? = some q.tag)
    (hq : k.requests[i]? = some q) (hop : k.calls[q.call]?.map Kv.Call.op = some q.op) :
    Sim w (s.setNet (s.net.execute m x o rs' r)) (k.exec i q) owners := by
  obtain ⟨rs₀, hservers, hrcvr, hsvc, hf⟩ := h.server
  have ho0 : o = 0 := by
    have := (List.getElem?_eq_some_iff.mp ho).1
    simp only [hservers, List.length_singleton] at this
    omega
  subst ho0
  rw [hservers, List.getElem?_cons_zero, Option.some.injEq] at ho
  subst ho
  have hcar := h.carries m x _ hx hm
  obtain ⟨c, hc, -, hmeth, hargs⟩ := hcar.call
  have hcop : c.op = q.op := by
    have : k.calls[q.call]? = some c := hc
    simpa [this] using hop
  have hreq : x.req = ⟨x.req.endname, svcMeth q.op, w.args q.op⟩ := by
    rw [← hcop, ← hmeth, ← hargs]
  rw [hreq, dispatch_request w hsvc hf, hrcvr, Option.some.injEq, Prod.mk.injEq] at hr
  obtain ⟨rfl, rfl⟩ := hr
  constructor
  · exact h.calls
  · simpa [Kv.history, Event.visible, List.filterMap_cons] using h.history
  · exact ⟨{ rs₀ with rcvr := (k.server.handle q.op).1, count := rs₀.count + 1 },
      by simp [hservers], rfl, hsvc, hf⟩
  · simpa using h.length
  · exact h.nodup
  · exact h.current
  · intro m' x' t hx' ht
    rcases getElem?_set_cases hx' with ⟨rfl, rfl⟩ | ⟨hne, hx'⟩
    · rw [hm, Option.some.injEq] at ht
      subst ht
      refine ⟨hcar.call, by simp [Labrpc.Handler.reply?], ?_, hcar.past⟩
      intro r' hr' d hd _ _
      simp only [Labrpc.Handler.reply?, Option.some.injEq] at hr'
      subst hr'
      have hdc : d = c := Option.some.inj (hd.symm.trans hc)
      refine ⟨(k.server.handle q.op).2, rfl, ?_, by simp [Kv.Request.tag]⟩
      rw [hdc, hcop]
      exact decode_handle w _ _
    · refine (h.carries m' x' t hx' ht).of_same rfl ?_ (fun reply hp => by simp [hp])
      intro op hmem
      refine mem_eraseIdx_of_ne hq hmem ?_
      rintro rfl
      exact hne (h.index_unique ht hm)
  · intro t ht
    simp only [Kv.State.exec_log, List.filterMap_append, List.mem_append, List.filterMap_cons,
      Event.tag?, List.filterMap_nil, List.mem_singleton] at ht
    rcases ht with ht | rfl
    · exact h.executed t ht
    · exact List.mem_of_getElem? hm

/-- The other steps of the network are not noticed. -/
theorem Sim.quiet (h : Sim w s k owners) {net : Labrpc.State KVServer β}
    (hservers : net.servers = s.net.servers) (hlen : net.calls.length = s.net.calls.length)
    (hcalls : ∀ (m : ℕ) (x : Exchange β), net.calls[m]? = some x → ∃ y, s.net.calls[m]? = some y ∧
      x.req = y.req ∧ x.handler.reply? = y.handler.reply? ∧
        (y.stage.ret? ≠ none → x.stage.ret? ≠ none)) :
    Sim w (s.setNet net) k owners where
  calls := h.calls
  history := h.history
  server := by simpa [hservers] using h.server
  length := by simpa [hlen] using h.length
  nodup := h.nodup
  current := h.current
  executed := h.executed
  carries m x t hx ht := by
    obtain ⟨y, hy, hreq, hreply, hstage⟩ := hcalls m x hx
    have hcar := h.carries m y t hy ht
    refine ⟨hreq ▸ hcar.call, fun hx => hcar.request (hreply ▸ hx),
      fun r hr => hcar.reply r (hreply ▸ hr), fun c hc hp => hstage (hcar.past c hc hp)⟩

/-- The handlers that have not run belong to calls that have not returned. -/
def Prompt (net : Labrpc.State KVServer β) : Prop :=
  ∀ (m : ℕ) (x : Exchange β) (o : ℕ), net.calls[m]? = some x → x.handler = .running o →
    x.stage.ret? = none

/-- The abstract state the step leads to, with one abstract step or none. -/
def Matched (w : Wire β) (s s' : State β) (k : Kv.State) : Prop :=
  (∃ owners, Sim w s' k owners) ∨ ∃ b k' owners, (Prompt s.net → Kv.Timely k b) ∧
    Kv.State.step k b = some k' ∧ Sim w s' k' owners

theorem Sim.matched_execute (h : Sim w s k owners) {m o : ℕ} {x : Exchange β}
    {rs rs' : Server KVServer β} {r : Labrpc.ReplyMsg β} (hx : s.net.calls[m]? = some x)
    (hh : x.handler = .running o) (ho : s.net.servers[o]? = some rs)
    (hr : rs.dispatch x.req = some (rs', r)) :
    Matched w s (s.setNet (s.net.execute m x o rs' r)) k := by
  have hlt : m < owners.length := h.length ▸ (List.getElem?_eq_some_iff.mp hx).1
  obtain ⟨⟨n, a⟩, ht⟩ : ∃ t, owners[m]? = some t := ⟨_, List.getElem?_eq_getElem hlt⟩
  have hcar := h.carries m x _ hx ht
  obtain ⟨c, hc, hle, -⟩ := hcar.call
  obtain ⟨i, hi⟩ := List.mem_iff_getElem?.mp
    (hcar.request (by simp [hh, Labrpc.Handler.reply?]) c hc)
  dsimp only at hc hle
  refine Or.inr ⟨.exec i, k.exec i ⟨n, a, c.op⟩, owners, ?_, by simp [Kv.State.step, hi],
    h.exec (q := ⟨n, a, c.op⟩) hx hh ho hr ht hi (by simp [hc])⟩
  intro hprompt q hq
  rw [Option.mem_def, hi, Option.some.injEq] at hq
  subst hq
  refine ⟨c, hc, ?_⟩
  have hnot : ¬ (c.ret ≠ none ∨ a < c.attempt) :=
    fun hp => hcar.past c hc hp (hprompt m x o hx hh)
  rw [not_or, not_ne_iff] at hnot
  exact ⟨hnot.1, by dsimp only; omega⟩

theorem Sim.matched_net (h : Sim w s k owners)
    (hok : ∀ (m : ℕ) (x : Exchange β), s.net.calls[m]? = some x → x.Ok)
    {a : Labrpc.Action KVServer β} {net : Labrpc.State KVServer β} (ha : allowed a = true)
    (hs : Labrpc.Stepped s.net a net) : Matched w s (s.setNet net) k := by
  have same : ∀ {net : Labrpc.State KVServer β}, net.servers = s.net.servers →
      net.calls = s.net.calls → Matched w s (s.setNet net) k := by
    intro net h₁ h₂
    refine Or.inl ⟨owners, h.quiet h₁ (by rw [h₂]) ?_⟩
    intro m x hx
    exact ⟨x, h₂ ▸ hx, rfl, rfl, id⟩
  cases hs with
  | newServer rs => cases ha
  | addServer name hrs => exact same rfl rfl
  | control hn => exact same rfl rfl
  | exit a => exact same rfl rfl
  | cleanup hd => exact same rfl rfl
  | stop hd hl => exact same rfl rfl
  | call req => cases ha
  | @move m mv x stage hx hm =>
      refine Or.inl ⟨owners, h.quiet rfl (by simp) ?_⟩
      intro m' x' hx'
      rcases getElem?_set_cases hx' with ⟨rfl, rfl⟩ | ⟨-, hx'⟩
      · exact ⟨x, hx, rfl, hm.started_reply? (hok _ x hx), fun hne => absurd hm.ret? hne⟩
      · exact ⟨x', hx', rfl, rfl, id⟩
  | execute hx hh ho hr => exact h.matched_execute hx hh ho hr

theorem Sim.matched (h : Sim w s k owners)
    (hok : ∀ (m : ℕ) (x : Exchange β), s.net.calls[m]? = some x → x.Ok) {s' : State β}
    {a : Action β} (hs : Stepped w s a s') : Matched w s s' k := by
  cases hs with
  | @invoke clerk endname rn e op he =>
      exact Or.inr ⟨.invoke clerk op, _, _, fun _ => trivial, rfl, h.invoke clerk op rn e⟩
  | exit a =>
      have hexit : Sim w (s.setNet s.net.exit) k owners :=
        h.quiet rfl rfl (fun m x hx => ⟨x, hx, rfl, rfl, id⟩)
      exact Or.inl ⟨owners, hexit⟩
  | @finish n c x r b reply ret hc hopen hx hr hrok hb hd hf =>
      have hcar := h.carries c.cur x _ hx (h.current n c hc)
      have hxok := hok c.cur x hx
      simp only [Labrpc.Exchange.Ok, hr] at hxok
      obtain ⟨o, ho⟩ := hxok hrok
      obtain ⟨reply', henc, hdec, hmem⟩ :=
        hcar.reply r (by rw [ho]; rfl) c.abs (h.getElem? hc) hopen rfl
      have he : reply' = reply := by
        rw [hb, Option.some.injEq] at henc
        rw [henc] at hd
        exact Option.some.inj (hdec.symm.trans hd)
      subst he
      obtain ⟨i, hi⟩ := List.mem_iff_getElem?.mp hmem
      refine Or.inr ⟨.callTrue i, _, owners, fun _ => trivial, ?_,
        h.finish hc hx (by simp [hr, Labrpc.Stage.ret?]) hi rfl ret⟩
      simp only [Kv.State.step, hi, Option.bind_eq_bind, Option.bind_some, h.getElem? hc]
      rw [if_pos ⟨hopen, rfl⟩]
      exact congrArg (Option.bind · _) hf
  | @resend n c x r e hc hopen hx hr he =>
      refine Or.inr ⟨.callFalse n, _, _, fun _ => trivial, ?_,
        h.resend hc hopen hx (by simp [hr, Labrpc.Stage.ret?]) e⟩
      simp only [Kv.State.step, Option.bind_eq_bind, h.getElem? hc, Option.bind_some]
      exact if_pos hopen
  | net ha hnet => exact h.matched_net hok ha (Labrpc.State.step_cases hnet)

end sim

/-- Messages that travel as they are. -/
def plainWire : Wire (Op ⊕ Reply) where
  getArgs := ⟨fun a => .inl (.get a), fun | .inl (.get a) => some a | _ => none, fun _ => rfl⟩
  getReply := ⟨fun r => .inr (.get r), fun | .inr (.get r) => some r | _ => none, fun _ => rfl⟩
  putArgs := ⟨fun a => .inl (.put a), fun | .inl (.put a) => some a | _ => none, fun _ => rfl⟩
  putReply := ⟨fun r => .inr (.put r), fun | .inr (.put r) => some r | _ => none, fun _ => rfl⟩

/-- The network call `m` is executed. -/
def executed (m : ℕ) : List (Action (Op ⊕ Reply)) :=
  [.net (.move m .accept), .net (.move m .read), .net (.move m .dispatch), .net (.execute m)]

/-- No end is disabled or deleted, and the server stays as it was added.  The network may be
unreliable. -/
def Action.steady : Action β → Bool
  | .net (.control (.deleteEnd _)) | .net (.control (.deleteServer _)) => false
  | .net (.control (.enable _ enabled)) => enabled
  | .net (.addServer _ _) => false
  | _ => true

/-- The condition on a step. -/
def Steady (_ : State β) (a : Action β) : Prop := a.steady = true

instance (s : State β) (a : Action β) : Decidable (Steady s a) :=
  inferInstanceAs (Decidable (a.steady = true))

/-- The ends stay, enabled ends stay enabled, and the servers stay. -/
structure Extends (rn rn' : Network) : Prop where
  ends : ∀ e, rn.ends e = true → rn'.ends e = true
  enabled : ∀ e, rn.ends e = true → rn.enabled e = true → rn'.enabled e = true
  servers : rn'.servers = rn.servers

theorem Extends.refl (rn : Network) : Extends rn rn := ⟨fun _ h => h, fun _ _ h => h, rfl⟩

theorem Extends.trans {rn₁ rn₂ rn₃ : Network} (h : Extends rn₁ rn₂) (h' : Extends rn₂ rn₃) :
    Extends rn₁ rn₃ where
  ends e he := h'.ends e (h.ends e he)
  enabled e he hb := h'.enabled e (h.ends e he) (h.enabled e he hb)
  servers := h'.servers.trans h.servers

theorem extends_makeEnd {rn rn' : Network} {endname : String}
    (h : rn.makeEnd endname = some rn') : Extends rn rn' := by
  simp only [Network.makeEnd, Option.ite_none_left_eq_some, Option.some.injEq] at h
  obtain ⟨hnew, rfl⟩ := h
  have ne : ∀ e, rn.ends e = true → e ≠ endname := by
    rintro e he rfl
    exact hnew he
  constructor
  · intro e he
    simpa [Function.update_of_ne (ne e he)] using he
  · intro e he hb
    simpa [Function.update_of_ne (ne e he)] using hb
  · rfl

theorem extends_enable (rn : Network) (endname : String) :
    Extends rn (rn.enable endname true) where
  ends e he := he
  enabled e he hb := by
    simp only [Network.enable_enabled, Function.update_apply]
    split
    · rfl
    · exact hb
  servers := rfl

theorem extends_apply {rn rn' : Network} {c : Labrpc.Control} (h : rn.apply c = some rn')
    {s : State β} (hC : Steady s (.net (.control c))) : Extends rn rn' := by
  cases c with
  | makeEnd endname => exact extends_makeEnd h
  | deleteEnd endname => cases hC
  | deleteServer servername => cases hC
  | connect endname servername =>
      simp only [Network.apply, Option.some.injEq] at h
      exact h ▸ ⟨fun _ h => h, fun _ _ h => h, rfl⟩
  | enable endname enabled =>
      simp only [Network.apply, Option.some.injEq] at h
      have hb : enabled = true := hC
      subst hb
      exact h ▸ extends_enable rn endname
  | reliable yes =>
      simp only [Network.apply, Option.some.injEq] at h
      exact h ▸ ⟨fun _ h => h, fun _ _ h => h, rfl⟩

/-- `Clnt.makeEnd` returns an end that exists. -/
theorem extends_clnt {s : State β} (hends : ∀ clerk e, s.ends clerk = some e →
    s.net.net.ends e = true) {clerk : ℕ} {endname e : String} {rn : Network}
    (h : s.makeEnd clerk endname = some (rn, e)) :
    Extends s.net.net rn ∧ rn.ends e = true := by
  unfold State.makeEnd at h
  split at h
  · rename_i e' he'
    simp only [Option.some.injEq, Prod.mk.injEq] at h
    obtain ⟨rfl, rfl⟩ := h
    exact ⟨.refl _, hends clerk _ he'⟩
  · simp only [Option.bind_eq_bind, Option.bind_eq_some_iff, Option.some.injEq,
      Prod.mk.injEq] at h
    obtain ⟨rn₀, hrn, rfl, rfl⟩ := h
    have hconn : Extends rn₀ (rn₀.connect endname serverName) :=
      ⟨fun _ h => h, fun _ _ h => h, rfl⟩
    refine ⟨(extends_makeEnd hrn).trans (hconn.trans (extends_enable _ endname)), ?_⟩
    simp only [Network.makeEnd, Option.ite_none_left_eq_some, Option.some.injEq] at hrn
    obtain ⟨-, rfl⟩ := hrn
    simp

/-- The call was made on an end that exists; once admitted its server stays alive, so that
`processReq` waits for the handler. -/
structure Attended (rn : Network) (x : Exchange β) : Prop where
  made : rn.ends x.req.endname = true
  alive : ∀ i, x.stage = .admitted i ∨ x.stage = .waiting i →
    rn.isServerDead x.req.endname i.servername i.server = false
  running : ∀ o, x.handler = .running o → ∃ i, x.stage = .waiting i

theorem Attended.extends {rn rn' : Network} {x : Exchange β} (h : Attended rn x)
    (hr : Extends rn rn') : Attended rn' x where
  made := hr.ends _ h.made
  alive i hi := by
    have := h.alive i hi
    simp only [Network.isServerDead, Bool.or_eq_false_iff, Bool.not_eq_false', bne_eq_false_iff_eq]
      at this ⊢
    exact ⟨hr.enabled _ h.made this.1, hr.servers ▸ this.2⟩
  running := h.running

theorem attended_new {rn : Network} {req : Labrpc.ReqMsg β} (h : rn.ends req.endname = true) :
    Attended rn ⟨req, .sending, .idle⟩ := ⟨h, by simp, by simp⟩

theorem Attended.move {net : Labrpc.State KVServer β} {x : Exchange β} (h : Attended net.net x)
    {m : Labrpc.Move} {stage : Labrpc.Stage β} (hm : Labrpc.Moved net x m stage) :
    Attended net.net { x with
      stage := stage, handler := Labrpc.State.started x.handler stage } := by
  have idle : (∀ i, x.stage ≠ .waiting i) → ∀ o, x.handler ≠ .running o := by
    intro hne o ho
    obtain ⟨i, hi⟩ := h.running o ho
    exact hne i hi
  cases hm with
  | grant hx hi =>
      refine ⟨h.made, ?_, fun o ho => absurd ho (idle (by simp [hx]) o)⟩
      intro j hj
      simp only [Labrpc.Stage.admitted.injEq, reduceCtorEq, or_false] at hj
      subst hj
      obtain ⟨he, -, hs⟩ := Labrpc.readEndnameInfo_eq_some hi
      simp [Network.isServerDead, he, hs]
  | @dispatch i hx =>
      refine ⟨h.made, ?_, fun o _ => ⟨i, rfl⟩⟩
      intro j hj
      simp only [Labrpc.Stage.waiting.injEq, reduceCtorEq, false_or] at hj
      subst hj
      exact h.alive i (Or.inl hx)
  | receive hx hh => exact ⟨h.made, by simp, by simp [Labrpc.State.started, hh]⟩
  | @expire i hx hd =>
      rw [h.alive i (Or.inr hx)] at hd
      cases hd
  | accept hx _ | abandon hx _ | refuse hx _ | drop hx _ | dead hx _ | reply hx _ | dropReply hx _
  | deliver hx => exact ⟨h.made, by simp, fun o ho => absurd ho (idle (by simp [hx]) o)⟩

/-- All ends the Clerks use exist, and all network calls are attended. -/
structure Tended (s : State β) : Prop where
  ends : ∀ clerk e, s.ends clerk = some e → s.net.net.ends e = true
  calls : ∀ (m : ℕ) (x : Exchange β), s.net.calls[m]? = some x → Attended s.net.net x

theorem Tended.net {s : State β} (h : Tended s) {a : Labrpc.Action KVServer β}
    {net : Labrpc.State KVServer β} (ha : allowed a = true) (hC : Steady s (.net a))
    (hs : Labrpc.Stepped s.net a net) : Tended (s.setNet net) := by
  have hext : Extends s.net.net net.net := by
    cases hs with
    | control hn => exact extends_apply hn hC
    | addServer name hrs => cases hC
    | _ => exact .refl _
  refine ⟨fun clerk e he => hext.ends e (h.ends clerk e he), ?_⟩
  intro m x hx
  cases hs.callStep hx with
  | same hx => exact (h.calls m x hx).extends hext
  | new req hn => cases ha
  | move hx' hm => exact ((h.calls m _ hx').move hm).extends hext
  | execute hx' hh ho hr =>
      have hold := (h.calls m _ hx').extends hext
      exact ⟨hold.made, hold.alive, by simp⟩

theorem Tended.step {w : Wire β} {s s' : State β} {a : Action β} (h : Tended s)
    (hC : Steady s a) (hs : Stepped w s a s') : Tended s' := by
  cases hs with
  | @invoke clerk endname rn e op he =>
      obtain ⟨hext, hmade⟩ := extends_clnt h.ends he
      constructor
      · intro clerk' e' he'
        simp only [State.invoke_ends, Function.update_apply] at he'
        split at he'
        · exact Option.some.inj he' ▸ hmade
        · exact hext.ends _ (h.ends clerk' e' he')
      · intro m x hx
        rcases getElem?_concat_cases hx with ⟨rfl, rfl⟩ | hx
        · exact attended_new hmade
        · exact (h.calls m x hx).extends hext
  | exit a => exact ⟨h.ends, h.calls⟩
  | finish hc hopen hx hr hok hb hd hf => exact ⟨h.ends, h.calls⟩
  | @resend n c x r e hc hopen hx hr he =>
      refine ⟨h.ends, ?_⟩
      intro m y hy
      rcases getElem?_concat_cases hy with ⟨rfl, rfl⟩ | hy
      · exact attended_new (h.ends _ _ he)
      · exact h.calls m y hy
  | net ha hnet => exact h.net ha hC (Labrpc.State.step_cases hnet)

theorem reachable_tended {w : Wire β} {s : State β} (h : (system w).ReachableBy Steady s) :
    Tended s := by
  refine h.invariant ⟨by simp [system, State.init], by simp [system, State.init,
    Labrpc.State.init]⟩ ?_
  intro s a s' _ ih hC hs
  exact ih.step hC (State.step_cases hs)

theorem Tended.prompt {s : State β} (h : Tended s) : Prompt s.net := by
  intro m x o hx hh
  obtain ⟨i, hi⟩ := (h.calls m x hx).running o hh
  simp [hi, Labrpc.Stage.ret?]

/-! ### Linearizability -/

/-- Every accepted `Put` is an execution. -/
theorem length_installs_le (K : String) (log : List Event) :
    (Kv.installs K log).length ≤ (log.filterMap Event.tag?).length := by
  induction log with
  | nil => simp
  | cons e log ih =>
      simp only [Kv.installs, List.filterMap_cons] at ih ⊢
      cases e with
      | invoke n op => exact ih
      | ret n r => exact ih
      | exec n a op r =>
          simp only [Event.tag?, List.length_cons]
          split
          · exact Nat.le_succ_of_le ih
          · simpa using ih

/-- Fewer than `2 ^ 64` requests install fewer than `2 ^ 64` values. -/
theorem Sim.fewPuts {w : Wire β} {s : State β} {k : Kv.State} {owners : List (ℕ × ℕ)}
    (h : Sim w s k owners) (hw : Kv.WellFormed k) (hb : s.net.calls.length < 2 ^ 64) :
    Kv.FewPuts k := by
  intro K
  have hnodup : (k.log.filterMap Event.tag?).Nodup := hw.once.of_append_right
  calc (Kv.installs K k.log).length
      ≤ (k.log.filterMap Event.tag?).length := length_installs_le K k.log
    _ ≤ owners.length := (hnodup.subperm (fun t ht => h.executed t ht)).length_le
    _ = s.net.calls.length := h.length
    _ < 2 ^ 64 := hb

/-- **Clerks on the simulated network see a linearizable store.**  The network may be unreliable:
it may lose requests and replies and delay them.  As long as no end is disabled or deleted, the
server stays as it is, and fewer than `2 ^ 64` requests are sent, the history of all
`Clerk.Get` and `Clerk.Put` calls is linearizable with respect to the versioned store. -/
theorem clerks_linearizable {w : Wire β} {s : State β} (h : (system w).ReachableBy Steady s)
    (hb : s.net.calls.length < 2 ^ 64) :
    Linearizable Kv.versionedStore Kv.Explains s.history := by
  obtain ⟨k, hk, owners, hsim⟩ := h.simulate_rel (M := Kv.system) (D := Kv.Timely)
    (fun s k => ∃ owners, Sim w s k owners) ⟨[], sim_init w⟩ (by
      rintro s a s' k hr - ⟨owners, hsim⟩ - hs
      rcases hsim.matched (Labrpc.reachable_ok (reachable_net hr)) (State.step_cases hs) with
        hsim' | ⟨b, k', owners', htime, hb, hsim'⟩
      · exact Or.inl hsim'
      · exact Or.inr ⟨b, k', htime (reachable_tended hr).prompt, hb, owners', hsim'⟩)
  rw [← hsim.history]
  exact ⟨_, Kv.points_linearize hk (hsim.fewPuts (Kv.reachable_wellFormed hk) hb)⟩

/-- The hypotheses are met by a run on an unreliable network that loses the reply of an accepted
`Put`, so that the Clerk returns `ErrMaybe`. -/
theorem clerks_linearizable_maybe : ∃ s : State (Op ⊕ Reply),
    Linearizable Kv.versionedStore Kv.Explains s.history ∧
      s.calls[0]? = some (⟨0, .put ⟨"k", "a", 0⟩, 1, 1, some (.put .errMaybe)⟩ : Call) := by
  obtain ⟨s, hr, hs⟩ := Lts.exists_of_exec (L := system plainWire) (C := Steady)
    (p := fun s => decide (s.calls[0]? =
      some (⟨0, .put ⟨"k", "a", 0⟩, 1, 1, some (.put .errMaybe)⟩ : Call) ∧
        s.net.calls.length = 2))
    ([.net (.control (.reliable false)), .invoke 0 (.put ⟨"k", "a", 0⟩) "e"] ++ executed 0 ++
      [.net (.move 0 .receive), .net (.move 0 .dropReply), .net (.move 0 .deliver),
        .resume 0] ++ executed 1 ++
      [.net (.move 1 .receive), .net (.move 1 .conclude), .net (.move 1 .deliver),
        .resume 0]) (by decide +kernel)
  obtain ⟨h₁, h₂⟩ := of_decide_eq_true hs
  exact ⟨s, clerks_linearizable hr (by rw [h₂]; norm_num), h₁⟩

end DistributedSystems.KvNetwork
