import DistributedSystems.KvPuts
import DistributedSystems.LockSystem

/-! # Who can release a lock

`Release` reads the value of the key and writes `"0-" + id` with the version it read whenever the
value names an owner; it does not look which one.  A lock that was never acquired therefore frees
the key under the holder (`foreign_release`).

With the test of `Acquire` on the value read (`mayAcquire`: no owner, own id, or not locked) the
owner is safe, in whatever order the clients call: every `Put` on the key, also one whose attempts
arrive after its call has returned, names a version that replaces a value its lock may overwrite
(`FromOwn`), so the server accepts none of another lock while the value is `"1-" + id`
(`released_by_owner`). -/

namespace DistributedSystems.Lock

open DistributedSystems.Kv

/-! ### The condition -/

/-- The value that the `Get` of a `Release` returned does not say another lock has the key. -/
def readsOwn (s : State) (c : Client) : Bool :=
  match c.pc with
  | .releaseGet n =>
      match resultOf s.kv n with
      | some (.get val _ _) => mayAcquire c.id val
      | _ => true
  | _ => true

/-- The conditions on a step: a `Release` goes on only when the value it read passes the test of
`Acquire`, and the application writes `K` only through locks. -/
def ReleasesOwn (K : String) (s : State) : Action → Prop
  | .resume l => ∀ c ∈ s.clients[l]?, c.lockname = K → readsOwn s c = true
  | .app _ (.put args) => args.key ≠ K
  | _ => True

instance (K : String) (s : State) : (a : Action) → Decidable (ReleasesOwn K s a)
  | .resume l =>
      inferInstanceAs (Decidable (∀ c ∈ s.clients[l]?, c.lockname = K → readsOwn s c = true))
  | .app _ (.put args) => inferInstanceAs (Decidable (args.key ≠ K))
  | .app _ (.get _) => inferInstanceAs (Decidable True)
  | .makeLock _ => inferInstanceAs (Decidable True)
  | .acquire _ => inferInstanceAs (Decidable True)
  | .release _ => inferInstanceAs (Decidable True)
  | .net _ => inferInstanceAs (Decidable True)

theorem mayAcquire_of_readsOwn {s : State} {c : Client} {n : ℕ} {val : String} {ver : Tversion}
    {err : Err} (h : readsOwn s c = true) (hpc : c.pc = .releaseGet n)
    (hr : resultOf s.kv n = some (.get val ver err)) : mayAcquire c.id val = true := by
  simpa only [readsOwn, hpc, hr] using h

/-! ### The Gets the clients wait for -/

/-- A client that waits for a `Get` waits for a `Get` of its own key. -/
def WaitsForGet (s : State) : Prop :=
  ∀ c ∈ s.clients, ∀ n, c.pc = .acquireGet n ∨ c.pc = .releaseGet n →
    opOf s.kv n = some (.get ⟨c.lockname⟩)

theorem WaitsForGet.of_kv {s : State} (h : WaitsForGet s) {b : Kv.Action} {kv : Kv.State}
    (hs : Kv.Stepped s.kv b kv) : WaitsForGet { s with kv := kv } :=
  fun c hc n hpc => opOf_step hs (h c hc n hpc)

theorem WaitsForGet.call {s : State} (h : WaitsForGet s) {l : ℕ} {d : Client} {op : Op}
    {pc : ℕ → Pc} (hop : ∀ n, pc n = .acquireGet n ∨ pc n = .releaseGet n →
      op = .get ⟨d.lockname⟩)
    (hpc : ∀ n m, pc n = .acquireGet m ∨ pc n = .releaseGet m → n = m) :
    WaitsForGet (s.call l d op pc) := by
  intro c hc n hn
  rcases List.mem_or_eq_of_mem_set hc with hc | rfl
  · exact opOf_step (.invoke l op) (h c hc n hn)
  · obtain rfl := hpc _ _ hn
    rw [← hop _ hn]
    exact opOf_invoke _ _ _

theorem WaitsForGet.done {s : State} (h : WaitsForGet s) {l : ℕ} {d : Client} {held : Bool} :
    WaitsForGet (s.done l d held) := by
  intro c hc n hn
  rcases List.mem_or_eq_of_mem_set hc with hc | rfl
  · exact h c hc n hn
  · simp at hn

theorem WaitsForGet.step {s s' : State} {a : Action} (h : WaitsForGet s) (hs : Stepped s a s') :
    WaitsForGet s' := by
  cases hs with
  | makeLock lockname =>
      intro c hc n hn
      rw [State.makeLock_clients, List.mem_append, List.mem_singleton] at hc
      rcases hc with hc | rfl
      · exact h c hc n hn
      · simp at hn
  | acquire hc hpc => exact h.call (by simp) (by simp)
  | release hc hpc => exact h.call (by simp) (by simp)
  | tryPut hc hpc hr hv => exact h.call (by simp) (by simp)
  | tryAgain hc hpc hr => exact h.call (by simp) (by simp)
  | acquired hc hpc hr => exact h.done
  | free hc hpc hr he hv => exact h.call (by simp) (by simp)
  | nothing hc hpc hr hv => exact h.done
  | released hc hpc hr => exact h.done
  | app clerk op => exact h.of_kv (.invoke clerk op)
  | net ha hs => exact h.of_kv (Kv.State.step_cases hs)

theorem reachable_waitsForGet {C : State → Action → Prop} {s : State}
    (h : system.ReachableBy C s) : WaitsForGet s := by
  refine h.invariant ?_ (fun _ _ _ _ hw _ hs => hw.step (State.step_cases hs))
  simp [WaitsForGet, system, State.init]

/-! ### The Puts on the key -/

/-- The `Put` writes a value of the lock with the id `k` and names a version that replaces a value
this lock may overwrite. -/
def FromOwn (K : String) (kv : Kv.State) (args : PutArgs) : Prop :=
  ∃ k m, (args.value = lockedBy (idOf k) ∨ args.value = releasedBy (idOf k)) ∧
    m ≤ puts K kv ∧ args.version = UInt64.ofNat m ∧
    ∀ p, 0 < m → (installs K kv.log)[m - 1]? = some p → mayAcquire (idOf k) p.2 = true

theorem FromOwn.step {K : String} {kv kv' : Kv.State} {b : Kv.Action} {args : PutArgs}
    (h : FromOwn K kv args) (hs : Kv.Stepped kv b kv') : FromOwn K kv' args := by
  obtain ⟨k, m, hv, hm, hver, hp⟩ := h
  refine ⟨k, m, hv, hm.trans (hs.puts_mono K), hver, ?_⟩
  intro p hpos hi
  rw [hs.getElem?_installs (by omega)] at hi
  exact hp p hpos hi

def PutsOwn (K : String) (kv : Kv.State) : Prop :=
  ∀ n args, opOf kv n = some (.put args) → args.key = K → FromOwn K kv args

theorem PutsOwn.step {K : String} {kv kv' : Kv.State} {b : Kv.Action} (h : PutsOwn K kv)
    (hs : Kv.Stepped kv b kv')
    (hnew : ∀ clerk args, b = .invoke clerk (.put args) → args.key = K → FromOwn K kv args) :
    PutsOwn K kv' := by
  intro n args ho hk
  rcases hs.opOf_cases ho with ho | ⟨clerk, rfl⟩
  · exact (h n args ho hk).step hs
  · exact (hnew clerk args rfl hk).step hs

/-- The `Put` a client starts with what its `Get` returned. -/
theorem fromOwn_of_get {s : State} {n k : ℕ} {c : Client} {args : PutArgs} {val : String}
    {err : Err} (hkv : Kv.system.Reachable s.kv) (ho : opOf s.kv n = some (.get ⟨c.lockname⟩))
    (hr : resultOf s.kv n = some (.get val args.version err)) (hid : c.id = idOf k)
    (hval : args.value = lockedBy c.id ∨ args.value = releasedBy c.id)
    (hmay : mayAcquire c.id val = true) : FromOwn c.lockname s.kv args := by
  obtain ⟨m, hm, hver, hp⟩ := saw_version hkv ho hr
  refine ⟨k, m, hid ▸ hval, hm, hver, ?_⟩
  intro p hpos hi
  rw [hp p hpos hi, ← hid]
  exact hmay

theorem PutsOwn.of_step {K : String} {s s' : State} {a : Action} (h : PutsOwn K s.kv)
    (hkv : Kv.system.Reachable s.kv) (hn : Named s) (hg : WaitsForGet s)
    (hp : ReleasesOwn K s a) (hs : Stepped s a s') : PutsOwn K s'.kv := by
  have get : ∀ {l : ℕ} {key : String}, PutsOwn K (s.kv.invoke l (.get ⟨key⟩)) := by
    intro l key
    exact h.step (.invoke l (.get ⟨key⟩)) (by simp)
  cases hs with
  | makeLock lockname => exact h
  | acquire hc hpc => exact get
  | release hc hpc => exact get
  | @tryPut l n c val ver err hc hpc hr hv =>
      refine h.step (.invoke l _) ?_
      rintro clerk args ⟨⟩ rfl
      obtain ⟨k, -, hid⟩ := hn.ids c (List.mem_of_getElem? hc)
      have ho := hg c (List.mem_of_getElem? hc) n (Or.inl hpc)
      exact fromOwn_of_get hkv ho hr hid (Or.inl rfl) hv
  | tryAgain hc hpc hr => exact get
  | acquired hc hpc hr => exact h
  | @free l n c val ver err hc hpc hr he hv =>
      refine h.step (.invoke l _) ?_
      rintro clerk args ⟨⟩ rfl
      obtain ⟨k, -, hid⟩ := hn.ids c (List.mem_of_getElem? hc)
      have hmay := mayAcquire_of_readsOwn (hp c hc rfl) hpc hr
      have ho := hg c (List.mem_of_getElem? hc) n (Or.inr hpc)
      exact fromOwn_of_get hkv ho hr hid (Or.inr rfl) hmay
  | nothing hc hpc hr hv => exact h
  | released hc hpc hr => exact h
  | app clerk op =>
      refine h.step (.invoke clerk op) ?_
      rintro clerk' args ⟨⟩ hk
      exact absurd hk hp
  | net ha hs =>
      refine h.step (Kv.State.step_cases hs) ?_
      rintro clerk args rfl
      cases ha

theorem reachable_putsOwn {K : String} {s : State} (h : system.ReachableBy (ReleasesOwn K) s) :
    PutsOwn K s.kv := by
  refine h.invariant (I := fun s => PutsOwn K s.kv) ?_ ?_
  · simp [PutsOwn, system, State.init, Kv.State.init, opOf]
  · intro s a s' hr ho hp hs
    exact ho.of_step (reachable_kv hr) (reachable_named hr) (reachable_waitsForGet hr) hp
      (State.step_cases hs)

/-! ### The owner -/

/-- A `Put` accepted while the key says a lock has it is one of that lock. -/
theorem FromOwn.owner {K : String} {kv : Kv.State} {q : Request} {args : PutArgs}
    (h : FromOwn K kv args) (t : Tracks kv) (hb : puts K kv < 2 ^ 64) (hi : Installs K kv q args)
    {j : ℕ} (hl : last K kv = some (lockedBy (idOf j))) :
    args.value = lockedBy (idOf j) ∨ args.value = releasedBy (idOf j) := by
  obtain ⟨k, m, hval, hm, hver, hp⟩ := h
  have hmeq : m = puts K kv :=
    ofNat_inj_of_lt (by omega) hb (hver.symm.trans (hi.2.2.trans (t.version K)))
  obtain ⟨hpos, p, hpl, hpv⟩ := getElem?_of_last hl
  have hmay := hp p (hmeq ▸ hpos) (hmeq ▸ hpl)
  rw [hpv] at hmay
  rw [← mayAcquire_lockedBy hmay]
  exact hval

/-- While the key says `"1-" + id`, executing a `Put` of another lock's `Release` leaves it
alone. -/
theorem released_by_owner {K : String} {s s' : State} (h : system.ReachableBy (ReleasesOwn K) s)
    (hb : (installs K s.kv.log).length < 2 ^ 64) {l l' : ℕ} {c c' : Client}
    (hc : s.clients[l]? = some c) (hc' : s.clients[l']? = some c') (hne : l ≠ l')
    {ver : Tversion} (hkey : s.kv.server.store K = some ⟨lockedBy c.id, ver⟩) {i : ℕ}
    {q : Request} {ver' : Tversion} (hq : s.kv.requests[i]? = some q)
    (hop : q.op = .put ⟨K, releasedBy c'.id, ver'⟩) (hs : s.step (.net (.exec i)) = some s') :
    s'.kv.server.store K = s.kv.server.store K := by
  have hkv := reachable_kv h
  have t := reachable_tracks hkv
  have w := reachable_wellFormed hkv
  have hn := reachable_named h
  have hlast := t.last_of_store hkey
  simp only [State.step, Kv.Action.internal, if_true, Kv.State.step, hq, Option.map_some,
    Option.some.injEq] at hs
  subst hs
  by_cases hi : ∃ args, Installs K s.kv q args
  · obtain ⟨args, hi⟩ := hi
    exfalso
    obtain rfl : _ = args := Op.put.inj (hop.symm.trans hi.1)
    have ho := (w.opOf_request (List.mem_of_getElem? hq)).trans (congrArg some hi.1)
    obtain ⟨j, -, hid⟩ := hn.ids c (List.mem_of_getElem? hc)
    rw [hid] at hlast
    rcases (reachable_putsOwn h _ _ ho rfl).owner t hb hi hlast with hv | hv
    · exact releasedBy_ne_lockedBy _ _ hv
    · exact hne (hn.eq_of_id hc hc' (hid.trans (releasedBy_injective hv).symm))
  · have hi := not_exists.mp hi
    have hlast' := (last_of_not (i := i) hi).trans hlast
    rw [t.store_of_last hlast, (t.exec i q).store_of_last hlast', puts_of_not hi]

/-- Lock 2 acquires and releases; the first attempt of the `Put` of its `Release` is delayed until
lock 1 has acquired. -/
def lateReleaseRun : List Action :=
  [.makeLock "L", .makeLock "L", .acquire 1, .net (.exec 0), .net (.callTrue 0), .resume 1,
    .net (.exec 0), .net (.callTrue 0), .resume 1, .release 1, .net (.exec 0), .net (.callTrue 0),
    .resume 1, .net (.callFalse 3), .net (.exec 1), .net (.callTrue 0), .resume 1, .acquire 0,
    .net (.exec 1), .net (.callTrue 0), .resume 0, .net (.exec 1), .net (.callTrue 0), .resume 0]

theorem released_by_owner_late : ∃ s s', system.ReachableBy (ReleasesOwn "L") s ∧
    s.clients[0]? = some ⟨"L", "1", .idle, true⟩ ∧
    s.kv.requests[0]? = some ⟨3, 0, .put ⟨"L", "0-2", 1⟩⟩ ∧
    s.step (.net (.exec 0)) = some s' ∧ s'.kv.server.store "L" = some ⟨"1-1", 3⟩ := by
  obtain ⟨s, hr, hs⟩ := Lts.exists_of_exec (L := system) (C := ReleasesOwn "L")
    (p := fun s => decide ((installs "L" s.kv.log).length < 2 ^ 64 ∧
      s.clients = [⟨"L", "1", .idle, true⟩, ⟨"L", "2", .idle, false⟩] ∧
      s.kv.requests[0]? = some (⟨3, 0, .put ⟨"L", "0-2", 1⟩⟩ : Request) ∧
      s.kv.server.store "L" = some ⟨"1-1", 3⟩)) lateReleaseRun (by decide)
  obtain ⟨hb, hc, hq, hkey⟩ := of_decide_eq_true hs
  obtain ⟨s', hs'⟩ : ∃ s', s.step (.net (.exec 0)) = some s' := by
    simp [State.step, Kv.Action.internal, Kv.State.step, hq]
  have hc₁ : s.clients[0]? = some ⟨"L", "1", .idle, true⟩ := by rw [hc]; rfl
  have hc₂ : s.clients[1]? = some ⟨"L", "2", .idle, false⟩ := by rw [hc]; rfl
  have hkeep := released_by_owner hr hb hc₁ hc₂ (by decide) hkey hq rfl hs'
  exact ⟨s, s', hr, hc₁, hq, hs', hkeep.trans hkey⟩

/-- Lock 1 acquires, and lock 2, which never has, releases. -/
def foreignReleaseRun : List Action :=
  [.makeLock "L", .makeLock "L", .acquire 0, .net (.exec 0), .net (.callTrue 0), .resume 0,
    .net (.exec 0), .net (.callTrue 0), .resume 0, .release 1, .net (.exec 0), .net (.callTrue 0),
    .resume 1]

/-- Lock 1 is held and the key is `"1-1"`; executing the `Put` of the `Release` of lock 2 makes it
`"0-2"`. -/
theorem foreign_release : ∃ s s', system.Reachable s ∧
    s.clients = [⟨"L", "1", .idle, true⟩, ⟨"L", "2", .releasePut 3, false⟩] ∧
    s.kv.server.store "L" = some ⟨"1-1", 1⟩ ∧
    s.kv.requests[0]? = some ⟨3, 0, .put ⟨"L", releasedBy "2", 1⟩⟩ ∧
    s.step (.net (.exec 0)) = some s' ∧ s'.clients[0]?.map Client.held = some true ∧
    s'.kv.server.store "L" = some ⟨"0-2", 2⟩ := by
  obtain ⟨s, hr, hs⟩ := Lts.exists_of_exec (L := system) (C := fun _ _ => True)
    (p := fun s => decide (
      s.clients = [⟨"L", "1", .idle, true⟩, ⟨"L", "2", .releasePut 3, false⟩] ∧
      s.kv.server.store "L" = some ⟨"1-1", 1⟩ ∧
      s.kv.requests[0]? = some (⟨3, 0, .put ⟨"L", releasedBy "2", 1⟩⟩ : Request) ∧
      (s.step (.net (.exec 0))).map (fun s' : State =>
        (s'.clients[0]?.map Client.held, s'.kv.server.store "L")) =
          some (some true, some ⟨"0-2", 2⟩))) foreignReleaseRun (by decide)
  obtain ⟨hc, hkey, hq, hs⟩ := of_decide_eq_true hs
  obtain ⟨s', hs', hafter⟩ := Option.map_eq_some_iff.mp hs
  obtain ⟨hheld, hkey'⟩ := Prod.mk.inj hafter
  exact ⟨s, s', hr, hc, hkey, hq, hs', hheld, hkey'⟩

end DistributedSystems.Lock
