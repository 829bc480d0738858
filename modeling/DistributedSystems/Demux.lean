import DistributedSystems.Framing
import DistributedSystems.Labrpc

/-! # Calls multiplexed over one connection

`tester1/demux`: many calls of `SendReceive` share one connection to a server process.  The client
numbers its requests with tags, a map remembers which call waits for which tag, and a reader
goroutine hands every reply to the call with its tag.  The server runs every request in a goroutine
of its own, so replies come back in any order.

* `writeCall` and `readCalls` are the framing of `transport.go`: `readCalls_prefix` says what the
  reader makes of a stream that was cut off anywhere.
* `State` holds both ends and the messages between them.  The connection may break at any time,
  and the server process may be killed.  What was written before is still delivered or lost; the
  reader of each end learns of it from an error of `ReadCall`.  The client's reader then closes
  the map and answers all outstanding calls with an error.

`ServeRequest` runs in one step; for one that does not return the step is never taken.

The first message of a connection, which tells the server the client's name under tag `0`, has been
exchanged. -/

namespace DistributedSystems.Demux

open Framing (Bytes ReadErr frame)

variable {σ β : Type}

abbrev Ttag := UInt32

/-- `msg`. -/
structure Msg (β : Type) where
  tag : Ttag
  data : β
  ok : Bool
deriving DecidableEq, Repr

/-! ### The transport -/

section transport

variable (c : Labrpc.Codec (Msg Bytes) Bytes)

/-- The bytes `WriteCall` puts on the connection. -/
def writeCall (m : Msg Bytes) : Bytes := frame 4 (c.marshall m)

/-- `ReadCall` again and again until it returns an error; `none` where `Unmarshall` ends the
process. -/
def readCalls (stream : Bytes) : List (Option (Msg Bytes)) × ReadErr :=
  ((Framing.readFrames 3 stream).1.map c.unmarshall, (Framing.readFrames 3 stream).2)

/-- **A connection that breaks.**  When the stream of any messages is cut off anywhere, `ReadCall`
returns the messages that were written in full, unchanged and in order, and then an error: `EOF` if
the stream ends between two messages, but also if it ends right after the length of one, and
`ErrUnexpectedEOF` otherwise. -/
theorem readCalls_prefix {ms : List (Msg Bytes)} (hlen : ∀ m ∈ ms, (c.marshall m).length < 2 ^ 32)
    {p : Bytes} (hp : p <+: ms.flatMap (writeCall c)) :
    ∃ j q, j ≤ ms.length ∧ p = (ms.take j).flatMap (writeCall c) ++ q ∧
      (∀ m, ms[j]? = some m → q.length < (writeCall c m).length) ∧
      readCalls c p = ((ms.take j).map some,
        if q.length = 0 ∨ q.length = 4 then .eof else .unexpectedEof) := by
  have hframes : ∀ l : List (Msg Bytes),
      l.flatMap (writeCall c) = Framing.frames 3 (l.map c.marshall) := by
    intro l
    rw [Framing.frames, List.flatMap_map]
    rfl
  have hb : ∀ b ∈ ms.map c.marshall, b.length < 256 ^ (3 + 1) := by
    intro b hb
    obtain ⟨m, hm, rfl⟩ := List.mem_map.mp hb
    calc (c.marshall m).length < 2 ^ 32 := hlen m hm
      _ = 256 ^ (3 + 1) := by norm_num
  rw [hframes] at hp
  obtain ⟨j, q, hj, hpq, hq, hread⟩ := Framing.readFrames_prefix hb hp
  refine ⟨j, q, by simpa using hj, ?_, ?_, ?_⟩
  · rw [hframes, List.map_take]
    exact hpq
  · intro m hm
    exact hq (c.marshall m) (by simp [hm])
  · rw [readCalls, hread]
    simp [Framing.cut, ← List.map_take, Function.comp_def, c.unmarshall_marshall]

end transport

/-- A message as its tag, its flag and its data. -/
def plainCodec : Labrpc.Codec (Msg Bytes) Bytes where
  marshall m := Framing.leBytes 4 m.tag.toNat ++ (if m.ok then 1 else 0) :: m.data
  unmarshall b :=
    match b.drop 4 with
    | ok :: data => some ⟨UInt32.ofNat (Framing.leNat (b.take 4)), data, ok == 1⟩
    | [] => none
  unmarshall_marshall m := by
    have htake : (Framing.leBytes 4 m.tag.toNat ++ (if m.ok then 1 else 0) :: m.data).take 4 =
        Framing.leBytes 4 m.tag.toNat := List.take_left' (by simp)
    have hdrop : (Framing.leBytes 4 m.tag.toNat ++ (if m.ok then 1 else 0) :: m.data).drop 4 =
        (if m.ok then 1 else 0) :: m.data := List.drop_left' (by simp)
    have hlt : m.tag.toNat < 256 ^ 4 := m.tag.toNat_lt
    obtain ⟨tag, data, ok⟩ := m
    simp only [htake, hdrop, Framing.leNat_leBytes, Nat.mod_eq_of_lt hlt, UInt32.ofNat_toNat]
    cases ok <;> simp

def twoMessages : List (Msg Bytes) := [⟨1, [7], true⟩, ⟨2, [8], true⟩]

/-- A stream cut off in its second message. -/
theorem readCalls_prefix_twoMessages :
    ∃ j q, j ≤ twoMessages.length ∧
      (twoMessages.flatMap (writeCall plainCodec)).take 12 =
        (twoMessages.take j).flatMap (writeCall plainCodec) ++ q ∧
      (∀ m, twoMessages[j]? = some m → q.length < (writeCall plainCodec m).length) ∧
      readCalls plainCodec ((twoMessages.flatMap (writeCall plainCodec)).take 12) =
        ((twoMessages.take j).map some,
          if q.length = 0 ∨ q.length = 4 then .eof else .unexpectedEof) :=
  readCalls_prefix plainCodec (by decide) (List.take_prefix 12 _)

/-! ### Both ends of a connection -/

/-- How far a call of `SendReceive` has come: it has drawn its tag, it is in the map, it has
written its request, it has returned.  The result is `none` for an error. -/
inductive Stage (β : Type) where
  | tagged
  | registered
  | waiting
  | returned (a : Option (β × Bool))
deriving DecidableEq, Repr

/-- A call of `SendReceive`. -/
structure Call (β : Type) where
  tag : Ttag
  req : β
  stage : Stage β
deriving DecidableEq, Repr

/-- The client's reader: it reads; it hands an answer to the call `n` and then goes on reading, or
goes on with the outstanding tags `back`; it answers the outstanding tags; it has ended. -/
inductive Reader (β : Type) where
  | reading
  | delivering (n : ℕ) (a : Option (β × Bool)) (back : Option (List Ttag))
  | draining (ts : List Ttag)
  | ended
deriving DecidableEq, Repr

inductive TaskStage (β : Type) where
  | started
  | served (r : β × Bool)
  | replied (r : β × Bool)
deriving DecidableEq, Repr

/-- A goroutine of the server for one request. -/
structure Task (β : Type) where
  tag : Ttag
  req : β
  stage : TaskStage β
deriving DecidableEq, Repr

/-- The client (`DemuxClnt` with its `callMap`), the connection, and the server (`DemuxSrv`). -/
structure State (σ β : Type) where
  nextTag : Ttag
  closed : Bool
  callmap : List (Ttag × ℕ)
  reader : Reader β
  calls : List (Call β)
  connected : Bool
  requests : List (Msg β)
  replies : List (Msg β)
  serving : Bool
  killed : Bool
  tasks : List (Task β)
  server : σ
  exited : Bool
  log : List (RemoteCall.Event β (β × Bool))

inductive Action (β : Type) where
  | send (req : β)
  | register (n : ℕ)
  | write (n : ℕ)
  | read
  | fail
  | drain (i : ℕ)
  | finish
  | deliver
  | close
  | srvRead
  | srvFail
  | serve (i : ℕ)
  | reply (i : ℕ)
  | disconnect
  | kill
deriving DecidableEq, Repr

/-- The steps both ends take by themselves. -/
def Action.internal : Action β → Bool
  | .send _ | .close | .disconnect | .kill => false
  | _ => true

/-- `ServeRequest` for the client of this connection; `none` when it ends the server process. -/
abbrev ServeRequest (σ β : Type) := σ → β → Option (σ × β × Bool)

namespace State

def init (server : σ) : State σ β where
  nextTag := 1
  closed := false
  callmap := []
  reader := .reading
  calls := []
  connected := true
  requests := []
  replies := []
  serving := true
  killed := false
  tasks := []
  server := server
  exited := false
  log := []

/-- `SendReceive` draws a tag. -/
@[simps] def send (s : State σ β) (req : β) : State σ β :=
  { s with
    nextTag := s.nextTag + 1
    calls := s.calls ++ [⟨s.nextTag, req, .tagged⟩]
    log := s.log ++ [.call s.calls.length req] }

/-- The call `c`, stored at position `n`, returns `a`. -/
@[simps] def ret (s : State σ β) (n : ℕ) (c : Call β) (a : Option (β × Bool)) : State σ β :=
  { s with
    calls := s.calls.set n { c with stage := .returned a }
    log := s.log ++ [.ret n a] }

/-- `callMap.put`. -/
@[simps] def register (s : State σ β) (n : ℕ) (c : Call β) : State σ β :=
  { s with
    callmap := (c.tag, n) :: s.callmap.filter (fun e => e.1 != c.tag)
    calls := s.calls.set n { c with stage := .registered } }

/-- `WriteCall`; on a broken connection the message is lost. -/
@[simps] def write (s : State σ β) (n : ℕ) (c : Call β) : State σ β :=
  { s with
    calls := s.calls.set n { c with stage := .waiting }
    requests := if s.connected then s.requests ++ [⟨c.tag, c.req, true⟩] else s.requests }

/-- `DemuxClnt.reply`: `callMap.remove` and, when the tag was there, the answer for its call;
`log.Fatalf` when it was not. -/
def answer (s : State σ β) (t : Ttag) (a : Option (β × Bool)) (back : Option (List Ttag)) :
    State σ β :=
  match s.callmap.lookup t with
  | some n => { s with
      callmap := s.callmap.filter (fun e => e.1 != t)
      reader := .delivering n a back }
  | none => { s with exited := true }

/-- What the reader does after it has handed over an answer. -/
def resumed : Option (List Ttag) → Reader β
  | none => .reading
  | some ts => .draining ts

/-- `ServeRequest` has run for the task `x`. -/
@[simps] def serve (s : State σ β) (i : ℕ) (x : Task β) (server : σ) (r : β × Bool) :
    State σ β :=
  { s with
    server := server
    tasks := s.tasks.set i { x with stage := .served r }
    log := s.log ++ [.exec (x.tag.toNat - 1) r] }

/-- The server's `WriteCall` for the task `x`. -/
@[simps] def reply (s : State σ β) (i : ℕ) (x : Task β) (r : β × Bool) : State σ β :=
  { s with
    tasks := s.tasks.set i { x with stage := .replied r }
    replies := if s.connected then s.replies ++ [⟨x.tag, r.1, r.2⟩] else s.replies }

@[simps] def kill (s : State σ β) : State σ β := { s with connected := false, killed := true }

def step (f : ServeRequest σ β) (s : State σ β) (a : Action β) : Option (State σ β) :=
  if s.exited then none
  else match a with
    | .send req => some (s.send req)
    | .register n => do
        let c ← s.calls[n]?
        match c.stage with
        | .tagged => some (if s.closed then s.ret n c none else s.register n c)
        | _ => none
    | .write n => do
        let c ← s.calls[n]?
        match c.stage with
        | .registered => some (s.write n c)
        | _ => none
    | .read =>
        match s.reader, s.replies with
        | .reading, m :: l => some ({ s with replies := l }.answer m.tag (some (m.data, m.ok)) none)
        | _, _ => none
    | .fail =>
        match s.reader with
        | .reading =>
            if s.connected then none
            else some { s with closed := true, reader := .draining (s.callmap.map Prod.fst) }
        | _ => none
    | .drain i =>
        match s.reader with
        | .draining ts => ts[i]?.map fun t => s.answer t none (some (ts.eraseIdx i))
        | _ => none
    | .finish =>
        match s.reader with
        | .draining [] => some { s with reader := .ended }
        | _ => none
    | .deliver =>
        match s.reader with
        | .delivering n a back => do
            let c ← s.calls[n]?
            match c.stage with
            | .waiting => some { s.ret n c a with reader := resumed back }
            | _ => none
        | _ => none
    | .close => if s.closed then none else some { s with connected := false, closed := true }
    | .srvRead =>
        match s.killed, s.serving, s.requests with
        | false, true, m :: l =>
            some { s with requests := l, tasks := s.tasks ++ [⟨m.tag, m.data, .started⟩] }
        | _, _, _ => none
    | .srvFail =>
        if s.connected ∨ s.killed ∨ ¬ s.serving then none else some { s with serving := false }
    | .serve i => do
        let x ← s.tasks[i]?
        match s.killed, x.stage with
        | false, .started =>
            match f s.server x.req with
            | some (server, r) => some (s.serve i x server r)
            | none => some s.kill
        | _, _ => none
    | .reply i => do
        let x ← s.tasks[i]?
        match s.killed, x.stage with
        | false, .served r => some (s.reply i x r)
        | _, _ => none
    | .disconnect => some { s with connected := false }
    | .kill => some s.kill

end State

/-- One connection as a transition system. -/
def system (f : ServeRequest σ β) (server : σ) : Lts (State σ β) (Action β) :=
  ⟨State.init server, State.step f⟩

/-- What a step can do: the inversion of `State.step`. -/
inductive Stepped (f : ServeRequest σ β) (s : State σ β) : Action β → State σ β → Prop
  | send (req : β) : Stepped f s (.send req) (s.send req)
  | refuse {n : ℕ} {c : Call β} (hc : s.calls[n]? = some c) (hst : c.stage = .tagged)
      (hcl : s.closed = true) : Stepped f s (.register n) (s.ret n c none)
  | register {n : ℕ} {c : Call β} (hc : s.calls[n]? = some c) (hst : c.stage = .tagged)
      (hcl : s.closed = false) : Stepped f s (.register n) (s.register n c)
  | write {n : ℕ} {c : Call β} (hc : s.calls[n]? = some c) (hst : c.stage = .registered) :
      Stepped f s (.write n) (s.write n c)
  | read {m : Msg β} {l : List (Msg β)} (hr : s.reader = .reading) (hm : s.replies = m :: l) :
      Stepped f s .read ({ s with replies := l }.answer m.tag (some (m.data, m.ok)) none)
  | fail (hr : s.reader = .reading) (hd : s.connected = false) : Stepped f s .fail
      { s with closed := true, reader := .draining (s.callmap.map Prod.fst) }
  | drain {ts : List Ttag} {i : ℕ} {t : Ttag} (hr : s.reader = .draining ts)
      (ht : ts[i]? = some t) : Stepped f s (.drain i) (s.answer t none (some (ts.eraseIdx i)))
  | finish (hr : s.reader = .draining []) : Stepped f s .finish { s with reader := .ended }
  | deliver {n : ℕ} {a : Option (β × Bool)} {back : Option (List Ttag)} {c : Call β}
      (hr : s.reader = .delivering n a back) (hc : s.calls[n]? = some c)
      (hst : c.stage = .waiting) :
      Stepped f s .deliver { s.ret n c a with reader := State.resumed back }
  | close (hcl : s.closed = false) :
      Stepped f s .close { s with connected := false, closed := true }
  | srvRead {m : Msg β} {l : List (Msg β)} (hk : s.killed = false) (hs : s.serving = true)
      (hm : s.requests = m :: l) : Stepped f s .srvRead
        { s with requests := l, tasks := s.tasks ++ [⟨m.tag, m.data, .started⟩] }
  | srvFail (hd : s.connected = false) (hs : s.serving = true) :
      Stepped f s .srvFail { s with serving := false }
  | serve {i : ℕ} {x : Task β} {server : σ} {r : β × Bool} (hx : s.tasks[i]? = some x)
      (hst : x.stage = .started) (hf : f s.server x.req = some (server, r)) :
      Stepped f s (.serve i) (s.serve i x server r)
  | crash (i : ℕ) (hk : s.killed = false) : Stepped f s (.serve i) s.kill
  | reply {i : ℕ} {x : Task β} {r : β × Bool} (hx : s.tasks[i]? = some x)
      (hst : x.stage = .served r) : Stepped f s (.reply i) (s.reply i x r)
  | disconnect : Stepped f s .disconnect { s with connected := false }
  | kill : Stepped f s .kill s.kill

theorem State.step_cases {f : ServeRequest σ β} {s s' : State σ β} {a : Action β}
    (h : s.step f a = some s') : Stepped f s a s' := by
  unfold State.step at h
  split at h
  · cases h
  · cases a with
    | send req => exact Option.some.inj h ▸ .send req
    | register n =>
        simp only [Option.bind_eq_bind, Option.bind_eq_some_iff] at h
        obtain ⟨c, hc, h⟩ := h
        split at h
        · rename_i hst
          simp only [Option.some.injEq] at h
          subst h
          split
          · rename_i hcl
            exact .refuse hc hst hcl
          · rename_i hcl
            exact .register hc hst (by simpa using hcl)
        · cases h
    | write n =>
        simp only [Option.bind_eq_bind, Option.bind_eq_some_iff] at h
        obtain ⟨c, hc, h⟩ := h
        split at h
        · rename_i hst
          exact Option.some.inj h ▸ .write hc hst
        · cases h
    | read =>
        dsimp only at h
        split at h
        · rename_i hr hm
          exact Option.some.inj h ▸ .read hr hm
        · cases h
    | fail =>
        dsimp only at h
        split at h
        · rename_i hr
          simp only [Option.ite_none_left_eq_some, Option.some.injEq] at h
          exact h.2 ▸ .fail hr (by simpa using h.1)
        · cases h
    | drain i =>
        dsimp only at h
        split at h
        · rename_i ts hr
          obtain ⟨t, ht, rfl⟩ := Option.map_eq_some_iff.mp h
          exact .drain hr ht
        · cases h
    | finish =>
        dsimp only at h
        split at h
        · rename_i hr
          exact Option.some.inj h ▸ .finish hr
        · cases h
    | deliver =>
        dsimp only at h
        split at h
        · rename_i n a back hr
          simp only [Option.bind_eq_bind, Option.bind_eq_some_iff] at h
          obtain ⟨c, hc, h⟩ := h
          split at h
          · rename_i hst
            exact Option.some.inj h ▸ .deliver hr hc hst
          · cases h
        · cases h
    | close =>
        simp only [Option.ite_none_left_eq_some, Option.some.injEq] at h
        exact h.2 ▸ .close (by simpa using h.1)
    | srvRead =>
        dsimp only at h
        split at h
        · rename_i hk hs hm
          exact Option.some.inj h ▸ .srvRead hk hs hm
        · cases h
    | srvFail =>
        simp only [Option.ite_none_left_eq_some, Option.some.injEq] at h
        obtain ⟨hnot, rfl⟩ := h
        simp only [not_or, Bool.not_eq_true] at hnot
        exact .srvFail hnot.1 (by simpa using hnot.2.2)
    | serve i =>
        simp only [Option.bind_eq_bind, Option.bind_eq_some_iff] at h
        obtain ⟨x, hx, h⟩ := h
        split at h
        · rename_i hk hst
          split at h
          · rename_i server r hf
            exact Option.some.inj h ▸ .serve hx hst hf
          · exact Option.some.inj h ▸ .crash i hk
        · cases h
    | reply i =>
        simp only [Option.bind_eq_bind, Option.bind_eq_some_iff] at h
        obtain ⟨x, hx, h⟩ := h
        split at h
        · rename_i r hk hst
          exact Option.some.inj h ▸ .reply hx hst
        · cases h
    | disconnect => exact Option.some.inj h ▸ .disconnect
    | kill => exact Option.some.inj h ▸ .kill

end DistributedSystems.Demux
