import Mathlib

/-! # The versioned key/value server and the Clerk's replies

The handlers of `kvsrv1/server.go` as pure functions on the server's map, the message types of
`kvsrv1/rpc/rpc.go`, and what `kvsrv1/client.go` returns to its caller once a `Call` has
succeeded.  `Tversion` is the 64-bit counter of the source, so `version + 1` wraps around.

A `Put` is accepted exactly when its version is the key's current version, where an absent
key counts as version `0` (`KVServer.put_of_eq`); otherwise the map is unchanged
(`KVServer.put_of_ne`). -/

namespace DistributedSystems.Kv

/-- The errors of server and Clerk; `errMaybe` is returned by the Clerk only. -/
inductive Err where
  | ok
  | errNoKey
  | errVersion
  | errMaybe
deriving DecidableEq, Repr

abbrev Tversion := UInt64

structure PutArgs where
  key : String
  value : String
  version : Tversion
deriving DecidableEq, Repr

structure PutReply where
  err : Err
deriving DecidableEq, Repr

structure GetArgs where
  key : String
deriving DecidableEq, Repr

structure GetReply where
  value : String
  version : Tversion
  err : Err
deriving DecidableEq, Repr

structure ValueVersion where
  value : String
  version : Tversion
deriving DecidableEq, Repr

structure KVServer where
  store : String → Option ValueVersion

namespace KVServer

/-- `MakeKVServer`: the server starts with an empty map. -/
def make : KVServer := ⟨fun _ => none⟩

/-- Map assignment `kv.store[key] = vv`. -/
def assign (kv : KVServer) (key : String) (vv : ValueVersion) : KVServer :=
  ⟨Function.update kv.store key (some vv)⟩

/-- The `Get` handler. -/
def get (kv : KVServer) (args : GetArgs) : GetReply :=
  match kv.store args.key with
  | none => ⟨"", 0, .errNoKey⟩
  | some vv => ⟨vv.value, vv.version, .ok⟩

/-- The `Put` handler. -/
def put (kv : KVServer) (args : PutArgs) : KVServer × PutReply :=
  match kv.store args.key with
  | some vv =>
      if args.version = vv.version then
        (kv.assign args.key ⟨args.value, args.version + 1⟩, ⟨.ok⟩)
      else (kv, ⟨.errVersion⟩)
  | none =>
      if args.version = 0 then (kv.assign args.key ⟨args.value, 1⟩, ⟨.ok⟩)
      else (kv, ⟨.errNoKey⟩)

/-- The version a `Put` on `key` has to name: the stored one, `0` for an absent key. -/
def version (kv : KVServer) (key : String) : Tversion :=
  match kv.store key with
  | none => 0
  | some vv => vv.version

@[simp] theorem assign_store (kv : KVServer) (key : String) (vv : ValueVersion) (k : String) :
    (kv.assign key vv).store k = if k = key then some vv else kv.store k := by
  simp [assign, Function.update_apply]

theorem version_of_none {kv : KVServer} {key : String} (h : kv.store key = none) :
    kv.version key = 0 := by simp [version, h]

theorem version_of_some {kv : KVServer} {key : String} {v : ValueVersion}
    (h : kv.store key = some v) : kv.version key = v.version := by simp [version, h]

/-- A `Put` that names the current version is installed with the next one. -/
theorem put_of_eq {kv : KVServer} {args : PutArgs} (h : args.version = kv.version args.key) :
    kv.put args = (kv.assign args.key ⟨args.value, args.version + 1⟩, ⟨.ok⟩) := by
  unfold put
  cases hs : kv.store args.key with
  | none =>
      rw [version_of_none hs] at h
      simp [h]
  | some vv =>
      rw [version_of_some hs] at h
      simp [h]

/-- A `Put` that names another version changes nothing, and the error tells whether the key
is present. -/
theorem put_of_ne {kv : KVServer} {args : PutArgs} (h : args.version ≠ kv.version args.key) :
    kv.put args = (kv, ⟨if kv.store args.key = none then .errNoKey else .errVersion⟩) := by
  unfold put
  cases hs : kv.store args.key with
  | none =>
      rw [version_of_none hs] at h
      simp [h]
  | some vv =>
      rw [version_of_some hs] at h
      simp [h]

theorem put_err_ok_iff {kv : KVServer} {args : PutArgs} :
    (kv.put args).2.err = .ok ↔ args.version = kv.version args.key := by
  by_cases h : args.version = kv.version args.key
  · simp [put_of_eq h, h]
  · rw [put_of_ne h]
    split_ifs <;> simp [h]

end KVServer

/-! ### Requests, replies and what the Clerk returns -/

/-- A request a Clerk sends: the method with its arguments. -/
inductive Op where
  | get (args : GetArgs)
  | put (args : PutArgs)
deriving DecidableEq, Repr

inductive Reply where
  | get (reply : GetReply)
  | put (reply : PutReply)
deriving DecidableEq, Repr

/-- Dispatch of a request to the server's handler. -/
def KVServer.handle (kv : KVServer) : Op → KVServer × Reply
  | .get args => (kv, .get (kv.get args))
  | .put args => ((kv.put args).1, .put (kv.put args).2)

/-- What `Clerk.Get` or `Clerk.Put` returns to the application. -/
inductive Ret where
  | get (value : String) (version : Tversion) (err : Err)
  | put (err : Err)
deriving DecidableEq, Repr

/-- The variadic argument `retry ...bool` of `Clerk.put` on the given attempt: absent on the
first, `true` on every resend. -/
def retryArgs (attempt : ℕ) : List Bool := if attempt = 0 then [] else [true]

/-- The error `Clerk.put` returns after a successful `Call`: `ErrVersion` becomes `ErrMaybe` on a
resend. -/
def putErr (retry : List Bool) (reply : PutReply) : Err :=
  if 0 < retry.length ∧ retry.head? = some true ∧ reply.err = .errVersion then .errMaybe
  else reply.err

/-- The Clerk's return value for the reply to the given attempt; `none` when the reply does
not belong to the method. -/
def Op.finish : Op → ℕ → Reply → Option Ret
  | .get _, _, .get reply => some (.get reply.value reply.version reply.err)
  | .put _, attempt, .put reply => some (.put (putErr (retryArgs attempt) reply))
  | _, _, _ => none

theorem putErr_eq (attempt : ℕ) (reply : PutReply) :
    putErr (retryArgs attempt) reply =
      if 0 < attempt ∧ reply.err = .errVersion then .errMaybe else reply.err := by
  rcases Nat.eq_zero_or_pos attempt with rfl | h
  · simp [putErr, retryArgs]
  · simp [putErr, retryArgs, h, Nat.pos_iff_ne_zero.mp h]

end DistributedSystems.Kv
