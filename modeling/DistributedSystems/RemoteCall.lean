import DistributedSystems.TransitionSystem
import DistributedSystems.EventLog
import DistributedSystems.Parties

/-! # Remote calls that are executed at most once

What a caller may rely on when it calls a remote procedure over a network that loses and delays
messages but does not duplicate them, as a transition system of its own.  A call with operation
`op` is executed at most once, at any time, also after it has returned; it returns at most once,
either the response of its execution (`answer`) or no response (`fail`), and the failure leaves
open whether the call has been or will be executed.

A network refines this system when every step of it is one of these steps or none, and then its
log is lawful (`reachable_lawful`): every execution and every return is the first of its call and
comes after the call, and a response was returned only after the execution that gave it. -/

namespace DistributedSystems.RemoteCall

variable {ω ρ : Type}

/-- A call: its operation, the response of its execution, and what it returned. -/
structure Call (ω ρ : Type) where
  op : ω
  exec : Option ρ
  ret : Option (Option ρ)

inductive Event (ω ρ : Type) where
  | call (n : ℕ) (op : ω)
  | exec (n : ℕ) (r : ρ)
  | ret (n : ℕ) (r : Option ρ)
deriving DecidableEq, Repr

structure State (ω ρ : Type) where
  calls : List (Call ω ρ)
  log : List (Event ω ρ)

inductive Action (ω ρ : Type) where
  | call (op : ω)
  | exec (n : ℕ) (r : ρ)
  | answer (n : ℕ)
  | fail (n : ℕ)

namespace State

@[simps] def call (s : State ω ρ) (op : ω) : State ω ρ where
  calls := s.calls ++ [⟨op, none, none⟩]
  log := s.log ++ [.call s.calls.length op]

@[simps] def exec (s : State ω ρ) (n : ℕ) (c : Call ω ρ) (r : ρ) : State ω ρ where
  calls := s.calls.set n { c with exec := some r }
  log := s.log ++ [.exec n r]

@[simps] def ret (s : State ω ρ) (n : ℕ) (c : Call ω ρ) (r : Option ρ) : State ω ρ where
  calls := s.calls.set n { c with ret := some r }
  log := s.log ++ [.ret n r]

def step (s : State ω ρ) : Action ω ρ → Option (State ω ρ)
  | .call op => some (s.call op)
  | .exec n r => do
      let c ← s.calls[n]?
      if c.exec.isNone then some (s.exec n c r) else none
  | .answer n => do
      let c ← s.calls[n]?
      let r ← c.exec
      if c.ret.isNone then some (s.ret n c (some r)) else none
  | .fail n => do
      let c ← s.calls[n]?
      if c.ret.isNone then some (s.ret n c none) else none

end State

/-- The calls in progress between any number of callers and servers. -/
def system (ω ρ : Type) : Lts (State ω ρ) (Action ω ρ) := ⟨⟨[], []⟩, State.step⟩

/-- What a step can do: the inversion of `State.step`. -/
inductive Stepped (s : State ω ρ) : State ω ρ → Prop
  | call (op : ω) : Stepped s (s.call op)
  | exec {n : ℕ} {c : Call ω ρ} (r : ρ) (hc : s.calls[n]? = some c) (hx : c.exec = none) :
      Stepped s (s.exec n c r)
  | ret {n : ℕ} {c : Call ω ρ} {r : Option ρ} (hc : s.calls[n]? = some c) (hr : c.ret = none)
      (hx : ∀ x, r = some x → c.exec = some x) : Stepped s (s.ret n c r)

theorem State.step_cases {s s' : State ω ρ} {a : Action ω ρ} (h : s.step a = some s') :
    Stepped s s' := by
  cases a with
  | call op =>
      simp only [State.step, Option.some.injEq] at h
      exact h ▸ .call op
  | exec n r =>
      simp only [State.step, Option.bind_eq_bind, Option.bind_eq_some_iff,
        Option.ite_none_right_eq_some, Option.isNone_iff_eq_none, Option.some.injEq] at h
      obtain ⟨c, hc, hx, rfl⟩ := h
      exact .exec r hc hx
  | answer n =>
      simp only [State.step, Option.bind_eq_bind, Option.bind_eq_some_iff,
        Option.ite_none_right_eq_some, Option.isNone_iff_eq_none, Option.some.injEq] at h
      obtain ⟨c, hc, r, hx, hr, rfl⟩ := h
      refine .ret hc hr ?_
      rintro x ⟨⟩
      exact hx
  | fail n =>
      simp only [State.step, Option.bind_eq_bind, Option.bind_eq_some_iff,
        Option.ite_none_right_eq_some, Option.isNone_iff_eq_none, Option.some.injEq] at h
      obtain ⟨c, hc, hr, rfl⟩ := h
      exact .ret hc hr (by simp)

/-! ### The steps a network has to match -/

section steps

variable {s : State ω ρ} {n : ℕ} {c : Call ω ρ}

theorem step_exec (r : ρ) (hc : s.calls[n]? = some c) (hx : c.exec = none) :
    s.step (.exec n r) = some (s.exec n c r) := by
  simp [State.step, hc, hx]

theorem step_answer {r : ρ} (hc : s.calls[n]? = some c) (hx : c.exec = some r)
    (hr : c.ret = none) : s.step (.answer n) = some (s.ret n c (some r)) := by
  simp [State.step, hc, hx, hr]

theorem step_fail (hc : s.calls[n]? = some c) (hr : c.ret = none) :
    s.step (.fail n) = some (s.ret n c none) := by
  simp [State.step, hc, hr]

end steps

/-! ### The log -/

/-- What the log before an event says about it. -/
def Lawful (pre : List (Event ω ρ)) : Event ω ρ → Prop
  | .call n _ => ∀ op, Event.call n op ∉ pre
  | .exec n _ => (∃ op, Event.call n op ∈ pre) ∧ ∀ r, Event.exec n r ∉ pre
  | .ret n r => (∃ op, Event.call n op ∈ pre) ∧ (∀ r', Event.ret n r' ∉ pre) ∧
      ∀ x, r = some x → Event.exec n x ∈ pre

/-- The calls are what the log says of them. -/
structure Logged (s : State ω ρ) : Prop where
  call : ∀ n op, Event.call n op ∈ s.log ↔ ∃ c, s.calls[n]? = some c ∧ c.op = op
  exec : ∀ n r, Event.exec n r ∈ s.log ↔ ∃ c, s.calls[n]? = some c ∧ c.exec = some r
  ret : ∀ n r, Event.ret n r ∈ s.log ↔ ∃ c, s.calls[n]? = some c ∧ c.ret = some r

/-- A property of the call `m` that holds of `c` or of its replacement `d` exactly when `m` is `n`
and `c` did not have it. -/
theorem exists_set_iff {l : List (Call ω ρ)} {n m : ℕ} {c d : Call ω ρ} (hc : l[n]? = some c)
    (P : Call ω ρ → Prop) {Q : Prop} (hP : P d ↔ P c ∨ Q) :
    (∃ x, (l.set n d)[m]? = some x ∧ P x) ↔ (∃ x, l[m]? = some x ∧ P x) ∨ m = n ∧ Q := by
  have hlt : n < l.length := (List.getElem?_eq_some_iff.mp hc).1
  by_cases hm : m = n
  · subst hm
    simp [List.getElem?_set_self hlt, hc, hP]
  · simp [List.getElem?_set_ne (Ne.symm hm), hm]

theorem exists_concat_iff {l : List (Call ω ρ)} {m : ℕ} {d : Call ω ρ} (P : Call ω ρ → Prop) :
    (∃ x, (l ++ [d])[m]? = some x ∧ P x) ↔ (∃ x, l[m]? = some x ∧ P x) ∨ m = l.length ∧ P d := by
  rcases lt_trichotomy m l.length with hm | rfl | hm
  · simp [List.getElem?_append_left hm, hm.ne]
  · simp
  · rw [List.getElem?_eq_none (by simp; omega), List.getElem?_eq_none (by omega)]
    simp [hm.ne']

theorem Logged.step {s s' : State ω ρ} (hl : Logged s) (h : Stepped s s') : Logged s' := by
  cases h with
  | call op =>
      constructor
      · intro n op'
        rw [State.call_calls, exists_concat_iff (fun c => c.op = op'), ← hl.call]
        simp [eq_comm]
      · intro n r
        rw [State.call_calls, exists_concat_iff (fun c => c.exec = some r), ← hl.exec]
        simp
      · intro n r
        rw [State.call_calls, exists_concat_iff (fun c => c.ret = some r), ← hl.ret]
        simp
  | @exec n c r hc hx =>
      constructor
      · intro m op
        rw [State.exec_calls, exists_set_iff hc (fun c => c.op = op) (Q := False) (by simp),
          ← hl.call]
        simp
      · intro m r'
        rw [State.exec_calls, exists_set_iff hc (fun c => c.exec = some r') (Q := r = r')
          (by simp [hx]), ← hl.exec]
        simp [eq_comm]
      · intro m r'
        rw [State.exec_calls, exists_set_iff hc (fun c => c.ret = some r') (Q := False) (by simp),
          ← hl.ret]
        simp
  | @ret n c r hc hr hx =>
      constructor
      · intro m op
        rw [State.ret_calls, exists_set_iff hc (fun c => c.op = op) (Q := False) (by simp),
          ← hl.call]
        simp
      · intro m r'
        rw [State.ret_calls, exists_set_iff hc (fun c => c.exec = some r') (Q := False) (by simp),
          ← hl.exec]
        simp
      · intro m r'
        rw [State.ret_calls, exists_set_iff hc (fun c => c.ret = some r') (Q := r = r')
          (by simp [hr]), ← hl.ret]
        simp [eq_comm]

theorem reachable_logged {C : State ω ρ → Action ω ρ → Prop} {s : State ω ρ}
    (h : (system ω ρ).ReachableBy C s) : Logged s := by
  refine h.invariant (by constructor <;> simp [system]) ?_
  intro s a s' _ hl _ hs
  exact hl.step (State.step_cases hs)

/-- A step appends one event, which the log before it allows. -/
theorem Logged.lawful_step {s s' : State ω ρ} (hl : Logged s) (h : Stepped s s')
    (he : EachEvent Lawful s.log) : EachEvent Lawful s'.log := by
  cases h with
  | call op =>
      refine he.concat ?_
      intro op' h
      obtain ⟨c, hc, -⟩ := (hl.call _ _).mp h
      simp at hc
  | @exec n c r hc hx =>
      refine he.concat ⟨⟨c.op, (hl.call _ _).mpr ⟨c, hc, rfl⟩⟩, ?_⟩
      intro r' h
      obtain ⟨c', hc', hx'⟩ := (hl.exec _ _).mp h
      rw [hc, Option.some.injEq] at hc'
      rw [← hc', hx] at hx'
      cases hx'
  | @ret n c r hc hr hx =>
      refine he.concat ⟨⟨c.op, (hl.call _ _).mpr ⟨c, hc, rfl⟩⟩, ?_, ?_⟩
      · intro r' h
        obtain ⟨c', hc', hr'⟩ := (hl.ret _ _).mp h
        rw [hc, Option.some.injEq] at hc'
        rw [← hc', hr] at hr'
        cases hr'
      · intro x he
        exact (hl.exec _ _).mpr ⟨c, hc, hx x he⟩

/-- **At most once**: in every run each call is executed at most once and returns at most once,
and a response is returned only after the execution that gave it. -/
theorem reachable_lawful {C : State ω ρ → Action ω ρ → Prop} {s : State ω ρ}
    (h : (system ω ρ).ReachableBy C s) : EachEvent Lawful s.log := by
  refine h.invariant (I := fun s => EachEvent Lawful s.log) (EachEvent.nil _) ?_
  intro s a s' hr he _ hs
  exact (reachable_logged hr).lawful_step (State.step_cases hs) he

/-! ### One server -/

/-- The server, started in `x₀`, has executed the calls of the log one after the other with `f`,
each with its own operation, and is now in the last state. -/
inductive ServedBy {σ : Type} (f : σ → ω → Option (σ × ρ)) (x₀ : σ) :
    List (Event ω ρ) → σ → Prop
  | init : ServedBy f x₀ [] x₀
  | call {log : List (Event ω ρ)} {x : σ} (n : ℕ) (op : ω) :
      ServedBy f x₀ log x → ServedBy f x₀ (log ++ [.call n op]) x
  | exec {log : List (Event ω ρ)} {x x' : σ} {n : ℕ} {op : ω} {r : ρ} :
      ServedBy f x₀ log x → .call n op ∈ log → f x op = some (x', r) →
        ServedBy f x₀ (log ++ [.exec n r]) x'
  | ret {log : List (Event ω ρ)} {x : σ} (n : ℕ) (r : Option ρ) :
      ServedBy f x₀ log x → ServedBy f x₀ (log ++ [.ret n r]) x

end DistributedSystems.RemoteCall
