import DistributedSystems.Coordinator

/-! # The logger of a worker

`mr/logger.go`: a logger has pairs that it adds to every line.  `AddDefault` looks for its key in
the list of these pairs, but it appends the new pair for every pair with another key, not once at
the end.  The loop reads the length of the list in every iteration, so it comes to the pairs that
it has appended as well; these have the key, which is why it ends.

A worker adds two pairs for every task.  The length of the list then follows the Fibonacci numbers
(`Grown.logTask`). -/

namespace DistributedSystems.MapReduce

/-- The string that a `TaskType` is. -/
def TaskType.text : TaskType → String
  | .unset => ""
  | .map => "map"
  | .reduce => "reduce"
  | .wait => "wait"
  | .exit => "exit"

structure Logger where
  defaults : List (String × String)
deriving DecidableEq, Repr

namespace Logger

/-- `NewLogger`. -/
def new : Logger := ⟨[]⟩

/-- The loop of `AddDefault` when it has come through `seen`. -/
def addLoop (k v : String) (seen : List (String × String)) :
    List (String × String) → List (String × String)
  | [] => seen
  | p :: rest =>
      if p.1 = k then addLoop k v (seen ++ [(p.1, v)]) rest
      else addLoop k v (seen ++ [p]) (rest ++ [(k, v)])
termination_by rest => rest.countP (fun p => p.1 ≠ k) + rest.length
decreasing_by
  all_goals simp_all

def addDefault (l : Logger) (k v : String) : Logger :=
  let defaults := if l.defaults.length = 0 then l.defaults ++ [(k, v)] else l.defaults
  ⟨addLoop k v [] defaults⟩

/-- The logger of a new worker. -/
def forWorker (workerId : String) : Logger := new.addDefault "worker" workerId

/-- What `run` adds when it has got a task. -/
def logTask (l : Logger) (task : GetTaskOut) : Logger :=
  (l.addDefault "task" task.id).addDefault "type" task.type.text

/-! ### The length of the list -/

/-- Pairs with the key get the value, and for every other pair there is a new one at the end. -/
theorem addLoop_eq (k v : String) (seen rest : List (String × String)) :
    addLoop k v seen rest = seen ++ rest.map (fun p => if p.1 = k then (k, v) else p) ++
      List.replicate (rest.countP (fun p => p.1 ≠ k)) (k, v) := by
  fun_induction addLoop k v seen rest with
  | case1 seen => simp
  | case2 seen p rest hp ih => rw [ih]; simp [hp]
  | case3 seen p rest hp ih => simp [ih, hp, List.replicate_succ]

/-- How many pairs have the key. -/
def count (l : Logger) (k : String) : ℕ := l.defaults.countP (fun p => p.1 = k)

variable {l : Logger} {k v : String}

theorem addDefault_defaults (h : l.defaults ≠ []) : (l.addDefault k v).defaults =
    l.defaults.map (fun p => if p.1 = k then (k, v) else p) ++
      List.replicate (l.defaults.countP (fun p => p.1 ≠ k)) (k, v) := by
  have hlen : ¬ l.defaults.length = 0 := by
    simpa [List.length_eq_zero_iff] using h
  simp only [addDefault, if_neg hlen, addLoop_eq, List.nil_append]

theorem count_add_others (l : Logger) (k : String) :
    l.count k + l.defaults.countP (fun p => p.1 ≠ k) = l.defaults.length := by
  have := List.length_eq_countP_add_countP (fun p : String × String => decide (p.1 = k))
    (l := l.defaults)
  simpa [count] using this.symm

theorem length_addDefault (h : l.defaults ≠ []) :
    (l.addDefault k v).defaults.length + l.count k = 2 * l.defaults.length := by
  have := l.count_add_others k
  rw [addDefault_defaults h, List.length_append, List.length_map, List.length_replicate]
  omega

/-- The pairs with the key are now as many as all pairs were. -/
theorem count_addDefault_self (h : l.defaults ≠ []) :
    (l.addDefault k v).count k = l.defaults.length := by
  have hmap : (l.defaults.map (fun p => if p.1 = k then (k, v) else p)).countP
      (fun p => p.1 = k) = l.count k := by
    rw [List.countP_map, count]
    refine List.countP_congr ?_
    intro p _
    by_cases hp : p.1 = k <;> simp [hp]
  have := l.count_add_others k
  rw [count, addDefault_defaults h, List.countP_append, hmap, List.countP_replicate]
  simpa using this

theorem count_addDefault_of_ne (h : l.defaults ≠ []) {k' : String} (hne : k' ≠ k) :
    (l.addDefault k v).count k' = l.count k' := by
  have hmap : (l.defaults.map (fun p => if p.1 = k then (k, v) else p)).countP
      (fun p => p.1 = k') = l.count k' := by
    rw [List.countP_map, count]
    refine List.countP_congr ?_
    intro p _
    by_cases hp : p.1 = k
    · simp [hp]
    · simp [hp]
  rw [count, addDefault_defaults h, List.countP_append, hmap, List.countP_replicate]
  simp [Ne.symm hne]

/-- The logger of a worker that has come through `n` tasks. -/
structure Grown (n : ℕ) (l : Logger) : Prop where
  length : l.defaults.length + 1 = Nat.fib (2 * n + 3)
  task : l.count "task" + 1 = Nat.fib (2 * n + 1)
  type : l.count "type" + 1 = Nat.fib (2 * n + 2)

theorem grown_forWorker (workerId : String) : Grown 0 (forWorker workerId) := by
  have h : (forWorker workerId).defaults = [("worker", workerId)] := by
    simp [forWorker, new, addDefault, addLoop]
  constructor <;> simp [count, h, Nat.fib_add_two]

theorem Grown.ne_nil {n : ℕ} (h : Grown n l) : l.defaults ≠ [] := by
  intro hnil
  have hle : Nat.fib 3 ≤ Nat.fib (2 * n + 3) := Nat.fib_mono (by omega)
  have hlen := h.length
  rw [hnil, List.length_nil] at hlen
  have : Nat.fib 3 = 2 := rfl
  omega

theorem Grown.logTask {n : ℕ} (h : Grown n l) (task : GetTaskOut) :
    Grown (n + 1) (l.logTask task) := by
  have hfib : ∀ m, Nat.fib (m + 3) + Nat.fib m = 2 * Nat.fib (m + 2) := by
    intro m
    have h2 : Nat.fib (m + 2) = Nat.fib m + Nat.fib (m + 1) := Nat.fib_add_two
    have h3 : Nat.fib (m + 3) = Nat.fib (m + 1) + Nat.fib (m + 2) := Nat.fib_add_two
    omega
  obtain ⟨l₁, hl₁⟩ : ∃ l₁, l₁ = l.addDefault "task" task.id := ⟨_, rfl⟩
  -- after the first of the two pairs
  have hlen₁ : l₁.defaults.length + 1 = Nat.fib (2 * n + 4) := by
    have hlen := length_addDefault (k := "task") (v := task.id) h.ne_nil
    have := h.length
    have := h.task
    have : Nat.fib (2 * n + 4) + Nat.fib (2 * n + 1) = 2 * Nat.fib (2 * n + 3) := hfib _
    rw [← hl₁] at hlen
    omega
  have htask₁ : l₁.count "task" + 1 = Nat.fib (2 * n + 3) := by
    rw [hl₁, count_addDefault_self h.ne_nil]
    exact h.length
  have htype₁ : l₁.count "type" + 1 = Nat.fib (2 * n + 2) := by
    rw [hl₁, count_addDefault_of_ne h.ne_nil (by decide)]
    exact h.type
  have hne₁ : l₁.defaults ≠ [] := by
    intro hnil
    have hle : Nat.fib 3 ≤ Nat.fib (2 * n + 4) := Nat.fib_mono (by omega)
    rw [hnil, List.length_nil] at hlen₁
    have : Nat.fib 3 = 2 := rfl
    omega
  rw [Logger.logTask, ← hl₁]
  refine ⟨?_, ?_, ?_⟩
  · have hlen := length_addDefault (k := "type") (v := task.type.text) hne₁
    have : Nat.fib (2 * n + 5) + Nat.fib (2 * n + 2) = 2 * Nat.fib (2 * n + 4) := hfib _
    show _ + 1 = Nat.fib (2 * n + 5)
    omega
  · rw [count_addDefault_of_ne hne₁ (by decide)]
    exact htask₁
  · rw [count_addDefault_self hne₁]
    exact hlen₁

end Logger

end DistributedSystems.MapReduce
