/-!
# Worker pools

A pool works off a list of tasks. A worker starts a task and later finishes it; in
between, other workers may start and finish others. A result is kept at the place of
its task. The order of work is up to the pool, which may also fail to come into
being: then the tasks are done one after another, without it.
-/

namespace Recast

namespace Pool

/-- What a worker does to the task at a given place. -/
inductive Event where
  | start (task : Nat)
  | finish (task : Nat)
  deriving Repr, DecidableEq, Inhabited

def Event.task : Event → Nat
  | .start i | .finish i => i

@[simp] theorem Event.task_start (i : Nat) : (start i).task = i := rfl

@[simp] theorem Event.task_finish (i : Nat) : (finish i).task = i := rfl

/-- A task, or its result. -/
inductive Slot (α β : Type) where
  | waiting (task : α)
  | running (task : α)
  | done (result : β)

variable {α β : Type}

namespace Slot

def start : Slot α β → Slot α β
  | .waiting a => .running a
  | slot => slot

def finish (work : α → β) : Slot α β → Slot α β
  | .running a => .done (work a)
  | slot => slot

def result? : Slot α β → Option β
  | .done b => some b
  | _ => none

end Slot

/-- What an event does to the slot of its task. -/
def Event.act (work : α → β) : Event → Slot α β → Slot α β
  | .start _ => Slot.start
  | .finish _ => Slot.finish work

def step (work : α → β) (slots : List (Slot α β)) (e : Event) : List (Slot α β) :=
  slots.modify e.task (e.act work)

def run (work : α → β) (slots : List (Slot α β)) (events : List Event) : List (Slot α β) :=
  events.foldl (step work) slots

/-- An order of work on `n` tasks: each of them is started once and, after that, finished
once, and nothing else is done. -/
structure Schedule (n : Nat) where
  events : List Event
  inside : ∀ e ∈ events, e.task < n
  once : ∀ i < n, events.filter (·.task == i) = [.start i, .finish i]

namespace Schedule

/-- The results, each at the place of its task. -/
def map {n : Nat} (schedule : Schedule n) (work : α → β) (tasks : List α) : List β :=
  (run work (tasks.map .waiting) schedule.events).filterMap Slot.result?

/-- One task more, after all others. -/
def snoc {n : Nat} (schedule : Schedule n) : Schedule (n + 1) where
  events := schedule.events ++ [.start n, .finish n]
  inside e he := by
    rcases List.mem_append.1 he with h | h
    · exact Nat.lt_succ_of_lt (schedule.inside e h)
    · have htask : e.task = n := by
        simp only [List.mem_cons, List.not_mem_nil, or_false] at h
        rcases h with rfl | rfl <;> rfl
      omega
  once i hi := by
    rw [List.filter_append]
    rcases Nat.lt_succ_iff_lt_or_eq.1 hi with h | rfl
    · have hne : (n == i) = false := by simpa using Nat.ne_of_gt h
      simp [schedule.once i h, hne]
    · have hnil : schedule.events.filter (·.task == i) = [] :=
        List.filter_eq_nil_iff.2 fun e he => by simpa using Nat.ne_of_lt (schedule.inside e he)
      rw [hnil]
      simp

/-- The tasks from first to last. -/
def inOrder : (n : Nat) → Schedule n
  | 0 => ⟨[], nofun, nofun⟩
  | n + 1 => (inOrder n).snoc

end Schedule

end Pool

/-- The order of work for each number of tasks, or `none` if the pool cannot be built. -/
def Pool : Type := (n : Nat) → Option (Pool.Schedule n)

namespace Pool

/-- A pool that takes the tasks from first to last. -/
def inOrder : Pool := fun n => some (.inOrder n)

/-- The results of all tasks. -/
def map {α β : Type} (pool : Pool) (work : α → β) (tasks : List α) : List β :=
  match pool tasks.length with
  | none => tasks.map work
  | some schedule => schedule.map work tasks

end Pool

end Recast
