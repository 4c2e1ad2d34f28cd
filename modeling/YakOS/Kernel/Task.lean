import Mathlib.Data.List.Basic

/-!
# Tasks

The task states of `include/kernel/task.h` and the names the scheduler, the
semaphores and the wait queues use for tasks.  A `task_t *` is modelled by a
`TaskId`; the fields of `task_t` the modelled code reads are kept by the modules
that read them.
-/

namespace YakOS

/-- A `task_t *`. -/
abbrev TaskId := ℕ

/-- `enum task_state`. -/
inductive TaskState
  /-- Task is runnable or running. -/
  | running
  /-- Task is waiting for something to happen. -/
  | sleeping
  /-- Suspend count is non-zero. -/
  | suspended
  | ready
  /-- Task is being created. -/
  | creating
  | blocked
  /-- Task has exited. -/
  | exited
  deriving DecidableEq, Repr, Inhabited

/-- `MAX_PRIORITY`: priorities are `0` (highest) to `7` (lowest). -/
def maxPriority : ℕ := 8

end YakOS
