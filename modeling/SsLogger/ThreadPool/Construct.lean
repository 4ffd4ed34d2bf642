import SsLogger.ThreadSafeQueue
import Mathlib.Data.Bool.Count

set_option autoImplicit false

/-! # Building the pool: `InitializeThreads`

The constructor makes `m_tasks` with `number_of_threads` empty `TaskItem`s and then runs
`InitializeThreads`. Each iteration pushes `current_id` on the ring `m_priority_queue` and tries
to `emplace_back` a thread running `ThreadLoop(current_id)`. When the thread is made,
`current_id` goes up; when `emplace_back` throws, the `catch` drops the last `TaskItem` and pops
the id it has just pushed. `emplace_back` gives the strong guarantee, so a throw leaves
`m_threads` as it was.

The loop is a fold over the outcomes of the `emplace_back`s, one `Bool` per iteration. Whatever
the outcomes, the pool ends with `s` threads, `s` task items and the ring `[0, …, s-1]`, and the
`k`-th thread runs with id `k` (`initializeThreads_eq`). -/

namespace SsLogger.ThreadPool

open SsLogger.ThreadSafeQueue

/-- What `InitializeThreads` works on: the ids the threads of `m_threads` were started with,
`m_tasks.size()`, the ring, and `current_id`. -/
structure Built where
  threads : List Nat
  tasks : Nat
  ring : List Nat
  currentId : Nat
  deriving DecidableEq, Repr

/-- One iteration of the `for` loop; `spawned` is false when `emplace_back` threw. -/
def initStep (b : Built) (spawned : Bool) : Built :=
  let ring := pushBack b.ring b.currentId
  if spawned then
    { b with threads := b.threads ++ [b.currentId], ring := ring, currentId := b.currentId + 1 }
  else
    { b with tasks := b.tasks - 1, ring := ((popBack ring).map Prod.snd).getD ring }

/-- `InitializeThreads(number_of_threads, init)` after `m_tasks(number_of_threads)`, with
`spawns` the outcomes of the `number_of_threads` calls of `emplace_back`. -/
def initializeThreads (spawns : List Bool) : Built :=
  spawns.foldl initStep ⟨[], spawns.length, [], 0⟩

/-- The loop invariant: after `k` threads were made and `f` spawns failed, starting from `m`
task items, the threads are `0, …, k-1`, the ring is the same list, and `m - f` items are left. -/
theorem foldl_initStep (l : List Bool) (k m : Nat) :
    l.foldl initStep ⟨List.range k, m, List.range k, k⟩ =
      ⟨List.range (k + l.count true), m - l.count false,
        List.range (k + l.count true), k + l.count true⟩ := by
  induction l generalizing k m with
  | nil => simp
  | cons b l ih =>
    cases b with
    | true =>
      have hr : List.range k ++ [k] = List.range (k + 1) := (List.range_succ k).symm
      rw [List.count_cons_self, List.count_cons_of_ne (show false ≠ true by decide),
        show k + (l.count true + 1) = k + 1 + l.count true by omega, ← ih]
      simp only [List.foldl_cons, initStep, if_true, pushBack, hr]
    | false =>
      have hr : ((popBack (pushBack (List.range k) k)).map Prod.snd).getD
          (pushBack (List.range k) k) = List.range k := by
        simp [popBack, pushBack]
      simp only [List.foldl_cons, initStep, Bool.false_eq_true, if_false, hr, ih, Nat.sub_sub,
        List.count_cons_self, List.count_cons_of_ne (show true ≠ false by decide),
        Nat.add_comm 1]

/-- However the spawns go, `InitializeThreads` leaves `s` threads, `m_threads[k]` running
`ThreadLoop` with id `k`, `s` task items, and the ring `[0, …, s-1]`, where `s` counts the
spawns that succeeded. -/
theorem initializeThreads_eq (spawns : List Bool) :
    initializeThreads spawns =
      ⟨List.range (spawns.count true), spawns.count true, List.range (spawns.count true),
        spawns.count true⟩ := by
  have hsplit := List.count_true_add_count_false spawns
  simpa [initializeThreads, show spawns.length - spawns.count false = spawns.count true by omega]
    using foldl_initStep spawns 0 spawns.length

end SsLogger.ThreadPool
