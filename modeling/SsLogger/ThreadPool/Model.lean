import SsLogger.ThreadPool.Construct
import Mathlib.Logic.Function.Basic

set_option autoImplicit false

/-! # The pool as a transition system

`ThreadPool` is modelled as a state machine whose steps are the atomic actions of its threads:
every `ThreadSafeQueue` operation, every load, store, `fetch_add` and `fetch_sub` of an atomic,
and every `acquire` and `release` of a semaphore is one step, and the steps of all threads
interleave in any order.

The threads are
* the `size` workers, each running `ThreadLoop(w)` (the init hook touches no pool state and is
  left out, so a worker starts at its `acquire`);
* `nprods` producer threads, each calling `Enqueue`/`EnqueueDetach` any number of times;
* the task a worker is running, which may itself call `Enqueue` (`nested`): those calls run on the
  worker's thread and finish before the task does;
* `nwaiters` threads calling `WaitForTasks`;
* the thread that runs `~ThreadPool`: `WaitForTasks`, then `StopAllThreads`. It may start only
  when no producer and no waiter is inside a member function, since a call that overlaps the
  destructor is a use of a destroyed object.

A task is known by the number `Enqueue` gave it (`next`); it stands for the `std::function`
object, which is distinct for every call. Three ghost fields record history: `next`, the tasks
handed to `ExecuteTask` (`executed`), and the tasks whose `EnqueueTask` took its early return
(`dropped`).

`std::atomic::wait(false)` loads the flag and returns if it reads `true`; otherwise it blocks
until a `notify_one` unblocks it, or spuriously, and loads again. A call is eligible to be
unblocked by a `notify_one` only if it blocked after loading a store that precedes the store
before the `notify_one` in the flag's modification order. Stores are numbered (`stores`), a
blocked caller keeps the number of the store it loaded, and each `notify_one` leaves a
notification with the number of its `store(true)` (`notes`); a blocked caller that takes one
takes it up in its own step, and a caller that wakes with none wakes spuriously (`spurious`
counts those wake-ups). `SignalCompletion`'s `store(true)` and `notify_one` are one step. A
`release()` adds one to the count, as the standard's effects clause says; that the count was `0`
before (the precondition of `binary_semaphore::release`) is a property of the runs, not assumed
by the model. -/

namespace SsLogger.ThreadPool

open SsLogger.ThreadSafeQueue Function

/-! ## Program counters -/

/-- Where `ExecuteTask` returns to: the `while` over the own queue in `ProcessTasks`, or the
`break` in `StealTask`, after which `ProcessTasks` reads `m_unassigned_tasks`. -/
inductive Resume where
  | ownQueue
  | afterSteal
  deriving DecidableEq, Repr

/-- A thread's place in `EnqueueTask`; `t` is its task and `i` the worker index the ring gave.
`popRing` and `pushRing` are the two halves of `CopyFrontAndRotateToBack`. -/
inductive EnqPc where
  | idle
  | popRing (t : Nat)
  | pushRing (t i : Nat)
  | addUnassigned (t i : Nat)
  | addInFlight (t i : Nat)
  | storeFalse (t i : Nat)
  | pushTask (t i : Nat)
  | release (t i : Nat)
  deriving DecidableEq, Repr

/-- A worker's place in `ThreadLoop`, `ProcessTasks`, `StealTask` (at loop index `j`),
`ExecuteTask` and `SignalCompletion`: `popOwn` is the `PopFront` of the own queue, `invoke` the
task's `std::invoke`, `checkUnassigned` the `while` of `ProcessTasks`, `loadInFlight` and
`storeTrue` the load and the `store(true)` with its `notify_one` in `SignalCompletion`, and
`checkStop` the `while` of `ThreadLoop`. -/
inductive WorkerPc where
  | acquire
  | popOwn
  | steal (j : Nat)
  | subUnassigned (t : Nat) (r : Resume)
  | invoke (t : Nat) (r : Resume)
  | subInFlight (t : Nat) (r : Resume)
  | checkUnassigned
  | loadInFlight
  | storeTrue
  | checkStop
  | exited
  deriving DecidableEq, Repr

/-- A `WaitForTasks` caller: outside the call, at a load of the flag inside `wait(false)`, or
blocked in it after loading `false` from store number `k`. -/
inductive WaitPc where
  | idle
  | waitFlag
  | blocked (k : Nat)
  deriving DecidableEq, Repr

/-- The thread running `~ThreadPool`: its `WaitForTasks` (`waitFlag` and `blocked` as for a
caller), then `StopAllThreads` at index `i`, before `request_stop`, `release()` and `join`. -/
inductive DtorPc where
  | idle
  | waitFlag
  | blocked (k : Nat)
  | requestStop (i : Nat)
  | release (i : Nat)
  | join (i : Nat)
  | finished
  deriving DecidableEq, Repr

/-- Where a worker goes after `ExecuteTask`. -/
def Resume.pc : Resume → WorkerPc
  | .ownQueue => .popOwn
  | .afterSteal => .checkUnassigned

/-! ## State -/

/-- The pool's shared state, the threads' places, and the ghost history. Per-worker data is a
function on indices; only the indices below `size` are ever read or written. -/
structure Pool where
  /-- `m_tasks.size()`, equal to `m_threads.size()`. -/
  size : Nat
  nprods : Nat
  nwaiters : Nat
  /-- `m_priority_queue`. -/
  ring : List Nat
  /-- `m_tasks[i].m_tasks`, front first. -/
  deques : Nat → List Nat
  /-- The count of `m_tasks[i].m_signal`. -/
  sems : Nat → Nat
  unassigned : Int
  inFlight : Int
  /-- `m_threads_complete_signal`. -/
  flag : Bool
  /-- The stores to the flag so far; the latest is store number `stores`, the initial value `0`. -/
  stores : Nat
  /-- The `notify_one` calls no blocked caller has taken up, by the number of their store. -/
  notes : List Nat
  /-- `m_threads[i].get_stop_token().stop_requested()`. -/
  stops : Nat → Bool
  workers : Nat → WorkerPc
  /-- The `EnqueueTask` call made by the task worker `w` is running. -/
  nested : Nat → EnqPc
  prods : Nat → EnqPc
  waiters : Nat → WaitPc
  dtor : DtorPc
  next : Nat
  executed : List Nat
  dropped : List Nat
  spurious : Nat

/-- The pool right after its constructor, with every worker waiting at its semaphore. -/
def Pool.init (b : Built) (nprods nwaiters : Nat) : Pool where
  size := b.tasks
  nprods := nprods
  nwaiters := nwaiters
  ring := b.ring
  deques := fun _ => []
  sems := fun _ => 0
  unassigned := 0
  inFlight := 0
  flag := false
  stores := 0
  notes := []
  stops := fun _ => false
  workers := fun _ => .acquire
  nested := fun _ => .idle
  prods := fun _ => .idle
  waiters := fun _ => .idle
  dtor := .idle
  next := 0
  executed := []
  dropped := []
  spurious := 0

/-! ## One step of each thread -/

/-- One step of `EnqueueTask` from place `e`, shared by producers and running tasks: the new
state and the caller's next place (`idle` when the call has returned). -/
def enqStep (s : Pool) : EnqPc → Pool × EnqPc
  | .idle => (s, .idle)
  | .popRing t =>
    match popFront s.ring with
    | none => ({ s with dropped := s.dropped ++ [t] }, .idle)
    | some (i, q) => ({ s with ring := q }, .pushRing t i)
  | .pushRing t i => ({ s with ring := pushBack s.ring i }, .addUnassigned t i)
  | .addUnassigned t i => ({ s with unassigned := s.unassigned + 1 }, .addInFlight t i)
  | .addInFlight t i =>
    ({ s with inFlight := s.inFlight + 1 }, if s.inFlight = 0 then .storeFalse t i else .pushTask t i)
  | .storeFalse t i => ({ s with flag := false, stores := s.stores + 1 }, .pushTask t i)
  | .pushTask t i =>
    ({ s with deques := update s.deques i (pushBack (s.deques i) t) }, .release t i)
  | .release _ i => ({ s with sems := update s.sems i (s.sems i + 1) }, .idle)

/-- A producer's step: a new call gives its task the next number; inside a call, `enqStep`.
Calls start only while the pool is alive. -/
def producerStep (s : Pool) (p : Nat) : Option Pool :=
  if s.prods p = .idle then
    if s.dtor = .idle then
      some { s with prods := update s.prods p (.popRing s.next), next := s.next + 1 }
    else none
  else
    let r := enqStep s (s.prods p)
    some { r.1 with prods := update s.prods p r.2 }

/-- The task worker `w` is running calls `Enqueue`, or takes the next step of that call. -/
def taskStep (s : Pool) (w : Nat) : Option Pool :=
  match s.workers w with
  | .invoke _ _ =>
    if s.nested w = .idle then
      some { s with nested := update s.nested w (.popRing s.next), next := s.next + 1 }
    else
      let r := enqStep s (s.nested w)
      some { r.1 with nested := update s.nested w r.2 }
  | _ => none

/-- One step of worker `w`. -/
def workerStep (s : Pool) (w : Nat) : Option Pool :=
  match s.workers w with
  | .acquire =>
    if 0 < s.sems w then
      some { s with sems := update s.sems w (s.sems w - 1), workers := update s.workers w .popOwn }
    else none
  | .popOwn =>
    match popFront (s.deques w) with
    | some (t, q) =>
      some { s with deques := update s.deques w q, executed := s.executed ++ [t],
                    workers := update s.workers w (.subUnassigned t .ownQueue) }
    | none => some { s with workers := update s.workers w (.steal 1) }
  | .steal j =>
    if j < s.size then
      match popBack (s.deques ((w + j) % s.size)) with
      | some (t, q) =>
        some { s with deques := update s.deques ((w + j) % s.size) q, executed := s.executed ++ [t],
                      workers := update s.workers w (.subUnassigned t .afterSteal) }
      | none => some { s with workers := update s.workers w (.steal (j + 1)) }
    else some { s with workers := update s.workers w .checkUnassigned }
  | .subUnassigned t r =>
    some { s with unassigned := s.unassigned - 1, workers := update s.workers w (.invoke t r) }
  | .invoke t r =>
    if s.nested w = .idle then some { s with workers := update s.workers w (.subInFlight t r) }
    else none
  | .subInFlight _ r =>
    some { s with inFlight := s.inFlight - 1, workers := update s.workers w r.pc }
  | .checkUnassigned =>
    some { s with workers := update s.workers w (if 0 < s.unassigned then .popOwn else .loadInFlight) }
  | .loadInFlight =>
    some { s with workers := update s.workers w (if s.inFlight = 0 then .storeTrue else .checkStop) }
  | .storeTrue =>
    some { s with flag := true, stores := s.stores + 1, notes := s.notes ++ [s.stores + 1],
                  workers := update s.workers w .checkStop }
  | .checkStop =>
    some { s with workers := update s.workers w (if s.stops w then .exited else .acquire) }
  | .exited => none

/-- Take up the first notification made after store `k`, if there is one. -/
def takeNote (k : Nat) : List Nat → Option (List Nat)
  | [] => none
  | m :: ms => if k < m then some ms else (takeNote k ms).map (m :: ·)

/-- A caller blocked after loading store `k` is unblocked: by a `notify_one` it is eligible for,
whose notification it takes up, or spuriously. The notifications and the count of spurious
wake-ups after it. -/
def wakeUp (k : Nat) (notes : List Nat) (spurious : Nat) : List Nat × Nat :=
  match takeNote k notes with
  | some ns => (ns, spurious)
  | none => (notes, spurious + 1)

/-- A `WaitForTasks` caller: the call's load of `m_in_flight_tasks`, then `wait(false)`. -/
def waiterStep (s : Pool) (q : Nat) : Option Pool :=
  match s.waiters q with
  | .idle =>
    if s.dtor = .idle then
      some { s with waiters := update s.waiters q (if 0 < s.inFlight then .waitFlag else .idle) }
    else none
  | .waitFlag =>
    some { s with waiters := update s.waiters q (if s.flag then .idle else .blocked s.stores) }
  | .blocked k =>
    some { s with waiters := update s.waiters q .waitFlag, notes := (wakeUp k s.notes s.spurious).1,
                  spurious := (wakeUp k s.notes s.spurious).2 }

/-- `~ThreadPool`: `WaitForTasks()`, then `StopAllThreads()`. -/
def dtorStep (s : Pool) : Option Pool :=
  match s.dtor with
  | .idle =>
    if (∀ p < s.nprods, s.prods p = .idle) ∧ (∀ q < s.nwaiters, s.waiters q = .idle) then
      some { s with dtor := if 0 < s.inFlight then .waitFlag else .requestStop 0 }
    else none
  | .waitFlag => some { s with dtor := if s.flag then .requestStop 0 else .blocked s.stores }
  | .blocked k =>
    some { s with dtor := .waitFlag, notes := (wakeUp k s.notes s.spurious).1,
                  spurious := (wakeUp k s.notes s.spurious).2 }
  | .requestStop i =>
    if i < s.size then some { s with stops := update s.stops i true, dtor := .release i }
    else some { s with dtor := .finished }
  | .release i => some { s with sems := update s.sems i (s.sems i + 1), dtor := .join i }
  | .join i => if s.workers i = .exited then some { s with dtor := .requestStop (i + 1) } else none
  | .finished => none

/-- The thread that takes a step. -/
inductive Act where
  | producer (p : Nat)
  | worker (w : Nat)
  | task (w : Nat)
  | waiter (q : Nat)
  | dtor
  deriving DecidableEq, Repr

/-- One step of the pool: `none` when the thread does not exist or is blocked. -/
def step (s : Pool) : Act → Option Pool
  | .producer p => if p < s.nprods then producerStep s p else none
  | .worker w => if w < s.size then workerStep s w else none
  | .task w => if w < s.size then taskStep s w else none
  | .waiter q => if q < s.nwaiters then waiterStep s q else none
  | .dtor => dtorStep s

/-- The states of every run from every constructed pool. -/
inductive Reachable : Pool → Prop
  | init (spawns : List Bool) (nprods nwaiters : Nat) :
      Reachable (Pool.init (initializeThreads spawns) nprods nwaiters)
  | step {s s' : Pool} (a : Act) : Reachable s → step s a = some s' → Reachable s'

/-- Run the steps of a list of threads in order. -/
def run (s : Pool) : List Act → Option Pool
  | [] => some s
  | a :: as => (step s a).bind (run · as)

theorem Reachable.run {s s' : Pool} {as : List Act} (hs : Reachable s)
    (h : ThreadPool.run s as = some s') : Reachable s' := by
  induction as generalizing s with
  | nil => cases h; exact hs
  | cons a as ih =>
    obtain ⟨s₁, h₁, h₂⟩ := Option.bind_eq_some.mp h
    exact ih (hs.step a h₁) h₂

/-- A run from a constructed pool that ends where `p` holds. -/
theorem exists_reachable_of_run (spawns : List Bool) (nprods nwaiters : Nat) (as : List Act)
    (p : Pool → Bool)
    (h : (ThreadPool.run (Pool.init (initializeThreads spawns) nprods nwaiters) as).any p = true) :
    ∃ s, Reachable s ∧ p s = true := by
  cases hr : ThreadPool.run (Pool.init (initializeThreads spawns) nprods nwaiters) as with
  | none => simp [hr] at h
  | some s => exact ⟨s, (Reachable.init spawns nprods nwaiters).run hr, by simpa [hr] using h⟩

end SsLogger.ThreadPool
