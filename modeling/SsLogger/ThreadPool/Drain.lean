import SsLogger.ThreadPool.Teardown
import SsLogger.ThreadPool.TaskBag

set_option autoImplicit false

/-! # The workers finish what was submitted

The pool's threads may be scheduled in any order, so nothing makes a worker run. What holds is
that no task is ever stranded among the workers: once no producer is inside `Enqueue` and the
destructor has not started, the workers and the tasks they run can, with no other thread's help,
run everything submitted and go back to sleep (`workers_drain`). The run they take starts no new
`Enqueue` call, and ends with every worker in its `acquire()` at count `0`, every queue empty, both
counters `0`, and every task number given out run by `ExecuteTask` or dropped by `EnqueueTask`'s
early return, exactly once.

The run is built one step at a time. Each step it takes lowers a measure with five parts,
compared in order (`DrainLt`):
1. the steps left in the `Enqueue` calls that running tasks are inside (`EnqPc.stepsLeft`);
2. the tasks in the queues;
3. the steps left before the workers holding a task are done with it (`WorkerPc.heldLeft`);
4. for each queue that holds a task, the steps before its worker pops it (`WorkerPc.toPop`);
5. the steps before each worker is back at its `acquire()`, with its signal count
   (`WorkerPc.toSleep`).

Which step lowers it (`exists_drainStep`) rests on the invariants of every reachable state: a
task's `Enqueue` runs inside `std::invoke` (`NestInv`), a task in a sleeping worker's queue has its
`release()` still to come (`WakeInv`), the counters count what `Ledger` says, and before the
destructor starts no worker has been asked to stop (`StopInv`). -/

namespace SsLogger.ThreadPool

open SsLogger.ThreadSafeQueue Function Finset

/-! ## Before the destructor, no worker stops -/

/-- Before the destructor's `StopAllThreads`, no stop has been requested and no worker has
exited. -/
def StopInv (s : Pool) : Prop :=
  s.dtor = .idle ∨ s.dtor.InWait → ∀ i, s.stops i = false ∧ s.workers i ≠ .exited

theorem StopInv.step {s s' : Pool} {a : Act} (h : StopInv s) (hs : step s a = some s') :
    StopInv s' := by
  intro hd i
  cases a with
  | producer p =>
    obtain ⟨-, ⟨-, rfl⟩ | ⟨-, rfl⟩⟩ := @step_call s _ (.producer p) hs <;>
      simpa [Pool.setCall] using h (by simpa [Pool.setCall] using hd) i
  | task w =>
    obtain ⟨-, ⟨-, rfl⟩ | ⟨-, rfl⟩⟩ := @step_call s _ (.task w) hs <;>
      simpa [Pool.setCall] using h (by simpa [Pool.setCall] using hd) i
  | worker w =>
    have hd₀ : s.dtor = .idle ∨ s.dtor.InWait := (step_worker_frame hs).2.2.2.2.1 ▸ hd
    obtain ⟨-, hm⟩ := step_worker hs
    have hstop := fun j => (h hd₀ j).1
    have hex := (h hd₀ i).2
    clear hs hd
    -- only `checkStop` can lead to `exited`, and it reads a stop flag that is still `false`
    cases hm <;> refine ⟨hstop i, ?_⟩ <;> dsimp only <;> rw [update_apply] <;> split_ifs with e <;>
      (try cases ‹Resume›) <;> simp_all [Resume.pc]
  | waiter q =>
    obtain ⟨c, ns, n, rfl, -⟩ := step_waiter_eq hs
    exact h hd i
  | dtor =>
    -- only the step from `idle` leads to a place before `StopAllThreads`
    simp only [ThreadPool.step, dtorStep] at hs
    (repeat' split at hs) <;> cases hs <;> simp [DtorPc.InWait] at hd ⊢
    all_goals exact h (by simp [DtorPc.InWait, *]) i

theorem Reachable.stopInv {s : Pool} (h : Reachable s) : StopInv s := by
  induction h with
  | init => exact fun _ _ => ⟨rfl, fun h => nomatch h⟩
  | step a _ hs ih => exact ih.step hs

/-! ## The steps of a drain -/

/-- The threads a drain runs: the workers, and the tasks they run. -/
def Act.byWorker : Act → Bool
  | .worker _ | .task _ => true
  | _ => false

/-- What the steps of workers and running tasks leave alone: the producers, the `WaitForTasks`
callers, the destructor and the count of spurious wake-ups. -/
structure CallersFrame (s s' : Pool) : Prop where
  prods : s'.prods = s.prods
  nprods : s'.nprods = s.nprods
  waiters : s'.waiters = s.waiters
  nwaiters : s'.nwaiters = s.nwaiters
  dtor : s'.dtor = s.dtor
  spurious : s'.spurious = s.spurious

theorem CallersFrame.trans {s₁ s₂ s₃ : Pool} (h₁ : CallersFrame s₁ s₂) (h₂ : CallersFrame s₂ s₃) :
    CallersFrame s₁ s₃ :=
  ⟨h₂.prods.trans h₁.prods, h₂.nprods.trans h₁.nprods, h₂.waiters.trans h₁.waiters,
    h₂.nwaiters.trans h₁.nwaiters, h₂.dtor.trans h₁.dtor, h₂.spurious.trans h₁.spurious⟩

theorem step_byWorker_frame {s s' : Pool} {a : Act} (ha : a.byWorker = true)
    (hs : step s a = some s') : CallersFrame s s' := by
  cases a with
  | worker w =>
    obtain ⟨-, hm⟩ := step_worker hs
    cases hm <;> exact ⟨rfl, rfl, rfl, rfl, rfl, rfl⟩
  | task w =>
    obtain ⟨-, ⟨-, rfl⟩ | ⟨-, rfl⟩⟩ := @step_call s _ (.task w) hs <;> constructor <;>
      simp [Pool.setCall]
  | _ => cases ha

/-- Every worker sleeps in its `acquire()`, at count `0`. -/
def Pool.Asleep (s : Pool) : Prop := ∀ i < s.size, s.workers i = .acquire ∧ s.sems i = 0

/-! ## The measure -/

/-- The steps an `EnqueueTask` call has left before it returns. -/
def EnqPc.stepsLeft : EnqPc → ℕ
  | .idle => 0
  | .release _ _ => 1
  | .pushTask _ _ => 2
  | .storeFalse _ _ => 3
  | .addInFlight _ _ => 4
  | .addUnassigned _ _ => 5
  | .pushRing _ _ => 6
  | .popRing _ => 7

/-- Every step of a call brings it closer to returning. -/
theorem stepsLeft_enqStep (s : Pool) {e : EnqPc} (he : e ≠ .idle) :
    (enqStep s e).2.stepsLeft < e.stepsLeft := by
  cases e with
  | idle => exact absurd rfl he
  | popRing t => simp only [enqStep]; split <;> simp [EnqPc.stepsLeft]
  | addInFlight t i => simp only [enqStep]; split <;> simp [EnqPc.stepsLeft]
  | _ => simp [enqStep, EnqPc.stepsLeft]

/-- The steps a worker has left before it is done with the task it holds. -/
def WorkerPc.heldLeft : WorkerPc → ℕ
  | .subUnassigned _ _ => 3
  | .invoke _ _ => 2
  | .subInFlight _ _ => 1
  | _ => 0

/-- A worker that holds no task owes neither counter a decrement. -/
theorem held_eq_zero {pc : WorkerPc} (h : pc.heldLeft = 0) :
    pc.unassignedHeld = 0 ∧ pc.inFlightHeld = 0 := by
  cases pc <;> simp_all [WorkerPc.heldLeft, WorkerPc.unassignedHeld, WorkerPc.inFlightHeld]

/-- While the worker's own queue holds a task: the steps before it pops that queue, with `size`
workers. At `steal j` it probes the others first, and at `checkUnassigned` it sees the task
counted. -/
def WorkerPc.toPop (size : ℕ) : WorkerPc → ℕ
  | .acquire | .checkUnassigned => 1
  | .checkStop => 2
  | .storeTrue => 3
  | .loadInFlight => 4
  | .steal j => size - j + 2
  | _ => 0

/-- Once every queue is empty: the steps before the worker is back at its `acquire()`. -/
def WorkerPc.toSleep (size : ℕ) : WorkerPc → ℕ
  | .checkStop => 1
  | .storeTrue => 2
  | .loadInFlight => 3
  | .checkUnassigned => 4
  | .steal j => size - j + 5
  | .popOwn => size + 6
  | _ => 0

/-- The steps left in the running tasks' `Enqueue` calls. -/
def Pool.callsLeft (s : Pool) : ℕ := ∑ w ∈ range s.size, (s.nested w).stepsLeft

/-- The steps left before the workers are done with the tasks they hold. -/
def Pool.heldLeft (s : Pool) : ℕ := ∑ w ∈ range s.size, (s.workers w).heldLeft

/-- The steps before the owner of each non-empty queue pops it. -/
def Pool.toPop (s : Pool) : ℕ :=
  ∑ i ∈ range s.size, if s.deques i = [] then 0 else (s.workers i).toPop s.size

/-- The steps before every worker is asleep: each `acquire()` the signal counts allow starts a
round of at most `size + 7` steps. -/
def Pool.toSleep (s : Pool) : ℕ :=
  ∑ i ∈ range s.size, ((s.workers i).toSleep s.size + (s.size + 7) * s.sems i)

/-- The measure of a drain, highest part first. -/
def Pool.drainMeasure (s : Pool) : ℕ × ℕ × ℕ × ℕ × ℕ :=
  (s.callsLeft, s.queued, s.heldLeft, s.toPop, s.toSleep)

/-- `s'` is lower than `s` in the measure, compared part by part. -/
def DrainLt (s' s : Pool) : Prop :=
  Prod.Lex (· < ·) (Prod.Lex (· < ·) (Prod.Lex (· < ·) (Prod.Lex (· < ·) (· < ·))))
    s'.drainMeasure s.drainMeasure

theorem drainLt_wf : WellFounded DrainLt :=
  InvImage.wf _ <| wellFounded_lt.prod_lex <| wellFounded_lt.prod_lex <|
    wellFounded_lt.prod_lex <| wellFounded_lt.prod_lex wellFounded_lt

section Lex

variable {s s' : Pool}

theorem DrainLt.of_calls (h : s'.callsLeft < s.callsLeft) : DrainLt s' s := .left _ _ h

theorem DrainLt.of_queued (hc : s'.callsLeft = s.callsLeft) (h : s'.queued < s.queued) :
    DrainLt s' s := by
  unfold DrainLt Pool.drainMeasure
  rw [hc]
  exact .right _ (.left _ _ h)

theorem DrainLt.of_held (hc : s'.callsLeft = s.callsLeft) (hq : s'.queued = s.queued)
    (h : s'.heldLeft < s.heldLeft) : DrainLt s' s := by
  unfold DrainLt Pool.drainMeasure
  rw [hc, hq]
  exact .right _ (.right _ (.left _ _ h))

theorem DrainLt.of_toPop (hc : s'.callsLeft = s.callsLeft) (hq : s'.queued = s.queued)
    (hh : s'.heldLeft = s.heldLeft) (h : s'.toPop < s.toPop) : DrainLt s' s := by
  unfold DrainLt Pool.drainMeasure
  rw [hc, hq, hh]
  exact .right _ (.right _ (.right _ (.left _ _ h)))

theorem DrainLt.of_toSleep (hc : s'.callsLeft = s.callsLeft) (hq : s'.queued = s.queued)
    (hh : s'.heldLeft = s.heldLeft) (hp : s'.toPop = s.toPop) (h : s'.toSleep < s.toSleep) :
    DrainLt s' s := by
  unfold DrainLt Pool.drainMeasure
  rw [hc, hq, hh, hp]
  exact .right _ (.right _ (.right _ (.right _ h)))

end Lex

/-! ## Sums that change at one index -/

/-- A sum over `range n` drops when its term at `w < n` drops and the others stay. -/
theorem sum_range_lt_of_ne {n w : ℕ} (hw : w < n) {f g : ℕ → ℕ} (he : ∀ i, i ≠ w → g i = f i)
    (hlt : g w < f w) : ∑ i ∈ range n, g i < ∑ i ∈ range n, f i := by
  refine sum_lt_sum (fun i _ => ?_) ⟨w, mem_range.2 hw, hlt⟩
  rcases eq_or_ne i w with rfl | hi
  · exact hlt.le
  · exact (he i hi).le

theorem sum_range_eq_of_ne {n w : ℕ} {f g : ℕ → ℕ} (he : ∀ i, i ≠ w → g i = f i)
    (heq : g w = f w) : ∑ i ∈ range n, g i = ∑ i ∈ range n, f i :=
  sum_congr rfl fun i _ => by
    rcases eq_or_ne i w with rfl | hi
    · exact heq
    · exact he i hi

/-- A pop from queue `i` takes one task out of the queues. -/
theorem queued_lt_of_pop {s s' : Pool} {i : ℕ} (hi : i < s.size) (hsize : s'.size = s.size)
    {q : List ℕ} (hlen : (s.deques i).length = q.length + 1)
    (hd : s'.deques = update s.deques i q) : s'.queued < s.queued := by
  simp only [Pool.queued, countIn, hsize, hd]
  exact sum_range_lt_of_ne hi (fun j hj => by rw [update_noteq hj])
    (by rw [update_same, hlen]; omega)

/-! ## A worker's move, as the measure sees it -/

/-- Worker `w` moves to `pc` with signal count `k`, and no queue and no call changes. -/
structure MovesTo (s s' : Pool) (w : ℕ) (pc : WorkerPc) (k : ℕ) : Prop where
  size : s'.size = s.size
  deques : s'.deques = s.deques
  nested : s'.nested = s.nested
  workers : s'.workers = update s.workers w pc
  sems : s'.sems = update s.sems w k

namespace MovesTo

variable {s s' : Pool} {w : ℕ} {pc : WorkerPc} {k : ℕ}

theorem callsLeft (h : MovesTo s s' w pc k) : s'.callsLeft = s.callsLeft := by
  simp only [Pool.callsLeft, h.size, h.nested]

theorem queued (h : MovesTo s s' w pc k) : s'.queued = s.queued := by
  simp only [Pool.queued, h.size, h.deques]

theorem heldLeft_eq (h : MovesTo s s' w pc k) (hh : pc.heldLeft = (s.workers w).heldLeft) :
    s'.heldLeft = s.heldLeft := by
  simp only [Pool.heldLeft, h.size, h.workers]
  exact sum_range_eq_of_ne (fun i hi => by rw [update_noteq hi]) (by rw [update_same, hh])

/-- A worker that holds a task moves closer to being done with it. -/
theorem drainLt_held (h : MovesTo s s' w pc k) (hw : w < s.size)
    (hh : pc.heldLeft < (s.workers w).heldLeft) : DrainLt s' s := by
  refine .of_held h.callsLeft h.queued ?_
  simp only [Pool.heldLeft, h.size, h.workers]
  exact sum_range_lt_of_ne hw (fun i hi => by rw [update_noteq hi]) (by rwa [update_same])

/-- The owner of a non-empty queue moves closer to popping it. -/
theorem drainLt_toPop (h : MovesTo s s' w pc k) (hw : w < s.size)
    (hh : pc.heldLeft = (s.workers w).heldLeft) (hq : s.deques w ≠ [])
    (hp : pc.toPop s.size < (s.workers w).toPop s.size) : DrainLt s' s := by
  refine .of_toPop h.callsLeft h.queued (h.heldLeft_eq hh) ?_
  simp only [Pool.toPop, h.size, h.workers, h.deques]
  exact sum_range_lt_of_ne hw (fun i hi => by rw [update_noteq hi])
    (by rwa [update_same, if_neg hq, if_neg hq])

/-- With its queue empty, a worker moves closer to sleeping. -/
theorem drainLt_toSleep (h : MovesTo s s' w pc k) (hw : w < s.size)
    (hh : pc.heldLeft = (s.workers w).heldLeft) (hq : s.deques w = [])
    (hs : pc.toSleep s.size + (s.size + 7) * k <
      (s.workers w).toSleep s.size + (s.size + 7) * s.sems w) : DrainLt s' s := by
  refine .of_toSleep h.callsLeft h.queued (h.heldLeft_eq hh) ?_ ?_
  · simp only [Pool.toPop, h.size, h.workers, h.deques]
    exact sum_range_eq_of_ne (fun i hi => by rw [update_noteq hi]) (by simp [hq])
  · simp only [Pool.toSleep, h.size, h.workers, h.sems]
    exact sum_range_lt_of_ne hw (fun i hi => by rw [update_noteq hi, update_noteq hi])
      (by rwa [update_same, update_same])

end MovesTo

/-- A move of worker `w` alone, which keeps its signal count. -/
theorem movesTo_of {s : Pool} {w : ℕ} (pc : WorkerPc) {s' : Pool} (hsize : s'.size = s.size)
    (hd : s'.deques = s.deques) (hn : s'.nested = s.nested)
    (hw : s'.workers = update s.workers w pc) (hs : s'.sems = s.sems) :
    MovesTo s s' w pc (s.sems w) :=
  ⟨hsize, hd, hn, hw, by rw [hs, update_eq_self]⟩

/-! ## One step of the drain -/

section Step

variable {s : Pool}

/-- A worker's move is a step of the drain when it lowers the measure. -/
theorem drainStep_of_move {w : ℕ} {s' : Pool} (hw : w < s.size) (hm : WorkerMove s w s')
    (hlt : DrainLt s' s) : ∃ s', step s (.worker w) = some s' ∧ s'.next = s.next ∧ DrainLt s' s :=
  ⟨s', step_of_workerMove hw hm, (step_worker_frame (step_of_workerMove hw hm)).2.2.2.2.2.1, hlt⟩

/-- A running task's `Enqueue` call takes its next step. -/
theorem drainStep_call {w : ℕ} (hn : NestInv s) (hw : w < s.size) (hc : s.nested w ≠ .idle) :
    ∃ s', step s (.task w) = some s' ∧ s'.next = s.next ∧ DrainLt s' s := by
  obtain ⟨t, r, hi⟩ := hn w hc
  have frame := enqStep_frame s (s.nested w)
  refine ⟨{ (enqStep s (s.nested w)).1 with
      nested := update s.nested w (enqStep s (s.nested w)).2 },
    by simp [step, taskStep, hw, hi, hc], frame.2.2.2.2.2.2.2.2.2.2.1, .of_calls ?_⟩
  simp only [Pool.callsLeft, frame]
  exact sum_range_lt_of_ne hw (fun i hi => by rw [update_noteq hi])
    (by rw [update_same]; exact stepsLeft_enqStep s hc)

/-- A worker that holds a task takes its next step with it, once the task's own `Enqueue` has
returned. -/
theorem drainStep_held {w : ℕ} (hw : w < s.size) (hc : s.nested w = .idle)
    (hh : (s.workers w).heldLeft ≠ 0) :
    ∃ s', step s (.worker w) = some s' ∧ s'.next = s.next ∧ DrainLt s' s := by
  cases hpc : s.workers w with
  | subUnassigned t r =>
    exact drainStep_of_move hw (WorkerMove.subUnassigned t r hpc)
      (MovesTo.drainLt_held (movesTo_of _ rfl rfl rfl rfl rfl) hw
        (by simp [hpc, WorkerPc.heldLeft]))
  | invoke t r =>
    exact drainStep_of_move hw (WorkerMove.invoke t r hpc hc)
      (MovesTo.drainLt_held (movesTo_of _ rfl rfl rfl rfl rfl) hw
        (by simp [hpc, WorkerPc.heldLeft]))
  | subInFlight t r =>
    exact drainStep_of_move hw (WorkerMove.subInFlight t r hpc)
      (MovesTo.drainLt_held (movesTo_of _ rfl rfl rfl rfl rfl) hw
        (by cases r <;> simp [hpc, WorkerPc.heldLeft, Resume.pc]))
  | _ => simp [hpc, WorkerPc.heldLeft] at hh

/-- No `Enqueue` call is in progress, and no worker holds a task. -/
structure Pool.Quiet (s : Pool) : Prop where
  prods : ∀ p < s.nprods, s.prods p = .idle
  nested : ∀ w < s.size, s.nested w = .idle
  held : ∀ w < s.size, (s.workers w).heldLeft = 0

/-- With no call in progress, no `release()` is pending. -/
theorem Pool.Quiet.not_pendingRelease (h : s.Quiet) (t i : ℕ) : ¬ s.PendingRelease t i := by
  rintro ⟨c, hc, hpc⟩
  cases c with
  | producer p => rw [show s.callPc (.producer p) = .idle from h.prods p hc] at hpc; cases hpc
  | task w => rw [show s.callPc (.task w) = .idle from h.nested w hc] at hpc; cases hpc

/-- With no call in progress, a count over the calls that is `0` at `idle` is `0`. -/
theorem Pool.Quiet.callsAt_eq_zero (h : s.Quiet) (P : EnqPc → ℕ) (h0 : P .idle = 0) :
    s.callsAt P = 0 := by
  simp only [Pool.callsAt, countIn_eq_zero fun p hp => (h.prods p hp).symm ▸ h0,
    countIn_eq_zero fun w hw => (h.nested w hw).symm ▸ h0]

/-- With no call in progress and no task held, both counters count the queued tasks only. -/
theorem Pool.Quiet.counters (h : s.Quiet) (hl : Ledger s) :
    s.unassigned = s.queued ∧ s.inFlight = s.queued := by
  have hworkers (P : WorkerPc → ℕ) (h0 : ∀ pc : WorkerPc, pc.heldLeft = 0 → P pc = 0) :
      s.workersAt P = 0 :=
    countIn_eq_zero fun w hw => h0 _ (h.held w hw)
  obtain ⟨hu, hf⟩ := hl
  rw [h.callsAt_eq_zero _ rfl, hworkers _ fun _ hp => (held_eq_zero hp).1] at hu
  rw [h.callsAt_eq_zero _ rfl, hworkers _ fun _ hp => (held_eq_zero hp).2] at hf
  simp only [Nat.cast_zero, add_zero] at hu hf
  exact ⟨hu, hf⟩

/-- While a queue holds a task, its owner takes a step that pops a task, or brings it closer to
popping its own queue. -/
theorem drainStep_queued (hr : Reachable s) (hd : s.dtor = .idle ∨ s.dtor.InWait)
    (hq : s.Quiet) {i : ℕ} (hi : i < s.size) (hne : s.deques i ≠ []) :
    ∃ s', step s (.worker i) = some s' ∧ s'.next = s.next ∧ DrainLt s' s := by
  have hpos : 0 < s.queued := lt_of_lt_of_le (List.length_pos.2 hne) (le_countIn hi _ _)
  have hu := (hq.counters hr.ledger).1
  have ⟨hstop, hex⟩ := hr.stopInv hd i
  have hheld := hq.held i hi
  -- every move below changes no task held, and the owner's steps to its pop drop
  have toPop {pc : WorkerPc} {k : ℕ} {s' : Pool} (hm : WorkerMove s i s')
      (hmv : MovesTo s s' i pc k) (hh : pc.heldLeft = 0)
      (hlt : pc.toPop s.size < (s.workers i).toPop s.size) :=
    drainStep_of_move hi hm (hmv.drainLt_toPop hi (by rw [hh, hheld]) hne hlt)
  cases hpc : s.workers i with
  | acquire =>
    -- the signal was given: no `release()` is pending, and the worker is not draining
    obtain ⟨t, ht⟩ := List.exists_mem_of_ne_nil _ hne
    have h0 : 0 < s.sems i := by
      rcases hr.wakeInv i hi t ht with h | h | h
      · exact absurd h (hq.not_pendingRelease t i)
      · exact h
      · rw [hpc] at h; cases h
    exact toPop (WorkerMove.acquire hpc h0) ⟨rfl, rfl, rfl, rfl, rfl⟩ rfl
      (by simp [hpc, WorkerPc.toPop])
  | popOwn =>
    obtain ⟨t, q, hdq⟩ := List.exists_cons_of_ne_nil hne
    exact drainStep_of_move hi (WorkerMove.popOwn t q hpc hdq)
      (.of_queued (by simp [Pool.callsLeft]) (queued_lt_of_pop hi rfl (by simp [hdq]) rfl))
  | steal j =>
    by_cases hj : j < s.size
    · cases hb : popBack (s.deques ((i + j) % s.size)) with
      | some tq =>
        obtain ⟨t, q⟩ := tq
        have hdq := popBack_eq_some.1 hb
        exact drainStep_of_move hi (WorkerMove.steal j t q hpc hj hdq)
          (.of_queued (by simp [Pool.callsLeft])
            (queued_lt_of_pop (Nat.mod_lt _ (by omega)) rfl (by simp [hdq]) rfl))
      | none =>
        exact toPop (WorkerMove.stealEmpty j hpc hj (popBack_eq_none.1 hb))
          (movesTo_of _ rfl rfl rfl rfl rfl) rfl (by simp [hpc, WorkerPc.toPop]; omega)
    · exact toPop (WorkerMove.stealDone j hpc (by omega)) (movesTo_of _ rfl rfl rfl rfl rfl) rfl
        (by simp [hpc, WorkerPc.toPop])
  | checkUnassigned =>
    -- the queued task is counted, so the worker goes back to its own queue
    have h0 : 0 < s.unassigned := by rw [hu]; exact_mod_cast hpos
    exact toPop (WorkerMove.checkUnassigned hpc) (movesTo_of _ rfl rfl rfl rfl rfl)
      (by simp [h0, WorkerPc.heldLeft]) (by simp [hpc, h0, WorkerPc.toPop])
  | loadInFlight =>
    exact toPop (WorkerMove.loadInFlight hpc) (movesTo_of _ rfl rfl rfl rfl rfl)
      (by split <;> rfl) (by rw [hpc]; split <;> simp [WorkerPc.toPop])
  | storeTrue =>
    exact toPop (WorkerMove.storeTrue hpc) (movesTo_of _ rfl rfl rfl rfl rfl) rfl
      (by simp [hpc, WorkerPc.toPop])
  | checkStop =>
    exact toPop (WorkerMove.checkStop hpc) (movesTo_of _ rfl rfl rfl rfl rfl)
      (by simp [hstop, WorkerPc.heldLeft]) (by simp [hpc, hstop, WorkerPc.toPop])
  | exited => exact absurd hpc hex
  | _ => simp [hpc, WorkerPc.heldLeft] at hheld

/-- With every queue empty, a worker that is awake takes a step closer to sleeping. -/
theorem drainStep_idle (hr : Reachable s) (hd : s.dtor = .idle ∨ s.dtor.InWait) (hq : s.Quiet)
    (hempty : ∀ i < s.size, s.deques i = []) {i : ℕ} (hi : i < s.size)
    (hawake : ¬ (s.workers i = .acquire ∧ s.sems i = 0)) :
    ∃ s', step s (.worker i) = some s' ∧ s'.next = s.next ∧ DrainLt s' s := by
  have hzero : s.queued = 0 := countIn_eq_zero fun j hj => by simp [hempty j hj]
  have hu := (hq.counters hr.ledger).1
  have ⟨hstop, hex⟩ := hr.stopInv hd i
  have hheld := hq.held i hi
  -- every move below changes no task held, and the worker's steps to sleep drop
  have toSleep {pc : WorkerPc} {k : ℕ} {s' : Pool} (hm : WorkerMove s i s')
      (hmv : MovesTo s s' i pc k) (hh : pc.heldLeft = 0)
      (hlt : pc.toSleep s.size + (s.size + 7) * k <
        (s.workers i).toSleep s.size + (s.size + 7) * s.sems i) :=
    drainStep_of_move hi hm (hmv.drainLt_toSleep hi (by rw [hh, hheld]) (hempty i hi) hlt)
  cases hpc : s.workers i with
  | acquire =>
    have h0 : 0 < s.sems i := Nat.pos_of_ne_zero fun h => hawake ⟨hpc, h⟩
    have hk : (s.size + 7) * (s.sems i - 1) + (s.size + 7) = (s.size + 7) * s.sems i := by
      rw [← Nat.mul_succ, Nat.succ_eq_add_one, Nat.sub_add_cancel h0]
    exact toSleep (WorkerMove.acquire hpc h0) ⟨rfl, rfl, rfl, rfl, rfl⟩ rfl
      (by simp only [hpc, WorkerPc.toSleep]; omega)
  | popOwn =>
    exact toSleep (WorkerMove.ownEmpty hpc (hempty i hi)) (movesTo_of _ rfl rfl rfl rfl rfl) rfl
      (by simp only [hpc, WorkerPc.toSleep]; omega)
  | steal j =>
    by_cases hj : j < s.size
    · exact toSleep (WorkerMove.stealEmpty j hpc hj (hempty _ (Nat.mod_lt _ (by omega))))
        (movesTo_of _ rfl rfl rfl rfl rfl) rfl (by simp only [hpc, WorkerPc.toSleep]; omega)
    · exact toSleep (WorkerMove.stealDone j hpc (by omega)) (movesTo_of _ rfl rfl rfl rfl rfl) rfl
        (by simp only [hpc, WorkerPc.toSleep]; omega)
  | checkUnassigned =>
    -- nothing is counted, so the worker goes on to `SignalCompletion`
    have h0 : ¬ 0 < s.unassigned := by rw [hu, hzero]; decide
    exact toSleep (WorkerMove.checkUnassigned hpc) (movesTo_of _ rfl rfl rfl rfl rfl)
      (by simp [h0, WorkerPc.heldLeft]) (by simp only [hpc, h0, if_false, WorkerPc.toSleep]; omega)
  | loadInFlight =>
    exact toSleep (WorkerMove.loadInFlight hpc) (movesTo_of _ rfl rfl rfl rfl rfl)
      (by split <;> rfl) (by rw [hpc]; split <;> simp only [WorkerPc.toSleep] <;> omega)
  | storeTrue =>
    exact toSleep (WorkerMove.storeTrue hpc) (movesTo_of _ rfl rfl rfl rfl rfl) rfl
      (by simp only [hpc, WorkerPc.toSleep]; omega)
  | checkStop =>
    exact toSleep (WorkerMove.checkStop hpc) (movesTo_of _ rfl rfl rfl rfl rfl)
      (by simp [hstop, WorkerPc.heldLeft]) (by simp [hpc, hstop, WorkerPc.toSleep])
  | exited => exact absurd hpc hex
  | _ => simp [hpc, WorkerPc.heldLeft] at hheld

/-- While producers and the destructor stay out, some worker takes a step that lowers the measure,
until every worker sleeps. -/
theorem exists_drainStep (hr : Reachable s) (hp : ∀ p < s.nprods, s.prods p = .idle)
    (hd : s.dtor = .idle ∨ s.dtor.InWait) (ha : ¬ s.Asleep) :
    ∃ a s', a.byWorker = true ∧ step s a = some s' ∧ s'.next = s.next ∧ DrainLt s' s := by
  by_cases hc : ∃ w < s.size, s.nested w ≠ .idle
  · obtain ⟨w, hw, hne⟩ := hc
    obtain ⟨s', h⟩ := drainStep_call hr.nestInv hw hne
    exact ⟨.task w, s', rfl, h⟩
  push_neg at hc
  by_cases hh : ∃ w < s.size, (s.workers w).heldLeft ≠ 0
  · obtain ⟨w, hw, hne⟩ := hh
    obtain ⟨s', h⟩ := drainStep_held hw (hc w hw) hne
    exact ⟨.worker w, s', rfl, h⟩
  push_neg at hh
  by_cases hq : ∃ i < s.size, s.deques i ≠ []
  · obtain ⟨i, hi, hne⟩ := hq
    obtain ⟨s', h⟩ := drainStep_queued hr hd ⟨hp, hc, hh⟩ hi hne
    exact ⟨.worker i, s', rfl, h⟩
  push_neg at hq
  obtain ⟨i, hi, hawake⟩ : ∃ i < s.size, ¬ (s.workers i = .acquire ∧ s.sems i = 0) := by
    simpa [Pool.Asleep] using ha
  obtain ⟨s', h⟩ := drainStep_idle hr hd ⟨hp, hc, hh⟩ hq hi hawake
  exact ⟨.worker i, s', rfl, h⟩

end Step

/-! ## The whole drain -/

/-- Worker steps alone take a reachable pool whose producers are idle, and whose destructor has not
reached `StopAllThreads`, to one where every worker sleeps. -/
theorem exists_drain (s : Pool) (hr : Reachable s) (hp : ∀ p < s.nprods, s.prods p = .idle)
    (hd : s.dtor = .idle ∨ s.dtor.InWait) :
    ∃ as s', run s as = some s' ∧ (∀ a ∈ as, a.byWorker = true) ∧ s'.next = s.next ∧
      CallersFrame s s' ∧ Reachable s' ∧ s'.Asleep := by
  induction s using drainLt_wf.induction with
  | h s ih =>
    by_cases ha : s.Asleep
    · exact ⟨[], s, rfl, by simp, rfl, ⟨rfl, rfl, rfl, rfl, rfl, rfl⟩, hr, ha⟩
    obtain ⟨a, s₁, hba, hs, hn, hlt⟩ := exists_drainStep hr hp hd ha
    have hf := step_byWorker_frame hba hs
    obtain ⟨as, s', hrun, hall, hn', hf', rest⟩ :=
      ih s₁ hlt (hr.step a hs) (by rw [hf.prods, hf.nprods]; exact hp) (by rw [hf.dtor]; exact hd)
    exact ⟨a :: as, s', by simp [run, hs, hrun], by simpa [hba] using hall, hn'.trans hn,
      hf.trans hf', rest⟩

/-- A reachable pool where every worker sleeps and no producer is inside `EnqueueTask`: the queues
are empty, both counters are `0`, and every task given out has been run or dropped, once. -/
theorem asleep_drained {s : Pool} (hr : Reachable s) (hp : ∀ p < s.nprods, s.prods p = .idle)
    (ha : s.Asleep) :
    (∀ i < s.size, s.deques i = []) ∧ s.unassigned = 0 ∧ s.inFlight = 0 ∧
      (s.executed ++ s.dropped).Perm (List.range s.next) := by
  have hq : s.Quiet := by
    refine ⟨hp, fun w hw => ?_, fun w hw => by rw [(ha w hw).1]; rfl⟩
    by_contra hne
    obtain ⟨t, r, hi⟩ := hr.nestInv w hne
    rw [(ha w hw).1] at hi
    cases hi
  have hdq (i : ℕ) (hi : i < s.size) : s.deques i = [] :=
    List.eq_nil_iff_forall_not_mem.2 fun t ht =>
      hq.not_pendingRelease t i (sleeping_queue_pending hr hi (ha i hi).1 (ha i hi).2 t ht)
  have hzero : s.queued = 0 := countIn_eq_zero fun i hi => by simp [hdq i hi]
  obtain ⟨hu, hf⟩ := hq.counters hr.ledger
  -- nothing is pending, so the run and dropped tasks are all the numbers given out
  have hpend : s.bag.pending = 0 := Multiset.ext.2 fun t => by
    rw [count_pending, hq.callsAt_eq_zero _ (holds_of_none (e := .idle) rfl t),
      countIn_eq_zero fun i hi => by rw [hdq i hi]; rfl]
    rfl
  have hc := hr.bagConserved
  rw [TaskBag.Conserved, hpend, zero_add, bag_executed, bag_dropped, bag_next,
    Multiset.coe_add, ← Multiset.coe_range, Multiset.coe_eq_coe] at hc
  exact ⟨hdq, by rw [hu, hzero]; rfl, by rw [hf, hzero]; rfl, hc⟩

/-- From every reachable state where no producer is inside `EnqueueTask` and the destructor has
not started, the workers alone, with no other thread taking a step, run every queued task and
go back to sleep: at the end every worker waits in `acquire()` on a zero count, every queue is
empty, both counters are `0`, and each task given out so far has been run or dropped once. -/
theorem workers_drain {s : Pool} (h : Reachable s) (hp : ∀ p < s.nprods, s.prods p = .idle)
    (hd : s.dtor = .idle) :
    ∃ as s', run s as = some s' ∧ (∀ a ∈ as, a.byWorker = true) ∧ s'.next = s.next ∧
      (∀ i < s'.size, s'.workers i = .acquire ∧ s'.sems i = 0 ∧ s'.deques i = []) ∧
      s'.unassigned = 0 ∧ s'.inFlight = 0 ∧
      (s'.executed ++ s'.dropped).Perm (List.range s.next) := by
  obtain ⟨as, s', hrun, hall, hn, hfr, hr', ha⟩ := exists_drain s h hp (.inl hd)
  obtain ⟨hdq, hu, hf, hperm⟩ := asleep_drained hr' (by rw [hfr.prods, hfr.nprods]; exact hp) ha
  exact ⟨as, s', hrun, hall, hn, fun i hi => ⟨(ha i hi).1, (ha i hi).2, hdq i hi⟩, hu, hf,
    hn ▸ hperm⟩

/-- The producer has queued task `0` for the sleeping worker and returned: the worker runs it and
the pool drains. -/
theorem workers_drain_queued_task :
    ∃ s, Reachable s ∧ s.deques 0 = [0] ∧ (∀ p < s.nprods, s.prods p = .idle) ∧ s.dtor = .idle ∧
      ∃ as s', run s as = some s' ∧ (∀ a ∈ as, a.byWorker = true) ∧ s'.next = s.next ∧
        (∀ i < s'.size, s'.workers i = .acquire ∧ s'.sems i = 0 ∧ s'.deques i = []) ∧
        s'.unassigned = 0 ∧ s'.inFlight = 0 ∧
        (s'.executed ++ s'.dropped).Perm (List.range s.next) := by
  obtain ⟨s, hs, h⟩ := exists_reachable_of_run [true] 1 0 (List.replicate 8 (.producer 0))
    (fun s => s.deques 0 == [0] && s.nprods == 1 && s.prods 0 = .idle && s.dtor = .idle)
    (by decide)
  simp only [Bool.and_eq_true, beq_iff_eq, decide_eq_true_eq] at h
  obtain ⟨⟨⟨hq, hn⟩, hp⟩, hd⟩ := h
  have hp' : ∀ p < s.nprods, s.prods p = .idle := fun p hp0 => by
    obtain rfl : p = 0 := by omega
    exact hp
  exact ⟨s, hs, hq, hp', hd, workers_drain hs hp' hd⟩

end SsLogger.ThreadPool
