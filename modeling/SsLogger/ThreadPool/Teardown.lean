import SsLogger.ThreadPool.Completion

set_option autoImplicit false

/-! # `~ThreadPool`

The destructor runs `WaitForTasks`, then `StopAllThreads`: for each worker in index order,
`request_stop`, `release()` of its signal, and `join`. A `join` returns only once the worker has
left `ThreadLoop`, and a worker that has left never comes back, so when the last `join` has
returned every worker has exited (`DtorInv`, `dtor_finished_all_exited`).

What the workers leave behind is another matter. A worker leaves `ThreadLoop` at the first
`stop_requested()` it reads, whatever its queue holds, so the destructor drains the pool only if
its `WaitForTasks` returned after the last task. A stale `store(true)` lets it return early
(`waitForTasks_returns_early`), and the pool is then torn down with a task still queued and both
counters at `1` (`teardown_strands_task`). -/

namespace SsLogger.ThreadPool

open Function

/-! ## Joined workers -/

/-- How many workers the destructor has joined. -/
def DtorPc.joined (size : ℕ) : DtorPc → ℕ
  | .requestStop i | .release i | .join i => i
  | .finished => size
  | _ => 0

/-- The indices `StopAllThreads` is at stay within `m_threads`. -/
def DtorPc.Bounded (size : ℕ) : DtorPc → Prop
  | .requestStop i => i ≤ size
  | .release i | .join i => i < size
  | _ => True

/-- The destructor's index is in range, and every worker it has joined has exited. -/
structure DtorInv (s : Pool) : Prop where
  bounded : s.dtor.Bounded s.size
  joined : ∀ i < s.dtor.joined s.size, s.workers i = .exited

theorem dtorInv_init (b : Built) (nprods nwaiters : ℕ) : DtorInv (Pool.init b nprods nwaiters) :=
  ⟨trivial, fun _ h => absurd h (Nat.not_lt_zero _)⟩

/-- A step of any other thread keeps `DtorInv` if it moves no exited worker. -/
theorem DtorInv.of_workers {s s' : Pool} (h : DtorInv s) (hsize : s'.size = s.size)
    (hd : s'.dtor = s.dtor) (hw : ∀ i, s.workers i = .exited → s'.workers i = .exited) :
    DtorInv s' :=
  ⟨by rw [hsize, hd]; exact h.bounded,
    fun i hi => hw i (h.joined i (by rwa [hsize, hd] at hi))⟩

/-- A worker that has exited takes no step. -/
theorem step_worker_exited {s s' : Pool} {w : ℕ} (hs : step s (.worker w) = some s') (i : ℕ)
    (hi : s.workers i = .exited) : s'.workers i = .exited := by
  rcases eq_or_ne i w with rfl | hne
  · simp [step, workerStep, hi] at hs
  · rw [(step_worker_wake hs).2.2.1 i hne, hi]

theorem DtorInv.dtor {s s' : Pool} (h : DtorInv s) (hs : step s .dtor = some s') : DtorInv s' := by
  obtain ⟨hb, hj⟩ := h
  simp only [step, dtorStep] at hs
  cases hd : s.dtor with
  | idle | waitFlag | blocked _ =>
    simp only [hd] at hs
    (try split_ifs at hs) <;> cases hs <;> exact ⟨by simp [DtorPc.Bounded], by simp [DtorPc.joined]⟩
  | requestStop i =>
    simp only [hd, DtorPc.Bounded, DtorPc.joined] at hs hb hj
    split_ifs at hs with hi <;> cases hs
    · exact ⟨hi, hj⟩
    · -- the last `join` has returned: `i` is `m_threads.size()`
      obtain rfl : i = s.size := by omega
      exact ⟨trivial, hj⟩
  | release i =>
    simp only [hd, DtorPc.Bounded, DtorPc.joined] at hs hb hj
    cases hs
    exact ⟨hb, hj⟩
  | join i =>
    simp only [hd, DtorPc.Bounded, DtorPc.joined] at hs hb hj
    split_ifs at hs with hw
    cases hs
    refine ⟨show i + 1 ≤ s.size by omega, fun j hji => ?_⟩
    rcases Nat.lt_succ_iff_lt_or_eq.1 hji with hji | rfl
    · exact hj j hji
    · exact hw
  | finished => simp [hd] at hs

theorem DtorInv.step {s s' : Pool} {a : Act} (h : DtorInv s) (hs : step s a = some s') :
    DtorInv s' := by
  obtain ⟨hsize, -⟩ := step_shape hs
  cases a with
  | producer p =>
    obtain ⟨-, ⟨-, rfl⟩ | ⟨-, rfl⟩⟩ := @step_call s _ (.producer p) hs <;>
      exact h.of_workers (by simp) (by simp) (by simp)
  | task w =>
    obtain ⟨-, ⟨-, rfl⟩ | ⟨-, rfl⟩⟩ := @step_call s _ (.task w) hs <;>
      exact h.of_workers (by simp) (by simp) (by simp)
  | worker w =>
    exact h.of_workers hsize (step_worker_frame hs).2.2.2.2.1 (step_worker_exited hs)
  | waiter q =>
    obtain ⟨c, ns, n, rfl, -⟩ := step_waiter_eq hs
    exact h.of_workers rfl rfl fun _ => id
  | dtor => exact h.dtor hs

theorem Reachable.dtorInv {s : Pool} (h : Reachable s) : DtorInv s := by
  induction h with
  | init spawns nprods nwaiters => exact dtorInv_init _ nprods nwaiters
  | step a _ hs ih => exact ih.step hs

/-- When the destructor's last `join` has returned, every worker has left `ThreadLoop`. -/
theorem dtor_finished_all_exited {s : Pool} (h : Reachable s) (hd : s.dtor = .finished) :
    ∀ i < s.size, s.workers i = .exited := by
  simpa [hd, DtorPc.joined] using h.dtorInv.joined

/-- A pool of one worker destroyed before any task: `request_stop` and `release()` wake the worker,
which finds nothing to do, sees its stop and exits, and the `join` returns. -/
theorem dtor_finished_one_worker :
    ∃ s, Reachable s ∧ s.dtor = .finished ∧ 0 < s.size ∧ ∀ i < s.size, s.workers i = .exited := by
  obtain ⟨s, hs, h⟩ := exists_reachable_of_run [true] 0 0
    (List.replicate 3 .dtor ++ List.replicate 7 (.worker 0) ++ List.replicate 2 .dtor)
    (fun s => s.dtor = .finished && 0 < s.size) (by decide)
  simp only [Bool.and_eq_true, decide_eq_true_eq] at h
  exact ⟨s, hs, h.1, h.2, dtor_finished_all_exited hs h.1⟩

/-- The destructor of a pool with one worker, run just after the stale `store(true)` of
`waitForTasks_returns_early`. Its `WaitForTasks` returns at once; `request_stop` reaches the
worker before it has looked at its queue again, and the worker exits. When the last `join`
returns, task `1` is still queued and both counters are `1`. -/
theorem teardown_strands_task :
    ∃ s, Reachable s ∧ s.dtor = .finished ∧ s.deques 0 = [1] ∧ 1 ∉ s.executed ∧
      s.unassigned = 1 ∧ s.inFlight = 1 := by
  obtain ⟨s, hs, h⟩ := exists_reachable_of_run [true] 1 0
    (List.replicate 8 (.producer 0) ++ List.replicate 9 (.worker 0) ++
      List.replicate 8 (.producer 0) ++ [.worker 0, .dtor, .dtor, .dtor, .worker 0, .dtor, .dtor, .dtor])
    (fun s => s.dtor = .finished && s.deques 0 == [1] && !(s.executed.contains 1) &&
      s.unassigned == 1 && s.inFlight == 1) (by decide)
  exact ⟨s, hs, by simpa [and_assoc] using h⟩

end SsLogger.ThreadPool
