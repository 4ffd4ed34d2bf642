import SsLogger.ThreadPool.Ledger

set_option autoImplicit false

/-! # Sleeping workers and their signals

A worker sleeps in `m_tasks[w].m_signal.acquire()`. `EnqueueTask` pushes its task and only then
releases the signal, and after every `acquire` the worker empties its own queue before it can
sleep again. So a task in a sleeping worker's queue is always one whose `release()` is still to
come (`WakeInv`, `sleeping_queue_pending`): no wake-up is lost.

The signal is a `std::binary_semaphore`, whose `release()` requires the count to be `0`. Nothing
in `EnqueueTask` waits for the worker to take the previous signal, so two calls that the ring
sends to the same sleeping worker release it twice, the second time at count `1`
(`release_at_count_one`). -/

namespace SsLogger.ThreadPool

open SsLogger.ThreadSafeQueue Function

/-! ## Pending releases and draining workers -/

/-- Some call has pushed `t` on queue `i` and has still to `release()` signal `i`. -/
def Pool.PendingRelease (s : Pool) (t i : ℕ) : Prop :=
  ∃ c, s.IsCaller c ∧ s.callPc c = .release t i

/-- Pending releases depend on the calls only. -/
theorem pendingRelease_iff_of {s s' : Pool} (hsize : s'.size = s.size) (hnp : s'.nprods = s.nprods)
    (hp : s'.prods = s.prods) (hn : s'.nested = s.nested) (t i : ℕ) :
    s'.PendingRelease t i ↔ s.PendingRelease t i := by
  simp only [Pool.PendingRelease, callPc_eq_of hp hn, isCaller_iff_of hsize hnp]

/-- A worker that will empty its own queue before it next sleeps. -/
def WorkerPc.Drains : WorkerPc → Prop
  | .popOwn | .subUnassigned _ .ownQueue | .invoke _ .ownQueue | .subInFlight _ .ownQueue => True
  | _ => False

/-- Every task in a queue is still to be released, or the worker has been signalled, or it is
draining its queue. -/
def WakeInv (s : Pool) : Prop :=
  ∀ i < s.size, ∀ t ∈ s.deques i, s.PendingRelease t i ∨ 0 < s.sems i ∨ (s.workers i).Drains

theorem wakeInv_init (b : Built) (nprods nwaiters : ℕ) : WakeInv (Pool.init b nprods nwaiters) := by
  simp [WakeInv, Pool.init]

/-- What a worker's step does to the queues, the signal counts and the workers, as `WakeInv`
sees it: tasks only leave queues, a count only drops when the worker starts to drain, and a
drain stops only on an empty queue. -/
def WorkerWake (s s' : Pool) (w : ℕ) : Prop :=
  (∀ i, s'.deques i ⊆ s.deques i) ∧
    (∀ i, s.sems i ≤ s'.sems i ∨ (i = w ∧ (s'.workers w).Drains)) ∧
    (∀ i, i ≠ w → s'.workers i = s.workers i) ∧
    ((s.workers w).Drains → (s'.workers w).Drains ∨ s'.deques w = [])

/-- A move of worker `w` alone, to `pc'`. -/
theorem workerWake_move {s s' : Pool} {w : ℕ} {pc' : WorkerPc} (hd : s'.deques = s.deques)
    (hs : s'.sems = s.sems) (hw : s'.workers = update s.workers w pc')
    (hdr : (s.workers w).Drains → pc'.Drains ∨ s.deques w = []) : WorkerWake s s' w :=
  ⟨fun i => by rw [hd]; exact List.Subset.refl _, fun i => .inl (by rw [hs]), fun i hi => by rw [hw, update_noteq hi],
    by simpa [hw, hd] using hdr⟩

theorem step_worker_wake {s s' : Pool} {w : ℕ} (h : step s (.worker w) = some s') :
    WorkerWake s s' w := by
  obtain ⟨hw, hm⟩ := step_worker h
  cases hm
  case acquire hpc h0 =>
    -- the count drops as the worker starts to drain
    refine ⟨fun i => List.Subset.refl _, fun i => ?_, fun i hi => update_noteq hi _ _,
      by simp [hpc, WorkerPc.Drains]⟩
    by_cases hi : i = w
    · subst hi; exact .inr ⟨rfl, by simp [WorkerPc.Drains]⟩
    · exact .inl (by simp [update_noteq hi])
  case popOwn t q hpc hq =>
    refine ⟨fun i => ?_, fun i => .inl le_rfl, fun i hi => update_noteq hi _ _,
      fun _ => .inl (by simp [WorkerPc.Drains])⟩
    by_cases hi : i = w
    · subst hi; simp [hq]
    · simp [update_noteq hi]
  case ownEmpty hpc hq => exact workerWake_move rfl rfl rfl (fun _ => .inr hq)
  case steal j t q hpc hj hq =>
    refine ⟨fun i => ?_, fun i => .inl le_rfl, fun i hi => update_noteq hi _ _,
      by simp [hpc, WorkerPc.Drains]⟩
    by_cases hi : i = (w + j) % s.size
    · subst hi; simp [hq]
    · simp [update_noteq hi]
  all_goals
    refine workerWake_move rfl rfl rfl ?_
    (try cases ‹Resume›) <;> (try split_ifs) <;>
      simp [‹s.workers w = _›, WorkerPc.Drains, Resume.pc]

theorem WakeInv.worker {s s' : Pool} {w : ℕ} (h : WakeInv s) (hs : step s (.worker w) = some s') :
    WakeInv s' := by
  obtain ⟨hdq, hsem, hother, hdrain⟩ := step_worker_wake hs
  obtain ⟨hsize, hnp, -⟩ := step_shape hs
  obtain ⟨-, -, hprods, hnested, -⟩ := step_worker_frame hs
  intro i hi t ht
  rw [hsize] at hi
  rw [pendingRelease_iff_of hsize hnp hprods hnested]
  rcases h i hi t (hdq i ht) with hp | hp | hp
  · exact .inl hp
  · rcases hsem i with hle | ⟨rfl, hd⟩
    · exact .inr (.inl (by omega))
    · exact .inr (.inr hd)
  · by_cases hiw : i = w
    · subst hiw
      rcases hdrain hp with hd | he
      · exact .inr (.inr hd)
      · simp [he] at ht
    · rw [hother i hiw]; exact .inr (.inr hp)

/-- `enqStep` as `WakeInv` sees it: the `release()` raises a count and ends the call, the push
adds the task and moves on to the `release()`, and no other step touches a queue, a count or the
`release()` place. -/
theorem enqStep_wake (s : Pool) (e : EnqPc) :
    (∃ t i, e = .release t i ∧ (enqStep s e).1 = { s with sems := update s.sems i (s.sems i + 1) } ∧
        (enqStep s e).2 = .idle) ∨
      (∃ t i, e = .pushTask t i ∧
        (enqStep s e).1 = { s with deques := update s.deques i (pushBack (s.deques i) t) } ∧
        (enqStep s e).2 = .release t i) ∨
      ((enqStep s e).1.deques = s.deques ∧ (enqStep s e).1.sems = s.sems ∧
        (enqStep s e).1.workers = s.workers ∧ (∀ t i, e ≠ .release t i) ∧
        ∀ t i, (enqStep s e).2 ≠ .release t i) := by
  cases e with
  | release t i => exact .inl ⟨t, i, rfl, rfl, rfl⟩
  | pushTask t i => exact .inr (.inl ⟨t, i, rfl, rfl, rfl⟩)
  | popRing t => simp only [enqStep]; split <;> simp
  | addInFlight t i => simp only [enqStep]; split_ifs <;> simp
  | _ => simp [enqStep]

/-- A pending release survives a caller's move, unless the caller owed it and moves on. -/
theorem Pool.PendingRelease.setCall {s : Pool} {t i : ℕ} (h : s.PendingRelease t i) (c : Caller)
    (e : EnqPc) (he : s.callPc c = .release t i → e = .release t i) :
    (s.setCall c e).PendingRelease t i := by
  obtain ⟨c', hc', hpc'⟩ := h
  refine ⟨c', (isCaller_setCall _ _ _ _).2 hc', ?_⟩
  rw [callPc_setCall]
  split_ifs with hcc
  · subst hcc
    exact he hpc'
  · exact hpc'

theorem WakeInv.call {s s' : Pool} (c : Caller) (h : WakeInv s) (hs : step s c.act = some s') :
    WakeInv s' := by
  obtain ⟨hc, ⟨hidle, rfl⟩ | ⟨-, rfl⟩⟩ := step_call hs
  · -- a call starts: the caller owed no release
    intro i hi t ht
    simp only [setCall_frame] at hi ht ⊢
    refine (h i hi t ht).imp_left fun hp => Pool.PendingRelease.setCall ?_ c _ (by simp [hidle])
    exact (pendingRelease_iff_of rfl rfl rfl rfl t i).2 hp
  obtain ⟨t0, i0, he, h1, h2⟩ | ⟨t0, i0, he, h1, h2⟩ | ⟨h1, h2, h3, h4, -⟩ :=
    enqStep_wake s (s.callPc c)
  · -- the `release()`: the count it raises covers the task the call owed
    rw [h1, h2]
    intro i hi t ht
    simp only [setCall_frame] at hi ht ⊢
    by_cases hti : t = t0 ∧ i = i0
    · obtain ⟨rfl, rfl⟩ := hti
      exact .inr (.inl (by simp))
    refine (h i hi t ht).imp (fun hp => ?_) (Or.imp_left fun hp => ?_)
    · refine Pool.PendingRelease.setCall ?_ c _ fun h' => ?_
      · exact (pendingRelease_iff_of rfl rfl rfl rfl t i).2 hp
      · change s.callPc c = _ at h'
        rw [he] at h'
        cases h'
        exact absurd ⟨rfl, rfl⟩ hti
    · by_cases e : i = i0
      · subst e
        simp
      · simpa [update_noteq e] using hp
  · -- the push: the new task is owed the call's `release()`
    rw [h1, h2]
    intro i hi t ht
    simp only [setCall_frame] at hi ht ⊢
    by_cases hnew : i = i0 ∧ t = t0
    · obtain ⟨rfl, rfl⟩ := hnew
      exact .inl ⟨c, by simpa using hc, by simp [callPc_setCall]⟩
    have hold : t ∈ s.deques i := by
      by_cases e : i = i0
      · subst e
        have : t ≠ t0 := fun ht0 => hnew ⟨rfl, ht0⟩
        simpa [this] using ht
      · simpa [update_noteq e] using ht
    refine (h i hi t hold).imp_left fun hp => Pool.PendingRelease.setCall ?_ c _ fun h' => ?_
    · exact (pendingRelease_iff_of rfl rfl rfl rfl t i).2 hp
    · change s.callPc c = _ at h'
      rw [he] at h'
      cases h'
  · -- any other step moves no task, count or worker, and owes no release
    intro i hi t ht
    simp only [setCall_frame, enqStep_frame, h1, h2, h3] at hi ht ⊢
    obtain ⟨-, -, -, -, hn, hp, -⟩ := enqStep_frame s (s.callPc c)
    exact (h i hi t ht).imp_left fun hr => Pool.PendingRelease.setCall
      ((pendingRelease_iff_of (by simp) (by simp) hp hn t i).2 hr) c _
      fun h' => absurd (callPc_eq_of hp hn ▸ h') (h4 t i)

/-- `WakeInv` survives a step that keeps the queues, the workers and the calls, and only raises
counts: a waiter's step and the destructor's. -/
theorem WakeInv.of_sems {s s' : Pool} (h : WakeInv s) (hsize : s'.size = s.size)
    (hnp : s'.nprods = s.nprods) (hd : s'.deques = s.deques) (hw : s'.workers = s.workers)
    (hp : s'.prods = s.prods) (hn : s'.nested = s.nested) (hsem : ∀ i, s.sems i ≤ s'.sems i) :
    WakeInv s' := by
  intro i hi t ht
  rw [hsize] at hi
  rw [hd] at ht
  rw [pendingRelease_iff_of hsize hnp hp hn, hw]
  exact (h i hi t ht).imp_right (Or.imp_left fun h1 => lt_of_lt_of_le h1 (hsem i))

theorem WakeInv.step {s s' : Pool} {a : Act} (h : WakeInv s) (hs : step s a = some s') :
    WakeInv s' := by
  cases a with
  | producer p => exact h.call (.producer p) hs
  | task w => exact h.call (.task w) hs
  | worker w => exact h.worker hs
  | waiter q =>
    obtain ⟨c, ns, n, rfl, -⟩ := step_waiter_eq hs
    exact h.of_sems rfl rfl rfl rfl rfl rfl fun _ => le_rfl
  | dtor =>
    obtain ⟨hsize, hnp, -⟩ := step_shape hs
    obtain ⟨-, hd, -, -, -, hw, hp, hn, -⟩ := step_dtor_frame hs
    exact h.of_sems hsize hnp hd hw hp hn (step_dtor_sems hs)

theorem Reachable.wakeInv {s : Pool} (h : Reachable s) : WakeInv s := by
  induction h with
  | init spawns nprods nwaiters => exact wakeInv_init _ nprods nwaiters
  | step a _ hs ih => exact ih.step hs

/-- A worker asleep in `acquire()` with count `0` has no task in its queue whose `release()` has
been made: each one's `EnqueueTask` is still before its `release()`. -/
theorem sleeping_queue_pending {s : Pool} (h : Reachable s) {i : ℕ} (hi : i < s.size)
    (hw : s.workers i = .acquire) (hsem : s.sems i = 0) :
    ∀ t ∈ s.deques i, s.PendingRelease t i := by
  intro t ht
  rcases h.wakeInv i hi t ht with hp | hp | hp
  · exact hp
  · omega
  · simp [hw, WorkerPc.Drains] at hp

/-! ## Releases of a binary semaphore -/

/-- Every `release()` a thread is about to make, in `EnqueueTask` or in `StopAllThreads`, finds
the count of its semaphore at `0`. -/
def Pool.ReleasesAtZero (s : Pool) : Prop :=
  (∀ c, s.IsCaller c → ∀ t i, s.callPc c = .release t i → s.sems i = 0) ∧
    ∀ i, s.dtor = .release i → s.sems i = 0

/-- One worker and one producer that calls `Enqueue` twice before the worker runs: the second
call's `release()` finds the count at `1`. -/
theorem release_at_count_one : ∃ s, Reachable s ∧ ¬ s.ReleasesAtZero := by
  obtain ⟨s, hs, h⟩ := exists_reachable_of_run [true] 1 0
    (List.replicate 14 (.producer 0))
    (fun s => s.prods 0 = .release 1 0 && s.sems 0 == 1 && s.nprods == 1) (by decide)
  simp only [Bool.and_eq_true, decide_eq_true_eq, beq_iff_eq] at h
  obtain ⟨⟨hpc, hsem⟩, hn⟩ := h
  refine ⟨s, hs, fun hz => ?_⟩
  have := hz.1 (.producer 0) (show 0 < s.nprods by omega) 1 0 hpc
  omega

end SsLogger.ThreadPool
