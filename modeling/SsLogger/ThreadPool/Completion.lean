import SsLogger.ThreadPool.Wakeup

set_option autoImplicit false

/-! # The completion flag and `WaitForTasks`

`m_threads_complete_signal` is set by `SignalCompletion` after a worker has seen
`m_in_flight_tasks = 0`, and reset by the `EnqueueTask` that moves the counter from `0` to `1`.
`FlagInv` says that a false flag is always owed a later `store(true)`: a task is in flight, or a
worker has still to pass `SignalCompletion`, or no task has been executed yet. A thread blocks in
`wait(false)` only after it loaded a positive `m_in_flight_tasks` (`WaitInv`).

So when no producer is inside `EnqueueTask` and every worker sleeps with count `0`, the queues
and both counters are empty, and no `WaitForTasks` caller is blocked on a false flag
(`quiescent_pool`). The flag itself is true there only once a task has run: it starts `false` and
nothing sets it before the first task (`flag_false_at_start`).

A caller blocked in `wait(false)` is owed a notification: once the flag is true, some `notify_one`
made after it blocked has left a notification it may take up (`NoteInv`), as long as only one
thread waits at a time.

`SignalCompletion`'s load and store are two steps, though. A worker that loaded `0` can store
`true` after a new `EnqueueTask` has made `m_in_flight_tasks` positive and cleared the flag, and a
`WaitForTasks` that starts then returns at once, with the new task still queued
(`waitForTasks_returns_early`). -/

namespace SsLogger.ThreadPool

open SsLogger.ThreadSafeQueue Function

/-! ## The completion flag -/

/-- A worker that has still to get through `SignalCompletion` before it can sleep. -/
def WorkerPc.Signals : WorkerPc → Prop
  | .acquire | .checkStop | .exited => False
  | _ => True

/-- A false flag is owed a `store(true)`: a task is in flight, a worker has still to pass
`SignalCompletion`, or no task has been executed yet. -/
def FlagInv (s : Pool) : Prop :=
  s.flag = false → 0 < s.inFlight ∨ (∃ w < s.size, (s.workers w).Signals) ∨ s.executed = []

theorem flagInv_init (b : Built) (nprods nwaiters : ℕ) : FlagInv (Pool.init b nprods nwaiters) :=
  fun _ => .inr (.inr rfl)

/-- A worker that has still to pass `SignalCompletion` owes the flag its `store(true)`. -/
theorem flagInv_of_signals {s : Pool} (w : ℕ) (hw : w < s.size) (h : (s.workers w).Signals) :
    FlagInv s :=
  fun _ => .inr (.inl ⟨w, hw, h⟩)

/-- `EnqueueTask` only clears the flag from a place that owes `m_in_flight_tasks` a task, and
never lowers that counter. -/
theorem enqStep_flag (s : Pool) (e : EnqPc) :
    ((enqStep s e).1.flag = s.flag ∨ e.inFlightOwed = 1) ∧ s.inFlight ≤ (enqStep s e).1.inFlight := by
  cases e with
  | popRing t => simp only [enqStep]; split <;> simp
  | storeFalse t i => simp [enqStep, EnqPc.inFlightOwed]
  | _ => simp [enqStep]

theorem FlagInv.call {s s' : Pool} (c : Caller) (h : FlagInv s) (hl : Ledger s)
    (hs : step s c.act = some s') : FlagInv s' := by
  obtain ⟨hc, ⟨-, rfl⟩ | ⟨-, rfl⟩⟩ := step_call hs
  · simpa [FlagInv] using h
  · obtain ⟨hflag, hle⟩ := enqStep_flag s (s.callPc c)
    have hf := hl.inFlight
    intro hfl
    simp only [setCall_frame, enqStep_frame] at hfl hle ⊢
    rcases hflag with he | he
    · rcases h (by rwa [he] at hfl) with h1 | h1 | h1
      · exact .inl (by omega)
      · exact .inr (.inl h1)
      · exact .inr (.inr h1)
    · have := le_callsAt hc EnqPc.inFlightOwed
      exact .inl (by omega)

theorem FlagInv.worker {s s' : Pool} {w : ℕ} (h : FlagInv s) (hl : Ledger s)
    (hs : step s (.worker w) = some s') : FlagInv s' := by
  have hf := hl.inFlight
  obtain ⟨hw, hm⟩ := step_worker hs
  cases hm
  case loadInFlight hpc =>
    -- `SignalCompletion` saw a task in flight and skips the store
    split_ifs with h0
    · exact flagInv_of_signals w hw (by simp [WorkerPc.Signals])
    · exact fun _ => .inl (show 0 < s.inFlight by omega)
  case storeTrue hpc => intro hfl; simp at hfl
  case checkStop hpc =>
    -- the worker leaves `SignalCompletion` behind; what it owed is owed elsewhere
    intro hfl
    rcases h hfl with h1 | ⟨w', hw', h2⟩ | h1
    · exact .inl h1
    · have hne : w' ≠ w := by rintro rfl; simp [hpc, WorkerPc.Signals] at h2
      exact .inr (.inl ⟨w', hw', by simpa [update_noteq hne] using h2⟩)
    · exact .inr (.inr h1)
  -- every other move keeps the worker short of `SignalCompletion`'s store
  all_goals
    refine flagInv_of_signals w hw ?_
    (try cases ‹Resume›) <;> (try split_ifs) <;> simp [Resume.pc, WorkerPc.Signals]

theorem FlagInv.step {s s' : Pool} {a : Act} (h : FlagInv s) (hl : Ledger s)
    (hs : step s a = some s') : FlagInv s' := by
  cases a with
  | producer p => exact h.call (.producer p) hl hs
  | task w => exact h.call (.task w) hl hs
  | worker w => exact h.worker hl hs
  | waiter q =>
    obtain ⟨c, ns, n, rfl, -⟩ := step_waiter_eq hs
    exact h
  | dtor =>
    obtain ⟨hsize, -⟩ := step_shape hs
    obtain ⟨-, -, -, hf, hfl, hw, -, -, he, -⟩ := step_dtor_frame hs
    simpa only [FlagInv, hsize, hf, hfl, hw, he] using h

theorem Reachable.flagInv {s : Pool} (h : Reachable s) : FlagInv s := by
  induction h with
  | init spawns nprods nwaiters => exact flagInv_init _ nprods nwaiters
  | step a hr hs ih => exact ih.step hr.ledger hs

/-! ## Threads blocked in `wait(false)` -/

/-- The destructor is inside its `wait(false)`. -/
def DtorPc.InWait : DtorPc → Prop
  | .waitFlag | .blocked _ => True
  | _ => False

/-- A thread inside `wait(false)`: a `WaitForTasks` caller, or the destructor's own call. -/
def Pool.Waiting (s : Pool) : Prop :=
  (∃ q < s.nwaiters, s.waiters q ≠ .idle) ∨ s.dtor.InWait

/-- A worker holds only a task it has popped, and a thread blocks in `wait(false)` only after it
loaded a positive `m_in_flight_tasks`; so a blocked thread sees a task in flight, or some task has
been executed. -/
structure WaitInv (s : Pool) : Prop where
  held : s.executed = [] → ∀ w, (s.workers w).inFlightHeld = 0
  waiting : s.Waiting → 0 < s.inFlight ∨ s.executed ≠ []

theorem waitInv_init (b : Built) (nprods nwaiters : ℕ) : WaitInv (Pool.init b nprods nwaiters) :=
  ⟨fun _ _ => rfl, fun h => by simp [Pool.Waiting, Pool.init, DtorPc.InWait] at h⟩

theorem waitInv_of_executed {s : Pool} (h : s.executed ≠ []) : WaitInv s :=
  ⟨fun he => absurd he h, fun _ => .inr h⟩

theorem WaitInv.call {s s' : Pool} (c : Caller) (h : WaitInv s) (hs : step s c.act = some s') :
    WaitInv s' := by
  obtain ⟨-, ⟨-, rfl⟩ | ⟨-, rfl⟩⟩ := step_call hs
  · exact ⟨by simpa using h.held, by simpa [Pool.Waiting] using h.waiting⟩
  · have hle := (enqStep_flag s (s.callPc c)).2
    refine ⟨by simpa using h.held, fun hq => ?_⟩
    simp only [Pool.Waiting, setCall_frame, enqStep_frame] at hq ⊢
    rcases h.waiting hq with h1 | h1
    · exact .inl (by omega)
    · exact .inr h1

theorem WaitInv.worker {s s' : Pool} {w : ℕ} (h : WaitInv s) (hs : step s (.worker w) = some s') :
    WaitInv s' := by
  obtain ⟨hheld, hwait⟩ := h
  obtain ⟨hw, hm⟩ := step_worker hs
  cases hm
  -- a pop appends to `executed`
  case popOwn | steal => exact waitInv_of_executed (by simp)
  -- a worker holding a task has popped one
  case subUnassigned | invoke | subInFlight =>
    exact waitInv_of_executed fun he => by
      simpa [‹s.workers w = _›, WorkerPc.inFlightHeld] using hheld he w
  -- the rest move `w` to a place that holds no task
  all_goals
    refine ⟨fun he w' => ?_, hwait⟩
    rcases eq_or_ne w' w with rfl | hne
    · (try split_ifs) <;> simp [WorkerPc.inFlightHeld]
    · simpa [update_noteq hne] using hheld he w'

/-- The destructor enters `wait(false)` only after loading a positive `m_in_flight_tasks`. -/
theorem step_dtor_inWait {s s' : Pool} (h : step s .dtor = some s') (hd : s'.dtor.InWait) :
    s.dtor.InWait ∨ 0 < s.inFlight := by
  simp only [step, dtorStep] at h
  (repeat' split at h) <;> cases h <;> simp_all [DtorPc.InWait]

theorem WaitInv.step {s s' : Pool} {a : Act} (h : WaitInv s) (hs : step s a = some s') :
    WaitInv s' := by
  cases a with
  | producer p => exact h.call (.producer p) hs
  | task w => exact h.call (.task w) hs
  | worker w => exact h.worker hs
  | waiter q =>
    obtain ⟨c, ns, n, rfl, hc⟩ := step_waiter_eq hs
    refine ⟨h.held, ?_⟩
    rintro (⟨q', hq', hw⟩ | hd)
    · rcases eq_or_ne q' q with rfl | hne
      · by_cases hi : s.waiters q' = .idle
        · exact .inl (hc (by simpa using hw) hi)
        · exact h.waiting (.inl ⟨q', hq', hi⟩)
      · exact h.waiting (.inl ⟨q', hq', by simpa [update_noteq hne] using hw⟩)
    · exact h.waiting (.inr hd)
  | dtor =>
    obtain ⟨-, -, hnw⟩ := step_shape hs
    obtain ⟨-, -, -, hf, -, hw, -, -, he, hq, -⟩ := step_dtor_frame hs
    refine ⟨by simpa [he, hw] using h.held, ?_⟩
    rintro (⟨q', hq', hwt⟩ | hd)
    · simpa [hf, he] using h.waiting (.inl ⟨q', by omega, by simpa [hq] using hwt⟩)
    · rcases step_dtor_inWait hs hd with hd | hd
      · simpa [hf, he] using h.waiting (.inr hd)
      · exact .inl (by rwa [hf])

theorem Reachable.waitInv {s : Pool} (h : Reachable s) : WaitInv s := by
  induction h with
  | init spawns nprods nwaiters => exact waitInv_init _ nprods nwaiters
  | step a _ hs ih => exact ih.step hs

/-! ## Notifications

A thread blocks in `wait(false)` only on a `false` flag, and the `store(true)` that later makes
the flag `true` leaves a notification the blocked thread is eligible for. No other thread can take
it up when the blocked thread is the destructor, which starts only once every `WaitForTasks`
caller is out, or the pool's only `WaitForTasks` caller (`NoteInv`). -/

/-- A thread blocked after loading store `k` loaded a store already made, and once the flag is
`true` a notification it is eligible for is waiting. -/
def Pool.Owed (s : Pool) (k : ℕ) : Prop := k ≤ s.stores ∧ (s.flag = true → ∃ m ∈ s.notes, k < m)

theorem Pool.Owed.of_le {s s' : Pool} {k : ℕ} (h : s.Owed k) (hst : s.stores ≤ s'.stores)
    (hn : s'.notes = s.notes) (hf : s'.flag = true → s.flag = true) : s'.Owed k :=
  ⟨h.1.trans hst, fun hfl => hn ▸ h.2 (hf hfl)⟩

/-- `SignalCompletion`'s `store(true)` and `notify_one` owe every blocked thread the new
notification. -/
theorem Pool.Owed.of_store {s s' : Pool} {k : ℕ} (h : s.Owed k) (hst : s'.stores = s.stores + 1)
    (hn : s'.notes = s.notes ++ [s.stores + 1]) : s'.Owed k :=
  ⟨by have := h.1; omega, fun _ => ⟨s.stores + 1, by simp [hn], by have := h.1; omega⟩⟩

/-- The destructor and the `WaitForTasks` callers are never inside at once, and a blocked
destructor, or a blocked caller that is the pool's only one, is owed its notification. -/
structure NoteInv (s : Pool) : Prop where
  excl : s.dtor = .idle ∨ ∀ q < s.nwaiters, s.waiters q = .idle
  dtorOwed : ∀ k, s.dtor = .blocked k → s.Owed k
  callerOwed : s.nwaiters ≤ 1 → ∀ q < s.nwaiters, ∀ k, s.waiters q = .blocked k → s.Owed k

theorem noteInv_init (b : Built) (nprods nwaiters : ℕ) : NoteInv (Pool.init b nprods nwaiters) :=
  ⟨.inl rfl, (fun _ h => nomatch h), fun _ _ _ _ h => nomatch h⟩

/-- A step that moves neither the destructor nor a caller, clears no notification, and sets the
flag only with a new one keeps `NoteInv`. -/
theorem NoteInv.of_frame {s s' : Pool} (h : NoteInv s) (hd : s'.dtor = s.dtor)
    (hw : s'.waiters = s.waiters) (hnw : s'.nwaiters = s.nwaiters)
    (ho : ∀ k, s.Owed k → s'.Owed k) : NoteInv s' :=
  ⟨by rw [hd, hw, hnw]; exact h.excl, fun k hk => ho k (h.dtorOwed k (hd ▸ hk)),
    fun hone q hq k hk => ho k (h.callerOwed (hnw ▸ hone) q (hnw ▸ hq) k (hw ▸ hk))⟩

/-- With every caller out, only the destructor can be owed. -/
theorem NoteInv.of_callers_idle {s : Pool} (hq : ∀ q < s.nwaiters, s.waiters q = .idle)
    (hd : ∀ k, s.dtor = .blocked k → s.Owed k) : NoteInv s :=
  ⟨.inr hq, hd, fun _ q hq' k hk => by rw [hq q hq'] at hk; cases hk⟩

/-- `EnqueueTask` clears no notification and never sets the flag. -/
theorem enqStep_notes (s : Pool) (e : EnqPc) :
    (enqStep s e).1.notes = s.notes ∧ s.stores ≤ (enqStep s e).1.stores ∧
      ((enqStep s e).1.flag = true → s.flag = true) := by
  cases e with
  | popRing t => simp only [enqStep]; split <;> simp
  | _ => simp [enqStep]

theorem NoteInv.call {s s' : Pool} (c : Caller) (h : NoteInv s) (hs : step s c.act = some s') :
    NoteInv s' := by
  obtain ⟨-, ⟨-, rfl⟩ | ⟨-, rfl⟩⟩ := step_call hs
  · exact h.of_frame (by simp) (by simp) (by simp) fun k hk => by cases c <;> exact hk
  · obtain ⟨hn, hst, hf⟩ := enqStep_notes s (s.callPc c)
    exact h.of_frame (by simp) (by simp) (by simp) fun k hk => by
      cases c <;> exact hk.of_le hst hn hf

theorem NoteInv.worker {s s' : Pool} {w : ℕ} (h : NoteInv s) (hs : step s (.worker w) = some s') :
    NoteInv s' := by
  obtain ⟨-, hm⟩ := step_worker hs
  cases hm
  case storeTrue => exact h.of_frame rfl rfl rfl fun k hk => hk.of_store rfl rfl
  all_goals exact h.of_frame rfl rfl rfl fun _ hk => hk

theorem NoteInv.waiter {s s' : Pool} {q : ℕ} (h : NoteInv s) (hs : step s (.waiter q) = some s') :
    NoteInv s' := by
  have hq : q < s.nwaiters := by
    by_contra hq
    simp [step, hq] at hs
  simp only [step, hq, if_true, waiterStep] at hs
  -- a caller steps only while the destructor has not started
  have hd : s.dtor = .idle := by
    rcases h.excl with hd | hw
    · exact hd
    · by_contra hd
      simp [hw q hq, hd] at hs
  have hdb : ∀ k, s.dtor ≠ .blocked k := fun k => by simp [hd]
  cases hw : s.waiters q <;> simp only [hw] at hs
  case idle =>
    split_ifs at hs with h0 <;> cases hs <;>
    refine ⟨.inl hd, fun k hk => absurd hk (hdb k), fun hone q' hq' k hk => ?_⟩ <;>
    obtain rfl : q' = q := by dsimp only at hone hq'; omega
    all_goals simp at hk
  case waitFlag =>
    cases hs
    refine ⟨.inl hd, fun k hk => absurd hk (hdb k), fun hone q' hq' k hk => ?_⟩
    obtain rfl : q' = q := by dsimp only at hone hq'; omega
    split_ifs at hk with hf <;> simp only [update_same, WaitPc.blocked.injEq, reduceCtorEq] at hk
    exact ⟨hk.ge, fun hf' => (hf hf').elim⟩
  case blocked k₀ =>
    cases hs
    refine ⟨.inl hd, fun k hk => absurd hk (hdb k), fun hone q' hq' k hk => ?_⟩
    obtain rfl : q' = q := by dsimp only at hone hq'; omega
    simp at hk

theorem NoteInv.dtor {s s' : Pool} (h : NoteInv s) (hs : step s .dtor = some s') : NoteInv s' := by
  have hnw := (step_shape hs).2.2
  have hwt := (step_dtor_frame hs).2.2.2.2.2.2.2.2.2.1
  simp only [step, dtorStep] at hs
  cases hd : s.dtor with
  | idle =>
    simp only [hd] at hs
    split_ifs at hs with hq <;> cases hs <;>
      exact NoteInv.of_callers_idle hq.2 fun k hk => by simp at hk
  | finished => simp [hd] at hs
  | _ =>
    -- the destructor has started, so every caller is out
    have hq : ∀ q < s.nwaiters, s.waiters q = .idle :=
      h.excl.resolve_left (by simp [hd])
    simp only [hd] at hs
    refine NoteInv.of_callers_idle (by rw [hwt, hnw]; exact hq) fun k hk => ?_
    -- only `wait(false)` blocks, after loading `false` from the latest store
    (repeat' split at hs) <;> cases hs <;> simp at hk <;> exact ⟨hk.ge, fun hf => (‹¬_› hf).elim⟩

theorem NoteInv.step {s s' : Pool} {a : Act} (h : NoteInv s) (hs : step s a = some s') :
    NoteInv s' := by
  cases a with
  | producer p => exact h.call (.producer p) hs
  | task w => exact h.call (.task w) hs
  | worker w => exact h.worker hs
  | waiter q => exact h.waiter hs
  | dtor => exact h.dtor hs

theorem Reachable.noteInv {s : Pool} (h : Reachable s) : NoteInv s := by
  induction h with
  | init spawns nprods nwaiters => exact noteInv_init _ nprods nwaiters
  | step a _ hs ih => exact ih.step hs

/-! ## `Enqueue` calls made by tasks -/

/-- A task's `Enqueue` runs on its worker's thread, inside `std::invoke`. -/
def NestInv (s : Pool) : Prop :=
  ∀ w, s.nested w ≠ .idle → ∃ t r, s.workers w = .invoke t r

theorem NestInv.call {s s' : Pool} (c : Caller) (h : NestInv s) (hs : step s c.act = some s') :
    NestInv s' := by
  obtain ⟨-, ⟨-, rfl⟩ | ⟨-, rfl⟩⟩ := step_call hs
  all_goals
    intro w hw
    change Pool.callPc _ (.task w) ≠ .idle at hw
    simp only [setCall_frame, enqStep_frame]
    rw [callPc_setCall] at hw
    split_ifs at hw with e
    · subst e; exact step_task_invoke hs
    · exact h w (by simpa [Pool.callPc] using hw)

theorem NestInv.worker {s s' : Pool} {w : ℕ} (h : NestInv s) (hs : step s (.worker w) = some s') :
    NestInv s' := by
  obtain ⟨-, -, -, hn, -⟩ := step_worker_frame hs
  intro w' hw'
  rw [hn] at hw'
  rcases eq_or_ne w' w with rfl | hne
  · -- a worker inside `std::invoke` waits for its task's `Enqueue` to return
    obtain ⟨t, r, hi⟩ := h w' hw'
    simp [step, workerStep, hi, hw'] at hs
  · rw [(step_worker_wake hs).2.2.1 w' hne]
    exact h w' hw'

theorem NestInv.step {s s' : Pool} {a : Act} (h : NestInv s) (hs : step s a = some s') :
    NestInv s' := by
  cases a with
  | producer p => exact h.call (.producer p) hs
  | task w => exact h.call (.task w) hs
  | worker w => exact h.worker hs
  | waiter q =>
    obtain ⟨c, ns, n, rfl, -⟩ := step_waiter_eq hs
    exact h
  | dtor =>
    obtain ⟨-, -, -, -, -, hw, -, hn, -⟩ := step_dtor_frame hs
    rw [NestInv, hw, hn]
    exact h

theorem Reachable.nestInv {s : Pool} (h : Reachable s) : NestInv s := by
  induction h with
  | init => exact fun _ hw => absurd rfl hw
  | step a _ hs ih => exact ih.step hs

/-! ## Quiescence -/

/-- A worker asleep in `acquire()` with count `0` holds no task whose `release()` has been made.
And when no producer is inside `EnqueueTask` and every worker sleeps so, every queue is empty,
both counters are `0`, the flag is `true` unless no task has run yet, and no thread is blocked in
`wait(false)` on a false flag. -/
theorem quiescent_pool {s : Pool} (h : Reachable s) :
    (∀ i < s.size, s.workers i = .acquire → s.sems i = 0 →
      ∀ t ∈ s.deques i, s.PendingRelease t i) ∧
    ((∀ p < s.nprods, s.prods p = .idle) → (∀ i < s.size, s.workers i = .acquire ∧ s.sems i = 0) →
      (∀ i < s.size, s.deques i = []) ∧ s.unassigned = 0 ∧ s.inFlight = 0 ∧
        (s.flag = true ∨ s.executed = []) ∧ (s.Waiting → s.flag = true)) := by
  refine ⟨fun i hi hw hsem => sleeping_queue_pending h hi hw hsem, fun hp hw => ?_⟩
  have hcall : ∀ c, s.IsCaller c → s.callPc c = .idle := by
    rintro (p | w) hc
    · exact hp p hc
    · by_contra hne
      obtain ⟨t, r, hi⟩ := h.nestInv w hne
      rw [(hw w hc).1] at hi
      cases hi
  have hdq : ∀ i < s.size, s.deques i = [] := fun i hi =>
    List.eq_nil_iff_forall_not_mem.2 fun t ht => by
      obtain ⟨c, hc, hpc⟩ := sleeping_queue_pending h hi (hw i hi).1 (hw i hi).2 t ht
      rw [hcall c hc] at hpc
      cases hpc
  have hq : s.queued = 0 := countIn_eq_zero fun i hi => by simp [hdq i hi]
  have hcalls : ∀ P : EnqPc → ℕ, P .idle = 0 → s.callsAt P = 0 := fun P h0 => by
    have h1 : countIn s.nprods s.prods P = 0 := countIn_eq_zero fun p hp => by
      rw [show s.prods p = .idle from hcall (.producer p) hp, h0]
    have h2 : countIn s.size s.nested P = 0 := countIn_eq_zero fun w hw => by
      rw [show s.nested w = .idle from hcall (.task w) hw, h0]
    simp [Pool.callsAt, h1, h2]
  have hworkers : ∀ P : WorkerPc → ℕ, P .acquire = 0 → s.workersAt P = 0 := fun P h0 =>
    countIn_eq_zero fun i hi => by rw [(hw i hi).1, h0]
  obtain ⟨hu, hf⟩ := h.ledger
  rw [hq, hcalls EnqPc.unassignedOwed rfl, hworkers WorkerPc.unassignedHeld rfl] at hu
  rw [hq, hcalls EnqPc.inFlightOwed rfl, hworkers WorkerPc.inFlightHeld rfl] at hf
  simp only [Nat.cast_zero, add_zero] at hu hf
  have hflag : s.flag = false → s.executed = [] := fun hfl => by
    rcases h.flagInv hfl with h1 | ⟨w, hw', h2⟩ | h1
    · omega
    · simp [(hw w hw').1, WorkerPc.Signals] at h2
    · exact h1
  refine ⟨hdq, hu, hf, ?_, fun hwait => ?_⟩
  · cases hfl : s.flag
    · exact .inr (hflag hfl)
    · exact .inl rfl
  · by_contra hfl
    rcases h.waitInv.waiting hwait with h1 | h1
    · omega
    · exact h1 (hflag (by simpa using hfl))

/-- One worker that has run task `0` and gone back to sleep, with the producer idle: the pool is
quiescent, and the flag is `true`. -/
theorem quiescent_pool_after_task :
    ∃ s, Reachable s ∧ s.executed = [0] ∧ (∀ p < s.nprods, s.prods p = .idle) ∧
      (∀ i < s.size, s.workers i = .acquire ∧ s.sems i = 0) ∧
      (∀ i < s.size, s.deques i = []) ∧ s.unassigned = 0 ∧ s.inFlight = 0 ∧
        (s.flag = true ∨ s.executed = []) ∧ (s.Waiting → s.flag = true) := by
  obtain ⟨s, hs, h⟩ := exists_reachable_of_run [true] 1 0
    (List.replicate 8 (.producer 0) ++ List.replicate 11 (.worker 0))
    (fun s => s.executed == [0] && s.size == 1 && s.nprods == 1 && s.prods 0 = .idle &&
      s.workers 0 = .acquire && s.sems 0 == 0) (by decide)
  simp only [Bool.and_eq_true, beq_iff_eq, decide_eq_true_eq] at h
  obtain ⟨⟨⟨⟨⟨he, hsize⟩, hn⟩, hp⟩, hw⟩, hsem⟩ := h
  have hp' : ∀ p < s.nprods, s.prods p = .idle := fun p hp0 => by
    obtain rfl : p = 0 := by omega
    exact hp
  have hw' : ∀ i < s.size, s.workers i = .acquire ∧ s.sems i = 0 := fun i hi => by
    obtain rfl : i = 0 := by omega
    exact ⟨hw, hsem⟩
  exact ⟨s, hs, he, hp', hw', (quiescent_pool hs).2 hp' hw'⟩

/-- Before the first task every worker sleeps with nothing to do, and the flag is still `false`. -/
theorem flag_false_at_start :
    ∃ s, Reachable s ∧ 0 < s.size ∧ s.dtor = .idle ∧ (∀ p < s.nprods, s.prods p = .idle) ∧
      (∀ i < s.size, s.workers i = .acquire ∧ s.sems i = 0) ∧ s.flag = false :=
  ⟨_, .init [true] 0 0, by decide, rfl, fun _ _ => rfl, fun _ _ => ⟨rfl, rfl⟩, rfl⟩

/-! ## A stale `store(true)` -/

/-- One worker, one producer and one `WaitForTasks` caller. The producer's first task runs and the
worker's `SignalCompletion` loads `m_in_flight_tasks = 0`; the producer then enqueues task `1`,
which clears the flag, and only then does the worker store `true`. A `WaitForTasks` that starts
now loads `1`, enters `wait(false)`, reads `true` and returns: `m_in_flight_tasks` is `1` in every
state of the call, and task `1` is still in the queue, not executed. -/
theorem waitForTasks_returns_early :
    ∃ s₀ s₁ s₂, Reachable s₀ ∧ step s₀ (.waiter 0) = some s₁ ∧ step s₁ (.waiter 0) = some s₂ ∧
      s₀.waiters 0 = .idle ∧ s₁.waiters 0 = .waitFlag ∧ s₂.waiters 0 = .idle ∧
      s₀.inFlight = 1 ∧ s₁.inFlight = 1 ∧ s₂.inFlight = 1 ∧ s₂.deques 0 = [1] ∧
      1 ∉ s₂.executed := by
  obtain ⟨s₀, hs, h⟩ := exists_reachable_of_run [true] 1 1
    (List.replicate 8 (.producer 0) ++ List.replicate 9 (.worker 0) ++
      List.replicate 8 (.producer 0) ++ [.worker 0])
    (fun s₀ => (step s₀ (.waiter 0)).any fun s₁ => (step s₁ (.waiter 0)).any fun s₂ =>
      s₀.waiters 0 = .idle && s₁.waiters 0 = .waitFlag && s₂.waiters 0 = .idle &&
      s₀.inFlight == 1 && s₁.inFlight == 1 && s₂.inFlight == 1 && s₂.deques 0 == [1] &&
      !(s₂.executed.contains 1)) (by decide)
  cases h₁ : step s₀ (.waiter 0) with
  | none => simp [h₁] at h
  | some s₁ =>
    cases h₂ : step s₁ (.waiter 0) with
    | none => simp [h₁, h₂] at h
    | some s₂ =>
      simp only [h₁, h₂, Option.any_some] at h
      exact ⟨s₀, s₁, s₂, hs, h₁, h₂, by simpa [and_assoc] using h⟩

end SsLogger.ThreadPool
