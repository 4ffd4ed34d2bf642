import SsLogger.ThreadPool.Drain

set_option autoImplicit false

/-! # `~ThreadPool` and `WaitForTasks` return

The destructor blocks twice: in `WaitForTasks`'s `wait(false)` until a `notify_one` unblocks it,
and in each `join` until the worker has left `ThreadLoop`. Neither can block for good. From every
reachable state in which no producer or `WaitForTasks` caller is inside a call and the destructor
has not reached `StopAllThreads`, there is a run with no spurious wake-up in which the destructor
returns (`dtor_returns`), and in it no task is left behind: every queue is empty, both counters
are `0`, and every task given out has been run or dropped.

The run first lets the workers drain (`exists_drain`). A destructor inside `wait(false)` loaded a
positive `m_in_flight_tasks`, so some task has run since and the flag is `true` (`FlagInv`,
`WaitInv`); if it is blocked, the `store(true)` that made the flag `true` left a notification no
other thread can take (`NoteInv`), and it takes it up. One that has not started loads `0`. Then
`StopAllThreads` goes through the workers in order: `request_stop` and `release()` wake worker `i`,
which finds every queue empty, signals completion, reads its stop and exits
(`runsTo_worker_exit`), and its `join` returns (`runsTo_stop_round`).

The same argument frees a `WaitForTasks` caller when it is the pool's only one
(`waiters_return`). With two callers blocked, the one `notify_one` of the last `SignalCompletion`
may unblock only one of them. -/

namespace SsLogger.ThreadPool

open SsLogger.ThreadSafeQueue Function

/-! ## Runs between two states -/

theorem run_append (s : Pool) (as bs : List Act) :
    run s (as ++ bs) = (run s as).bind (run · bs) := by
  induction as generalizing s with
  | nil => rfl
  | cons a as ih => simp [run, ih, Option.bind_assoc]

/-- Some run leads from `s` to `s'`. -/
def RunsTo (s s' : Pool) : Prop := ∃ as, run s as = some s'

theorem RunsTo.refl (s : Pool) : RunsTo s s := ⟨[], rfl⟩

theorem RunsTo.trans {s₁ s₂ s₃ : Pool} (h₁ : RunsTo s₁ s₂) (h₂ : RunsTo s₂ s₃) : RunsTo s₁ s₃ := by
  obtain ⟨as, ha⟩ := h₁
  obtain ⟨bs, hb⟩ := h₂
  exact ⟨as ++ bs, by rw [run_append, ha, Option.some_bind, hb]⟩

theorem RunsTo.cons {s t u : Pool} {a : Act} (h₁ : step s a = some t) (h₂ : RunsTo t u) :
    RunsTo s u :=
  RunsTo.trans ⟨[a], by simp [run, h₁]⟩ h₂

/-! ## A woken worker with nothing to do exits -/

section Exit

variable {i : ℕ}

/-- With every queue empty, a worker at `steal j` probes the rest of the ring, finds nothing, and
goes on to its check of `m_unassigned_tasks`. -/
theorem runsTo_steal_empty (k : ℕ) :
    ∀ (s : Pool) (j : ℕ), i < s.size → (∀ l < s.size, s.deques l = []) →
      s.workers i = .steal j → s.size = j + k →
      RunsTo s { s with workers := update s.workers i .checkUnassigned } := by
  induction k with
  | zero =>
    intro s j hi _ hpc hj
    exact .cons (step_of_workerMove hi (.stealDone j hpc (by omega))) (.refl _)
  | succ k ih =>
    intro s j hi hempty hpc hj
    have h₁ := step_of_workerMove hi
      (.stealEmpty j hpc (by omega) (hempty _ (Nat.mod_lt _ (by omega))))
    have h₂ := ih { s with workers := update s.workers i (.steal (j + 1)) } (j + 1) hi hempty
      (by simp) (by simp only; omega)
    simp only [update_idem] at h₂
    exact .cons h₁ h₂

/-- A sleeping worker whose signal has been released and whose stop has been requested, with every
queue empty and both counters `0`: it wakes, finds nothing to do, stores `true` and exits. -/
theorem runsTo_worker_exit {s : Pool} (hi : i < s.size) (hempty : ∀ l < s.size, s.deques l = [])
    (hw : s.workers i = .acquire) (hsem : s.sems i = 1) (hstop : s.stops i = true)
    (hu : s.unassigned = 0) (hf : s.inFlight = 0) :
    RunsTo s { s with sems := update s.sems i 0, workers := update s.workers i .exited,
                      flag := true, stores := s.stores + 1, notes := s.notes ++ [s.stores + 1] } := by
  have hpos : 0 < s.sems i := by omega
  refine .cons (step_of_workerMove hi (.acquire hw hpos)) ?_
  refine .cons (step_of_workerMove hi (.ownEmpty (by simp) (hempty i hi))) ?_
  refine .trans (runsTo_steal_empty (s.size - 1) _ 1 hi hempty (by simp) (by simp only; omega)) ?_
  refine .cons (step_of_workerMove hi (.checkUnassigned (by simp))) ?_
  refine .cons (step_of_workerMove hi (.loadInFlight (by simp [hu]))) ?_
  refine .cons (step_of_workerMove hi (.storeTrue (by simp [hf]))) ?_
  refine .cons (step_of_workerMove hi (.checkStop (by simp))) ?_
  convert RunsTo.refl _ using 2 <;> simp [hsem, hu, hstop]

end Exit

/-! ## `StopAllThreads` -/

/-- One round of `StopAllThreads`: `request_stop`, `release()`, the worker's way out, and the
`join`. The worker's signal count is back to `0`. -/
theorem runsTo_stop_round {s : Pool} {i : ℕ} (hi : i < s.size) (hd : s.dtor = .requestStop i)
    (hempty : ∀ l < s.size, s.deques l = []) (hw : s.workers i = .acquire) (hsem : s.sems i = 0)
    (hu : s.unassigned = 0) (hf : s.inFlight = 0) :
    RunsTo s { s with stops := update s.stops i true, workers := update s.workers i .exited,
                      flag := true, stores := s.stores + 1, notes := s.notes ++ [s.stores + 1],
                      dtor := .requestStop (i + 1) } := by
  let s₁ := { s with stops := update s.stops i true, dtor := .release i }
  let s₂ := { s₁ with sems := update s.sems i (s.sems i + 1), dtor := .join i }
  let s₃ := { s₂ with sems := update s₂.sems i 0, workers := update s₂.workers i .exited,
                      flag := true, stores := s₂.stores + 1, notes := s₂.notes ++ [s₂.stores + 1] }
  have h₁ : step s .dtor = some s₁ := by simp [s₁, step, dtorStep, hd, hi]
  have h₂ : step s₁ .dtor = some s₂ := by simp [s₁, s₂, step, dtorStep]
  have h₃ : step s₃ .dtor = some { s₃ with dtor := .requestStop (i + 1) } := by
    simp [s₃, s₂, step, dtorStep]
  refine .cons h₁ (.cons h₂ (.trans (runsTo_worker_exit hi hempty hw (by simp [s₂, hsem])
    (by simp [s₂, s₁]) hu hf) (.cons h₃ ?_)))
  convert RunsTo.refl _ using 2
  simp [s₃, s₂, s₁, ← hsem]

/-- `StopAllThreads` from index `i`, with every later worker asleep, runs to its end. Only the
stop flags, the workers' places, the completion flag, its stores and notifications, and the
destructor's place change. -/
theorem runsTo_stop_all (k : ℕ) :
    ∀ (s : Pool) (i : ℕ), s.size = i + k → s.dtor = .requestStop i →
      (∀ j, i ≤ j → j < s.size → s.workers j = .acquire ∧ s.sems j = 0) →
      (∀ l < s.size, s.deques l = []) → s.unassigned = 0 → s.inFlight = 0 →
      ∃ stops workers flag stores notes, RunsTo s
        { s with stops := stops, workers := workers, flag := flag, stores := stores, notes := notes,
                 dtor := .finished } := by
  induction k with
  | zero =>
    intro s i hk hd _ _ _ _
    have h : step s .dtor = some { s with dtor := .finished } := by simp [step, dtorStep, hd, hk]
    exact ⟨s.stops, s.workers, s.flag, s.stores, s.notes, .cons h (.refl _)⟩
  | succ k ih =>
    intro s i hk hd hasleep hempty hu hf
    have hi : i < s.size := by omega
    obtain ⟨hw, hsem⟩ := hasleep i le_rfl hi
    obtain ⟨stops, workers, flag, stores, notes, hrun⟩ := ih
      { s with stops := update s.stops i true, workers := update s.workers i .exited,
               flag := true, stores := s.stores + 1, notes := s.notes ++ [s.stores + 1],
               dtor := .requestStop (i + 1) } (i + 1) (by simp only; omega) rfl
      (fun j hj hjs => by simpa [update_noteq (show j ≠ i by omega)] using hasleep j (by omega) hjs)
      hempty hu hf
    exact ⟨stops, workers, flag, stores, notes,
      (runsTo_stop_round hi hd hempty hw hsem hu hf).trans hrun⟩

/-! ## A blocked thread takes up its notification -/

theorem takeNote_of_lt {k : ℕ} : ∀ {l : List ℕ}, (∃ m ∈ l, k < m) → ∃ l', takeNote k l = some l'
  | [], ⟨_, hm, _⟩ => absurd hm (List.not_mem_nil _)
  | m :: l, ⟨m', hm', hk⟩ => by
    by_cases h : k < m
    · exact ⟨l, by simp [takeNote, h]⟩
    · have hm'' : m' ∈ l := (List.mem_cons.1 hm').resolve_left fun e => h (e ▸ hk)
      obtain ⟨l', hl'⟩ := takeNote_of_lt ⟨m', hm'', hk⟩
      exact ⟨m :: l', by simp [takeNote, h, hl']⟩

/-- A thread owed a notification on a `true` flag is unblocked by it, not spuriously. -/
theorem wakeUp_owed {s : Pool} {k : ℕ} (h : s.Owed k) (hf : s.flag = true) :
    ∃ ns, wakeUp k s.notes s.spurious = (ns, s.spurious) := by
  obtain ⟨l', hl'⟩ := takeNote_of_lt (h.2 hf)
  exact ⟨l', by simp [wakeUp, hl']⟩

/-- A thread inside `wait(false)` in a drained pool sees `true`: it loaded a positive
`m_in_flight_tasks`, so some task has run, and the last worker to finish one stored `true`. -/
theorem flag_of_asleep {s : Pool} (h : Reachable s) (ha : s.Asleep) (hf : s.inFlight = 0)
    (hw : s.Waiting) : s.flag = true := by
  by_contra hfl
  have hexec : s.executed ≠ [] := by
    rcases h.waitInv.waiting hw with h1 | h1
    · omega
    · exact h1
  rcases h.flagInv (by simpa using hfl) with h1 | ⟨w, hw, h2⟩ | h1
  · omega
  · simp [(ha w hw).1, WorkerPc.Signals] at h2
  · exact hexec h1

/-! ## The destructor returns -/

/-- In a drained pool the destructor's `WaitForTasks` returns with no spurious wake-up: it loads
`0`, or reads `true`, or takes up the notification it is owed and then reads `true`. -/
theorem runsTo_dtor_wait {s : Pool} (h : Reachable s) (ha : s.Asleep) (hf : s.inFlight = 0)
    (hp : ∀ p < s.nprods, s.prods p = .idle) (hq : ∀ q < s.nwaiters, s.waiters q = .idle)
    (hd : s.dtor = .idle ∨ s.dtor.InWait) :
    ∃ ns, RunsTo s { s with dtor := .requestStop 0, notes := ns } := by
  rcases hd with hd | hd
  · refine ⟨s.notes, .cons (a := .dtor) ?_ (.refl _)⟩
    simp only [ThreadPool.step, dtorStep, hd, if_pos (And.intro hp hq), hf]
    rfl
  have hflag := flag_of_asleep h ha hf (.inr hd)
  cases hdt : s.dtor with
  | waitFlag => exact ⟨s.notes, .cons (a := .dtor) (by simp [step, dtorStep, hdt, hflag]) (.refl _)⟩
  | blocked k =>
    obtain ⟨ns, hw⟩ := wakeUp_owed (h.noteInv.dtorOwed k hdt) hflag
    refine ⟨ns, .cons (a := .dtor) (t := { s with dtor := .waitFlag, notes := ns }) ?_
      (.cons (a := .dtor) (by simp [step, dtorStep, hflag]) (.refl _))⟩
    simp [step, dtorStep, hdt, hw]
  | _ => simp [hdt, DtorPc.InWait] at hd

/-- From every reachable state in which no producer or `WaitForTasks` caller is inside a call and
the destructor has not reached `StopAllThreads` (it has not started, or it is inside its
`wait(false)`), some run with no spurious wake-up takes the destructor to its return. When it
returns, every worker has exited, every queue is empty, both counters are `0`, and every task given
out has been run or dropped, exactly once. -/
theorem dtor_returns {s : Pool} (h : Reachable s) (hp : ∀ p < s.nprods, s.prods p = .idle)
    (hq : ∀ q < s.nwaiters, s.waiters q = .idle) (hd : s.dtor = .idle ∨ s.dtor.InWait) :
    ∃ as s', run s as = some s' ∧ s'.spurious = s.spurious ∧ s'.dtor = .finished ∧
      s'.next = s.next ∧ (∀ i < s'.size, s'.workers i = .exited ∧ s'.deques i = []) ∧
      s'.unassigned = 0 ∧ s'.inFlight = 0 ∧
      (s'.executed ++ s'.dropped).Perm (List.range s.next) := by
  -- the workers drain the pool
  obtain ⟨as, s₁, hrun, -, hn, hfr, h₁, ha⟩ := exists_drain s h hp hd
  have hp₁ : ∀ p < s₁.nprods, s₁.prods p = .idle := by rw [hfr.prods, hfr.nprods]; exact hp
  have hq₁ : ∀ q < s₁.nwaiters, s₁.waiters q = .idle := by
    rw [hfr.waiters, hfr.nwaiters]; exact hq
  obtain ⟨hempty, hu, hf, hperm⟩ := asleep_drained h₁ hp₁ ha
  -- the destructor's `WaitForTasks` returns, and `StopAllThreads` runs to its end
  obtain ⟨ns, hwait⟩ := runsTo_dtor_wait h₁ ha hf hp₁ hq₁ (by rw [hfr.dtor]; exact hd)
  obtain ⟨stops, workers, flag, stores, notes, hstop⟩ := runsTo_stop_all s₁.size
    { s₁ with dtor := .requestStop 0, notes := ns } 0 (by simp) rfl (fun j _ hj => ha j hj)
    hempty hu hf
  obtain ⟨bs, hbs⟩ := hwait.trans hstop
  have h' := h₁.run hbs
  have hrun' : run s (as ++ bs) = run s₁ bs := by rw [run_append, hrun, Option.some_bind]
  rw [hbs] at hrun'
  refine ⟨as ++ bs, _, hrun', hfr.spurious, rfl, hn, fun i hi => ?_, hu, hf, hn ▸ hperm⟩
  exact ⟨by simpa [DtorPc.joined] using h'.dtorInv.joined i hi, hempty i hi⟩

/-- The producer has queued task `0` and returned, and the destructor, which loaded
`m_in_flight_tasks = 1` and then a `false` flag, is blocked in `wait(false)`: it still returns,
after the task has run. -/
theorem dtor_returns_from_wait :
    ∃ s, Reachable s ∧ s.dtor = .blocked 1 ∧ s.deques 0 = [0] ∧
      (∀ p < s.nprods, s.prods p = .idle) ∧ (∀ q < s.nwaiters, s.waiters q = .idle) ∧
      ∃ as s', run s as = some s' ∧ s'.spurious = s.spurious ∧ s'.dtor = .finished ∧
        s'.next = s.next ∧ (∀ i < s'.size, s'.workers i = .exited ∧ s'.deques i = []) ∧
        s'.unassigned = 0 ∧ s'.inFlight = 0 ∧
        (s'.executed ++ s'.dropped).Perm (List.range s.next) := by
  obtain ⟨s, hs, h⟩ := exists_reachable_of_run [true] 1 0
    (List.replicate 8 (.producer 0) ++ [.dtor, .dtor])
    (fun s => s.dtor = .blocked 1 && s.deques 0 == [0] && s.nprods == 1 && s.prods 0 = .idle &&
      s.nwaiters == 0) (by decide)
  simp only [Bool.and_eq_true, beq_iff_eq, decide_eq_true_eq] at h
  obtain ⟨⟨⟨⟨hd, hq⟩, hn⟩, hp⟩, hw⟩ := h
  have hp' : ∀ p < s.nprods, s.prods p = .idle := fun p hp0 => by
    obtain rfl : p = 0 := by omega
    exact hp
  have hw' : ∀ q < s.nwaiters, s.waiters q = .idle := fun q hq0 => by omega
  exact ⟨s, hs, hd, hq, hp', hw', dtor_returns hs hp' hw' (.inr (by simp [hd, DtorPc.InWait]))⟩

/-! ## `WaitForTasks` returns -/

/-- In a drained pool the pool's only `WaitForTasks` caller returns with no spurious wake-up. -/
theorem runsTo_caller_wait {s : Pool} (h : Reachable s) (ha : s.Asleep) (hf : s.inFlight = 0)
    (hone : s.nwaiters ≤ 1) :
    ∃ w ns, RunsTo s { s with waiters := w, notes := ns } ∧ ∀ q < s.nwaiters, w q = .idle := by
  rcases Nat.lt_or_ge 0 s.nwaiters with h0 | h0
  swap
  · exact ⟨s.waiters, s.notes, .refl _, fun q hq => absurd hq (by omega)⟩
  have hq0 : ∀ q < s.nwaiters, q = 0 := fun q hq => by omega
  have hidle : ∀ q < s.nwaiters, update s.waiters 0 .idle q = .idle := fun q hq => by
    rw [hq0 q hq, update_same]
  cases hw : s.waiters 0 with
  | idle => exact ⟨s.waiters, s.notes, .refl _, fun q hq => hq0 q hq ▸ hw⟩
  | waitFlag =>
    have hflag := flag_of_asleep h ha hf (.inl ⟨0, h0, by simp [hw]⟩)
    exact ⟨_, s.notes, .cons (a := .waiter 0) (by simp [step, waiterStep, h0, hw, hflag]) (.refl _),
      hidle⟩
  | blocked k =>
    have hflag := flag_of_asleep h ha hf (.inl ⟨0, h0, by simp [hw]⟩)
    obtain ⟨ns, hwk⟩ := wakeUp_owed (h.noteInv.callerOwed hone 0 h0 k hw) hflag
    refine ⟨update s.waiters 0 .idle, ns, .cons (a := .waiter 0)
      (t := { s with waiters := update s.waiters 0 .waitFlag, notes := ns }) ?_
      (.cons (a := .waiter 0) (by simp [step, waiterStep, h0, hflag]) (.refl _)), hidle⟩
    simp [step, waiterStep, h0, hw, hwk]

/-- From every reachable state of a pool with one `WaitForTasks` caller, in which no producer is
inside `EnqueueTask` and the destructor has not reached `StopAllThreads`, some run with no spurious
wake-up returns the caller from `WaitForTasks`: it does not block for good. At the end every queue
is empty, `m_in_flight_tasks` is `0`, and every task given out has been run or dropped, exactly
once. -/
theorem waiters_return {s : Pool} (h : Reachable s) (hone : s.nwaiters ≤ 1)
    (hp : ∀ p < s.nprods, s.prods p = .idle) (hd : s.dtor = .idle ∨ s.dtor.InWait) :
    ∃ as s', run s as = some s' ∧ s'.spurious = s.spurious ∧
      (∀ q < s'.nwaiters, s'.waiters q = .idle) ∧ s'.next = s.next ∧
      (∀ i < s'.size, s'.deques i = []) ∧ s'.inFlight = 0 ∧
      (s'.executed ++ s'.dropped).Perm (List.range s.next) := by
  obtain ⟨as, s₁, hrun, -, hn, hfr, h₁, ha⟩ := exists_drain s h hp hd
  obtain ⟨hempty, -, hf, hperm⟩ :=
    asleep_drained h₁ (by rw [hfr.prods, hfr.nprods]; exact hp) ha
  obtain ⟨w, ns, ⟨bs, hbs⟩, hw⟩ := runsTo_caller_wait h₁ ha hf (hfr.nwaiters ▸ hone)
  have hrun' : run s (as ++ bs) = run s₁ bs := by rw [run_append, hrun, Option.some_bind]
  rw [hbs] at hrun'
  exact ⟨as ++ bs, _, hrun', hfr.spurious, hw, hn, hempty, hf, hn ▸ hperm⟩

/-- The only `WaitForTasks` caller loaded `m_in_flight_tasks = 1` while task `0` was queued, then a
`false` flag, and is blocked in `wait(false)`: it returns, after the task has run. -/
theorem waiters_return_after_task :
    ∃ s, Reachable s ∧ s.nwaiters = 1 ∧ s.waiters 0 = .blocked 1 ∧ s.deques 0 = [0] ∧
      (∀ p < s.nprods, s.prods p = .idle) ∧ s.dtor = .idle ∧
      ∃ as s', run s as = some s' ∧ s'.spurious = s.spurious ∧
        (∀ q < s'.nwaiters, s'.waiters q = .idle) ∧ s'.next = s.next ∧
        (∀ i < s'.size, s'.deques i = []) ∧ s'.inFlight = 0 ∧
        (s'.executed ++ s'.dropped).Perm (List.range s.next) := by
  obtain ⟨s, hs, h⟩ := exists_reachable_of_run [true] 1 1
    (List.replicate 8 (.producer 0) ++ [.waiter 0, .waiter 0])
    (fun s => s.nwaiters == 1 && s.waiters 0 = .blocked 1 && s.deques 0 == [0] && s.nprods == 1 &&
      s.prods 0 = .idle && s.dtor = .idle) (by decide)
  simp only [Bool.and_eq_true, beq_iff_eq, decide_eq_true_eq] at h
  obtain ⟨⟨⟨⟨⟨hnw, hw⟩, hq⟩, hn⟩, hp⟩, hd⟩ := h
  have hp' : ∀ p < s.nprods, s.prods p = .idle := fun p hp0 => by
    obtain rfl : p = 0 := by omega
    exact hp
  exact ⟨s, hs, hnw, hw, hq, hp', hd, waiters_return hs hnw.le hp' (.inl hd)⟩

end SsLogger.ThreadPool
