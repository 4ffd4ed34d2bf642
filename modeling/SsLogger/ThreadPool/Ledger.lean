import SsLogger.ThreadPool.Ring

set_option autoImplicit false

/-! # The two task counters

`m_unassigned_tasks` and `m_in_flight_tasks` are never read back into the queues; they count
tasks by hand. `Ledger` says what each one counts in every reachable state: the tasks in the
queues, plus the `EnqueueTask` calls that have done their increment and not yet pushed, plus the
workers that have popped a task and not yet done their decrement (`counters_eq`). Both counters
are therefore never negative.

`m_unassigned_tasks ≤ m_in_flight_tasks` is not one of the consequences: `EnqueueTask`
increments `m_unassigned_tasks` first, so a call between its two `fetch_add`s is counted by the
first counter only (`unassigned_gt_inFlight`). What holds is the bound with those calls added
(`unassigned_le_inFlight_add`). -/

namespace SsLogger.ThreadPool

open SsLogger.ThreadSafeQueue Function

/-! ## Weights -/

/-- `1` for a call past its `fetch_add` on `m_unassigned_tasks` that has not pushed its task. -/
def EnqPc.unassignedOwed : EnqPc → ℕ
  | .addInFlight _ _ | .storeFalse _ _ | .pushTask _ _ => 1
  | _ => 0

/-- `1` for a call past its `fetch_add` on `m_in_flight_tasks` that has not pushed its task. -/
def EnqPc.inFlightOwed : EnqPc → ℕ
  | .storeFalse _ _ | .pushTask _ _ => 1
  | _ => 0

/-- `1` for a call between its two `fetch_add`s. -/
def EnqPc.betweenAdds : EnqPc → ℕ
  | .addInFlight _ _ => 1
  | _ => 0

/-- `1` for a worker that popped a task and has not done its `fetch_sub` on
`m_unassigned_tasks`. -/
def WorkerPc.unassignedHeld : WorkerPc → ℕ
  | .subUnassigned _ _ => 1
  | _ => 0

/-- `1` for a worker that popped a task and has not done its `fetch_sub` on
`m_in_flight_tasks`. -/
def WorkerPc.inFlightHeld : WorkerPc → ℕ
  | .subUnassigned _ _ | .invoke _ _ | .subInFlight _ _ => 1
  | _ => 0

theorem unassignedOwed_eq (e : EnqPc) : e.unassignedOwed = e.inFlightOwed + e.betweenAdds := by
  cases e <;> rfl

theorem unassignedHeld_le (w : WorkerPc) : w.unassignedHeld ≤ w.inFlightHeld := by
  cases w <;> simp [WorkerPc.unassignedHeld, WorkerPc.inFlightHeld]

/-! ## The ledger -/

/-- What each counter counts. -/
structure Ledger (s : Pool) : Prop where
  unassigned :
    s.unassigned = s.queued + s.callsAt EnqPc.unassignedOwed + s.workersAt WorkerPc.unassignedHeld
  inFlight :
    s.inFlight = s.queued + s.callsAt EnqPc.inFlightOwed + s.workersAt WorkerPc.inFlightHeld

theorem ledger_init (b : Built) (nprods nwaiters : ℕ) : Ledger (Pool.init b nprods nwaiters) := by
  constructor <;>
    simp [Pool.init, Pool.queued, Pool.callsAt, Pool.workersAt, countIn,
      EnqPc.unassignedOwed, EnqPc.inFlightOwed, WorkerPc.unassignedHeld, WorkerPc.inFlightHeld]

/-- `enqStep` moves one unit between a call's debt and the queues, or pays it into a counter. -/
theorem enqStep_ledger (s : Pool) (e : EnqPc) (he : ∀ i, e.index? = some i → i < s.size) :
    ((enqStep s e).1.unassigned : ℤ) - (enqStep s e).1.queued - (enqStep s e).2.unassignedOwed =
        s.unassigned - s.queued - e.unassignedOwed ∧
      ((enqStep s e).1.inFlight : ℤ) - (enqStep s e).1.queued - (enqStep s e).2.inFlightOwed =
        s.inFlight - s.queued - e.inFlightOwed := by
  cases e with
  | popRing t =>
    simp only [enqStep]
    split <;> exact ⟨rfl, rfl⟩
  | addUnassigned t i =>
    simp only [enqStep, Pool.queued, EnqPc.unassignedOwed, EnqPc.inFlightOwed, true_and, and_true]
    omega
  | addInFlight t i =>
    simp only [enqStep]
    split_ifs <;>
      simp only [Pool.queued, EnqPc.unassignedOwed, EnqPc.inFlightOwed, true_and, and_true] <;> omega
  | pushTask t i =>
    have hi := countIn_update (he i rfl) s.deques (pushBack (s.deques i) t) List.length
    simp only [pushBack_length] at hi
    simp only [enqStep, Pool.queued, hi, EnqPc.unassignedOwed, EnqPc.inFlightOwed, true_and,
      and_true]
    omega
  | _ => exact ⟨rfl, rfl⟩

theorem Ledger.call {s s' : Pool} (c : Caller) (h : Ledger s) (hr : RingInv s)
    (hs : step s c.act = some s') : Ledger s' := by
  obtain ⟨hu, hf⟩ := h
  obtain ⟨hc, ⟨hidle, rfl⟩ | ⟨-, rfl⟩⟩ := step_call hs
  · have h1 := callsAt_setCall { s with next := s.next + 1 } EnqPc.unassignedOwed hc
      (.popRing s.next)
    have h2 := callsAt_setCall { s with next := s.next + 1 } EnqPc.inFlightOwed hc
      (.popRing s.next)
    simp only [callsAt_setNext, callPc_setNext, hidle, EnqPc.unassignedOwed,
      EnqPc.inFlightOwed] at h1 h2
    constructor <;> simp only [setCall_frame, queued_setCall, workersAt_setCall, queued_setNext,
      workersAt_setNext, Nat.cast_add, h1, h2] <;> omega
  · have key := enqStep_ledger s (s.callPc c) (hr.calls c hc)
    have h1 := callsAt_setCall (enqStep s (s.callPc c)).1 EnqPc.unassignedOwed
      ((isCaller_enqStep _ _ _).2 hc) (enqStep s (s.callPc c)).2
    have h2 := callsAt_setCall (enqStep s (s.callPc c)).1 EnqPc.inFlightOwed
      ((isCaller_enqStep _ _ _).2 hc) (enqStep s (s.callPc c)).2
    simp only [callsAt_enqStep, callPc_enqStep] at h1 h2
    constructor <;> simp only [setCall_frame, queued_setCall, workersAt_setCall,
      workersAt_enqStep, Nat.cast_add, h1, h2] <;> omega

/-- A worker's move keeps the ledger when each counter, net of the queues, changes by what the
worker's weight changes. -/
theorem Ledger.move {s s' : Pool} {w : ℕ} {y : WorkerPc} (h : Ledger s) (hw : w < s.size)
    (hsize : s'.size = s.size) (hws : s'.workers = update s.workers w y)
    (hcalls : s'.callsAt = s.callsAt)
    (hu : s'.unassigned - s'.queued + (s.workers w).unassignedHeld =
      s.unassigned - s.queued + y.unassignedHeld)
    (hf : s'.inFlight - s'.queued + (s.workers w).inFlightHeld =
      s.inFlight - s.queued + y.inFlightHeld) : Ledger s' := by
  obtain ⟨h1, h2⟩ := h
  have e1 := countIn_update hw s.workers y WorkerPc.unassignedHeld
  have e2 := countIn_update hw s.workers y WorkerPc.inFlightHeld
  simp only [Pool.workersAt, Nat.cast_add] at h1 h2
  constructor <;> simp only [Pool.workersAt, hsize, hws, hcalls, Nat.cast_add] <;> omega

theorem Ledger.worker {s s' : Pool} {w : ℕ} (h : Ledger s) (hs : step s (.worker w) = some s') :
    Ledger s' := by
  obtain ⟨hw, hm⟩ := step_worker hs
  cases hm
  case popOwn t q hpc hq =>
    -- one task leaves the own queue for the worker
    have hd := countIn_update hw s.deques q List.length
    refine h.move hw rfl rfl rfl ?_ ?_ <;>
      simp only [Pool.queued, hd, hpc, hq, List.length_cons, WorkerPc.unassignedHeld,
        WorkerPc.inFlightHeld, Nat.cast_add, Nat.cast_one] <;> omega
  case steal j t q hpc hj hq =>
    -- one task leaves another worker's queue for this one
    have hd := countIn_update_mod (show 0 < s.size by omega) (w + j) s.deques q List.length
    refine h.move hw rfl rfl rfl ?_ ?_ <;>
      simp only [Pool.queued, hd, hpc, hq, List.length_append, List.length_singleton,
        WorkerPc.unassignedHeld, WorkerPc.inFlightHeld, Nat.cast_add, Nat.cast_one] <;> omega
  -- every other move pays a counter exactly when the worker's weight drops
  all_goals
    refine h.move hw rfl rfl rfl ?_ ?_ <;> (try cases ‹Resume›) <;> (try split) <;>
      simp only [Pool.queued, ‹s.workers w = _›, Resume.pc, WorkerPc.unassignedHeld,
        WorkerPc.inFlightHeld] <;> omega

theorem Ledger.step {s s' : Pool} {a : Act} (h : Ledger s) (hr : RingInv s)
    (hs : step s a = some s') : Ledger s' := by
  cases a with
  | producer p => exact h.call (.producer p) hr hs
  | task w => exact h.call (.task w) hr hs
  | worker w => exact h.worker hs
  | waiter q =>
    obtain ⟨c, ns, n, rfl, -⟩ := step_waiter_eq hs
    exact ⟨h.unassigned, h.inFlight⟩
  | dtor =>
    obtain ⟨hsize, hnp, -⟩ := step_shape hs
    obtain ⟨-, hd, hu, hf, -, hw, hp, hn, -⟩ := step_dtor_frame hs
    obtain ⟨h1, h2⟩ := h
    constructor <;> simp only [Pool.queued, Pool.callsAt, Pool.workersAt, hsize, hnp, hd, hu, hf,
      hw, hp, hn] <;> assumption

theorem Reachable.ledger {s : Pool} (h : Reachable s) : Ledger s := by
  induction h with
  | init spawns nprods nwaiters => exact ledger_init _ nprods nwaiters
  | step a hr hs ih => exact ih.step hr.ringInv hs

/-- In every reachable state, `m_unassigned_tasks` is the number of tasks in the queues, plus the
`EnqueueTask` calls past their `fetch_add` on it that have not pushed, plus the workers that
popped a task and have not done their `fetch_sub` on it; the same for `m_in_flight_tasks` with
its own `fetch_add` and `fetch_sub`. Neither counter is negative. -/
theorem counters_eq {s : Pool} (h : Reachable s) :
    s.unassigned =
        s.queued + s.callsAt EnqPc.unassignedOwed + s.workersAt WorkerPc.unassignedHeld ∧
      s.inFlight = s.queued + s.callsAt EnqPc.inFlightOwed + s.workersAt WorkerPc.inFlightHeld ∧
      0 ≤ s.unassigned ∧ 0 ≤ s.inFlight := by
  obtain ⟨hu, hf⟩ := h.ledger
  exact ⟨hu, hf, by omega, by omega⟩

/-- A producer stopped just before its push: both counters are `1`, and both count the call. -/
theorem counters_eq_before_push :
    ∃ s, Reachable s ∧ s.queued = 0 ∧ s.callsAt EnqPc.unassignedOwed = 1 ∧
      s.unassigned = s.queued + s.callsAt EnqPc.unassignedOwed + s.workersAt WorkerPc.unassignedHeld ∧
      s.inFlight = s.queued + s.callsAt EnqPc.inFlightOwed + s.workersAt WorkerPc.inFlightHeld ∧
      0 ≤ s.unassigned ∧ 0 ≤ s.inFlight := by
  obtain ⟨s, hs, h⟩ := exists_reachable_of_run [true] 1 0
    (List.replicate 6 (.producer 0))
    (fun s => s.queued == 0 && s.callsAt EnqPc.unassignedOwed == 1) (by decide)
  simp only [Bool.and_eq_true, beq_iff_eq] at h
  exact ⟨s, hs, h.1, h.2, counters_eq hs⟩

theorem callsAt_unassignedOwed (s : Pool) :
    s.callsAt EnqPc.unassignedOwed = s.callsAt EnqPc.inFlightOwed + s.callsAt EnqPc.betweenAdds := by
  have e : EnqPc.unassignedOwed = fun e => e.inFlightOwed + e.betweenAdds :=
    funext unassignedOwed_eq
  simp only [Pool.callsAt, e, countIn_add]
  ring

/-- `m_unassigned_tasks` is never negative, and exceeds `m_in_flight_tasks` by at most the number
of `EnqueueTask` calls between their two `fetch_add`s. -/
theorem unassigned_le_inFlight_add {s : Pool} (h : Reachable s) :
    0 ≤ s.unassigned ∧ s.unassigned ≤ s.inFlight + s.callsAt EnqPc.betweenAdds := by
  obtain ⟨hu, hf⟩ := h.ledger
  have hw : s.workersAt WorkerPc.unassignedHeld ≤ s.workersAt WorkerPc.inFlightHeld :=
    countIn_mono unassignedHeld_le
  have hc := callsAt_unassignedOwed s
  omega

/-- A producer between its two `fetch_add`s: the bound holds with the call counted. -/
theorem unassigned_le_inFlight_add_between :
    ∃ s, Reachable s ∧ s.callsAt EnqPc.betweenAdds = 1 ∧
      0 ≤ s.unassigned ∧ s.unassigned ≤ s.inFlight + s.callsAt EnqPc.betweenAdds := by
  obtain ⟨s, hs, h⟩ := exists_reachable_of_run [true] 1 0
    (List.replicate 4 (.producer 0)) (fun s => s.callsAt EnqPc.betweenAdds == 1)
    (by decide)
  exact ⟨s, hs, by simpa using h, unassigned_le_inFlight_add hs⟩

/-- One producer, stopped between its two `fetch_add`s: `m_unassigned_tasks` is `1` while
`m_in_flight_tasks` is still `0`. -/
theorem unassigned_gt_inFlight : ∃ s, Reachable s ∧ s.inFlight < s.unassigned := by
  obtain ⟨s, hs, h⟩ := exists_reachable_of_run [true] 1 0
    (List.replicate 4 (.producer 0)) (fun s => s.inFlight < s.unassigned) (by decide)
  exact ⟨s, hs, by simpa using h⟩

end SsLogger.ThreadPool
