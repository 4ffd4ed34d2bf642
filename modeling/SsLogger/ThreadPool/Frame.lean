import SsLogger.ThreadPool.Model
import Mathlib.Algebra.Order.BigOperators.Group.Finset
import Mathlib.Tactic.Ring

set_option autoImplicit false

/-! # What a step leaves alone, and counting over threads

Every step keeps the numbers of workers, producers and waiters. The accounting invariants count
threads at given places: a sum over indices of a `0`/`1` weight of each place. A step changes
one index of one per-thread function, and `cast_sum_update` says how such a sum moves. -/

namespace SsLogger.ThreadPool

open SsLogger.ThreadSafeQueue Function Finset

/-! ## Counting over indices -/

/-- The weights `P` of `f 0, …, f (n-1)`, added up. -/
def countIn {α : Type} (n : ℕ) (f : ℕ → α) (P : α → ℕ) : ℕ := ∑ j ∈ range n, P (f j)

/-- Changing one entry `i < n` of `f` changes the count by the difference of the weights. -/
theorem countIn_update {α : Type} {n i : ℕ} (hi : i < n) (f : ℕ → α) (a : α) (P : α → ℕ) :
    (countIn n (update f i a) P : ℤ) = countIn n f P - P (f i) + P a := by
  have e : ∀ j, P (update f i a j) = update (fun k => P (f k)) i (P a) j :=
    fun j => apply_update (fun _ => P) f i a j
  have hmem := mem_range.2 hi
  simp only [countIn, e, sum_update_of_mem hmem, ← add_sum_erase _ _ hmem,
    sdiff_singleton_eq_erase]
  push_cast
  omega

/-- `countIn_update` at an index taken modulo `n`, as `StealTask` takes it. -/
theorem countIn_update_mod {α : Type} {n : ℕ} (hn : 0 < n) (a : ℕ) (f : ℕ → α) (x : α)
    (P : α → ℕ) :
    (countIn n (update f (a % n) x) P : ℤ) = countIn n f P - P (f (a % n)) + P x :=
  countIn_update (Nat.mod_lt a hn) f x P

/-- A count bounds the weight of each of its entries. -/
theorem le_countIn {α : Type} {n i : ℕ} (hi : i < n) (f : ℕ → α) (P : α → ℕ) :
    P (f i) ≤ countIn n f P :=
  single_le_sum (f := fun j => P (f j)) (fun _ _ => Nat.zero_le _) (mem_range.2 hi)

/-- A count is zero when every entry weighs zero. -/
theorem countIn_eq_zero {α : Type} {n : ℕ} {f : ℕ → α} {P : α → ℕ}
    (h : ∀ j < n, P (f j) = 0) : countIn n f P = 0 :=
  sum_eq_zero fun j hj => h j (mem_range.1 hj)

theorem countIn_add {α : Type} (n : ℕ) (f : ℕ → α) (P Q : α → ℕ) :
    countIn n f (fun a => P a + Q a) = countIn n f P + countIn n f Q :=
  sum_add_distrib

theorem countIn_mono {α : Type} {n : ℕ} {f : ℕ → α} {P Q : α → ℕ} (h : ∀ a, P a ≤ Q a) :
    countIn n f P ≤ countIn n f Q :=
  sum_le_sum fun j _ => h (f j)

/-- The tasks in the workers' queues. -/
def Pool.queued (s : Pool) : ℕ := countIn s.size s.deques List.length

/-- The `EnqueueTask` calls, by producers and by running tasks, weighted by `P` of their place. -/
def Pool.callsAt (s : Pool) (P : EnqPc → ℕ) : ℕ :=
  countIn s.nprods s.prods P + countIn s.size s.nested P

/-- The workers, weighted by `P` of their place. -/
def Pool.workersAt (s : Pool) (P : WorkerPc → ℕ) : ℕ := countIn s.size s.workers P

/-! ## Frame of a step -/

/-- The fields `enqStep` never writes. -/
@[simp] theorem enqStep_frame (s : Pool) (e : EnqPc) :
    (enqStep s e).1.size = s.size ∧ (enqStep s e).1.nprods = s.nprods ∧
      (enqStep s e).1.nwaiters = s.nwaiters ∧ (enqStep s e).1.workers = s.workers ∧
      (enqStep s e).1.nested = s.nested ∧ (enqStep s e).1.prods = s.prods ∧
      (enqStep s e).1.waiters = s.waiters ∧ (enqStep s e).1.dtor = s.dtor ∧
      (enqStep s e).1.stops = s.stops ∧ (enqStep s e).1.executed = s.executed ∧
      (enqStep s e).1.next = s.next ∧ (enqStep s e).1.spurious = s.spurious := by
  unfold enqStep
  split <;> (try split) <;> simp

/-- A waiter moves only itself and the notifications and wake-ups, and enters `wait(false)` only
after loading a positive `m_in_flight_tasks`. -/
theorem step_waiter_eq {s s' : Pool} {q : ℕ} (h : step s (.waiter q) = some s') :
    ∃ c ns n, s' = { s with waiters := update s.waiters q c, notes := ns, spurious := n } ∧
      (c ≠ .idle → s.waiters q = .idle → 0 < s.inFlight) := by
  have hq : q < s.nwaiters := by
    by_contra hq
    simp [step, hq] at h
  simp only [step, hq, if_true, waiterStep] at h
  cases hw : s.waiters q <;> simp only [hw] at h
  case idle =>
    split_ifs at h with hd hf <;> cases h
    · exact ⟨_, _, _, rfl, fun _ _ => hf⟩
    · exact ⟨_, _, _, rfl, fun hc => absurd rfl hc⟩
  all_goals cases h; exact ⟨_, _, _, rfl, fun _ h => by simp at h⟩

/-- The destructor's step touches no queue, counter or call. -/
theorem step_dtor_frame {s s' : Pool} (h : step s .dtor = some s') :
    s'.ring = s.ring ∧ s'.deques = s.deques ∧ s'.unassigned = s.unassigned ∧
      s'.inFlight = s.inFlight ∧ s'.flag = s.flag ∧ s'.workers = s.workers ∧
      s'.prods = s.prods ∧ s'.nested = s.nested ∧ s'.executed = s.executed ∧
      s'.waiters = s.waiters ∧ s'.next = s.next ∧ s'.dropped = s.dropped := by
  simp only [step, dtorStep] at h
  (repeat' split at h) <;> cases h <;> simp

/-- The destructor only raises signal counts. -/
theorem step_dtor_sems {s s' : Pool} (h : step s .dtor = some s') (i : ℕ) :
    s.sems i ≤ s'.sems i := by
  simp only [step, dtorStep] at h
  (repeat' split at h) <;> cases h <;> try exact le_rfl
  -- `StopAllThreads`' `release()`
  show s.sems i ≤ update s.sems _ _ i
  rw [update_apply]
  split_ifs with e
  · subst e; omega
  · exact le_rfl

/-! ## Callers of `EnqueueTask` -/

/-- A thread that can be inside `EnqueueTask`: a producer, or the task a worker runs. -/
inductive Caller where
  | producer (p : ℕ)
  | task (w : ℕ)
  deriving DecidableEq

/-- The caller's thread exists. -/
def Pool.IsCaller (s : Pool) : Caller → Prop
  | .producer p => p < s.nprods
  | .task w => w < s.size

/-- The caller's place in `EnqueueTask`. -/
def Pool.callPc (s : Pool) : Caller → EnqPc
  | .producer p => s.prods p
  | .task w => s.nested w

/-- Move the caller to place `e`. -/
def Pool.setCall (s : Pool) : Caller → EnqPc → Pool
  | .producer p, e => { s with prods := update s.prods p e }
  | .task w, e => { s with nested := update s.nested w e }

/-- The step of the caller's thread. -/
def Caller.act : Caller → Act
  | .producer p => .producer p
  | .task w => .task w

/-- Moving one caller leaves everything but the calls. -/
@[simp] theorem setCall_frame (s : Pool) (c : Caller) (e : EnqPc) :
    (s.setCall c e).size = s.size ∧ (s.setCall c e).nprods = s.nprods ∧
      (s.setCall c e).nwaiters = s.nwaiters ∧ (s.setCall c e).waiters = s.waiters ∧
      (s.setCall c e).ring = s.ring ∧ (s.setCall c e).deques = s.deques ∧
      (s.setCall c e).sems = s.sems ∧ (s.setCall c e).unassigned = s.unassigned ∧
      (s.setCall c e).inFlight = s.inFlight ∧ (s.setCall c e).flag = s.flag ∧
      (s.setCall c e).workers = s.workers ∧ (s.setCall c e).dtor = s.dtor ∧
      (s.setCall c e).executed = s.executed ∧ (s.setCall c e).dropped = s.dropped := by
  cases c <;> simp [Pool.setCall]

theorem callPc_setCall (s : Pool) (c : Caller) (e : EnqPc) (c' : Caller) :
    (s.setCall c e).callPc c' = if c' = c then e else s.callPc c' := by
  cases c <;> cases c' <;> simp [Pool.setCall, Pool.callPc, update_apply]

@[simp] theorem isCaller_setCall (s : Pool) (c : Caller) (e : EnqPc) (c' : Caller) :
    (s.setCall c e).IsCaller c' ↔ s.IsCaller c' := by
  cases c <;> cases c' <;> rfl

/-- `enqStep` leaves the calls as they were; only the stepping caller moves, by `setCall`. -/
@[simp] theorem callPc_enqStep (s : Pool) (e : EnqPc) (c : Caller) :
    (enqStep s e).1.callPc c = s.callPc c := by
  cases c <;> simp [Pool.callPc, enqStep_frame]

@[simp] theorem isCaller_enqStep (s : Pool) (e : EnqPc) (c : Caller) :
    (enqStep s e).1.IsCaller c ↔ s.IsCaller c := by
  cases c <;> simp [Pool.IsCaller, enqStep_frame]

@[simp] theorem callsAt_enqStep (s : Pool) (e : EnqPc) (P : EnqPc → ℕ) :
    (enqStep s e).1.callsAt P = s.callsAt P := by
  simp [Pool.callsAt, enqStep_frame]

@[simp] theorem callsAt_setNext (s : Pool) (n : ℕ) (P : EnqPc → ℕ) :
    ({ s with next := n } : Pool).callsAt P = s.callsAt P := rfl

@[simp] theorem callPc_setNext (s : Pool) (n : ℕ) (c : Caller) :
    ({ s with next := n } : Pool).callPc c = s.callPc c := by
  cases c <;> rfl

@[simp] theorem isCaller_setNext (s : Pool) (n : ℕ) (c : Caller) :
    ({ s with next := n } : Pool).IsCaller c ↔ s.IsCaller c := by
  cases c <;> rfl

@[simp] theorem queued_setCall (s : Pool) (c : Caller) (e : EnqPc) :
    (s.setCall c e).queued = s.queued := by
  cases c <;> rfl

@[simp] theorem workersAt_setCall (s : Pool) (c : Caller) (e : EnqPc) (P : WorkerPc → ℕ) :
    (s.setCall c e).workersAt P = s.workersAt P := by
  cases c <;> rfl

@[simp] theorem queued_setNext (s : Pool) (n : ℕ) : ({ s with next := n } : Pool).queued = s.queued :=
  rfl

@[simp] theorem workersAt_setNext (s : Pool) (n : ℕ) (P : WorkerPc → ℕ) :
    ({ s with next := n } : Pool).workersAt P = s.workersAt P := rfl

@[simp] theorem workersAt_enqStep (s : Pool) (e : EnqPc) (P : WorkerPc → ℕ) :
    (enqStep s e).1.workersAt P = s.workersAt P := by
  simp [Pool.workersAt, enqStep_frame]

theorem callPc_eq_of {s s' : Pool} (hp : s'.prods = s.prods) (hn : s'.nested = s.nested) :
    s'.callPc = s.callPc := by
  funext c; cases c <;> simp [Pool.callPc, hp, hn]

theorem isCaller_iff_of {s s' : Pool} (hsize : s'.size = s.size) (hnp : s'.nprods = s.nprods)
    (c : Caller) : s'.IsCaller c ↔ s.IsCaller c := by
  cases c <;> simp [Pool.IsCaller, hsize, hnp]

/-- Moving one caller changes a count of calls by the difference of its weights. -/
theorem callsAt_setCall (s : Pool) (P : EnqPc → ℕ) {c : Caller} (hc : s.IsCaller c)
    (e : EnqPc) :
    (((s.setCall c e).callsAt P : ℕ) : ℤ) = s.callsAt P - P (s.callPc c) + P e := by
  cases c with
  | producer p =>
    simp only [Pool.callsAt, Pool.setCall, Pool.callPc, Nat.cast_add, countIn_update hc]
    ring
  | task w =>
    simp only [Pool.callsAt, Pool.setCall, Pool.callPc, Nat.cast_add, countIn_update hc]
    ring

/-- A count of calls bounds the weight of each caller's place. -/
theorem le_callsAt {s : Pool} {c : Caller} (hc : s.IsCaller c) (P : EnqPc → ℕ) :
    P (s.callPc c) ≤ s.callsAt P := by
  cases c with
  | producer p => exact (le_countIn hc s.prods P).trans (Nat.le_add_right _ _)
  | task w => exact (le_countIn hc s.nested P).trans (Nat.le_add_left _ _)

/-- A task's `Enqueue` runs only while its worker is inside `std::invoke`. -/
theorem step_task_invoke {s s' : Pool} {w : ℕ} (h : step s (.task w) = some s') :
    ∃ t r, s.workers w = .invoke t r := by
  simp only [step, taskStep] at h
  split at h
  · split at h
    · exact ⟨_, _, ‹_›⟩
    · cases h
  · cases h

/-- What the step of a caller does: a call starts and takes the next task number, or the call
takes the step `enqStep` gives. -/
theorem step_call {s s' : Pool} {c : Caller} (h : step s c.act = some s') :
    s.IsCaller c ∧
      ((s.callPc c = .idle ∧ s' = ({ s with next := s.next + 1 } : Pool).setCall c (.popRing s.next)) ∨
        (s.callPc c ≠ .idle ∧
          s' = (enqStep s (s.callPc c)).1.setCall c (enqStep s (s.callPc c)).2)) := by
  have frame := enqStep_frame s (s.callPc c)
  cases c with
  | producer p =>
    simp only [Caller.act, step, producerStep] at h
    split at h
    · refine ⟨‹_›, ?_⟩
      split_ifs at h with h1 h2
      · cases h; exact .inl ⟨h1, rfl⟩
      · exact .inr ⟨h1, by cases h; simp [Pool.setCall, Pool.callPc, frame]⟩
    · cases h
  | task w =>
    simp only [Caller.act, step, taskStep] at h
    split at h
    · refine ⟨‹_›, ?_⟩
      split at h
      · split_ifs at h with h1
        · cases h; exact .inl ⟨h1, rfl⟩
        · exact .inr ⟨h1, by cases h; simp [Pool.setCall, Pool.callPc, frame]⟩
      · cases h
    · cases h

/-! ## What a worker's step does -/

/-- The transitions of worker `w` through `ThreadLoop`, `ProcessTasks`, `StealTask`,
`ExecuteTask` and `SignalCompletion`, each with its guard and the state it leads to. -/
inductive WorkerMove (s : Pool) (w : ℕ) : Pool → Prop
  | acquire (hpc : s.workers w = .acquire) (h0 : 0 < s.sems w) :
      WorkerMove s w { s with sems := update s.sems w (s.sems w - 1),
                              workers := update s.workers w .popOwn }
  | popOwn (t : ℕ) (q : List ℕ) (hpc : s.workers w = .popOwn) (hq : s.deques w = t :: q) :
      WorkerMove s w { s with deques := update s.deques w q, executed := s.executed ++ [t],
                              workers := update s.workers w (.subUnassigned t .ownQueue) }
  | ownEmpty (hpc : s.workers w = .popOwn) (hq : s.deques w = []) :
      WorkerMove s w { s with workers := update s.workers w (.steal 1) }
  | steal (j t : ℕ) (q : List ℕ) (hpc : s.workers w = .steal j) (hj : j < s.size)
      (hq : s.deques ((w + j) % s.size) = q ++ [t]) :
      WorkerMove s w { s with deques := update s.deques ((w + j) % s.size) q,
                              executed := s.executed ++ [t],
                              workers := update s.workers w (.subUnassigned t .afterSteal) }
  | stealEmpty (j : ℕ) (hpc : s.workers w = .steal j) (hj : j < s.size)
      (hq : s.deques ((w + j) % s.size) = []) :
      WorkerMove s w { s with workers := update s.workers w (.steal (j + 1)) }
  | stealDone (j : ℕ) (hpc : s.workers w = .steal j) (hj : s.size ≤ j) :
      WorkerMove s w { s with workers := update s.workers w .checkUnassigned }
  | subUnassigned (t : ℕ) (r : Resume) (hpc : s.workers w = .subUnassigned t r) :
      WorkerMove s w { s with unassigned := s.unassigned - 1,
                              workers := update s.workers w (.invoke t r) }
  | invoke (t : ℕ) (r : Resume) (hpc : s.workers w = .invoke t r) (hn : s.nested w = .idle) :
      WorkerMove s w { s with workers := update s.workers w (.subInFlight t r) }
  | subInFlight (t : ℕ) (r : Resume) (hpc : s.workers w = .subInFlight t r) :
      WorkerMove s w { s with inFlight := s.inFlight - 1, workers := update s.workers w r.pc }
  | checkUnassigned (hpc : s.workers w = .checkUnassigned) :
      WorkerMove s w { s with workers := update s.workers w
                                (if 0 < s.unassigned then .popOwn else .loadInFlight) }
  | loadInFlight (hpc : s.workers w = .loadInFlight) :
      WorkerMove s w { s with workers := update s.workers w
                                (if s.inFlight = 0 then .storeTrue else .checkStop) }
  | storeTrue (hpc : s.workers w = .storeTrue) :
      WorkerMove s w { s with flag := true, stores := s.stores + 1, notes := s.notes ++ [s.stores + 1],
                              workers := update s.workers w .checkStop }
  | checkStop (hpc : s.workers w = .checkStop) :
      WorkerMove s w { s with workers := update s.workers w
                                (if s.stops w then .exited else .acquire) }

/-- Every step of a worker is one of its moves. -/
theorem step_worker {s s' : Pool} {w : ℕ} (h : step s (.worker w) = some s') :
    w < s.size ∧ WorkerMove s w s' := by
  have hw : w < s.size := by
    by_contra hw
    simp [step, hw] at h
  refine ⟨hw, ?_⟩
  simp only [step, hw, if_true, workerStep] at h
  cases hpc : s.workers w <;> simp only [hpc] at h
  case acquire =>
    split_ifs at h with h0
    cases h
    exact .acquire hpc h0
  case popOwn =>
    cases hq : s.deques w <;> simp only [hq, popFront_nil, popFront_cons] at h <;> cases h
    · exact .ownEmpty hpc hq
    · exact .popOwn _ _ hpc hq
  case steal j =>
    split_ifs at h with hj
    · split at h <;> rename_i hb <;> cases h
      · exact .steal j _ _ hpc hj (popBack_eq_some.1 hb)
      · exact .stealEmpty j hpc hj (popBack_eq_none.1 hb)
    · cases h
      exact .stealDone j hpc (by omega)
  case subUnassigned t r => cases h; exact .subUnassigned t r hpc
  case invoke t r =>
    split_ifs at h with hn
    cases h
    exact .invoke t r hpc hn
  case subInFlight t r => cases h; exact .subInFlight t r hpc
  case checkUnassigned => cases h; exact .checkUnassigned hpc
  case loadInFlight => cases h; exact .loadInFlight hpc
  case storeTrue => cases h; exact .storeTrue hpc
  case checkStop => cases h; exact .checkStop hpc
  case exited => cases h

/-- Every move of an existing worker is a step. -/
theorem step_of_workerMove {s s' : Pool} {w : ℕ} (hw : w < s.size) (h : WorkerMove s w s') :
    step s (.worker w) = some s' := by
  cases h
  case steal j t q hpc hj hq => simp [step, workerStep, hw, hpc, hj, popBack_eq_some.2 hq]
  case stealEmpty j hpc hj hq => simp [step, workerStep, hw, hpc, hj, popBack_eq_none.2 hq]
  all_goals simp_all [step, workerStep]

/-- A worker's step touches neither the ring nor any `EnqueueTask` call. -/
theorem step_worker_frame {s s' : Pool} {w : ℕ} (h : step s (.worker w) = some s') :
    w < s.size ∧ s'.ring = s.ring ∧ s'.prods = s.prods ∧ s'.nested = s.nested ∧
      s'.dtor = s.dtor ∧ s'.next = s.next ∧ s'.dropped = s.dropped ∧
      s'.size = s.size ∧ s'.nprods = s.nprods ∧ s'.nwaiters = s.nwaiters := by
  obtain ⟨hw, hm⟩ := step_worker h
  cases hm <;> exact ⟨hw, rfl, rfl, rfl, rfl, rfl, rfl, rfl, rfl, rfl⟩

/-- The numbers of threads stay as the constructor and the run's setting made them. -/
theorem step_shape {s s' : Pool} {a : Act} (h : step s a = some s') :
    s'.size = s.size ∧ s'.nprods = s.nprods ∧ s'.nwaiters = s.nwaiters := by
  cases a with
  | producer p =>
    obtain ⟨-, ⟨-, rfl⟩ | ⟨-, rfl⟩⟩ := step_call (c := .producer p) h <;> simp
  | task w =>
    obtain ⟨-, ⟨-, rfl⟩ | ⟨-, rfl⟩⟩ := step_call (c := .task w) h <;> simp
  | worker w => exact (step_worker_frame h).2.2.2.2.2.2.2
  | waiter q =>
    obtain ⟨c, ns, n, rfl, -⟩ := step_waiter_eq h
    exact ⟨rfl, rfl, rfl⟩
  | dtor =>
    simp only [step, dtorStep] at h
    (repeat' split at h) <;> cases h <;> exact ⟨rfl, rfl, rfl⟩

end SsLogger.ThreadPool
