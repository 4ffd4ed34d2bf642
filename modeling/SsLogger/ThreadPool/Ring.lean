import SsLogger.ThreadPool.Frame

set_option autoImplicit false

/-! # The ring of worker indices

`m_priority_queue` is a rotating cursor over the worker indices. `EnqueueTask` rotates it in two
steps (`PopFront`, then `PushBack`), so while a call sits between the two, its index is in no
queue. The invariant `RingInv`: the ring's entries together with the indices held by calls
between the two steps are exactly `0, …, size-1`, each once. Every index a call takes is
therefore below `size`, and so is every index any thread uses in `m_tasks[i]`
(`indexUsed_lt`).

The ring can still be empty: with `size` callers between their two steps, a further caller's
`PopFront` finds nothing, and that `EnqueueTask` returns without pushing its task
(`enqueueTask_drops_task`). -/

namespace SsLogger.ThreadPool

open SsLogger.ThreadSafeQueue Function Finset

/-! ## Indices held by calls -/

/-- The index a call holds between the ring's `PopFront` and its `PushBack`. -/
def EnqPc.ringHeld : EnqPc → Option ℕ
  | .pushRing _ i => some i
  | _ => none

/-- The worker index a call has taken from the ring, from its `PopFront` on. -/
def EnqPc.index? : EnqPc → Option ℕ
  | .idle | .popRing _ => none
  | .pushRing _ i | .addUnassigned _ i | .addInFlight _ i | .storeFalse _ i | .pushTask _ i
  | .release _ i => some i

/-- `1` for a call holding index `x` between the ring's two steps. -/
def heldWeight (x : ℕ) (e : EnqPc) : ℕ := if e.ringHeld = some x then 1 else 0

/-- The indices held between the ring's two steps, producers first. -/
def Pool.ringHeld (s : Pool) : List ℕ :=
  (List.range s.nprods).filterMap (fun p => (s.prods p).ringHeld) ++
    (List.range s.size).filterMap (fun w => (s.nested w).ringHeld)

theorem count_filterMap_range (f : ℕ → EnqPc) (n x : ℕ) :
    ((List.range n).filterMap (fun i => (f i).ringHeld)).count x = countIn n f (heldWeight x) := by
  induction n with
  | zero => rfl
  | succ n ih =>
    rw [List.range_succ, List.filterMap_append, List.count_append, ih, countIn, countIn,
      sum_range_succ]
    cases h : (f n).ringHeld <;> simp [heldWeight, h, List.count_singleton]

theorem count_ringHeld (s : Pool) (x : ℕ) : s.ringHeld.count x = s.callsAt (heldWeight x) := by
  simp [Pool.ringHeld, Pool.callsAt, count_filterMap_range]

/-! ## One step of a call -/

/-- `enqStep` moves an index between the ring and the call, and loses none. -/
theorem enqStep_ring_count (s : Pool) (e : EnqPc) (x : ℕ) :
    (enqStep s e).1.ring.count x + heldWeight x (enqStep s e).2 =
      s.ring.count x + heldWeight x e := by
  cases e with
  | popRing t =>
    cases hr : s.ring with
    | nil => simp [enqStep, hr, heldWeight, EnqPc.ringHeld]
    | cons i q =>
      simp only [enqStep, hr, popFront_cons, heldWeight, EnqPc.ringHeld, List.count_cons]
      split_ifs <;> simp_all
  | pushRing t i =>
    simp only [enqStep, pushBack, List.count_append, List.count_singleton, heldWeight,
      EnqPc.ringHeld]
    split_ifs <;> simp_all
  | addInFlight t i => simp only [enqStep]; split_ifs <;> simp [heldWeight, EnqPc.ringHeld]
  | _ => simp [enqStep, heldWeight, EnqPc.ringHeld]

/-- A call keeps the index it took, and takes it from the ring. -/
theorem enqStep_index {s : Pool} {e : EnqPc} {n : ℕ} (hring : ∀ i ∈ s.ring, i < n)
    (he : ∀ i, e.index? = some i → i < n) :
    ∀ i, (enqStep s e).2.index? = some i → i < n := by
  cases e with
  | popRing t =>
    cases hr : s.ring with
    | nil => simp [enqStep, hr, EnqPc.index?]
    | cons j q =>
      simp only [enqStep, hr, popFront_cons, EnqPc.index?, Option.some.injEq]
      rintro _ rfl
      exact hring j (by simp [hr])
  | addInFlight t i =>
    simp only [enqStep]
    split_ifs <;> simpa [EnqPc.index?] using he
  | idle | release _ _ => simp [enqStep, EnqPc.index?]
  | _ => simpa [enqStep, EnqPc.index?] using he

/-! ## The invariant -/

/-- Each index below `size` is in the ring or held by a call, once; every index a call or the
destructor has taken is below `size`. -/
structure RingInv (s : Pool) : Prop where
  count : ∀ x, s.ring.count x + s.callsAt (heldWeight x) = if x < s.size then 1 else 0
  calls : ∀ c, s.IsCaller c → ∀ i, (s.callPc c).index? = some i → i < s.size
  dtor : ∀ i, (s.dtor = .release i ∨ s.dtor = .join i) → i < s.size

theorem RingInv.ring_lt {s : Pool} (h : RingInv s) : ∀ i ∈ s.ring, i < s.size := by
  intro i hi
  have := h.count i
  have hc : 0 < s.ring.count i := List.count_pos_iff.2 hi
  split_ifs at this with hlt
  · exact hlt
  · omega

theorem ringInv_init (b : Built) (hb : b.ring = List.range b.tasks) (nprods nwaiters : ℕ) :
    RingInv (Pool.init b nprods nwaiters) := by
  refine ⟨fun x => ?_, fun c _ i => ?_, fun i => ?_⟩
  · simp [Pool.init, hb, Pool.callsAt, countIn, heldWeight, EnqPc.ringHeld,
      List.count_eq_of_nodup (List.nodup_range _)]
  · cases c <;> simp [Pool.init, Pool.callPc, EnqPc.index?]
  · simp [Pool.init]

/-- A caller's step keeps `RingInv`. -/
theorem RingInv.call {s s' : Pool} (c : Caller) (h : RingInv s) (hs : step s c.act = some s') :
    RingInv s' := by
  obtain ⟨hc, ⟨hidle, rfl⟩ | ⟨-, rfl⟩⟩ := step_call hs
  · refine ⟨fun x => ?_, fun c' hc' i => ?_, by simpa using h.dtor⟩
    · have h1 := callsAt_setCall { s with next := s.next + 1 } (heldWeight x) hc
        (.popRing s.next)
      have h2 := h.count x
      simp only [callsAt_setNext, callPc_setNext, setCall_frame, hidle, heldWeight,
        EnqPc.ringHeld] at h1 h2 ⊢
      omega
    · simp only [callPc_setCall, callPc_setNext, isCaller_setCall, isCaller_setNext,
        setCall_frame] at hc' ⊢
      split_ifs
      · simp [EnqPc.index?]
      · exact h.calls c' hc' i
  · refine ⟨fun x => ?_, fun c' hc' i => ?_, by simpa using h.dtor⟩
    · have h1 := callsAt_setCall (enqStep s (s.callPc c)).1 (heldWeight x)
        ((isCaller_enqStep _ _ _).2 hc) (enqStep s (s.callPc c)).2
      have h2 := h.count x
      have h3 := enqStep_ring_count s (s.callPc c) x
      simp only [callsAt_enqStep, callPc_enqStep, setCall_frame, enqStep_frame] at h1 ⊢
      omega
    · simp only [callPc_setCall, callPc_enqStep, isCaller_setCall, isCaller_enqStep,
        setCall_frame, enqStep_frame] at hc' ⊢
      split_ifs with e
      · subst e
        exact enqStep_index h.ring_lt (h.calls c' hc) i
      · exact h.calls c' hc' i

/-- States that agree on the ring, the calls and the destructor agree on `RingInv`. -/
theorem RingInv.of_eq {s s' : Pool} (h : RingInv s) (hsize : s'.size = s.size)
    (hnp : s'.nprods = s.nprods) (hring : s'.ring = s.ring) (hprods : s'.prods = s.prods)
    (hnested : s'.nested = s.nested)
    (hdtor : ∀ i, (s'.dtor = .release i ∨ s'.dtor = .join i) → i < s.size) : RingInv s' := by
  have hcalls : ∀ P, s'.callsAt P = s.callsAt P := by simp [Pool.callsAt, hsize, hnp, hprods, hnested]
  have hpc : ∀ c, s'.callPc c = s.callPc c := by intro c; cases c <;> simp [Pool.callPc, hprods, hnested]
  have his : ∀ c, s'.IsCaller c ↔ s.IsCaller c := by intro c; cases c <;> simp [Pool.IsCaller, hsize, hnp]
  refine ⟨fun x => ?_, fun c hc i => ?_, fun i hi => ?_⟩
  · rw [hcalls, hring, hsize]; exact h.count x
  · rw [hpc, hsize]; exact h.calls c ((his c).1 hc) i
  · rw [hsize]; exact hdtor i hi

/-- The destructor takes its indices from `i < m_threads.size()`. -/
theorem step_dtor_index {s s' : Pool} (h : step s .dtor = some s')
    (hd : ∀ i, (s.dtor = .release i ∨ s.dtor = .join i) → i < s.size) :
    ∀ i, (s'.dtor = .release i ∨ s'.dtor = .join i) → i < s.size := by
  simp only [step, dtorStep] at h
  split at h <;> (try split_ifs at h) <;> cases h <;> simp_all

theorem RingInv.step {s s' : Pool} {a : Act} (h : RingInv s) (hs : step s a = some s') :
    RingInv s' := by
  obtain ⟨hsize, hnp, -⟩ := step_shape hs
  cases a with
  | producer p => exact h.call (.producer p) hs
  | task w => exact h.call (.task w) hs
  | worker w =>
    obtain ⟨-, hring, hprods, hnested, hdtor, -⟩ := step_worker_frame hs
    exact h.of_eq hsize hnp hring hprods hnested (by rw [hdtor]; exact h.dtor)
  | waiter q =>
    obtain ⟨c, ns, n, rfl, -⟩ := step_waiter_eq hs
    exact h.of_eq rfl rfl rfl rfl rfl h.dtor
  | dtor =>
    obtain ⟨hring, -, -, -, -, -, hprods, hnested, -⟩ := step_dtor_frame hs
    exact h.of_eq hsize hnp hring hprods hnested (step_dtor_index hs h.dtor)

theorem Reachable.ringInv {s : Pool} (h : Reachable s) : RingInv s := by
  induction h with
  | init spawns nprods nwaiters =>
    exact ringInv_init _ (by simp [initializeThreads_eq]) nprods nwaiters
  | step a _ hs ih => exact ih.step hs

/-! ## Every `m_tasks[i]` is in range -/

/-- The index of `m_tasks` a call uses: at its `PushBack` and its `release()`. -/
def EnqPc.taskIndex? : EnqPc → Option ℕ
  | .pushTask _ i | .release _ i => some i
  | _ => none

/-- The `i` of the `m_tasks[i]` the thread's next step uses, if it uses one: a call's push and
release, a worker's `acquire` and own-queue `PopFront`, `StealTask`'s `PopBack`, and the
`release()` of `StopAllThreads`. -/
def Pool.indexUsed (s : Pool) : Act → Option ℕ
  | .producer p => if p < s.nprods then (s.prods p).taskIndex? else none
  | .task w => if w < s.size then (s.nested w).taskIndex? else none
  | .worker w =>
    if w < s.size then
      match s.workers w with
      | .acquire | .popOwn => some w
      | .steal j => if j < s.size then some ((w + j) % s.size) else none
      | _ => none
    else none
  | .waiter _ => none
  | .dtor => match s.dtor with
    | .release i => some i
    | _ => none

theorem taskIndex_index {e : EnqPc} {i : ℕ} (h : e.taskIndex? = some i) : e.index? = some i := by
  cases e <;> simp_all [EnqPc.taskIndex?, EnqPc.index?]

theorem RingInv.indexUsed_lt {s : Pool} (h : RingInv s) (a : Act) (i : ℕ)
    (hi : s.indexUsed a = some i) : i < s.size := by
  cases a with
  | producer p =>
    simp only [Pool.indexUsed] at hi
    split_ifs at hi with hp
    exact h.calls (.producer p) hp i (taskIndex_index hi)
  | task w =>
    simp only [Pool.indexUsed] at hi
    split_ifs at hi with hw
    exact h.calls (.task w) hw i (taskIndex_index hi)
  | worker w =>
    simp only [Pool.indexUsed] at hi
    split_ifs at hi with hw
    split at hi <;> (try split_ifs at hi) <;> cases hi
    all_goals first | exact hw | exact Nat.mod_lt _ (by omega)
  | waiter q => cases hi
  | dtor =>
    simp only [Pool.indexUsed] at hi
    split at hi <;> cases hi
    exact h.dtor i (.inl ‹_›)

/-- `InitializeThreads` leaves `s` threads running `ThreadLoop(0)`, …, `ThreadLoop(s-1)`, `s`
task items and the ring `[0, …, s-1]`, `s` the number of spawns that succeeded; and in every
reachable state the ring's entries with the indices held between the ring's `PopFront` and
`PushBack` are a permutation of `0, …, s-1`, and every `m_tasks[i]` a thread uses has
`i < m_tasks.size()`. -/
theorem ring_permutation_and_indices (spawns : List Bool) :
    initializeThreads spawns =
      ⟨List.range (spawns.count true), spawns.count true, List.range (spawns.count true),
        spawns.count true⟩ ∧
    ∀ s, Reachable s →
      (s.ring ++ s.ringHeld).Perm (List.range s.size) ∧
        ∀ a i, s.indexUsed a = some i → i < s.size := by
  refine ⟨initializeThreads_eq spawns, fun s hs => ⟨?_, hs.ringInv.indexUsed_lt⟩⟩
  rw [List.perm_iff_count]
  intro x
  rw [List.count_append, count_ringHeld, (hs.ringInv).count x,
    List.count_eq_of_nodup (List.nodup_range _)]
  simp

/-- Two workers of three requested, and a producer between the ring's `PopFront` and `PushBack`:
the call holds index `0`, and the ring is `[1]`. -/
theorem ring_permutation_mid_rotation :
    ∃ s, Reachable s ∧ s.size = 2 ∧ s.ring = [1] ∧ s.ringHeld = [0] ∧
      (s.ring ++ s.ringHeld).Perm (List.range s.size) ∧
      ∀ a i, s.indexUsed a = some i → i < s.size := by
  obtain ⟨s, hs, h⟩ := exists_reachable_of_run [true, false, true] 1 0
    [.producer 0, .producer 0]
    (fun s => s.size == 2 && s.ring == [1] && s.ringHeld == [0]) (by decide)
  simp only [Bool.and_eq_true, beq_iff_eq] at h
  exact ⟨s, hs, h.1.1, h.1.2, h.2, (ring_permutation_and_indices [true, false, true]).2 s hs⟩

/-- With one worker and two producers, the second producer's `CopyFrontAndRotateToBack` runs
between the first one's `PopFront` and `PushBack`, finds the ring empty, and its `Enqueue`
returns with task `1` pushed nowhere. -/
theorem enqueueTask_drops_task :
    ∃ s, Reachable s ∧ s.size = 1 ∧ s.prods 1 = .idle ∧ 1 ∈ s.dropped ∧
      ∀ i < s.size, 1 ∉ s.deques i := by
  obtain ⟨s, hs, h⟩ := exists_reachable_of_run [true] 2 0
    [.producer 0, .producer 0, .producer 1, .producer 1]
    (fun s => s.size = 1 ∧ s.prods 1 = .idle ∧ 1 ∈ s.dropped ∧ 1 ∉ s.deques 0) (by decide)
  simp only [decide_eq_true_eq] at h
  obtain ⟨h1, h2, h3, h4⟩ := h
  exact ⟨s, hs, h1, h2, h3, fun i hi => (show i = 0 by omega) ▸ h4⟩

end SsLogger.ThreadPool
