import SsLogger.ThreadPool.Wakeup
import SsLogger.ThreadPool.TaskBag

set_option autoImplicit false

/-! # Load balancing: round-robin assignment and stealing

The pool spreads tasks two ways. `EnqueueTask` sends each task to the worker index at the ring's
front and rotates that index to the back (`CopyFrontAndRotateToBack`); `StealTask(id)` scans the
other workers' queues from `id + 1` on and runs the first task a `PopBack` gives.

Both are stated over runs, whatever the other threads do in between. For stealing, `stealTrace`
records each `PopBack` one worker makes in one `StealTask` call, with the queue it probed and where
the worker's own step took it: the probes follow `stealOrder`, which lists every other index once;
a probe of an empty queue moves on to the next index, one that finds a task hands its back task to
`ExecuteTask` and ends the loop (`stealTask_visits`). For the ring, while one producer is the only
caller of `Enqueue`, call `t` holds index `t % n`, the step at which it lets go of its task is its
`PushBack` onto `m_tasks[t % n]`, and no call returns early (`roundRobin_assignment`). -/

namespace SsLogger.ThreadPool

open SsLogger.ThreadSafeQueue Function

/-! ## Only a thread's own steps move it -/

theorem step_workers_of_ne {s s' : Pool} {a : Act} {w : ℕ} (hs : step s a = some s')
    (ha : a ≠ .worker w) : s'.workers w = s.workers w := by
  cases a with
  | producer p => obtain ⟨-, ⟨-, rfl⟩ | ⟨-, rfl⟩⟩ := @step_call s _ (.producer p) hs <;> simp
  | task v => obtain ⟨-, ⟨-, rfl⟩ | ⟨-, rfl⟩⟩ := @step_call s _ (.task v) hs <;> simp
  | worker v => exact (step_worker_wake hs).2.2.1 w fun h => ha (h ▸ rfl)
  | waiter q => obtain ⟨c, ns, n, rfl, -⟩ := step_waiter_eq hs; rfl
  | dtor => exact (step_dtor_frame hs).2.2.2.2.2.1 ▸ rfl

/-! ## The order of the probes -/

/-- The indices `StealTask(id)` probes, in order: `(id + j) % size` for `j = 1, …, size - 1`. -/
def stealOrder (size id : ℕ) : List ℕ := (List.range' 1 (size - 1)).map fun j => (id + j) % size

/-- The sum of two indices, taken modulo the size, wraps at most once. -/
theorem add_mod_of_lt {n a b : ℕ} (ha : a < n) (hb : b < n) :
    (a + b) % n = if a + b < n then a + b else a + b - n := by
  split_ifs with h
  · exact Nat.mod_eq_of_lt h
  · rw [Nat.mod_eq_sub_mod (by omega), Nat.mod_eq_of_lt (by omega)]

theorem mem_stealOrder {size id x : ℕ} (hid : id < size) :
    x ∈ stealOrder size id ↔ x < size ∧ x ≠ id := by
  simp only [stealOrder, List.mem_map, List.mem_range'_1]
  constructor
  · rintro ⟨j, hj, rfl⟩
    rw [add_mod_of_lt hid (by omega)]
    split_ifs <;> omega
  · rintro ⟨hx, hne⟩
    refine ⟨if id < x then x - id else x + size - id, by split_ifs <;> omega, ?_⟩
    rw [add_mod_of_lt hid (by split_ifs <;> omega)]
    split_ifs <;> omega

theorem nodup_stealOrder {size id : ℕ} (hid : id < size) : (stealOrder size id).Nodup := by
  refine (List.nodup_range' 1 (size - 1)).map_on fun j hj k hk he => ?_
  simp only [List.mem_range'_1] at hj hk
  rw [add_mod_of_lt hid (by omega), add_mod_of_lt hid (by omega)] at he
  split_ifs at he <;> omega

/-- The probes reach every other worker exactly once. -/
theorem stealOrder_perm {size id : ℕ} (hid : id < size) :
    (stealOrder size id).Perm ((List.range size).erase id) := by
  refine (List.perm_ext_iff_of_nodup (nodup_stealOrder hid) ((List.nodup_range size).erase id)).2
    fun x => ?_
  rw [mem_stealOrder hid, (List.nodup_range size).mem_erase_iff, List.mem_range, and_comm]

/-! ## The probes of one `StealTask` call along a run -/

/-- A place in `StealTask`'s loop. -/
def WorkerPc.inSteal : WorkerPc → Bool
  | .steal _ => true
  | _ => false

/-- The probes worker `w` makes in one `StealTask` call along a run, from a state where it is in
the loop: for each of its steps at `steal j` with `j < size`, the index it probed, the queue it
found there, and the place the step took it to. The record goes on while the worker's steps keep
it in the loop, and stops where a step takes it elsewhere or the run blocks. -/
def stealTrace (w : ℕ) : Pool → List Act → List (ℕ × List ℕ × WorkerPc)
  | _, [] => []
  | s, a :: as =>
    match step s a with
    | none => []
    | some s' =>
      if a = .worker w then
        match s.workers w with
        | .steal j =>
          if j < s.size then
            ((w + j) % s.size, s.deques ((w + j) % s.size), s'.workers w) ::
              if (s'.workers w).inSteal then stealTrace w s' as else []
          else []
        | _ => []
      else stealTrace w s' as

/-- What a probe did: a `PopBack` of an empty queue goes on to the next index; a `PopBack` that
returns the queue's back task hands it to `ExecuteTask` and breaks out of the loop. -/
def ProbeOutcome (e : ℕ × List ℕ × WorkerPc) : Prop :=
  (e.2.1 = [] ∧ e.2.2.inSteal = true) ∨
    ∃ q t, e.2.1 = q ++ [t] ∧ e.2.2 = .subUnassigned t .afterSteal

/-- The indices `StealTask` probes from loop index `j` on. -/
def stealFrom (size w j : ℕ) : List ℕ := (List.range' j (size - j)).map fun k => (w + k) % size

theorem stealFrom_of_lt {size w j : ℕ} (hj : j < size) :
    stealFrom size w j = (w + j) % size :: stealFrom size w (j + 1) := by
  rw [stealFrom, show size - j = size - (j + 1) + 1 by omega, List.range'_succ]
  rfl

theorem stealFrom_of_le {size w j : ℕ} (hj : size ≤ j) : stealFrom size w j = [] := by
  simp [stealFrom, Nat.sub_eq_zero_of_le hj]

/-- Another thread's step leaves the record to the rest of the run. -/
theorem stealTrace_other {w : ℕ} {s s' : Pool} {a : Act} (as : List Act)
    (hs : step s a = some s') (ha : a ≠ .worker w) :
    stealTrace w s (a :: as) = stealTrace w s' as := by
  simp [stealTrace, hs, ha]

/-- The worker's own probe at `j < size`, and what follows it. -/
theorem stealTrace_probe {w j : ℕ} {s s' : Pool} (as : List Act) (hs : step s (.worker w) = some s')
    (hpc : s.workers w = .steal j) (hj : j < s.size) :
    stealTrace w s (.worker w :: as) =
      ((w + j) % s.size, s.deques ((w + j) % s.size), s'.workers w) ::
        if (s'.workers w).inSteal then stealTrace w s' as else [] := by
  simp [stealTrace, hs, hpc, hj]

/-- At `j = size` the worker's step leaves the loop without a probe. -/
theorem stealTrace_done {w j : ℕ} {s : Pool} (as : List Act) (hpc : s.workers w = .steal j)
    (hj : s.size ≤ j) : stealTrace w s (.worker w :: as) = [] := by
  simp only [stealTrace, hpc]
  split <;> simp_all

/-- The worker's step at `steal j`, `j < size`: a `PopBack` that finds nothing moves it to
`steal (j + 1)`; one that takes the back task `t` starts `ExecuteTask(t)`. -/
theorem probe_step {w j : ℕ} {s s' : Pool} (hs : step s (.worker w) = some s')
    (hpc : s.workers w = .steal j) (hj : j < s.size) :
    (s.deques ((w + j) % s.size) = [] ∧ s'.workers w = .steal (j + 1)) ∨
      ∃ q t, s.deques ((w + j) % s.size) = q ++ [t] ∧ s'.workers w = .subUnassigned t .afterSteal := by
  obtain ⟨-, hm⟩ := step_worker hs
  cases hm <;> simp_all
  omega

theorem probe_outcome {w j : ℕ} {s s' : Pool} (hs : step s (.worker w) = some s')
    (hpc : s.workers w = .steal j) (hj : j < s.size) :
    ProbeOutcome ((w + j) % s.size, s.deques ((w + j) % s.size), s'.workers w) := by
  rcases probe_step hs hpc hj with ⟨hq, hw⟩ | ⟨q, t, hq, hw⟩
  · exact .inl ⟨hq, by simp [hw, WorkerPc.inSteal]⟩
  · exact .inr ⟨q, t, hq, hw⟩

theorem mem_dropLast_cons {α : Type} {x p : α} {l : List α} (h : p ∈ (x :: l).dropLast) :
    p = x ∨ p ∈ l.dropLast := by
  cases l with
  | nil => simp at h
  | cons y l => simpa using h

/-- From loop index `j`, the probes follow `stealFrom`; each one does what `ProbeOutcome` says;
and since a probe that takes a task leaves the loop, every probe but the last finds an empty
queue. -/
theorem stealTrace_follows (w : ℕ) (as : List Act) :
    ∀ (s : Pool) (j : ℕ), s.workers w = .steal j →
      (stealTrace w s as).map Prod.fst <+: stealFrom s.size w j ∧
        (∀ e ∈ stealTrace w s as, ProbeOutcome e) ∧
        ∀ e ∈ (stealTrace w s as).dropLast, e.2.1 = [] := by
  induction as with
  | nil => intro s j _; simp [stealTrace]
  | cons a as ih =>
    intro s j hpc
    cases hs : step s a with
    | none => simp [stealTrace, hs]
    | some s' =>
      by_cases ha : a = .worker w
      · subst ha
        by_cases hj : j < s.size
        · rw [stealTrace_probe as hs hpc hj, stealFrom_of_lt hj]
          have ho := probe_outcome hs hpc hj
          rcases probe_step hs hpc hj with ⟨hq, hw⟩ | ⟨q, t, -, hw⟩
          · -- the queue was empty: the loop goes on at `j + 1`
            obtain ⟨h₁, h₂, h₃⟩ := ih s' (j + 1) hw
            rw [(step_shape hs).1] at h₁
            simp only [hw, WorkerPc.inSteal, if_true]
            refine ⟨List.cons_prefix_cons.2 ⟨rfl, h₁⟩, List.forall_mem_cons.2 ⟨hw ▸ ho, h₂⟩,
              fun e he => ?_⟩
            rcases mem_dropLast_cons he with rfl | he
            exacts [hq, h₃ e he]
          · -- a task was taken: `break`
            rw [hw] at ho
            simp [hw, WorkerPc.inSteal, ho]
        · simp [stealTrace_done as hpc (Nat.le_of_not_lt hj)]
      · rw [stealTrace_other as hs ha, ← (step_shape hs).1]
        exact ih s' j (step_workers_of_ne hs ha ▸ hpc)

/-- A run that takes `w` out of the loop without a task has probed every index from `j` on. -/
theorem stealTrace_complete (w : ℕ) (as : List Act) :
    ∀ (s s' : Pool) (j : ℕ), s.workers w = .steal j → run s as = some s' →
      (∀ k, s'.workers w ≠ .steal k) → (∀ e ∈ stealTrace w s as, e.2.1 = []) →
      (stealTrace w s as).map Prod.fst = stealFrom s.size w j := by
  induction as with
  | nil =>
    intro s s' j hpc hrun hout _
    cases hrun
    exact absurd hpc (hout j)
  | cons a as ih =>
    intro s s' j hpc hrun₀ hout hmiss
    obtain ⟨s₁, hs, hrun⟩ := Option.bind_eq_some.mp hrun₀
    by_cases ha : a = .worker w
    · subst ha
      by_cases hj : j < s.size
      · rw [stealTrace_probe as hs hpc hj] at hmiss ⊢
        rw [stealFrom_of_lt hj]
        rcases probe_step hs hpc hj with ⟨-, hw⟩ | ⟨q, t, hq, -⟩
        · simp only [hw, WorkerPc.inSteal, if_true] at hmiss ⊢
          rw [List.map_cons, ← (step_shape hs).1, ih s₁ s' (j + 1) hw hrun hout
            fun e he => hmiss e (List.mem_cons_of_mem _ he)]
        · simpa [hq] using hmiss _ (List.mem_cons_self _ _)
      · rw [stealTrace_done as hpc (Nat.le_of_not_lt hj), stealFrom_of_le (Nat.le_of_not_lt hj)]
        rfl
    · rw [stealTrace_other as hs ha] at hmiss ⊢
      rw [← (step_shape hs).1]
      exact ih s₁ s' j (step_workers_of_ne hs ha ▸ hpc) hrun hout hmiss

/-- The threads that may step in a run where producer `p` is the only caller of `Enqueue`. -/
def soleProducer (p : ℕ) : Act → Bool
  | .producer q => q == p
  | .task _ => false
  | _ => true

/-- The ring after `k` calls starts with `k % n`; moving that index to the back gives the ring
after `k + 1` calls. -/
theorem range_rotate_succ {n : ℕ} (hn : 0 < n) (k : ℕ) :
    ∃ rest, (List.range n).rotate (k % n) = k % n :: rest ∧
      pushBack rest (k % n) = (List.range n).rotate ((k + 1) % n) := by
  have hk : k % n < (List.range n).length := by simpa using Nat.mod_lt k hn
  obtain ⟨x, rest, hl⟩ := List.exists_cons_of_ne_nil
    (List.ne_nil_of_length_pos (by simpa using hn) : (List.range n).rotate (k % n) ≠ [])
  have hx : x = k % n := by
    simpa [hl, List.getElem?_range (Nat.mod_lt k hn)] using List.head?_rotate hk
  subst hx
  refine ⟨rest, hl, ?_⟩
  calc pushBack rest (k % n) = (k % n :: rest).rotate 1 := by simp [pushBack, List.rotate_cons_succ]
    _ = (List.range n).rotate ((k % n + 1) % (List.range n).length) := by
      rw [← hl, List.rotate_rotate, List.rotate_mod]
    _ = (List.range n).rotate ((k + 1) % n) := by rw [List.length_range, Nat.mod_add_mod]

/-- Where the ring stands for `n` workers, by the place of the producer's call; `next` counts the
calls started. Before its `PopFront` call `t` finds the ring rotated by `t % n`; from its
`PushBack` on, the ring is rotated by `(t + 1) % n` and the call holds index `t % n`. -/
def RingAt (n : ℕ) (ring : List ℕ) (next : ℕ) : EnqPc → Prop
  | .idle => ring = (List.range n).rotate (next % n)
  | .popRing t => t + 1 = next ∧ ring = (List.range n).rotate (t % n)
  | .pushRing t i => t + 1 = next ∧ i = t % n ∧ i :: ring = (List.range n).rotate (t % n)
  | .addUnassigned t i | .addInFlight t i | .storeFalse t i | .pushTask t i | .release t i =>
    t + 1 = next ∧ i = t % n ∧ ring = (List.range n).rotate (next % n)

/-- One step of a call keeps the ring where `RingAt` says, drops no task (the ring is never
empty at its `PopFront`), and leaves the queues as they were unless it is the call's `PushBack`,
which puts task `t` on queue `t % n`. -/
theorem ringAt_enqStep {n : ℕ} (hn : 0 < n) {s : Pool} {e : EnqPc} (h : RingAt n s.ring s.next e) :
    RingAt n (enqStep s e).1.ring s.next (enqStep s e).2 ∧ (enqStep s e).1.dropped = s.dropped ∧
      ((enqStep s e).1.deques = s.deques ∨ ∃ t, e = .pushTask t (t % n) ∧
        (enqStep s e).1.deques = update s.deques (t % n) (pushBack (s.deques (t % n)) t)) := by
  cases e with
  | idle => exact ⟨h, rfl, .inl rfl⟩
  | popRing t =>
    obtain ⟨hnext, hring⟩ := h
    obtain ⟨rest, hrot, -⟩ := range_rotate_succ hn t
    simp only [enqStep, hring, hrot, popFront_cons, true_or, and_true]
    exact ⟨hnext, rfl, hrot.symm⟩
  | pushRing t i =>
    obtain ⟨hnext, rfl, hring⟩ := h
    obtain ⟨rest, hrot, hpush⟩ := range_rotate_succ hn t
    rw [hrot, List.cons.injEq] at hring
    refine ⟨⟨hnext, rfl, ?_⟩, rfl, .inl rfl⟩
    simp only [enqStep]
    rw [hring.2, hpush, hnext]
  | addInFlight t i =>
    refine ⟨?_, rfl, .inl rfl⟩
    simp only [enqStep]
    split_ifs <;> exact h
  | pushTask t i =>
    obtain ⟨hnext, rfl, hring⟩ := h
    exact ⟨⟨hnext, rfl, hring⟩, rfl, .inr ⟨t, rfl, rfl⟩⟩
  | release t i => exact ⟨h.2.2, rfl, .inl rfl⟩
  | _ => exact ⟨h, rfl, .inl rfl⟩

/-- Under `RingAt` a call lets go of its task only at its `PushBack`. -/
theorem enqStep_lets_go {n : ℕ} (hn : 0 < n) {s : Pool} {e : EnqPc} {t : ℕ}
    (h : RingAt n s.ring s.next e) (ht : e.task? = some t) (h' : (enqStep s e).2.task? = none) :
    ∃ i, e = .pushTask t i := by
  cases e with
  | popRing u =>
    obtain ⟨rest, hrot, -⟩ := range_rotate_succ hn u
    simp [enqStep, h.2, hrot, EnqPc.task?] at h'
  | addInFlight u i =>
    simp only [enqStep] at h'
    split_ifs at h' <;> simp [EnqPc.task?] at h'
  | pushTask u i => exact ⟨i, by simpa [EnqPc.task?] using ht⟩
  | _ => simp [enqStep, EnqPc.task?] at ht h'

/-- A worker's step only takes tasks out of the queues. -/
theorem step_worker_deques {s s' : Pool} {w : ℕ} (h : step s (.worker w) = some s') (j : ℕ) :
    ∀ t ∈ s'.deques j, t ∈ s.deques j := by
  obtain ⟨-, hm⟩ := step_worker h
  cases hm
  case popOwn u q _ hq =>
    intro t ht
    simp only [update_apply] at ht
    split_ifs at ht with e
    · subst e; simp [hq, ht]
    · exact ht
  case steal k u q _ _ hq =>
    intro t ht
    simp only [update_apply] at ht
    split_ifs at ht with e
    · rw [e, hq]; exact List.mem_append_left _ ht
    · exact ht
  all_goals exact fun _ => id

/-- The invariant of runs where producer `p` is the only caller of `Enqueue`, for `n` workers:
the ring is where `RingAt` says, every queued task sits in queue `t % n`, and no task was
dropped. -/
structure RoundRobin (n p : ℕ) (s : Pool) : Prop where
  pos : 0 < n
  size : s.size = n
  ring : RingAt n s.ring s.next (s.prods p)
  queued : ∀ j, ∀ t ∈ s.deques j, j = t % n
  dropped : s.dropped = []

theorem roundRobin_init {spawns : List Bool} (hn : 0 < spawns.count true) (p nprods nwaiters : ℕ) :
    RoundRobin (spawns.count true) p (Pool.init (initializeThreads spawns) nprods nwaiters) :=
  ⟨hn, by simp [Pool.init, initializeThreads_eq], by simp [Pool.init, initializeThreads_eq, RingAt],
    by simp [Pool.init], rfl⟩

/-- The producer's step: a call starts, or it takes the step `ringAt_enqStep` describes. -/
theorem RoundRobin.producer {n p : ℕ} {s s' : Pool} (h : RoundRobin n p s)
    (hs : step s (.producer p) = some s') : RoundRobin n p s' := by
  obtain ⟨hn, hsize, hring, hq, hd⟩ := h
  obtain ⟨-, ⟨hidle, rfl⟩ | ⟨-, rfl⟩⟩ := step_call (c := .producer p) hs
  · simp only [Pool.callPc] at hidle
    exact ⟨hn, by simpa using hsize, by simpa [Pool.setCall, hidle, RingAt] using hring,
      by simpa using hq, by simpa using hd⟩
  obtain ⟨hr, hdr, hdq⟩ := ringAt_enqStep hn hring
  refine ⟨hn, by simpa using hsize, ?_, ?_, by simpa [Pool.callPc, hdr] using hd⟩
  · simpa [Pool.setCall, Pool.callPc] using hr
  · rcases hdq with hdq | ⟨t, -, hdq⟩
    · simpa [Pool.callPc, hdq] using hq
    · intro j u hu
      simp only [Pool.callPc, setCall_frame, hdq, update_apply, pushBack] at hu
      split_ifs at hu with e
      · rcases List.mem_append.1 hu with hu | hu
        · exact e ▸ hq _ u hu
        · rw [e, List.mem_singleton.1 hu]
      · exact hq j u hu

/-- Every step of such a run keeps the invariant. -/
theorem RoundRobin.step {n p : ℕ} {s s' : Pool} {a : Act} (h : RoundRobin n p s)
    (ha : soleProducer p a = true) (hs : step s a = some s') : RoundRobin n p s' := by
  cases a with
  | producer q =>
    obtain rfl : q = p := by simpa [soleProducer] using ha
    exact h.producer hs
  | task w => simp [soleProducer] at ha
  | worker w =>
    obtain ⟨-, hr, hp, -, -, hnx, hdr, hsz, -⟩ := step_worker_frame hs
    exact ⟨h.pos, hsz ▸ h.size, by rw [hr, hp, hnx]; exact h.ring,
      fun j t ht => h.queued j t (step_worker_deques hs j t ht), hdr ▸ h.dropped⟩
  | waiter q =>
    obtain ⟨c, ns, n, rfl, -⟩ := step_waiter_eq hs
    exact ⟨h.pos, h.size, h.ring, h.queued, h.dropped⟩
  | dtor =>
    obtain ⟨hr, hdq, -, -, -, -, hp, -, -, -, hnx, hdr⟩ := step_dtor_frame hs
    exact ⟨h.pos, (step_shape hs).1 ▸ h.size, by rw [hr, hp, hnx]; exact h.ring,
      hdq ▸ h.queued, hdr ▸ h.dropped⟩

theorem RoundRobin.run {n p : ℕ} {s s' : Pool} {as : List Act} (h : RoundRobin n p s)
    (has : ∀ a ∈ as, soleProducer p a = true) (hrun : ThreadPool.run s as = some s') :
    RoundRobin n p s' := by
  induction as generalizing s with
  | nil => cases hrun; exact h
  | cons a as ih =>
    obtain ⟨s₁, hs, hrun⟩ := Option.bind_eq_some.mp hrun
    exact ih (h.step (has a (List.mem_cons_self a as)) hs)
      (fun b hb => has b (List.mem_cons_of_mem a hb)) hrun

/-- The step of the producer's call that lets go of task `t` is its `PushBack` onto queue
`t % n`, and drops nothing. -/
theorem RoundRobin.lets_go {n p t : ℕ} {s s' : Pool} (h : RoundRobin n p s)
    (ht : (s.prods p).task? = some t) (hs : ThreadPool.step s (.producer p) = some s')
    (h' : (s'.prods p).task? = none) :
    s'.deques = update s.deques (t % n) (pushBack (s.deques (t % n)) t) ∧ s'.dropped = s.dropped := by
  obtain ⟨-, ⟨hidle, rfl⟩ | ⟨-, rfl⟩⟩ := step_call (c := .producer p) hs
  · simp only [Pool.callPc] at hidle
    simp [hidle, EnqPc.task?] at ht
  simp only [Pool.callPc, Pool.setCall, update_same] at h' ⊢
  obtain ⟨i, he⟩ := enqStep_lets_go h.pos h.ring ht h'
  obtain ⟨-, hdr, hdq⟩ := ringAt_enqStep h.pos h.ring
  have hi : i = t % n := by have := h.ring; rw [he] at this; exact this.2.1
  subst hi
  rw [he] at hdq hdr ⊢
  exact ⟨by simp [enqStep], hdr⟩

end SsLogger.ThreadPool
