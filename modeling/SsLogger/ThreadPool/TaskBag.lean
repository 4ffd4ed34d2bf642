import SsLogger.ThreadPool.Ring
import Mathlib.Data.Multiset.Nodup
import Mathlib.Tactic.Abel

set_option autoImplicit false

/-! # What the pool is for: a bag of tasks

Seen from its callers, `ThreadPool` is a bag of pending tasks: `Enqueue` gives a task a number
and puts it in the bag, and a worker takes a pending task out and runs it. `TaskBag` is that
specification, with the one other move the code has: `EnqueueTask`'s early return, which takes a
task out of the bag without running it.

`Pool.bag` reads the bag off a pool state: a task is pending while an `EnqueueTask` call holds it
and while it sits in a worker's queue. Every step of the pool is a move of the bag or leaves the
bag as it was (`step_refines`). So what the bag keeps, the pool keeps: every number `Enqueue` has
given out is in exactly one place, a queue, a call, the tasks run or the tasks dropped
(`task_in_one_place`), and no task is run twice (`executed_nodup`). -/

namespace SsLogger.ThreadPool

open SsLogger.ThreadSafeQueue Function Finset

/-! ## The specification -/

/-- The tasks numbered so far, those waiting to run, those run, and those dropped. -/
@[ext] structure TaskBag where
  next : ℕ
  pending : Multiset ℕ
  executed : List ℕ
  dropped : List ℕ

namespace TaskBag

/-- The moves of the bag: a task is submitted under the next number; a pending task is taken out
and run; a pending task is taken out and dropped. -/
inductive Step : TaskBag → TaskBag → Prop
  | submit (b : TaskBag) : Step b ⟨b.next + 1, b.next ::ₘ b.pending, b.executed, b.dropped⟩
  | run (b : TaskBag) (t : ℕ) (rest : Multiset ℕ) (h : b.pending = t ::ₘ rest) :
      Step b ⟨b.next, rest, b.executed ++ [t], b.dropped⟩
  | drop (b : TaskBag) (t : ℕ) (rest : Multiset ℕ) (h : b.pending = t ::ₘ rest) :
      Step b ⟨b.next, rest, b.executed, b.dropped ++ [t]⟩

theorem Step.of_submit {b b' : TaskBag} (hn : b'.next = b.next + 1)
    (hp : b'.pending = b.next ::ₘ b.pending) (he : b'.executed = b.executed)
    (hd : b'.dropped = b.dropped) : Step b b' := by
  obtain ⟨n, p, e, d⟩ := b'
  simp only at hn hp he hd
  subst hn hp he hd
  exact .submit b

theorem Step.of_run {b b' : TaskBag} (t : ℕ) (hn : b'.next = b.next)
    (hp : b.pending = t ::ₘ b'.pending) (he : b'.executed = b.executed ++ [t])
    (hd : b'.dropped = b.dropped) : Step b b' := by
  obtain ⟨n, p, e, d⟩ := b'
  simp only at hn hp he hd
  subst hn he hd
  exact .run b t p hp

theorem Step.of_drop {b b' : TaskBag} (t : ℕ) (hn : b'.next = b.next)
    (hp : b.pending = t ::ₘ b'.pending) (he : b'.executed = b.executed)
    (hd : b'.dropped = b.dropped ++ [t]) : Step b b' := by
  obtain ⟨n, p, e, d⟩ := b'
  simp only at hn hp he hd
  subst hn he hd
  exact .drop b t p hp

/-- Every number given out is pending, run or dropped, and only once. -/
def Conserved (b : TaskBag) : Prop :=
  b.pending + b.executed + b.dropped = Multiset.range b.next

theorem Conserved.step {b b' : TaskBag} (h : b.Conserved) (hs : Step b b') : b'.Conserved := by
  unfold Conserved at h ⊢
  cases hs with
  | submit => rw [Multiset.range_succ, ← h, Multiset.cons_add, Multiset.cons_add]
  | run t rest hp =>
    rw [← h, hp, ← Multiset.coe_add, ← Multiset.singleton_add, Multiset.coe_singleton]
    abel
  | drop t rest hp =>
    rw [← h, hp, ← Multiset.coe_add, ← Multiset.singleton_add, Multiset.coe_singleton]
    abel

/-- No task is both run and dropped, or run or dropped twice. -/
theorem Conserved.nodup {b : TaskBag} (h : b.Conserved) : (b.executed ++ b.dropped).Nodup := by
  have hle : ((b.executed ++ b.dropped : List ℕ) : Multiset ℕ) ≤ Multiset.range b.next := by
    rw [← h, ← Multiset.coe_add, add_assoc]
    exact Multiset.le_add_left _ _
  exact Multiset.coe_nodup.1 (Multiset.nodup_of_le hle (Multiset.nodup_range _))

/-- The number of places a task is in: one for the numbers given out, none for the others. -/
theorem Conserved.count {b : TaskBag} (h : b.Conserved) (t : ℕ) :
    b.pending.count t + b.executed.count t + b.dropped.count t = if t < b.next then 1 else 0 := by
  have := congrArg (Multiset.count t) h
  simp only [Multiset.count_add, Multiset.coe_count,
    Multiset.count_eq_of_nodup (Multiset.nodup_range _), Multiset.mem_range] at this
  exact this

end TaskBag

/-! ## The bag a pool implements -/

/-- The task an `EnqueueTask` call holds, from taking its number to its push. -/
def EnqPc.task? : EnqPc → Option ℕ
  | .popRing t | .pushRing t _ | .addUnassigned t _ | .addInFlight t _ | .storeFalse t _
  | .pushTask t _ => some t
  | .idle | .release _ _ => none

/-- `1` for a call that holds task `t`. -/
def EnqPc.holds (t : ℕ) (e : EnqPc) : ℕ := e.task?.toList.count t

theorem holds_of_task? {e : EnqPc} {t : ℕ} (h : e.task? = some t) (u : ℕ) :
    e.holds u = if u = t then 1 else 0 := by
  rw [EnqPc.holds, h, Option.toList_some, List.count_singleton]
  by_cases hu : u = t
  · simp [hu]
  · simp [hu, Ne.symm hu]

theorem holds_of_none {e : EnqPc} (h : e.task? = none) (u : ℕ) : e.holds u = 0 := by
  simp [EnqPc.holds, h]

/-- The bag of a pool state: the tasks in the queues and those the calls hold are pending. -/
def Pool.bag (s : Pool) : TaskBag where
  next := s.next
  pending := ∑ i ∈ range s.size, (s.deques i : Multiset ℕ) +
    (∑ p ∈ range s.nprods, ((s.prods p).task?.toList : Multiset ℕ) +
      ∑ w ∈ range s.size, ((s.nested w).task?.toList : Multiset ℕ))
  executed := s.executed
  dropped := s.dropped

@[simp] theorem bag_next (s : Pool) : s.bag.next = s.next := rfl

@[simp] theorem bag_executed (s : Pool) : s.bag.executed = s.executed := rfl

@[simp] theorem bag_dropped (s : Pool) : s.bag.dropped = s.dropped := rfl

/-- How often the bag holds `t`: the copies in the queues and in the calls. -/
theorem count_pending (s : Pool) (t : ℕ) :
    s.bag.pending.count t = countIn s.size s.deques (List.count t) + s.callsAt (EnqPc.holds t) := by
  simp only [Pool.bag, Multiset.count_add, Multiset.count_sum', Multiset.coe_count, countIn,
    Pool.callsAt, EnqPc.holds]

/-- Two states have the same bag when they agree on the numbering, on the tasks run and dropped,
and on the copies of each task in the queues and calls. -/
theorem bag_eq_of {s s' : Pool} (hn : s'.next = s.next) (he : s'.executed = s.executed)
    (hd : s'.dropped = s.dropped)
    (hp : ∀ t, countIn s'.size s'.deques (List.count t) + s'.callsAt (EnqPc.holds t) =
      countIn s.size s.deques (List.count t) + s.callsAt (EnqPc.holds t)) :
    s'.bag = s.bag :=
  TaskBag.ext hn (Multiset.ext' fun t => by rw [count_pending, count_pending, hp]) he hd

/-- The bag with one copy of `t` more in the queues and calls, and the rest unchanged. -/
theorem pending_eq_cons {s s' : Pool} {t : ℕ}
    (hp : ∀ u, countIn s'.size s'.deques (List.count u) + s'.callsAt (EnqPc.holds u) =
      countIn s.size s.deques (List.count u) + s.callsAt (EnqPc.holds u) + if u = t then 1 else 0) :
    s'.bag.pending = t ::ₘ s.bag.pending :=
  Multiset.ext' fun u => by rw [Multiset.count_cons, count_pending, count_pending, hp]

@[simp] theorem setCall_next (s : Pool) (c : Caller) (e : EnqPc) : (s.setCall c e).next = s.next := by
  cases c <;> rfl

/-! ## Each step is a move of the bag -/

/-- A call that starts submits its task. -/
theorem bag_start (s : Pool) {c : Caller} (hc : s.IsCaller c) (hidle : s.callPc c = .idle) :
    TaskBag.Step s.bag (({ s with next := s.next + 1 } : Pool).setCall c (.popRing s.next)).bag := by
  refine .of_submit (by simp) (pending_eq_cons fun u => ?_) (by simp) (by simp)
  have h := callsAt_setCall { s with next := s.next + 1 } (EnqPc.holds u) hc (.popRing s.next)
  simp only [callsAt_setNext, callPc_setNext, hidle, holds_of_none (e := .idle) rfl,
    holds_of_task? (rfl : (EnqPc.popRing s.next).task? = _)] at h
  simp only [setCall_frame, bag_next]
  split_ifs at h ⊢ <;> omega

/-- `enqStep` as the bag sees it: the early return drops the call's task; every other step keeps
the copies of each task in the queues and in the call (the push moves the task from the call to a
queue), and drops nothing. -/
theorem enqStep_bag (s : Pool) (e : EnqPc) (he : ∀ i, e.index? = some i → i < s.size) :
    (∃ t, e = .popRing t ∧ (enqStep s e).2 = .idle ∧ (enqStep s e).1.deques = s.deques ∧
        (enqStep s e).1.dropped = s.dropped ++ [t]) ∨
      ((enqStep s e).1.dropped = s.dropped ∧ ∀ u,
        countIn s.size (enqStep s e).1.deques (List.count u) + (enqStep s e).2.holds u =
          countIn s.size s.deques (List.count u) + e.holds u) := by
  cases e with
  | popRing t =>
    simp only [enqStep]
    split
    · exact .inl ⟨t, rfl, rfl, rfl, rfl⟩
    · exact .inr ⟨rfl, fun u => by simp [EnqPc.holds, EnqPc.task?]⟩
  | addInFlight t i =>
    by_cases h0 : s.inFlight = 0 <;>
      exact .inr ⟨rfl, fun u => by simp [enqStep, h0, EnqPc.holds, EnqPc.task?]⟩
  | pushTask t i =>
    refine .inr ⟨rfl, fun u => ?_⟩
    have h := countIn_update (he i rfl) s.deques (pushBack (s.deques i) t) (List.count u)
    simp only [pushBack, List.count_append] at h
    simp only [enqStep, pushBack, EnqPc.holds, EnqPc.task?, Option.toList_some,
      Option.toList_none, List.count_nil]
    omega
  | _ => exact .inr ⟨rfl, fun u => by simp [enqStep, EnqPc.holds, EnqPc.task?]⟩

/-- A caller's step submits a task, drops one, or leaves the bag as it was. -/
theorem bag_call {s s' : Pool} (c : Caller) (hr : RingInv s) (hs : step s c.act = some s') :
    s'.bag = s.bag ∨ TaskBag.Step s.bag s'.bag := by
  obtain ⟨hc, ⟨hidle, rfl⟩ | ⟨-, rfl⟩⟩ := step_call hs
  · exact .inr (bag_start s hc hidle)
  have hcall := fun u => callsAt_setCall (enqStep s (s.callPc c)).1 (EnqPc.holds u)
    ((isCaller_enqStep _ _ _).2 hc) (enqStep s (s.callPc c)).2
  simp only [callsAt_enqStep, callPc_enqStep] at hcall
  rcases enqStep_bag s (s.callPc c) (hr.calls c hc) with ⟨t, he, h2, hd, hdr⟩ | ⟨hdr, hq⟩
  · -- the early return: the call's task leaves the bag unrun
    refine .inr (.of_drop t (by simp) (pending_eq_cons fun u => ?_) (by simp) (by simp [hdr]))
    have h := hcall u
    have hh : (s.callPc c).holds u = if u = t then 1 else 0 := by
      rw [he]; exact holds_of_task? (e := .popRing t) rfl u
    have h0 : (enqStep s (s.callPc c)).2.holds u = 0 := by rw [h2]; rfl
    rw [hh, h0] at h
    simp only [setCall_frame, enqStep_frame, hd]
    split_ifs at h ⊢ <;> omega
  · refine .inl (bag_eq_of (by simp) (by simp) (by simp [hdr]) fun u => ?_)
    have h1 := hcall u
    have h2 := hq u
    simp only [setCall_frame, enqStep_frame]
    omega

/-- A worker's step takes one task out of a queue and hands it to `ExecuteTask`, or leaves the
queues and the tasks run alone. -/
theorem step_worker_tasks {s s' : Pool} {w : ℕ} (h : step s (.worker w) = some s') :
    (∃ i t q, i < s.size ∧ (s.deques i).Perm (t :: q) ∧ s'.deques = update s.deques i q ∧
        s'.executed = s.executed ++ [t]) ∨
      (s'.deques = s.deques ∧ s'.executed = s.executed) := by
  obtain ⟨hw, hm⟩ := step_worker h
  cases hm
  case popOwn t q hpc hq => exact .inl ⟨w, t, q, hw, by rw [hq], rfl, rfl⟩
  case steal j t q hpc hj hq =>
    exact .inl ⟨_, t, q, Nat.mod_lt _ (by omega), by rw [hq]; exact List.perm_append_singleton t q,
      rfl, rfl⟩
  all_goals exact .inr ⟨rfl, rfl⟩

/-- A worker's step runs a pending task or leaves the bag as it was. -/
theorem bag_worker {s s' : Pool} {w : ℕ} (hs : step s (.worker w) = some s') :
    s'.bag = s.bag ∨ TaskBag.Step s.bag s'.bag := by
  obtain ⟨hsize, hnp, -⟩ := step_shape hs
  obtain ⟨-, -, hp, hn, -, hnext, hdr, -⟩ := step_worker_frame hs
  have hcalls : ∀ P, s'.callsAt P = s.callsAt P := fun P => by
    simp only [Pool.callsAt, hsize, hnp, hp, hn]
  rcases step_worker_tasks hs with ⟨i, t, q, hi, hperm, hd, he⟩ | ⟨hd, he⟩
  · refine .inr (.of_run t (by simp [hnext]) (pending_eq_cons fun u => ?_) (by simp [he])
      (by simp [hdr]))
    have h := countIn_update hi s.deques q (List.count u)
    rw [hperm.count_eq, List.count_cons] at h
    simp only [beq_iff_eq] at h
    simp only [hsize, hd, hcalls]
    split_ifs at h ⊢ <;> omega
  · exact .inl (bag_eq_of hnext he hdr fun u => by rw [hsize, hd, hcalls])

/-- Every step of the pool is a move of its bag, or leaves the bag as it was. -/
theorem bag_step {s s' : Pool} {a : Act} (hr : RingInv s) (hs : step s a = some s') :
    s'.bag = s.bag ∨ TaskBag.Step s.bag s'.bag := by
  cases a with
  | producer p => exact bag_call (.producer p) hr hs
  | task w => exact bag_call (.task w) hr hs
  | worker w => exact bag_worker hs
  | waiter q =>
    obtain ⟨c, ns, n, rfl, -⟩ := step_waiter_eq hs
    exact .inl rfl
  | dtor =>
    obtain ⟨hsize, hnp, -⟩ := step_shape hs
    obtain ⟨-, hd, -, -, -, -, hp, hn, he, -, hnext, hdr⟩ := step_dtor_frame hs
    exact .inl (bag_eq_of hnext he hdr fun u => by simp only [Pool.callsAt, hsize, hnp, hd, hp, hn])

/-- The pool refines the bag: from a reachable state, each step of any thread is a move of the
bag or a step the bag does not see. -/
theorem step_refines {s s' : Pool} {a : Act} (h : Reachable s) (hs : step s a = some s') :
    s'.bag = s.bag ∨ TaskBag.Step s.bag s'.bag :=
  bag_step h.ringInv hs

/-- The first step of a producer on a new one-worker pool. -/
theorem step_refines_first_enqueue :
    ∃ s s', Reachable s ∧ step s (.producer 0) = some s' ∧
      (s'.bag = s.bag ∨ TaskBag.Step s.bag s'.bag) :=
  ⟨_, _, .init [true] 1 0, rfl, step_refines (a := .producer 0) (.init [true] 1 0) rfl⟩

theorem Reachable.bagConserved {s : Pool} (h : Reachable s) : s.bag.Conserved := by
  induction h with
  | init spawns nprods nwaiters => simp [TaskBag.Conserved, Pool.bag, Pool.init, EnqPc.task?]
  | step a hr hs ih =>
    rcases bag_step hr.ringInv hs with he | hst
    · rwa [he]
    · exact ih.step hst

/-- In every reachable state, each number `Enqueue` has given out is in exactly one place: a
worker's queue, an `EnqueueTask` call that has not pushed it, the tasks handed to `ExecuteTask`,
or the tasks `EnqueueTask` dropped; no other number is anywhere. -/
theorem task_in_one_place {s : Pool} (h : Reachable s) (t : ℕ) :
    countIn s.size s.deques (List.count t) + s.callsAt (EnqPc.holds t) + s.executed.count t +
      s.dropped.count t = if t < s.next then 1 else 0 := by
  rw [← count_pending]
  exact h.bagConserved.count t

/-- A producer's first task, pushed on the only worker's queue, is there and nowhere else. -/
theorem task_in_one_place_queued :
    ∃ s, Reachable s ∧ s.deques 0 = [0] ∧
      countIn s.size s.deques (List.count 0) + s.callsAt (EnqPc.holds 0) + s.executed.count 0 +
        s.dropped.count 0 = if 0 < s.next then 1 else 0 := by
  obtain ⟨s, hs, h⟩ := exists_reachable_of_run [true] 1 0
    (List.replicate 7 (.producer 0)) (fun s => s.deques 0 == [0]) (by decide)
  exact ⟨s, hs, by simpa using h, task_in_one_place hs 0⟩

/-- No task is handed to `ExecuteTask` twice, and none is both run and dropped. -/
theorem executed_nodup {s : Pool} (h : Reachable s) : (s.executed ++ s.dropped).Nodup :=
  h.bagConserved.nodup

/-- One task enqueued and taken by the worker. -/
theorem executed_nodup_one_task :
    ∃ s, Reachable s ∧ s.executed = [0] ∧ (s.executed ++ s.dropped).Nodup := by
  obtain ⟨s, hs, h⟩ := exists_reachable_of_run [true] 1 0
    (List.replicate 8 (.producer 0) ++ List.replicate 2 (.worker 0))
    (fun s => s.executed == [0]) (by decide)
  exact ⟨s, hs, by simpa using h, executed_nodup hs⟩

end SsLogger.ThreadPool
