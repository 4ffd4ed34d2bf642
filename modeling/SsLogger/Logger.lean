import SsLogger.ThreadSafeQueue
import Mathlib.Data.List.Nodup
import Mathlib.Logic.Function.Basic

set_option autoImplicit false

/-! # `Logger`: the log queue and its consumers

`Log<L>` pushes a `LogMessage` onto the static `s_queue`. `Setup` stores `true` in `is_running`
and starts a detached thread running `ProcessQueue(s_queue)`, which pops messages, passes each to
`LogToConsole`, `LogToFile` and `Syslog`, and stops once it finds the queue empty and `is_running`
false. `Reset` stores `false` and returns: it waits for no consumer.

The logger is a state machine whose steps are the atomic actions of its threads: the callers,
each running a program of `Setup`, `Log` and `Reset` calls, and the consumers `Setup` started, one
per call. A message is known by its number: `next` numbers the messages in the order of their
`PushBack`s. The calls of the three output functions are recorded in order, by message. What
`Setup` and `Reset` do to Boost.Log's sinks, formatters and filters touches neither the queue nor
`is_running`, and is left out; so is the output itself (`LogToFile` appends to a file named after
the calling thread's id).

Results: every logged message is in exactly one place for each output function (the queue, the
hands of a consumer that has not yet passed it on, or the function's record), so no output
function gets a message twice (`Conserved`). While a consumer is live, the consumers alone can
pass every message on and empty the queue (`consumers_drain`); once every consumer has left and
no `Setup` is pending, nothing is output again (`logs_stay_queued`). With a single consumer the
order of `PushBack`s is kept (`fifo_of_one_consumer`); but `Reset` can return with messages still
queued, and two consumers can pass messages to `LogToFile` out of order. -/

namespace SsLogger.Logging

open SsLogger.ThreadSafeQueue Function

/-! ## Threads and state -/

/-- A call a caller thread makes. -/
inductive Call where
  | setup
  | log
  | reset
  deriving DecidableEq, Repr

/-- A caller's place: between calls, in `Setup` after its `store(true)`, or in `Reset` after its
`store(false)`. -/
inductive CallerPc where
  | ready
  | setupSpawn
  | resetFinish
  deriving DecidableEq, Repr

/-- A `ProcessQueue` thread's place: at the `PopFront` of the inner `while`, before one of the
three output calls with the message `m` it has popped, at the
`while (Logger::get_is_running().load())` of the outer `do`, or gone. -/
inductive ConsumerPc where
  | popFront
  | toConsole (m : Nat)
  | toFile (m : Nat)
  | toSyslog (m : Nat)
  | checkRunning
  | exited
  deriving DecidableEq, Repr

/-- The logger's shared state (`s_queue`, front first, and `is_running`), the threads' places,
and the ghost record of the output calls. Callers are numbered; a caller's remaining calls are
`programs c`. The `ProcessQueue` threads are listed in the order `Setup` started them. -/
structure Logger where
  queue : List Nat
  isRunning : Bool
  programs : Nat → List Call
  callers : Nat → CallerPc
  consumers : List ConsumerPc
  next : Nat
  console : List Nat
  file : List Nat
  syslog : List Nat

/-- The logger before any call: `is_running` is a static `boost::atomic<bool>`, zero-initialized
to `false`. -/
def Logger.init (programs : List (List Call)) : Logger where
  queue := []
  isRunning := false
  programs := fun c => programs.getD c []
  callers := fun _ => .ready
  consumers := []
  next := 0
  console := []
  file := []
  syslog := []

/-! ## Steps -/

/-- One step of caller `c`: the first action of its next call, or the rest of the call it is in.
`Log` is one `PushBack`. -/
def callerStep (s : Logger) (c : Nat) : Option Logger :=
  match s.callers c, s.programs c with
  | .ready, .setup :: rest =>
    some { s with isRunning := true, callers := update s.callers c .setupSpawn,
                  programs := update s.programs c rest }
  | .ready, .log :: rest =>
    some { s with queue := pushBack s.queue s.next, next := s.next + 1,
                  programs := update s.programs c rest }
  | .ready, .reset :: rest =>
    some { s with isRunning := false, callers := update s.callers c .resetFinish,
                  programs := update s.programs c rest }
  | .ready, [] => none
  -- the detached thread starts
  | .setupSpawn, _ =>
    some { s with consumers := s.consumers ++ [.popFront], callers := update s.callers c .ready }
  -- `notify_all`, `flush`, `remove_all_sinks` and `reset`, and `Reset` returns
  | .resetFinish, _ => some { s with callers := update s.callers c .ready }

/-- One step of consumer `k`. -/
def consumerStep (s : Logger) (k : Nat) : Option Logger :=
  match s.consumers[k]? with
  | some .popFront =>
    match popFront s.queue with
    | some (m, q) => some { s with queue := q, consumers := s.consumers.set k (.toConsole m) }
    | none => some { s with consumers := s.consumers.set k .checkRunning }
  | some (.toConsole m) =>
    some { s with console := s.console ++ [m], consumers := s.consumers.set k (.toFile m) }
  | some (.toFile m) =>
    some { s with file := s.file ++ [m], consumers := s.consumers.set k (.toSyslog m) }
  | some (.toSyslog m) =>
    some { s with syslog := s.syslog ++ [m], consumers := s.consumers.set k .popFront }
  | some .checkRunning =>
    some { s with consumers := s.consumers.set k (if s.isRunning then .popFront else .exited) }
  | some .exited => none
  | none => none

/-- The thread that takes a step. -/
inductive Act where
  | caller (c : Nat)
  | consumer (k : Nat)
  deriving DecidableEq, Repr

def step (s : Logger) : Act → Option Logger
  | .caller c => callerStep s c
  | .consumer k => consumerStep s k

/-- The states of every run of the callers' programs. -/
inductive Reachable (programs : List (List Call)) : Logger → Prop
  | init : Reachable programs (Logger.init programs)
  | step {s s' : Logger} (a : Act) : Reachable programs s → step s a = some s' →
      Reachable programs s'

/-- Run the steps of a list of threads in order. -/
def run (s : Logger) : List Act → Option Logger
  | [] => some s
  | a :: as => (step s a).bind (run · as)

theorem Reachable.run {programs : List (List Call)} {s s' : Logger} {as : List Act}
    (hs : Reachable programs s) (h : Logging.run s as = some s') : Reachable programs s' := by
  induction as generalizing s with
  | nil => cases h; exact hs
  | cons a as ih =>
    obtain ⟨s₁, h₁, h₂⟩ := Option.bind_eq_some.mp h
    exact ih (hs.step a h₁) h₂

/-- A run of the programs that ends where `p` holds. -/
theorem exists_reachable_of_run (programs : List (List Call)) (as : List Act)
    (p : Logger → Bool) (h : (Logging.run (Logger.init programs) as).any p = true) :
    ∃ s, Reachable programs s ∧ p s = true := by
  cases hr : Logging.run (Logger.init programs) as with
  | none => simp [hr] at h
  | some s => exact ⟨s, Reachable.init.run hr, by simpa [hr] using h⟩

/-! ## What a step does -/

/-- The steps of caller `c`, each with its guard and the state it leads to. -/
inductive CallerMove (s : Logger) (c : Nat) : Logger → Prop
  | setup (rest : List Call) (hc : s.callers c = .ready) (hp : s.programs c = .setup :: rest) :
      CallerMove s c { s with isRunning := true, callers := update s.callers c .setupSpawn,
                              programs := update s.programs c rest }
  | log (rest : List Call) (hc : s.callers c = .ready) (hp : s.programs c = .log :: rest) :
      CallerMove s c { s with queue := pushBack s.queue s.next, next := s.next + 1,
                              programs := update s.programs c rest }
  | reset (rest : List Call) (hc : s.callers c = .ready) (hp : s.programs c = .reset :: rest) :
      CallerMove s c { s with isRunning := false, callers := update s.callers c .resetFinish,
                              programs := update s.programs c rest }
  | spawn (hc : s.callers c = .setupSpawn) :
      CallerMove s c { s with consumers := s.consumers ++ [.popFront],
                              callers := update s.callers c .ready }
  | finish (hc : s.callers c = .resetFinish) :
      CallerMove s c { s with callers := update s.callers c .ready }

/-- The steps of consumer `k`, each with its guard and the state it leads to. -/
inductive ConsumerMove (s : Logger) (k : Nat) : Logger → Prop
  | pop (m : Nat) (q : List Nat) (hk : s.consumers[k]? = some .popFront) (hq : s.queue = m :: q) :
      ConsumerMove s k { s with queue := q, consumers := s.consumers.set k (.toConsole m) }
  | empty (hk : s.consumers[k]? = some .popFront) (hq : s.queue = []) :
      ConsumerMove s k { s with consumers := s.consumers.set k .checkRunning }
  | console (m : Nat) (hk : s.consumers[k]? = some (.toConsole m)) :
      ConsumerMove s k { s with console := s.console ++ [m],
                                consumers := s.consumers.set k (.toFile m) }
  | file (m : Nat) (hk : s.consumers[k]? = some (.toFile m)) :
      ConsumerMove s k { s with file := s.file ++ [m], consumers := s.consumers.set k (.toSyslog m) }
  | syslog (m : Nat) (hk : s.consumers[k]? = some (.toSyslog m)) :
      ConsumerMove s k { s with syslog := s.syslog ++ [m], consumers := s.consumers.set k .popFront }
  | check (hk : s.consumers[k]? = some .checkRunning) :
      ConsumerMove s k
        { s with consumers := s.consumers.set k (if s.isRunning then .popFront else .exited) }

theorem step_of_callerMove {s s' : Logger} {c : Nat} (h : CallerMove s c s') :
    step s (.caller c) = some s' := by
  cases h <;> simp [step, callerStep, *]

theorem step_caller {s s' : Logger} {c : Nat} (h : step s (.caller c) = some s') :
    CallerMove s c s' := by
  simp only [step, callerStep] at h
  split at h <;> cases h
  · exact .setup _ ‹_› ‹_›
  · exact .log _ ‹_› ‹_›
  · exact .reset _ ‹_› ‹_›
  · exact .spawn ‹_›
  · exact .finish ‹_›

theorem step_of_consumerMove {s s' : Logger} {k : Nat} (h : ConsumerMove s k s') :
    step s (.consumer k) = some s' := by
  cases h <;> simp [step, consumerStep, *]

theorem step_consumer {s s' : Logger} {k : Nat} (h : step s (.consumer k) = some s') :
    ConsumerMove s k s' := by
  simp only [step, consumerStep] at h
  split at h
  · split at h <;> cases h
    · exact .pop _ _ ‹_› (popFront_eq_some.1 ‹_›)
    · exact .empty ‹_› (popFront_eq_none.1 ‹_›)
  all_goals cases h
  · exact .console _ ‹_›
  · exact .file _ ‹_›
  · exact .syslog _ ‹_›
  · exact .check ‹_›

theorem ConsumerMove.length_consumers {s s' : Logger} {k : Nat} (hm : ConsumerMove s k s') :
    s'.consumers.length = s.consumers.length := by
  cases hm <;> simp

/-! ## Where each message is

For each of the three output functions, every message logged so far is in exactly one place: in
`s_queue`, in the hands of a consumer that has popped it and not yet passed it to that function,
or in the function's record. -/

/-- `LogToConsole`, `LogToFile` and `Syslog`, in the order `ProcessQueue` calls them. -/
inductive Output where
  | console
  | file
  | syslog
  deriving DecidableEq, Repr

/-- The messages passed to an output function, in the order of the calls. -/
def Logger.calls (s : Logger) : Output → List Nat
  | .console => s.console
  | .file => s.file
  | .syslog => s.syslog

/-- The message a consumer holds and has not yet passed to `o`. -/
def ConsumerPc.owes : ConsumerPc → Output → Option Nat
  | .toConsole m, _ => some m
  | .toFile m, o => if o = .console then none else some m
  | .toSyslog m, o => if o = .syslog then some m else none
  | _, _ => none

/-- The messages the consumers hold and have not yet passed to `o`. -/
def Logger.owed (s : Logger) (o : Output) : List Nat := s.consumers.filterMap (·.owes o)

/-- Every message numbered below `next`, and no other, is once in the queue, the consumers' hands
or the record of `o`, for each `o`. -/
def Conserved (s : Logger) : Prop :=
  ∀ o m, (s.queue ++ s.owed o ++ s.calls o).count m = if m < s.next then 1 else 0

/-- Changing entry `k` of a list from `x` to `y` moves the count of a `filterMap` by the
difference. -/
theorem count_filterMap_set {α : Type} (f : α → Option Nat) {l : List α} {k : Nat} {x : α}
    (hk : l[k]? = some x) (y : α) (m : Nat) :
    ((l.set k y).filterMap f).count m + (f x).toList.count m =
      (l.filterMap f).count m + (f y).toList.count m := by
  have hcons (z : α) (l : List α) :
      ((z :: l).filterMap f).count m = (l.filterMap f).count m + (f z).toList.count m := by
    rw [List.filterMap_cons]
    cases f z <;> simp [List.count_cons]
  induction l generalizing k with
  | nil => simp at hk
  | cons a l ih =>
    cases k with
    | zero =>
      obtain rfl : a = x := by simpa using hk
      rw [List.set_cons_zero, hcons, hcons]
      omega
    | succ k =>
      have := ih (by simpa using hk)
      rw [List.set_cons_succ, hcons, hcons]
      omega

theorem conserved_init (programs : List (List Call)) : Conserved (Logger.init programs) := by
  intro o m
  cases o <;> simp [Logger.init, Logger.owed, Logger.calls]

/-- The invariant reads only the queue, the consumers' hands, the records and `next`. -/
theorem Conserved.of_eq {s s' : Logger} (h : Conserved s) (hq : s'.queue = s.queue)
    (ho : s'.owed = s.owed) (hc : s'.calls = s.calls) (hn : s'.next = s.next) : Conserved s' := by
  intro o m
  rw [hq, ho, hc, hn]
  exact h o m

theorem Conserved.caller {s s' : Logger} {c : Nat} (h : Conserved s) (hm : CallerMove s c s') :
    Conserved s' := by
  cases hm
  case log =>
    intro o m
    have := h o m
    change (s.queue ++ [s.next] ++ s.owed o ++ s.calls o).count m = if m < s.next + 1 then 1 else 0
    simp only [List.count_append, List.count_singleton'] at this ⊢
    split_ifs at this ⊢ <;> omega
  case spawn =>
    refine h.of_eq rfl (funext fun o => ?_) rfl rfl
    simp [Logger.owed, ConsumerPc.owes]
  all_goals exact h.of_eq rfl rfl rfl rfl

/-- A consumer's move from `x` to `y` keeps the invariant when what the queue and the records gain
balances what the consumer's hands lose. -/
theorem Conserved.move {s s' : Logger} {k : Nat} {x y : ConsumerPc} (h : Conserved s)
    (hk : s.consumers[k]? = some x) (hc : s'.consumers = s.consumers.set k y)
    (hn : s'.next = s.next)
    (hbal : ∀ o m, (s'.queue ++ s'.calls o).count m + (y.owes o).toList.count m =
      (s.queue ++ s.calls o).count m + (x.owes o).toList.count m) : Conserved s' := by
  intro o m
  have h₁ := h o m
  have h₂ := count_filterMap_set (·.owes o) hk y m
  have h₃ := hbal o m
  simp only [Logger.owed, hc, hn, List.count_append] at h₁ h₂ h₃ ⊢
  omega

theorem Conserved.consumer {s s' : Logger} {k : Nat} (h : Conserved s) (hm : ConsumerMove s k s') :
    Conserved s' := by
  cases hm
  case pop m' q hk hq =>
    refine h.move hk rfl rfl fun o m => ?_
    cases o <;> simp [ConsumerPc.owes, Logger.calls, hq, List.count_cons]
  case empty hk hq => exact h.move hk rfl rfl fun o m => rfl
  case console m' hk =>
    refine h.move hk rfl rfl fun o m => ?_
    cases o <;> simp [ConsumerPc.owes, Logger.calls, List.count_singleton', Nat.add_assoc]
  case file m' hk =>
    refine h.move hk rfl rfl fun o m => ?_
    cases o <;> simp [ConsumerPc.owes, Logger.calls, List.count_singleton', Nat.add_assoc]
  case syslog m' hk =>
    refine h.move hk rfl rfl fun o m => ?_
    cases o <;> simp [ConsumerPc.owes, Logger.calls, List.count_singleton', Nat.add_assoc]
  case check hk =>
    refine h.move hk rfl rfl fun o m => ?_
    split <;> rfl

theorem Reachable.conserved {programs : List (List Call)} {s : Logger} (h : Reachable programs s) :
    Conserved s := by
  induction h with
  | init => exact conserved_init programs
  | step a _ hs ih =>
    cases a with
    | caller c => exact ih.caller (step_caller hs)
    | consumer k => exact ih.consumer (step_consumer hs)

/-- However many consumers run, every logged message is in exactly one place for each output
function (`Conserved`), so each output function gets each logged message at most once, and only
logged messages. -/
theorem outputs_once {programs : List (List Call)} {s : Logger} (h : Reachable programs s) :
    Conserved s ∧ ∀ o, (s.calls o).Nodup ∧ ∀ m ∈ s.calls o, m < s.next := by
  refine ⟨h.conserved, fun o => ?_⟩
  have hc (m : Nat) : (s.calls o).count m ≤ if m < s.next then 1 else 0 := by
    rw [← h.conserved o m, List.count_append]
    exact Nat.le_add_left _ _
  refine ⟨List.nodup_iff_count_le_one.2 fun m => (hc m).trans (by split_ifs <;> omega), fun m hm => ?_⟩
  have := (hc m).trans_lt' (List.count_pos_iff.2 hm)
  split_ifs at this <;> omega

/-- Two consumers, which pass messages `1` and `0` to `LogToFile` in that order: still once each. -/
theorem outputs_once_two_consumers :
    ∃ s, Reachable [[.setup, .setup, .log, .log]] s ∧ s.file = [1, 0] ∧ Conserved s ∧
      (s.calls .file).Nodup ∧ ∀ m ∈ s.calls .file, m < s.next := by
  obtain ⟨s, hs, h⟩ := exists_reachable_of_run [[.setup, .setup, .log, .log]]
    (List.replicate 6 (.caller 0) ++
      [.consumer 0, .consumer 1, .consumer 1, .consumer 1, .consumer 0, .consumer 0])
    (fun s => s.file == [1, 0]) (by decide)
  exact ⟨s, hs, by simpa using h, (outputs_once hs).1, (outputs_once hs).2 .file⟩

/-! ## One consumer keeps the order -/

theorem eq_singleton_of_length_le_one {α : Type} {l : List α} {k : Nat} {x : α}
    (hk : l[k]? = some x) (hl : l.length ≤ 1) : l = [x] ∧ k = 0 := by
  match l, k, hk with
  | [y], 0, hk => simpa using hk
  | [_], k + 1, hk => simp at hk
  | _ :: _ :: _, _, _ => simp at hl

/-- With one consumer, its move from `x` to `y` keeps the order when it only passes a message
along: from the queue to its hands, or from its hands to the record of `LogToFile`. -/
theorem fifo_move {s s' : Logger} {k : Nat} {x y : ConsumerPc}
    (hk : s.consumers[k]? = some x) (hl : s.consumers.length ≤ 1)
    (hc : s'.consumers = s.consumers.set k y) (hn : s'.next = s.next)
    (hkeep : s'.file ++ (y.owes .file).toList ++ s'.queue =
      s.file ++ (x.owes .file).toList ++ s.queue)
    (h : s.file ++ s.owed .file ++ s.queue = List.range s.next) :
    s'.file ++ s'.owed .file ++ s'.queue = List.range s'.next := by
  obtain ⟨hone, rfl⟩ := eq_singleton_of_length_le_one hk hl
  have owed_singleton (z : ConsumerPc) : [z].filterMap (·.owes .file) = (z.owes .file).toList := by
    rw [List.filterMap_cons, List.filterMap_nil]
    cases z.owes .file <;> rfl
  rw [Logger.owed, hc, hone, List.set_cons_zero, owed_singleton, hkeep, hn, ← h, Logger.owed,
    hone, owed_singleton]

theorem fifo_consumer {s s' : Logger} {k : Nat} (hm : ConsumerMove s k s')
    (hl : s.consumers.length ≤ 1) (h : s.file ++ s.owed .file ++ s.queue = List.range s.next) :
    s'.file ++ s'.owed .file ++ s'.queue = List.range s'.next := by
  cases hm
  case pop m q hk hq => exact fifo_move hk hl rfl rfl (by simp [hq, ConsumerPc.owes]) h
  case empty hk _ => exact fifo_move hk hl rfl rfl rfl h
  case check hk => exact fifo_move hk hl rfl rfl (by split <;> rfl) h
  all_goals exact fifo_move ‹_› hl rfl rfl (by simp [ConsumerPc.owes]) h

/-- While at most one `ProcessQueue` thread has been started, `LogToFile` gets the messages in the
order of their `PushBack`s: its record, then the message the consumer holds for it, then the
queue, are the messages logged so far, in order. -/
theorem fifo_of_one_consumer {programs : List (List Call)} {s : Logger} (h : Reachable programs s)
    (hl : s.consumers.length ≤ 1) : s.file ++ s.owed .file ++ s.queue = List.range s.next := by
  induction h with
  | init => simp [Logger.init, Logger.owed]
  | step a _ hs ih =>
    cases a with
    | caller c =>
      cases step_caller hs
      case log =>
        rw [List.range_succ, ← ih hl]
        simp [pushBack, Logger.owed]
      case spawn =>
        have hnil : _ = [] := List.length_eq_zero.1 (by simpa using hl)
        simpa [Logger.owed, hnil, ConsumerPc.owes] using ih (by simp [hnil])
      all_goals exact ih hl
    | consumer k =>
      have hm := step_consumer hs
      have hlen := hm.length_consumers
      exact fifo_consumer hm (hlen ▸ hl) (ih (hlen ▸ hl))

/-- One `Setup` and two `Log` calls: the consumer has passed message `0` to `LogToFile`. -/
theorem fifo_of_one_consumer_two_logs :
    ∃ s, Reachable [[.setup, .log, .log]] s ∧ s.consumers.length ≤ 1 ∧ s.file = [0] ∧
      s.file ++ s.owed .file ++ s.queue = List.range s.next := by
  obtain ⟨s, hs, h⟩ := exists_reachable_of_run [[.setup, .log, .log]]
    (List.replicate 4 (.caller 0) ++ List.replicate 4 (.consumer 0))
    (fun s => s.consumers.length ≤ 1 && s.file == [0]) (by decide)
  simp only [Bool.and_eq_true, decide_eq_true_eq, beq_iff_eq] at h
  exact ⟨s, hs, h.1, h.2, fifo_of_one_consumer hs h.1⟩

/-! ## `Reset` does not wait for the queue -/

/-- `k` calls of `Log` by caller `c` push the next `k` numbers, in order. -/
theorem reachable_logs {programs : List (List Call)} {c : Nat} {rest : List Call} (k : Nat) :
    ∀ s, Reachable programs s → s.callers c = .ready →
      s.programs c = List.replicate k .log ++ rest →
      ∃ s', Reachable programs s' ∧ s'.callers c = .ready ∧ s'.programs c = rest ∧
        s'.queue = s.queue ++ List.range' s.next k ∧ s'.consumers = s.consumers ∧
        s'.console = s.console ∧ s'.file = s.file ∧ s'.syslog = s.syslog := by
  induction k with
  | zero => intro s hs hc hp; exact ⟨s, hs, hc, hp, by simp, rfl, rfl, rfl, rfl⟩
  | succ k ih =>
    intro s hs hc hp
    obtain ⟨s', hs', hc', hp', hq', hrest⟩ := ih _ (hs.step _ (step_of_callerMove (.log _ hc hp)))
      hc (by simp)
    refine ⟨s', hs', hc', hp', ?_, hrest⟩
    rw [hq', List.range'_succ]
    simp [pushBack]

/-- One caller calls `Setup`, then `Log` `k` times, then `Reset`, and the consumer `Setup` started
is not scheduled before `Reset` returns. When it returns, all `k` messages are still in `s_queue`,
and none has been passed to `LogToConsole`, `LogToFile` or `Syslog`. -/
theorem reset_returns_with_messages_queued (k : Nat) :
    ∃ s, Reachable [.setup :: List.replicate k .log ++ [.reset]] s ∧ s.callers 0 = .ready ∧
      s.programs 0 = [] ∧ s.consumers = [.popFront] ∧ s.queue = List.range k ∧
      s.console = [] ∧ s.file = [] ∧ s.syslog = [] := by
  have h₁ := (Reachable.init : Reachable [.setup :: List.replicate k .log ++ [.reset]] _).step
    (.caller 0) (step_of_callerMove (.setup (List.replicate k .log ++ [.reset]) (by rfl) (by rfl)))
  have h₂ := h₁.step _ (step_of_callerMove (.spawn (update_same _ _ _)))
  obtain ⟨s, hs, hc, hp, hq, hcs, hcon, hfile, hsys⟩ :=
    @reachable_logs _ 0 [.reset] k _ h₂ (by simp) (by simp [Logger.init])
  have h₃ := hs.step _ (step_of_callerMove (.reset [] hc hp))
  have h₄ := h₃.step _ (step_of_callerMove (.finish (update_same _ _ _)))
  exact ⟨_, h₄, by simp, by simp, hcs, by simpa [Logger.init, List.range_eq_range'] using hq, hcon,
    hfile, hsys⟩

/-! ## Two consumers -/

/-- The test fixture's `Setup` and a second `Setup`, then two `Log` calls. The consumer the second
`Setup` started pops message `1` after the first has popped message `0`, and passes it to
`LogToFile` first. -/
theorem log_to_file_out_of_order :
    ∃ s, Reachable [[.setup, .setup, .log, .log]] s ∧ s.file = [1, 0] := by
  obtain ⟨s, hs, h⟩ := exists_reachable_of_run [[.setup, .setup, .log, .log]]
    (List.replicate 6 (.caller 0) ++
      [.consumer 0, .consumer 1, .consumer 1, .consumer 1, .consumer 0, .consumer 0])
    (fun s => s.file == [1, 0]) (by decide)
  exact ⟨s, hs, by simpa using h⟩

/-! ## A live consumer drains the queue

`ProcessQueue` leaves only from its check of `is_running`. A consumer is live while it will come
back to its `PopFront`: it is in the inner loop, or at the check while `is_running` is `true`.
From every reachable state with a live consumer, the consumers alone, with no caller taking a
step, pass every message logged so far to each output function and empty the queue. Every step of
such a run lowers `drainLeft` by one. -/

/-- Steps of a consumer to its next `PopFront`. -/
def ConsumerPc.toPop : ConsumerPc → Nat
  | .toConsole _ => 3
  | .toFile _ => 2
  | .toSyslog _ | .checkRunning => 1
  | .popFront | .exited => 0

/-- The consumer will pop again, given the value of `is_running`. -/
def ConsumerPc.Live (running : Bool) : ConsumerPc → Prop
  | .checkRunning => running = true
  | .exited => False
  | _ => True

/-- Four steps per queued message (its pop and three calls), and the steps each consumer still has
to its next `PopFront`. -/
def Logger.drainLeft (s : Logger) : Nat :=
  4 * s.queue.length + s.consumers.foldr (fun c n => c.toPop + n) 0

theorem foldr_add_set {α : Type} (f : α → Nat) {l : List α} {k : Nat} {x : α} (hk : l[k]? = some x)
    (y : α) :
    (l.set k y).foldr (fun a n => f a + n) 0 + f x = l.foldr (fun a n => f a + n) 0 + f y := by
  induction l generalizing k with
  | nil => simp at hk
  | cons a l ih =>
    cases k with
    | zero =>
      obtain rfl : a = x := by simpa using hk
      simp only [List.set_cons_zero, List.foldr_cons]
      omega
    | succ k =>
      have := ih (by simpa using hk)
      simp only [List.set_cons_succ, List.foldr_cons]
      omega

/-- A consumer's move from `x` to `y`, as `drainLeft` counts it. -/
theorem drainLeft_move {s s' : Logger} {j : Nat} {x y : ConsumerPc} (hj : s.consumers[j]? = some x)
    (hc : s'.consumers = s.consumers.set j y) :
    s'.drainLeft + 4 * s.queue.length + x.toPop = s.drainLeft + 4 * s'.queue.length + y.toPop := by
  have := foldr_add_set ConsumerPc.toPop hj y
  simp only [Logger.drainLeft, hc]
  omega

/-- A move of consumer `j` to a place that is live when `j` is the consumer watched, `k`, keeps
`k` live. -/
theorem live_move {s s' : Logger} {j k : Nat} {c y : ConsumerPc} (hk : s.consumers[k]? = some c)
    (hc : c.Live s.isRunning) (hcs : s'.consumers = s.consumers.set j y)
    (hr : s'.isRunning = s.isRunning) (hy : j = k → y.Live s.isRunning) :
    ∃ c', s'.consumers[k]? = some c' ∧ c'.Live s'.isRunning := by
  rw [hcs, hr]
  by_cases hjk : j = k
  · subst hjk
    exact ⟨y, List.getElem?_set_self (List.getElem?_eq_some_iff.1 hk).1, hy rfl⟩
  · exact ⟨c, by rw [List.getElem?_set_ne hjk, hk], hc⟩

/-- Only messages held in a consumer's hands are owed, and each is owed to `Syslog`. -/
theorem owes_eq_none {x : ConsumerPc} (hx : x.owes .syslog = none) (o : Output) :
    x.owes o = none := by
  cases x <;> cases o <;> simp_all [ConsumerPc.owes]

/-- While a message is queued or held, some consumer takes a step that keeps consumer `k` live and
lowers `drainLeft`. -/
theorem exists_drainMove {s : Logger} {k : Nat} {c : ConsumerPc} (hk : s.consumers[k]? = some c)
    (hc : c.Live s.isRunning) (hne : s.queue ≠ [] ∨ s.owed .syslog ≠ []) :
    ∃ j s', ConsumerMove s j s' ∧ s'.drainLeft < s.drainLeft ∧
      ∃ c', s'.consumers[k]? = some c' ∧ c'.Live s'.isRunning := by
  -- a move of consumer `j` from `x` to `y` that lowers the count and keeps `k` live
  have hmove {j : Nat} {x y : ConsumerPc} {s' : Logger} (hj : s.consumers[j]? = some x)
      (hm : ConsumerMove s j s') (hcs : s'.consumers = s.consumers.set j y)
      (hr : s'.isRunning = s.isRunning)
      (hlt : 4 * s'.queue.length + y.toPop < 4 * s.queue.length + x.toPop)
      (hy : j = k → y.Live s.isRunning) :
      ∃ j s', ConsumerMove s j s' ∧ s'.drainLeft < s.drainLeft ∧
        ∃ c', s'.consumers[k]? = some c' ∧ c'.Live s'.isRunning := by
    have := drainLeft_move hj hcs
    exact ⟨j, s', hm, by omega, live_move hk hc hcs hr hy⟩
  by_cases hheld : s.owed .syslog = []
  · -- no message is held, so consumer `k` pops the next one, after its check if it is there
    have hq := hne.resolve_right (not_not.2 hheld)
    have hcn : c.owes .syslog = none :=
      List.filterMap_eq_nil_iff.1 hheld c (List.mem_iff_getElem?.2 ⟨k, hk⟩)
    obtain ⟨m, q, hmq⟩ := List.exists_cons_of_ne_nil hq
    cases c with
    | popFront =>
      exact hmove hk (.pop m q hk hmq) rfl rfl (by simp [hmq, ConsumerPc.toPop]; omega)
        fun _ => trivial
    | checkRunning =>
      have hr : s.isRunning = true := hc
      exact hmove (y := .popFront) hk (.check hk) (by simp [hr]) rfl (by simp [ConsumerPc.toPop])
        fun _ => trivial
    | exited => exact absurd hc id
    | _ => simp [ConsumerPc.owes] at hcn
  · -- a consumer holding a message makes its next call
    obtain ⟨m, hm⟩ := List.exists_mem_of_ne_nil _ hheld
    obtain ⟨x, hx, hxm⟩ := List.mem_filterMap.1 hm
    obtain ⟨j, hj⟩ := List.mem_iff_getElem?.1 hx
    cases x with
    | toConsole m =>
      exact hmove hj (.console m hj) rfl rfl (by simp [ConsumerPc.toPop]) fun _ => trivial
    | toFile m => exact hmove hj (.file m hj) rfl rfl (by simp [ConsumerPc.toPop]) fun _ => trivial
    | toSyslog m =>
      exact hmove hj (.syslog m hj) rfl rfl (by simp [ConsumerPc.toPop]) fun _ => trivial
    | _ => simp [ConsumerPc.owes] at hxm

theorem ConsumerMove.next_eq {s s' : Logger} {k : Nat} (hm : ConsumerMove s k s') :
    s'.next = s.next := by
  cases hm <;> rfl

/-- The consumers alone bring a reachable state with a live consumer to one where no message is
queued or held. -/
theorem exists_drain {programs : List (List Call)} {s : Logger} (h : Reachable programs s)
    {k : Nat} {c : ConsumerPc} (hk : s.consumers[k]? = some c) (hc : c.Live s.isRunning) :
    ∃ (ks : List Nat) (s' : Logger), run s (ks.map .consumer) = some s' ∧
      Reachable programs s' ∧ s'.next = s.next ∧ s'.queue = [] ∧ s'.owed .syslog = [] := by
  obtain ⟨n, hn⟩ : ∃ n, s.drainLeft = n := ⟨_, rfl⟩
  induction n using Nat.strong_induction_on generalizing s c with
  | _ n ih =>
    by_cases hdone : s.queue = [] ∧ s.owed .syslog = []
    · exact ⟨[], s, rfl, h, rfl, hdone⟩
    obtain ⟨j, s₁, hm, hlt, c₁, hk₁, hc₁⟩ := exists_drainMove hk hc (by tauto)
    have hs := step_of_consumerMove hm
    obtain ⟨ks, s', hrun, rest⟩ := ih _ (hn ▸ hlt) (h.step _ hs) hk₁ hc₁ rfl
    exact ⟨j :: ks, s', by simp [run, hs, hrun], rest.1, rest.2.1.trans hm.next_eq, rest.2.2⟩

/-- From every reachable state in which some `ProcessQueue` thread is live, the consumers alone,
with no caller taking a step, empty `s_queue` and pass every message logged so far to each of
`LogToConsole`, `LogToFile` and `Syslog`, exactly once. -/
theorem consumers_drain {programs : List (List Call)} {s : Logger} (h : Reachable programs s)
    {k : Nat} {c : ConsumerPc} (hk : s.consumers[k]? = some c) (hc : c.Live s.isRunning) :
    ∃ (ks : List Nat) (s' : Logger), run s (ks.map .consumer) = some s' ∧ s'.next = s.next ∧
      s'.queue = [] ∧ ∀ o, (s'.calls o).Perm (List.range s.next) := by
  obtain ⟨ks, s', hrun, hr', hn, hq, hheld⟩ := exists_drain h hk hc
  refine ⟨ks, s', hrun, hn, hq, fun o => List.perm_iff_count.2 fun m => ?_⟩
  have howed : s'.owed o = [] := List.filterMap_eq_nil_iff.2 fun x hx =>
    owes_eq_none (List.filterMap_eq_nil_iff.1 hheld x hx) o
  have := hr'.conserved o m
  rw [hq, howed, List.nil_append, List.nil_append, hn] at this
  rw [this, List.count_eq_of_nodup (List.nodup_range _)]
  simp only [List.mem_range]

/-- One caller calls `Setup`, `Log` twice and `Reset`, before the consumer is scheduled: the
consumer is live at its `PopFront`, and drains both messages. -/
theorem consumers_drain_after_reset :
    ∃ s, Reachable [[.setup, .log, .log, .reset]] s ∧ s.isRunning = false ∧
      s.consumers = [.popFront] ∧ s.queue = [0, 1] ∧
      ∃ (ks : List Nat) (s' : Logger), run s (ks.map .consumer) = some s' ∧ s'.next = s.next ∧
        s'.queue = [] ∧ ∀ o, (s'.calls o).Perm (List.range s.next) := by
  obtain ⟨s, hs, h⟩ := exists_reachable_of_run [[.setup, .log, .log, .reset]]
    (List.replicate 6 (.caller 0))
    (fun s => !s.isRunning && s.consumers == [.popFront] && s.queue == [0, 1]) (by decide)
  simp only [Bool.and_eq_true, Bool.not_eq_true', beq_iff_eq] at h
  obtain ⟨⟨hr, hc⟩, hq⟩ := h
  exact ⟨s, hs, hr, hc, hq, consumers_drain hs (k := 0) (c := .popFront) (by rw [hc]; rfl) trivial⟩

/-! ## With no live consumer, nothing is output again

A consumer leaves `ProcessQueue` once it has found the queue empty and then read `is_running` as
`false`. When every consumer has left and no `Setup` is pending, no later step calls an output
function: every message logged from then on stays in `s_queue`, until a `Setup` starts a new
consumer. -/

/-- Every consumer has left `ProcessQueue`, and no caller has a `Setup` to run or to finish. -/
def Logger.Frozen (s : Logger) : Prop :=
  (∀ c ∈ s.consumers, c = .exited) ∧ ∀ c, s.callers c ≠ .setupSpawn ∧ .setup ∉ s.programs c

/-- A move of caller `c` that starts no `Setup` keeps the state frozen. -/
theorem Logger.Frozen.caller {s s' : Logger} {c : Nat} (h : s.Frozen)
    (hcons : s'.consumers = s.consumers)
    (hcall : ∀ c', c' ≠ c → s'.callers c' = s.callers c' ∧ s'.programs c' = s.programs c')
    (hc : s'.callers c ≠ .setupSpawn) (hp : .setup ∉ s'.programs c) : s'.Frozen := by
  refine ⟨hcons ▸ h.1, fun c' => ?_⟩
  by_cases hc' : c' = c
  · subst hc'; exact ⟨hc, hp⟩
  · rw [(hcall c' hc').1, (hcall c' hc').2]; exact h.2 c'

/-- A step from a frozen state is a `Log` or a `Reset`: it keeps the state frozen, calls no output
function, and at most pushes the next message. -/
theorem Logger.Frozen.step {s s' : Logger} {a : Act} (h : s.Frozen) (hs : step s a = some s') :
    s'.Frozen ∧ s'.calls = s.calls ∧ s.next ≤ s'.next ∧
      s'.queue = s.queue ++ List.range' s.next (s'.next - s.next) := by
  cases a with
  | consumer k =>
    -- every consumer has left, so none takes a step
    exfalso
    cases step_consumer hs <;>
      exact absurd (h.1 _ (List.mem_iff_getElem?.2 ⟨k, ‹s.consumers[k]? = some _›⟩)) (by simp)
  | caller c =>
    have hmem {x : Call} {rest : List Call} (hp : s.programs c = x :: rest) : .setup ∉ rest :=
      fun hr => (h.2 c).2 (hp ▸ List.mem_cons_of_mem _ hr)
    cases step_caller hs with
    | setup rest _ hp => exact absurd (hp ▸ List.mem_cons_self _ _) (h.2 c).2
    | spawn hc => exact absurd hc (h.2 c).1
    | log rest hc hp =>
      refine ⟨h.caller (c := c) rfl (fun c' hc' => by simp [update_noteq hc']) (by simp [hc])
        (by simpa using hmem hp), rfl, Nat.le_succ _, ?_⟩
      simp [pushBack]
    | reset rest _ hp =>
      exact ⟨h.caller (c := c) rfl (fun c' hc' => by simp [update_noteq hc']) (by simp)
        (by simpa using hmem hp), rfl, le_rfl, by simp⟩
    | finish _ =>
      exact ⟨h.caller (c := c) rfl (fun c' hc' => by simp [update_noteq hc']) (by simp)
        (h.2 c).2, rfl, le_rfl, by simp⟩

/-- Once every `ProcessQueue` thread has left and no `Setup` is pending, no run calls
`LogToConsole`, `LogToFile` or `Syslog` again: every message logged from then on stays in
`s_queue`, in order. -/
theorem logs_stay_queued {s s' : Logger} (h : s.Frozen) {as : List Act}
    (hrun : run s as = some s') :
    (∀ o, s'.calls o = s.calls o) ∧ s.next ≤ s'.next ∧
      s'.queue = s.queue ++ List.range' s.next (s'.next - s.next) := by
  induction as generalizing s with
  | nil => cases hrun; simp
  | cons a as ih =>
    obtain ⟨s₁, h₁, h₂⟩ := Option.bind_eq_some.mp hrun
    obtain ⟨hf, hc, hn, hq⟩ := h.step h₁
    obtain ⟨hc', hn', hq'⟩ := ih hf h₂
    refine ⟨fun o => by rw [hc', hc], hn.trans hn', ?_⟩
    have happ := List.range'_append_1 s.next (s₁.next - s.next) (s'.next - s₁.next)
    rw [show s.next + (s₁.next - s.next) = s₁.next by omega,
      show s'.next - s₁.next + (s₁.next - s.next) = s'.next - s.next by omega] at happ
    rw [hq', hq, List.append_assoc, happ]

/-- A caller with no program takes no step: it stays between calls with nothing to run. -/
theorem Reachable.idle_beyond {programs : List (List Call)} {s : Logger}
    (h : Reachable programs s) {c : Nat} (hc : programs.length ≤ c) :
    s.callers c = .ready ∧ s.programs c = [] := by
  induction h with
  | init => simp [Logger.init, List.getElem?_eq_none hc]
  | step a _ hs ih =>
    cases a with
    | caller c' =>
      by_cases hcc : c' = c
      · subst hcc
        cases step_caller hs <;> simp_all
      · cases step_caller hs <;> simp [update_noteq (Ne.symm hcc), ih]
    | consumer k => cases step_consumer hs <;> exact ih

/-- `Setup`, `Reset`, and the consumer finds the queue empty and leaves before the caller's `Log`:
the message stays in `s_queue`. -/
theorem logs_stay_queued_after_reset :
    ∃ s s', Reachable [[.setup, .reset, .log]] s ∧ s.Frozen ∧ run s [.caller 0] = some s' ∧
      s'.queue = [0] ∧ (∀ o, s'.calls o = s.calls o) ∧ s.next ≤ s'.next ∧
        s'.queue = s.queue ++ List.range' s.next (s'.next - s.next) := by
  obtain ⟨s, hs, h⟩ := exists_reachable_of_run [[.setup, .reset, .log]]
    (List.replicate 4 (.caller 0) ++ [.consumer 0, .consumer 0])
    (fun s => s.consumers == [.exited] && s.callers 0 == .ready && s.programs 0 == [.log] &&
      s.queue == [] && s.next == 0) (by decide)
  simp only [Bool.and_eq_true, beq_iff_eq] at h
  obtain ⟨⟨⟨⟨hcons, hc⟩, hp⟩, hq⟩, hn⟩ := h
  have hfrozen : s.Frozen := by
    refine ⟨by simp [hcons], fun c => ?_⟩
    rcases Nat.eq_zero_or_pos c with rfl | hc0
    · simp [hc, hp]
    · simp [(hs.idle_beyond (show [[Call.setup, .reset, .log]].length ≤ c from hc0)).1,
        (hs.idle_beyond (show [[Call.setup, .reset, .log]].length ≤ c from hc0)).2]
  have hrun : run s [.caller 0] =
      some { s with queue := pushBack s.queue s.next, next := s.next + 1,
                    programs := update s.programs 0 [] } := by
    rw [run, step_of_callerMove (CallerMove.log [] hc hp)]
    rfl
  exact ⟨s, _, hs, hfrozen, hrun, by simp [pushBack, hq, hn], logs_stay_queued hfrozen hrun⟩

end SsLogger.Logging
