import Mathlib.Data.List.Basic

set_option autoImplicit false

/-! # `ThreadSafeQueue`: the deque under the pool

`ThreadSafeQueue<T>` wraps a flat-combining `FCDeque<T>`. Each of `PushBack`, `PopFront` and
`PopBack` is one atomic operation on the deque, so a queue's contents are a `List`, front first,
and each operation is a function on it. `CopyFrontAndRotateToBack` is *not* one operation: it is a
`PopFront` followed by a `PushBack`, and another thread may act on the queue in between. The pool
model (`ThreadPool/Model.lean`) therefore takes the two halves as separate steps; the function
below is the composition, what a caller sees when nothing runs in between. -/

namespace SsLogger.ThreadSafeQueue

variable {α : Type}

/-- `PushBack`: the value goes to the tail. -/
def pushBack (q : List α) (x : α) : List α := q ++ [x]

/-- `PopFront`: the head and the rest, or `std::nullopt` on an empty deque. -/
def popFront : List α → Option (α × List α)
  | [] => none
  | x :: q => some (x, q)

/-- `PopBack`: the last element and what stays in front of it. -/
def popBack (q : List α) : Option (α × List α) :=
  q.getLast?.map fun x => (x, q.dropLast)

/-- `CopyFrontAndRotateToBack`, run with no other thread between its `PopFront` and its
`PushBack`: the front value, and the queue with that value moved to the tail. -/
def copyFrontAndRotateToBack (q : List α) : Option α × List α :=
  match popFront q with
  | none => (none, q)
  | some (x, rest) => (some x, pushBack rest x)

@[simp] theorem pushBack_length (q : List α) (x : α) : (pushBack q x).length = q.length + 1 := by
  simp [pushBack]

@[simp] theorem mem_pushBack {q : List α} {x y : α} : y ∈ pushBack q x ↔ y ∈ q ∨ y = x := by
  simp [pushBack]

@[simp] theorem popFront_nil : popFront ([] : List α) = none := rfl

@[simp] theorem popFront_cons (x : α) (q : List α) : popFront (x :: q) = some (x, q) := rfl

theorem popFront_eq_some {q rest : List α} {x : α} :
    popFront q = some (x, rest) ↔ q = x :: rest := by
  cases q <;> simp [popFront, eq_comm]

theorem popFront_eq_none {q : List α} : popFront q = none ↔ q = [] := by
  cases q <;> simp [popFront]

theorem popBack_eq_some {q rest : List α} {x : α} :
    popBack q = some (x, rest) ↔ q = rest ++ [x] := by
  constructor
  · intro h
    obtain ⟨y, hy, hxy⟩ := Option.map_eq_some'.mp h
    obtain ⟨rfl, rfl⟩ := Prod.mk.inj hxy
    exact (List.dropLast_append_getLast? _ hy).symm
  · rintro rfl
    simp [popBack]

theorem popBack_eq_none {q : List α} : popBack q = none ↔ q = [] := by
  simp [popBack]

/-- Rotation keeps the queue's elements, counted with multiplicity. -/
theorem copyFrontAndRotateToBack_perm (q : List α) :
    (copyFrontAndRotateToBack q).2.Perm q := by
  cases q with
  | nil => rfl
  | cons x rest => simp [copyFrontAndRotateToBack, pushBack]

/-- On a non-empty queue the front value comes back, and it is now the tail. -/
theorem copyFrontAndRotateToBack_cons (x : α) (rest : List α) :
    copyFrontAndRotateToBack (x :: rest) = (some x, rest ++ [x]) := rfl

end SsLogger.ThreadSafeQueue
