import Mathlib.Algebra.Ring.Int.Defs
import Mathlib.Algebra.Ring.Nat
import Mathlib.Data.List.Basic

/-!
# Panicking computations

Rust code that may panic is a computation in `Except Panic`. The kinds of panic are kept apart so
that a statement can say which sites are never reached.
-/

namespace Pinrail

abbrev Str := List Char

instance : LawfulBEq Str := inferInstance

namespace Lib

inductive Panic where
  /-- `Option::unwrap` of `None`. -/
  | unwrapNone
  | capacity
  /-- `unreachable!()` or an explicit `panic!` on the wrong variant. -/
  | unreachable
  | indexOutOfBounds
  | addOverflow
  | subOverflow
  /-- `assert!` with a false condition. -/
  | assertion
  /-- The bound on a loop of the model is used up; no Rust behaviour. -/
  | outOfFuel
deriving DecidableEq

universe u v
variable {α β : Type u}

theorem ok_bind {ε : Type v} (a : α) (f : α → Except ε β) : ((Except.ok a : Except ε α) >>= f) = f a := rfl

theorem error_bind {ε : Type v} (e : ε) (f : α → Except ε β) : ((Except.error e : Except ε α) >>= f) = .error e := rfl

theorem bind_eq_ok {ε : Type v} {x : Except ε α} {f : α → Except ε β} {b : β} :
    (x >>= f) = .ok b ↔ ∃ a, x = .ok a ∧ f a = .ok b := by
  cases x with
  | error e => simp [error_bind]
  | ok a => simp [ok_bind]

theorem pure_eq_ok {ε : Type v} {a b : α} : (pure a : Except ε α) = .ok b ↔ a = b := by
  constructor
  · intro h
    cases h
    rfl
  · rintro rfl
    rfl

/-! ## Unwrapping, checked arithmetic and indexing -/

/-- `Option::unwrap`. -/
def unwrap : Option α → Except Panic α
  | some a => .ok a
  | none => .error .unwrapNone

/-- `assert!(p)`. -/
def assert (p : Prop) [Decidable p] : Except Panic PUnit :=
  if p then .ok ⟨⟩ else .error .assertion

/-- Slice indexing `xs[i]`. -/
def index (xs : List α) (i : Nat) : Except Panic α :=
  match xs[i]? with
  | some a => .ok a
  | none => .error .indexOutOfBounds

/-- The slice `&xs[i..]`. -/
def sliceFrom (xs : List α) (i : Nat) : Except Panic (List α) :=
  if i ≤ xs.length then .ok (xs.drop i) else .error .indexOutOfBounds

/-- The slice `&xs[..i]`. -/
def sliceTo (xs : List α) (i : Nat) : Except Panic (List α) :=
  if i ≤ xs.length then .ok (xs.take i) else .error .indexOutOfBounds

/-- The slice `&xs[i..j]`. -/
def sliceRange (xs : List α) (i j : Nat) : Except Panic (List α) :=
  if i ≤ j ∧ j ≤ xs.length then .ok ((xs.take j).drop i) else .error .indexOutOfBounds

/-- Unsigned `m - n`. -/
def checkedSub (m n : Nat) : Except Panic Nat :=
  if n ≤ m then .ok (m - n) else .error .subOverflow

/-- Unsigned `m + n` at width `bits`. -/
def checkedAdd (bits m n : Nat) : Except Panic Nat :=
  if m + n < 2 ^ bits then .ok (m + n) else .error .addOverflow

theorem unwrap_some (a : α) : unwrap (some a) = .ok a := rfl

theorem eq_some_of_unwrap {o : Option α} {a : α} (h : unwrap o = .ok a) : o = some a := by
  cases o with
  | none => cases h
  | some b =>
    cases h
    rfl

theorem assert_of {p : Prop} [Decidable p] (h : p) : assert p = .ok ⟨⟩ := if_pos h

theorem index_of_lt {xs : List α} {i : Nat} (h : i < xs.length) : index xs i = .ok xs[i] := by
  simp [index, h]

theorem index_of_getElem? {xs : List α} {i : Nat} {a : α} (h : xs[i]? = some a) : index xs i = .ok a := by
  simp [index, h]

theorem getElem?_of_index {xs : List α} {i : Nat} {a : α} (h : index xs i = .ok a) : xs[i]? = some a := by
  unfold index at h
  split at h
  · cases h
    assumption
  · cases h

theorem mem_of_index {xs : List α} {i : Nat} {a : α} (h : index xs i = .ok a) : a ∈ xs :=
  List.mem_of_getElem? (getElem?_of_index h)

theorem sub_of_checkedSub {m n k : Nat} (h : checkedSub m n = .ok k) : k + n = m := by
  unfold checkedSub at h
  split_ifs at h
  cases h
  omega

theorem index_append (left : List α) (a : α) (right : List α) : index (left ++ a :: right) left.length = .ok a :=
  index_of_getElem? (by simp)

theorem sliceFrom_append (left right : List α) : sliceFrom (left ++ right) left.length = .ok right := by
  simp [sliceFrom]

theorem eq_drop_of_sliceFrom {xs ys : List α} {i : Nat} (h : sliceFrom xs i = .ok ys) : ys = xs.drop i := by
  unfold sliceFrom at h
  split_ifs at h
  cases h
  rfl

theorem zip_map_self (f : α → β) (xs : List α) : xs.zip (xs.map f) = xs.map fun x => (x, f x) := by
  induction xs with
  | nil => rfl
  | cons x xs ih => simp [ih]

theorem checkedSub_of_le {m n : Nat} (h : n ≤ m) : checkedSub m n = .ok (m - n) := if_pos h

theorem checkedAdd_of_lt {bits m n : Nat} (h : m + n < 2 ^ bits) : checkedAdd bits m n = .ok (m + n) := if_pos h

/-! ## Vectors of fixed capacity -/

/-- `collect` and `extend` into a vector of capacity `cap`, which panic when it is full. -/
def collect (cap : Nat) (xs : List α) : Except Panic (List α) :=
  if xs.length ≤ cap then .ok xs else .error .capacity

/-- `push(x).unwrap_oob()` on a vector of capacity `cap`. -/
def push (cap : Nat) (xs : List α) (x : α) : Except Panic (List α) :=
  if xs.length < cap then .ok (xs ++ [x]) else .error .capacity

/-- `insert(0, x).unwrap_oob()` on a vector of capacity `cap`. -/
def insertFront (cap : Nat) (x : α) (xs : List α) : Except Panic (List α) :=
  if xs.length < cap then .ok (x :: xs) else .error .capacity

/-- `*xs.first_mut().unwrap() = x`. -/
def setFirst : List α → α → Except Panic (List α)
  | [], _ => .error .unwrapNone
  | _ :: xs, x => .ok (x :: xs)

/-- `*xs.last_mut().unwrap() = x`. -/
def setLast (xs : List α) (x : α) : Except Panic (List α) :=
  if xs.isEmpty then .error .unwrapNone else .ok (xs.dropLast ++ [x])

/-- `xs.drain(..n)`: the drained prefix and what is left. -/
def drainFront (n : Nat) (xs : List α) : Except Panic (List α × List α) :=
  if n ≤ xs.length then .ok (xs.take n, xs.drop n) else .error .indexOutOfBounds

/-- `xs.swap(i, j)`. -/
def swap (xs : List α) (i j : Nat) : Except Panic (List α) := do
  let a ← index xs i
  let b ← index xs j
  return (xs.set i b).set j a

theorem collect_of_le {cap : Nat} {xs : List α} (h : xs.length ≤ cap) : collect cap xs = .ok xs := if_pos h

theorem eq_of_collect {cap : Nat} {xs ys : List α} (h : collect cap xs = .ok ys) : ys = xs := by
  unfold collect at h
  split_ifs at h
  cases h
  rfl

theorem push_of_lt {cap : Nat} {xs : List α} {x : α} (h : xs.length < cap) : push cap xs x = .ok (xs ++ [x]) := if_pos h

theorem eq_of_push {cap : Nat} {xs ys : List α} {x : α} (h : push cap xs x = .ok ys) : ys = xs ++ [x] := by
  unfold push at h
  split_ifs at h
  cases h
  rfl

theorem setLast_map_concat (f : β → α) (xs : List β) (x y : β) :
    setLast ((xs ++ [x]).map f) (f y) = .ok ((xs ++ [y]).map f) := by
  simp [setLast]

theorem drainFront_of_le {n : Nat} {xs : List α} (h : n ≤ xs.length) :
    drainFront n xs = .ok (xs.take n, xs.drop n) := if_pos h

theorem eq_of_drainFront {n : Nat} {xs front back : List α}
    (h : drainFront n xs = .ok (front, back)) : front = xs.take n ∧ back = xs.drop n := by
  unfold drainFront at h
  split_ifs at h
  cases h
  exact ⟨rfl, rfl⟩

theorem swap_of_lt {xs : List α} {i j : Nat} (hi : i < xs.length) (hj : j < xs.length) :
    swap xs i j = .ok ((xs.set i xs[j]).set j xs[i]) := by
  rw [swap, index_of_lt hi, ok_bind, index_of_lt hj, ok_bind]
  rfl

theorem swap_last {xs : List α} {i : Nat} {a : α} (f : α → β) (at_ : xs[i]? = some a) :
    ∃ ys : List α, swap (xs.map f) i (xs.length - 1) = .ok (ys.map f) ∧ ys.Perm xs ∧ ys.getLast? = some a := by
  obtain ⟨low, rfl⟩ := List.getElem?_eq_some_iff.mp at_
  have last : xs.length - 1 < xs.length := by omega
  refine ⟨(xs.set i xs[xs.length - 1]).set (xs.length - 1) xs[i], ?_, List.set_set_perm low last, ?_⟩
  · rw [swap_of_lt (by simpa using low) (by simpa using last)]
    simp [List.map_set]
  · rw [List.getLast?_eq_getElem?]
    simp [last]

theorem insertFront_of_lt {cap : Nat} {xs : List α} {x : α} (h : xs.length < cap) :
    insertFront cap x xs = .ok (x :: xs) := if_pos h

theorem eq_of_insertFront {cap : Nat} {xs ys : List α} {x : α} (h : insertFront cap x xs = .ok ys) : ys = x :: xs := by
  unfold insertFront at h
  split_ifs at h
  cases h
  rfl

end Lib
end Pinrail
