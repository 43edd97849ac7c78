import Mathlib.Data.List.Basic

/-!
# Fixed arrays that hold terminated strings

A C array of `n` cells is the list of its `n` values.  Every access names the index it touches and
is `none` when that index lies outside the array, so a computation over arrays that is `some` has
touched nothing but its arrays.  `z` is the value that ends a string.
-/

namespace Darling

theorem some_bind {α β : Type _} (a : α) (f : α → Option β) : (some a >>= f) = f a := rfl

namespace CArray

variable {α : Type*}

/-- `a[i] = x`. -/
def store (a : List α) (i : ℕ) (x : α) : Option (List α) :=
  if i < a.length then some (a.set i x) else none

/-- `memcpy(a + i, s, |s|)`. -/
def blit (a : List α) (i : ℕ) (s : List α) : Option (List α) :=
  if i + s.length ≤ a.length then some (a.take i ++ (s ++ a.drop (i + s.length))) else none

/-- The `n` values at `a + i`, as `memcpy` reads them. -/
def slice (a : List α) (i n : ℕ) : Option (List α) :=
  if i + n ≤ a.length then some ((a.drop i).take n) else none

/-- `memmove(a + i, a + j, n)`. -/
def move (a : List α) (i j n : ℕ) : Option (List α) :=
  if j + n ≤ a.length then blit a i ((a.drop j).take n) else none

/-- The values in front of the first `z`; running past the last cell is an access outside. -/
def readTo [DecidableEq α] (z : α) : List α → Option (List α)
  | [] => none
  | x :: xs => if x = z then some [] else (readTo z xs).map (x :: ·)

def str [DecidableEq α] (z : α) (a : List α) (i : ℕ) : Option (List α) := readTo z (a.drop i)

/-- How many cells of the array pass the test before the first that does not; running past the last
cell is an access outside. -/
def scan (p : α → Bool) : List α → Option ℕ
  | [] => none
  | x :: xs => if p x then (scan p xs).map (· + 1) else some 0

/-- `strcpy(a + i, s)`: the values of `s` and the terminator. -/
def strcpy (z : α) (a : List α) (i : ℕ) (s : List α) : Option (List α) := blit a i (s ++ [z])

def strcat [DecidableEq α] (z : α) (a : List α) (s : List α) : Option (List α) := do
  let t ← str z a 0
  strcpy z a t.length s

/-- Step down from `a[p]` to the nearest `x`; stepping below `a[0]` is an access outside. -/
def scanBack [DecidableEq α] (a : List α) (x : α) : ℕ → Option ℕ
  | 0 => if a[0]? = some x then some 0 else none
  | p + 1 => if a[p + 1]? = some x then some (p + 1) else scanBack a x p

def Spells (z : α) (a s : List α) : Prop := z ∉ s ∧ ∃ rest, a = s ++ z :: rest

def ofString (z : α) (n : ℕ) (s : List α) : List α := s ++ List.replicate (n - s.length) z

/-- What stands in front of the last `x` of `s`. -/
def beforeLast [DecidableEq α] (x : α) : List α → Option (List α)
  | [] => none
  | y :: s =>
    match beforeLast x s with
    | some t => some (y :: t)
    | none => if y = x then some [] else none

end CArray

end Darling
