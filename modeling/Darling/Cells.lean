import Darling.CArray

/-!
# Arrays whose cells may hold no value yet

A cell is `none` until something is stored in it.  Storing is as for any array; a read of a cell
that holds no value fails as one outside the array does.
-/

namespace Darling.Cells

open CArray

variable {α : Type*}

def values (cs : List (Option α)) : Option (List α) := cs.mapM id

def readAt (a : List (Option α)) (i n : ℕ) : Option (List α) := (slice a i n).bind values

def readStr [DecidableEq α] (z : α) (a : List (Option α)) (i : ℕ) : Option (List α) :=
  (str (some z) a i).bind values

/-- `memcpy(a + i, s, |s|)`. -/
def writeAt (a : List (Option α)) (i : ℕ) (s : List α) : Option (List (Option α)) :=
  blit a i (s.map some)

def writeStrn (z : α) (a : List (Option α)) (i : ℕ) (s : List α) (n : ℕ) :
    Option (List (Option α)) := writeAt a i (s.take n ++ List.replicate (n - s.length) z)

end Darling.Cells
