import Mathlib.Data.Nat.Notation

/-!
# Four-character codes

`UTCreateStringForOSType` and `UTGetOSTypeFromString` of `UTType.m`.
-/

namespace Darling.UTType

/-- A string, and whether `CFStringGetCStringPtr` can point to the letters. -/
structure CFString where
  chars : List (BitVec 16)
  direct : Bool
  deriving DecidableEq

/-- The letters that are stored while `shift`, `8 * k`, is not 0. -/
def letters (inOSType : BitVec 32) : ℕ → List (BitVec 8)
  | 0 => []
  | k + 1 => (inOSType >>> (8 * (k + 1)) &&& 0xff).setWidth 8 :: letters inOSType k

def cfStringCreateWithCString (direct : Bool) (buf : List (BitVec 8)) : Option CFString :=
  let str := buf.takeWhile (· ≠ 0)
  if ∀ c ∈ str, c < 128 then some ⟨str.map (·.setWidth 16), direct⟩ else none

def utCreateStringForOSType (direct : Bool) (inOSType : BitVec 32) : Option CFString :=
  cfStringCreateWithCString direct (letters inOSType 3 ++ [0])

def cfStringGetCStringPtr (s : CFString) : Option (List (BitVec 8)) :=
  if s.direct ∧ ∀ c ∈ s.chars, c < 128 then some (s.chars.map (·.setWidth 8)) else none

/-- The body of the loop; `none` if it reads through `NULL`. -/
def shiftIn (s : CFString) (retval : BitVec 32) (i : ℕ) : Option (BitVec 32) := do
  let retval ← if i < s.chars.length then do
      some (retval ||| (← (← cfStringGetCStringPtr s)[i]?).setWidth 32)
    else some retval
  some (retval <<< 8)

def utGetOSTypeFromString : Option CFString → Option (BitVec 32)
  | none => some 0
  | some s => if 4 < s.chars.length then some 0 else (List.range 4).foldlM (shiftIn s) 0

end Darling.UTType
