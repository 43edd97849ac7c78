import Darling.CArray
import Darling.FileTree
import Mathlib.Data.Int.Notation

/-!
# Collation keys

ICU is a `Collator`, whose keys compare as the texts do.
-/

namespace Darling.UnicodeUtilities

open CArray

/-- `CollationKey::compareTo`: the bytes, and where one key begins with the other the lengths. -/
def compareTo : Bytes → Bytes → Ordering
  | [], [] => .eq
  | [], _ :: _ => .lt
  | _ :: _, [] => .gt
  | x :: a, y :: b => (compare x y).then (compareTo a b)

structure Collator where
  key : List UInt16 → Bytes
  compare : List UInt16 → List UInt16 → Ordering
  compare_eq : ∀ s t, compare s t = compareTo (key s) (key t)

def keySize (key : Bytes) : ℕ := (key.length + 3) / 4

def ucGetCollationKey (c : Collator) (text : List UInt16) (maxKeySize : ℕ) (collationKey : Bytes) :
    Option (ℤ × ℕ × Bytes) :=
  let data := c.key text
  if 4 * maxKeySize < data.length then some (-25340, 0, collationKey)
  else do
    -- The size counts units, and `memset` clears as many bytes.
    let collationKey ← blit collationKey 0 (List.replicate (keySize data) 0)
    let collationKey ← blit collationKey 0 data
    some (0, keySize data, collationKey)

def report (result : Ordering) : Bool × ℤ :=
  (result = .eq, if result = .gt then 1 else if result = .lt then -1 else 0)

def ucCompareCollationKeys (key1 : Bytes) (key1len : ℕ) (key2 : Bytes) (key2len : ℕ) :
    Option (Bool × ℤ) := do
  let a ← slice key1 0 key1len
  let b ← slice key2 0 key2len
  some (report (compareTo a b))

def ucCompareText (c : Collator) (s t : List UInt16) : Bool × ℤ := report (c.compare s t)

end Darling.UnicodeUtilities
