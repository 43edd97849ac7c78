import Darling.FileTree
import Mathlib.Algebra.Group.Nat.Defs

/-!
# Numbers in memory

`le n x` is what a store of `x` into an unsigned integer of `n` bytes leaves in memory, `unle` what
a load reads.
-/

namespace Darling

def le : ℕ → ℕ → Bytes
  | 0, _ => []
  | n + 1, x => UInt8.ofNat x :: le n (x / 256)

def unle : Bytes → ℕ
  | [] => 0
  | b :: bs => b.toNat + 256 * unle bs

/-- The number of `n` bytes at `a + i`; `none` outside the array. -/
def load (n : ℕ) (a : Bytes) (i : ℕ) : Option ℕ :=
  if i + n ≤ a.length then some (unle ((a.drop i).take n)) else none

def big (n : ℕ) (a : Bytes) (i : ℕ) : ℕ := unle ((a.drop i).take n).reverse

/-- `__builtin_bswap16` and its kin, for a number of `n` bytes. -/
def bswap (n x : ℕ) : ℕ := unle (le n x).reverse

/-- `ALIGN`, for a power of two. -/
def align (x alignment : ℕ) : ℕ := (x + (alignment - 1)) / alignment * alignment

/-- The difference of two unsigned integers of `w` bits. -/
def wsub (w a b : ℕ) : ℕ := (a + (2 ^ w - b % 2 ^ w)) % 2 ^ w

end Darling
