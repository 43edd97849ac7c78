import Mathlib.Algebra.Order.BigOperators.Group.List
import Mathlib.Algebra.Order.Ring.Nat

/-!
# Addresses
-/

namespace Darling

/-- Where the allocator puts a new object: at any address that is not in use. -/
def allocate (place : ℕ) (used : List ℕ) : ℕ := if place ∈ used then used.sum + 1 else place

theorem allocate_notMem (place : ℕ) (used : List ℕ) : allocate place used ∉ used := by
  unfold allocate
  split_ifs with h
  · intro hmem
    have := List.le_sum_of_mem hmem
    omega
  · exact h

end Darling
