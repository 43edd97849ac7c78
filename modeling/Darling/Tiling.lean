import Mathlib.Algebra.GroupWithZero.Nat
import Mathlib.Order.Nat

/-!
# Tilings of an interval

A list of items, each with a place and a length, that cover an interval one behind the other.
-/

namespace Darling

variable {α : Type*}

/-- The items fill the interval from `start` to `stop`, in order and without gaps. -/
def Tiles (addr len : α → ℕ) : ℕ → ℕ → List α → Prop
  | start, stop, [] => start = stop
  | start, stop, x :: xs => addr x = start ∧ Tiles addr len (start + len x) stop xs

namespace Tiles

variable {addr len : α → ℕ} {start stop : ℕ} {xs ys zs : List α}

theorem append_iff : ∀ {start : ℕ} {xs : List α}, Tiles addr len start stop (xs ++ ys) ↔
    ∃ mid, Tiles addr len start mid xs ∧ Tiles addr len mid stop ys
  | start, [] => by simp [Tiles]
  | start, x :: xs => by
    simp [Tiles, append_iff, and_assoc, exists_and_left]

theorem le : ∀ {start : ℕ} {xs : List α}, Tiles addr len start stop xs → start ≤ stop
  | _, [], h => Nat.le_of_eq h
  | _, _ :: _, ⟨_, h⟩ => (Nat.le_add_right _ _).trans h.le

theorem sum : ∀ {start : ℕ} {xs : List α}, Tiles addr len start stop xs →
    start + (xs.map len).sum = stop
  | _, [], h => h
  | _, _ :: _, ⟨_, h⟩ => by
    rw [List.map_cons, List.sum_cons, ← Nat.add_assoc]
    exact h.sum

theorem bounds {x : α} : ∀ {start : ℕ} {xs : List α}, Tiles addr len start stop xs → x ∈ xs →
    start ≤ addr x ∧ addr x + len x ≤ stop
  | start, y :: xs, ⟨hy, h⟩, hx => by
    rcases List.mem_cons.1 hx with rfl | hx
    · exact ⟨hy.ge, hy ▸ h.le⟩
    · have := h.bounds hx
      omega

theorem pairwise : ∀ {start : ℕ} {xs : List α}, Tiles addr len start stop xs →
    xs.Pairwise fun x y => addr x + len x ≤ addr y
  | _, [], _ => List.Pairwise.nil
  | _, _ :: _, ⟨hx, h⟩ => List.pairwise_cons.2 ⟨fun _ hy => hx ▸ (h.bounds hy).1, h.pairwise⟩

theorem eq_nil (hlen : ∀ x, 0 < len x) : ∀ {xs : List α}, Tiles addr len start start xs → xs = []
  | [], _ => rfl
  | x :: _, ⟨_, h⟩ => absurd h.le (by have := hlen x; omega)

theorem replace (h : Tiles addr len start stop (xs ++ (ys ++ zs))) {ys' : List α}
    (hys : ∀ a b, start ≤ a → b ≤ stop → Tiles addr len a b ys → Tiles addr len a b ys') :
    Tiles addr len start stop (xs ++ (ys' ++ zs)) := by
  obtain ⟨a, hxs, h⟩ := append_iff.1 h
  obtain ⟨b, hmid, hzs⟩ := append_iff.1 h
  exact append_iff.2 ⟨a, hxs, append_iff.2 ⟨b, hys a b hxs.le hzs.le hmid, hzs⟩⟩

end Tiles

end Darling
