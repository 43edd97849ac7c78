import Darling.Cells
import Darling.Proofs.CArray

/-!
# Reads of what has been stored
-/

namespace Darling.Cells

open CArray List

variable {α : Type*}

@[simp] theorem values_map_some : ∀ s : List α, values (s.map some) = some s
  | [] => rfl
  | x :: s => by
    have ih := values_map_some s
    unfold values at ih ⊢
    simp [ih]

theorem readAt_split (u w : List (Option α)) (s : List α) :
    readAt (u ++ (s.map some ++ w)) u.length s.length = some s := by
  have h := slice_split u (s.map some) w
  rw [length_map] at h
  rw [readAt, h, Option.bind_some, values_map_some]

variable {a : List (Option α)} {i : ℕ} {s : List α}

theorem readAt_outside {n : ℕ} (h : a.length < i + n) : readAt a i n = none := by
  rw [readAt, slice, if_neg (by omega), Option.bind_none]

theorem writeAt_split {v : List (Option α)} (h : s.length = v.length) (u w : List (Option α)) :
    writeAt (u ++ (v ++ w)) u.length s = some (u ++ (s.map some ++ w)) :=
  blit_split (by rw [length_map, h]) u w

theorem writeAt_fresh {n : ℕ} (h : s.length ≤ n) : writeAt (replicate n none) 0 s =
      some (s.map some ++ replicate (n - s.length) none) := by
  have hsplit : replicate n (none : Option α) =
      replicate s.length none ++ replicate (n - s.length) none := by
    rw [← replicate_add, Nat.add_sub_cancel' h]
  rw [hsplit]
  exact writeAt_split (by simp) [] _

theorem writeAt_outside (h : a.length < i + s.length) : writeAt a i s = none :=
  blit_outside (by rw [length_map]; exact h)

theorem writeAt_length {b : List (Option α)} (h : writeAt a i s = some b) :
    b.length = a.length := by
  unfold writeAt blit at h
  split_ifs at h with hle
  obtain rfl := Option.some.inj h
  simp only [length_append, length_take, length_drop]
  omega

variable [DecidableEq α] {z : α}

theorem readStr_split (h : z ∉ s) (u w : List (Option α)) :
    readStr z (u ++ (s.map some ++ some z :: w)) u.length = some s := by
  have hmem : some z ∉ s.map some := by simpa using h
  rw [readStr, str_split hmem, Option.bind_some, values_map_some]

theorem readTo_of_notMem {β : Type*} [DecidableEq β] {y : β} :
    ∀ {a : List β}, y ∉ a → readTo y a = none
  | [], _ => rfl
  | x :: a, h => by
    rw [mem_cons, not_or] at h
    rw [readTo, if_neg (Ne.symm h.1), readTo_of_notMem h.2, Option.map_none]

theorem readStr_of_notMem (h : some z ∉ a.drop i) : readStr z a i = none := by
  rw [readStr, str, readTo_of_notMem h, Option.bind_none]

end Darling.Cells
