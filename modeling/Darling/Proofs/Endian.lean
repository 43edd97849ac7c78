import Darling.Endian

/-!
# Loads read what stores wrote
-/

namespace Darling

@[simp] theorem le_length : ∀ (n x : ℕ), (le n x).length = n
  | 0, _ => rfl
  | n + 1, x => by rw [le, List.length_cons, le_length]

theorem unle_le : ∀ (n x : ℕ), unle (le n x) = x % 256 ^ n
  | 0, x => by simp [le, unle, Nat.mod_one]
  | n + 1, x => by
    have hpow : 256 ^ (n + 1) = 256 * 256 ^ n := Nat.pow_succ'
    rw [le, unle, unle_le n, UInt8.toNat_ofNat', hpow, Nat.mod_mul]

theorem unle_le_of_lt {n x : ℕ} (h : x < 256 ^ n) : unle (le n x) = x := by
  rw [unle_le, Nat.mod_eq_of_lt h]

theorem le_unle : ∀ bs : Bytes, le bs.length (unle bs) = bs
  | [] => rfl
  | b :: bs => by
    have hb : b.toNat < 256 := b.toNat_lt
    have hdiv : (b.toNat + 256 * unle bs) / 256 = unle bs := by omega
    have hlow : UInt8.ofNat (b.toNat + 256 * unle bs) = b := by
      refine UInt8.toNat_inj.1 ?_
      rw [UInt8.toNat_ofNat']
      omega
    rw [List.length_cons, unle, le, hdiv, hlow, le_unle bs]

theorem le_inj {n x y : ℕ} : le n x = le n y ↔ x % 256 ^ n = y % 256 ^ n := by
  constructor
  · intro h
    rw [← unle_le, ← unle_le, h]
  · intro h
    have hx := le_unle (le n x)
    have hy := le_unle (le n y)
    rw [le_length, unle_le] at hx hy
    rw [← hx, ← hy, h]

theorem bswap_unle {n : ℕ} {bs : Bytes} (h : bs.length = n) :
    bswap n (unle bs) = unle bs.reverse := by
  rw [bswap, ← h, le_unle]

theorem load_append {n i x : ℕ} {v : Bytes} (u w : Bytes) (h : load n v i = some x) :
    load n (u ++ (v ++ w)) (u.length + i) = some x := by
  unfold load at h ⊢
  split_ifs at h with hle
  rw [if_pos (by simp only [List.length_append]; omega), ← List.drop_drop, List.drop_left,
    List.drop_append_of_le_length (by omega),
    List.take_append_of_le_length (by rw [List.length_drop]; omega)]
  exact h

theorem load_field {n : ℕ} {u v w : Bytes} (h : v.length = n) :
    load n (u ++ (v ++ w)) u.length = some (unle v) := by
  unfold load
  rw [if_pos (by simp only [List.length_append]; omega), List.drop_left, ← h, List.take_left]

theorem bmod_of_lt {x : ℕ} (h : x < 2 ^ 31) : Int.bmod x (2 ^ 32) = x := by
  simp only [Int.bmod]
  split_ifs <;> omega

theorem wsub_of_le {w a b : ℕ} (h : b ≤ a) (ha : a < 2 ^ w) : wsub w a b = a - b := by
  have hb : b % 2 ^ w = b := Nat.mod_eq_of_lt (by omega)
  rw [wsub, hb, show a + (2 ^ w - b) = a - b + 2 ^ w by omega, Nat.add_mod_right,
    Nat.mod_eq_of_lt (by omega)]

end Darling
