import Darling.FileTree
import Mathlib.Data.List.TakeWhile
import Mathlib.Data.Nat.Digits.Defs

/-!
# Decimal numbers as text
-/

namespace Darling

open List

def isdigit (c : Byte) : Bool := 48 ≤ c && c ≤ 57

/-- `__simple_atoi`: the digits in front, as an `unsigned long long`. -/
def atoi (s : Bytes) : ℕ :=
  (s.takeWhile isdigit).foldl (fun value c => (value * 10 + (c.toNat - 48)) % 2 ^ 64) 0

def decimalAux : ℕ → ℕ → Bytes
  | 0, _ => []
  | k + 1, n =>
    if n < 10 then [UInt8.ofNat (48 + n)]
    else decimalAux k (n / 10) ++ [UInt8.ofNat (48 + n % 10)]

def decimal (n : ℕ) : Bytes := decimalAux (n + 1) n

def decimalInt (n : ℤ) : Bytes := if n < 0 then 45 :: decimal n.natAbs else decimal n.natAbs

/-- `aux` gives the digits of a number in the base `b`, as long as there is fuel. -/
def IsNumeral (b : ℕ) (dig : ℕ → Byte) (aux : ℕ → ℕ → Bytes) : Prop :=
  ∀ k n, aux (k + 1) n = if n < b then [dig n] else aux k (n / b) ++ [dig (n % b)]

namespace IsNumeral

theorem div_lt {b n k : ℕ} (hb : 1 < b) (hn : ¬ n < b) (hk : n < k + 1) : n / b < k :=
  (Nat.div_lt_self (by omega) hb).trans_le (Nat.le_of_lt_succ hk)

variable {b : ℕ} {dig : ℕ → Byte} {aux : ℕ → ℕ → Bytes} (h : IsNumeral b dig aux) (hb : 1 < b)

include h hb

theorem all {P : Byte → Prop} (hP : ∀ d < b, P (dig d)) : ∀ {k n : ℕ}, n < k → ∀ c ∈ aux k n, P c
  | k + 1, n, hk, c, hc => by
    rw [h k n] at hc
    split_ifs at hc with hlt
    · rw [mem_singleton.1 hc]
      exact hP n hlt
    · rcases mem_append.1 hc with hc | hc
      · exact all hP (div_lt hb hlt hk) c hc
      · rw [mem_singleton.1 hc]
        exact hP _ (Nat.mod_lt n (by omega))

/-- Reading the digits with values that are not larger gives the number exactly if each digit has
its own value. -/
theorem read {f : Byte → ℕ} (hval : ∀ d < b, f (dig d) ≤ d) : ∀ {k n : ℕ}, n < k →
    n < 2 ^ 64 → (aux k n).foldl (fun v c => (v * b + f c) % 2 ^ 64) 0 ≤ n ∧
      ((aux k n).foldl (fun v c => (v * b + f c) % 2 ^ 64) 0 = n ↔
        ∀ d ∈ Nat.digits b n, f (dig d) = d)
  | k + 1, n, hk, hn => by
    rw [h k n]
    split_ifs with hlt
    · have hle := hval n hlt
      simp only [foldl_cons, foldl_nil, Nat.zero_mul, Nat.zero_add,
        Nat.mod_eq_of_lt (hle.trans_lt hn)]
      refine ⟨hle, ?_⟩
      rcases n.eq_zero_or_pos with rfl | hpos
      · simpa using hle
      · simp [Nat.digits_of_lt b n hpos.ne' hlt]
    · obtain ⟨hle, hiff⟩ := read hval (div_lt hb hlt hk) ((Nat.div_le_self n b).trans_lt hn)
      have hmod := hval _ (Nat.mod_lt n (by omega))
      have hsum := Nat.div_add_mod' n b
      have hmul := Nat.mul_le_mul_right b hle
      rw [foldl_append, Nat.digits_def' hb (by omega), forall_mem_cons, ← hiff, foldl_cons,
        foldl_nil, Nat.mod_eq_of_lt (by omega)]
      refine ⟨by omega, fun heq => ⟨by omega, ?_⟩, fun ⟨hlast, hhigh⟩ => by rw [hlast, hhigh, hsum]⟩
      exact Nat.eq_of_mul_eq_mul_right (by omega : 0 < b) (by omega)

theorem length_le : ∀ {k n m : ℕ}, n < k → n < b ^ (m + 1) → (aux k n).length ≤ m + 1
  | k + 1, n, m, hk, hn => by
    rw [h k n]
    split_ifs with hlt
    · simp
    · rcases m with _ | m
      · exact absurd (by simpa using hn) hlt
      · rw [Nat.pow_succ'] at hn
        rw [length_append, length_singleton]
        exact Nat.succ_le_succ (length_le (div_lt hb hlt hk) (Nat.div_lt_of_lt_mul hn))

end IsNumeral

theorem isdigit_digit : ∀ {d : ℕ}, d < 10 → isdigit (UInt8.ofNat (48 + d)) = true := by decide

theorem isNumeral_decimalAux : IsNumeral 10 (fun d => UInt8.ofNat (48 + d)) decimalAux :=
  fun _ _ => rfl

theorem isdigit_decimal (n : ℕ) : ∀ c ∈ decimal n, isdigit c = true :=
  isNumeral_decimalAux.all (by decide) (fun _ => isdigit_digit) n.lt_succ_self

theorem not_mem_decimal {c : Byte} (n : ℕ) (h : isdigit c = false) : c ∉ decimal n := by
  intro hc
  rw [isdigit_decimal n c hc] at h
  cases h

theorem not_mem_decimalInt {c : Byte} (n : ℤ) (h : isdigit c = false) (hc : c ≠ 45) :
    c ∉ decimalInt n := by
  unfold decimalInt
  split_ifs
  · rw [mem_cons, not_or]
    exact ⟨hc, not_mem_decimal _ h⟩
  · exact not_mem_decimal _ h

theorem atoi_decimal {n : ℕ} (h : n < 2 ^ 64) : atoi (decimal n) = n := by
  rw [atoi, takeWhile_eq_self_iff.2 (isdigit_decimal n)]
  have hval : ∀ d < 10, (UInt8.ofNat (48 + d)).toNat - 48 = d := by decide
  exact (isNumeral_decimalAux.read (f := (·.toNat - 48)) (by decide) (fun d hd => (hval d hd).le)
    n.lt_succ_self h).2.2 fun d hd => hval d (Nat.digits_lt_base (by decide) hd)

theorem decimal_ne_nil (n : ℕ) : decimal n ≠ [] := by
  rw [decimal, decimalAux]
  split_ifs <;> simp

theorem length_decimal {n m : ℕ} (h : n < 10 ^ (m + 1)) : (decimal n).length ≤ m + 1 :=
  isNumeral_decimalAux.length_le (by decide) n.lt_succ_self h

end Darling
