import Mathlib.Data.Nat.ModEq

/-!
# Rings of slots

Values stored one after the other into a fixed number of slots, again from the first one behind the
last: a slot holds the last value that was stored into it.
-/

namespace Darling.Ring

variable {α : Type*}

/-- Of `len` values stored into `n` slots, the last one in the slot of the `i`-th. -/
def last (n len i : ℕ) : ℕ := i + n * ((len - 1 - i) / n)

structure Holds (n : ℕ) (xs slots : List α) (next : ℕ) : Prop where
  length : slots.length = n
  next : next = xs.length % n
  slot : ∀ i < xs.length, slots[i % n]? = xs[last n xs.length i]?

variable {n len i : ℕ}

theorem last_lt (h : i < len) : last n len i < len := by
  have hle := Nat.mul_div_le (len - 1 - i) n
  unfold last
  omega

theorem last_eq_self (h : i < len) (hlt : len - i ≤ n) : last n len i = i := by
  rw [last, Nat.div_eq_of_lt (by omega), Nat.mul_zero, Nat.add_zero]

theorem last_succ_same (hi : i ≤ len) (h : i % n = len % n) : last n (len + 1) i = len := by
  have hdvd : n ∣ len - i := (Nat.modEq_iff_dvd' hi).1 h
  have hmul := Nat.mul_div_cancel' hdvd
  rw [last, show len + 1 - 1 - i = len - i by omega, hmul]
  omega

theorem last_succ_other (hi : i < len) (h : i % n ≠ len % n) :
    last n (len + 1) i = last n len i := by
  have hdvd : ¬ n ∣ len - 1 - i + 1 := by
    rw [show len - 1 - i + 1 = len - i by omega]
    exact fun hdvd => h ((Nat.modEq_iff_dvd' hi.le).2 hdvd)
  rw [last, last, show len + 1 - 1 - i = len - 1 - i + 1 by omega, Nat.succ_div_of_not_dvd hdvd]

theorem holds_nil {slots : List α} (h : slots.length = n) : Holds n [] slots 0 where
  length := h
  next := (Nat.zero_mod _).symm
  slot _ hi := absurd hi (Nat.not_lt_zero _)

theorem Holds.store {xs slots : List α} {next : ℕ} (hn : 0 < n) (h : Holds n xs slots next)
    (x : α) :
    Holds n (xs ++ [x]) (slots.set next x) ((next + 1) % n) where
  length := by rw [List.length_set, h.length]
  next := by rw [h.next, List.length_append, List.length_singleton, Nat.mod_add_mod]
  slot i hi := by
    rw [List.length_append, List.length_singleton] at hi ⊢
    have hmod : xs.length % n < slots.length := by
      rw [h.length]
      exact Nat.mod_lt _ hn
    rw [h.next]
    by_cases hsame : i % n = xs.length % n
    · rw [last_succ_same (by omega) hsame, hsame, List.getElem?_set_self hmod,
        List.getElem?_concat_length]
    · have hlt : i < xs.length := lt_of_le_of_ne (by omega) fun heq => hsame (by rw [heq])
      rw [last_succ_other hlt hsame, List.getElem?_set_ne (Ne.symm hsame), h.slot i hlt,
        List.getElem?_append_left (last_lt hlt)]

end Darling.Ring
