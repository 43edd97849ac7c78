import Darling.Decimal

/-!
# Hexadecimal numbers in text

`__simple_atoi16`, and the digits as `%0*x` prints them.
-/

namespace Darling

open List

def isdigit16 (c : Byte) : Bool := isdigit c || (97 ≤ c && c ≤ 102) || (65 ≤ c && c ≤ 70)

/-- What a digit adds to the value; `F` adds nothing. -/
def digit16 (c : Byte) : ℕ :=
  if 48 ≤ c ∧ c ≤ 57 then c.toNat - 48
  else if 97 ≤ c ∧ c ≤ 102 then 10 + (c.toNat - 97)
  else if 65 ≤ c ∧ c < 70 then 10 + (c.toNat - 65)
  else 0

def atoi16 (s : Bytes) : ℕ :=
  (s.takeWhile isdigit16).foldl (fun value c => (value * 16 + digit16 c) % 2 ^ 64) 0

def hexDigit (d : ℕ) : Byte := UInt8.ofNat (if d < 10 then 48 + d else 87 + d)

def hexAux : ℕ → ℕ → Bytes
  | 0, _ => []
  | k + 1, n => if n < 16 then [hexDigit n] else hexAux k (n / 16) ++ [hexDigit (n % 16)]

def hex (width n : ℕ) : Bytes :=
  replicate (width - (hexAux (n + 1) n).length) 48 ++ hexAux (n + 1) n

theorem isdigit16_hexDigit : ∀ {d : ℕ}, d < 16 → isdigit16 (hexDigit d) = true := by decide

theorem digit16_hexDigit : ∀ {d : ℕ}, d < 16 → digit16 (hexDigit d) = d := by decide

theorem isNumeral_hexAux : IsNumeral 16 hexDigit hexAux := fun _ _ => rfl

theorem isdigit16_hex (width n : ℕ) : ∀ c ∈ hex width n, isdigit16 c = true := by
  intro c hc
  rcases mem_append.1 hc with hc | hc
  · rw [eq_of_mem_replicate hc]
    decide
  · exact isNumeral_hexAux.all (P := (isdigit16 · = true)) (by decide)
      (fun _ => isdigit16_hexDigit) n.lt_succ_self c hc

theorem foldl_zeros : ∀ k : ℕ,
    (replicate k (48 : Byte)).foldl (fun value c => (value * 16 + digit16 c) % 2 ^ 64) 0 = 0
  | 0 => rfl
  | k + 1 => by
    rw [replicate_succ, foldl_cons, show (0 * 16 + digit16 48) % 2 ^ 64 = 0 from rfl]
    exact foldl_zeros k

theorem atoi16_hex {width n : ℕ} (hn : n < 2 ^ 64) {c : Byte} (hc : isdigit16 c = false)
    (r : Bytes) : atoi16 (hex width n ++ c :: r) = n := by
  have htake : (hex width n ++ c :: r).takeWhile isdigit16 = hex width n := by
    rw [takeWhile_append_of_pos (isdigit16_hex width n), takeWhile_cons_of_neg (by simp [hc]),
      append_nil]
  rw [atoi16, htake, hex, foldl_append, foldl_zeros]
  exact (isNumeral_hexAux.read (by decide) (fun _ hd => (digit16_hexDigit hd).le) n.lt_succ_self
    hn).2.2 fun _ hd => digit16_hexDigit (Nat.digits_lt_base (by decide) hd)

theorem not_mem_hex {width n : ℕ} {c : Byte} (hc : isdigit16 c = false) : c ∉ hex width n := by
  intro h
  rw [isdigit16_hex width n c h] at hc
  cases hc

end Darling
