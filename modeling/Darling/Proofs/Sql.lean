import Darling.Sql
import Mathlib.Data.Int.CharZero

/-!
# What literals, comparisons and joins mean

The lemmas by which a condition is read: a quoted text is read back, a comparison is told by the
affinities of its sides, and a join is searched table by table.
-/

namespace Darling.Sql

theorem literal_cons {c : Byte} (hq : c ≠ quote) (s : Bytes) :
    literal (c :: s) = if c = 0 then none else (literal s).map (c :: ·) := by
  cases s <;> simp [literal, hq]

theorem literal_quote_quote (s : Bytes) :
    literal (quote :: quote :: s) = (literal s).map (quote :: ·) := by
  simp [literal, show quote ≠ 0 by decide]

/-- Whatever quotes are in it, the escaped text is read back, unless a zero ends the statement. -/
theorem literal_escape (s : Bytes) :
    literal (escape s ++ [quote]) = if 0 ∈ s then none else some s := by
  induction s with
  | nil => rfl
  | cons c s ih =>
    have hescape : escape (c :: s) = (if c = quote then [quote, quote] else [c]) ++ escape s := rfl
    rw [hescape]
    by_cases hq : c = quote
    · have h0 : (0 : Byte) ≠ quote := by decide
      rw [if_pos hq, List.append_assoc, List.cons_append, List.cons_append, List.nil_append,
        literal_quote_quote, ih]
      by_cases hs : 0 ∈ s <;> simp [hs, hq, h0]
    · rw [if_neg hq, List.append_assoc, List.cons_append, List.nil_append, literal_cons hq, ih]
      by_cases h0 : c = 0
      · simp [h0]
      · by_cases hs : 0 ∈ s <;> simp [hs, h0, Ne.symm h0]

section Comparison

variable (number : Bytes → Option ℤ) {c c' : Collation}

theorem equal_integers (m n : ℕ) :
    equal number (.int m, some ⟨.integer, c⟩) (.int n, some ⟨.integer, c'⟩) = true ↔ m = n := by
  simp [equal, isInteger]

theorem equal_texts (s t : Bytes) :
    equal number (.text s, some ⟨.text, c⟩) (.text t, some ⟨.text, c'⟩) =
      sameText (some ⟨.text, c⟩) s t := by
  simp [equal, isInteger]

theorem equal_literal (s t : Bytes) :
    equal number (.text s, some ⟨.text, c⟩) (.text t, none) = sameText (some ⟨.text, c⟩) s t := by
  simp [equal, isInteger]

theorem not_equal_null (v : Value) (c : Option Column) (d : Option Column) :
    equal number (.null, c) (v, d) = false := by
  unfold equal
  split <;> simp_all [Value.numeric]

theorem equal_integer_text (n : ℕ) (t : Bytes) :
    equal number (.int n, some ⟨.integer, c⟩) (.text t, some ⟨.text, c'⟩) = true ↔
      number t = some (n : ℤ) := by
  rcases h : number t with _ | m
  · simp [equal, isInteger, Value.numeric, h]
  · simp [equal, isInteger, Value.numeric, h, eq_comm]

theorem sameText_binary {a : Affinity} (s t : Bytes) :
    sameText (some ⟨a, .binary⟩) s t = true ↔ s = t := by
  simp [sameText]

theorem sameText_noCase {a : Affinity} (s t : Bytes) :
    sameText (some ⟨a, .noCase⟩) s t = true ↔ noCase s = noCase t := by
  simp [sameText]

end Comparison

variable {ν τ γ : Type}

theorem any_product_nil (db : Database τ γ) (p : Scope ν τ (γ → Value) → Bool) :
    (product db []).any p = p [] := by
  simp [product]

theorem any_product_cons (db : Database τ γ) (t : ν × τ) (tables : List (ν × τ))
    (p : Scope ν τ (γ → Value) → Bool) : (product db (t :: tables)).any p =
      (db.rows t.2).any fun row => (product db tables).any fun scope =>
        p ((t.1, t.2, row) :: scope) := by
  rw [product, List.any_flatMap]
  simp [List.any_map, Function.comp_def]

end Darling.Sql
