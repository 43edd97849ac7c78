import Darling.UTType

/-!
# Four-character codes do not round trip

The string of a code has three letters at most, and the code of a string is shifted once too often.
-/

namespace Darling.UTType

def IsAscii (s : List (BitVec 16)) : Prop := ∀ c ∈ s, c < 128

/-- The bytes of a code, from the most significant one on. -/
def bytes (x : BitVec 32) : List (BitVec 16) :=
  [24, 16, 8, 0].map fun shift => (x.extractLsb' shift 8).setWidth 16

/-- The bytes of a string as a code, with zeros behind them. -/
def aligned (s : List (BitVec 16)) : BitVec 32 :=
  s.foldl (fun (v : BitVec 32) c => v <<< 8 ||| (c.setWidth 8).setWidth 32) 0 <<<
    (8 * (4 - s.length))

theorem length_utCreateStringForOSType {direct : Bool} {x : BitVec 32} {t : CFString}
    (h : utCreateStringForOSType direct x = some t) : t.chars.length < 4 := by
  have hlt : ∀ a b c : BitVec 8, ([a, b, c, 0].takeWhile (· ≠ 0)).length < 4 := by
    intro a b c
    simp only [List.takeWhile]
    repeat' split
    all_goals simp_all
  simp only [utCreateStringForOSType, cfStringCreateWithCString, Option.ite_none_right_eq_some,
    Option.some.injEq] at h
  rw [← h.2, List.length_map]
  exact hlt _ _ _

section

variable {s : CFString} (ha : IsAscii s.chars) (hl : s.chars.length ≤ 4)

include ha hl

theorem utGetOSTypeFromString_eq (hd : s.direct) :
    utGetOSTypeFromString (some s) = some (aligned s.chars <<< 8) := by
  obtain ⟨chars, direct⟩ := s
  have hptr : cfStringGetCStringPtr ⟨chars, direct⟩ = some (chars.map (·.setWidth 8)) :=
    if_pos ⟨hd, ha⟩
  rcases chars with _ | ⟨a, _ | ⟨b, _ | ⟨c, _ | ⟨d, _ | _⟩⟩⟩⟩
  case cons.cons.cons.cons.cons => exact absurd hl (Nat.not_le.2 (Nat.le_add_left 5 _))
  all_goals simp [utGetOSTypeFromString, List.range_succ, shiftIn, hptr, aligned,
    ← BitVec.shiftLeft_add]

/-- A code that is itself when it is shifted by a byte is 0. -/
theorem utGetOSTypeFromString_iff : utGetOSTypeFromString (some s) = some (aligned s.chars) ↔
    (s.chars = [] ∨ s.direct) ∧ aligned s.chars = 0 := by
  by_cases hd : s.direct
  · rw [utGetOSTypeFromString_eq ha hl hd, Option.some.injEq, and_iff_right (.inr hd)]
    refine ⟨fun h => ?_, fun h => by rw [h]; rfl⟩
    have : aligned s.chars <<< (8 + 8 + 8 + 8) = 0 := BitVec.shiftLeft_eq_zero (by decide)
    simpa only [BitVec.shiftLeft_add, h] using this
  · obtain ⟨_ | ⟨c, chars⟩, direct⟩ := s
    · simp [utGetOSTypeFromString, List.range_succ, shiftIn, aligned]
    · have hptr : cfStringGetCStringPtr ⟨c :: chars, direct⟩ = none := if_neg fun h => hd h.1
      simp [utGetOSTypeFromString, List.range_succ, shiftIn, hptr] at *
      grind

end

/-- Both laws hold only where they say nothing, apart from strings of NULs. -/
theorem codes_iff (x : BitVec 32) (direct : Bool) (s : CFString) :
    ((IsAscii (bytes x) ∧ 0 ∉ bytes x → ∃ t, utCreateStringForOSType direct x = some t ∧
        t.chars = bytes x ∧ utGetOSTypeFromString (some t) = some x) ∧
      (IsAscii s.chars → s.chars.length ≤ 4 →
        utGetOSTypeFromString (some s) = some (aligned s.chars))) ↔
    ¬(IsAscii (bytes x) ∧ 0 ∉ bytes x) ∧ (IsAscii s.chars → s.chars.length ≤ 4 →
      (s.chars = [] ∨ s.direct) ∧ aligned s.chars = 0) := by
  refine and_congr ⟨fun h hx => ?_, fun hx h => absurd h hx⟩
    (forall_congr' fun ha => forall_congr' fun hl => utGetOSTypeFromString_iff ha hl)
  obtain ⟨t, ht, hchars, -⟩ := h hx
  have hlt := length_utCreateStringForOSType ht
  rw [hchars] at hlt
  exact Nat.lt_irrefl 4 hlt

/-- The code `abcd` gives the string `abc`, and the string `abcd` the code of `bcd`. -/
theorem codes_abcd : utCreateStringForOSType true 0x61626364 = some ⟨[97, 98, 99], true⟩ ∧
    utGetOSTypeFromString (some ⟨[97, 98, 99, 100], true⟩) = some 0x62636400 :=
  ⟨by decide +kernel, utGetOSTypeFromString_eq (by simp [IsAscii]) (by decide) rfl⟩

end Darling.UTType
