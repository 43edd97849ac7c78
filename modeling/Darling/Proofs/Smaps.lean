import Darling.Proofs.Fields
import Darling.RegionPath
import Darling.Smaps

/-!
# `parse_smaps_firstline` on the lines of `smaps`

The position is followed by what stands behind it.  On the first line of a mapping every field is
stored, except that a mapping without a name leaves the path as it was.
-/

namespace Darling.RegionPath

open CArray Fields List

theorem bind_of_some {α β : Type} {x : Option α} {a : α} (h : x = some a) (f : α → Option β) :
    (x >>= f) = f a := by
  rw [h]
  rfl

section Readers

variable {line r s : Bytes} {p : ℕ} {c : Byte}

theorem drop_past (h : line.drop p = s ++ r) : line.drop (p + s.length) = r := by
  rw [← drop_drop, h, drop_left]

theorem drop_next (h : line.drop p = s ++ c :: r) : line.drop (p + s.length + 1) = r := by
  rw [← drop_drop, drop_past h]
  rfl

theorem getElem_of_drop (i : ℕ) {t : Bytes} (h : line.drop p = t) : (line)[p + i]? = t[i]? := by
  rw [← h, getElem?_drop]

theorem atoi16At_eq {w n : ℕ} (h : line.drop p = hex w n ++ c :: r) (hn : n < 2 ^ 64)
    (hc : isdigit16 c = false) : atoi16At line p = some (n, p + (hex w n).length) := by
  rw [atoi16At, h, scan_append hc (isdigit16_hex w n), atoi16_hex hn hc]
  rfl

theorem atoiAt_eq {n : ℕ} (h : line.drop p = decimal n ++ c :: r) (hn : n < 2 ^ 64)
    (hc : isdigit c = false) : atoiAt line p = some (n, p + (decimal n).length) := by
  have htake : (decimal n ++ c :: r).takeWhile isdigit = (decimal n).takeWhile isdigit := by
    rw [takeWhile_append_of_pos (isdigit_decimal n), takeWhile_cons_of_neg (by simp [hc]),
      append_nil, takeWhile_eq_self_iff.2 (isdigit_decimal n)]
  rw [atoiAt, h, scan_append hc (isdigit_decimal n), atoi, htake]
  exact congrArg some (congrArg (·, _) (atoi_decimal hn))

theorem scanRange_word :
    ∀ {w : Bytes} {p : ℕ} {minus : Option ℕ}, (∀ c ∈ w, c ≠ 0 ∧ c ≠ 32 ∧ c ≠ 45) →
    ∀ r, scanRange (w ++ r) p minus = scanRange r (p + w.length) minus
  | [], _, _, _, _ => rfl
  | c :: w, p, minus, hw, r => by
    rw [forall_mem_cons] at hw
    obtain ⟨⟨h0, h32, h45⟩, hw⟩ := hw
    rw [cons_append, scanRange, if_neg (by simp [h0, h32]), if_neg h45, scanRange_word hw,
      length_cons, Nat.add_assoc, Nat.add_comm 1]

theorem scanRange_range {x y : Bytes} (hx : ∀ c ∈ x, c ≠ 0 ∧ c ≠ 32 ∧ c ≠ 45)
    (hy : ∀ c ∈ y, c ≠ 0 ∧ c ≠ 32 ∧ c ≠ 45) (r : Bytes) :
    scanRange (x ++ 45 :: (y ++ 32 :: r)) 0 none = some
      (x.length + 1 + y.length, some x.length) := by
  rw [scanRange_word hx, scanRange, if_neg (by decide), if_pos rfl, scanRange_word hy, scanRange,
    if_pos (.inr rfl), Nat.zero_add]

end Readers

/-- The line does not begin like that of a mapping. -/
def Plain (line : Bytes) : Prop := 45 ∉ line.takeWhile (· ≠ 32)

instance (line : Bytes) : Decidable (Plain line) := inferInstanceAs (Decidable (¬ _ ∈ _))

theorem scanRange_plain : ∀ {line : Bytes} {p : ℕ}, (∀ c ∈ line, c ≠ 0) → Plain line →
    ∀ stale, ∃ q, scanRange (line ++ 0 :: stale) p none = some (q, none)
  | [], p, _, _, _ => ⟨p, rfl⟩
  | c :: line, p, hnul, hplain, stale => by
    rw [forall_mem_cons] at hnul
    by_cases h32 : c = 32
    · exact ⟨p, by rw [cons_append, scanRange, if_pos (.inr h32)]⟩
    · rw [Plain, takeWhile_cons_of_pos (by simpa using h32), mem_cons, not_or] at hplain
      rw [cons_append, scanRange, if_neg (by simp [hnul.1, h32]), if_neg (Ne.symm hplain.1)]
      exact scanRange_plain hnul.2 hplain.2 stale

theorem parse_plain {line : Bytes} (hnul : ∀ c ∈ line, c ≠ 0) (hplain : Plain line) (stale : Bytes)
    (t : Targets) (frame : Bytes) :
    parseSmapsFirstline (line ++ 0 :: stale) t frame = some none := by
  obtain ⟨q, hq⟩ := scanRange_plain hnul hplain stale
  rw [parseSmapsFirstline, hq]
  rfl

theorem hex_ne (w n : ℕ) : ∀ c ∈ hex w n, c ≠ 0 ∧ c ≠ 32 ∧ c ≠ 45 := by
  intro c hc
  have := isdigit16_hex w n c hc
  refine ⟨?_, ?_, ?_⟩ <;> rintro rfl <;> exact absurd this (by decide)

namespace Mapping

variable (m : Mapping)

/-- What is stored of a mapping, and where. -/
def numbers (t : Targets) : List (Option ℕ × Bytes) :=
  [(t.address, le 8 m.start), (t.size, le 8 (m.stop - m.start)), (t.protection, le 4 m.protection),
    (t.shareMode, le 4 m.shareMode), (t.offset, le 8 m.offset),
    (t.dev, le 4 (m.major <<< 8 ||| m.minor)), (t.ino, le 8 m.ino)]

def writes (t : Targets) : List (Option ℕ × Bytes) :=
  m.numbers t ++ (if m.name = [] then [] else [(t.path, m.name ++ [0])])

theorem letters_length : m.letters.length = 4 := rfl

theorem protectionOf_letters :
    protectionOf (if m.read then 114 else 45) (if m.write then 119 else 45)
      (if m.exec then 120 else 45) = m.protection := by
  rw [protection]
  cases m.read <;> cases m.write <;> cases m.exec <;> rfl

theorem shareModeOf_letters : shareModeOf (if m.priv then 112 else 115) = m.shareMode := by
  rw [shareMode]
  cases m.priv <;> rfl

theorem wsub_stop : wsub 64 m.stop m.start = m.stop - m.start := by
  have h₁ := m.start_lt
  have h₂ := m.stop_lt
  rw [wsub]
  omega

variable {line r : Bytes} {p : ℕ}

theorem putPath_name {stale : Bytes} (h : line.drop p = m.name ++ 0 :: stale) (ptr : Option ℕ)
    (frame : Bytes) : putPath line p ptr frame =
      puts frame (if m.name = [] then [] else [(ptr, m.name ++ [0])]) := by
  have hget := getElem_of_drop 0 h
  rw [Nat.add_zero] at hget
  rw [putPath, hget]
  rcases hname : m.name with _ | ⟨c, name⟩
  · rfl
  · have hnul : 0 ∉ c :: name := fun h0 => (m.name_ok.1 0 (by rw [hname]; exact h0)).1 rfl
    have hc : c ≠ 0 := fun h0 => hnul (by rw [h0]; exact mem_cons_self)
    have hstr : str 0 line p = some (c :: name) := by
      rw [str, h, hname]
      exact readTo_append hnul stale
    cases ptr with
    | none => simp [puts, put]
    | some i => simp [hc, hstr, puts]

theorem putSize_eq (h : line.drop p = hex 8 m.stop ++ 32 :: r) (ptr : Option ℕ) (frame : Bytes) :
    putSize line p m.start ptr frame = put frame ptr (le 8 (m.stop - m.start)) := by
  cases ptr with
  | none => rfl
  | some i => rw [putSize, atoi16At_eq h m.stop_lt (by decide), ← m.wsub_stop]; rfl

section

variable (h : line.drop p = m.letters ++ 32 :: r) (ptr : Option ℕ) (frame : Bytes)

include h ptr frame

theorem putProtection_eq : putProtection line p ptr frame = put frame ptr (le 4 m.protection) := by
  cases ptr with
  | none => rfl
  | some i =>
    rw [putProtection, ← Nat.add_zero p, getElem_of_drop 0 h, Nat.add_zero, getElem_of_drop 1 h,
      getElem_of_drop 2 h, ← m.protectionOf_letters]
    rfl

theorem putShareMode_eq :
    putShareMode line (p + 3) ptr frame = put frame ptr (le 4 m.shareMode) := by
  cases ptr with
  | none => rfl
  | some i =>
    rw [putShareMode, getElem_of_drop 3 h, ← m.shareModeOf_letters]
    rfl

end

theorem scan_pad {stale : Bytes}
    (h : line.drop p = replicate (m.pad + 1) 32 ++ (m.name ++ 0 :: stale)) :
    scan (· = 32) (line.drop p) = some (m.pad + 1) ∧
      line.drop (p + (m.pad + 1)) = m.name ++ 0 :: stale := by
  have hnext : ∃ c r, m.name ++ 0 :: stale = c :: r ∧ decide (c = 32) = false := by
    have hhead := m.name_ok.2
    rcases hname : m.name with _ | ⟨c, name⟩
    · exact ⟨0, stale, rfl, rfl⟩
    · refine ⟨c, name ++ 0 :: stale, rfl, decide_eq_false fun hc => hhead ?_⟩
      rw [hname, hc]
      rfl
  obtain ⟨c, r, hr, hc⟩ := hnext
  have hscan := scan_append (p := (· = 32)) hc (s := replicate (m.pad + 1) 32)
    (fun y hy => decide_eq_true (eq_of_mem_replicate hy)) r
  refine ⟨?_, ?_⟩
  · rw [h, hr, hscan, length_replicate]
  · rw [← drop_drop, h]
    exact drop_left' length_replicate

theorem parse_header (stale : Bytes) (t : Targets) (frame : Bytes) :
    parseSmapsFirstline (m.header ++ 0 :: stale) t frame = (puts frame (m.writes t)).map some := by
  obtain ⟨line, hline⟩ : ∃ line, line = m.header ++ 0 :: stale := ⟨_, rfl⟩
  rw [← hline]
  simp only [MappingFields.header, append_assoc, cons_append] at hline
  have hstart : m.start < 2 ^ 64 := m.start_lt.trans m.stop_lt
  have hmajor : m.major < 2 ^ 64 := m.major_lt.trans (by decide)
  have hminor : m.minor < 2 ^ 64 := m.minor_lt.trans (by decide)
  have hrange : scanRange line 0 none =
      some ((hex 8 m.start).length + 1 + (hex 8 m.stop).length, some (hex 8 m.start).length) := by
    rw [hline]
    exact scanRange_range (hex_ne _ _) (hex_ne _ _) _
  have h₀ : line.drop 0 = _ := hline
  have h₁ := drop_next h₀
  rw [Nat.zero_add] at h₁
  have h₂ := drop_next h₁
  have h₃ := drop_next h₂
  rw [m.letters_length, Nat.add_assoc, Nat.add_assoc] at h₃
  have h₄ := drop_next h₃
  have h₅ := drop_next h₄
  have h₆ := drop_next h₅
  obtain ⟨hscan, h₇⟩ := m.scan_pad (drop_past h₆)
  have eshare : ∀ ptr frame, putShareMode line
      ((hex 8 m.start).length + 1 + (hex 8 m.stop).length + 4) ptr frame = _ := m.putShareMode_eq h₂
  have ewrites : (puts frame (m.writes t)).map some = (do
      let frame ← put frame t.address (le 8 m.start)
      let frame ← put frame t.size (le 8 (m.stop - m.start))
      let frame ← put frame t.protection (le 4 m.protection)
      let frame ← put frame t.shareMode (le 4 m.shareMode)
      let frame ← put frame t.offset (le 8 m.offset)
      let frame ← put frame t.dev (le 4 (m.major <<< 8 ||| m.minor))
      let frame ← put frame t.ino (le 8 m.ino)
      let frame ← puts frame (if m.name = [] then [] else [(t.path, m.name ++ [0])])
      return some frame) := by
    simp only [writes, numbers, puts_append, puts_cons, puts_nil, Option.bind_assoc,
      Option.bind_some, Option.map_eq_bind]
    rfl
  rw [ewrites]
  refine (bind_of_some hrange _).trans ?_
  refine (bind_of_some (atoi16At_eq h₀ hstart (by decide)) _).trans (bind_congr fun f₁ => ?_)
  rw [m.putSize_eq h₁]
  refine bind_congr fun f₂ => ?_
  rw [m.putProtection_eq h₂]
  refine bind_congr fun f₃ => ?_
  rw [eshare]
  refine bind_congr fun f₄ => ?_
  refine (bind_of_some (atoi16At_eq h₃ m.offset_lt (by decide)) _).trans (bind_congr fun f₅ => ?_)
  refine (bind_of_some (atoi16At_eq h₄ hmajor (by decide)) _).trans ?_
  refine (bind_of_some (atoi16At_eq h₅ hminor (by decide)) _).trans (bind_congr fun f₆ => ?_)
  refine (bind_of_some (@atoiAt_eq _ _ _ 32 _ h₆ m.ino_lt (by decide)) _).trans
    (bind_congr fun f₇ => ?_)
  refine (bind_of_some hscan _).trans ?_
  rw [m.putPath_name h₇]

end Mapping

end Darling.RegionPath
