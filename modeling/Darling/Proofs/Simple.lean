import Darling.Hexadecimal
import Darling.Simple
import Darling.Proofs.CArray
import Darling.Proofs.Endian

/-!
# The printer stores as much of its text as there is room for

What is put down does not depend on how it is put down, so the text is the one of the run without a
limit.  The texts of numbers are read back as long as `__simple_atoi16` knows their digits.
-/

namespace Darling.Simple

open CArray List

section

variable {σ : Type} (put : Byte → σ → Option σ)

@[simp] theorem puts_nil (st : σ) : puts put [] st = some st := rfl

@[simp] theorem puts_cons (c : Byte) (t : Bytes) (st : σ) :
    puts put (c :: t) st = (put c st).bind fun st => puts put t st := rfl

theorem puts_append (s t : Bytes) (st : σ) :
    puts put (s ++ t) st = (puts put s st).bind (puts put t) := foldlM_append

@[simp] theorem puts_grow : ∀ t s : Bytes, puts grow t s = some (s ++ t)
  | [], s => by simp
  | c :: t, s => by simp [puts_grow t]

/-- The bytes of a conversion are the same however they are put down. -/
theorem conversion_eq (c : Byte) (args : List Arg) (st : σ) : conversion put c args st =
    (conversion grow c args []).bind fun r =>
      (puts put r.1 st).map (·, r.2) := by
  unfold conversion putDigits
  split
  case h_3 n args =>
    by_cases hneg : Int.bmod n (2 ^ 32) < 0
    · simp only [if_pos hneg]
      cases digits 10 16 (Int.bmod (-Int.bmod n (2 ^ 32)) (2 ^ 32)) <;> simp
    · simp only [if_neg hneg]
      cases digits 10 16 (Int.bmod n (2 ^ 32)) <;> simp
  case h_4 n args => cases digits 10 16 (n % 2 ^ 32) <;> simp
  case h_5 n args => cases digits 16 40 (n % 2 ^ 64) <;> simp [Option.bind_assoc]
  case h_6 n args => cases digits 16 40 (n % 2 ^ 64) <;> simp
  all_goals simp [Option.map_eq_bind]

end

/-- What is put down by a run over the format, with any way to put it down. -/
def Printed (format : Bytes) : Prop := ∀ (args : List Arg) {σ : Type} (put : Byte → σ → Option σ)
  (st : σ), loop put format args st = (text format args).bind fun t => puts put t st

theorem Printed.bind {format : Bytes} (h : Printed format) (r : Option (Bytes × List Arg))
    {σ : Type} (put : Byte → σ → Option σ) (st : σ) :
    ((r.bind fun r => (puts put r.1 st).map (·, r.2)).bind fun x => loop put format x.2 x.1) =
      (r.bind fun r => loop grow format r.2 r.1).bind
        fun t => puts put t st := by
  rcases r with _ | ⟨s, args⟩
  · rfl
  · rcases hp : puts put s st with _ | st'
    all_goals cases ht : text format args <;> simp [h args, ht, hp, puts_append]

theorem printed : ∀ format : Bytes, Printed format
  | [] => fun _ _ _ _ => rfl
  | c :: format => by
    intro args σ put st
    unfold text
    unfold loop
    split_ifs with hc
    · rcases format with _ | ⟨c', format⟩
      · rfl
      · dsimp only
        split_ifs with hl
        · rcases format with _ | ⟨c'', format⟩
          · rfl
          · dsimp only
            rw [conversion_eq]
            exact (printed format).bind _ put st
        · rw [conversion_eq]
          exact (printed format).bind _ put st
    · have := (printed format).bind (some ([c], args)) put st
      simpa [Option.map_eq_bind, Option.bind_assoc] using this

/-- The characters that stand for conversions, unless the format ends in `%l`. -/
def conversions : Bytes → Option Bytes
  | [] => some []
  | c :: format =>
    if c = 37 then
      match format with
      | [] => some []
      | c :: format =>
        if c = 108 then
          match format with
          | [] => none
          | c :: format => (conversions format).map (c :: ·)
        else (conversions format).map (c :: ·)
    else conversions format

/-- Whether a conversion reads a string or a number, if it reads an argument. -/
def reads (c : Byte) : Option Bool :=
  if c = 115 then some true else if c ∈ [100, 117, 112, 120] then some false else none

def Arg.isStr : Arg → Bool
  | .str _ => true
  | .num _ => false

/-- The arguments have the kinds the conversions read; more may follow. -/
def Matches (format : Bytes) (args : List Arg) : Prop :=
  ∃ cs, conversions format = some cs ∧ cs.filterMap reads <+: args.map Arg.isStr

theorem digits_eq {b : ℕ} {aux : ℕ → ℕ → Bytes} (h : IsNumeral b digit aux) (hb : 1 < b) :
    ∀ {room k n : ℕ}, n < b ^ (room + 1) → n < k → digits b (room + 1) n = some (aux k n)
  | room, k + 1, n, hroom, hk => by
    rw [digits, ← Int.ofNat_tdiv, ← Int.ofNat_tmod, Int.natAbs_natCast, h k n]
    by_cases hlt : n < b
    · simp [Nat.div_eq_of_lt hlt, Nat.mod_eq_of_lt hlt, hlt]
    · have hdiv : 0 < n / b := Nat.div_pos (Nat.not_lt.1 hlt) (by omega)
      rcases room with _ | room
      · exact absurd (by simpa using hroom) hlt
      · rw [Nat.pow_succ'] at hroom
        rw [if_pos (Int.natCast_pos.2 hdiv), if_neg hlt,
          digits_eq h hb (Nat.div_lt_of_lt_mul hroom) (IsNumeral.div_lt hb hlt hk)]
        rfl

section

variable {n : ℕ}

theorem digits_decimal (h : n < 10 ^ 16) : digits 10 16 n = some (decimal n) := by
  refine digits_eq (b := 10) (fun k n => ?_) (by decide) h n.lt_succ_self
  rw [decimalAux, digit, digit, if_pos (Nat.mod_lt n (by decide))]
  split_ifs <;> rfl

/-- The digits as `%x` prints them. -/
def upperAux : ℕ → ℕ → Bytes
  | 0, _ => []
  | k + 1, n => if n < 16 then [digit n] else upperAux k (n / 16) ++ [digit (n % 16)]

def upper (n : ℕ) : Bytes := upperAux (n + 1) n

theorem isNumeral_upperAux : IsNumeral 16 digit upperAux := fun _ _ => rfl

theorem digits_upper (h : n < 16 ^ 40) : digits 16 40 n = some (upper n) :=
  digits_eq isNumeral_upperAux (by decide) h n.lt_succ_self

end

theorem digits_of_nonneg {m : ℤ} (hlo : 0 ≤ m) (hhi : m < 2 ^ 32) :
    digits 10 16 m = some (decimal m.toNat) := by
  rw [← digits_decimal (by omega), Int.toNat_of_nonneg hlo]

/-- The least `int` stays negative, and one digit of it is printed. -/
theorem digits_int {m : ℤ} (hlo : -2 ^ 31 ≤ m) (hhi : m < 2 ^ 31) :
    ∃ t, digits 10 16 (if m < 0 then Int.bmod (-m) (2 ^ 32) else m) = some t := by
  split_ifs with hneg
  · rcases hlo.eq_or_lt with rfl | hlo
    · exact ⟨_, rfl⟩
    · rw [Int.bmod_eq_of_le (by omega) (by omega)]
      exact ⟨_, digits_of_nonneg (by omega) (by omega)⟩
  · exact ⟨_, digits_of_nonneg (by omega) (by omega)⟩

theorem conversion_num {c : Byte} (hc : c ∈ [100, 117, 112, 120]) (n : ℤ) (args : List Arg)
    (s : Bytes) : ∃ t, conversion grow c (.num n :: args) s = some (t, args) := by
  have hx : digits 16 40 (n % 2 ^ 64) = some (upper (n % 2 ^ 64).toNat) := by
    rw [← digits_upper (by omega), Int.toNat_of_nonneg (by omega)]
  simp only [mem_cons, not_mem_nil, or_false] at hc
  rcases hc with rfl | rfl | rfl | rfl
  · have hlo := Int.le_bmod (x := n) (show 0 < 2 ^ 32 by decide)
    obtain ⟨t, ht⟩ := digits_int (by omega) (Int.bmod_lt (x := n) (m := 2 ^ 32) (by decide))
    simp only [conversion, putDigits]
    rw [ht]
    by_cases hneg : Int.bmod n (2 ^ 32) < 0
    · exact ⟨s ++ [45] ++ t, by rw [if_pos hneg]; simp⟩
    · exact ⟨s ++ t, by rw [if_neg hneg]; simp⟩
  · simp [-Int.reducePow, conversion, putDigits, digits_of_nonneg (m := n % 2 ^ 32) (by omega)
      (by omega)]
  · simp [-Int.reducePow, conversion, putDigits, hx]
  · simp [-Int.reducePow, conversion, putDigits, hx]

/-- A conversion whose argument is there, and what is left for those that follow. -/
theorem conversion_matches {c : Byte} {args : List Arg} {w : List Bool}
    (h : (reads c).toList ++ w <+: args.map Arg.isStr) (s : Bytes) :
    ∃ t rest, conversion grow c args s = some (t, rest) ∧ w <+: rest.map Arg.isStr := by
  by_cases hs : c = 115
  · subst hs
    rcases args with _ | ⟨⟨s'⟩ | ⟨n⟩, args⟩
    · simp [reads] at h
    · exact ⟨_, args, by rw [conversion, puts_grow]; rfl, by simpa [reads, Arg.isStr] using h⟩
    · simp [reads, Arg.isStr] at h
  · rw [reads, if_neg hs] at h
    by_cases hc : c ∈ [100, 117, 112, 120]
    · rw [if_pos hc] at h
      rcases args with _ | ⟨⟨s'⟩ | ⟨n⟩, args⟩
      · simp at h
      · simp [Arg.isStr] at h
      · obtain ⟨t, ht⟩ := conversion_num hc n args s
        exact ⟨t, args, ht, by simpa [Arg.isStr] using h⟩
    · rw [if_neg hc] at h
      refine ⟨if c = 37 then s ++ [37] else s, args, ?_, h⟩
      simp at hc
      unfold conversion
      split <;> simp_all

theorem loop_grow {format : Bytes} {args : List Arg} {T : Bytes} (h : text format args = some T)
    (s : Bytes) : loop grow format args s = some (s ++ T) := by
  rw [printed format, h]
  exact puts_grow T s

def Produces (format : Bytes) : Prop :=
  ∀ args, Matches format args → ∃ T, text format args = some T

theorem Produces.bind {format : Bytes} (h : Produces format) {c : Byte} {args : List Arg}
    {cs : Bytes} (hcs : (conversions format).map (c :: ·) = some cs)
    (hw : cs.filterMap reads <+: args.map Arg.isStr) :
    ∃ T, ((conversion grow c args []).bind fun r => loop grow format r.2 r.1) = some T := by
  obtain ⟨cs, hcs', rfl⟩ := Option.map_eq_some_iff.1 hcs
  have hcons : (c :: cs).filterMap reads = (reads c).toList ++ cs.filterMap reads := by
    cases hr : reads c <;> simp [hr]
  obtain ⟨t, rest, ht, hrest⟩ := conversion_matches (hcons ▸ hw) []
  obtain ⟨T, hT⟩ := h rest ⟨cs, hcs', hrest⟩
  exact ⟨t ++ T, by rw [ht]; exact loop_grow hT t⟩

/-- A text comes of every format and arguments that match. -/
theorem produces : ∀ format : Bytes, Produces format
  | [] => fun _ _ => ⟨[], rfl⟩
  | c :: format => by
    intro args h
    obtain ⟨cs, hcs, hw⟩ := h
    unfold conversions at hcs
    unfold text loop
    split_ifs at hcs ⊢ with hc
    · rcases format with _ | ⟨c', format⟩
      · exact ⟨_, rfl⟩
      · dsimp only at hcs ⊢
        split_ifs at hcs ⊢ with hl
        · rcases format with _ | ⟨c'', format⟩
          · cases hcs
          · exact (produces format).bind hcs hw
        · exact (produces format).bind hcs hw
    · obtain ⟨T, hT⟩ := produces format args ⟨cs, hcs, hw⟩
      exact ⟨[c] ++ T, loop_grow hT [c]⟩

section

variable {maxLength : ℕ} {s buf : Bytes} (h : s.take maxLength <+: buf)
  (hle : maxLength ≤ buf.length)

include h hle

theorem put_eq (c : Byte) (hlen : s.length + 1 < 2 ^ 64) : ∃ buf',
    put maxLength c (buf, s.length) = some (buf', (s ++ [c]).length) ∧
      (s ++ [c]).take maxLength <+: buf' ∧ buf'.length = buf.length := by
  rw [put, length_append, length_singleton, Nat.mod_eq_of_lt hlen]
  by_cases hlt : s.length < maxLength
  · rw [take_of_length_le hlt.le] at h
    obtain ⟨v, rfl⟩ := h
    cases v with
    | nil =>
      rw [append_nil] at hle
      omega
    | cons x v =>
      refine ⟨s ++ c :: v, ?_, ?_, by simp⟩
      · simp only [if_pos hlt, store_split, some_bind]
      · rw [take_of_length_le (by simpa using hlt)]
        exact ⟨v, by simp⟩
  · refine ⟨buf, by simp only [if_neg hlt, some_bind], ?_, rfl⟩
    rwa [take_append_of_le_length (by omega)]

omit h hle

theorem puts_eq : ∀ {t s buf : Bytes}, s.take maxLength <+: buf → maxLength ≤ buf.length →
    s.length + t.length < 2 ^ 64 → ∃ buf',
      puts (put maxLength) t (buf, s.length) = some (buf', (s ++ t).length) ∧
        (s ++ t).take maxLength <+: buf' ∧ buf'.length = buf.length
  | [], s, buf, h, _, _ => ⟨buf, by simp, by simpa using h, rfl⟩
  | c :: t, s, buf, h, hle, hlen => by
    rw [length_cons] at hlen
    obtain ⟨buf', hput, htake, hlen'⟩ := put_eq h hle c (by omega)
    obtain ⟨out, hputs, hout, hlen''⟩ := puts_eq (t := t) htake (by omega) (by simp; omega)
    rw [append_assoc] at hputs hout
    exact ⟨out, by rw [puts_cons, hput]; exact hputs, hout, hlen''.trans hlen'⟩

end

section

variable {format T : Bytes} {args : List Arg} (h : text format args = some T)

include h

theorem vsnprintf_eq {buf : Bytes} (hne : buf ≠ []) (hbuf : buf.length < 2 ^ 64)
    (hT : T.length < 2 ^ 64) : ∃ rest, vsnprintf buf buf.length format args =
      some (T.take (min T.length (buf.length - 1)) ++ 0 :: rest, Int.bmod T.length (2 ^ 32)) := by
  have hpos := length_pos_of_ne_nil hne
  obtain ⟨out, hputs, htake, hlen⟩ := puts_eq (t := T) (s := []) (by simp) (le_refl buf.length)
    (by simpa using hT)
  have hrun : loop (put buf.length) format args (buf, 0) = some (out, T.length) := by
    rw [printed format, h]
    exact hputs
  obtain ⟨v, rfl⟩ := (take_prefix_take_left (l := T) (show min T.length (buf.length - 1) ≤ _ by
    omega)).trans htake
  have hplace : (if T.length < buf.length then T.length else wsub 64 buf.length 1) =
      (T.take (min T.length (buf.length - 1))).length := by
    rw [length_take, wsub_of_le hpos hbuf]
    split_ifs <;> omega
  rcases v with _ | ⟨x, v⟩
  · rw [length_append, length_take, length_nil] at hlen
    omega
  · exact ⟨v, by simp only [vsnprintf, hrun, some_bind, hplace, store_split]⟩

end

/-- The law holds exactly for the texts whose length can be returned. -/
theorem truncates_iff {format : Bytes} {args : List Arg} (h : Matches format args) :
    ∃ T, text format args = some T ∧
      ((∀ buf : Bytes, buf ≠ [] → buf.length < 2 ^ 64 → ∃ rest,
        vsnprintf buf buf.length format args =
          some (T.take (min T.length (buf.length - 1)) ++ 0 :: rest, (T.length : ℤ))) ↔
            T.length < 2 ^ 31) := by
  obtain ⟨T, hT⟩ := produces format args h
  refine ⟨T, hT, ?_, ?_⟩
  · intro hlaw
    obtain ⟨rest, hlaw⟩ := hlaw [0] (by simp) (by simp)
    simp only [vsnprintf, Option.bind_eq_bind, Option.bind_eq_some_iff] at hlaw
    obtain ⟨⟨_, offset⟩, -, _, -, hret⟩ := hlaw
    have hlt := Int.bmod_lt (x := offset) (show 0 < 2 ^ 32 by decide)
    rw [(Prod.mk.inj (Option.some.inj hret)).2] at hlt
    omega
  · intro hshort buf hne hbuf
    rw [← bmod_of_lt hshort]
    exact vsnprintf_eq hT hne hbuf (by omega)

theorem truncates_letter : Matches [37, 115] [.str (some [97])] ∧
    ∃ rest, vsnprintf [1] 1 [37, 115] [.str (some [97])] = some (0 :: rest, 1) := by
  have h : Matches [37, 115] [.str (some [97])] := ⟨[115], rfl, by decide⟩
  obtain ⟨T, hT, hiff⟩ := truncates_iff h
  obtain rfl := Option.some.inj hT
  exact ⟨h, hiff.2 (by decide) [1] (by simp) (by decide)⟩

/-- `2 ^ 31` letters, and a number below zero is returned. -/
theorem vsnprintf_negative : ∃ rest, vsnprintf [1] 1 [37, 115]
    [.str (some (replicate (2 ^ 31) 97))] = some (0 :: rest, -2 ^ 31) := by
  have htext : ∀ s, text [37, 115] [.str (some s)] = some s := fun s => by
    simp [text, loop, conversion]
  obtain ⟨rest, h⟩ := vsnprintf_eq (htext (replicate (2 ^ 31) 97)) (show [1] ≠ [] by simp)
    (by decide) (by rw [length_replicate]; decide)
  refine ⟨rest, ?_⟩
  rw [length_replicate] at h
  exact h

variable {n : ℕ}

theorem atoi16_upper (h : n < 2 ^ 64) : (upper n).takeWhile isdigit16 = upper n ∧
    (atoi16 (upper n) = n ↔ 15 ∉ Nat.digits 16 n) := by
  have htake : (upper n).takeWhile isdigit16 = upper n :=
    takeWhile_eq_self_iff.2 (isNumeral_upperAux.all (P := (isdigit16 · = true)) (by decide)
      (by decide) n.lt_succ_self)
  have hval : ∀ d < 16, digit16 (digit d) = d ↔ d ≠ 15 := by decide
  refine ⟨htake, ?_⟩
  rw [atoi16, htake, upper, (isNumeral_upperAux.read (by decide) (by decide) n.lt_succ_self h).2]
  refine ⟨fun hd h15 => absurd (hd 15 h15) (by decide), fun h15 d hd => ?_⟩
  exact (hval d (Nat.digits_lt_base (by decide) hd)).2 fun he => h15 (he ▸ hd)

/-- What is printed for a number into any buffer that is large enough. -/
def Renders (format : Bytes) (n : ℤ) (t : Bytes) : Prop :=
  ∀ buf : Bytes, 64 ≤ buf.length → buf.length < 2 ^ 64 → ∃ rest,
    vsnprintf buf buf.length format [.num n] = some (t ++ 0 :: rest, (t.length : ℤ))

theorem renders_iff {format T t : Bytes} {n : ℤ} (h : text format [.num n] = some T)
    (hT : T.length < 64) : Renders format n t ↔ t = T := by
  have hprints : Renders format n T := by
    intro buf hle hlt
    have hrun := vsnprintf_eq h (length_pos_iff.1 (show 0 < buf.length by omega)) hlt (by omega)
    rwa [min_eq_left (by omega), take_length, bmod_of_lt (by omega)] at hrun
  refine ⟨fun ht => ?_, fun ht => ht ▸ hprints⟩
  obtain ⟨rest, hrun⟩ := ht (replicate 64 0) (by simp) (by simp)
  obtain ⟨rest', hrun'⟩ := hprints (replicate 64 0) (by simp) (by simp)
  rw [hrun, Option.some.injEq, Prod.mk.injEq, Int.natCast_inj] at hrun'
  exact append_inj_left hrun'.1 hrun'.2

theorem text_x (hn : n < 2 ^ 64) : text [37, 120] [.num n] = some (upper n) := by
  have hmod : (n : ℤ) % 2 ^ 64 = n := by omega
  simp [-Int.reducePow, text, loop, conversion, putDigits, hmod, digits_upper (n := n) (by omega)]

theorem text_u (hn : n < 2 ^ 32) : text [37, 117] [.num n] = some (decimal n) := by
  have hmod : (n : ℤ) % 2 ^ 32 = n := by omega
  simp [-Int.reducePow, text, loop, conversion, putDigits, hmod, digits_decimal (n := n) (by omega)]

theorem text_d {n : ℤ} (hlo : -2 ^ 31 < n) (hhi : n < 2 ^ 31) :
    text [37, 100] [.num n] = some (decimalInt n) := by
  have hwrap : ∀ m : ℤ, -2 ^ 31 < m → m < 2 ^ 31 → Int.bmod m (2 ^ 32) = m :=
    fun m _ _ => Int.bmod_eq_of_le (by omega) (by omega)
  have habs : (if n < 0 then Int.bmod (-n) (2 ^ 32) else n) = n.natAbs := by
    split_ifs
    · rw [hwrap (-n) (by omega) (by omega)]
      omega
    · omega
  simp only [text, loop, conversion, putDigits, hwrap n hlo hhi, habs,
    digits_decimal (n := n.natAbs) (by omega)]
  by_cases hneg : n < 0 <;> simp [hneg, decimalInt]

theorem renders_d_iff {n : ℤ} (hlo : -2 ^ 31 ≤ n) (hhi : n < 2 ^ 31) :
    Renders [37, 100] n (decimalInt n) ↔ n ≠ -2 ^ 31 := by
  rcases hlo.eq_or_lt with rfl | hlo
  · refine iff_of_false (fun h => ?_) (by simp)
    have hcut := (renders_iff (T := [45, 56]) rfl (by decide)).1 h
    have hread := atoi_decimal (n := 2 ^ 31) (by decide)
    rw [show decimal (2 ^ 31) = [56] from (cons.inj hcut).2] at hread
    cases hread
  · have hlen := length_decimal (show n.natAbs < 10 ^ (15 + 1) by omega)
    refine iff_of_true ((renders_iff (text_d hlo hhi) ?_).2 rfl) hlo.ne'
    unfold decimalInt
    split_ifs
    · rw [length_cons]
      omega
    · omega

/-- The numbers are read back exactly if no digit is 15 and the `int` is not the least one. -/
theorem reads_back_iff (v : BitVec 64) (u w : BitVec 32) :
    ((∃ t, Renders [37, 120] v.toNat t ∧ atoi16 t = v.toNat ∧ t.takeWhile isdigit16 = t) ∧
      (∃ t, Renders [37, 117] u.toNat t ∧ atoi t = u.toNat) ∧
      Renders [37, 100] w.toInt (decimalInt w.toInt)) ↔
    15 ∉ Nat.digits 16 v.toNat ∧ w.toInt ≠ -2 ^ 31 := by
  have hv : (upper v.toNat).length ≤ 15 + 1 :=
    isNumeral_upperAux.length_le (by decide) (Nat.lt_succ_self _) v.isLt
  have hu := length_decimal (show u.toNat < 10 ^ (15 + 1) by omega)
  obtain ⟨htake, hiff⟩ := atoi16_upper v.isLt
  simp only [renders_iff (text_x v.isLt) (by omega), renders_iff (text_u u.isLt) (by omega),
    exists_eq_left, atoi_decimal (show u.toNat < 2 ^ 64 by omega), htake, hiff, and_true, true_and,
    renders_d_iff w.le_toInt w.toInt_lt]

/-- The number 15 is printed as `F`, which is read as 0, and the least `int` as `-8`. -/
theorem reads_back_not : Renders [37, 120] 15 [70] ∧ atoi16 [70] = 0 ∧
    Renders [37, 100] (-2 ^ 31) [45, 56] :=
  ⟨(renders_iff rfl (by decide)).2 rfl, rfl, (renders_iff rfl (by decide)).2 rfl⟩

end Darling.Simple
