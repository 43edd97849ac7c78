import Darling.Proofs.Readline
import Darling.SimpleReadline

/-!
# The two line readers

`__simple_readline` stops for good at an empty line; on a text without empty lines it returns what
`_readline` does.  It stays inside its buffer as long as each line fits the caller's array; behind
one that does not, it takes more bytes for held than there are.
-/

namespace Darling

variable {len : ℕ}

namespace Readline

open Option List

theorem read_progress {f f' : Input} {bs : Bytes} (h : f.read len = (.ok bs, f')) :
    f'.answers.length < f.answers.length ∨
      f'.answers = f.answers ∧ (bs.length = len ∨ f'.text = []) := by
  unfold Input.read at h
  split at h
  · rename_i hans
    cases h
    refine .inr ⟨hans.symm, ?_⟩
    rcases le_total len f.text.length with hle | hle
    · exact .inl (length_take_of_le hle)
    · exact .inr (drop_eq_nil_of_le hle)
  · rename_i hans
    cases h
    rw [hans]
    exact .inl (Nat.lt_succ_self _)
  · cases h

end Readline

namespace SimpleReadline

open CArray Readline Lines List
open Option (bind_eq_bind bind_some getD_some map_some)

/-- What the buffer and the file still have is this text. -/
def Holds (b : SimpleReadlineBuf) (f : Input) (t : Bytes) : Prop :=
  ∃ held free : Bytes, b = ⟨held ++ free, held.length⟩ ∧ (held ++ free).length = 512 ∧
    t = held ++ f.text

theorem holds_init {stack : Bytes} (h : stack.length = 512) (f : Input) :
    Holds (simpleReadlineInit stack) f f.text := ⟨[], stack, rfl, h, rfl⟩

inductive Found (t : Bytes) : Option ℕ × SimpleReadlineBuf × Input → Prop where
  | newline {line held free : Bytes} {f : Input} : 10 ∉ line →
    (line ++ 10 :: (held ++ free)).length = 512 → t = line ++ 10 :: (held ++ f.text) →
    Found t (some line.length, ⟨line ++ 10 :: (held ++ free), line.length + 1 + held.length⟩, f)
  | full {held : Bytes} {f : Input} : 10 ∉ held → held.length = 512 → t = held ++ f.text →
    Found t (some 512, ⟨held, 512⟩, f)
  | last {free : Bytes} {f : Input} : 10 ∉ t → t ≠ [] → (t ++ free).length = 512 → f.text = [] →
    Found t (some t.length, ⟨t ++ free, t.length⟩, f)
  | nothing {free : Bytes} {f : Input} : t = [] → free.length = 512 → f.text = [] →
    Found t (none, ⟨free, 0⟩, f)

section Search

variable {held free : Bytes} {f : Input}

theorem newlineIn_held (held free : Bytes) : newlineIn ⟨held ++ free, held.length⟩ =
    some (if 10 ∈ held then some (held.idxOf 10) else none) := by
  rw [newlineIn, if_pos (Int.natCast_nonneg _), Int.toNat_natCast, memchr_held]

theorem found_newline (hlen : (held ++ free).length = 512) (h : 10 ∈ held) :
    Found (held ++ f.text) (some (held.idxOf 10), ⟨held ++ free, held.length⟩, f) := by
  obtain ⟨line, rest, rfl, hline⟩ := eq_append_cons_of_mem h
  rw [append_assoc, cons_append] at hlen
  have hused : ((line ++ 10 :: rest).length : ℤ) = line.length + 1 + rest.length := by
    rw [length_append, length_cons]
    omega
  rw [idxOf_append_of_notMem hline, idxOf_cons_self, Nat.add_zero, hused,
    append_assoc, append_assoc]
  exact .newline hline hlen rfl

theorem findNl_found : ∀ {fuel : ℕ} {held free : Bytes} {f : Input},
    (held ++ free).length = 512 → f.Delivers →
    f.answers.length + (if f.text = [] ∨ held.length = 512 then 1 else 2) ≤ fuel →
    ∃ r, findNl fuel ⟨held ++ free, held.length⟩ f = some r ∧ Found (held ++ f.text) r ∧
      r.2.2.answers ⊆ f.answers
  | 0, _, _, f, _, _, hfuel => by
    split_ifs at hfuel <;> omega
  | fuel + 1, held, free, f, hlen, hf, hfuel => by
    rw [findNl, newlineIn_held]
    by_cases hmem : 10 ∈ held
    · rw [if_pos hmem]
      exact ⟨_, rfl, found_newline hlen hmem, Subset.refl _⟩
    rw [if_neg hmem]
    rw [length_append] at hlen
    simp only [bind_eq_bind, bind_some]
    by_cases hfull : held.length = 512
    · have hnil : free = [] := length_eq_zero_iff.1 (by omega)
      subst hnil
      rw [if_pos (by exact_mod_cast hfull), hfull, append_nil]
      exact ⟨_, rfl, .full hmem hfull rfl, Subset.refl _⟩
    rw [if_neg (by exact_mod_cast hfull)]
    have hroom : (512 - (held.length : ℤ)).toNat = 512 - held.length := by omega
    rw [hroom]
    rcases hread : f.read (512 - held.length) with ⟨e | bs, f'⟩
    · exact absurd (read_error hread) (hf e)
    · obtain ⟨htext, hbs, hzero, hans⟩ := read_ok hread
      dsimp only
      by_cases hnil : bs = []
      · subst hnil
        have htext' : f.text = [] := (hzero rfl).resolve_left (by omega)
        rw [htext', nil_append] at htext
        rw [if_pos rfl, htext', append_nil]
        by_cases hheld : held = []
        · subst hheld
          exact ⟨_, rfl, .nothing rfl (by simpa using hlen) htext, hans⟩
        · rw [if_neg (by simpa using hheld), Int.toNat_natCast]
          exact ⟨_, rfl, .last hmem hheld (by rw [length_append]; omega) htext, hans⟩
      · have hpos := length_pos_of_ne_nil hnil
        have hblit := blit_room (u := held) (show bs.length ≤ free.length by omega)
        have hlen' : (held ++ bs ++ free.drop bs.length).length = 512 := by
          simp only [length_append, length_drop]
          omega
        have hleft : f.text ≠ [] := fun h => by simp [h, hnil] at htext
        have hfuel' : f'.answers.length +
            (if f'.text = [] ∨ (held ++ bs).length = 512 then 1 else 2) ≤ fuel := by
          rw [if_neg (not_or.2 ⟨hleft, hfull⟩)] at hfuel
          rw [length_append]
          rcases read_progress hread with hlt | ⟨heq, hall⟩
          · split_ifs <;> omega
          · rw [if_pos (hall.symm.imp_right fun h => by omega), heq]
            omega
        obtain ⟨r, hr, hfound, hans'⟩ := findNl_found hlen' (fun e he => hf e (hans he)) hfuel'
        rw [append_assoc, htext] at hfound
        rw [append_assoc, length_append, Nat.cast_add] at hr
        refine ⟨r, ?_, hfound, Subset.trans hans' hans⟩
        simp [if_neg hnil, Int.toNat_natCast, hblit, hr]

end Search

section Line

variable {cells out : Bytes} {nl n : ℕ}

theorem copy_line (hcells : len ≤ cells.length) (hout : len < out.length) :
    ∃ v out', slice cells 0 len = some v ∧ blit out 0 v = some out' ∧
      store out' len 0 = some (cells.take len ++ 0 :: out.drop (len + 1)) := by
  have htake : (cells.take len).length = len := length_take_of_le hcells
  have hslice : slice cells 0 len = some (cells.take len) := by
    rw [slice, if_pos (by omega), drop_zero]
  have hblit := blit_room (u := []) (v := out) (t := cells.take len) (by omega)
  have hstore := store_split (cells.take len) (out.drop (len + 1)) out[len] (0 : Byte)
  rw [htake, drop_eq_getElem_cons hout] at hblit
  rw [htake] at hstore
  exact ⟨_, _, hslice, hblit, hstore⟩

theorem takeLine_eq (hcells : cells.length = 512) (hnl : nl ≤ n) (hn : n ≤ 512)
    (hout : out ≠ []) (hlen : len = min (out.length - 1) nl) :
    takeLine nl ⟨cells, n⟩ out out.length =
      if n ≤ len + 1 then some (cells.take len ++ 0 :: out.drop (len + 1), ⟨cells, 0⟩)
      else if nl + n ≤ 512 + len then
        some (cells.take len ++ 0 :: out.drop (len + 1),
          ⟨(cells.drop (nl + 1)).take (n - len - 1) ++ cells.drop (n - len - 1), (n - len - 1 : ℕ)⟩)
      else none := by
  have hpos := length_pos_of_ne_nil hout
  obtain ⟨v, out', hslice, hblit, hstore⟩ :=
    copy_line (show len ≤ cells.length by omega) (show len < out.length by omega)
  have hused : (if (n : ℤ) - len ≠ 0 then (n : ℤ) - len - 1 else n - len) = (n - len - 1 : ℕ) := by
    split_ifs <;> omega
  have hnonneg : ¬ ((n - len - 1 : ℕ) : ℤ) < 0 := by omega
  simp only [takeLine, ← hlen, hslice, hblit, hstore, hused, bind_eq_bind, Option.pure_def,
    bind_some, Int.toNat_natCast, if_neg hnonneg]
  by_cases hrest : n ≤ len + 1
  · have hzero : n - len - 1 = 0 := by omega
    rw [if_pos hrest, hzero]
    rfl
  rw [if_neg hrest, if_pos (by omega)]
  by_cases hroom : nl + n ≤ 512 + len
  · have hmoved : ((cells.drop (nl + 1)).take (n - len - 1)).length = n - len - 1 := by
      rw [length_take, length_drop]
      omega
    have hmove : move cells 0 (nl + 1) (n - len - 1) =
        some ((cells.drop (nl + 1)).take (n - len - 1) ++ cells.drop (n - len - 1)) := by
      have := blit_room (u := []) (v := cells) (t := (cells.drop (nl + 1)).take (n - len - 1))
        (by omega)
      rw [hmoved] at this
      rw [move, if_pos (by omega)]
      exact this
    rw [if_pos hroom, hmove, bind_some]
  · rw [if_neg hroom, move, if_neg (by omega), Option.bind_none]

theorem takeLine_whole {line held free : Bytes} (hlen : (line ++ 10 :: (held ++ free)).length = 512)
    (hout : line.length < out.length) :
    ∃ rest, takeLine line.length
        ⟨line ++ 10 :: (held ++ free), line.length + 1 + held.length⟩ out out.length =
        some (line ++ 0 :: out.drop (line.length + 1), ⟨held ++ rest, held.length⟩) ∧
      (held ++ rest).length = 512 := by
  have hn : line.length + 1 + held.length ≤ 512 := by
    simp only [length_append, length_cons] at hlen
    omega
  have heq := takeLine_eq hlen (show line.length ≤ line.length + 1 + held.length by omega) hn
    (show out ≠ [] from ne_nil_of_length_pos (by omega))
    (show line.length = min (out.length - 1) line.length by omega)
  push_cast at heq
  have hbehind : (line ++ 10 :: (held ++ free)).drop (line.length + 1) = held ++ free := by
    rw [← drop_drop, drop_left, drop_one, tail_cons]
  rw [heq, take_left, hbehind]
  by_cases hnil : held = []
  · subst hnil
    exact ⟨_, if_pos (by simp), hlen⟩
  · have hpos := length_pos_of_ne_nil hnil
    have hrest : line.length + 1 + held.length - line.length - 1 = held.length := by omega
    rw [if_neg (by omega), if_pos (by omega), hrest, take_left]
    refine ⟨_, rfl, ?_⟩
    rw [length_append, length_drop, hlen]
    omega

end Line

section Calls

variable {s : SimpleReadlineBuf × Input} {t : Bytes} {b : SimpleReadlineBuf} {f : Input}

theorem search_found (h : Holds b f t) (hf : f.Delivers) :
    ∃ r, findNl (f.answers.length + 3) b f = some r ∧ Found t r ∧ r.2.2.answers ⊆ f.answers := by
  obtain ⟨held, free, rfl, hlen, rfl⟩ := h
  refine findNl_found hlen hf ?_
  split_ifs <;> omega

theorem call_some (out : Bytes) {nl : ℕ} (hnl : nl ≠ 0)
    (h : findNl (s.2.answers.length + 3) s.1 s.2 = some (some nl, b, f)) :
    call out s = (takeLine nl b out out.length).map fun r => (some r.1, (r.2, f)) := by
  simp only [call, simpleReadline, h, bind_eq_bind, bind_some, if_neg hnl]
  rcases takeLine nl b out out.length with _ | ⟨out', b'⟩ <;> rfl

theorem call_null (out : Bytes) {nl : Option ℕ} (hnl : nl.getD 0 = 0)
    (h : findNl (s.2.answers.length + 3) s.1 s.2 = some (nl, b, f)) :
    call out s = some (none, (b, f)) := by
  rcases nl with _ | nl
  · simp [call, simpleReadline, h]
  · rw [getD_some] at hnl
    simp [call, simpleReadline, h, hnl]

end Calls

section Text

/-- The line at the start of the text fits the array with a NUL behind it; of a line whose newline
is not in the buffer, the bytes that are there fit, the last one in the place of the NUL. -/
def Fits (t out : Bytes) : Prop :=
  if t.idxOf 10 < min 512 t.length then t.idxOf 10 < out.length
  else min 512 t.length ≤ out.length ∧ out ≠ []

theorem fits_of_le {out : Bytes} (h : 512 ≤ out.length) (t : Bytes) : Fits t out := by
  unfold Fits
  split_ifs
  · omega
  · exact ⟨by omega, ne_nil_of_length_pos (by omega)⟩

theorem call_text {out t : Bytes} {s : SimpleReadlineBuf × Input} (hout : Fits t out)
    (h : Holds s.1 s.2 t) (hf : s.2.Delivers) : ∃ r s', call out s = some (r, s') ∧
      s'.2.Delivers ∧ if t.idxOf 10 = 0 then r = none ∧ Holds s'.1 s'.2 t else
        r = some (t.take (min (out.length - 1) (min 512 (t.idxOf 10))) ++
          0 :: out.drop (min (out.length - 1) (min 512 (t.idxOf 10)) + 1)) ∧
        Holds s'.1 s'.2 (t.drop (min 512 (t.idxOf 10 + 1))) := by
  obtain ⟨⟨nl, b, f⟩, hfind, hfound, hans⟩ := search_found h hf
  have hf' : f.Delivers := fun e he => hf e (hans he)
  cases hfound with
  | @newline line held free _ hline hlen ht =>
    subst ht
    have hidx : (line ++ 10 :: (held ++ f.text)).idxOf 10 = line.length := by
      rw [idxOf_append_of_notMem hline, idxOf_cons_self, Nat.add_zero]
    rw [hidx]
    by_cases hnil : line = []
    · -- The newline stays where it is, and will be found again.
      subst hnil
      refine ⟨none, _, call_null out rfl hfind, hf', ?_⟩
      rw [if_pos length_nil]
      refine ⟨rfl, 10 :: held, free, ?_, hlen, rfl⟩
      rw [length_cons, Nat.cast_succ, length_nil, Nat.cast_zero, zero_add, add_comm]
      rfl
    · have hlt : line.length < 512 := by
        rw [length_append, length_cons] at hlen
        omega
      have hout : line.length < out.length := by
        rwa [Fits, hidx, if_pos] at hout
        rw [length_append, length_cons]
        omega
      have hcut : min (out.length - 1) (min 512 line.length) = line.length := by omega
      have hbehind : (line ++ 10 :: (held ++ f.text)).drop (line.length + 1) = held ++ f.text := by
        rw [← drop_drop, drop_left, drop_one, tail_cons]
      obtain ⟨rest, htake, hrest⟩ := takeLine_whole hlen hout
      have hcall := call_some out (by simpa using hnil) hfind
      rw [htake, map_some] at hcall
      refine ⟨_, _, hcall, hf', ?_⟩
      rw [if_neg (by simpa using hnil), hcut, take_left, min_eq_right (by omega), hbehind]
      exact ⟨rfl, held, rest, rfl, hrest, rfl⟩
  | @full held _ hline hlen ht =>
    subst ht
    have hidx : (held ++ f.text).idxOf 10 = 512 + f.text.idxOf 10 := by
      rw [idxOf_append_of_notMem hline, hlen]
    obtain ⟨hout, hne⟩ : 512 ≤ out.length ∧ out ≠ [] := by
      rw [Fits, hidx, if_neg (by omega), length_append] at hout
      exact ⟨by omega, hout.2⟩
    have hcut : min (out.length - 1) (min 512 (512 + f.text.idxOf 10)) =
        min (out.length - 1) 512 := by omega
    have heq := takeLine_eq hlen le_rfl le_rfl hne (Eq.refl (min (out.length - 1) 512))
    rw [if_pos (by omega)] at heq
    have hcall := call_some out (by decide) hfind
    rw [Nat.cast_ofNat] at heq
    rw [heq, map_some] at hcall
    refine ⟨_, _, hcall, hf', ?_⟩
    have hdrop : min 512 (512 + f.text.idxOf 10 + 1) = 512 := by omega
    rw [hidx, if_neg (by omega), hcut, take_append_of_le_length (by omega), hdrop]
    refine ⟨rfl, [], held, rfl, hlen, ?_⟩
    rw [← hlen, drop_left, nil_append]
  | @last free _ hline hnil hlen htext =>
    have hle : t.length ≤ 512 := by
      rw [length_append] at hlen
      omega
    obtain ⟨hout, hne⟩ : t.length ≤ out.length ∧ out ≠ [] := by
      rw [Fits, idxOf_eq_length hline, if_neg (by omega)] at hout
      exact ⟨by omega, hout.2⟩
    have heq := takeLine_eq hlen le_rfl hle hne (Eq.refl (min (out.length - 1) t.length))
    rw [if_pos (by omega), take_append_of_le_length (by omega)] at heq
    have hcall := call_some out (by simpa using hnil) hfind
    rw [heq, map_some] at hcall
    refine ⟨_, _, hcall, hf', ?_⟩
    rw [idxOf_eq_length hline, if_neg (by simpa using hnil), min_eq_right hle]
    refine ⟨rfl, [], _, rfl, hlen, ?_⟩
    rw [htext, nil_append, drop_eq_nil_of_le (by omega)]
  | nothing hnil hlen htext =>
    subst hnil
    refine ⟨none, _, call_null out rfl hfind, hf', ?_⟩
    rw [idxOf_nil, if_pos rfl]
    refine ⟨rfl, [], _, rfl, hlen, ?_⟩
    rw [htext, nil_append]

end Text

section Agreement

def HoldsLines (s : SimpleReadlineBuf × Input) (ls : List Bytes) : Prop :=
  ∃ t, Holds s.1 s.2 t ∧ s.2.Delivers ∧ ls = (lines 10 t).takeWhile (· ≠ []) ∧
    ∀ l ∈ lines 10 t, l.length ≤ 511

theorem call_holdsLines {out : Bytes} {s : SimpleReadlineBuf × Input} {ls : List Bytes}
    (hout : 512 ≤ out.length) (h : HoldsLines s ls) :
    ∃ r s', call out s = some (r, s') ∧ Returns r ls.head? ∧ HoldsLines s' ls.tail := by
  obtain ⟨t, ht, hf, rfl, hle⟩ := h
  obtain ⟨r, s', hcall, hf', hif⟩ := call_text (fits_of_le hout t) ht hf
  refine ⟨r, s', hcall, ?_⟩
  by_cases hnil : t = []
  · subst hnil
    obtain ⟨rfl, hholds⟩ := hif
    exact ⟨trivial, [], hholds, hf', rfl, hle⟩
  have hlines : lines 10 t = t.take (t.idxOf 10) :: lines 10 (t.drop (t.idxOf 10 + 1)) :=
    lines_cut hnil
  have hhead := hle _ (hlines ▸ mem_cons_self)
  rw [length_take_of_le idxOf_le_length] at hhead
  by_cases hzero : t.idxOf 10 = 0
  · rw [if_pos hzero] at hif
    obtain ⟨rfl, hholds⟩ := hif
    have hstop : (lines 10 t).takeWhile (· ≠ []) = [] := by
      rw [hlines, hzero, take_zero, takeWhile_cons_of_neg (by simp)]
    rw [hstop]
    exact ⟨trivial, t, hholds, hf', hstop.symm, hle⟩
  · rw [if_neg hzero] at hif
    obtain ⟨rfl, hholds⟩ := hif
    have hne : t.take (t.idxOf 10) ≠ [] := by simp [hnil, hzero]
    rw [hlines] at hle
    rw [hlines, takeWhile_cons_of_pos (by simpa using hne)]
    have hcut : min (out.length - 1) (min 512 (t.idxOf 10)) = t.idxOf 10 := by omega
    rw [min_eq_right (by omega)] at hholds
    rw [hcut]
    exact ⟨⟨_, rfl⟩, _, hholds, hf', rfl, fun l hl => hle l (mem_cons_of_mem _ hl)⟩

def cstring : Option Bytes → Option (Option Bytes) := Option.map (str 0 · 0)

theorem readTo_stale (u v : Bytes) : ∀ line : Bytes,
    readTo 0 (line ++ 0 :: u) = readTo 0 (line ++ 0 :: v)
  | [] => by simp [readTo]
  | c :: line => by simp [readTo, readTo_stale u v line]

theorem cstring_of_returns : ∀ {r line : Option Bytes}, Returns r line →
    cstring r = line.map fun l => readTo 0 (l ++ [0])
  | some _, some line, ⟨stale, h⟩ => by
    rw [cstring, map_some, map_some, h, str, drop_zero]
    exact congrArg some (readTo_stale _ _ _)
  | none, none, _ => rfl

theorem map_cstring {rs ls : List (Option Bytes)} (h : Forall₂ Returns rs ls) :
    rs.map cstring = ls.map (Option.map fun l => readTo 0 (l ++ [0])) := by
  induction h with
  | nil => rfl
  | cons hr _ ih => rw [map_cons, map_cons, cstring_of_returns hr, ih]

/-- The calls with these arrays return the same as as many calls of `_readline`. -/
def Agree (stack stack' : Bytes) (f f' : Input) (outs : List Bytes) : Prop :=
  ∃ rs s rs' s', calls call outs (simpleReadlineInit stack, f) = some (rs, s) ∧
    calls (fun _ => Readline.call) (List.replicate outs.length ()) (readlineInit stack', f') =
      some (rs', s') ∧ rs.map cstring = rs'.map cstring

variable {f f' : Input} {stack stack' : Bytes} {outs : List Bytes}

theorem agree_iff (htext : f.text = f'.text) (hf : f.Delivers) (hf' : f'.Delivers)
    (hstack : stack.length = 512) (hstack' : stack'.length = 1024)
    (hle : ∀ l ∈ lines 10 f.text, l.length ≤ 511) (houts : ∀ out ∈ outs, 512 ≤ out.length) :
    Agree stack stack' f f' outs ↔ [] ∉ (lines 10 f.text).take outs.length := by
  have hinit : HoldsLines (simpleReadlineInit stack, f) ((lines 10 f.text).takeWhile (· ≠ [])) :=
    ⟨f.text, holds_init hstack f, hf, rfl, hle⟩
  have hinit' : Readline.HoldsLines (readlineInit stack', f') (lines 10 f.text) :=
    ⟨f'.text, Readline.holds_init hstack' f', hf', by rw [htext],
      fun l hl => (hle l hl).trans (by decide)⟩
  obtain ⟨rs, s, hcalls, hrs⟩ := calls_spec (fun _ _ _ => call_holdsLines) houts hinit
  obtain ⟨rs', s', hcalls', hrs'⟩ := calls_spec
    (fun _ _ _ _ => Readline.call_holdsLines)
    (fun x (_ : x ∈ replicate outs.length ()) => trivial) hinit'
  rw [length_replicate] at hrs'
  have hiff := map_firsts_takeWhile (n := outs.length) (l := lines 10 f.text)
    (p := fun l => decide (l ≠ [])) (g := Option.map fun l : Bytes => readTo 0 (l ++ [0])) nofun
  rw [← map_cstring hrs, ← map_cstring hrs'] at hiff
  have hnil : (∀ l ∈ (lines 10 f.text).take outs.length, decide (l ≠ []) = true) ↔
      [] ∉ (lines 10 f.text).take outs.length :=
    ⟨fun h hmem => of_decide_eq_true (h _ hmem) rfl,
      fun h l hl => decide_eq_true fun heq => h (heq ▸ hl)⟩
  rw [← hnil, ← hiff]
  constructor
  · rintro ⟨_, _, _, _, hsimple, hreadline, heq⟩
    cases hcalls.symm.trans hsimple
    cases hcalls'.symm.trans hreadline
    exact heq
  · exact fun heq => ⟨rs, s, rs', s', hcalls, hcalls', heq⟩

/-- Each array fits the line, or the piece of one, that is its turn; an empty line stays in turn. -/
def FitAll : Bytes → List Bytes → Prop
  | _, [] => True
  | t, out :: outs => Fits t out ∧
    FitAll (if t.idxOf 10 = 0 then t else t.drop (min 512 (t.idxOf 10 + 1))) outs

theorem calls_inside : ∀ {outs : List Bytes} {t : Bytes} {s : SimpleReadlineBuf × Input},
    FitAll t outs → Holds s.1 s.2 t → s.2.Delivers → (calls call outs s).isSome
  | [], _, _, _, _, _ => rfl
  | out :: outs, t, s, ⟨hout, houts⟩, ht, hf => by
    obtain ⟨r, s', hcall, hf', hif⟩ := call_text hout ht hf
    rw [calls_cons outs hcall, Option.isSome_map]
    refine calls_inside houts ?_ hf'
    split_ifs at hif ⊢
    · exact hif.2
    · exact hif.2

/-- On lines that fit, the readers return the same exactly up to an empty line; and on any text
`__simple_readline` stays inside its buffer and the caller's arrays if each line fits its array. -/
theorem readers_agree (hf : f.Delivers) (hstack : stack.length = 512) :
    (∀ {f' : Input} {stack' : Bytes}, f.text = f'.text → f'.Delivers → stack'.length = 1024 →
      (∀ l ∈ lines 10 f.text, l.length ≤ 511) → (∀ out ∈ outs, 512 ≤ out.length) →
      (Agree stack stack' f f' outs ↔ [] ∉ (lines 10 f.text).take outs.length)) ∧
    (FitAll f.text outs → (calls call outs (simpleReadlineInit stack, f)).isSome) :=
  ⟨fun htext hf' hstack' => agree_iff htext hf hf' hstack hstack',
    fun houts => calls_inside houts (holds_init hstack f) hf⟩

/-- `"a\nb\n"`, of which the one reader gets a byte first and the other two, into large arrays and
into arrays of two bytes. -/
theorem readers_two_lines :
    Agree (List.replicate 512 0) (List.replicate 1024 0) ⟨[97, 10, 98, 10], [.upTo 0]⟩
      ⟨[97, 10, 98, 10], [.upTo 1]⟩ (List.replicate 3 (List.replicate 512 0)) ∧
    (calls call [[0, 0], [0, 0], [0, 0]]
      (simpleReadlineInit (List.replicate 512 0), ⟨[97, 10, 98, 10], [.upTo 0]⟩)).isSome := by
  have hf : Input.Delivers ⟨[97, 10, 98, 10], [.upTo 0]⟩ := by simp [Input.Delivers]
  constructor
  · have htext : Input.text ⟨[97, 10, 98, 10], [.upTo 0]⟩ =
        Input.text ⟨[97, 10, 98, 10], [.upTo 1]⟩ := rfl
    refine ((readers_agree hf List.length_replicate).1 htext ?_ List.length_replicate ?_ ?_).2 ?_
    · simp [Input.Delivers]
    · decide
    · intro out hout
      rw [List.eq_of_mem_replicate hout, List.length_replicate]
    · decide
  · refine (readers_agree hf List.length_replicate).2 ⟨?_, ?_, ?_, trivial⟩ <;>
      unfold Fits <;> decide

theorem call_long {t : Bytes} (hlen : t.length = 512) (h : 10 ∉ t) :
    call [0] (simpleReadlineInit (replicate 512 0), ⟨t, []⟩) = none := by
  have hholds : Holds (simpleReadlineInit (replicate 512 0)) ⟨t, []⟩ t :=
    holds_init length_replicate _
  obtain ⟨⟨nl, ⟨cells, used⟩, f⟩, hfind, hfound, -⟩ := search_found hholds fun _ => not_mem_nil
  obtain ⟨rfl, rfl, hcells⟩ : nl = some 512 ∧ used = (512 : ℕ) ∧ cells.length = 512 := by
    cases hfound with
    | newline _ _ ht => exact absurd (ht ▸ mem_append_right _ mem_cons_self) h
    | full _ hlen _ => exact ⟨rfl, rfl, hlen⟩
    | last _ _ hcells _ => exact ⟨congrArg some hlen, congrArg Nat.cast hlen, hcells⟩
    | nothing hnil _ _ => simp [hnil] at hlen
  rw [call_some [0] (by decide) hfind, takeLine_eq hcells le_rfl le_rfl (cons_ne_nil _ _) rfl]
  rfl

/-- On `"a\n\nb\n"` the second call says that the file is at its end; and with an array of one byte
a line of 512 bytes sends the reader outside its buffer. -/
theorem readers_empty_line :
    ¬ Agree (List.replicate 512 0) (List.replicate 1024 0) ⟨[97, 10, 10, 98, 10], []⟩
      ⟨[97, 10, 10, 98, 10], []⟩ (List.replicate 2 (List.replicate 512 0)) ∧
    calls call [[0]] (simpleReadlineInit (List.replicate 512 0), ⟨List.replicate 512 97, []⟩) =
      none := by
  constructor
  · rw [agree_iff rfl (by simp [Input.Delivers]) (by simp [Input.Delivers]) List.length_replicate
      List.length_replicate (by decide)
      fun out hout => by rw [List.eq_of_mem_replicate hout, List.length_replicate]]
    decide
  · rw [calls, call_long List.length_replicate fun h =>
      absurd (List.eq_of_mem_replicate h) (by decide)]
    rfl

end Agreement

end SimpleReadline

end Darling
