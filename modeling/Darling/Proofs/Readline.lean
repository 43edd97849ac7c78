import Darling.Lines
import Darling.Proofs.CArray
import Darling.Readline

/-!
# What `_readline` hands out

However `read` cuts the file, a call takes the text up to the next newline, or 1023 bytes of it.
-/

namespace Darling.Readline

open CArray List

/-- The text up to the next newline, or 1023 bytes of it. -/
inductive Cut : Bytes → Bytes → Bytes → Prop where
  | newline {line rest : Bytes} : 10 ∉ line → line.length ≤ 1022 →
    Cut (line ++ 10 :: rest) line rest
  | full {line rest : Bytes} : 10 ∉ line → line.length = 1023 → Cut (line ++ rest) line rest
  | last {line : Bytes} : 10 ∉ line → line.length ≤ 1022 → line ≠ [] → Cut line line []

variable {t line rest : Bytes} {f f' : Input}

theorem Cut.eq (h : Cut t line rest) :
    line = (t.takeWhile (· ≠ 10)).take 1023 ∧ rest = t.drop (min 1023 (line.length + 1)) := by
  have hall : ∀ {l : Bytes}, 10 ∉ l → ∀ c ∈ l, decide (c ≠ 10) = true := by
    intro l hl c hc
    exact decide_eq_true fun h => hl (h ▸ hc)
  cases h with
  | newline hline hlen =>
    rw [takeWhile_append_of_pos (hall hline), Nat.min_eq_right (by omega)]
    refine ⟨?_, ?_⟩
    · simp [take_of_length_le (show line.length ≤ 1023 by omega)]
    · rw [← drop_drop, drop_left]
      rfl
  | full hline hlen =>
    rw [takeWhile_append_of_pos (hall hline), Nat.min_eq_left (by omega), ← hlen,
      take_left, drop_left]
    exact ⟨rfl, rfl⟩
  | last hline hlen hne =>
    rw [takeWhile_eq_self_iff.2 (hall hline), take_of_length_le (by omega),
      drop_of_length_le (by omega)]
    exact ⟨rfl, rfl⟩

theorem Cut.unique {line' rest' : Bytes} (h : Cut t line rest) (h' : Cut t line' rest') :
    line = line' ∧ rest = rest' := by
  obtain ⟨hline, hrest⟩ := h.eq
  obtain ⟨hline', hrest'⟩ := h'.eq
  have hsame : line = line' := hline.trans hline'.symm
  refine ⟨hsame, ?_⟩
  rw [hrest, hrest', hsame]

theorem Cut.length_lt (h : Cut t line rest) : rest.length < t.length := by
  cases h with
  | newline _ _ =>
    rw [length_append, length_cons]
    omega
  | full _ hlen =>
    rw [length_append]
    omega
  | last _ _ hne => exact length_pos_of_ne_nil hne

/-- What the buffer and the file still have is this text. -/
def Holds (b : RdlineBuffer) (f : Input) (t : Bytes) : Prop :=
  ∃ gone held free : Bytes, b = ⟨gone ++ (held ++ free), gone.length + held.length, gone.length⟩ ∧
    (gone ++ (held ++ free)).length = 1024 ∧ free ≠ [] ∧ t = held ++ f.text

variable {b : RdlineBuffer}

theorem Holds.buffer_length (h : Holds b f t) : b.buffer.length = 1024 := by
  obtain ⟨gone, held, free, rfl, hlen, -, -⟩ := h
  exact hlen

theorem holds_init {stack : Bytes} (h : stack.length = 1024) (f : Input) :
    Holds (readlineInit stack) f f.text :=
  ⟨[], [], stack, rfl, h, ne_nil_of_length_pos (by rw [h]; decide), rfl⟩

/-- What a call may return. -/
inductive Outcome (t : Bytes) (f : Input) : Bool × RdlineBuffer × Input → Prop where
  | line {l rest stale : Bytes} {b : RdlineBuffer} {f' : Input} : Cut t l rest →
    b.buffer = l ++ 0 :: stale → Holds b f' rest → f'.answers ⊆ f.answers →
    Outcome t f (true, b, f')
  | stop {b : RdlineBuffer} {f' : Input} : (t = [] ∨ ∃ e, Answer.fails e ∈ f.answers) →
    Outcome t f (false, b, f')

theorem Outcome.mono (h : f'.answers ⊆ f.answers) {r : Bool × RdlineBuffer × Input}
    (hr : Outcome t f' r) : Outcome t f r := by
  cases hr with
  | line hcut hbuf hholds hans => exact .line hcut hbuf hholds (Subset.trans hans h)
  | stop hstop => exact .stop (hstop.imp_right fun ⟨e, he⟩ => ⟨e, h he⟩)

theorem read_error {len : ℕ} {e : ℕ+} (h : f.read len = (.error e, f')) :
    Answer.fails e ∈ f.answers := by
  unfold Input.read at h
  split at h
  · cases h
  · cases h
  · rename_i hans
    cases h
    rw [hans]
    exact mem_cons_self

theorem read_ok {len : ℕ} {bs : Bytes} (h : f.read len = (.ok bs, f')) :
    bs ++ f'.text = f.text ∧ bs.length ≤ len ∧ (bs = [] → len = 0 ∨ f.text = []) ∧
      f'.answers ⊆ f.answers := by
  have hread : ∃ n, n ≤ len ∧ (n = 0 → len = 0) ∧ bs = f.text.take n ∧ f'.text = f.text.drop n ∧
      f'.answers ⊆ f.answers := by
    unfold Input.read at h
    split at h
    · cases h
      exact ⟨len, le_rfl, id, rfl, rfl, nil_subset _⟩
    · rename_i n as hans
      cases h
      refine ⟨min len (n + 1), min_le_left _ _, by omega, rfl, rfl, ?_⟩
      rw [hans]
      exact subset_cons_self _ _
    · cases h
  obtain ⟨n, hn, hzero, rfl, htext, hans⟩ := hread
  refine ⟨by rw [htext, take_append_drop], ?_, ?_, hans⟩
  · rw [length_take]
    omega
  · intro hnil
    rcases take_eq_nil_iff.1 hnil with h0 | h0
    · exact .inl (hzero h0)
    · exact .inr h0

theorem memchr_held (held free : Bytes) : memchr (held ++ free) held.length =
    if 10 ∈ held then some (held.idxOf 10) else none := by
  rw [memchr, take_left]

section Loop

variable {held free : Bytes} {f : Input}

section

variable (hlen : (held ++ free).length = 1024) (hfree : free ≠ [])

include hlen hfree

theorem outcome_newline (h : 10 ∈ held) :
    ∃ buffer, store (held ++ free) (held.idxOf 10) 0 = some buffer ∧
      Outcome (held ++ f.text) f (true, ⟨buffer, held.length, held.idxOf 10 + 1⟩, f) := by
  obtain ⟨line, w, rfl, hline⟩ := eq_append_cons_of_mem h
  have hpos := length_pos_of_ne_nil hfree
  rw [idxOf_append_of_notMem hline, idxOf_cons_self, Nat.add_zero, append_assoc, append_assoc]
  rw [append_assoc, length_append, cons_append, length_cons, length_append] at hlen
  refine ⟨line ++ 0 :: (w ++ free), store_split _ _ _ _, ?_⟩
  refine .line (.newline hline (by omega)) rfl ⟨line ++ [0], w, free, ?_, ?_, hfree, rfl⟩
    (Subset.refl _)
  · simp only [append_assoc, cons_append, nil_append, length_append,
      length_cons, length_nil, RdlineBuffer.mk.injEq, true_and, and_true]
    omega
  · simp only [length_append, length_singleton]
    omega

theorem outcome_eof (hline : 10 ∉ held) (hheld : held ≠ [])
    (heof : held.length = 1023 ∨ f.text = []) :
    ∃ buffer, store (held ++ free) held.length 0 = some buffer ∧
      Outcome (held ++ f.text) f (true, ⟨buffer, 0, 0⟩, f) := by
  obtain ⟨x, free, rfl⟩ := exists_cons_of_ne_nil hfree
  rw [length_append, length_cons] at hlen
  have hcut : Cut (held ++ f.text) held f.text := by
    by_cases hfull : held.length = 1023
    · exact .full hline hfull
    · rw [heof.resolve_left hfull, append_nil]
      exact .last hline (by omega) hheld
  refine ⟨held ++ 0 :: free, store_split _ _ _ _, ?_⟩
  refine .line hcut rfl ⟨[], [], held ++ 0 :: free, rfl, ?_, by simp, rfl⟩ (Subset.refl _)
  rw [nil_append, nil_append, length_append, length_cons, hlen]

end

theorem readLoop_outcome : ∀ {fuel : ℕ} {eof : Bool} {held free : Bytes} {f : Input},
    (held ++ free).length = 1024 → free ≠ [] → (eof = true → held.length = 1023 ∨ f.text = []) →
    1023 - held.length + (if eof then 1 else 2) ≤ fuel →
    ∃ r, readLoop fuel eof ⟨held ++ free, held.length, 0⟩ f = some r ∧ Outcome (held ++ f.text) f r
  | 0, eof, _, _, _, _, _, _, hfuel => by
    split_ifs at hfuel <;> omega
  | fuel + 1, eof, held, free, f, hlen, hfree, heof, hfuel => by
    rw [readLoop, memchr_held]
    by_cases hmem : 10 ∈ held
    · obtain ⟨buffer, hstore, hout⟩ := outcome_newline hlen hfree hmem
      rw [if_pos hmem]
      simp only [hstore, some_bind]
      exact ⟨_, rfl, hout⟩
    rw [if_neg hmem]
    cases eof with
    | true =>
      by_cases hheld : held = []
      · subst hheld
        exact ⟨_, rfl, .stop (.inl ((heof rfl).resolve_left (by decide)))⟩
      · obtain ⟨buffer, hstore, hout⟩ := outcome_eof hlen hfree hmem hheld (heof rfl)
        simp only [if_true, length_pos_iff.2 hheld, hstore, some_bind]
        exact ⟨_, rfl, hout⟩
    | false =>
      have hpos := length_pos_of_ne_nil hfree
      rw [length_append] at hlen
      rcases hread : f.read (1024 - held.length - 1) with ⟨e | bs, f'⟩
      · simp only [Bool.false_eq_true, if_false]
        exact ⟨_, rfl, .stop (.inr ⟨e, read_error hread⟩)⟩
      · obtain ⟨htext, hbs, hzero, hans⟩ := read_ok hread
        have hblit := blit_room (u := held) (show bs.length ≤ free.length by omega)
        have hrest : (free.drop bs.length).length = free.length - bs.length := length_drop
        have hw : (held ++ bs ++ free.drop bs.length).length = 1024 := by
          rw [length_append, length_append, hrest]
          omega
        have hfree' : free.drop bs.length ≠ [] := ne_nil_of_length_pos (by omega)
        have heof' : (bs.length == 0) = true → (held ++ bs).length = 1023 ∨ f'.text = [] := by
          intro hnil
          obtain rfl := length_eq_zero_iff.1 (of_decide_eq_true hnil)
          rw [append_nil]
          refine (hzero rfl).imp (fun h0 => by omega) fun h0 => ?_
          rw [← h0, ← htext, nil_append]
        have hfuel' : 1023 - (held ++ bs).length +
          (if (bs.length == 0) = true then 1 else 2) ≤ fuel := by
          rw [if_neg (by decide)] at hfuel
          rw [length_append]
          split_ifs with h0
          · omega
          · have : bs.length ≠ 0 := fun h => h0 (decide_eq_true h)
            omega
        obtain ⟨r, hr, hout⟩ := readLoop_outcome hw hfree' heof' hfuel'
        rw [append_assoc, htext] at hout
        rw [append_assoc, length_append] at hr
        simp only [Bool.false_eq_true, if_false, hblit, some_bind]
        exact ⟨r, hr, hout.mono hans⟩

/-- However the file is read, a call takes the next line off the text, and ends without one only at
the end of the text or if `read` fails. -/
theorem readline_outcome {t : Bytes} (h : Holds b f t) :
    ∃ r, readline b f = some r ∧ Outcome t f r := by
  obtain ⟨gone, held, free, rfl, hlen, hfree, rfl⟩ := h
  have hfuel : 1023 - held.length + (if false = true then 1 else 2) ≤ 1025 := by
    rw [if_neg (by decide)]
    omega
  rw [readline]
  by_cases hgone : gone.length = 0
  · obtain rfl := length_eq_zero_iff.1 hgone
    rw [if_neg (not_not.2 hgone)]
    simp only [nil_append, length_nil, Nat.zero_add] at hlen ⊢
    exact readLoop_outcome hlen hfree (fun h => by cases h) hfuel
  · rw [if_pos hgone, Nat.add_sub_cancel_left, move_front]
    have hdrop := @length_drop _ held.length (gone ++ (held ++ free))
    refine readLoop_outcome ?_ ?_ (fun h => by cases h) hfuel
    · simp only [length_append] at hlen hdrop ⊢
      omega
    · refine ne_nil_of_length_pos ?_
      simp only [length_append] at hlen hdrop ⊢
      omega

theorem readLoop_end (buffer : Bytes) (htext : f.text = []) (hf : f.Delivers) (fuel : ℕ) :
    ∃ f', readLoop (fuel + 2) false ⟨buffer, 0, 0⟩ f = some (false, ⟨buffer, 0, 0⟩, f') ∧
      f'.text = [] ∧ f'.answers ⊆ f.answers := by
  rcases hread : f.read 1023 with ⟨e | bs, f'⟩
  · exact absurd (read_error hread) (hf e)
  · obtain ⟨hsplit, -, -, hans⟩ := read_ok hread
    rw [htext, append_eq_nil_iff] at hsplit
    obtain ⟨rfl, htext'⟩ := hsplit
    have hblit : blit buffer 0 [] = some buffer := blit_room (u := []) (Nat.zero_le _)
    refine ⟨f', ?_, htext', hans⟩
    simp [readLoop, memchr, hread, hblit]

theorem readline_end (h : Holds b f []) (hf : f.Delivers) :
    ∃ b' f', readline b f = some (false, b', f') ∧ Holds b' f' [] ∧ f'.answers ⊆ f.answers := by
  obtain ⟨gone, held, free, rfl, hlen, hfree, ht⟩ := h
  obtain ⟨rfl, htext⟩ := append_eq_nil_iff.1 ht.symm
  obtain ⟨buffer, hbuffer, hline⟩ : ∃ buffer : Bytes, buffer.length = 1024 ∧
      readline ⟨gone ++ ([] ++ free), gone.length + ([] : Bytes).length, gone.length⟩ f =
        readLoop 1025 false ⟨buffer, 0, 0⟩ f := by
    rw [readline]
    by_cases hgone : gone.length = 0
    · rw [if_neg (not_not.2 hgone), hgone]
      exact ⟨_, hlen, rfl⟩
    · rw [if_pos hgone, Nat.add_sub_cancel_left, move_front]
      refine ⟨_, ?_, rfl⟩
      simpa using hlen
  obtain ⟨f', hloop, htext', hans⟩ := readLoop_end buffer htext hf 1023
  refine ⟨_, f', hline.trans hloop, ⟨[], [], buffer, rfl, hbuffer, ?_, ?_⟩, hans⟩
  · exact ne_nil_of_length_pos (by rw [hbuffer]; decide)
  · rw [htext', append_nil]

end Loop

section Lines

open Lines

variable {t : Bytes}

theorem lines_of_cut {line rest : Bytes} (h : Cut t line rest)
    (ht : ∀ l ∈ lines 10 t, l.length ≤ 1022) : lines 10 t = line :: lines 10 rest := by
  cases h with
  | newline hline _ => exact lines_line _ hline
  | full hline hlen =>
    obtain ⟨l, ls, hlines⟩ := lines_append rest hline
      (ne_nil_of_length_pos (by rw [hlen]; decide))
    have hle := ht _ (hlines ▸ mem_cons_self)
    rw [length_append] at hle
    omega
  | last hline _ hne => rw [lines_last hline hne, lines]

def HoldsLines (s : RdlineBuffer × Input) (ls : List Bytes) : Prop :=
  ∃ t, Holds s.1 s.2 t ∧ s.2.Delivers ∧ ls = lines 10 t ∧ ∀ l ∈ ls, l.length ≤ 1022

theorem call_holdsLines {s : RdlineBuffer × Input} {ls : List Bytes} (h : HoldsLines s ls) :
    ∃ r s', call s = some (r, s') ∧ Returns r ls.head? ∧ HoldsLines s' ls.tail := by
  obtain ⟨t, ht, hf, rfl, hle⟩ := h
  by_cases hnil : t = []
  · subst hnil
    obtain ⟨b, f, hcall, hholds, hans⟩ := readline_end ht hf
    refine ⟨none, (b, f), ?_, trivial, [], hholds, fun e he => hf e (hans he), rfl, by simp [lines]⟩
    simp [call, hcall]
  · obtain ⟨r, hcall, hout⟩ := readline_outcome ht
    cases hout with
    | stop hstop =>
      obtain ⟨e, he⟩ := hstop.resolve_left hnil
      exact absurd he (hf e)
    | @line l rest stale b f hcut hbuffer hholds hans =>
      have hlines := lines_of_cut hcut hle
      rw [hlines] at hle ⊢
      refine ⟨some b.buffer, (b, f), by simp [call, hcall], ⟨stale, hbuffer⟩, rest, hholds,
        fun e he => hf e (hans he), rfl, fun l hl => hle l (mem_cons_of_mem _ hl)⟩

/-- The calls return the lines of the text in order, and `NULL` from then on, whatever the sizes
are that the text is read in. -/
theorem readline_lines {stack : Bytes} (hstack : stack.length = 1024) {f : Input} (hf : f.Delivers)
    (ht : ∀ l ∈ lines 10 f.text, l.length ≤ 1022) (n : ℕ) :
    ∃ rs s, calls (fun _ => call) (List.replicate n ()) (readlineInit stack, f) = some (rs, s) ∧
      List.Forall₂ Returns rs (firsts n (lines 10 f.text)) := by
  have hinit : HoldsLines (readlineInit stack, f) (lines 10 f.text) :=
    ⟨f.text, holds_init hstack f, hf, rfl, ht⟩
  obtain ⟨rs, s, hcalls, hrs⟩ := calls_spec
    (fun _ _ _ _ => call_holdsLines) (fun x (_ : x ∈ List.replicate n ()) => trivial) hinit
  rw [length_replicate] at hrs
  exact ⟨rs, s, hcalls, hrs⟩

/-- `"ab\n\nc"`, of which the first read brings a byte and the second two. -/
theorem readline_lines_chunked : ∃ rs s, calls (fun _ => call) (List.replicate 4 ())
      (readlineInit (List.replicate 1024 0), ⟨[97, 98, 10, 10, 99], [.upTo 0, .upTo 1]⟩) =
        some (rs, s) ∧
    List.Forall₂ Returns rs [some [97, 98], some [], some [99], none] :=
  readline_lines length_replicate
    (by simp [Input.Delivers]) (by decide) 4

end Lines

end Darling.Readline
