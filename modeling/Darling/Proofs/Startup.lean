import Darling.Proofs.CArray
import Darling.Startup

/-!
# The shell reads what was quoted
-/

namespace Darling.Startup

open CArray List

def quoted (arg : Bytes) : Bytes := quote :: (escapeQuotes arg ++ [quote])

theorem escapeQuotes_cons (c : Byte) (s : Bytes) : escapeQuotes (c :: s) =
    (if c = quote then [quote, backslash, quote, quote] else [c]) ++ escapeQuotes s := rfl

theorem foldlM_escapeQuotes (words : List Bytes) : ∀ (s w : Bytes),
    (escapeQuotes s).foldlM Lexer.step ⟨.quoted, words, some w⟩ =
      some ⟨.quoted, words, some (w ++ s)⟩
  | [], w => by simp [escapeQuotes]
  | c :: s, w => by
    have ih := foldlM_escapeQuotes words s (w ++ [c])
    rw [escapeQuotes_cons, foldlM_append]
    by_cases hc : c = quote
    · simpa [hc, Lexer.step, Lexer.push, quote, backslash] using ih
    · simpa [hc, Lexer.step, Lexer.push] using ih

theorem foldlM_quoted (words : List Bytes) (a : Bytes) :
    (quoted a).foldlM Lexer.step ⟨.plain, words, none⟩ = some ⟨.plain, words, some a⟩ := by
  simp [quoted, Lexer.step, Lexer.push, foldlM_escapeQuotes]

def rest (args : List Bytes) : Bytes := args.flatMap fun a => blank :: quoted a

theorem foldlM_rest : ∀ (args words : List Bytes) (a : Bytes),
    (rest args).foldlM Lexer.step ⟨.plain, words, some a⟩ >>= (fun l =>
      if l.mode = .plain then some (l.words ++ l.word.toList) else none) =
      some (words ++ a :: args)
  | [], words, a => by simp [rest]
  | b :: args, words, a => by
    have ih := foldlM_rest args (words ++ [a]) b
    simpa [rest, Lexer.step, foldlM_quoted, blank, quote, backslash] using ih

theorem stpcpy_spec (s t v : Bytes) (h : s.length < v.length) : ∃ w,
    stpcpy s (t ++ v, t.length) = some (t ++ s ++ 0 :: w, (t ++ s).length) ∧
      w.length + s.length + 1 = v.length := by
  refine ⟨v.drop (s.length + 1), ?_, by simp; omega⟩
  simp [stpcpy, strcpy, blit_room (t := s ++ [0]) (by simp; omega)]

theorem pushWord_spec (t v a : Bytes) (h : (quoted a).length < v.length) : ∃ w,
    (stpcpy [quote] (t ++ v, t.length) >>= fun dest => stpcpy (escapeQuotes a) dest >>=
      fun dest => stpcpy [quote] dest) = some (t ++ quoted a ++ 0 :: w, (t ++ quoted a).length) ∧
      w.length + (quoted a).length + 1 = v.length := by
  simp only [quoted, length_cons, length_append, length_nil] at h
  obtain ⟨w₁, h₁, hw₁⟩ := stpcpy_spec [quote] t v (by simp; omega)
  obtain ⟨w₂, h₂, hw₂⟩ := stpcpy_spec (escapeQuotes a) (t ++ [quote]) (0 :: w₁)
    (by simp at hw₁ ⊢; omega)
  obtain ⟨w₃, h₃, hw₃⟩ := stpcpy_spec [quote] (t ++ [quote] ++ escapeQuotes a) (0 :: w₂)
    (by simp at hw₁ hw₂ ⊢; omega)
  refine ⟨w₃, ?_, ?_⟩
  · rw [h₁, some_bind, h₂, some_bind, h₃]
    simp [quoted]
  · simp [quoted] at hw₁ hw₂ hw₃ ⊢
    omega

theorem pushArgument_next {t : Bytes} (ht : t ≠ []) (v a : Bytes)
    (h : (quoted a).length + 1 < v.length) : ∃ w,
    pushArgument (t ++ v, t.length) a =
      some (t ++ (blank :: quoted a) ++ 0 :: w, (t ++ (blank :: quoted a)).length) ∧
      w.length + (quoted a).length + 2 = v.length := by
  obtain ⟨w, hw, hlen⟩ := stpcpy_spec [blank] t v (by simp; omega)
  obtain ⟨w', hw', hlen'⟩ := pushWord_spec (t ++ [blank]) (0 :: w) a (by simp at hlen ⊢; omega)
  refine ⟨w', ?_, by simp at hlen hlen' ⊢; omega⟩
  rw [pushArgument, if_pos (by simpa using ht), hw, some_bind]
  simpa using hw'

theorem foldlM_pushArgument : ∀ (args : List Bytes) (t v : Bytes), t ≠ [] →
    (rest args).length = v.length → args.foldlM pushArgument (t ++ 0 :: v, t.length) =
      some (t ++ rest args ++ [0], (t ++ rest args).length)
  | [], t, v, _, h => by
    obtain rfl : v = [] := length_eq_zero_iff.1 h.symm
    simp [rest]
  | a :: args, t, v, ht, h => by
    have hrest : rest (a :: args) = blank :: quoted a ++ rest args := rfl
    rw [hrest, length_append] at h
    obtain ⟨w, hw, hlen⟩ := pushArgument_next ht (0 :: v) a (by simp at h ⊢; omega)
    have ih := foldlM_pushArgument args (t ++ blank :: quoted a) w (by simp)
      (by simp at h hlen ⊢; omega)
    rw [foldlM_cons, hw, some_bind, ih, hrest]
    simp

theorem zero_notMem_escapeQuotes {s : Bytes} (h : 0 ∉ s) : 0 ∉ escapeQuotes s := by
  simp only [escapeQuotes, mem_flatMap, not_exists, not_and]
  intro c hc
  split_ifs
  · decide
  · exact fun h' => h (mem_singleton.1 h' ▸ hc)

theorem length_rest : ∀ args : List Bytes,
    (rest args).length = (args.flatMap escapeQuotes).length + args.length * 3
  | [] => rfl
  | a :: args => by
    have ih := length_rest args
    simp [rest, quoted] at ih ⊢
    omega

/-- Whatever was in the buffer, it then holds a text and its NUL, which the shell takes apart into
the arguments. -/
theorem spawnShell_words (argv : List Bytes) (hne : argv ≠ []) (hnul : ∀ a ∈ argv, 0 ∉ a) :
    ∃ text, 0 ∉ text ∧ shellWords text = some argv ∧ text.length + 1 = bufferSize argv ∧
      ∀ buffer : Bytes, buffer.length = bufferSize argv →
        spawnShell argv buffer = some (text ++ [0], text.length) := by
  obtain ⟨a, args, rfl⟩ := exists_cons_of_ne_nil hne
  have hsize : (quoted a ++ rest args).length + 1 = bufferSize (a :: args) := by
    simp [bufferSize, quoted, length_rest]
    omega
  refine ⟨quoted a ++ rest args, ?_, ?_, hsize, fun buffer hbuffer => ?_⟩
  · have hquoted (b) (hb : b ∈ a :: args) : 0 ∉ quoted b := by
      simpa [quoted, quote] using zero_notMem_escapeQuotes (hnul b hb)
    simp only [mem_append, rest, mem_flatMap, not_or, not_exists, not_and]
    exact ⟨hquoted a mem_cons_self, fun b hb => by
      simpa [blank] using hquoted b (mem_cons_of_mem _ hb)⟩
  · rw [shellWords, foldlM_append, foldlM_quoted]
    exact foldlM_rest args [] a
  · obtain ⟨w, hw, hlen⟩ := pushWord_spec [] buffer a (by simp at hsize ⊢; omega)
    have hpush : pushArgument (buffer, 0) a = _ := hw
    rw [spawnShell, foldlM_cons, hpush, some_bind]
    exact foldlM_pushArgument args (quoted a) w (by simp [quoted]) (by simp at hsize ⊢; omega)

/-- `it's` and an empty argument. -/
theorem spawnShell_words_two : ∃ text, 0 ∉ text ∧
    shellWords text = some [[105, 116, 39, 115], []] ∧
      text.length + 1 = bufferSize [[105, 116, 39, 115], []] ∧
      ∀ buffer : Bytes, buffer.length = bufferSize [[105, 116, 39, 115], []] →
        spawnShell [[105, 116, 39, 115], []] buffer = some (text ++ [0], text.length) :=
  spawnShell_words _ (by decide) (by decide)

end Darling.Startup
