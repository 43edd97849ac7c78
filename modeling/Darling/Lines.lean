import Mathlib.Data.List.Forall2

/-!
# Lines and their readers

A text is cut into lines at a separator; what stands behind the last separator is a line if it is
not empty.  `calls` is what the calls of a reader return; a reader that holds a list hands out the
first of it at each call, and nothing when there is none left.
-/

namespace Darling.Lines

open List

section Text

variable {α : Type*} [DecidableEq α] (sep : α)

def lines : List α → List (List α)
  | [] => []
  | c :: t =>
    if c = sep then [] :: lines t
    else
      match lines t with
      | [] => [[c]]
      | l :: ls => (c :: l) :: ls

variable {sep}

theorem lines_line (rest : List α) : ∀ {l : List α}, sep ∉ l →
    lines sep (l ++ sep :: rest) = l :: lines sep rest
  | [], _ => by rw [nil_append, lines, if_pos rfl]
  | c :: l, h => by
    obtain ⟨hc, hl⟩ := ne_and_not_mem_of_not_mem_cons h
    rw [cons_append, lines, if_neg hc.symm, lines_line rest hl]

theorem lines_last : ∀ {l : List α}, sep ∉ l → l ≠ [] → lines sep l = [l]
  | [c], h, _ => by
    rw [lines, if_neg (ne_and_not_mem_of_not_mem_cons h).1.symm, lines]
  | c :: d :: l, h, _ => by
    obtain ⟨hc, hl⟩ := ne_and_not_mem_of_not_mem_cons h
    rw [lines, if_neg hc.symm, lines_last hl (cons_ne_nil _ _)]

theorem lines_cut {t : List α} (ht : t ≠ []) :
    lines sep t = t.take (t.idxOf sep) :: lines sep (t.drop (t.idxOf sep + 1)) := by
  by_cases h : sep ∈ t
  · obtain ⟨l, rest, rfl, hl⟩ := eq_append_cons_of_mem h
    rw [lines_line rest hl, idxOf_append_of_notMem hl, idxOf_cons_self, Nat.add_zero,
      take_left, ← drop_drop, drop_left, drop_one, tail_cons]
  · rw [lines_last h ht, idxOf_eq_length h, take_length, drop_eq_nil_of_le (Nat.le_succ _), lines]

theorem lines_append (rest : List α) : ∀ {l : List α}, sep ∉ l → l ≠ [] →
    ∃ l' ls, lines sep (l ++ rest) = (l ++ l') :: ls
  | [c], h, _ => by
    rw [singleton_append, lines, if_neg (ne_and_not_mem_of_not_mem_cons h).1.symm]
    rcases lines sep rest with _ | ⟨l', ls⟩
    · exact ⟨[], [], rfl⟩
    · exact ⟨l', ls, rfl⟩
  | c :: d :: l, h, _ => by
    obtain ⟨hc, hl⟩ := ne_and_not_mem_of_not_mem_cons h
    obtain ⟨l', ls, ih⟩ := lines_append rest hl (cons_ne_nil _ _)
    exact ⟨l', ls, by rw [cons_append, lines, if_neg hc.symm, ih]; rfl⟩

end Text

section Calls

variable {ι σ β γ : Type*} (next : ι → σ → Option (β × σ))

def calls : List ι → σ → Option (List β × σ)
  | [], s => some ([], s)
  | x :: xs, s => do
    let (b, s) ← next x s
    let (bs, s) ← calls xs s
    return (b :: bs, s)

def firsts : ℕ → List γ → List (Option γ)
  | 0, _ => []
  | n + 1, ls => ls.head? :: firsts n ls.tail

variable {next}

theorem map_firsts_takeWhile {δ : Type*} {g : Option γ → δ} (hg : ∀ x, g none ≠ g (some x))
    {p : γ → Bool} : ∀ {n : ℕ} {l : List γ},
      (firsts n (l.takeWhile p)).map g = (firsts n l).map g ↔ ∀ x ∈ l.take n, p x
  | 0, _ => by simp [firsts]
  | n + 1, [] => by simp
  | n + 1, x :: ls => by
    rw [take_succ_cons, forall_mem_cons]
    by_cases hx : p x
    · rw [takeWhile_cons_of_pos hx, firsts, firsts, map_cons, map_cons, head?_cons, head?_cons,
        tail_cons, tail_cons, cons_eq_cons, map_firsts_takeWhile hg]
      simp [hx]
    · rw [takeWhile_cons_of_neg hx, firsts, firsts, map_cons, map_cons, cons_eq_cons]
      exact iff_of_false (fun h => hg x h.1) fun h => hx h.1

theorem calls_cons {x : ι} {s s' : σ} {b : β} (xs : List ι) (h : next x s = some (b, s')) :
    calls next (x :: xs) s = (calls next xs s').map fun r => (b :: r.1, r.2) := by
  simp only [calls, h, Option.bind_eq_bind, Option.bind_some]
  rcases calls next xs s' with _ | ⟨bs, s''⟩ <;> rfl

theorem calls_spec {A : ι → Prop} {I : σ → List γ → Prop} {Q : β → Option γ → Prop}
    (hnext : ∀ x s ls, A x → I s ls →
      ∃ b s', next x s = some (b, s') ∧ Q b ls.head? ∧ I s' ls.tail) :
    ∀ {xs : List ι} {s : σ} {ls : List γ}, (∀ x ∈ xs, A x) → I s ls →
      ∃ bs s', calls next xs s = some (bs, s') ∧ List.Forall₂ Q bs (firsts xs.length ls)
  | [], s, _, _, _ => ⟨[], s, rfl, .nil⟩
  | x :: xs, s, ls, hxs, hs => by
    obtain ⟨hx, hxs⟩ := forall_mem_cons.1 hxs
    obtain ⟨b, s', hb, hq, hs'⟩ := hnext x s ls hx hs
    obtain ⟨bs, s'', hbs, hqs⟩ := calls_spec hnext hxs hs'
    refine ⟨b :: bs, s'', ?_, .cons hq hqs⟩
    rw [calls_cons xs hb, hbs, Option.map_some]

end Calls

end Darling.Lines
