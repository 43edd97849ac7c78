import Darling.CArray
import Mathlib.Data.List.TakeWhile
import Mathlib.Tactic

/-!
# Strings in arrays

Each access, at an index given by splitting the array there, and each operation on an array that
spells a string: the array keeps its size, it spells the string the operation is meant to leave,
and the operation fails exactly when the array is too small for it.
-/

namespace Darling.CArray

open List
open Option (some.inj)

variable {α β : Type*} {x : Option α}

theorem rel_bind {γ δ : Type*} {r : α → β → Prop} {q : γ → δ → Prop} {y : Option β}
    {f : α → Option γ} {g : β → Option δ} (h : Option.Rel r x y)
    (hfg : ∀ a b, r a b → Option.Rel q (f a) (g b)) : Option.Rel q (x.bind f) (y.bind g) := by
  cases h with
  | none => exact .none
  | some hab => exact hfg _ _ hab

theorem bind_eq_of_rel {γ : Type*} {r : α → β → Prop} {y : Option β}
    {f : α → Option γ} {g : β → Option γ} (h : Option.Rel r x y)
    (hfg : ∀ a b, r a b → f a = g b) : x.bind f = y.bind g := by
  cases h with
  | none => rfl
  | some hab => exact hfg _ _ hab

theorem exists_of_rel {r : α → β → Prop} {a : α} {y : Option β}
    (h : Option.Rel r (some a) y) : ∃ b, y = some b ∧ r a b := by
  cases h with
  | some h => exact ⟨_, rfl, h⟩

theorem exists_of_rel' {r : α → β → Prop} {b : β}
    (h : Option.Rel r x (some b)) : ∃ a, x = some a ∧ r a b := by
  cases h with
  | some h => exact ⟨_, rfl, h⟩

variable {z x : α} {n : ℕ} {s a s : List α}

section Split

theorem store_split (u v : List α) (x y : α) :
    store (u ++ x :: v) u.length y = some (u ++ y :: v) := by
  unfold store
  rw [if_pos (by simp)]
  simp

theorem store_outside {i : ℕ} (h : a.length ≤ i) : store a i x = none := by
  unfold store
  rw [if_neg (by omega)]

theorem blit_outside {i : ℕ} (h : a.length < i + s.length) : blit a i s = none := by
  rw [blit, if_neg]
  omega

theorem blit_split {v t : List α} (h : t.length = v.length) (u w : List α) :
    blit (u ++ (v ++ w)) u.length t = some (u ++ (t ++ w)) := by
  unfold blit
  rw [if_pos (by simp [h])]
  have h1 : (u ++ (v ++ w)).take u.length = u := by simp
  have h2 : (u ++ (v ++ w)).drop (u.length + t.length) = w := by
    rw [h, ← append_assoc, ← length_append, drop_left]
  rw [h1, h2]

theorem blit_room {u v t : List α} (h : t.length ≤ v.length) :
    blit (u ++ v) u.length t = some (u ++ (t ++ v.drop t.length)) := by
  have hlen : t.length = (v.take t.length).length := by
    rw [length_take]
    omega
  have h' := blit_split hlen u (v.drop t.length)
  rwa [take_append_drop] at h'

theorem strcpy_split (z : α) {v t : List α} (h : t.length = v.length) (u w : List α) (x : α) :
    strcpy z (u ++ (v ++ x :: w)) u.length t = some (u ++ (t ++ z :: w)) := by
  have := blit_split (v := v ++ [x]) (t := t ++ [z]) (by simp [h]) u w
  simpa [strcpy] using this

theorem slice_split (u v w : List α) : slice (u ++ (v ++ w)) u.length v.length = some v := by
  rw [slice, if_pos (by simp only [length_append]; omega), drop_left, take_left]

theorem move_front (u v w : List α) : move (u ++ (v ++ w)) 0 u.length v.length =
    some (v ++ (u ++ (v ++ w)).drop v.length) := by
  have hlen : v.length ≤ (u ++ (v ++ w)).length := by
    simp only [length_append]
    omega
  rw [move, if_pos (by simp only [length_append]; omega), drop_left, take_left]
  exact @blit_room _ [] (u ++ (v ++ w)) v hlen

theorem exists_piece {i n : ℕ} (h : i + n ≤ a.length) :
    ∃ u v w, a = u ++ (v ++ w) ∧ u.length = i ∧ v.length = n := by
  refine ⟨a.take i, (a.drop i).take n, (a.drop i).drop n, ?_, ?_, ?_⟩
  · rw [take_append_drop, take_append_drop]
  · rw [length_take]
    omega
  · rw [length_take, length_drop]
    omega

theorem exists_split {u v : List α} (ha : a = u ++ v) (hn : n < v.length) :
    ∃ m x w, m.length = n ∧ a = u ++ (m ++ x :: w) := by
  refine ⟨v.take n, v[n], v.drop (n + 1), by simp; omega, ?_⟩
  rw [ha, ← drop_eq_getElem_cons hn, take_append_drop]

theorem prefix_append_terminator {t u : List α} (hs : z ∉ s) : s <+: t ++ z :: u ↔ s <+: t := by
  constructor
  · intro h
    rcases Nat.lt_or_ge t.length s.length with hlt | hle
    · have ht : t ++ [z] <+: s := prefix_of_prefix_length_le ⟨u, by simp⟩ h (by simp; omega)
      exact absurd (ht.subset (by simp)) hs
    · exact prefix_of_prefix_length_le h (prefix_append _ _) hle
  · exact fun h => h.trans (prefix_append _ _)

theorem scan_append {p : α → Bool} (hx : p x = false) :
    ∀ {s : List α}, (∀ y ∈ s, p y = true) → ∀ rest : List α, scan p (s ++ x :: rest) = some s.length
  | [], _, rest => by simp [scan, hx]
  | y :: s, h, rest => by
    have ih := scan_append hx (fun z hz => h z (mem_cons_of_mem y hz)) rest
    simp [scan, h y mem_cons_self, ih]

theorem foldlM_copy {i : ℕ} : ∀ {k j : ℕ} {u v s t : List α}, u.length = i + j → s.length = j →
    (range' j k).foldlM (fun a j => (s ++ t)[j]?.bind (store a (i + j))) (u ++ v) =
      if k ≤ t.length ∧ k ≤ v.length then some (u ++ (t.take k ++ v.drop k)) else none
  | 0, _, u, v, s, t, _, _ => by simp
  | k + 1, j, u, v, s, t, hu, hs => by
    rw [range'_succ, foldlM_cons]
    rcases t with _ | ⟨x, t⟩
    · simp [← hs]
    · rcases v with _ | ⟨y, v⟩
      · have hout : store (u ++ []) (i + j) x = none := store_outside (by simp [hu])
        simp [← hs] at hout ⊢
        simp [hout]
      · have hstore : store (u ++ y :: v) (i + j) x = some (u ++ x :: v) := hu ▸ store_split u v y x
        have ih := @foldlM_copy i k (j + 1) (u ++ [x]) v (s ++ [x]) t (by simp [hu]; omega)
          (by simp [hs])
        have hget : (s ++ x :: t)[j]? = some x := by simp [← hs]
        simp only [hget, Option.bind_some, hstore, Option.bind_eq_bind]
        simpa using ih

variable [DecidableEq α] {z : α}

theorem readTo_append : ∀ {s : List α}, z ∉ s → ∀ rest : List α, readTo z (s ++ z :: rest) = some s
  | [], _, rest => by simp [readTo]
  | x :: s, h, rest => by
    simp only [mem_cons, not_or] at h
    simp [readTo, Ne.symm h.1, readTo_append h.2 rest]

theorem str_split (h : z ∉ s) (u w : List α) : str z (u ++ (s ++ z :: w)) u.length = some s := by
  rw [str, drop_left]
  exact readTo_append h w

end Split

section BeforeLast

variable [DecidableEq α] {x : α}

theorem beforeLast_eq_none : ∀ {s : List α}, beforeLast x s = none ↔ x ∉ s
  | [] => by simp [beforeLast]
  | y :: s => by
    have ih := beforeLast_eq_none (s := s)
    simp only [beforeLast, mem_cons, not_or]
    rcases h : beforeLast x s with _ | t
    · rw [h] at ih
      split_ifs with hy
      · simp [hy]
      · simpa [Ne.symm hy] using ih
    · rw [h] at ih
      simp only [reduceCtorEq, false_iff, not_not] at ih
      simp [ih]

theorem beforeLast_split : ∀ {t u : List α}, x ∉ u → beforeLast x (t ++ x :: u) = some t
  | [], u, h => by simp [beforeLast, beforeLast_eq_none.2 h]
  | y :: t, u, h => by simp [beforeLast, beforeLast_split h]

theorem beforeLast_eq_some {t : List α} :
    beforeLast x s = some t ↔ ∃ u, x ∉ u ∧ s = t ++ x :: u := by
  constructor
  · intro h
    induction s generalizing t with
    | nil => simp [beforeLast] at h
    | cons y s ih =>
      simp only [beforeLast] at h
      rcases hs : beforeLast x s with _ | t'
      · rw [hs] at h
        split_ifs at h with hy
        · obtain rfl := some.inj h
          exact ⟨s, beforeLast_eq_none.1 hs, by rw [hy]; rfl⟩
      · rw [hs] at h
        obtain rfl := some.inj h
        obtain ⟨u, hu, rfl⟩ := ih hs
        exact ⟨u, hu, rfl⟩
  · rintro ⟨u, hu, rfl⟩
    exact beforeLast_split hu

theorem beforeLast_concat (s : List α) (y : α) :
    beforeLast x (s ++ [y]) = if y = x then some s else beforeLast x s := by
  split_ifs with hy
  · subst hy
    exact beforeLast_split (by simp)
  · rcases h : beforeLast x s with _ | t
    · rw [beforeLast_eq_none] at h ⊢
      simp [h, Ne.symm hy]
    · obtain ⟨u, hu, rfl⟩ := beforeLast_eq_some.1 h
      rw [append_assoc, cons_append]
      exact beforeLast_split (by simp [hu, Ne.symm hy])

theorem scanBack_eq (a : List α) : ∀ p, p < a.length →
    scanBack a x p = (beforeLast x (a.take (p + 1))).map length
  | 0, hp => by
    rcases a with _ | ⟨y, a⟩
    · simp at hp
    · simp only [scanBack, getElem?_cons_zero, Option.some.injEq, take_succ_cons,
        take_zero, beforeLast]
      split_ifs <;> simp
  | p + 1, hp => by
    have ih := scanBack_eq a p (by omega)
    rw [take_succ_eq_append_getElem hp, beforeLast_concat]
    simp only [scanBack, getElem?_eq_getElem hp, Option.some.injEq]
    split_ifs
    · simp
      omega
    · exact ih

end BeforeLast

namespace Spells

variable {z : α} {a s : List α}

section

variable (h : Spells z a s)

include h

theorem length_lt : s.length < a.length := by
  obtain ⟨-, rest, rfl⟩ := h
  simp

theorem str_at [DecidableEq α] {i : ℕ} (hi : i ≤ s.length) : str z a i = some (s.drop i) := by
  obtain ⟨hz, rest, rfl⟩ := h
  rw [str, drop_append_of_le_length hi]
  exact readTo_append (fun h => hz (mem_of_mem_drop h)) rest

theorem take_drop {i : ℕ} (hi : i ≤ s.length) :
    (a.drop i).take (s.length - i + 1) = s.drop i ++ [z] := by
  obtain ⟨-, rest, rfl⟩ := h
  rw [drop_append_of_le_length hi, take_append, length_drop,
    take_of_length_le (by rw [length_drop]; omega),
    show s.length - i + 1 - (s.length - i) = 1 by omega]
  rfl

theorem take_zero : a.take (s.length + 1) = s ++ [z] := by
  simpa using h.take_drop (Nat.zero_le _)

theorem str_zero [DecidableEq α] : str z a 0 = some s := by
  simpa using h.str_at (Nat.zero_le _)

theorem unique {t : List α} (h' : Spells z a t) : s = t := by
  classical
  exact some.inj (h.str_zero.symm.trans h'.str_zero)

end

theorem store_cut {t u : List α} (h : Spells z a (t ++ u)) :
    ∃ b, store a t.length z = some b ∧ Spells z b t ∧ b.length = a.length := by
  obtain ⟨hz, rest, rfl⟩ := h
  rw [mem_append, not_or] at hz
  rcases u with _ | ⟨y, u⟩
  · refine ⟨t ++ z :: rest, ?_, ⟨hz.1, rest, rfl⟩, by simp⟩
    simpa using store_split t rest z z
  · refine ⟨t ++ z :: (u ++ z :: rest), ?_, ⟨hz.1, _, rfl⟩, by simp⟩
    simpa using store_split t (u ++ z :: rest) y z

theorem store_push (h : Spells z a s) (hx : x ≠ z) : if s.length + 1 < a.length then
      ∃ b b', store a s.length x = some b ∧ store b (s.length + 1) z = some b' ∧
        Spells z b' (s ++ [x]) ∧ b'.length = a.length
    else ∃ b, store a s.length x = some b ∧ store b (s.length + 1) z = none := by
  obtain ⟨hz, rest, rfl⟩ := h
  rcases rest with _ | ⟨y, rest⟩
  · rw [if_neg (by simp)]
    exact ⟨s ++ [x], store_split s [] z x, store_outside (by simp)⟩
  · rw [if_pos (by simp)]
    refine ⟨s ++ x :: y :: rest, s ++ [x] ++ z :: rest, store_split s _ z x, ?_, ?_, by simp⟩
    · simpa using store_split (s ++ [x]) rest y z
    · exact ⟨by simp [hz, hx.symm], rest, rfl⟩

theorem exists_room (h : Spells z a s) (hlen : s.length + n < a.length) :
    ∃ m x w, m.length = n ∧ a = s ++ (m ++ x :: w) := by
  obtain ⟨-, rest, rfl⟩ := h
  exact exists_split rfl (by simpa using hlen)

theorem blit_push (h : Spells z a s) {t : List α} (ht : z ∉ t)
    (hlen : s.length + t.length < a.length) :
    ∃ b b', blit a s.length t = some b ∧ store b (s.length + t.length) z = some b' ∧
      Spells z b' (s ++ t) ∧ b'.length = a.length := by
  obtain ⟨m, x, w, hm, rfl⟩ := h.exists_room hlen
  refine ⟨s ++ (t ++ x :: w), s ++ t ++ z :: w, blit_split hm.symm s _, ?_, ?_, by simp [hm]⟩
  · have := store_split (s ++ t) w x z
    simpa using this
  · exact ⟨by simp [h.1, ht], w, rfl⟩

end Spells

theorem ofString_length (h : s.length ≤ n) : (ofString z n s).length = n := by
  simp [ofString, h]

theorem spells_ofString (hz : z ∉ s) (h : s.length < n) : Spells z (ofString z n s) s := by
  obtain ⟨m, hm⟩ : ∃ m, n - s.length = m + 1 := ⟨n - s.length - 1, by omega⟩
  exact ⟨hz, replicate m z, by rw [ofString, hm, replicate_succ]⟩

theorem spells_takeWhile [DecidableEq α] (rest : List α) :
    ∀ l : List α, Spells z (l ++ z :: rest) (l.takeWhile (· ≠ z))
  | [] => ⟨not_mem_nil, rest, rfl⟩
  | c :: l => by
    refine ⟨fun h => by simpa using mem_takeWhile_imp h, ?_⟩
    by_cases hc : c = z
    · exact ⟨l ++ z :: rest, by simp [hc]⟩
    · obtain ⟨-, rest', hrest⟩ := spells_takeWhile rest l
      refine ⟨rest', ?_⟩
      rw [takeWhile_cons_of_pos (by simpa using hc), cons_append, cons_append, hrest]

theorem strcpy_zero {t : List α} (ht : z ∉ t) (hlen : t.length < a.length) :
    ∃ b, strcpy z a 0 t = some b ∧ Spells z b t ∧ b.length = a.length := by
  obtain ⟨m, x, w, hm, rfl⟩ := exists_split (u := []) rfl hlen
  refine ⟨t ++ z :: w, ?_, ⟨ht, w, rfl⟩, by simp [hm]⟩
  simpa using strcpy_split z hm.symm [] w x

theorem spells_of_strcpy {b t : List α} (ht : z ∉ t) (h : strcpy z a 0 t = some b) :
    Spells z b t := by
  unfold strcpy blit at h
  split_ifs at h
  exact ⟨ht, a.drop (0 + (t ++ [z]).length), by simpa using (some.inj h).symm⟩

theorem spells_of_blit {b c e t : List α} (he : z ∉ e) (ht : z ∉ t)
    (h : blit a 0 e = some b) (h' : blit b e.length (t ++ [z]) = some c) : Spells z c (e ++ t) := by
  unfold blit at h h'
  split_ifs at h h'
  have hb : b = e ++ a.drop e.length := by simpa using (some.inj h).symm
  refine ⟨by simp [he, ht], b.drop (e.length + (t ++ [z]).length), ?_⟩
  rw [← some.inj h', hb, take_left]
  simp

theorem blit_terminate {t : List α} (ht : z ∉ t) (hlen : t.length < a.length) :
    ∃ b c, blit a 0 t = some b ∧ store b t.length z = some c ∧ Spells z c t ∧
      c.length = a.length := by
  obtain ⟨m, x, w, hm, rfl⟩ := exists_split (u := []) rfl hlen
  exact ⟨t ++ x :: w, t ++ z :: w, blit_split hm.symm [] _, store_split t w x z, ⟨ht, w, rfl⟩,
    by simp [hm]⟩

theorem blit_front {e t : List α} (h : e.length + t.length ≤ a.length) :
    ∃ w, (blit a 0 e).bind (blit · e.length t) = some (e ++ (t ++ w)) ∧
      (blit a e.length t).bind (blit · 0 e) = some (e ++ (t ++ w)) ∧
      (e ++ (t ++ w)).length = a.length := by
  obtain ⟨b, c, d, hb, hc, rfl⟩ :
      ∃ b c d, b.length = e.length ∧ c.length = t.length ∧ a = b ++ (c ++ d) :=
    ⟨a.take e.length, (a.drop e.length).take t.length, (a.drop e.length).drop t.length,
      by rw [length_take]; omega, by rw [length_take, length_drop]; omega,
      by rw [take_append_drop, take_append_drop]⟩
  refine ⟨d, ?_, ?_, by simp [hb, hc]⟩
  · rw [show blit (b ++ (c ++ d)) 0 e = some (e ++ (c ++ d)) from blit_split hb.symm [] _]
    exact blit_split hc.symm e d
  · rw [← hb, blit_split hc.symm b d]
    exact blit_split hb.symm [] (t ++ d)

theorem Spells.strcat_outside [DecidableEq α] {t : List α} (h : Spells z a s)
    (hlen : a.length ≤ s.length + t.length) : strcat z a t = none := by
  unfold strcat strcpy blit
  simp only [h.str_zero, some_bind, length_append, length_singleton]
  rw [if_neg (by omega)]

theorem Spells.strcat_push [DecidableEq α] {t : List α} (h : Spells z a s) (ht : z ∉ t)
    (hlen : s.length + t.length < a.length) :
    ∃ b, strcat z a t = some b ∧ Spells z b (s ++ t) ∧ b.length = a.length := by
  unfold strcat
  rw [h.str_zero]
  obtain ⟨m, x, w, hm, rfl⟩ := h.exists_room hlen
  refine ⟨s ++ (t ++ z :: w), strcpy_split z hm.symm s w x, ?_, by simp [hm]⟩
  exact ⟨by simp [h.1, ht], w, by simp⟩

end Darling.CArray
