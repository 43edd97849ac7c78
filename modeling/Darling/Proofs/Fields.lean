import Darling.Proofs.CArray
import Darling.Proofs.Endian
import Darling.Fields

/-!
# Stores into a record and what is read back

A store keeps every cell it misses.  Stores that are apart from each other can all be read back.
-/

namespace Darling.Fields

open CArray List
open Option (some.inj bind_eq_some_iff)

variable {α : Type*} {a b : List α} {ptr : Option ℕ} {s : List α} {ws : List (Option ℕ × List α)}
  {i j : ℕ} {z : α}

section

variable (h : blit a i s = some b)

include h

theorem length_of_blit : b.length = a.length := by
  unfold blit at h
  split_ifs at h with hfit
  rw [← some.inj h, length_append, length_append, length_take, length_drop]
  omega

theorem getElem_of_blit (hj : j < i ∨ i + s.length ≤ j) : b[j]? = a[j]? := by
  unfold blit at h
  split_ifs at h with hfit
  have hi : (a.take i).length = i := by rw [length_take]; omega
  rw [← some.inj h]
  rcases hj with hj | hj
  · rw [getElem?_append_left (by omega), getElem?_take_of_lt hj]
  · rw [getElem?_append_right (by omega), hi, getElem?_append_right (by omega), getElem?_drop]
    congr 1
    omega

theorem slice_of_blit : slice b i s.length = some s := by
  unfold blit at h
  split_ifs at h with hfit
  have hi : (a.take i).length = i := by rw [length_take]; omega
  have := slice_split (a.take i) s (a.drop (i + s.length))
  rwa [hi, some.inj h] at this

end

theorem length_of_put (h : put a ptr s = some b) : b.length = a.length := by
  cases ptr with
  | none => rw [← some.inj h]
  | some i => exact length_of_blit h

theorem getElem_of_put (h : put a ptr s = some b) (hj : Misses j ptr s.length) : b[j]? = a[j]? := by
  cases ptr with
  | none => rw [← some.inj h]
  | some i => exact getElem_of_blit h (hj i rfl)

theorem exists_put (h : Fits a.length ptr s.length) : ∃ b, put a ptr s = some b := by
  cases ptr with
  | none => exact ⟨a, rfl⟩
  | some i => exact ⟨_, if_pos (h i rfl)⟩

theorem puts_nil : puts a [] = some a := rfl

theorem puts_cons (w : Option ℕ × List α) : puts a (w :: ws) = (put a w.1 w.2).bind (puts · ws) :=
  rfl

theorem puts_append (vs : List (Option ℕ × List α)) :
    puts a (vs ++ ws) = (puts a vs).bind (puts · ws) := by
  rw [puts, foldlM_append]
  rfl

theorem length_of_puts : ∀ {ws : List (Option ℕ × List α)} {a : List α}, puts a ws = some b →
    b.length = a.length
  | [], a, h => by rw [← some.inj h]
  | w :: ws, a, h => by
    rw [puts_cons, bind_eq_some_iff] at h
    obtain ⟨c, hc, h⟩ := h
    rw [length_of_puts h, length_of_put hc]

theorem getElem_of_puts : ∀ {ws : List (Option ℕ × List α)} {a : List α},
    puts a ws = some b → (∀ w ∈ ws, Misses j w.1 w.2.length) → b[j]? = a[j]?
  | [], a, h, _ => by rw [← some.inj h]
  | w :: ws, a, h, hj => by
    rw [puts_cons, bind_eq_some_iff] at h
    obtain ⟨c, hc, h⟩ := h
    rw [forall_mem_cons] at hj
    rw [getElem_of_puts h hj.2, getElem_of_put hc hj.1]

theorem exists_puts : ∀ {ws : List (Option ℕ × List α)} {a : List α},
    (∀ w ∈ ws, Fits a.length w.1 w.2.length) → ∃ b, puts a ws = some b
  | [], a, _ => ⟨a, rfl⟩
  | w :: ws, a, hfit => by
    rw [forall_mem_cons] at hfit
    obtain ⟨c, hc⟩ := exists_put hfit.1
    rw [puts_cons, hc]
    exact exists_puts (by rw [length_of_put hc]; exact hfit.2)

theorem slice_of_puts_apart {n : ℕ} (h : puts a ws = some b)
    (hw : ∀ w ∈ ws, ∀ k ∈ w.1, i + n ≤ k ∨ k + w.2.length ≤ i) : slice b i n = slice a i n := by
  have hlen := length_of_puts h
  unfold slice
  rw [hlen]
  split_ifs with hfit
  · congr 1
    apply ext_getElem?
    intro j
    rw [getElem?_take, getElem?_take, getElem?_drop, getElem?_drop]
    split_ifs with hj
    · refine getElem_of_puts h fun w hmem k hk => ?_
      have := hw w hmem k hk
      omega
    · rfl
  · rfl

theorem slice_of_puts : ∀ {ws : List (Option ℕ × List α)} {a : List α},
    puts a ws = some b → ws.Pairwise Apart → (some i, s) ∈ ws → slice b i s.length = some s
  | w :: ws, a, h, hapart, hmem => by
    rw [puts_cons, bind_eq_some_iff] at h
    obtain ⟨c, hc, h⟩ := h
    rw [pairwise_cons] at hapart
    rcases mem_cons.1 hmem with rfl | hmem
    · rw [slice_of_puts_apart h fun w' hw' k hk => hapart.1 w' hw' i rfl k hk]
      exact slice_of_blit hc
    · exact slice_of_puts h hapart.2 hmem

theorem drop_of_puts {k : ℕ} (h : puts a ws = some b)
    (hw : ∀ w ∈ ws, ∀ i ∈ w.1, i + w.2.length ≤ k) : b.drop k = a.drop k := by
  apply ext_getElem?
  intro j
  rw [getElem?_drop, getElem?_drop]
  refine getElem_of_puts h fun w hmem i hi => .inr ?_
  have := hw w hmem i hi
  omega

theorem str_of_slice [DecidableEq α] (hz : z ∉ s)
    (h : slice a i (s ++ [z]).length = some (s ++ [z])) : str z a i = some s := by
  unfold slice at h
  split_ifs at h
  have hsplit : a.drop i = s ++ z :: (a.drop i).drop (s ++ [z]).length := by
    conv_lhs => rw [← take_append_drop (s ++ [z]).length (a.drop i), some.inj h]
    simp
  rw [str, hsplit]
  exact readTo_append hz _

theorem length_of_readTo [DecidableEq α] : ∀ {a s : List α}, readTo z a = some s →
    s.length < a.length
  | x :: a, s, h => by
    rw [readTo] at h
    split_ifs at h
    · rw [← some.inj h]
      exact Nat.succ_pos _
    · obtain ⟨t, ht, rfl⟩ := Option.map_eq_some_iff.1 h
      exact Nat.succ_lt_succ (length_of_readTo ht)

theorem length_of_str [DecidableEq α] (h : str z a i = some s) : i + s.length < a.length := by
  have := length_of_readTo h
  rw [length_drop] at this
  omega

theorem readTo_append_left [DecidableEq α] (c : List α) : ∀ {a s : List α},
    readTo z a = some s → readTo z (a ++ c) = some s
  | x :: a, s, h => by
    rw [readTo] at h
    rw [cons_append, readTo]
    split_ifs at h ⊢
    · exact h
    · obtain ⟨t, ht, rfl⟩ := Option.map_eq_some_iff.1 h
      rw [readTo_append_left c ht]
      rfl

theorem str_append_left [DecidableEq α] (h : str z a i = some s) (c : List α) :
    str z (a ++ c) i = some s := by
  rw [str, drop_append]
  exact readTo_append_left _ h

theorem load_of_slice {n : ℕ} {a v : Bytes} (h : slice a i n = some v) :
    load n a i = some (unle v) := by
  unfold slice at h
  unfold load
  split_ifs at h ⊢
  rw [some.inj h]

end Darling.Fields
