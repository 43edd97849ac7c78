import Darling.MacMemory
import Darling.Runs

/-!
# The size of a handle

A call gives a handle the bytes it should have exactly if the allocator does not round up.
-/

namespace Darling.MacMemory

open List

theorem le_length_realloc (old : Bytes) (n : ℕ) (junk : Bytes) :
    n ≤ (realloc old n junk).length := by
  simp only [realloc, length_append, length_replicate]
  omega

theorem take_realloc {old : Bytes} {n : ℕ} (h : old.length ≤ n) (junk : Bytes) :
    (realloc old n junk).take old.length = old := by
  simp [realloc, take_of_length_le h]

theorem eq_take_iff {b : Bytes} {n : ℕ} (h : n ≤ b.length) : b = b.take n ↔ b.length = n := by
  refine ⟨fun hb => ?_, fun hb => (take_of_length_le (Nat.le_of_eq hb)).symm⟩
  rw [hb, length_take, Nat.min_eq_left h]

theorem setHandleSize_iff (h : Option Bytes) (n : ℕ) (junk : Bytes) :
    (setHandleSize h n junk).getD [] = (realloc (h.getD []) n junk).take n ↔
      getHandleSize (setHandleSize h n junk) = n := by
  rcases h with _ | old
  · exact eq_take_iff (le_length_realloc [] n junk)
  · by_cases hn : n = 0
    · simp [setHandleSize, hn, getHandleSize]
    · simpa [setHandleSize, hn, getHandleSize] using eq_take_iff (le_length_realloc old n junk)

theorem memcpy_realloc_iff (old src junk : Bytes) :
    memcpy (realloc old (old.length + src.length) junk) old.length src = old ++ src ↔
      (realloc old (old.length + src.length) junk).length = old.length + src.length := by
  have hle := le_length_realloc old (old.length + src.length) junk
  simp only [memcpy, take_realloc (Nat.le_add_right _ _), append_cancel_left_eq,
    append_right_eq_self, drop_eq_nil_iff]
  omega

theorem append_iff (h : Option Bytes) (src junk : Bytes) :
    ((setHandleSize h (getHandleSize h + src.length) junk).map
      (memcpy · (getHandleSize h) src)).getD [] = h.getD [] ++ src ↔
      getHandleSize (setHandleSize h (getHandleSize h + src.length) junk) =
        getHandleSize h + src.length := by
  rcases h with _ | old
  · exact memcpy_realloc_iff [] src junk
  · by_cases hn : old = [] ∧ src = []
    · simp [setHandleSize, getHandleSize, hn]
    · simpa [setHandleSize, getHandleSize, hn] using memcpy_realloc_iff old src junk

theorem handAndHand_iff (s : ℕ → Option Bytes) (a b : ℕ) (junk : Bytes) (ha : s a ≠ none) :
    (handAndHand s a b junk).getD [] = (s b).getD [] ++ (s a).getD [] ↔
      getHandleSize (setHandleSize (s b) (getHandleSize (s b) + getHandleSize (s a)) junk) =
        getHandleSize (s b) + getHandleSize (s a) := by
  have hsrc : ((Function.update s b (setHandleSize (s b) (getHandleSize (s b) +
      getHandleSize (s a)) junk) a).getD []).take (getHandleSize (s a)) = (s a).getD [] := by
    by_cases hab : a = b
    · obtain ⟨old, hold⟩ := Option.ne_none_iff_exists'.1 ha
      subst hab
      by_cases hn : old = []
      · simp [hold, getHandleSize, hn]
      · simpa [hold, getHandleSize, setHandleSize, hn] using
          take_realloc (Nat.le_add_right old.length old.length) junk
    · simp [hab, getHandleSize]
  simp only [handAndHand, if_neg ha, hsrc, Function.update_self]
  exact append_iff (s b) ((s a).getD []) junk

/-- Every handle has the bytes it should have. -/
def Right (s : (ℕ → Option Bytes) × (ℕ → Bytes)) : Prop := ∀ h, (s.1 h).getD [] = s.2 h

theorem right_update {s : ℕ → Option Bytes} {v : ℕ → Bytes} (hs : Right (s, v)) (h : ℕ)
    (b : Option Bytes) (w : Bytes) :
    Right (Function.update s h b, Function.update v h w) ↔ b.getD [] = w := by
  refine ⟨fun hr => by simpa using hr h, fun hb h' => ?_⟩
  by_cases hh : h' = h
  · subst hh
    simpa using hb
  · simpa [hh] using hs h'

theorem right_step {s : ℕ → Option Bytes} {v : ℕ → Bytes} (hs : Right (s, v)) (x : Call × Bytes) :
    Right (step s x, ideal v x) ↔ Exact s x := by
  obtain ⟨call, junk⟩ := x
  have hv : v = fun h => (s h).getD [] := funext fun h => (hs h).symm
  subst hv
  cases call with
  | newHandle h n => exact (right_update hs ..).trans (eq_take_iff (le_length_realloc [] n junk))
  | setHandleSize h n => exact (right_update hs ..).trans (setHandleSize_iff (s h) n junk)
  | ptrToHand src h =>
    refine (right_update hs ..).trans ?_
    simpa [newPtr, ptrToHand, Exact] using memcpy_realloc_iff [] src junk
  | handToHand h h' =>
    refine (right_update hs ..).trans ?_
    simpa [newPtr, handToHand, Exact, getHandleSize] using
      memcpy_realloc_iff [] ((s h).getD []) junk
  | ptrAndHand src h =>
    refine (right_update hs ..).trans ?_
    by_cases hsrc : src = []
    · simp [ptrAndHand, Exact, hsrc]
    · simpa [ptrAndHand, Exact, hsrc] using append_iff (s h) src junk
  | handAndHand h h' =>
    refine (right_update hs ..).trans ?_
    by_cases hnull : s h = none
    · simp [handAndHand, Exact, hnull]
    · simpa [Exact, hnull] using handAndHand_iff s h h' junk hnull

/-- Handles have the sizes and bytes that they should have exactly if no block is larger than what
was asked for. -/
theorem run_right_iff (xs : List (Call × Bytes)) :
    EachState (fun s x => (step s.1 x, ideal s.2 x)) Right (fun _ => none, fun _ => []) xs ↔
      EachStep (fun s x => (step s.1 x, ideal s.2 x)) (fun s x => Exact s.1 x)
        (fun _ => none, fun _ => []) xs :=
  eachState_iff (fun _ hs => hs) (fun _ x hs _ hx => (right_step hs x).2 hx)
    (fun _ x hs _ hx hr => hx ((right_step hs x).1 hr)) (fun _ => rfl) (eachStep_true _ xs)

/-- A handle of one byte, for which `malloc_size` is 16, and one more byte. -/
theorem append_misplaced : step (step (fun _ => none) (.newHandle 0 1, List.replicate 16 7))
      (.ptrAndHand [1] 0, []) 0 = some (List.replicate 16 7 ++ [1]) := by
  decide

end Darling.MacMemory
