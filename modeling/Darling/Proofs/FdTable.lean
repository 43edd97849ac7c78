import Darling.FdTable

/-!
# What the calls on a descriptor table keep

Two relations, each with one lemma for every call: a file that a single close-on-exec descriptor
refers to (`Sole`), and a table that differs from another by one descriptor more (`With`).  A call
keeps them as long as its arguments do not name that descriptor.
-/

namespace Darling.Table

open Option

variable {φ : Type} {t : Table φ}

@[simp] theorem get_set (n : ℕ) (d : Desc φ) (fd : ℤ) :
    (t.set n d).get fd = if fd = n then some d else t.get fd := rfl

@[simp] theorem get_erase (fd i : ℤ) : (t.erase fd).get i = if i = fd then none else t.get i := rfl

variable {d : Desc φ}

theorem nonneg_of_get {fd : ℤ} (h : t.get fd = some d) : 0 ≤ fd := by
  by_contra hneg
  rw [t.get_neg fd (by omega)] at h
  cases h

variable {n : ℕ}

/-- The lowest free descriptor is free. -/
theorem lowest_free (h : t.lowest = some n) : t.get n = none ∧ n < t.limit := by
  have hfree := List.find?_some h
  have hmem := List.mem_of_find?_eq_some h
  exact ⟨isNone_iff_eq_none.1 hfree, List.mem_range.1 hmem⟩

/-- A pipe takes two free descriptors, both close-on-exec. -/
theorem pipe2_spec {rd wr : φ} {r p : ℕ} {t' : Table φ} (h : t.pipe2 rd wr = some (r, p, t')) :
    t.get r = none ∧ t.get p = none ∧ p ≠ r ∧ t' = (t.set r ⟨rd, true⟩).set p ⟨wr, true⟩ := by
  obtain ⟨r', hr, h⟩ := bind_eq_some_iff.1 h
  obtain ⟨p', hp, h⟩ := bind_eq_some_iff.1 h
  cases h
  have hfree := (lowest_free hp).1
  rw [get_set] at hfree
  split_ifs at hfree with hne
  exact ⟨(lowest_free hr).1, hfree, fun heq => hne (congrArg _ heq), rfl⟩

/-- A descriptor that survives `execve` has such a file. -/
theorem inheritsAny_iff {p : φ → Bool} :
    t.inheritsAny p = true ↔ ∃ fd f, t.inherited fd = some f ∧ p f = true := by
  simp only [inheritsAny, List.any_eq_true, List.mem_range, any_eq_true]
  constructor
  · rintro ⟨n, -, f, hf, hp⟩
    exact ⟨n, f, hf, hp⟩
  · rintro ⟨fd, f, hf, hp⟩
    obtain ⟨d, hd, -⟩ := bind_eq_some_iff.1 hf
    obtain ⟨n, rfl⟩ := Int.eq_ofNat_of_zero_le (nonneg_of_get hd)
    refine ⟨n, ?_, f, hf, hp⟩
    by_contra hle
    rw [t.get_size n (by omega)] at hd
    cases hd

/-- Every open file has the property. -/
def AllFiles (P : φ → Prop) (t : Table φ) : Prop := ∀ i d, t.get i = some d → P d.file

variable {arg : BitVec 32} {fdTo : ℤ} {f : φ}

namespace AllFiles

variable {P : φ → Prop} {fd : ℤ}

section

variable (h : AllFiles P t)

include h

theorem set {c : Bool} (hf : P f) : AllFiles P (t.set n ⟨f, c⟩) := by
  intro i d hd
  rw [get_set] at hd
  split_ifs at hd
  · cases hd
    exact hf
  · exact h i d hd

theorem close : AllFiles P (t.close fd).2 := by
  unfold Table.close
  split_ifs
  · intro i d hd
    rw [get_erase] at hd
    split_ifs at hd
    exact h i d hd
  · exact h

theorem dup2 : AllFiles P (t.dup2 fd fdTo).2 := by
  unfold Table.dup2
  split
  · exact h
  · rename_i d hd
    split_ifs
    · exact h
    · exact h.set (h fd d hd)
    · exact h

theorem setfd : AllFiles P (t.setfd fd arg).2 := by
  unfold Table.setfd
  split
  · exact h
  · rename_i d hd
    exact h.set (h fd d hd)

end

end AllFiles

/-- One descriptor, which is close-on-exec, refers to a file with the property, and no other does.
-/
structure Sole (w : φ → Bool) (t : Table φ) (p : ℤ) : Prop where
  held : ∃ f, t.get p = some ⟨f, true⟩ ∧ w f = true
  only : ∀ i d, t.get i = some d → w d.file = true → i = p

namespace Sole

variable {w : φ → Bool} {p fd : ℤ}

/-- The end of a new pipe that is written to. -/
theorem of_pipe2 {rd wr : φ} {r n : ℕ} {t' : Table φ} (h : t.pipe2 rd wr = some (r, n, t'))
    (ht : t.AllFiles fun f => w f = false) (hrd : w rd = false) (hwr : w wr = true) :
    Sole w t' n := by
  obtain ⟨-, -, -, rfl⟩ := pipe2_spec h
  refine ⟨⟨wr, by simp, hwr⟩, fun i d hd hw => ?_⟩
  rw [get_set, get_set] at hd
  split_ifs at hd with hi hi'
  · exact hi
  · cases hd
    rw [hrd] at hw
    cases hw
  · rw [ht i d hd] at hw
    cases hw

variable (h : Sole w t p)

include h

theorem set {c : Bool} (hn : (n : ℤ) ≠ p) (hd : w f = false) :
    Sole w (t.set n ⟨f, c⟩) p := by
  obtain ⟨f, hf, hw⟩ := h.held
  refine ⟨⟨f, by rw [get_set, if_neg hn.symm, hf], hw⟩, fun i e hi he => ?_⟩
  rw [get_set] at hi
  split_ifs at hi
  · cases hi
    rw [hd] at he
    cases he
  · exact h.only i e hi he

theorem erase (hfd : fd ≠ p) : Sole w (t.erase fd) p := by
  obtain ⟨f, hf, hw⟩ := h.held
  refine ⟨⟨f, by rw [get_erase, if_neg hfd.symm, hf], hw⟩, fun i e hi he => ?_⟩
  rw [get_erase] at hi
  split_ifs at hi
  exact h.only i e hi he

theorem file_eq_false (hfd : fd ≠ p) (hd : t.get fd = some d) :
    w d.file = false := Bool.eq_false_iff.2 fun hw => hfd (h.only fd d hd hw)

theorem close (hfd : fd ≠ p) : Sole w (t.close fd).2 p := by
  unfold Table.close
  split_ifs
  · exact h.erase hfd
  · exact h

theorem lowest_ne (hn : t.lowest = some n) : (n : ℤ) ≠ p := by
  rintro rfl
  obtain ⟨f, hf, -⟩ := h.held
  rw [(lowest_free hn).1] at hf
  cases hf

theorem nonneg : 0 ≤ p := by
  obtain ⟨f, hf, -⟩ := h.held
  exact nonneg_of_get hf

theorem alloc (hd : w d.file = false) :
    (t.alloc d).1 ≠ p ∧ Sole w (t.alloc d).2 p := by
  unfold Table.alloc
  split
  · have := h.nonneg
    exact ⟨by simp only [emfile]; omega, h⟩
  · rename_i n hn
    exact ⟨h.lowest_ne hn, h.set (h.lowest_ne hn) hd⟩

theorem dup2 (hfd : fd ≠ p) (hto : fdTo ≠ p) : Sole w (t.dup2 fd fdTo).2 p := by
  unfold Table.dup2
  split
  · exact h
  · rename_i d hd
    split_ifs with heq hrange
    · exact h
    · exact h.set (by omega) (h.file_eq_false hfd hd)
    · exact h

theorem setfd (harg : fd = p → arg.getLsbD 0 = true) :
    Sole w (t.setfd fd arg).2 p := by
  unfold Table.setfd
  split
  · exact h
  · rename_i d hd
    have hnat : ((fd.toNat : ℕ) : ℤ) = fd := Int.toNat_of_nonneg (nonneg_of_get hd)
    by_cases hfd : fd = p
    · subst hfd
      obtain ⟨f, hf, hw⟩ := h.held
      rw [hd] at hf
      obtain rfl := some.inj hf
      refine ⟨⟨f, by rw [get_set, hnat, if_pos rfl, harg rfl], hw⟩, fun i e hi he => ?_⟩
      rw [get_set, hnat] at hi
      split_ifs at hi with hifd
      · exact hifd
      · exact h.only i e hi he
    · exact h.set (by rwa [hnat]) (h.file_eq_false hfd hd)

/-- No such file survives `execve`. -/
theorem inheritsAny : t.inheritsAny w = false := by
  rw [Bool.eq_false_iff]
  intro hany
  obtain ⟨fd, f, hf, hw⟩ := inheritsAny_iff.1 hany
  obtain ⟨d, hd, hvis⟩ := bind_eq_some_iff.1 hf
  split_ifs at hvis with hc
  obtain rfl := some.inj hvis
  obtain rfl := h.only fd d hd hw
  obtain ⟨f, hheld, -⟩ := h.held
  rw [hd] at hheld
  obtain rfl := some.inj hheld
  exact hc rfl

end Sole

/-- A descriptor of such a file that survives is in the way. -/
theorem not_sole_set {w : φ → Bool} (hf : w f = true) (q : ℤ) :
    ¬ Sole w (t.set n ⟨f, false⟩) q := by
  intro h
  have hn : (t.set n ⟨f, false⟩).get n = some ⟨f, false⟩ := by simp
  obtain rfl := h.only n _ hn hf
  obtain ⟨g, hg, -⟩ := h.held
  rw [hn] at hg
  cases hg

/-- The second table is the first with one descriptor more. -/
structure With (t : Table φ) (p : ℤ) (d : Desc φ) (t' : Table φ) : Prop where
  limit : t'.limit = t.limit
  free : t.get p = none
  get : ∀ i, t'.get i = if i = p then some d else t.get i

namespace With

variable {p fd : ℤ} {d : Desc φ} {t' : Table φ}

theorem of_pipe2 {rd wr : φ} {r n : ℕ} (h : t.pipe2 rd wr = some (r, n, t')) :
    With t n ⟨wr, true⟩ (t'.close r).2 := by
  obtain ⟨hr, hn, hne, rfl⟩ := pipe2_spec h
  have hopen : ((t.set r ⟨rd, true⟩).set n ⟨wr, true⟩).get r = some ⟨rd, true⟩ := by
    rw [get_set, if_neg (by omega), get_set, if_pos rfl]
  rw [Table.close, hopen, isSome_some, if_pos rfl]
  refine ⟨rfl, hn, fun i => ?_⟩
  rw [get_erase, get_set, get_set]
  by_cases hi : i = r
  · rw [if_pos hi, if_neg (by omega), hi, hr]
  · rw [if_neg hi, if_neg hi]

variable (h : With t p d t')

include h

theorem set (e : Desc φ) (hn : (n : ℤ) ≠ p) : With (t.set n e) p d (t'.set n e) := by
  refine ⟨h.limit, by rw [get_set, if_neg hn.symm, h.free], fun i => ?_⟩
  rw [get_set, get_set, h.get]
  split_ifs <;> first | rfl | omega

/-- One close-on-exec descriptor more does not show behind `execve`. -/
theorem inherited (hd : d.cloexec = true) : t'.inherited = t.inherited := by
  funext i
  rw [Table.inherited, Table.inherited, h.get]
  split_ifs with hi
  · simp [hi, h.free, hd]
  · rfl

variable (hfd : fd ≠ p)

include hfd

theorem get_of_ne : t'.get fd = t.get fd := by
  rw [h.get, if_neg hfd]

theorem erase : With (t.erase fd) p d (t'.erase fd) := by
  refine ⟨h.limit, by rw [get_erase, if_neg hfd.symm, h.free], fun i => ?_⟩
  rw [get_erase, get_erase, h.get]
  split_ifs <;> first | rfl | omega

theorem close : (t'.close fd).1 = (t.close fd).1 ∧ With (t.close fd).2 p d (t'.close fd).2 := by
  unfold Table.close
  rw [h.get_of_ne hfd]
  split_ifs
  · exact ⟨rfl, h.erase hfd⟩
  · exact ⟨rfl, h⟩

theorem dup2 (hto : fdTo ≠ p) :
    (t'.dup2 fd fdTo).1 = (t.dup2 fd fdTo).1 ∧ With (t.dup2 fd fdTo).2 p d (t'.dup2 fd fdTo).2 := by
  unfold Table.dup2
  rw [h.get_of_ne hfd, h.limit]
  split
  · exact ⟨rfl, h⟩
  · split_ifs
    · exact ⟨rfl, h⟩
    · exact ⟨rfl, h.set _ (by omega)⟩
    · exact ⟨rfl, h⟩

theorem setfd :
    (t'.setfd fd arg).1 = (t.setfd fd arg).1 ∧ With (t.setfd fd arg).2 p d (t'.setfd fd arg).2 := by
  unfold Table.setfd
  rw [h.get_of_ne hfd]
  split
  · exact ⟨rfl, h⟩
  · rename_i e he
    have hnat : ((fd.toNat : ℕ) : ℤ) = fd := Int.toNat_of_nonneg (nonneg_of_get he)
    exact ⟨rfl, h.set _ (by rwa [hnat])⟩

end With

end Darling.Table
