import Darling.Memory

/-!
# `LIST` of `sys/queue.h`

A list that is linked through its elements.  The link of an element is at `off` in it: `le_next`
points to the next element, and `le_prev` to the pointer that points to this one, which is the
head's or the `le_next` of the element in front.  So the operations work on the *cell* that points
to an element.
-/

namespace Darling.Queue

open List

variable (off : ℕ)

section Operations

variable (m : Memory)

def next (elm : ℕ) : Option ℕ := m.load (elm + off)

/-- The element whose `le_next` the `le_prev` of this one points to. -/
def prev (elm : ℕ) : Option ℕ := (m.load (elm + off + 8)).map (· - off)

def setBack (elm cell : ℕ) : Option Memory :=
  if elm ≠ 0 then m.store (elm + off + 8) cell else some m

def insertAt (cell elm : ℕ) : Option Memory := do
  let first ← m.load cell
  let m ← m.store (elm + off) first
  let m ← setBack off m first (elm + off)
  let m ← m.store cell elm
  m.store (elm + off + 8) cell

def insertHead (head elm : ℕ) : Option Memory := insertAt off m head elm

def insertAfter (listelm elm : ℕ) : Option Memory := insertAt off m (listelm + off) elm

def remove (elm : ℕ) : Option Memory := do
  let next ← m.load (elm + off)
  let prev ← m.load (elm + off + 8)
  let m ← setBack off m next prev
  m.store prev next

end Operations

def endCell : ℕ → List ℕ → ℕ
  | cell, [] => cell
  | _, x :: xs => endCell (x + off) xs

/-- The links of the elements: the pointer back, and the cell for the next one. -/
def links (xs : List ℕ) : List ℕ := xs.flatMap fun x => [x + off + 8, x + off]

def cells (cell : ℕ) (xs : List ℕ) : List ℕ := cell :: links off xs

def Linked (m : Memory) : ℕ → List ℕ → Prop
  | _, [] => True
  | cell, x :: xs =>
    x ≠ 0 ∧ m.load cell = some x ∧ m.load (x + off + 8) = some cell ∧ Linked m (x + off) xs

def IsList (m : Memory) (cell : ℕ) (xs : List ℕ) : Prop :=
  Linked off m cell xs ∧ m.load (endCell off cell xs) = some 0

def Apart (c d : ℕ) : Prop := c + 8 ≤ d ∨ d + 8 ≤ c

def span (cs : List ℕ) : Set ℕ := { a | ∃ c ∈ cs, c ≤ a ∧ a < c + 8 }

variable {off}

section Cells

variable {m m' : Memory} {cs : List ℕ} {a c : ℕ}

theorem span_mono {ds : List ℕ} (h : cs ⊆ ds) : span cs ⊆ span ds :=
  fun _ ⟨c, hc, ha⟩ => ⟨c, h hc, ha⟩

theorem load_of_changes (h : m.Changes (span cs) m') (hd : ∀ c ∈ cs, Apart c a) :
    m'.load a = m.load a := by
  refine h.load fun b hb hb' ⟨c, hc, hcb⟩ => ?_
  have := hd c hc
  unfold Apart at this
  omega

variable {x cell : ℕ} {xs : List ℕ}

theorem store_cell (cs : List ℕ) (h : m.Mapped c 8) (hx : x < 2 ^ 64) (hc : c ∈ cs) : ∃ m',
    m.store c x = some m' ∧ m'.load c = some x ∧ (∀ a, Apart c a → m'.load a = m.load a) ∧
      m.Changes (span cs) m' := by
  obtain ⟨m', hstore, hload, hch⟩ := Memory.store_spec h hx
  refine ⟨m', hstore, hload, fun a ha => hch.load fun b hb hb' hmem => ?_,
    hch.mono fun b hb => ⟨c, hc, hb⟩⟩
  obtain ⟨h1, h2⟩ := hmem
  unfold Apart at ha
  omega

theorem endCell_append : ∀ {cell : ℕ} {xs ys : List ℕ},
    endCell off cell (xs ++ ys) = endCell off (endCell off cell xs) ys
  | _, [], _ => rfl
  | _, x :: xs, ys => @endCell_append (x + off) xs ys

theorem links_cons : links off (x :: xs) = (x + off + 8) :: (x + off) :: links off xs := rfl

theorem links_append {ys : List ℕ} : links off (xs ++ ys) = links off xs ++ links off ys := by
  simp [links]

theorem mem_links : c ∈ links off xs ↔ ∃ x ∈ xs, c = x + off + 8 ∨ c = x + off := by
  simp [links]

theorem cells_eq_concat : ∀ (cell : ℕ) (xs : List ℕ),
    cells off cell xs = (cells off cell xs).dropLast ++ [endCell off cell xs]
  | _, [] => rfl
  | cell, x :: xs => by
    have ih := cells_eq_concat (x + off) xs
    rw [cells] at ih
    rw [cells, links_cons, dropLast_cons_cons, dropLast_cons_cons, cons_append,
      cons_append, endCell, ← ih]

theorem endCell_mem (cell : ℕ) (xs : List ℕ) : endCell off cell xs ∈ cells off cell xs := by
  rw [cells_eq_concat]
  exact mem_append_right _ (mem_singleton_self _)

theorem linked_append : ∀ {cell : ℕ} {xs ys : List ℕ}, Linked off m cell (xs ++ ys) ↔
    Linked off m cell xs ∧ Linked off m (endCell off cell xs) ys
  | _, [], _ => by simp [Linked, endCell]
  | _, _ :: _, _ => by simp [Linked, linked_append, endCell, and_assoc]

theorem isList_append {ys : List ℕ} : IsList off m cell (xs ++ ys) ↔
    Linked off m cell xs ∧ IsList off m (endCell off cell xs) ys := by
  simp [IsList, linked_append, endCell_append, and_assoc]

theorem isList_cons : IsList off m cell (x :: xs) ↔
    x ≠ 0 ∧ m.load cell = some x ∧ m.load (x + off + 8) = some cell ∧
      IsList off m (x + off) xs := by
  simp [IsList, Linked, endCell, and_assoc]

theorem Linked.transport : ∀ {cell : ℕ} {xs : List ℕ}, Linked off m cell xs →
    (∀ c ∈ (cells off cell xs).dropLast, m'.load c = m.load c) → Linked off m' cell xs
  | _, [], _, _ => trivial
  | cell, x :: xs, ⟨hx, hcell, hback, h⟩, hag => by
    rw [cells, links_cons, dropLast_cons_cons, dropLast_cons_cons] at hag
    refine ⟨hx, ?_, ?_, h.transport fun c hc => hag c ?_⟩
    · rw [hag cell mem_cons_self, hcell]
    · rw [hag (x + off + 8) (mem_cons_of_mem _ mem_cons_self), hback]
    · exact mem_cons_of_mem _ (mem_cons_of_mem _ hc)

theorem IsList.transport (h : IsList off m cell xs)
    (hag : ∀ c ∈ cells off cell xs, m'.load c = m.load c) : IsList off m' cell xs := by
  refine ⟨h.1.transport fun c hc => hag c (dropLast_subset _ hc), ?_⟩
  rw [hag _ (endCell_mem cell xs), h.2]

theorem IsList.of_changes (h : IsList off m cell xs) (hch : m.Changes (span cs) m')
    (hd : ∀ c ∈ cs, ∀ d ∈ cells off cell xs, Apart c d) :
    IsList off m' cell xs := h.transport fun d hd' => load_of_changes hch fun c hc => hd c hc d hd'

theorem IsList.load_cell : ∀ {cell : ℕ} {xs : List ℕ}, IsList off m cell xs →
    m.load cell = some (xs.headD 0)
  | _, [], h => h.2
  | _, _ :: _, h => (isList_cons.1 h).2.1

theorem IsList.move {cell' : ℕ} : ∀ {xs : List ℕ}, IsList off m cell xs →
    m'.load cell' = some (xs.headD 0) → (∀ y ∈ xs.head?, m'.load (y + off + 8) = some cell') →
    (∀ c ∈ (links off xs).tail, m'.load c = m.load c) → IsList off m' cell' xs
  | [], _, hcell, _, _ => ⟨trivial, hcell⟩
  | y :: ys, h, hcell, hback, hag => by
    obtain ⟨hy, -, -, h⟩ := isList_cons.1 h
    exact isList_cons.2 ⟨hy, hcell, hback y rfl, h.transport hag⟩

end Cells

section Spec

variable {m : Memory} {cell x : ℕ} {xs ys : List ℕ}

theorem setBack_spec (cs : List ℕ) {cell' : ℕ} (h : IsList off m cell xs) (hcell : cell' < 2 ^ 64)
    (hcs : ∀ y ∈ xs.head?, y + off + 8 ∈ cs) : ∃ m',
    setBack off m (xs.headD 0) cell' = some m' ∧
      (∀ y ∈ xs.head?, m'.load (y + off + 8) = some cell') ∧
      (∀ a, (∀ y ∈ xs.head?, Apart (y + off + 8) a) → m'.load a = m.load a) ∧
      m.Changes (span cs) m' := by
  cases xs with
  | nil => exact ⟨m, if_neg (by simp), by simp, fun _ _ => rfl, .refl _ m⟩
  | cons y ys =>
    obtain ⟨hy, -, hback, -⟩ := isList_cons.1 h
    obtain ⟨m', hstore, hload, hother, hch⟩ :=
      store_cell cs (Memory.mapped_of_load hback) hcell (hcs y rfl)
    refine ⟨m', (if_pos hy).trans hstore, ?_, fun a ha => hother a (ha y rfl), hch⟩
    rintro z ⟨⟩
    exact hload

theorem back_apart (h : (links off xs).Pairwise Apart) :
    ∀ y ∈ xs.head?, ∀ d ∈ (links off xs).tail, Apart (y + off + 8) d := by
  cases xs with
  | nil => nofun
  | cons y ys =>
    rintro z ⟨⟩ d hd
    exact (pairwise_cons.1 h).1 d hd

theorem back_mem : ∀ y ∈ xs.head?, y + off + 8 ∈ links off xs := by
  cases xs with
  | nil => nofun
  | cons y ys =>
    rintro z ⟨⟩
    exact mem_cons_self

theorem insertAt_front (h : IsList off m cell xs) (hx : x ≠ 0) (hlt : x + off < 2 ^ 64)
    (hcell : cell < 2 ^ 64) (hmapped : m.Mapped (x + off) 16)
    (hap : (cells off cell (x :: xs)).Pairwise Apart) : ∃ m', insertAt off m cell x = some m' ∧
      IsList off m' cell (x :: xs) ∧ m.Changes (span (cells off cell (x :: xs))) m' := by
  set cs := cells off cell (x :: xs) with hcs
  rw [cells, links_cons] at hcs
  rw [hcs, pairwise_cons, pairwise_cons, pairwise_cons] at hap
  obtain ⟨hap1, hap2, hap3, hap4⟩ := hap
  have hfirst := h.load_cell
  obtain ⟨m1, hstore1, hload1, hother1, hch1⟩ := store_cell cs
    (fun b hb hb' => hmapped b hb (by omega)) (Memory.load_lt hfirst) (by simp [hcs])
  have hxs1 : IsList off m1 cell xs := h.transport fun c hc => hother1 c <| by
    rcases mem_cons.1 hc with rfl | hc
    · exact (hap1 (x + off) (by simp)).symm
    · exact hap3 c hc
  obtain ⟨m2, hstore2, hload2, hother2, hch2⟩ := setBack_spec cs hxs1 hlt
    fun y hy => by simp [hcs, back_mem y hy]
  have hxs2 : IsList off m2 (x + off) xs := by
    refine hxs1.move ?_ hload2 fun c hc => hother2 c fun y hy => back_apart hap4 y hy c hc
    rw [hother2 _ fun y hy => (hap3 _ (back_mem y hy)).symm, hload1]
  have hcell2 : m2.Mapped cell 8 :=
    (hch1.trans hch2).mapped_iff.2 (Memory.mapped_of_load hfirst)
  obtain ⟨m3, hstore3, hload3, hother3, hch3⟩ := store_cell cs (x := x) hcell2 (by omega)
    (by simp [hcs])
  have hback3 : m3.Mapped (x + off + 8) 8 :=
    ((hch1.trans hch2).trans hch3).mapped_iff.2 fun b hb hb' => hmapped b (by omega) (by omega)
  obtain ⟨m4, hstore4, hload4, hother4, hch4⟩ := store_cell cs hback3 hcell (by simp [hcs])
  refine ⟨m4, ?_, isList_cons.2 ⟨hx, ?_, hload4, hxs2.transport fun c hc => ?_⟩,
    ((hch1.trans hch2).trans hch3).trans hch4⟩
  · simp only [insertAt, hfirst, Option.bind_eq_bind, Option.bind_some, hstore1, hstore2, hstore3,
      hstore4]
  · rw [hother4 cell (hap1 (x + off + 8) (by simp)).symm, hload3]
  · rw [hother4 c (hap2 c hc), hother3 c (hap1 c (mem_cons_of_mem _ hc))]

theorem insertAt_spec (h : IsList off m cell (ys ++ xs)) (hx : x ≠ 0) (hlt : x + off < 2 ^ 64)
    (hcell : endCell off cell ys < 2 ^ 64) (hmapped : m.Mapped (x + off) 16)
    (hap : (cells off cell (ys ++ x :: xs)).Pairwise Apart) : ∃ m',
      insertAt off m (endCell off cell ys) x = some m' ∧ IsList off m' cell (ys ++ x :: xs) ∧
        m.Changes (span (cells off cell (ys ++ x :: xs))) m' := by
  obtain ⟨hys, hxs⟩ := isList_append.1 h
  have hcells : cells off cell (ys ++ x :: xs) =
      (cells off cell ys).dropLast ++ cells off (endCell off cell ys) (x :: xs) := by
    rw [cells, links_append, ← cons_append, ← cells, cells_eq_concat, append_assoc, dropLast_concat]
    rfl
  rw [hcells] at hap ⊢
  obtain ⟨-, hap2, hap3⟩ := pairwise_append.1 hap
  obtain ⟨m', hinsert, hlist, hch⟩ := insertAt_front hxs hx hlt hcell hmapped hap2
  refine ⟨m', hinsert, isList_append.2 ⟨hys.transport fun c hc => ?_, hlist⟩,
    hch.mono (span_mono (subset_append_right _ _))⟩
  exact load_of_changes hch fun d hd => (hap3 c hc d hd).symm

theorem remove_spec (h : IsList off m cell (ys ++ x :: xs))
    (hap : (cells off cell (ys ++ x :: xs)).Pairwise Apart) : ∃ m', remove off m x = some m' ∧
      IsList off m' cell (ys ++ xs) ∧ m.Changes (span (cells off cell (ys ++ x :: xs))) m' := by
  set cs := cells off cell (ys ++ x :: xs) with hcs
  rw [cells, links_append, links_cons] at hcs
  obtain ⟨hys, h⟩ := isList_append.1 h
  obtain ⟨hx, hpoints, hback, hxs⟩ := isList_cons.1 h
  have hnext := hxs.load_cell
  obtain ⟨m1, hstore1, hload1, hother1, hch1⟩ := setBack_spec cs hxs (Memory.load_lt hback)
    fun y hy => by simp [hcs, back_mem y hy]
  rw [hcs, ← cons_append, pairwise_append] at hap
  obtain ⟨hap1, hap2, hap3⟩ := hap
  have hap4 := (pairwise_cons.1 (pairwise_cons.1 hap2).2).2
  have hend : endCell off cell ys ∈ cell :: links off ys := endCell_mem cell ys
  have hpoints1 : m1.Mapped (endCell off cell ys) 8 :=
    hch1.mapped_iff.2 (Memory.mapped_of_load hpoints)
  obtain ⟨m2, hstore2, hload2, hother2, hch2⟩ := store_cell cs hpoints1
    (Memory.load_lt hnext) (by rw [hcs, ← cons_append]; exact mem_append_left _ hend)
  have hxs2 : IsList off m2 (endCell off cell ys) xs := by
    refine hxs.move hload2 (fun y hy => ?_) fun c hc => ?_
    · rw [hother2 _ (hap3 _ hend _ (by simp [back_mem y hy])), hload1 y hy]
    · have hc' : c ∈ links off xs := mem_of_mem_tail hc
      rw [hother2 c (hap3 _ hend _ (by simp [hc'])),
        hother1 c fun y hy => back_apart hap4 y hy c hc]
  refine ⟨m2, ?_, isList_append.2 ⟨hys.transport fun c hc => ?_, hxs2⟩, hch1.trans hch2⟩
  · simp only [remove, hnext, hback, Option.bind_eq_bind, Option.bind_some, hstore1, hstore2]
  · have hc' : c ∈ cell :: links off ys := dropLast_subset _ hc
    rw [← cells, cells_eq_concat, pairwise_append] at hap1
    rw [hother2 c (hap1.2.2 c hc _ (mem_singleton_self _)).symm,
      hother1 c fun y hy => (hap3 c hc' _ (by simp [back_mem y hy])).symm]

theorem next_eq (h : IsList off m cell (ys ++ x :: xs)) : next off m x = some (xs.headD 0) :=
  (isList_cons.1 (isList_append.1 h).2).2.2.2.load_cell

theorem prev_eq {y : ℕ} (h : IsList off m cell (ys ++ y :: x :: xs)) : prev off m x = some y := by
  obtain ⟨-, -, -, h⟩ := isList_cons.1 (isList_append.1 h).2
  obtain ⟨-, -, hback, -⟩ := isList_cons.1 h
  rw [prev, hback, Option.map_some, Nat.add_sub_cancel]

end Spec

/-- Elements of `n` bytes that do not overlap, and a first cell outside them. -/
theorem cells_apart {n cell : ℕ} {xs : List ℕ} (hn : off + 16 ≤ n)
    (hxs : xs.Pairwise fun x y => x + n ≤ y ∨ y + n ≤ x)
    (hcell : ∀ x ∈ xs, cell + 8 ≤ x + off ∨ x + off + 16 ≤ cell) :
    (cells off cell xs).Pairwise Apart := by
  refine pairwise_cons.2 ⟨fun d hd => ?_, pairwise_flatMap.2 ⟨fun x _ => ?_, ?_⟩⟩
  · obtain ⟨x, hx, rfl | rfl⟩ := mem_links.1 hd
    all_goals
      have := hcell x hx
      unfold Apart
      omega
  · simp [Apart]
  · refine hxs.imp fun {x y} hxy c hc d hd => ?_
    simp only [mem_cons, not_mem_nil, or_false] at hc hd
    unfold Apart
    omega

end Darling.Queue
