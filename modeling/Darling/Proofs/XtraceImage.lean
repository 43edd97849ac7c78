import Darling.Proofs.XtraceHeap
import Darling.XtraceMalloc
import Mathlib.Data.List.Flatten
import Mathlib.Data.Nat.Bitwise

/-!
# A heap in memory

`Image` says that a memory has a heap: every fragment's flags are in its header, and the two kinds
of lists link the headers.  A number of a header is of one of four kinds, those of different kinds
do not overlap, and a statement of the code changes numbers of one kind.
-/

namespace Darling.XtraceMalloc

open Queue Xtrace List Option
open Fragment (addr)

variable {b c d x : ℕ}

section Flags

theorem and_split {i a : ℕ} (hb : b < 2 ^ i) (hd : d < 2 ^ i) :
    (2 ^ i * a + b) &&& (2 ^ i * c + d) = 2 ^ i * (a &&& c) + (b &&& d) := by
  refine Nat.eq_of_testBit_eq fun k => ?_
  rw [Nat.testBit_and, Nat.testBit_two_pow_mul_add _ hb, Nat.testBit_two_pow_mul_add _ hd,
    Nat.testBit_two_pow_mul_add _ (Nat.and_lt_two_pow b hd)]
  split_ifs <;> rw [Nat.testBit_and]

theorem or_split {i a : ℕ} (hb : b < 2 ^ i) (hd : d < 2 ^ i) :
    (2 ^ i * a + b) ||| (2 ^ i * c + d) = 2 ^ i * (a ||| c) + (b ||| d) := by
  refine Nat.eq_of_testBit_eq fun k => ?_
  rw [Nat.testBit_or, Nat.testBit_two_pow_mul_add _ hb, Nat.testBit_two_pow_mul_add _ hd,
    Nat.testBit_two_pow_mul_add _ (Nat.or_lt_two_pow hb hd)]
  split_ifs <;> rw [Nat.testBit_or]

/-- The word `flags` of the header of a fragment. -/
def flagsOf (f : Fragment) : ℕ := 2 ^ 62 * (2 * f.inUse.toNat + f.isMmapBase.toNat) + f.size

variable {m : Memory} {f : Fragment}

theorem sizes_eq : headerSize = 40 ∧ blockSize = 56 ∧ fragmentOffset = 16 ∧ blockLink = 8 :=
  ⟨rfl, rfl, rfl, rfl⟩

theorem flagsOf_lt (hf : f.size < 2 ^ 62) : flagsOf f < 2 ^ 64 := by
  have := f.inUse.toNat_le
  have := f.isMmapBase.toNat_le
  unfold flagsOf
  omega

theorem mask_and (hf : f.size < 2 ^ 62) (hd : d < 2 ^ 62) : flagsOf f &&& (2 ^ 62 * c + d) =
      2 ^ 62 * ((2 * f.inUse.toNat + f.isMmapBase.toNat) &&& c) + (f.size &&& d) := and_split hf hd

theorem size_and (hf : f.size < 2 ^ 62) : f.size &&& (2 ^ 62 - 1) = f.size := by
  rw [Nat.and_two_pow_sub_one_eq_mod, Nat.mod_eq_of_lt hf]

section

variable (h : m.load f.addr = some (flagsOf f)) (hf : f.size < 2 ^ 62)

include h hf

theorem size_eq : size m f.addr = some f.size := by
  have hand := mask_and hf (c := 0) (d := 2 ^ 62 - 1) (by omega)
  rw [Nat.mul_zero, Nat.zero_add, Nat.and_zero, Nat.mul_zero, Nat.zero_add, size_and hf] at hand
  simp only [size, h, bind_eq_bind, bind_some, sizeMask, hand, Option.pure_def]

theorem inUse_eq : inUse m f.addr = some f.inUse := by
  have hand := mask_and hf (c := 2) (d := 0) (by omega)
  rw [Nat.and_zero, Nat.add_zero, Nat.add_zero] at hand
  simp only [inUse, h, bind_eq_bind, bind_some, flagInUse, Option.pure_def,
    show 2 ^ 63 = 2 ^ 62 * 2 from rfl, hand]
  cases f.inUse <;> cases f.isMmapBase <;> rfl

theorem isMmapBase_eq : isMmapBase m f.addr = some f.isMmapBase := by
  have hand := mask_and hf (c := 1) (d := 0) (by omega)
  rw [Nat.and_zero, Nat.add_zero, Nat.add_zero, Nat.mul_one] at hand
  simp only [isMmapBase, h, bind_eq_bind, bind_some, flagIsMmapBase, Option.pure_def,
    hand]
  cases f.inUse <;> cases f.isMmapBase <;> rfl

theorem setSize_eq (n : ℕ) : setSize m f.addr n = m.store f.addr (flagsOf (f.setSize n)) := by
  have hthree : (2 * f.inUse.toNat + f.isMmapBase.toNat) &&& 3 =
      2 * f.inUse.toNat + f.isMmapBase.toNat := by
    cases f.inUse <;> cases f.isMmapBase <;> rfl
  have hand := mask_and hf (c := 3) (d := 0) (by omega)
  rw [Nat.and_zero, Nat.add_zero, Nat.add_zero, hthree] at hand
  have hor := or_split (a := 2 * f.inUse.toNat + f.isMmapBase.toNat) (b := 0) (c := 0)
    (d := n % 2 ^ 62) (by omega) (Nat.mod_lt _ (by omega))
  rw [Nat.mul_zero, Nat.zero_add, Nat.add_zero, Nat.or_zero, Nat.zero_or] at hor
  simp only [setSize, h, bind_eq_bind, bind_some, complement, sizeMask,
    show 2 ^ 64 - 1 - (2 ^ 62 - 1) = 2 ^ 62 * 3 from rfl, hand, Nat.and_two_pow_sub_one_eq_mod, hor]
  rfl

theorem setInUse_eq (u : Bool) :
    setInUse m f.addr u = m.store f.addr (flagsOf { f with inUse := u }) := by
  simp only [setInUse, h, bind_eq_bind, bind_some]
  congr 1
  cases u with
  | true =>
    have hor := or_split (a := 2 * f.inUse.toNat + f.isMmapBase.toNat) (c := 2)
      (d := 0) hf (by omega)
    rw [Nat.or_zero, Nat.add_zero] at hor
    rw [if_pos rfl, flagInUse, show 2 ^ 63 = 2 ^ 62 * 2 from rfl, flagsOf, hor, flagsOf]
    cases f.inUse <;> cases f.isMmapBase <;> rfl
  | false =>
    have hand := mask_and hf (c := 1) (d := 2 ^ 62 - 1) (by omega)
    rw [size_and hf] at hand
    rw [if_neg (by simp), complement, flagInUse,
      show 2 ^ 64 - 1 - 2 ^ 63 = 2 ^ 62 * 1 + (2 ^ 62 - 1) from rfl, hand, flagsOf]
    cases f.inUse <;> cases f.isMmapBase <;> rfl

theorem setIsMmapBase_eq :
    setIsMmapBase m f.addr true = m.store f.addr (flagsOf { f with isMmapBase := true }) := by
  have hor := or_split (a := 2 * f.inUse.toNat + f.isMmapBase.toNat) (c := 1)
    (d := 0) hf (by omega)
  rw [Nat.or_zero, Nat.add_zero, Nat.mul_one] at hor
  simp only [setIsMmapBase, h, bind_eq_bind, bind_some, if_true, flagIsMmapBase]
  rw [flagsOf, hor, flagsOf]
  cases f.inUse <;> cases f.isMmapBase <;> rfl

end

end Flags

section Layout

/-- The variable `free_list` and the headers of the blocks and of the fragments: where they are and
how long. -/
def regions (freeList : ℕ) (bs fs : List ℕ) : List (ℕ × ℕ) :=
  (freeList, 8) :: (bs.map (·, 16) ++ fs.map (·, headerSize))

/-- The two regions do not overlap. -/
def RegionApart (r s : ℕ × ℕ) : Prop := r.1 + r.2 ≤ s.1 ∨ s.1 + s.2 ≤ r.1

instance : Std.Symm RegionApart := ⟨fun _ _ => Or.symm⟩

/-- The headers do not overlap, and no byte of them is in `kept`. -/
structure Layout (freeList : ℕ) (kept : Set ℕ) (bs fs : List ℕ) : Prop where
  apart : (regions freeList bs fs).Pairwise RegionApart
  outside : ∀ r ∈ regions freeList bs fs, ∀ a ∈ kept, a < r.1 ∨ r.1 + r.2 ≤ a
  bound : ∀ r ∈ regions freeList bs fs, r.1 + r.2 ≤ 2 ^ 64
  ne_zero : ∀ x ∈ fs, x ≠ 0

/-- The kinds of words there are in a header. -/
inductive Kind where
  | flags
  | size
  | block
  | free
deriving DecidableEq

/-- Where words of the kind are: the length of the region and the offset in it. -/
def Kind.offsets : Kind → List (ℕ × ℕ)
  | .flags => [(headerSize, 0)]
  | .size => [(16, 0)]
  | .block => [(16, 8), (headerSize, blockLink), (headerSize, blockLink + 8)]
  | .free => [(8, 0), (headerSize, freeLink), (headerSize, freeLink + 8)]

theorem Kind.offsets_apart : ∀ k l : Kind, k ≠ l → ∀ p ∈ k.offsets, ∀ q ∈ l.offsets, p.1 = q.1 →
    p.2 + 8 ≤ q.2 ∨ q.2 + 8 ≤ p.2 := by
  intro k l
  cases k <;> cases l <;> decide

theorem Kind.offset_le : ∀ k : Kind, ∀ p ∈ k.offsets, p.2 + 8 ≤ p.1 := by
  intro k
  cases k <;> decide

variable {freeList : ℕ} {kept : Set ℕ} {bs fs : List ℕ}

/-- The address of a word of the kind. -/
def IsCell (freeList : ℕ) (bs fs : List ℕ) (k : Kind) (c : ℕ) : Prop :=
  ∃ r ∈ regions freeList bs fs, ∃ i, (r.2, i) ∈ k.offsets ∧ c = r.1 + i

/-- The bytes of the words of the kind. -/
def kindSpan (freeList : ℕ) (bs fs : List ℕ) (k : Kind) : Set ℕ :=
  { a | ∃ c, IsCell freeList bs fs k c ∧ c ≤ a ∧ a < c + 8 }

namespace Layout

variable {k : Kind} {xs : List ℕ}

theorem fragment_mem (hx : x ∈ fs) : (x, headerSize) ∈ regions freeList bs fs := by
  simp [regions, hx]

theorem isCell_flags (hx : x ∈ fs) : IsCell freeList bs fs .flags x :=
  ⟨(x, headerSize), fragment_mem hx, 0, by simp [Kind.offsets], rfl⟩

theorem isCell_size (hb : b ∈ bs) : IsCell freeList bs fs .size b :=
  ⟨(b, 16), by simp [regions, hb], 0, by simp [Kind.offsets], rfl⟩

theorem block_region (hb : b ∈ bs) (hxs : xs ⊆ fs)
    (hc : c ∈ cells blockLink (b + 8) xs) : ∃ r ∈ regions freeList bs fs,
      ∃ i, (r.2, i) ∈ Kind.block.offsets ∧ c = r.1 + i ∧
        (r = (b, 16) ∨ ∃ x ∈ xs, r = (x, headerSize)) := by
  rcases mem_cons.1 hc with rfl | hc
  · exact ⟨(b, 16), by simp [regions, hb], 8, by simp [Kind.offsets], rfl, .inl rfl⟩
  · obtain ⟨x, hx, rfl | rfl⟩ := mem_links.1 hc
    · exact ⟨(x, headerSize), fragment_mem (hxs hx), blockLink + 8, by simp [Kind.offsets], rfl,
        .inr ⟨x, hx, rfl⟩⟩
    · exact ⟨(x, headerSize), fragment_mem (hxs hx), blockLink, by simp [Kind.offsets], rfl,
        .inr ⟨x, hx, rfl⟩⟩

theorem isCell_block (hb : b ∈ bs) (hxs : xs ⊆ fs)
    (hc : c ∈ cells blockLink (b + 8) xs) : IsCell freeList bs fs .block c := by
  obtain ⟨r, hr, i, hi, hcr, -⟩ := block_region hb hxs hc
  exact ⟨r, hr, i, hi, hcr⟩

theorem isCell_free (hxs : xs ⊆ fs)
    (hc : c ∈ cells freeLink freeList xs) : IsCell freeList bs fs .free c := by
  rcases mem_cons.1 hc with rfl | hc
  · exact ⟨(c, 8), by simp [regions], 0, by simp [Kind.offsets], rfl⟩
  · obtain ⟨x, hx, rfl | rfl⟩ := mem_links.1 hc
    · exact ⟨(x, headerSize), fragment_mem (hxs hx), freeLink + 8, by simp [Kind.offsets], rfl⟩
    · exact ⟨(x, headerSize), fragment_mem (hxs hx), freeLink, by simp [Kind.offsets], rfl⟩

theorem span_subset {cs : List ℕ} (hcs : ∀ c ∈ cs, IsCell freeList bs fs k c) :
    span cs ⊆ kindSpan freeList bs fs k :=
  fun _ ⟨c, hc, ha⟩ => ⟨c, hcs c hc, ha⟩

theorem free_span (hxs : xs ⊆ fs) :
    span (cells freeLink freeList xs) ⊆ kindSpan freeList bs fs .free :=
  span_subset fun _ hc => isCell_free hxs hc

theorem block_span (hb : b ∈ bs) (hxs : xs ⊆ fs) :
    span (cells blockLink (b + 8) xs) ⊆ kindSpan freeList bs fs .block :=
  span_subset fun _ hc => isCell_block hb hxs hc

variable (h : Layout freeList kept bs fs)

include h

/-- Words of different kinds do not overlap. -/
theorem cell_apart {l : Kind} (hkl : k ≠ l) (hc : IsCell freeList bs fs k c)
    (hd : IsCell freeList bs fs l d) : Apart c d := by
  obtain ⟨r, hr, i, hi, rfl⟩ := hc
  obtain ⟨s, hs, j, hj, rfl⟩ := hd
  have hi' := k.offset_le _ hi
  have hj' := l.offset_le _ hj
  unfold Apart
  by_cases hrs : r = s
  · subst hrs
    have := Kind.offsets_apart k l hkl _ hi _ hj rfl
    omega
  · have := h.apart.forall hr hs hrs
    unfold RegionApart at this
    omega

theorem kindSpan_outside {a : ℕ} (ha : a ∈ kept) : a ∉ kindSpan freeList bs fs k := by
  rintro ⟨c, ⟨r, hr, i, hi, rfl⟩, hle, hlt⟩
  have := k.offset_le _ hi
  have := h.outside r hr a ha
  omega

theorem changes_kept {m m' : Memory}
    (hch : m.Changes (kindSpan freeList bs fs k) m') : m.Changes keptᶜ m' :=
  hch.mono fun _ ha ha' => h.kindSpan_outside ha' ha

/-- A change to words of one kind leaves those of another. -/
theorem load_other {l : Kind} (hkl : k ≠ l) (hc : IsCell freeList bs fs l c)
    {m m' : Memory} (hch : m.Changes (kindSpan freeList bs fs k) m') : m'.load c = m.load c := by
  refine hch.load fun b hb hb' ⟨d, hd, hdb⟩ => ?_
  have := h.cell_apart hkl hd hc
  unfold Apart at this
  omega

theorem fragment_apart {x y : ℕ} (hx : x ∈ fs) (hy : y ∈ fs) (hne : x ≠ y) :
    x + headerSize ≤ y ∨ y + headerSize ≤ x :=
  h.apart.forall (a := (x, headerSize)) (b := (y, headerSize)) (by simp [regions, hx])
    (by simp [regions, hy]) (by simpa using hne)

/-- With fewer headers the layout holds all the more. -/
theorem subperm {bs' fs' : List ℕ} (hbs : bs'.Sublist bs) (hfs : fs'.Subperm fs) :
    Layout freeList kept bs' fs' := by
  obtain ⟨gs, hperm, hgs⟩ := hfs
  have hsub : (regions freeList bs' gs).Sublist (regions freeList bs fs) :=
    Sublist.cons_cons _ ((hbs.map _).append (hgs.map _))
  have hreg : (regions freeList bs' gs).Perm (regions freeList bs' fs') :=
    ((hperm.map _).append_left _).cons _
  have hmem : regions freeList bs' fs' ⊆ regions freeList bs fs :=
    Subset.trans hreg.symm.subset hsub.subset
  exact ⟨hreg.pairwise (h.apart.sublist hsub) Or.symm, fun r hr => h.outside r (hmem hr),
    fun r hr => h.bound r (hmem hr), fun x hx => h.ne_zero x (hgs.subset (hperm.symm.subset hx))⟩

/-- One header more. -/
theorem of_perm {bs' fs' : List ℕ} {r : ℕ × ℕ}
    (hperm : (r :: regions freeList bs fs).Perm (regions freeList bs' fs'))
    (hap : ∀ s ∈ regions freeList bs fs, RegionApart r s)
    (hout : ∀ a ∈ kept, a < r.1 ∨ r.1 + r.2 ≤ a) (hbound : r.1 + r.2 ≤ 2 ^ 64)
    (hfs : ∀ x ∈ fs', x ≠ 0) : Layout freeList kept bs' fs' := by
  refine ⟨hperm.pairwise (pairwise_cons.2 ⟨hap, h.apart⟩) Or.symm, fun s hs => ?_,
    fun s hs => ?_, hfs⟩
  · rcases mem_cons.1 (hperm.symm.subset hs) with rfl | hs
    · exact hout
    · exact h.outside s hs
  · rcases mem_cons.1 (hperm.symm.subset hs) with rfl | hs
    · exact hbound
    · exact h.bound s hs

theorem cons {y : ℕ} (hap : ∀ r ∈ regions freeList bs fs, RegionApart (y, headerSize) r)
    (hout : ∀ a ∈ kept, a < y ∨ y + headerSize ≤ a) (hbound : y + headerSize ≤ 2 ^ 64)
    (hy : y ≠ 0) : Layout freeList kept bs (y :: fs) :=
  h.of_perm ((Perm.swap _ _ _).trans (perm_middle.symm.cons _)) hap hout hbound
    (forall_mem_cons.2 ⟨hy, h.ne_zero⟩)

theorem consBlock (hap : ∀ r ∈ regions freeList bs fs, RegionApart (b, 16) r)
    (hout : ∀ a ∈ kept, a < b ∨ b + 16 ≤ a) (hbound : b + 16 ≤ 2 ^ 64) :
    Layout freeList kept (b :: bs) fs := h.of_perm (Perm.swap _ _ _) hap hout hbound h.ne_zero

theorem nodup : fs.Nodup := by
  have hap := (pairwise_append.1 (pairwise_cons.1 h.apart).2).2.1
  refine (pairwise_map.1 hap).imp fun {x y} hxy heq => ?_
  unfold RegionApart headerSize at hxy
  omega

theorem nodup_blocks : bs.Nodup := by
  have hap := (pairwise_append.1 (pairwise_cons.1 h.apart).2).1
  refine (pairwise_map.1 hap).imp fun {x y} hxy heq => ?_
  unfold RegionApart at hxy
  omega

/-- A list whose head is in a region of its own, with its links in the headers. -/
theorem link_cells_apart {link c : ℕ} {r : ℕ × ℕ} (hr : r ∈ regions freeList bs fs)
    (hne : r.2 ≠ headerSize) (hc : r.1 ≤ c ∧ c + 8 ≤ r.1 + r.2) (hlink : link + 16 ≤ headerSize)
    (hxs : xs ⊆ fs) (hnd : xs.Nodup) : (cells link c xs).Pairwise Apart := by
  refine cells_apart hlink (hnd.imp_of_mem fun {x y} hx hy hne =>
    h.fragment_apart (hxs hx) (hxs hy) hne) fun x hx => ?_
  have := h.apart.forall hr (b := (x, headerSize)) (by simp [regions, hxs hx])
    fun he => hne (by rw [he])
  unfold RegionApart at this
  omega

theorem block_cells_apart (hb : b ∈ bs) (hxs : xs ⊆ fs) (hnd : xs.Nodup) :
    (cells blockLink (b + 8) xs).Pairwise Apart :=
  h.link_cells_apart (r := (b, 16)) (by simp [regions, hb]) (by simp [headerSize]) (by simp)
    (by decide) hxs hnd

theorem free_cells_apart (hxs : xs ⊆ fs) (hnd : xs.Nodup) :
    (cells freeLink freeList xs).Pairwise Apart :=
  h.link_cells_apart (r := (freeList, 8)) (by simp [regions]) (by simp [headerSize]) (by simp)
    (by decide) hxs hnd

theorem other_block {xs ys : List ℕ} (hb : b ∈ bs) (hc : c ∈ bs) (hbc : b ≠ c)
    (hxs : xs ⊆ fs) (hys : ys ⊆ fs) (hd : xs.Disjoint ys) :
    ∀ d ∈ cells blockLink (b + 8) xs, ∀ e ∈ cells blockLink (c + 8) ys, Apart d e := by
  intro d hd' e he
  obtain ⟨r, hr, i, hi, rfl, hrx⟩ := block_region hb hxs hd'
  obtain ⟨s, hs, j, hj, rfl, hsy⟩ := block_region hc hys he
  have hrs : r ≠ s := by
    rintro rfl
    rcases hrx with rfl | ⟨x, hx, rfl⟩ <;> rcases hsy with heq | ⟨y, hy, heq⟩
    · exact hbc (Prod.mk.inj heq).1
    · exact absurd (Prod.mk.inj heq).2 (by decide)
    · exact absurd (Prod.mk.inj heq).2 (by decide)
    · exact hd hx ((Prod.mk.inj heq).1 ▸ hy)
  have := h.apart.forall hr hs hrs
  have := Kind.block.offset_le _ hi
  have := Kind.block.offset_le _ hj
  unfold RegionApart at *
  unfold Apart
  omega

end Layout

end Layout

/-- The header of the fragment is in memory. -/
def HasHeader (m : Memory) (f : Fragment) : Prop :=
  m.load f.addr = some (flagsOf f) ∧ f.size < 2 ^ 62 ∧ m.Mapped f.addr headerSize

/-- The memory has the headers and the lists of the heap. -/
structure Image (freeList : ℕ) (kept : Set ℕ) (m : Memory) (h : Heap) : Prop extends
    Layout freeList kept (h.blocks.map Block.addr) (h.fragments.map Fragment.addr) where
  flags : ∀ f ∈ h.fragments, m.load f.addr = some (flagsOf f)
  size_lt : ∀ f ∈ h.fragments, f.size < 2 ^ 62
  mapped : ∀ f ∈ h.fragments, m.Mapped f.addr headerSize
  sizes : ∀ b ∈ h.blocks, m.load b.addr = some b.size
  lists : ∀ b ∈ h.blocks, IsList blockLink m (b.addr + 8) (b.fragmentList.map Fragment.addr)
  free : IsList freeLink m freeList h.freeList
  nodup_free : h.freeList.Nodup
  free_subset : h.freeList ⊆ h.fragments.map Fragment.addr

namespace Image

variable {freeList : ℕ} {kept : Set ℕ} {m m' : Memory} {h : Heap} {b : Block}

theorem fragments_subset (hb : b ∈ h.blocks) : b.fragmentList.map addr ⊆ h.fragments.map addr :=
  map_subset _ fun _ hf => mem_flatMap.2 ⟨b, hb, hf⟩

section

variable (hi : Image freeList kept m h)

include hi

theorem header {f : Fragment} (hf : f ∈ h.fragments) : HasHeader m f :=
  ⟨hi.flags f hf, hi.size_lt f hf, hi.mapped f hf⟩

/-- Only links of the free list were written. -/
theorem setFree {xs fl : List ℕ} (hxs : xs ⊆ h.fragments.map addr)
    (hch : m.Changes (span (cells freeLink freeList xs)) m')
    (hlist : IsList freeLink m' freeList fl) (hnd : fl.Nodup) (hfl : fl ⊆ h.fragments.map addr) :
    Image freeList kept m' ⟨h.blocks, fl⟩ ∧ m.Changes keptᶜ m' := by
  have hl := hi.toLayout
  have hkind : m.Changes (kindSpan freeList (h.blocks.map Block.addr) _ .free) m' :=
    hch.mono (Layout.free_span hxs)
  refine ⟨⟨hl, fun f hf => ?_, hi.size_lt, fun f hf => ?_, fun b hb => ?_, fun b hb => ?_, hlist,
    hnd, hfl⟩, hl.changes_kept hkind⟩
  · rw [hl.load_other (by decide)
      (Layout.isCell_flags (mem_map_of_mem hf)) hkind, hi.flags f hf]
  · exact hch.mapped_iff.2 (hi.mapped f hf)
  · rw [hl.load_other (by decide)
      (Layout.isCell_size (mem_map_of_mem hb)) hkind, hi.sizes b hb]
  · exact (hi.lists b hb).transport fun c hc => hl.load_other (by decide)
      (Layout.isCell_block (mem_map_of_mem hb) (fragments_subset hb) hc) hkind

theorem insertFree (hx : x ∈ h.fragments.map addr) (hnew : x ∉ h.freeList) : ∃ m',
      insertHead freeLink m freeList x = some m' ∧
        Image freeList kept m' ⟨h.blocks, x :: h.freeList⟩ ∧ m.Changes keptᶜ m' := by
  have hsub : x :: h.freeList ⊆ h.fragments.map addr :=
    cons_subset.2 ⟨hx, hi.free_subset⟩
  have hnd : (x :: h.freeList).Nodup := nodup_cons.2 ⟨hnew, hi.nodup_free⟩
  have hbx := hi.bound (x, headerSize) (by simp [regions, mem_map.1 hx])
  have hbl := hi.bound (freeList, 8) (by simp [regions])
  obtain ⟨f, hf, rfl⟩ := mem_map.1 hx
  have hm : m.Mapped (f.addr + freeLink) 16 := fun b hb hb' =>
    hi.mapped f hf b (by omega) (by unfold freeLink headerSize at *; omega)
  obtain ⟨m', hinsert, hlist, hch⟩ := insertAt_front hi.free (hi.ne_zero _ hx)
    (by unfold freeLink headerSize at *; omega) (by omega) hm (hi.free_cells_apart hsub hnd)
  exact ⟨m', hinsert, hi.setFree hsub hch hlist hnd hsub⟩

theorem removeFree (hx : x ∈ h.freeList) : ∃ m',
    remove freeLink m x = some m' ∧
      Image freeList kept m' ⟨h.blocks, h.freeList.erase x⟩ ∧ m.Changes keptᶜ m' := by
  have hap := hi.free_cells_apart hi.free_subset hi.nodup_free
  have hlist := hi.free
  have hnd := hi.nodup_free
  obtain ⟨ys, zs, hsplit⟩ := append_of_mem hx
  have hys : x ∉ ys := fun hmem => by
    rw [hsplit, nodup_append] at hnd
    exact hnd.2.2 x hmem x mem_cons_self rfl
  have herase : h.freeList.erase x = ys ++ zs := by
    rw [hsplit, erase_append_right _ hys, erase_cons_head]
  rw [hsplit] at hlist hap
  obtain ⟨m', hremove, hlist', hch⟩ := remove_spec hlist hap
  rw [← herase] at hlist'
  rw [← hsplit] at hch
  exact ⟨m', hremove, hi.setFree hi.free_subset hch hlist' (hnd.erase x)
    (Subset.trans erase_subset hi.free_subset)⟩

end

section Block

variable {p : Place} {fl : List ℕ}

theorem frag_notMem_others (hi : Image freeList kept m ⟨p.blocks, fl⟩) :
    p.frag.addr ∉ p.others.map addr := by
  have hnd := ((p.fragments_perm fl).map addr).nodup_iff.1 hi.nodup
  exact (nodup_cons.1 hnd).1

theorem mem_blocks_of_other {fs : List Fragment}
    (hb : b ∈ p.left ++ { p.block with fragmentList := fs } :: p.right) :
    b = { p.block with fragmentList := fs } ∨ (b ∈ p.left ∨ b ∈ p.right) := by
  simp only [mem_append, mem_cons] at hb
  tauto

theorem other_mem (hb : b ∈ p.left ∨ b ∈ p.right) : b ∈ p.blocks := by
  simp only [Place.blocks, mem_append, mem_cons]
  tauto

section

variable (hi : Image freeList kept m ⟨p.blocks, fl⟩)

include hi

/-- Only links of the fragment list of one block were written. -/
theorem setBlock {fs : List Fragment} {xs ys : List ℕ}
    (hl : Layout freeList kept (p.blocks.map Block.addr) ys) (hxs : xs ⊆ ys)
    (hold : (Heap.mk p.blocks fl).fragments.map addr ⊆ ys)
    (hnew : ((Heap.mk (p.left ++ { p.block with fragmentList := fs } :: p.right) fl).fragments.map
      addr).Subperm ys)
    (hdis : ∀ b, b ∈ p.left ∨ b ∈ p.right → xs.Disjoint (b.fragmentList.map addr))
    (hch : m.Changes (span (cells blockLink (p.block.addr + 8) xs)) m')
    (hlist : IsList blockLink m' (p.block.addr + 8) (fs.map addr))
    (hfs : ∀ f ∈ fs, HasHeader m f)
    (hfl : fl ⊆
      (Heap.mk (p.left ++ { p.block with fragmentList := fs } :: p.right) fl).fragments.map addr) :
    Image freeList kept m' ⟨p.left ++ { p.block with fragmentList := fs } :: p.right, fl⟩ ∧
      m.Changes keptᶜ m' := by
  have hbs : (p.left ++ { p.block with fragmentList := fs } :: p.right).map Block.addr =
      p.blocks.map Block.addr := by simp [Place.blocks]
  have hblock : p.block.addr ∈ p.blocks.map Block.addr := by simp [Place.blocks]
  have hkind : m.Changes (kindSpan freeList _ _ .block) m' :=
    hch.mono (Layout.block_span hblock hxs)
  -- Every fragment of the new heap is of the new list or an old one.
  have hall : ∀ f ∈ (Heap.mk (p.left ++ { p.block with fragmentList := fs } ::
      p.right) fl).fragments, HasHeader m f := by
    intro f hf
    obtain ⟨b, hb, hfb⟩ := mem_flatMap.1 hf
    rcases mem_blocks_of_other hb with rfl | hb
    · exact hfs f hfb
    · exact hi.header (mem_flatMap.2 ⟨b, other_mem hb, hfb⟩)
  refine ⟨⟨?_, fun f hf => ?_, fun f hf => (hall f hf).2.1, fun f hf => ?_, fun b hb => ?_,
    fun b hb => ?_, ?_, hi.nodup_free, hfl⟩, hl.changes_kept hkind⟩
  · rw [hbs]
    exact hl.subperm (Sublist.refl _) hnew
  · rw [hl.load_other (by decide)
      (Layout.isCell_flags (hnew.subset (mem_map_of_mem hf))) hkind, (hall f hf).1]
  · exact hch.mapped_iff.2 (hall f hf).2.2
  · have hsize : m.load b.addr = some b.size := by
      rcases mem_blocks_of_other hb with rfl | hb
      · exact hi.sizes { p.block with fragmentList := p.fragmentList } p.block_mem
      · exact hi.sizes b (other_mem hb)
    rw [hl.load_other (by decide)
      (Layout.isCell_size (hbs ▸ mem_map_of_mem hb)) hkind, hsize]
  · rcases mem_blocks_of_other hb with rfl | hb
    · exact hlist
    · exact (hi.lists b (other_mem hb)).of_changes hch (hl.other_block hblock
        (mem_map_of_mem (other_mem hb)) (Place.other_blocks hi.nodup_blocks hi.nodup hb).1 hxs
        (Subset.trans (fragments_subset (other_mem hb)) hold)
          (hdis b hb))
  · exact hi.free.transport fun c hc => hl.load_other (by decide)
      (Layout.isCell_free (Subset.trans hi.free_subset hold) hc) hkind

theorem removeBlock (hfree : p.frag.addr ∉ fl) : ∃ m',
    remove blockLink m p.frag.addr = some m' ∧ Image freeList kept m' ⟨p.without, fl⟩ ∧
      m'.load p.frag.addr = m.load p.frag.addr ∧ m.Changes keptᶜ m' := by
  have hold := p.fragments_perm fl
  have hblock : p.block.addr ∈ p.blocks.map Block.addr := by simp [Place.blocks]
  have hsub := (p.fragmentList_sublist fl).map addr
  have hap := hi.block_cells_apart hblock hsub.subset (hi.nodup.sublist hsub)
  have hlist := hi.lists _ p.block_mem
  have hchain : p.fragmentList.map addr =
      p.before.reverse.map addr ++ p.frag.addr :: p.after.map addr := by
    simp [Place.fragmentList]
  simp only [hchain] at hlist hap
  obtain ⟨m', hremove, hlist', hch⟩ := remove_spec hlist hap
  rw [← hchain] at hch
  rw [← map_append] at hlist'
  have hkind : m.Changes (kindSpan freeList _ _ .block) m' :=
    hch.mono (Layout.block_span hblock hsub.subset)
  have hnew : ((Heap.mk p.without fl).fragments.map addr).Subperm
      ((Heap.mk p.blocks fl).fragments.map addr) := by
    rw [p.without_fragments]
    exact ((sublist_cons_self _ _).map _).subperm.trans (hold.map _).symm.subperm
  have hfl : fl ⊆ (Heap.mk p.without fl).fragments.map addr := by
    intro x hx
    rw [p.without_fragments]
    rcases mem_cons.1 ((hold.map addr).subset (hi.free_subset hx)) with rfl | hx'
    · exact absurd hx hfree
    · exact hx'
  have hfs : ∀ f ∈ p.before.reverse ++ p.after, f ∈ (Heap.mk p.blocks fl).fragments := fun f hf =>
    (p.fragmentList_sublist fl).subset
      ((Sublist.append_left (sublist_cons_self p.frag p.after) _).subset hf)
  obtain ⟨himage, hkept⟩ := hi.setBlock hi.toLayout hsub.subset (Subset.refl _) hnew
    (fun b hb => (Place.other_blocks hi.nodup_blocks hi.nodup hb).2) hch hlist'
    (fun f hf => hi.header (hfs f hf)) hfl
  refine ⟨m', hremove, himage, ?_, hkept⟩
  exact hi.load_other (by decide)
    (Layout.isCell_flags (mem_map_of_mem (hold.mem_iff.2 mem_cons_self))) hkind

theorem insertBlock {g : Fragment} (hl : Layout freeList kept (p.blocks.map Block.addr)
      (g.addr :: (Heap.mk p.blocks fl).fragments.map addr))
    (hflags : m.load g.addr = some (flagsOf g)) (hsize : g.size < 2 ^ 62)
    (hmapped : m.Mapped g.addr headerSize) : ∃ m',
      insertAfter blockLink m p.frag.addr g.addr = some m' ∧
        Image freeList kept m' ⟨{ p with after := g :: p.after }.blocks, fl⟩ ∧
        m.Changes keptᶜ m' := by
  have hblock : p.block.addr ∈ p.blocks.map Block.addr := by simp [Place.blocks]
  have hboundg := hl.bound (g.addr, headerSize) (by simp [regions])
  have hboundf := hi.bound (p.frag.addr, headerSize)
    (by simp [regions, Heap.fragments, Place.blocks, Place.fragmentList])
  have hperm := (p.insert_perm g fl).map addr
  have hsublist := ({ p with after := g :: p.after }.fragmentList_sublist fl).map addr
  have hsub := Subset.trans hsublist.subset hperm.subset
  have hnd := (hperm.nodup_iff.2 hl.nodup).sublist hsublist
  have hap := hl.block_cells_apart hblock hsub hnd
  have hlist := hi.lists _ p.block_mem
  have hm : m.Mapped (g.addr + blockLink) 16 := fun b hb hb' =>
    hmapped b (by omega) (by unfold blockLink headerSize at *; omega)
  -- The cell of the fragment at the place is the one behind it and those in front.
  set ys := (p.before.reverse ++ [p.frag]).map addr with hys
  have hend : endCell blockLink (p.block.addr + 8) ys = p.frag.addr + blockLink := by
    rw [hys, map_append, endCell_append]
    rfl
  have hchain : { p with after := g :: p.after }.fragmentList.map addr =
      ys ++ g.addr :: p.after.map addr := by
    simp [hys, Place.fragmentList]
  have hlist : IsList blockLink m (p.block.addr + 8) (ys ++ p.after.map addr) := by
    simpa [hys, Place.fragmentList] using hlist
  rw [hchain] at hap
  obtain ⟨m', hinsert, hlist', hch⟩ := insertAt_spec hlist (hl.ne_zero _ mem_cons_self)
    (by unfold blockLink headerSize at *; omega)
    (by rw [hend]; unfold blockLink headerSize at *; omega) hm hap
  rw [← hchain] at hch hlist'
  have hdis : ∀ b, b ∈ p.left ∨ b ∈ p.right →
      ({ p with after := g :: p.after }.fragmentList.map addr).Disjoint
        (b.fragmentList.map addr) := by
    intro b hb
    have hbs : { p with after := g :: p.after }.blocks.map Block.addr =
        p.blocks.map Block.addr := by simp [Place.blocks]
    exact (Place.other_blocks (hbs ▸ hi.nodup_blocks) (hperm.nodup_iff.2 hl.nodup) hb).2
  have hfs : ∀ f ∈ { p with after := g :: p.after }.fragmentList, HasHeader m f := by
    intro f hf
    have hf' := (p.insert_perm g fl).subset
      (({ p with after := g :: p.after }.fragmentList_sublist fl).subset hf)
    rcases mem_cons.1 hf' with rfl | hf'
    · exact ⟨hflags, hsize, hmapped⟩
    · exact hi.header hf'
  refine ⟨m', by rw [insertAfter, ← hend]; exact hinsert, ?_⟩
  exact hi.setBlock hl hsub (subset_cons_self _ _) hperm.subperm hdis hch hlist' hfs
    (Subset.trans (Subset.trans hi.free_subset (subset_cons_self _ _))
      hperm.symm.subset)

/-- The flags of one fragment are stored. -/
theorem setFlags {f : Fragment} (haddr : f.addr = p.frag.addr) (hsize : f.size < 2 ^ 62) : ∃ m',
      m.store p.frag.addr (flagsOf f) = some m' ∧
        Image freeList kept m' ⟨{ p with frag := f }.blocks, fl⟩ ∧ m.Changes keptᶜ m' := by
  have hold := p.fragments_perm fl
  have hmem : p.frag ∈ (Heap.mk p.blocks fl).fragments := hold.mem_iff.2 mem_cons_self
  have hnew := { p with frag := f }.fragments_perm fl
  have hbs : { p with frag := f }.blocks.map Block.addr = p.blocks.map Block.addr := by
    simp [Place.blocks]
  have hfs : (Heap.mk { p with frag := f }.blocks fl).fragments.map addr =
      (Heap.mk p.blocks fl).fragments.map addr := by
    simp [Heap.fragments, Place.blocks, Place.fragmentList, haddr]
  obtain ⟨m', hstore, hload, hother, hch⟩ := store_cell [p.frag.addr]
    (Memory.mapped_of_load (hi.flags _ hmem)) (flagsOf_lt hsize) (mem_singleton_self _)
  have hkind : m.Changes (kindSpan freeList (p.blocks.map Block.addr) _ .flags) m' :=
    hch.mono (Layout.span_subset fun c hc => by
      rw [mem_singleton.1 hc]
      exact Layout.isCell_flags (mem_map_of_mem hmem))
  have hblocks : ∀ b ∈ { p with frag := f }.blocks, ∃ c ∈ p.blocks, c.addr = b.addr ∧
      c.size = b.size ∧ c.fragmentList.map addr = b.fragmentList.map addr := by
    intro b hb
    rcases mem_blocks_of_other hb with rfl | hb
    · exact ⟨{ p.block with fragmentList := p.fragmentList }, by simp [Place.blocks], rfl, rfl,
        by simp [Place.fragmentList, haddr]⟩
    · exact ⟨b, other_mem hb, rfl, rfl, rfl⟩
  have hall : ∀ g ∈ (Heap.mk { p with frag := f }.blocks fl).fragments, HasHeader m' g := by
    intro g hg
    unfold HasHeader
    rw [hch.mapped_iff]
    rcases mem_cons.1 (hnew.subset hg) with rfl | hg
    · rw [haddr, hload]
      exact ⟨rfl, hsize, hi.mapped _ hmem⟩
    · have hg' := hold.mem_iff.2 (mem_cons_of_mem _ hg)
      rw [hother g.addr]
      · exact hi.header hg'
      have := hi.fragment_apart (mem_map_of_mem hmem) (mem_map_of_mem hg')
        fun heq => hi.frag_notMem_others (heq ▸ mem_map_of_mem hg)
      unfold headerSize at this
      unfold Apart
      omega
  refine ⟨m', hstore, ⟨by rw [hbs, hfs]; exact hi.toLayout, fun g hg => (hall g hg).1,
    fun g hg => (hall g hg).2.1, fun g hg => (hall g hg).2.2, fun b hb => ?_, fun b hb => ?_, ?_,
    hi.nodup_free, hfs ▸ hi.free_subset⟩, hi.changes_kept hkind⟩
  · obtain ⟨c, hc, haddr', hsize', -⟩ := hblocks b hb
    rw [← haddr', ← hsize', hi.load_other (by decide)
      (Layout.isCell_size (mem_map_of_mem hc)) hkind, hi.sizes c hc]
  · obtain ⟨c, hc, haddr', -, hlist'⟩ := hblocks b hb
    rw [← haddr', ← hlist']
    exact (hi.lists c hc).transport fun d hd => hi.load_other (by decide)
      (Layout.isCell_block (mem_map_of_mem hc) (fragments_subset hc) hd) hkind
  · exact hi.free.transport fun c hc => hi.load_other (by decide)
      (Layout.isCell_free hi.free_subset hc) hkind

end

end Block

/-- What has the same bytes in its headers has the same image. -/
theorem of_agree (hi : Image freeList kept m h) {h' : Heap} (hblocks : h'.blocks.Sublist h.blocks)
    (hfree : h'.freeList = h.freeList) (hfl : h'.freeList ⊆ h'.fragments.map addr)
    (hag : ∀ r ∈ regions freeList (h'.blocks.map Block.addr) (h'.fragments.map addr),
      ∀ a, r.1 ≤ a → a < r.1 + r.2 → m' a = m a) : Image freeList kept m' h' := by
  have hfs : h'.fragments.Sublist h.fragments := hblocks.flatMap _
  have hcell : ∀ {k c}, IsCell freeList (h'.blocks.map Block.addr)
      (h'.fragments.map addr) k c → m'.load c = m.load c := by
    rintro k c ⟨r, hr, i, hi, rfl⟩
    have := k.offset_le _ hi
    rw [Memory.load, Memory.load, Memory.bytes_congr fun a ha ha' =>
      hag r hr a (by omega) (by simp only at *; omega)]
  refine ⟨hi.subperm (hblocks.map _) (hfs.map _).subperm, fun f hf => ?_,
    fun f hf => hi.size_lt f (hfs.subset hf), fun f hf a ha ha' => ?_, fun b hb => ?_,
    fun b hb => ?_, ?_, hfree ▸ hi.nodup_free, hfl⟩
  · rw [hcell (Layout.isCell_flags (mem_map_of_mem hf)), hi.flags f (hfs.subset hf)]
  · rw [hag (f.addr, headerSize) (Layout.fragment_mem (mem_map_of_mem hf)) a ha ha']
    exact hi.mapped f (hfs.subset hf) a ha ha'
  · rw [hcell (Layout.isCell_size (mem_map_of_mem hb)), hi.sizes b (hblocks.subset hb)]
  · exact (hi.lists b (hblocks.subset hb)).transport fun c hc =>
      hcell (Layout.isCell_block (mem_map_of_mem hb) (fragments_subset hb) hc)
  · rw [hfree] at hfl ⊢
    exact hi.free.transport fun c hc => hcell (Layout.isCell_free hfl hc)

theorem of_changes (hi : Image freeList kept m h) {s : Set ℕ} (hch : m.Changes s m')
    (hs : ∀ r ∈ regions freeList (h.blocks.map Block.addr) (h.fragments.map addr),
      ∀ a, r.1 ≤ a → a < r.1 + r.2 → a ∉ s) : Image freeList kept m' h :=
  hi.of_agree (Sublist.refl _) rfl hi.free_subset fun r hr a ha ha' =>
    hch.outside a (hs r hr a ha ha')

end Image

end Darling.XtraceMalloc
