import Darling.Proofs.XtraceRelease

/-!
# `xtrace_realloc` in memory

Shrinking, growing into the free fragments behind, and moving: in each case the bytes of the
fragment that stay are among those that no header is written to.
-/

namespace Darling.XtraceMalloc

open Queue Xtrace List
open Fragment (addr)
open Place (mem_liveFragments fragmentList)
open Option (bind_some bind_eq_bind pure_def getD_some)

variable {freeList : ℕ} {kept : Set ℕ} {m : Memory} {h : Heap} {p : Place} {fl : List ℕ}
  {n fuel : ℕ}

section Viable

def viableRepr : Option (Place × ℕ) → ℕ × ℕ
  | none => (0, 0)
  | some v => (v.1.frag.addr, v.2)

def viableStep (h : Heap) (requiredSize : ℕ) (viable : Option (Place × ℕ)) (addr : ℕ) :
    Option (Place × ℕ) :=
  match h.locate addr with
  | none => viable
  | some p =>
    if requiredSize < p.frag.size ∧ (∀ v ∈ viable, p.frag.size < v.2) then some (p, p.frag.size)
    else viable

theorem viableLoop_spec (hok : h.Ok) (hi : Image freeList kept m h) :
    ∀ {xs ys : List ℕ} {best : Option (Place × ℕ)}, h.freeList = ys ++ xs → xs.length < fuel →
      (∀ v ∈ best, v.1.frag ∈ h.fragments) →
      viableLoop m n fuel (xs.headD 0) (viableRepr best) =
        some (viableRepr (xs.foldl (viableStep h n) best)) := by
  induction fuel with
  | zero => exact fun _ hlt => absurd hlt (Nat.not_lt_zero _)
  | succ fuel ih =>
    intro xs ys best hsplit hlt hbest
    cases xs with
    | nil => rfl
    | cons x xs =>
      have hx : x ∈ h.freeList := by simp [hsplit]
      obtain ⟨f, hf, rfl⟩ := mem_map.1 (hi.free_subset hx)
      obtain ⟨p, hp, hblocks, rfl⟩ := hok.locate hf
      have hlist := hi.free
      rw [hsplit] at hlist
      have hstep : (if n < p.frag.size ∧ ((viableRepr best).1 = 0 ∨
        p.frag.size < (viableRepr best).2)
          then (p.frag.addr, p.frag.size) else viableRepr best) =
          viableRepr (viableStep h n best p.frag.addr) := by
        have hcond : ((viableRepr best).1 = 0 ∨ p.frag.size < (viableRepr best).2) ↔
            ∀ v ∈ best, p.frag.size < v.2 := by
          cases best with
          | none => simp [viableRepr]
          | some v => simp [viableRepr, hi.ne_zero _ (mem_map_of_mem (hbest v rfl))]
        simp only [hcond, viableStep, hp]
        split_ifs <;> rfl
      have hbest' : ∀ v ∈ viableStep h n best p.frag.addr, v.1.frag ∈ h.fragments := by
        intro v hv
        simp only [viableStep, hp] at hv
        split_ifs at hv
        · cases hv
          exact hf
        · exact hbest v hv
      simp only [viableLoop, headD_cons, if_neg (hi.ne_zero _ (mem_map_of_mem hf)), hi.size_eq hf,
        bind_eq_bind, bind_some, hstep, next_eq hlist, foldl_cons]
      exact ih (show h.freeList = (ys ++ [p.frag.addr]) ++ xs by simp [hsplit])
        (by simpa using hlt) hbest'

end Viable

variable {n : ℕ}

section Take

theorem takeFragment_spec (hs : Stored freeList kept m ⟨p.blocks, fl⟩) (hu : p.frag.inUse = false)
    (hn : n ≤ p.frag.size) (hkept : ∀ a ∈ kept,
      a < p.frag.addr + headerSize + n ∨ p.frag.addr + p.frag.length ≤ a) : ∃ m',
      takeFragment freeList m p.frag.addr n = some (m', p.frag.addr) ∧
        Stored freeList kept m' (Xtrace.takeFragment p fl n).1 ∧ m.Changes keptᶜ m' := by
  obtain ⟨m1, hshrink, hs1, hch1⟩ := shrinkFragment_spec hs hn hkept
  have hr := shrinkFragment_resizes hs.ok hn
  have hregions : (Xtrace.takeFragment p fl n).1.regions = _ := (takeFragment_regions n).1
  set r := Xtrace.shrinkFragment p fl n
  have hur : r.1.frag.inUse = false := hr.inUse.trans hu
  have hmem := frag_mem r.1 r.2
  have hsize := hs1.image.size_lt _ hmem
  obtain ⟨m2, hset, hi2, hch2⟩ := hs1.image.setFlags
    (f := { r.1.frag with inUse := true }) rfl hsize
  obtain ⟨m3, hremove, hi3, hch3⟩ := hi2.removeFree (mem_freeList hs1.ok hur)
  have hch := (hch1.trans hch2).trans hch3
  refine ⟨m3, ?_, hs.edit (take_keeps hs1.ok hur).ok hi3 hregions hch, hch⟩
  rw [← setInUse_eq (hs1.image.flags _ hmem) hsize, hr.addr] at hset
  rw [hr.addr] at hremove
  simp [takeFragment, hshrink, hset, hremove]

end Take

variable {m' : Memory} {base size : ℕ}

section NewBlock

def baseFragment (base size : ℕ) : Fragment :=
  { Fragment.init (base + fragmentOffset) size with isMmapBase := true }

theorem blockInit_spec (hm : m.Mapped base blockSize) (hsize : size < 2 ^ 64)
    (hbase : base + blockSize ≤ 2 ^ 64) : ∃ m', blockInit m base size = some m' ∧
      m'.load base = some size ∧ IsList blockLink m' (base + 8) [base + fragmentOffset] ∧
      m'.load (base + fragmentOffset) = some (flagsOf (baseFragment base size)) ∧
      m.Changes (Set.Ico base (base + blockSize)) m' := by
  have hsizes := sizes_eq
  obtain ⟨m1, hs1, hl1, -, hch1⟩ := store_header (i := 0) hm hsize (by decide)
  rw [Nat.add_zero] at hs1 hl1
  obtain ⟨m2, hs2, hl2, ho2, hch2⟩ := store_header (i := 8) (x := 0)
    (hch1.mapped_iff.2 hm) (by decide) (by decide)
  have hm2 : m2.Mapped (base + fragmentOffset) headerSize := fun a ha ha' =>
    (hch1.trans hch2).mapped_iff.2 hm a (by omega) (by omega)
  obtain ⟨m3, hinit, hl3, hch3⟩ := fragmentInit_spec hm2 size
  have hch3' := hch3.mono (t := Set.Ico base (base + blockSize)) fun a ⟨hle, hlt⟩ =>
    ⟨by omega, by omega⟩
  have hm3 := ((hch1.trans hch2).trans hch3').mapped_iff.2 hm
  have hflags := flagsOf_lt (f := baseFragment base size) (Nat.mod_lt _ (by omega))
  obtain ⟨m4, hs4, hl4, ho4, hch4⟩ := store_header (i := fragmentOffset) hm3 hflags (by decide)
  have hch := ((hch1.trans hch2).trans hch3').trans hch4
  have hbelow : ∀ a, base ≤ a → a + 8 ≤ base + fragmentOffset → m4.load a = m2.load a := by
    intro a ha ha'
    rw [ho4 a (.inr ha'), hch3.load fun b hb hb' ⟨hle, _⟩ => by omega]
  have hcells : ∀ c ∈ cells blockLink (base + 8) [base + fragmentOffset],
      c = base + 8 ∨ c = base + 24 ∨ c = base + 32 := by
    intro c hc
    simp only [cells, links, flatMap_cons, flatMap_nil, mem_cons, append_nil,
      not_mem_nil, or_false, blockLink, fragmentOffset] at hc
    omega
  have hlist : IsList blockLink m4 (base + 8) [] := by
    refine ⟨trivial, ?_⟩
    rw [endCell, hbelow _ (by omega) (by omega), hl2]
  obtain ⟨m5, hinsert, hlist5, hch5⟩ := insertAt_front hlist (x := base + fragmentOffset)
    (by omega) (by omega) (by omega)
    (fun a ha ha' => hch.mapped_iff.2 hm a (by omega) (by omega))
    (by simp [cells, links, Apart, blockLink, fragmentOffset])
  refine ⟨m5, ?_, ?_, hlist5, ?_, hch.trans (hch5.mono ?_)⟩
  · have hset : setIsMmapBase m3 (base + fragmentOffset) true = some m4 :=
      (setIsMmapBase_eq (f := Fragment.init (base + fragmentOffset) size) hl3
        (Nat.mod_lt _ (by omega))).trans hs4
    simp [blockInit, insertHead, hs1, hs2, hinit, hset, hinsert]
  · rw [load_of_changes hch5 fun c hc => by
        rcases hcells c hc with rfl | rfl | rfl <;> exact .inr (by omega),
      hbelow base le_rfl (by omega), ho2 base (.inr (by omega)), hl1]
  · rw [load_of_changes hch5 fun c hc => by
        unfold Apart
        rcases hcells c hc with rfl | rfl | rfl <;> omega, hl4]
  · rintro a ⟨c, hc, hle, hlt⟩
    rcases hcells c hc with rfl | rfl | rfl <;> exact ⟨by omega, by omega⟩

theorem regions_outside (hok : h.Ok) (hfree : freeList + 8 ≤ base ∨ base + n ≤ freeList)
    (hapart : ∀ b ∈ h.blocks, base + n ≤ b.addr ∨ b.stop ≤ base) :
    ∀ r ∈ regions freeList (h.blocks.map Block.addr) (h.fragments.map addr),
      r.1 + r.2 ≤ base ∨ base + n ≤ r.1 := by
  intro r hr
  rcases region_inside hok hr with rfl | ⟨b, hb, hle, hstop⟩
  · simp only
    omega
  · have := hapart b hb
    omega

theorem newBlock_image (hi : Image freeList kept m' h)
    (hout : ∀ r ∈ regions freeList (h.blocks.map Block.addr) (h.fragments.map addr),
      r.1 + r.2 ≤ base ∨ base + (blockSize + size) ≤ r.1)
    (hkept : ∀ a ∈ kept, a < base ∨ base + (blockSize + size) ≤ a)
    (hbound : base + (blockSize + size) ≤ 2 ^ 62) (hsize : m'.load base = some size)
    (hlist : IsList blockLink m' (base + 8) [base + fragmentOffset])
    (hflags : m'.load (base + fragmentOffset) = some (flagsOf (baseFragment base size)))
    (hm : m'.Mapped base blockSize) :
    Image freeList kept m' ⟨(newBlock h base size).blocks, h.freeList⟩ := by
  have hsizes := sizes_eq
  have haddr : (newBlock h base size).frag.addr = base + fragmentOffset := rfl
  have hall : ∀ f ∈ (Heap.mk (newBlock h base size).blocks h.freeList).fragments,
      HasHeader m' f := by
    intro f hf
    rcases mem_cons.1 hf with rfl | hf
    · exact ⟨hflags, Nat.mod_lt _ (by omega), fun a ha ha' => hm a (by omega) (by omega)⟩
    · exact hi.header hf
  have hl : Layout freeList kept (base :: h.blocks.map Block.addr)
      ((base + fragmentOffset) :: h.fragments.map addr) := by
    have hblock := hi.toLayout.consBlock (b := base)
      (fun r hr => by have := hout r hr; unfold RegionApart; simp only; omega)
      (fun a ha => by have := hkept a ha; omega) (by omega)
    refine hblock.cons (fun r hr => ?_) (fun a ha => ?_) ?_ ?_
    · simp only [regions, map_cons, cons_append, mem_cons] at hr
      unfold RegionApart
      rcases hr with rfl | rfl | hr
      · have := hout (freeList, 8) (by simp [regions])
        omega
      · exact .inr (by simp only; omega)
      · have := hout r (mem_cons_of_mem _ hr)
        omega
    · have := hkept a ha
      omega
    · omega
    · omega
  refine ⟨hl, fun f hf => (hall f hf).1, fun f hf => (hall f hf).2.1, fun f hf => (hall f hf).2.2,
    fun b hb => ?_, fun b hb => ?_, hi.free, hi.nodup_free,
    Subset.trans hi.free_subset (subset_cons_self _ _)⟩
  · rcases mem_cons.1 hb with rfl | hb
    · exact hsize
    · exact hi.sizes b hb
  · rcases mem_cons.1 hb with rfl | hb
    · exact hlist
    · exact hi.lists b hb

theorem newBlock_spec (hs : Stored freeList kept m h) (hn : n < 2 ^ 64) (hf : Fresh h n base)
    (hfree : freeList + 8 ≤ base ∨ base + roundUp n blockSizeMultiple ≤ freeList)
    (hkept : ∀ a ∈ kept, a < base ∨ base + roundUp n blockSizeMultiple ≤ a) : ∃ m1 m2,
      blockInit (m.map base (roundUp n blockSizeMultiple)) base
        (roundUp n blockSizeMultiple - blockSize) = some m1 ∧
      insertHead freeLink m1 freeList (base + fragmentOffset) = some m2 ∧
      Stored freeList kept m2
        ⟨(newBlock h base (roundUp n blockSizeMultiple - blockSize)).blocks,
          (newBlock h base (roundUp n blockSizeMultiple - blockSize)).frag.addr :: h.freeList⟩ ∧
      ∀ a ∈ kept, m2 a = m a := by
  have hlt := hf.blockSize_le hn
  have hle := hf.le
  obtain ⟨size, hsize⟩ : ∃ size, roundUp n blockSizeMultiple = blockSize + size :=
    ⟨_, (Nat.add_sub_cancel' hlt.le).symm⟩
  have hapart := hf.apart
  rw [hsize] at hfree hkept hle hapart ⊢
  rw [Nat.add_sub_cancel_left]
  have hout := regions_outside hs.ok hfree hapart
  have hm0 : (m.map base (blockSize + size)).Mapped base blockSize := fun a ha ha' => by
    rw [m.map_inside ⟨ha, by omega⟩]
    rfl
  obtain ⟨m1, hinit, hload, hlist, hflags, hch1⟩ := blockInit_spec hm0
    (show size < 2 ^ 64 by omega)
    (by omega)
  have hagree : ∀ a, ¬ (base ≤ a ∧ a < base + (blockSize + size)) → m1 a = m a := fun a ha => by
    rw [hch1.outside a fun ⟨h1, h2⟩ => ha ⟨h1, by omega⟩, m.map_outside ha]
  have hi1 : Image freeList kept m1 h := hs.image.of_agree (Sublist.refl _) rfl
    hs.image.free_subset fun r hr a ha ha' => hagree a (by have := hout r hr; omega)
  have hnew := newBlock_image hi1 hout hkept hle hload hlist hflags (hch1.mapped_iff.2 hm0)
  obtain ⟨hok, -⟩ := newBlock_ok hs.ok (show base + blockSize + size ≤ 2 ^ 62 by omega)
    fun b hb => by have := hapart b hb; omega
  have hfresh : base + fragmentOffset ∉ h.freeList := fun hmem =>
    (nodup_cons.1 hnew.nodup).1 (hi1.free_subset hmem)
  obtain ⟨m2, hinsert, hi2, hch2⟩ := hnew.insertFree
    mem_cons_self hfresh
  refine ⟨m1, m2, hinit, hinsert, ⟨hok, hi2, fun r hr => ?_, fun r hr a ha ha' => ?_⟩,
    fun a ha => ?_⟩
  · rcases mem_cons.1 hr with rfl | hr
    · unfold Block.stop
      simp only [newBlock]
      omega
    · exact hs.outside r hr
  · rw [hch2.mapped]
    rcases mem_cons.1 hr with rfl | hr
    · have hin : base ≤ a ∧ a < base + (blockSize + size) :=
        ⟨ha, by unfold Block.stop at ha'; simp only [newBlock] at ha'; omega⟩
      rw [hch1.mapped, m.map_inside hin]
      rfl
    · obtain ⟨b, hb, rfl⟩ := mem_map.1 hr
      have := hapart b hb
      rw [hagree a (by simp only at *; omega)]
      exact hs.mapped _ hr a ha ha'
  · rw [hch2.outside a (fun hc => hc ha), hagree a (by have := hkept a ha; omega)]

end NewBlock

variable {mmap : Option ℕ} {fuel : ℕ}

section Allocate

/-- `mmap` returns a region of its own, which was not mapped. -/
structure MapsFresh (m : Memory) (h : Heap) (n base : ℕ) : Prop extends Fresh h n base where
  unmapped : ∀ a, base ≤ a → a < base + roundUp n blockSizeMultiple → m a = none

theorem MapsFresh.apart_of_mapped {c k : ℕ} (hf : MapsFresh m h n base) (hm : m.Mapped c k)
    (hk : 0 < k) : c + k ≤ base ∨ base + roundUp n blockSizeMultiple ≤ c := by
  by_contra hover
  push Not at hover
  -- The larger of the two starts is in both.
  have hpos := hf.pos
  have hsome := hm (max c base) (le_max_left _ _) (by omega)
  rw [hf.unmapped (max c base) (le_max_right _ _) (by omega)] at hsome
  cases hsome

def Allocates (freeList : ℕ) (kept : Set ℕ) (fuel : ℕ) (m m' : Memory) (h : Heap) (n : ℕ)
    (mmap : Option ℕ) : Prop :=
  allocateFragment freeList fuel m n mmap =
      some (m', (Xtrace.allocateFragment h n mmap).2.getD 0) ∧
    Stored freeList kept m' (Xtrace.allocateFragment h n mmap).1 ∧ (∀ a ∈ kept, m' a = m a) ∧
    ((Xtrace.allocateFragment h n mmap).2 = none → m' = m)

section

variable (hs : Stored freeList kept m h) (hfuel : h.freeList.length < fuel)

include hs hfuel

theorem viableLoop_eq : viableLoop m n fuel (h.freeList.headD 0) (0, 0) =
    some (viableRepr (viableFragment h n)) :=
  (viableLoop_spec hs.ok hs.image (nil_append _).symm hfuel nofun :
    viableLoop m n fuel _ (viableRepr none) = _)

theorem allocates_nothing (hv : viableFragment h n = none) :
    Allocates freeList kept fuel m m h n none := by
  have hloop := viableLoop_eq hs hfuel (n := n)
  rw [hv] at hloop
  refine ⟨?_, ?_, fun _ _ => rfl, fun _ => rfl⟩
  · simp only [allocateFragment, Xtrace.allocateFragment, hs.image.free.load_cell, hloop, hv,
      bind_eq_bind, bind_some, viableRepr, ne_eq, not_true_eq_false, if_false,
      Option.getD_none, Option.pure_def]
  · simp only [Xtrace.allocateFragment, hv]
    exact hs

theorem exists_allocates_block (hn : n < 2 ^ 64) (hfresh : MapsFresh m h n base)
    (hv : viableFragment h n = none) (hroom : n + blockSize ≤ roundUp n blockSizeMultiple)
    (hbounds : ∀ a ∈ kept, ∃ b ∈ h.blocks, b.addr ≤ a ∧ a < b.stop) :
    ∃ m', Allocates freeList kept fuel m m' h n (some base) := by
  have hloop := viableLoop_eq hs hfuel (n := n)
  rw [hv] at hloop
  have hhead := hs.image.free.load_cell
  have hlt := hfresh.blockSize_le hn
  have hle := hfresh.le
  have hfree := hfresh.apart_of_mapped (Memory.mapped_of_load hhead) (by omega)
  have hwsub := hfresh.wsub_eq hn
  have hapart : ∀ a ∈ kept, a < base ∨ base + roundUp n blockSizeMultiple ≤ a := fun a ha => by
    obtain ⟨b, hb, hle, hlt⟩ := hbounds a ha
    have := hfresh.apart b hb
    omega
  obtain ⟨m1, m2, hinit, hinsert, hs2, hkeep⟩ := newBlock_spec hs hn hfresh.toFresh hfree hapart
  have hsizes := sizes_eq
  set q := newBlock h base (roundUp n blockSizeMultiple - blockSize) with hq
  have hsize : q.frag.size = roundUp n blockSizeMultiple - blockSize :=
    Nat.mod_eq_of_lt (by omega)
  have hbase : q.frag.addr = base + fragmentOffset := rfl
  obtain ⟨m3, htake, hs3, hch3⟩ := takeFragment_spec hs2 rfl (n := n) (by rw [hsize]; omega)
    fun a ha => by
      have := hapart a ha
      unfold Fragment.length
      rw [hbase, hsize]
      omega
  have haddr : (Xtrace.takeFragment q (q.frag.addr :: h.freeList) n).2 = _ :=
    (takeFragment_regions n).2
  have hresult : Xtrace.allocateFragment h n (some base) =
      ((Xtrace.takeFragment q (q.frag.addr :: h.freeList) n).1, some (base + fragmentOffset)) := by
    rw [hbase] at haddr
    simp only [Xtrace.allocateFragment, hv, hwsub, ← hq, hbase, haddr]
  unfold Allocates
  rw [hresult]
  refine ⟨m3, ?_, hs3, fun a ha => ?_, fun hnone => by cases hnone⟩
  · rw [hbase] at htake
    simp only [allocateFragment, hhead, hloop, viableRepr, bind_eq_bind, bind_some,
      ne_eq, not_true_eq_false, if_false, hwsub, hinit, hinsert, htake, getD_some]
  · rw [hch3.outside a (fun hc => hc ha), hkeep a ha]

variable
  (hkept : ∀ a ∈ kept, ∃ f ∈ h.liveFragments, f.addr + headerSize ≤ a ∧ a < f.addr + f.length)

include hkept

theorem exists_allocates_viable {p : Place} (hv : viableFragment h n = some (p, size)) :
    ∃ m', Allocates freeList kept fuel m m' h n mmap := by
  have hloop := viableLoop_eq hs hfuel (n := n)
  rw [hv] at hloop
  have hhead := hs.image.free.load_cell
  obtain ⟨x, hx, hp, hlt⟩ := viableFragment_some hv
  dsimp only at hp hlt
  obtain ⟨hblocks, haddr⟩ := Heap.locate_some hp
  have hmem : p.frag ∈ h.fragments := Place.frag_mem_fragments hblocks
  have hu : p.frag.inUse = false := hs.ok.inUse_of_mem_freeList hmem (haddr ▸ hx)
  have hne := hs.image.ne_zero _ (mem_map_of_mem hmem)
  obtain ⟨blocks, fl⟩ := h
  subst hblocks
  obtain ⟨m1, htake, hs1, hch1⟩ := takeFragment_spec hs hu hlt.le fun a ha => by
    obtain ⟨f, hf, hle, hlt'⟩ := hkept a ha
    obtain ⟨hf, huf⟩ := mem_filter.1 hf
    have hap := hs.ok.fragments_apart.forall hf hmem (by rintro rfl; simp [hu] at huf)
    unfold Fragment.Apart at hap
    omega
  have hresult : Xtrace.allocateFragment ⟨p.blocks, fl⟩ n mmap =
      ((Xtrace.takeFragment p fl n).1, some p.frag.addr) := by
    simp only [Xtrace.allocateFragment, hv]
    rw [(takeFragment_regions n).2]
  unfold Allocates
  rw [hresult]
  refine ⟨m1, ?_, hs1, fun a ha => hch1.outside a (fun hc => hc ha), fun hnone => by cases hnone⟩
  simp only [allocateFragment, hhead, hloop, viableRepr, bind_eq_bind, bind_some,
    ne_eq, hne, not_false_eq_true, if_true, htake, getD_some]

variable (hn : n < 2 ^ 64) (hf : ∀ base, mmap = some base → MapsFresh m h n base)
  (hroom : viableFragment h n = none → mmap.isSome → n + blockSize ≤ roundUp n blockSizeMultiple)

include hn hf hroom

theorem allocateFragment_spec : ∃ m', Allocates freeList kept fuel m m' h n mmap := by
  rcases hv : viableFragment h n with _ | ⟨p, size⟩
  · rcases mmap with _ | base
    · exact ⟨m, allocates_nothing hs hfuel hv⟩
    · refine exists_allocates_block hs hfuel hn (hf base rfl) hv (hroom hv rfl) fun a ha => ?_
      obtain ⟨f, hf, hle, hlt⟩ := hkept a ha
      obtain ⟨b, hb, hbounds⟩ := hs.ok.bounds (mem_filter.1 hf).1
      exact ⟨b, hb, by omega, by omega⟩
  · exact exists_allocates_viable hs hfuel hkept hv

/-- In memory `xtrace_malloc` does what it does to the heap, and no byte of a fragment handed out
changes. -/
theorem xtraceMalloc_refines : ∃ m', xtraceMalloc freeList fuel m n mmap =
      some (m', (Xtrace.xtraceMalloc h n mmap).2.getD 0) ∧
    Stored freeList kept m' (Xtrace.xtraceMalloc h n mmap).1 ∧ ∀ a ∈ kept, m' a = m a := by
  rcases eq_or_ne n 0 with rfl | hzero
  · exact ⟨m, rfl, hs, fun _ _ => rfl⟩
  obtain ⟨m', halloc, hs', hkeep, -⟩ := allocateFragment_spec hs hfuel hkept hn hf hroom
  rw [xtraceMalloc, Xtrace.xtraceMalloc, if_neg hzero, if_neg hzero, halloc]
  refine ⟨m', ?_, hs', hkeep⟩
  rcases Xtrace.allocateFragment_spec hs.ok hn (fun base hb => (hf base hb).toFresh) hroom with
    hnone | ⟨h', addr, hsome, hgives⟩
  · simp [hnone]
  · obtain ⟨g, hg, rfl, -⟩ := hgives.given
    rw [hsome] at hs'
    have hne := hs'.image.ne_zero _ (mem_map_of_mem (mem_filter.1 hg).1)
    simp [hsome, hne]

end

end Allocate

variable {g : Fragment}

section Expand

def endFrag (fragments : List Fragment) : Option ℕ → ℕ
  | none => 0
  | some count => ((fragments.drop count).map Fragment.addr).headD 0

theorem expandScan_eq (hi : Image freeList kept m h) (n : ℕ) {after : List Fragment} :
    ∀ {p : Place} {fuel available : ℕ}, p.blocks = h.blocks → p.after = after →
      after.length < fuel → available + (after.map Fragment.length).sum < 2 ^ 64 →
      expandScan m n fuel p.frag.addr available =
        some (endFrag (p.frag :: after) (Xtrace.expandScan n available after).1,
          (Xtrace.expandScan n available after).2) := by
  induction after with
  | nil =>
    intro p fuel available hp hafter hlt _
    obtain ⟨k, rfl⟩ : ∃ k, fuel = k + 1 := ⟨fuel - 1, by simp only [length_nil] at hlt; omega⟩
    obtain ⟨blocks, fl⟩ := h
    subst hp
    simp [expandScan, next_spec hi, hafter, Xtrace.expandScan, endFrag]
  | cons g after ih =>
    intro p fuel available hp hafter hlt hsum
    obtain ⟨k, rfl⟩ : ∃ k, fuel = k + 1 := ⟨fuel - 1, by simp only [length_cons] at hlt; omega⟩
    have hnext : Place.blocks { p with before := p.frag :: p.before, frag := g, after := after } =
        h.blocks := by
      rw [← hp]
      simp [Place.blocks, fragmentList, hafter]
    have hg : g ∈ h.fragments := Place.frag_mem_fragments hnext
    have hne := hi.ne_zero _ (mem_map_of_mem hg)
    simp only [map_cons, sum_cons, length_cons] at hsum hlt
    have hmod : (available + (g.size + headerSize)) % 2 ^ 64 = available + (g.size + headerSize) :=
      Nat.mod_eq_of_lt (by unfold Fragment.length at hsum; omega)
    have hrest : expandScan m n k g.addr (available + (g.size + headerSize)) = _ :=
      ih hnext rfl (by omega) (by unfold Fragment.length at *; omega)
    obtain ⟨blocks, fl⟩ := h
    subst hp
    simp only [expandScan, next_spec hi, hafter, map_cons, headD_cons, hne, hi.inUse_eq hg,
      hi.size_eq hg, hmod, bind_eq_bind, bind_some, if_false, Option.pure_def,
      Xtrace.expandScan]
    split_ifs with hu hle
    · rfl
    · rfl
    · refine hrest.trans ?_
      rcases (Xtrace.expandScan n (available + (g.size + headerSize)) after).1 <;> rfl

theorem absorbUntil_spec : ∀ {count : ℕ} {m : Memory} {p : Place} {fl : List ℕ},
    Stored freeList kept m ⟨p.blocks, fl⟩ → count ≤ p.after.length →
      (∀ f ∈ p.after.take count, f.inUse = false) → count < fuel → ∃ m',
        absorbUntil p.frag.addr (((p.after.drop count).map addr).headD 0) fuel m =
          some m' ∧
          Stored freeList kept m' ⟨(Xtrace.absorb count p fl).1.blocks,
            (Xtrace.absorb count p fl).2⟩ ∧
          m.Changes keptᶜ m' := by
  induction fuel with
  | zero => exact fun _ _ _ hlt => absurd hlt (Nat.not_lt_zero _)
  | succ fuel ih =>
    intro count m p fl hs hcount hfree hlt
    cases count with
    | zero =>
      refine ⟨m, ?_, hs, .refl _ m⟩
      simp [absorbUntil, next_spec hs.image]
    | succ count =>
      rcases ha : p.after with _ | ⟨g, after⟩
      · simp [ha] at hcount
      · rw [ha] at hcount hfree
        have hg : g.inUse = false := hfree g (by simp)
        have hmem : g ∈ (Heap.mk p.blocks fl).fragments :=
          others_mem fl (by simp [Place.others, ha])
        have hblocks : p.blocks =
            { p with before := p.frag :: p.before, frag := g, after := after }.blocks := by
          simp [Place.blocks, fragmentList, ha]
        have hne : g.addr ≠ ((after.drop count).map addr).headD 0 := by
          rcases hd : after.drop count with _ | ⟨e, rest⟩
          · exact hs.image.ne_zero _ (mem_map_of_mem hmem)
          · have he : e ∈ after := mem_of_mem_drop (hd ▸ mem_cons_self)
            intro heq
            have hi := hs.image
            rw [hblocks] at hi
            exact hi.frag_notMem_others
              (mem_map.2 ⟨e, by simp [Place.others, he], heq.symm⟩)
        obtain ⟨m1, habsorb, hi1, hch1⟩ := absorb_spec hs.image ha (mem_freeList_of hs.ok hmem hg)
        have hok : (Heap.mk (Xtrace.absorb 1 p fl).1.blocks (Xtrace.absorb 1 p fl).2).Ok :=
          (absorb_resizes hs.ok (by simp [ha]) (by simpa [ha] using hg)).ok
        simp only [Xtrace.absorb, ha] at hok ⊢
        have hs1 := hs.edit hok hi1 (Place.SameBlock.regions (p := p) (q := { p with
          frag := p.frag.setSize (p.frag.size + headerSize + g.size)
          after := after }) ⟨rfl, rfl, rfl⟩ _ _) hch1
        obtain ⟨m2, hrest, hs2, hch2⟩ := ih hs1 (by simpa using hcount)
          (fun f hf => hfree f (by simp [hf])) (by omega)
        refine ⟨m2, ?_, hs2, hch1.trans hch2⟩
        simp only [absorbUntil, next_spec hs.image, ha, map_cons, headD_cons,
          drop_succ_cons, if_neg hne, bind_eq_bind, bind_some, habsorb]
        exact hrest

theorem rest_apart (hok : Heap.Ok ⟨p.blocks, fl⟩) (hg : g ∈ p.rest) : Fragment.Apart p.frag g := by
  have hap := (p.fragments_perm fl).pairwise hok.fragments_apart Or.symm
  exact (pairwise_cons.1 hap).1 g (mem_filter.1 hg).1

theorem after_sum (hok : Heap.Ok ⟨p.blocks, fl⟩) :
    p.frag.size + (p.after.map Fragment.length).sum < 2 ^ 64 := by
  have hb := place_block_ok hok
  obtain ⟨mid, -, -, hafter⟩ := Tiles.append_iff.1 hb.tiles
  have hsum := hafter.sum
  have hstop := hb.stop_le
  unfold Fragment.length at hsum ⊢
  omega

variable {fuel n : ℕ}

theorem expandFragment_none (hs : Stored freeList kept m ⟨p.blocks, fl⟩)
    (hfuel : p.after.length < fuel) (hr : Xtrace.expandFragment p fl n = none) :
    expandFragment freeList fuel m p.frag.addr n = some (false, m) := by
  have hscan := expandScan_eq hs.image n rfl rfl hfuel (after_sum hs.ok)
  simp only [expandFragment, hs.image.size_eq (frag_mem p fl), hscan, bind_eq_bind, bind_some]
  refine if_neg fun ⟨hne, hle⟩ => ?_
  unfold Xtrace.expandFragment at hr
  rcases he : Xtrace.expandScan n p.frag.size p.after with ⟨_ | count, available⟩
  · simp [he, endFrag] at hne
  · simp only [he] at hr hle
    simp [hle] at hr

theorem expandFragment_some (hs : Stored freeList kept m ⟨p.blocks, fl⟩) (hlt : p.frag.size < n)
    (hfuel : p.after.length < fuel) (hkept : ∀ a ∈ kept, a < p.frag.addr + headerSize + n ∨
      ∃ g ∈ p.rest, g.addr ≤ a ∧ a < g.addr + g.length) {r : Place × List ℕ}
    (hr : Xtrace.expandFragment p fl n = some r) : ∃ m',
      expandFragment freeList fuel m p.frag.addr n = some (true, m') ∧
        Stored freeList kept m' ⟨r.1.blocks, r.2⟩ ∧ m.Changes keptᶜ m' := by
  have hscan := expandScan_eq hs.image n rfl rfl hfuel (after_sum hs.ok)
  unfold Xtrace.expandFragment at hr
  rcases he : Xtrace.expandScan n p.frag.size p.after with ⟨_ | count, available⟩
  · simp [he] at hr
  simp only [he] at hr hscan
  split_ifs at hr with hle
  cases hr
  obtain ⟨hlen, hfree, hsum⟩ := Xtrace.expandScan_spec hlt he hle
  -- The last of the fragments that are taken in.
  obtain ⟨e, hdrop⟩ : ∃ e, (p.frag :: p.after).drop count = e :: p.after.drop count := by
    refine ⟨(p.frag :: p.after).get ⟨count, by simpa using by omega⟩, ?_⟩
    exact drop_eq_getElem_cons _
  have hsplit : p.fragmentList.map addr =
      (p.before.reverse ++ (p.frag :: p.after).take count).map addr ++
        e.addr :: (p.after.drop count).map addr := by
    rw [← map_cons, ← hdrop, ← map_append, append_assoc, take_append_drop]
    rfl
  have hlist := hs.image.lists _ p.block_mem
  simp only [hsplit] at hlist
  have hne : e.addr ≠ 0 := by
    refine hs.image.ne_zero _ (mem_map_of_mem ((p.fragmentList_sublist fl).subset ?_))
    have : e ∈ (p.frag :: p.after).drop count := hdrop ▸ mem_cons_self
    exact mem_append_right _ (mem_of_mem_drop this)
  have hend : endFrag (p.frag :: p.after) (some count) = e.addr := by
    simp [endFrag, hdrop]
  obtain ⟨m1, habsorb, hs1, hch1⟩ := absorbUntil_spec hs hlen hfree
    (show count < fuel by omega)
  have ha := absorb_resizes hs.ok hlen hfree
  have hapart : ∀ g ∈ p.rest, Fragment.Apart (Xtrace.absorb count p fl).1.frag g := fun g hg =>
    rest_apart ha.ok (ha.rest.symm ▸ hg)
  obtain ⟨m2, hshrink, hs2, hch2⟩ := shrinkFragment_spec hs1
    ((hle.trans hsum.le).trans ha.size) fun a hmem => by
      rw [ha.addr]
      rcases hkept a hmem with hlt | ⟨g, hg, hge, hlt⟩
      · exact .inl hlt
      · have := hapart g hg
        unfold Fragment.Apart at this
        rw [ha.addr] at this
        omega
  refine ⟨m2, ?_, hs2, hch1.trans hch2⟩
  rw [ha.addr] at hshrink
  simp only [expandFragment, hs.image.size_eq (frag_mem p fl), hscan, hend, hne, hle, next_eq hlist,
    habsorb, hshrink, bind_eq_bind, bind_some, ne_eq, not_false_eq_true, and_self,
    if_true, Option.pure_def]

end Expand

/-- `xtrace_realloc` of the fragment `f` to `n` bytes: what is in the memory then. -/
structure Reallocated (freeList : ℕ) (m m' : Memory) (h h' : Heap) (f : Fragment) (n pointer : ℕ) :
    Prop where
  ok : h'.Ok
  inMemory : InMemory freeList m' h'
  given : ∃ g ∈ h'.liveFragments, g.addr + headerSize = pointer ∧ n ≤ g.size
  copied : ∀ i < min f.size n, m' (pointer + i) = m (f.addr + headerSize + i)
  others : ∀ g ∈ h.liveFragments, g ≠ f → g ∈ h'.liveFragments ∧ g.addr + headerSize ≠ pointer
  contents : ∀ g ∈ h.liveFragments, g ≠ f → ∀ a, g.addr + headerSize ≤ a → a < g.addr + g.length →
    m' a = m a
  live : ∀ g ∈ h'.liveFragments, g.addr + headerSize = pointer ∨ g ∈ h.liveFragments ∧ g ≠ f

section Resize

variable {n : ℕ}

def keptBytes (p : Place) (n : ℕ) : Set ℕ :=
  Place.payloads p ∪ { a | p.frag.addr + headerSize ≤ a ∧
    a < p.frag.addr + headerSize + min p.frag.size n }

theorem keptBytes_live (hu : p.frag.inUse = true) (fl : List ℕ) : ∀ a ∈ keptBytes p n,
    ∃ f ∈ (Heap.mk p.blocks fl).liveFragments, f.addr + headerSize ≤ a ∧ a < f.addr + f.length := by
  rintro a (⟨g, hg, hle, hlt⟩ | ⟨hle, hlt⟩)
  · exact ⟨g, mem_liveFragments.2 (.inl hg), hle, hlt⟩
  · exact ⟨p.frag, mem_liveFragments.2 (.inr ⟨rfl, hu⟩), hle, by unfold Fragment.length; omega⟩

theorem mem_rest_iff (hok : Heap.Ok ⟨p.blocks, fl⟩) :
    g ∈ p.rest ↔ g ∈ (Heap.mk p.blocks fl).liveFragments ∧ g ≠ p.frag := by
  refine ⟨fun hg => ⟨mem_liveFragments.2 (.inl hg), ?_⟩, fun ⟨hg, hne⟩ => ?_⟩
  · rintro rfl
    have := rest_apart hok hg
    unfold Fragment.Apart Fragment.length headerSize at this
    omega
  · rcases mem_liveFragments.1 hg with hg | ⟨rfl, -⟩
    · exact hg
    · exact absurd rfl hne

theorem reallocated_of_resizes (hok : Heap.Ok ⟨p.blocks, fl⟩)
    (hu : p.frag.inUse = true) {r : Place × List ℕ} (hr : Resizes p n r)
    (hs : Stored freeList kept m' ⟨r.1.blocks, r.2⟩) (hkeep : ∀ a ∈ keptBytes p n, m' a = m a) :
    Reallocated freeList m m' ⟨p.blocks, fl⟩ ⟨r.1.blocks, r.2⟩ p.frag n
      (p.frag.addr + headerSize) := by
  refine ⟨hs.ok, hs.inMemory, ⟨r.1.frag, mem_liveFragments.2 (.inr ⟨rfl, hr.inUse.trans hu⟩),
    by rw [hr.addr], hr.size⟩, fun i hi => hkeep _ (.inr ⟨by omega, by omega⟩), fun g hg hne => ?_,
    fun g hg hne a ha ha' => hkeep a (.inl ⟨g, (mem_rest_iff hok).2 ⟨hg, hne⟩, ha, ha'⟩),
    fun g hg => ?_⟩
  · have hrest := (mem_rest_iff hok).2 ⟨hg, hne⟩
    refine ⟨mem_liveFragments.2 (.inl (hr.rest ▸ hrest)), fun heq => ?_⟩
    have := rest_apart hok hrest
    unfold Fragment.Apart Fragment.length headerSize at *
    omega
  · rcases mem_liveFragments.1 hg with hg | ⟨rfl, -⟩
    · exact .inr ((mem_rest_iff hok).1 (hr.rest ▸ hg))
    · exact .inl (by rw [hr.addr])

end Resize

section Move

variable {n fuel : ℕ} {mmap : Option ℕ}

theorem takeFragment_length (p : Place) (fl : List ℕ) (n : ℕ) :
    (Xtrace.takeFragment p fl n).1.fragments.length ≤
      (Heap.mk p.blocks fl).fragments.length + 1 := by
  simp only [Xtrace.takeFragment, Xtrace.shrinkFragment]
  split_ifs
  · simp [Heap.fragments, Place.blocks, fragmentList]
    omega
  · simp [Heap.fragments, Place.blocks, fragmentList]

theorem takeFragment_live (hok : Heap.Ok ⟨p.blocks, fl⟩) (hn : n ≤ p.frag.size)
    (hg : g ∈ (Xtrace.takeFragment p fl n).1.liveFragments) :
    g ∈ (Heap.mk p.blocks fl).liveFragments ∨ g.addr = p.frag.addr := by
  have hr := shrinkFragment_resizes hok hn
  rcases mem_liveFragments.1 hg with hg | ⟨rfl, -⟩
  · exact .inl (mem_liveFragments.2 (.inl (hr.rest ▸ hg)))
  · exact .inr hr.addr

theorem allocateFragment_adds (hok : h.Ok) (hn : n < 2 ^ 64)
    (hf : ∀ base, mmap = some base → Fresh h n base)
    (hroom : viableFragment h n = none → mmap.isSome → n + blockSize ≤ roundUp n blockSizeMultiple)
    {h' : Heap} {addr : ℕ} (ha : Xtrace.allocateFragment h n mmap = (h', some addr)) :
    h'.fragments.length ≤ h.fragments.length + 2 ∧
      ∀ g ∈ h'.liveFragments, g ∈ h.liveFragments ∨ g.addr = addr := by
  unfold Xtrace.allocateFragment at ha
  rcases hv : viableFragment h n with _ | ⟨p, size⟩
  · rcases mmap with _ | base
    · simp [hv] at ha
    · have hfresh := hf base rfl
      have hlt := hfresh.blockSize_le hn
      have hle := hfresh.le
      have hapart := hfresh.apart
      have hroom := hroom hv rfl
      simp only [hv, hfresh.wsub_eq hn, Prod.mk.injEq, Option.some.injEq] at ha
      set q := newBlock h base (roundUp n blockSizeMultiple - blockSize) with hq
      obtain ⟨hokq, hsize⟩ := newBlock_ok hok
        (show base + blockSize + (roundUp n blockSizeMultiple - blockSize) ≤ 2 ^ 62 by omega)
        fun b hb => by have := hapart b hb; omega
      obtain ⟨rfl, rfl⟩ := ha
      refine ⟨(takeFragment_length _ _ _).trans ?_, fun g hg => ?_⟩
      · simp [hq, newBlock, Heap.fragments, Place.blocks, fragmentList]
      · rw [(takeFragment_regions n).2]
        rcases takeFragment_live hokq (by rw [hsize]; omega) hg with hg | hg
        · rcases mem_liveFragments.1 hg with hg | ⟨-, hu⟩
          · exact .inl (newBlock_rest h base _ ▸ hg)
          · cases hu
        · exact .inr hg
  · obtain ⟨x, -, hp, hlt⟩ := viableFragment_some hv
    obtain ⟨hblocks, -⟩ := Heap.locate_some hp
    dsimp only at hblocks hlt
    obtain ⟨blocks, fl⟩ := h
    subst hblocks
    simp only [hv, Prod.mk.injEq, Option.some.injEq] at ha
    obtain ⟨rfl, rfl⟩ := ha
    refine ⟨(takeFragment_length _ _ _).trans (by omega), fun g hg => ?_⟩
    rw [(takeFragment_regions n).2]
    exact takeFragment_live hok hlt.le hg

theorem mmap_failed (hnone : (Xtrace.allocateFragment h n mmap).2 = none) : mmap = none := by
  unfold Xtrace.allocateFragment at hnone
  split at hnone
  · cases hnone
  · split at hnone
    · rfl
    · cases hnone

theorem Stored.write (hs : Stored freeList kept m h) {s : Set ℕ}
    (hch : m.Changes s m') {f : Fragment} (hf : f ∈ h.fragments)
    (hsub : ∀ a ∈ s, f.addr + headerSize ≤ a ∧ a < f.addr + f.length) :
    Stored freeList kept m' h := by
  refine ⟨hs.ok, hs.image.of_changes hch fun r hr a ha ha' hmem => ?_, hs.outside,
    fun r hr a ha ha' => ?_⟩
  · have := payload_apart hs.ok hs.outside hf r hr
    have := hsub a hmem
    omega
  · rw [hch.mapped]
    exact hs.mapped r hr a ha ha'

theorem move_spec (hs : Stored freeList kept m h) {f g : Fragment} (hf : f ∈ h.liveFragments)
    (hg : g ∈ h.liveFragments) (hne : g ≠ f) (hsize : f.size ≤ g.size)
    (hfuel : h.fragments.length ≤ fuel) : ∃ m1 m2 h',
      m.memcpy (g.addr + headerSize) (f.addr + headerSize) f.size = some m1 ∧
        releaseFragment freeList fuel m1 f.addr = some m2 ∧ h'.Ok ∧ InMemory freeList m2 h' ∧
        (∀ x, x ∈ h'.liveFragments ↔ x ∈ h.liveFragments ∧ x ≠ f) ∧
        (∀ i < f.size, m2 (g.addr + headerSize + i) = m (f.addr + headerSize + i)) ∧
        ∀ x ∈ h.liveFragments, x ≠ f → x ≠ g → ∀ a, x.addr + headerSize ≤ a →
          a < x.addr + x.length → m2 a = m a := by
  obtain ⟨hfmem, hu⟩ := mem_filter.1 hf
  obtain ⟨hgmem, -⟩ := mem_filter.1 hg
  have hlen : ∀ x : Fragment, x.length = headerSize + x.size := fun _ => rfl
  have hmapped : ∀ x ∈ h.fragments, f.size ≤ x.size → m.Mapped (x.addr + headerSize) f.size :=
    fun x hx hle a ha ha' => hs.mapped_fragment hx a (by omega) (by have := hlen x; omega)
  obtain ⟨m1, hcopy, hcopied, hch⟩ := Memory.memcpy_spec (hmapped g hgmem hsize)
    (hmapped f hfmem le_rfl)
  have hs1 := hs.write hch hgmem fun a ha => ⟨ha.1, by have := ha.2; have := hlen g; omega⟩
  obtain ⟨p, -, hblocks, rfl⟩ := hs.ok.locate hfmem
  obtain ⟨blocks, fl⟩ := h
  subst hblocks
  have hs2 : Stored freeList (Place.payloads p) m1 ⟨p.blocks, fl⟩ :=
    hs1.inMemory.stored hs.ok fun a ha => by
      obtain ⟨x, hx, hle, hlt⟩ := ha
      exact ⟨x, rest_subset fl hx, hle, hlt⟩
  have hneigh : p.neighbours < fuel := by
    have := (p.fragmentList_sublist fl).length_le
    simp only [fragmentList, length_append, length_reverse, length_cons] at this
    unfold Place.neighbours
    omega
  obtain ⟨m2, hrelease, hs', hkeep, -⟩ := releaseFragment_spec hs2 hu hneigh fun a ha => by
    obtain ⟨x, hx, hle, hlt⟩ := ha
    exact ⟨x, hx, by omega, hlt⟩
  have hrest : ∀ x, x ∈ p.rest ↔ x ∈ (Heap.mk p.blocks fl).liveFragments ∧ x ≠ p.frag := fun x =>
    mem_rest_iff hs.ok
  refine ⟨m1, m2, _, hcopy, hrelease, hs'.ok, hs'.inMemory,
    fun x => (releaseFragment_live hs.ok hu x).trans (hrest x), fun i hi => ?_,
    fun x hx hxf hxg a ha ha' => ?_⟩
  · rw [hkeep _ ⟨g, (hrest g).2 ⟨hg, hne⟩, by omega, by have := hlen g; omega⟩, hcopied i hi]
  · rw [hkeep a ⟨x, (hrest x).2 ⟨hx, hxf⟩, ha, ha'⟩]
    refine hch.outside a ?_
    rintro ⟨hle, hlt⟩
    have hap := hs.ok.fragments_apart.forall (mem_filter.1 hx).1 hgmem hxg
    unfold Fragment.Apart at hap
    have := hlen g
    omega

end Move

theorem xtraceRealloc_moved {p : Place} {fl : List ℕ} (hok : Heap.Ok ⟨p.blocks, fl⟩)
    (hu : p.frag.inUse = true)
    (hs : Stored freeList (keptBytes p n) m ⟨p.blocks, fl⟩) (hn : n < 2 ^ 64)
    (hfuel : (Heap.fragments ⟨p.blocks, fl⟩).length + 2 ≤ fuel)
    (hfresh : ∀ base, mmap = some base → MapsFresh m ⟨p.blocks, fl⟩ n base)
    (hroom : viableFragment ⟨p.blocks, fl⟩ n = none → mmap.isSome →
      n + blockSize ≤ roundUp n blockSizeMultiple)
    (hgt : p.frag.size < n) (hafter : p.after.length < fuel)
    (he : Xtrace.expandFragment p fl n = none) :
    (mmap = none ∧ xtraceRealloc freeList fuel m (p.frag.addr + headerSize) n mmap = some (m, 0)) ∨
      ∃ m' h' pointer, pointer ≠ 0 ∧
        xtraceRealloc freeList fuel m (p.frag.addr + headerSize) n mmap = some (m', pointer) ∧
        Reallocated freeList m m' ⟨p.blocks, fl⟩ h' p.frag n pointer := by
  have hmem : p.frag ∈ Heap.fragments ⟨p.blocks, fl⟩ := Place.frag_mem_fragments rfl
  have hf : p.frag ∈ Heap.liveFragments ⟨p.blocks, fl⟩ := mem_filter.2 ⟨hmem, hu⟩
  have hsize := hs.image.size_eq hmem
  have hexpand := expandFragment_none hs hafter he
  have hfree : fl.length < fuel := by
    have hle := hok.free.length_eq.le.trans
      ((length_map _).le.trans (length_filter_le _ _))
    simp only at hle
    omega
  obtain ⟨m1, halloc, hs1, hkeep, hsame⟩ :=
    allocateFragment_spec hs hfree (keptBytes_live hu fl) hn hfresh hroom
  simp only [xtraceRealloc, Nat.add_sub_cancel, hsize, bind_eq_bind, bind_some,
    if_neg hgt.not_gt, if_neg hgt.ne', hexpand, Bool.false_eq_true, if_false]
  rcases Xtrace.allocateFragment_spec hok hn (fun base hb => (hfresh base hb).toFresh) hroom with
    hnone | ⟨h1, addr, hsome, hgives⟩
  · rw [hnone] at halloc hsame
    rw [hsame rfl] at halloc
    refine .inl ⟨mmap_failed (congrArg Prod.snd hnone), ?_⟩
    simp [halloc]
  · obtain ⟨hlen, hadds⟩ := allocateFragment_adds hok hn
      (fun base hb => (hfresh base hb).toFresh) hroom hsome
    rw [hsome] at halloc hs1
    obtain ⟨g, hg, rfl, hgsize⟩ := hgives.given
    have hne : g ≠ p.frag := fun heq => hgives.fresh _ hf (by rw [heq])
    have hgne := hs1.image.ne_zero _ (mem_map_of_mem (mem_filter.1 hg).1)
    obtain ⟨m2, m3, h', hcopy, hrelease, hok', hm', hlive', hcopied, hcontents⟩ := move_spec hs1
      (hgives.kept _ hf) hg hne (hgt.le.trans hgsize) (hlen.trans hfuel)
    refine .inr ⟨m3, h', g.addr + headerSize, ?_, ?_, ⟨hok', hm',
      ⟨g, (hlive' g).2 ⟨hg, hne⟩, rfl, hgsize⟩, fun i hi => ?_, fun x hx hxf => ?_,
      fun x hx hxf a ha ha' => ?_, fun x hx => ?_⟩⟩
    · unfold headerSize
      omega
    · simp [halloc, hgne, hcopy, hrelease]
    · rw [hcopied i (by omega), hkeep _ (.inr ⟨by omega, by omega⟩)]
    · exact ⟨(hlive' x).2 ⟨hgives.kept x hx, hxf⟩, fun heq => hgives.fresh x hx (by omega)⟩
    · rw [hcontents x (hgives.kept x hx) hxf (fun heq =>
        hgives.fresh x hx (by rw [heq])) a ha ha',
        hkeep a (.inl ⟨x, (mem_rest_iff hok).2 ⟨hx, hxf⟩, ha, ha'⟩)]
    · obtain ⟨hx, hxf⟩ := (hlive' x).1 hx
      rcases hadds x hx with hx | hx
      · exact .inr ⟨hx, hxf⟩
      · exact .inl (by rw [hx])

theorem xtraceRealloc_reallocated (hok : h.Ok) (hm : InMemory freeList m h) {f : Fragment}
    (hf : f ∈ h.liveFragments) {n fuel : ℕ} {mmap : Option ℕ} (hn : n < 2 ^ 64)
    (hfuel : h.fragments.length + 2 ≤ fuel)
    (hfresh : ∀ base, mmap = some base → MapsFresh m h n base)
    (hroom : MapsBlock h (.realloc (f.addr + headerSize) n mmap) →
      n + blockSize ≤ roundUp n blockSizeMultiple) :
    (mmap = none ∧ xtraceRealloc freeList fuel m (f.addr + headerSize) n mmap = some (m, 0)) ∨
      ∃ m' h' pointer, pointer ≠ 0 ∧
        xtraceRealloc freeList fuel m (f.addr + headerSize) n mmap = some (m', pointer) ∧
        Reallocated freeList m m' h h' f n pointer := by
  obtain ⟨hmem, hu⟩ := mem_filter.1 hf
  obtain ⟨p, hp, hblocks, rfl⟩ := hok.locate hmem
  obtain ⟨blocks, fl⟩ := h
  subst hblocks
  have hs : Stored freeList (keptBytes p n) m ⟨p.blocks, fl⟩ := hm.stored hok fun a ha => by
    obtain ⟨g, hg, hbounds⟩ := keptBytes_live hu fl a ha
    exact ⟨g, (mem_filter.1 hg).1, hbounds⟩
  have hsize := hs.image.size_eq hmem
  have hafter : p.after.length < fuel := by
    have := (p.fragmentList_sublist fl).length_le
    simp only [fragmentList, length_append, length_cons] at this
    omega
  have hpointer : p.frag.addr + headerSize ≠ 0 := by
    unfold headerSize
    omega
  rcases Nat.lt_trichotomy n p.frag.size with hlt | heq | hgt
  · obtain ⟨m', hshrink, hs', hch⟩ := shrinkFragment_spec hs hlt.le fun a ha => by
      rcases ha with ⟨g, hg, hle, hlt'⟩ | ⟨hle, hlt'⟩
      · have := rest_apart hok hg
        unfold Fragment.Apart at this
        omega
      · omega
    refine .inr ⟨m', _, _, hpointer, ?_, reallocated_of_resizes hok hu
      (shrinkFragment_resizes hok hlt.le) hs' fun a ha => hch.outside a fun hc => hc ha⟩
    simp [xtraceRealloc, hsize, if_pos hlt, hshrink]
  · refine .inr ⟨m, _, _, hpointer, ?_, reallocated_of_resizes (r := (p, fl)) hok hu
      ⟨⟨hok, rfl⟩, rfl, rfl, heq.le⟩ hs fun _ _ => rfl⟩
    simp [xtraceRealloc, hsize, if_neg heq.not_lt, if_pos heq]
  · rcases he : Xtrace.expandFragment p fl n with _ | r
    · exact xtraceRealloc_moved hok hu hs hn hfuel hfresh
        (fun hv hsome => hroom ⟨⟨p, by rwa [Nat.add_sub_cancel], hgt, he⟩, hv, hsome⟩) hgt hafter he
    · obtain ⟨m', hexpand, hs', hch⟩ := expandFragment_some hs hgt hafter (fun a ha => by
        rcases ha with ⟨g, hg, hle, hlt⟩ | ⟨hle, hlt⟩
        · exact .inr ⟨g, hg, by omega, hlt⟩
        · exact .inl (by omega)) he
      refine .inr ⟨m', _, _, hpointer, ?_, reallocated_of_resizes hok hu
        (expandFragment_resizes hok hgt he) hs' fun a ha => hch.outside a fun hc => hc ha⟩
      simp [xtraceRealloc, hsize, if_neg hgt.not_gt, if_neg hgt.ne', hexpand]

theorem sample_mapsFresh : MapsFresh sampleMemory sampleHeap 5000 16384 := by
  refine ⟨⟨by decide, by decide, by decide, fun b hb => ?_⟩, fun a ha ha' => if_neg ?_⟩
  · rw [mem_singleton.1 hb]
    decide
  · omega

theorem xtraceMalloc_refines_sample : ∃ m',
    xtraceMalloc 4096 4 sampleMemory 5000 (some 16384) = some (m', 16440) ∧
    Stored 4096 {8248} m' (Xtrace.xtraceMalloc sampleHeap 5000 (some 16384)).1 ∧
    ∀ a ∈ ({8248} : Set ℕ), m' a = sampleMemory a := by
  have hlive : ⟨8208, 100, true, true⟩ ∈ sampleHeap.liveFragments := by decide
  refine xtraceMalloc_refines (sample_inMemory.stored sampleHeap_ok ?_) (by decide) ?_ (by decide)
    (fun base hb => Option.some.inj hb ▸ sample_mapsFresh) fun _ _ => by decide
  · rintro a rfl
    exact ⟨_, (mem_filter.1 hlive).1, by decide, by decide⟩
  · rintro a rfl
    exact ⟨_, hlive, by decide, by decide⟩

theorem xtraceRealloc_sample : ∃ m' h' pointer, pointer ≠ 0 ∧
    xtraceRealloc 4096 4 sampleMemory (8208 + headerSize) 5000 (some 16384) = some (m', pointer) ∧
      Reallocated 4096 sampleMemory m' sampleHeap h' ⟨8208, 100, true, true⟩ 5000 pointer := by
  have hlive : ⟨8208, 100, true, true⟩ ∈ sampleHeap.liveFragments := by decide
  have hfresh : ∀ base, some 16384 = some base → MapsFresh sampleMemory sampleHeap 5000 base :=
    fun base hb => Option.some.inj hb ▸ sample_mapsFresh
  rcases xtraceRealloc_reallocated sampleHeap_ok sample_inMemory hlive
    (show 5000 < 2 ^ 64 by decide)
    (show sampleHeap.fragments.length + 2 ≤ 4 by decide) hfresh (fun _ => by decide) with
    ⟨hnone, -⟩ | h
  · cases hnone
  · exact h

end Darling.XtraceMalloc
