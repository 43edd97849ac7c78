import Darling.Proofs.XtraceImage
import Darling.Proofs.Xtrace

/-!
# The functions of `xtrace/malloc.c` in memory

Each function on bytes does to the image of a heap what the function on heaps does to the heap, ends
within as many rounds as there are fragments, touches mapped memory only, and leaves the bytes of
`kept` alone.
-/

namespace Darling.XtraceMalloc

open Queue Xtrace List
open Option (bind_some bind_eq_bind pure_def)

variable {freeList : ℕ} {kept : Set ℕ} {m : Memory} {p : Place} {fl : List ℕ}

section

variable {h : Heap} {f : Fragment} (hi : Image freeList kept m h) (hf : f ∈ h.fragments)

include hi hf

theorem Image.size_eq : size m f.addr = some f.size :=
  XtraceMalloc.size_eq (hi.flags f hf) (hi.size_lt f hf)

theorem Image.inUse_eq : inUse m f.addr = some f.inUse :=
  XtraceMalloc.inUse_eq (hi.flags f hf) (hi.size_lt f hf)

end

theorem frag_mem (p : Place) (fl : List ℕ) : p.frag ∈ (Heap.mk p.blocks fl).fragments :=
  (p.fragments_perm fl).mem_iff.2 mem_cons_self

theorem frag_addr_mem (p : Place) (fl : List ℕ) :
    p.frag.addr ∈ (Heap.mk p.blocks fl).fragments.map Fragment.addr :=
  mem_map_of_mem (frag_mem p fl)

theorem others_mem (fl : List ℕ) {f : Fragment} (hf : f ∈ p.others) :
    f ∈ (Heap.mk p.blocks fl).fragments := (p.fragments_perm fl).mem_iff.2 (mem_cons_of_mem _ hf)

theorem absorb_spec (hi : Image freeList kept m ⟨p.blocks, fl⟩) {g : Fragment}
    {after : List Fragment} (hafter : p.after = g :: after) (hg : g.addr ∈ fl) : ∃ m',
      absorb m p.frag.addr g.addr = some m' ∧
        Image freeList kept m' ⟨{ p with
          frag := p.frag.setSize (p.frag.size + headerSize + g.size)
          after := after }.blocks, fl.erase g.addr⟩ ∧ m.Changes keptᶜ m' := by
  have hgmem : g ∈ (Heap.mk p.blocks fl).fragments :=
    others_mem fl (by simp [Place.others, hafter])
  have hblocks : p.blocks =
      { p with before := p.frag :: p.before, frag := g, after := after }.blocks := by
    simp [Place.blocks, Place.fragmentList, hafter]
  have hwithout : { p with before := p.frag :: p.before, frag := g, after := after }.without =
      { p with after := after }.blocks := by
    simp [Place.blocks, Place.fragmentList, Place.without]
  obtain ⟨m1, hfree, hi1, hch1⟩ := hi.removeFree hg
  have hflags := hi1.flags g hgmem
  rw [hblocks] at hi1
  obtain ⟨m2, hblock, hi2, hload, hch2⟩ := hi1.removeBlock (Nodup.not_mem_erase hi.nodup_free)
  rw [hwithout] at hi2
  have hsize : size m2 p.frag.addr = some p.frag.size :=
    hi2.size_eq (frag_mem { p with after := after } _)
  have hsize' : size m2 g.addr = some g.size :=
    size_eq (hload.trans hflags) (hi.size_lt g hgmem)
  obtain ⟨m3, hstore, hi3, hch3⟩ := hi2.setFlags
    (f := p.frag.setSize (p.frag.size + headerSize + g.size)) rfl (Nat.mod_lt _ (by omega))
  refine ⟨m3, ?_, hi3, (hch1.trans hch2).trans hch3⟩
  simp only [absorb, hfree, hblock, hsize, hsize', bind_eq_bind, bind_some]
  rw [setSize_eq (hi2.flags _ (frag_mem { p with after := after } _))
    (hi2.size_lt _ (frag_mem { p with after := after } _))]
  exact hstore

theorem store_header {y i n : ℕ} {x : ℕ} (hm : m.Mapped y n) (hx : x < 2 ^ 64) (hi : i + 8 ≤ n) :
    ∃ m', m.store (y + i) x = some m' ∧ m'.load (y + i) = some x ∧
      (∀ a, Apart (y + i) a → m'.load a = m.load a) ∧ m.Changes (Set.Ico y (y + n)) m' := by
  obtain ⟨m', hstore, hload, hother, hch⟩ := store_cell [y + i]
    (fun b hb hb' => hm b (by omega) (by omega)) hx (mem_singleton_self _)
  refine ⟨m', hstore, hload, hother, hch.mono ?_⟩
  rintro a ⟨c, hc, hle, hlt⟩
  rw [mem_singleton.1 hc] at hle hlt
  exact ⟨by omega, by omega⟩

theorem fragmentInit_spec {y : ℕ} (hm : m.Mapped y headerSize) (n : ℕ) : ∃ m',
    fragmentInit m y n = some m' ∧ m'.load y = some (flagsOf (Fragment.init y n)) ∧
      m.Changes (Set.Ico y (y + headerSize)) m' := by
  have hlt : n % 2 ^ 62 < 2 ^ 64 := (Nat.mod_lt _ (by omega)).trans (by omega)
  obtain ⟨m1, hs1, hl1, -, hch1⟩ := store_header (i := 0) hm hlt (by decide)
  obtain ⟨m2, hs2, -, ho2, hch2⟩ := store_header (i := blockLink) (x := 0)
    (hch1.mapped_iff.2 hm) (by decide) (by decide)
  obtain ⟨m3, hs3, -, ho3, hch3⟩ := store_header (i := blockLink + 8) (x := 0)
    ((hch1.trans hch2).mapped_iff.2 hm) (by decide) (by decide)
  obtain ⟨m4, hs4, -, ho4, hch4⟩ := store_header (i := freeLink) (x := 0)
    (((hch1.trans hch2).trans hch3).mapped_iff.2 hm) (by decide) (by decide)
  obtain ⟨m5, hs5, -, ho5, hch5⟩ := store_header (i := freeLink + 8) (x := 0)
    ((((hch1.trans hch2).trans hch3).trans hch4).mapped_iff.2 hm) (by decide) (by decide)
  refine ⟨m5, ?_, ?_, (((hch1.trans hch2).trans hch3).trans hch4).trans hch5⟩
  · rw [Nat.add_zero] at hs1
    simp only [fragmentInit, sizeMask, Nat.and_two_pow_sub_one_eq_mod, bind_eq_bind,
      Nat.add_assoc, hs1, hs2, hs3, hs4, hs5, bind_some]
  · have hap : ∀ i, 8 ≤ i → Apart (y + i) y := fun i hi => by unfold Apart; omega
    rw [ho5 y (hap _ (by decide)), ho4 y (hap _ (by decide)), ho3 y (hap _ (by decide)),
      ho2 y (hap _ (by decide))]
    rw [Nat.add_zero] at hl1
    rw [hl1]
    simp [flagsOf, Fragment.init]

variable {h : Heap}

/-- A header is `free_list` or lies in a block. -/
theorem region_inside (hok : h.Ok) {r : ℕ × ℕ}
    (hr : r ∈ regions freeList (h.blocks.map Block.addr) (h.fragments.map Fragment.addr)) :
    r = (freeList, 8) ∨ ∃ b ∈ h.blocks, b.addr ≤ r.1 ∧ r.1 + r.2 ≤ b.stop := by
  simp only [regions, mem_cons, mem_append, mem_map] at hr
  rcases hr with rfl | ⟨b, ⟨b, hb, rfl⟩, rfl⟩ | ⟨x, ⟨f, hf, rfl⟩, rfl⟩
  · exact .inl rfl
  · exact .inr ⟨b, hb, le_rfl, by unfold Block.stop blockSize; omega⟩
  · obtain ⟨b, hb, hle, hstop⟩ := hok.bounds hf
    unfold Fragment.length at hstop
    exact .inr ⟨b, hb, by omega, by omega⟩

theorem payload_apart (hok : h.Ok)
    (hout : ∀ r ∈ h.regions, freeList + 8 ≤ r.1 ∨ r.2 ≤ freeList) {f : Fragment}
    (hf : f ∈ h.fragments) :
    ∀ r ∈ regions freeList (h.blocks.map Block.addr) (h.fragments.map Fragment.addr),
      r.1 + r.2 ≤ f.addr + headerSize ∨ f.addr + f.length ≤ r.1 := by
  obtain ⟨b, hb, hbounds⟩ := hok.bounds hf
  have hlen : f.length = headerSize + f.size := rfl
  intro r hr
  simp only [regions, mem_cons, mem_append, mem_map] at hr
  rcases hr with rfl | ⟨c, ⟨c, hc, rfl⟩, rfl⟩ | ⟨x, ⟨g, hg, rfl⟩, rfl⟩
  · have := hout (b.addr, b.stop) (mem_map.2 ⟨b, hb, rfl⟩)
    omega
  · by_cases hbc : b = c
    · subst hbc
      omega
    · have := hok.apart.forall hb hc hbc
      unfold Block.Apart Block.stop at *
      omega
  · by_cases hfg : f = g
    · subst hfg
      omega
    · have := hok.fragments_apart.forall hf hg hfg
      unfold Fragment.Apart Fragment.length at this
      omega

/-- The heap is in order and in memory, with its blocks mapped. -/
structure Stored (freeList : ℕ) (kept : Set ℕ) (m : Memory) (h : Heap) : Prop where
  ok : h.Ok
  image : Image freeList kept m h
  outside : ∀ r ∈ h.regions, freeList + 8 ≤ r.1 ∨ r.2 ≤ freeList
  mapped : ∀ r ∈ h.regions, ∀ a, r.1 ≤ a → a < r.2 → (m a).isSome

theorem Stored.mapped_fragment (hs : Stored freeList kept m h) {f : Fragment}
    (hf : f ∈ h.fragments) : m.Mapped f.addr f.length := by
  obtain ⟨b, hb, hbounds⟩ := hs.ok.bounds hf
  exact fun a ha ha' => hs.mapped (b.addr, b.stop) (mem_map.2 ⟨b, hb, rfl⟩) a
    (by simp only; omega) (by simp only; omega)

theorem Stored.edit {h h' : Heap} {m' : Memory} (hs : Stored freeList kept m h) (hok : h'.Ok)
    (hi : Image freeList kept m' h') (hregions : h'.regions = h.regions)
    (hch : m.Changes keptᶜ m') : Stored freeList kept m' h' := by
  refine ⟨hok, hi, hregions ▸ hs.outside, fun r hr a ha ha' => ?_⟩
  rw [hch.mapped]
  exact hs.mapped r (hregions ▸ hr) a ha ha'

theorem shrinkFragment_spec (hs : Stored freeList kept m ⟨p.blocks, fl⟩) {n : ℕ}
    (hn : n ≤ p.frag.size) (hkept : ∀ a ∈ kept,
      a < p.frag.addr + headerSize + n ∨ p.frag.addr + p.frag.length ≤ a) : ∃ m',
    shrinkFragment freeList m p.frag.addr n = some m' ∧
      Stored freeList kept m' ⟨(Xtrace.shrinkFragment p fl n).1.blocks,
        (Xtrace.shrinkFragment p fl n).2⟩ ∧ m.Changes keptᶜ m' := by
  have hi := hs.image
  have hmem := frag_mem p fl
  have hlen : p.frag.length = headerSize + p.frag.size := rfl
  have hlt := frag_size_lt hs.ok
  have hok := (shrinkFragment_resizes hs.ok hn).ok
  have hsame : p.SameBlock (Xtrace.shrinkFragment p fl n).1 := shrinkFragment_sameBlock n
  have hregions := hsame.regions (Xtrace.shrinkFragment p fl n).2 fl
  have hsub : wsub 64 p.frag.size n = p.frag.size - n := wsub_of_le hn (by omega)
  unfold Xtrace.shrinkFragment at hok hregions ⊢
  simp only [shrinkFragment, hi.size_eq hmem, bind_eq_bind, bind_some, hsub] at *
  split_ifs at * with hrem
  · set g := Fragment.init (p.frag.addr + headerSize + n) (p.frag.size - n - headerSize) with hg
    have hgaddr : g.addr = p.frag.addr + headerSize + n := rfl
    obtain ⟨m1, hstore1, hi1, hch1⟩ := hi.setFlags (f := p.frag.setSize n) rfl
      (Nat.mod_lt _ (by omega))
    have hap : ∀ r ∈ regions freeList ({ p with frag := p.frag.setSize n }.blocks.map Block.addr)
        ((Heap.mk { p with frag := p.frag.setSize n }.blocks fl).fragments.map Fragment.addr),
        RegionApart (g.addr, headerSize) r := by
      intro r hr
      have hr' : r ∈ regions freeList (p.blocks.map Block.addr)
          ((Heap.mk p.blocks fl).fragments.map Fragment.addr) := by
        simpa [Place.blocks, Heap.fragments, Place.fragmentList, Fragment.setSize] using hr
      have := payload_apart hs.ok hs.outside hmem r hr'
      unfold RegionApart
      omega
    have hl := hi1.toLayout.cons hap (fun a ha => by have := hkept a ha; omega)
      (by unfold headerSize at *; omega) (by unfold headerSize at *; omega)
    have hm1 : m1.Mapped g.addr headerSize := hch1.mapped_iff.2 fun a ha ha' =>
      hs.mapped_fragment hmem a (by omega) (by omega)
    obtain ⟨m2, hinit, hload2, hch2⟩ := fragmentInit_spec hm1 (p.frag.size - n - headerSize)
    have hi2 := hi1.of_changes hch2 fun r hr a ha ha' hin => by
      obtain ⟨hle, hlt⟩ := hin
      have := hap r hr
      unfold RegionApart at this
      omega
    have hch2 := hch2.mono (t := keptᶜ) fun a hin ha => by
      obtain ⟨hle, hlt⟩ := hin
      have := hkept a ha
      omega
    obtain ⟨m3, hinsert3, hi3, hch3⟩ := hi2.insertBlock hl hload2
      (Nat.mod_lt _ (by omega)) (hch2.mapped_iff.2 hm1)
    have hfresh : g.addr ∉ fl := fun hmem' =>
      (nodup_cons.1 hl.nodup).1 (hi1.free_subset hmem')
    obtain ⟨m4, hinsert4, hi4, hch4⟩ := hi3.insertFree (mem_map_of_mem
      (((Place.insert_perm _ g fl).mem_iff).2 mem_cons_self)) hfresh
    have hch := ((hch1.trans hch2).trans hch3).trans hch4
    refine ⟨m4, ?_, hs.edit hok hi4 hregions hch, hch⟩
    rw [setSize_eq (hi.flags _ hmem) (hi.size_lt _ hmem), hstore1]
    simp [hinit, ← hgaddr, show insertAfter blockLink m2 p.frag.addr g.addr = some m3 from hinsert3,
      hinsert4]
  · exact ⟨m, rfl, hs, .refl _ m⟩

theorem Image.available_eq (hi : Image freeList kept m h) {f : Fragment}
    (hf : f ∈ h.fragments) : available m f.addr = some (!f.inUse) := by
  rw [available, if_pos (hi.ne_zero _ (mem_map_of_mem hf)), hi.inUse_eq hf]
  rfl

section Neighbours

variable (hi : Image freeList kept m ⟨p.blocks, fl⟩)

include hi

theorem next_spec : next blockLink m p.frag.addr = some ((p.after.map Fragment.addr).headD 0) := by
  have hlist := hi.lists _ p.block_mem
  simp only [Place.fragmentList, map_append, map_cons] at hlist
  exact next_eq hlist

theorem prev_spec {q : Fragment} {before : List Fragment} (hb : p.before = q :: before) :
    prev blockLink m p.frag.addr = some q.addr := by
  have hlist := hi.lists _ p.block_mem
  simp only [Place.fragmentList, hb, reverse_cons, append_assoc, singleton_append,
    map_append, map_cons] at hlist
  exact prev_eq hlist

theorem isMmapBase_spec : isMmapBase m p.frag.addr = some p.frag.isMmapBase :=
  isMmapBase_eq (hi.flags _ (frag_mem p fl)) (hi.size_lt _ (frag_mem p fl))

end Neighbours

theorem base_iff (hok : Heap.Ok ⟨p.blocks, fl⟩) : p.frag.isMmapBase = true ↔ p.before = [] := by
  have hb := place_block_ok hok
  rw [hb.base p.frag (by simp [Place.fragmentList])]
  obtain ⟨mid, hbefore, hmid, -⟩ := Tiles.append_iff.1 hb.tiles
  constructor
  · intro haddr
    rw [← hmid, haddr] at hbefore
    exact reverse_eq_nil_iff.1 (hbefore.eq_nil length_pos)
  · intro hnil
    simp only [hnil, reverse_nil, Tiles] at hbefore
    exact hmid.trans hbefore.symm

theorem mem_freeList_of (hok : h.Ok) {f : Fragment} (hf : f ∈ h.fragments)
    (hu : f.inUse = false) : f.addr ∈ h.freeList :=
  hok.free.mem_iff.2 (mem_map.2 ⟨f, mem_filter.2 ⟨hf, by simp [hu]⟩, rfl⟩)

section Merge

variable (hs : Stored freeList kept m ⟨p.blocks, fl⟩)

include hs

variable {r : Place × List ℕ}

theorem mergePrev_some (hu : p.frag.inUse = false)
    (hr : Xtrace.mergePrev p fl = some r) : ∃ prevFrag m',
      prevFragment m p.frag.addr = some prevFrag ∧
        mergePrev m prevFrag p.frag.addr = some (m', r.1.frag.addr, true) ∧
        Image freeList kept m' ⟨r.1.blocks, r.2⟩ ∧ m.Changes keptᶜ m' := by
  obtain ⟨q, before, hb, hbase, hq, rfl⟩ := mergePrev_cases hr
  have hblocks : p.blocks =
      { p with before := before, frag := q, after := p.frag :: p.after }.blocks := by
    simp [Place.blocks, Place.fragmentList, hb]
  have hi := hs.image
  have hq : available m q.addr = some true := by
    rw [hi.available_eq (others_mem fl (by simp [Place.others, hb])), hq]
    rfl
  have hprev : prevFragment m p.frag.addr = some q.addr := by
    simp [prevFragment, isMmapBase_spec hi, hbase, prev_spec hi hb]
  rw [hblocks] at hi
  obtain ⟨m', habsorb, hi', hch⟩ := absorb_spec hi rfl (mem_freeList hs.ok hu)
  refine ⟨q.addr, m', hprev, ?_, hi', hch⟩
  simp only [mergePrev, hq, bind_eq_bind, bind_some, if_true,
    show absorb m q.addr p.frag.addr = some m' from habsorb]
  rfl

theorem mergePrev_none (hr : Xtrace.mergePrev p fl = none) : ∃ prevFrag,
    prevFragment m p.frag.addr = some prevFrag ∧
      mergePrev m prevFrag p.frag.addr = some (m, p.frag.addr, false) := by
  have hi := hs.image
  have hbase := base_iff hs.ok
  unfold Xtrace.mergePrev at hr
  rcases hb : p.before with _ | ⟨q, before⟩
  · refine ⟨0, ?_, rfl⟩
    simp [prevFragment, isMmapBase_spec hi, hbase.2 hb]
  · have hbase : p.frag.isMmapBase = false := by
      rw [Bool.eq_false_iff, ne_eq, hbase, hb]
      exact cons_ne_nil _ _
    simp only [hb, hbase, true_and, ite_eq_right_iff, reduceCtorEq, imp_false] at hr
    refine ⟨q.addr, ?_, ?_⟩
    · simp [prevFragment, isMmapBase_spec hi, hbase, prev_spec hi hb]
    · have hq := hi.available_eq (others_mem fl (f := q) (by simp [Place.others, hb]))
      rw [Bool.not_eq_false] at hr
      simp [mergePrev, hq, hr]

omit hs

theorem mergeNext_some (hok : Heap.Ok ⟨p.blocks, fl⟩) (hi : Image freeList kept m ⟨p.blocks, fl⟩)
    (hr : Xtrace.mergeNext p fl = some r) : ∃ m',
      mergeNext m p.frag.addr ((p.after.map Fragment.addr).headD 0) = some (m', true) ∧
        Image freeList kept m' ⟨r.1.blocks, r.2⟩ ∧ m.Changes keptᶜ m' ∧
        r.1.frag.addr = p.frag.addr := by
  obtain ⟨g, after, ha, hc, rfl⟩ := mergeNext_cases hr
  have hg : g ∈ (Heap.mk p.blocks fl).fragments := others_mem fl (by simp [Place.others, ha])
  obtain ⟨m', habsorb, hi', hch⟩ := absorb_spec hi ha (mem_freeList_of hok hg hc)
  refine ⟨m', ?_, hi', hch, rfl⟩
  simp only [mergeNext, ha, map_cons, headD_cons, hi.available_eq hg, hc, Bool.not_false,
    bind_eq_bind, bind_some, if_true, habsorb]
  rfl

theorem mergeNext_none (hi : Image freeList kept m ⟨p.blocks, fl⟩)
    (hr : Xtrace.mergeNext p fl = none) :
    mergeNext m p.frag.addr ((p.after.map Fragment.addr).headD 0) = some (m, false) := by
  unfold Xtrace.mergeNext at hr
  rcases ha : p.after with _ | ⟨g, after⟩
  · rfl
  · simp only [ha, ite_eq_right_iff, reduceCtorEq, imp_false, Bool.not_eq_false] at hr
    have hg := hi.available_eq (others_mem fl (f := g) (by simp [Place.others, ha]))
    simp [mergeNext, hg, hr]

theorem mergePrev_after (hr : Xtrace.mergePrev p fl = some r) : r.1.after = p.after := by
  obtain ⟨q, before, -, -, -, rfl⟩ := mergePrev_cases hr
  rfl

theorem Stored.merge {m' : Memory} (hs : Stored freeList kept m ⟨p.blocks, fl⟩)
    (hk : Xtrace.Keeps p r) (hsame : p.SameBlock r.1)
    (hi : Image freeList kept m' ⟨r.1.blocks, r.2⟩) (hch : m.Changes keptᶜ m') :
    Stored freeList kept m' ⟨r.1.blocks, r.2⟩ := hs.edit hk.ok hi (hsame.regions _ _) hch

end Merge

theorem defragment_spec (hs : Stored freeList kept m ⟨p.blocks, fl⟩) (hu : p.frag.inUse = false)
    {fuel : ℕ} (hfuel : p.neighbours < fuel) : ∃ m',
      defragment fuel m p.frag.addr = some (m', (Xtrace.defragment p fl).1.frag.addr) ∧
        Stored freeList kept m' ⟨(Xtrace.defragment p fl).1.blocks, (Xtrace.defragment p fl).2⟩ ∧
        m.Changes keptᶜ m' := by
  fun_induction Xtrace.defragment p fl generalizing m fuel with
  | case1 p fl r hp r' hn ih =>
    obtain ⟨n, rfl⟩ : ∃ n, fuel = n + 1 := ⟨fuel - 1, by omega⟩
    have hlt := (mergeNext_neighbours hn).trans (mergePrev_neighbours hp)
    obtain ⟨hk1, hu1⟩ := mergePrev_keeps hs.ok hu hp
    obtain ⟨hk2, hu2⟩ := mergeNext_keeps hk1.ok hu1 hn
    obtain ⟨prevFrag, m1, hprev, hmerge1, hi1, hch1⟩ := mergePrev_some hs hu hp
    have hs1 := hs.merge hk1 (mergePrev_sameBlock hp) hi1 hch1
    obtain ⟨m2, hmerge2, hi2, hch2, haddr⟩ := mergeNext_some hk1.ok hi1 hn
    have hs2 := hs1.merge hk2 (mergeNext_sameBlock hn) hi2 hch2
    obtain ⟨m3, hrest, hs3, hch3⟩ := ih hs2 hu2 (show r'.1.neighbours < n by omega)
    refine ⟨m3, ?_, hs3, (hch1.trans hch2).trans hch3⟩
    rw [mergePrev_after hp] at hmerge2
    rw [haddr] at hrest
    simp only [defragment, hprev, next_spec hs.image, hmerge1, hmerge2, bind_eq_bind,
      bind_some, Bool.or_self, if_true, hrest]
  | case2 p fl r hp hn ih =>
    obtain ⟨n, rfl⟩ : ∃ n, fuel = n + 1 := ⟨fuel - 1, by omega⟩
    have hlt := mergePrev_neighbours hp
    obtain ⟨hk1, hu1⟩ := mergePrev_keeps hs.ok hu hp
    obtain ⟨prevFrag, m1, hprev, hmerge1, hi1, hch1⟩ := mergePrev_some hs hu hp
    have hs1 := hs.merge hk1 (mergePrev_sameBlock hp) hi1 hch1
    have hmerge2 := mergeNext_none hi1 hn
    obtain ⟨m3, hrest, hs3, hch3⟩ := ih hs1 hu1 (show r.1.neighbours < n by omega)
    refine ⟨m3, ?_, hs3, hch1.trans hch3⟩
    rw [mergePrev_after hp] at hmerge2
    simp only [defragment, hprev, next_spec hs.image, hmerge1, hmerge2, bind_eq_bind,
      bind_some, Bool.or_false, if_true, hrest]
  | case3 p fl hp r' hn ih =>
    obtain ⟨n, rfl⟩ : ∃ n, fuel = n + 1 := ⟨fuel - 1, by omega⟩
    have hlt := mergeNext_neighbours hn
    obtain ⟨hk2, hu2⟩ := mergeNext_keeps hs.ok hu hn
    obtain ⟨prevFrag, hprev, hmerge1⟩ := mergePrev_none hs hp
    obtain ⟨m2, hmerge2, hi2, hch2, haddr⟩ := mergeNext_some hs.ok hs.image hn
    have hs2 := hs.merge hk2 (mergeNext_sameBlock hn) hi2 hch2
    obtain ⟨m3, hrest, hs3, hch3⟩ := ih hs2 hu2 (show r'.1.neighbours < n by omega)
    refine ⟨m3, ?_, hs3, hch2.trans hch3⟩
    rw [haddr] at hrest
    simp only [defragment, hprev, next_spec hs.image, hmerge1, hmerge2, bind_eq_bind,
      bind_some, Bool.or_true, if_true, hrest]
  | case4 p fl hp hn =>
    obtain ⟨n, rfl⟩ : ∃ n, fuel = n + 1 := ⟨fuel - 1, by omega⟩
    obtain ⟨prevFrag, hprev, hmerge1⟩ := mergePrev_none hs hp
    refine ⟨m, ?_, hs, .refl _ m⟩
    simp only [defragment, hprev, next_spec hs.image, hmerge1, mergeNext_none hs.image hn,
      bind_eq_bind, bind_some, Bool.or_self, Bool.false_eq_true, if_false, Option.pure_def]

section Unmap

theorem Heap.Ok.other_apart (hok : Heap.Ok ⟨p.blocks, fl⟩) {c : Block}
    (hc : c ∈ p.left ++ p.right) : c.stop ≤ p.block.addr ∨ p.block.stop ≤ c.addr := by
  have hap := perm_middle.pairwise hok.apart Or.symm
  have := (pairwise_cons.1 hap).1 c hc
  exact this.symm

theorem unmap_spec (hs : Stored freeList kept m ⟨p.blocks, fl⟩) (hu : p.frag.inUse = false)
    (hbase : p.frag.isMmapBase = true) (hsize : p.block.size = p.frag.size)
    (hkept : ∀ a ∈ kept, ∃ f ∈ p.rest, f.addr ≤ a ∧ a < f.addr + f.length) : ∃ m',
      remove freeLink m p.frag.addr = some m' ∧ m'.load p.block.addr = some p.block.size ∧
        m.Changes keptᶜ m' ∧
        Stored freeList kept (m'.unmap p.block.addr (p.block.size + blockSize))
          ⟨p.left ++ p.right, fl.erase p.frag.addr⟩ ∧
        ∀ a ∈ kept, ¬ (p.block.addr ≤ a ∧ a < p.block.stop) := by
  obtain ⟨hok, hlive⟩ := unmap_ok hs.ok hu hbase hsize
  obtain ⟨m', hremove, hi, hch⟩ := hs.image.removeFree (mem_freeList hs.ok hu)
  have hload := hi.sizes _ p.block_mem
  have hstop : p.block.addr + (p.block.size + blockSize) = p.block.stop := by
    unfold Block.stop
    omega
  have hsub : (p.left ++ p.right).Sublist p.blocks :=
    Sublist.append_left (sublist_cons_self _ _) _
  have hother := fun c => Heap.Ok.other_apart (c := c) hs.ok
  have hout := hs.outside (p.block.addr, p.block.stop)
    (p.region_mem fl)
  refine ⟨m', hremove, hload, hch, ⟨hok, hi.of_agree hsub rfl ?_ fun r hr a ha ha' => ?_,
    fun r hr => hs.outside r ((hsub.map _).subset hr), fun r hr a ha ha' => ?_⟩, fun a ha => ?_⟩
  · exact Subset.trans hok.free.subset (map_subset _ filter_sublist.subset)
  · refine m'.unmap_outside fun ⟨hle, hlt⟩ => ?_
    rcases region_inside hok hr with rfl | ⟨c, hc, hle', hstop'⟩
    · simp only at *
      omega
    · have := hother c hc
      omega
  · obtain ⟨c, hc, rfl⟩ := mem_map.1 hr
    have := hother c hc
    rw [m'.unmap_outside (by simp only at *; omega), hch.mapped]
    exact hs.mapped _ ((hsub.map _).subset hr) a ha ha'
  · obtain ⟨f, hf, hle, hlt⟩ := hkept a ha
    rw [← hlive] at hf
    obtain ⟨c, hc, hbounds⟩ := hok.bounds (mem_filter.1 hf).1
    have := hother c hc
    omega

end Unmap

theorem notMem_freeList (hok : h.Ok) {f : Fragment} (hf : f ∈ h.fragments)
    (hu : f.inUse = true) : f.addr ∉ h.freeList := fun hmem => by
  rw [hok.inUse_of_mem_freeList hf hmem] at hu
  cases hu

section

variable (hs : Stored freeList kept m ⟨p.blocks, fl⟩)

include hs

theorem give_spec (hu : p.frag.inUse = true) : ∃ m1 m2, setInUse m p.frag.addr false = some m1 ∧
      insertHead freeLink m1 freeList p.frag.addr = some m2 ∧
      Stored freeList kept m2 ⟨{ p with frag := { p.frag with inUse := false } }.blocks,
        p.frag.addr :: fl⟩ ∧ m.Changes keptᶜ m2 := by
  have hmem := frag_mem p fl
  have hsize := hs.image.size_lt _ hmem
  obtain ⟨m1, hset, hi1, hch1⟩ := hs.image.setFlags (f := { p.frag with inUse := false }) rfl hsize
  obtain ⟨m2, hinsert, hi2, hch2⟩ := hi1.insertFree (x := p.frag.addr)
    (frag_addr_mem { p with frag := { p.frag with inUse := false } } fl)
    (notMem_freeList hs.ok hmem hu)
  refine ⟨m1, m2, ?_, hinsert, hs.edit (give_keeps hs.ok hu).ok hi2 ?_ (hch1.trans hch2),
    hch1.trans hch2⟩
  · rw [setInUse_eq (hs.image.flags _ hmem) hsize, hset]
  · exact Place.SameBlock.regions (p := p)
      (q := { p with frag := { p.frag with inUse := false } }) ⟨rfl, rfl, rfl⟩ _ _

theorem blockInUse_first (hu : p.frag.inUse = false)
    (hb : p.frag.isMmapBase = true) : p.frag.addr = p.block.addr + fragmentOffset ∧
      blockInUse m p.block.addr = some (decide (p.block.size ≠ p.frag.size)) := by
  have haddr : p.frag.addr = p.block.addr + fragmentOffset :=
    ((place_block_ok hs.ok).base p.frag (by simp [Place.fragmentList])).1 hb
  have hinuse := hs.image.inUse_eq (frag_mem p fl)
  have hsize := hs.image.size_eq (frag_mem p fl)
  have hload := hs.image.sizes _ p.block_mem
  refine ⟨haddr, ?_⟩
  simp [blockInUse, ← haddr, hinuse, hu, hload, hsize]

theorem releaseFragment_spec (hu : p.frag.inUse = true) {fuel : ℕ} (hfuel : p.neighbours < fuel)
    (hkept : ∀ a ∈ kept, ∃ f ∈ p.rest, f.addr ≤ a ∧ a < f.addr + f.length) : ∃ m',
      releaseFragment freeList fuel m p.frag.addr = some m' ∧
        Stored freeList kept m' (Xtrace.releaseFragment p fl) ∧ (∀ a ∈ kept, m' a = m a) ∧
        ((p.block.addr, p.block.stop) ∉ (Xtrace.releaseFragment p fl).regions →
          ∀ a, p.block.addr ≤ a → a < p.block.stop → m' a = none) := by
  obtain ⟨m1, m2, hset, hinsert, hs2, hch2⟩ := give_spec hs hu
  obtain ⟨m3, hdefrag, hs3, hch3⟩ := defragment_spec hs2 rfl
    (hfuel : Place.neighbours { p with frag := { p.frag with inUse := false } } < fuel)
  obtain ⟨hk, hu3⟩ := defragment_keeps hs2.ok rfl
  have hsame := Place.SameBlock.trans (p := p) ⟨rfl, rfl, rfl⟩
    (defragment_sameBlock { p with frag := { p.frag with inUse := false } } (p.frag.addr :: fl))
  simp only [Xtrace.releaseFragment]
  set r := Xtrace.defragment { p with frag := { p.frag with inUse := false } } (p.frag.addr :: fl)
    with hr
  have hbase := isMmapBase_spec hs3.image
  have hregions := hsame.regions r.2 fl
  have hrest : r.1.rest = p.rest := hk.rest
  have hblock : r.1.block = p.block := hsame.2.1
  split_ifs with hc
  · obtain ⟨hb, hc⟩ := hc
    push Not at hc
    obtain ⟨haddr, hunused⟩ := blockInUse_first hs3 hu3 hb
    rw [decide_eq_false (not_not.2 hc.2)] at hunused
    obtain ⟨m4, hremove, hload4, hch4, hs4, hout⟩ := unmap_spec hs3 hu3 hb hc.2 (hrest ▸ hkept)
    refine ⟨_, ?_, hs4, fun a ha => ?_, fun _ a ha ha' => ?_⟩
    · rw [haddr] at hbase hremove
      simp [releaseFragment, hset, hinsert, hdefrag, haddr, hbase, hb, hunused, hremove, hload4]
    · rw [m4.unmap_outside fun hin => hout a ha (by unfold Block.stop; omega),
        hch4.outside a (fun h => h ha), hch3.outside a (fun h => h ha),
        hch2.outside a (fun h => h ha)]
    · refine m4.unmap_inside ?_
      rw [hblock]
      unfold Block.stop at ha'
      omega
  · refine ⟨m3, ?_, hs3, fun a ha => ?_, fun hreg => ?_⟩
    · simp only [releaseFragment, hset, hinsert, hdefrag, hbase, bind_eq_bind,
        bind_some, Option.pure_def]
      split_ifs with hb
      · have hne : r.1.block.size ≠ r.1.frag.size := fun heq => hc ⟨hb, by simp [hu3, heq]⟩
        obtain ⟨haddr, hused⟩ := blockInUse_first hs3 hu3 hb
        rw [decide_eq_true hne] at hused
        simp [haddr, hused]
      · rfl
    · rw [hch3.outside a (fun h => h ha), hch2.outside a (fun h => h ha)]
    · refine absurd ?_ hreg
      rw [hregions]
      exact p.region_mem fl

end

end Darling.XtraceMalloc
