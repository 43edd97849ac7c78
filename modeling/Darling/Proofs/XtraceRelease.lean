import Darling.Proofs.XtraceMalloc

/-!
# What `release_fragment` leaves

The fragment and the free ones next to it become one, which has no free neighbour any more, and a
block in which nothing is in use is unmapped.
-/

namespace Darling.XtraceMalloc

open Queue Xtrace List

/-- The heap is in the memory: every block is mapped, the flags of its fragments are in their
headers and its list links them, and `free_list` is outside of the blocks. -/
structure InMemory (freeList : ℕ) (m : Memory) (h : Heap) : Prop where
  bound : freeList + 8 ≤ 2 ^ 64
  outside : ∀ b ∈ h.blocks, freeList + 8 ≤ b.addr ∨ b.stop ≤ freeList
  mapped : ∀ b ∈ h.blocks, ∀ a, b.addr ≤ a → a < b.stop → (m a).isSome
  sizes : ∀ b ∈ h.blocks, m.load b.addr = some b.size
  lists : ∀ b ∈ h.blocks, IsList blockLink m (b.addr + 8) (b.fragmentList.map Fragment.addr)
  flags : ∀ f ∈ h.fragments, m.load f.addr = some (flagsOf f)
  free : IsList freeLink m freeList h.freeList

variable {freeList : ℕ} {kept : Set ℕ} {m : Memory} {h : Heap}

theorem Stored.inMemory (hs : Stored freeList kept m h) : InMemory freeList m h where
  bound := hs.image.bound (freeList, 8) (by simp [regions])
  outside b hb := hs.outside (b.addr, b.stop) (mem_map.2 ⟨b, hb, rfl⟩)
  mapped b hb := hs.mapped (b.addr, b.stop) (mem_map.2 ⟨b, hb, rfl⟩)
  sizes := hs.image.sizes
  lists := hs.image.lists
  flags := hs.image.flags
  free := hs.image.free

theorem regions_apart (hok : h.Ok) (hm : InMemory freeList m h) :
    (regions freeList (h.blocks.map Block.addr) (h.fragments.map Fragment.addr)).Pairwise
      RegionApart := by
  have hacross : ∀ b ∈ h.blocks, ∀ f ∈ h.fragments, RegionApart (b.addr, 16)
    (f.addr, headerSize) := by
    intro b hb f hf
    obtain ⟨c, hc, hle, hstop⟩ := hok.bounds hf
    unfold RegionApart Fragment.length at *
    by_cases hbc : b = c
    · subst hbc
      exact .inl hle
    · have := hok.apart.forall hb hc hbc
      unfold Block.Apart Block.stop blockSize at *
      omega
  refine pairwise_cons.2 ⟨fun r hr => ?_, pairwise_append.2
    ⟨pairwise_map.2 (pairwise_map.2 (hok.apart.imp fun {b c} hbc => ?_)),
      pairwise_map.2 (pairwise_map.2 (hok.fragments_apart.imp fun {f g} hfg => ?_)),
      fun r hr s hs => ?_⟩⟩
  · rcases mem_append.1 hr with hr | hr
    · obtain ⟨b, ⟨b, hb, rfl⟩, rfl⟩ := by simpa only [mem_map] using hr
      have := hm.outside b hb
      unfold RegionApart Block.stop blockSize at *
      omega
    · obtain ⟨x, ⟨f, hf, rfl⟩, rfl⟩ := by simpa only [mem_map] using hr
      obtain ⟨b, hb, hle, hstop⟩ := hok.bounds hf
      have := hm.outside b hb
      unfold RegionApart Fragment.length at *
      omega
  · unfold Block.Apart Block.stop blockSize at hbc
    unfold RegionApart
    omega
  · unfold Fragment.Apart Fragment.length at hfg
    unfold RegionApart
    omega
  · obtain ⟨b, ⟨b, hb, rfl⟩, rfl⟩ := by simpa only [mem_map] using hr
    obtain ⟨x, ⟨f, hf, rfl⟩, rfl⟩ := by simpa only [mem_map] using hs
    exact hacross b hb f hf

theorem InMemory.stored (hok : h.Ok) (hm : InMemory freeList m h)
    (hkept : ∀ a ∈ kept, ∃ f ∈ h.fragments, f.addr + headerSize ≤ a ∧ a < f.addr + f.length) :
    Stored freeList kept m h := by
  have hout : ∀ r ∈ h.regions, freeList + 8 ≤ r.1 ∨ r.2 ≤ freeList := by
    intro r hr
    obtain ⟨b, hb, rfl⟩ := mem_map.1 hr
    exact hm.outside b hb
  have hbounds : ∀ f ∈ h.fragments, 0 < f.addr ∧ f.addr + f.length ≤ 2 ^ 62 := fun f hf => by
    obtain ⟨b, hb, hle, hstop⟩ := hok.bounds hf
    have := (hok.blocks b hb).stop_le
    omega
  have hsize : ∀ f ∈ h.fragments, f.size < 2 ^ 62 := fun f hf => by
    have := (hbounds f hf).2
    unfold Fragment.length headerSize at this
    omega
  have hnodup : h.freeList.Nodup := by
    refine hok.free.nodup_iff.2 (pairwise_map.2 ((hok.fragments_apart.filter _).imp ?_))
    intro f g hfg heq
    unfold Fragment.Apart Fragment.length headerSize at hfg
    omega
  refine ⟨hok, ⟨⟨regions_apart hok hm, fun r hr a ha => ?_, fun r hr => ?_, fun x hx => ?_⟩,
    hm.flags,
    hsize, fun f hf a ha ha' => ?_, hm.sizes, hm.lists, hm.free, hnodup, ?_⟩, hout, ?_⟩
  · obtain ⟨f, hf, hle, hlt⟩ := hkept a ha
    have := payload_apart hok hout hf r hr
    omega
  · rcases region_inside hok hr with rfl | ⟨b, hb, -, hstop⟩
    · exact hm.bound
    · have := (hok.blocks b hb).stop_le
      omega
  · obtain ⟨f, hf, rfl⟩ := mem_map.1 hx
    exact (hbounds f hf).1.ne'
  · obtain ⟨b, hb, hle, hstop⟩ := hok.bounds hf
    unfold Fragment.length at hstop
    exact hm.mapped b hb a (by omega) (by omega)
  · exact List.Subset.trans hok.free.subset (map_subset _ filter_sublist.subset)
  · intro r hr
    obtain ⟨b, hb, rfl⟩ := mem_map.1 hr
    exact hm.mapped b hb

variable {r : Place × List ℕ} {p : Place}

section Defragment

variable {p : Place} {fl : List ℕ}

theorem defragment_done (p : Place) (fl : List ℕ) :
    Xtrace.mergePrev (Xtrace.defragment p fl).1 (Xtrace.defragment p fl).2 = none ∧
      Xtrace.mergeNext (Xtrace.defragment p fl).1 (Xtrace.defragment p fl).2 = none := by
  fun_induction Xtrace.defragment p fl with
  | case1 p fl r hp r' hn ih => exact ih
  | case2 p fl r hp hn ih => exact ih
  | case3 p fl hp r' hn ih => exact ih
  | case4 p fl hp hn => exact ⟨hp, hn⟩

theorem neighbours_inUse (hok : Heap.Ok ⟨p.blocks, fl⟩) (hp : Xtrace.mergePrev p fl = none)
    (hn : Xtrace.mergeNext p fl = none) :
    (∀ g ∈ p.before.head?, g.inUse = true) ∧ ∀ g ∈ p.after.head?, g.inUse = true := by
  unfold Xtrace.mergePrev at hp
  unfold Xtrace.mergeNext at hn
  constructor
  · rcases hb : p.before with _ | ⟨q, before⟩
    · nofun
    have hbase : p.frag.isMmapBase = false := by
      rw [Bool.eq_false_iff, ne_eq, base_iff hok, hb]
      exact cons_ne_nil _ _
    simp only [hb, hbase, true_and, ite_eq_right_iff, reduceCtorEq, imp_false,
      Bool.not_eq_false] at hp
    rintro g ⟨⟩
    exact hp
  · rcases ha : p.after with _ | ⟨q, after⟩
    · nofun
    simp only [ha, ite_eq_right_iff, reduceCtorEq, imp_false, Bool.not_eq_false] at hn
    rintro g ⟨⟩
    exact hn

def Covers (p q : Place) : Prop :=
  q.frag.addr ≤ p.frag.addr ∧ p.frag.addr + p.frag.length ≤ q.frag.addr + q.frag.length

theorem Covers.trans {q r : Place} (h : Covers p q) (h' : Covers q r) : Covers p r :=
  ⟨h'.1.trans h.1, h.2.trans h'.2⟩

theorem next_addr {b : Block} (hb : b.Ok) {xs zs : List Fragment} {f g : Fragment}
    (h : b.fragmentList = xs ++ f :: g :: zs) :
    g.addr = f.addr + f.length ∧ g.addr + g.length ≤ 2 ^ 62 := by
  have htiles := hb.tiles
  rw [h] at htiles
  obtain ⟨mid, -, rfl, hg, hrest⟩ := Tiles.append_iff.1 htiles
  have := hrest.le.trans hb.stop_le
  exact ⟨hg, by omega⟩

section

variable (hok : Heap.Ok ⟨p.blocks, fl⟩)

include hok

theorem mergePrev_covers (hr : Xtrace.mergePrev p fl = some r) : Covers p r.1 := by
  obtain ⟨q, before, hb, -, -, rfl⟩ := mergePrev_cases hr
  obtain ⟨haddr, hle⟩ := next_addr (place_block_ok hok)
    (show p.fragmentList = before.reverse ++ q :: p.frag :: p.after by simp [Place.fragmentList,
      hb])
  unfold Covers
  simp only [Fragment.length, Fragment.setSize] at *
  rw [Nat.mod_eq_of_lt (by unfold headerSize at *; omega)]
  omega

theorem mergeNext_covers (hr : Xtrace.mergeNext p fl = some r) : Covers p r.1 := by
  obtain ⟨g, after, ha, -, rfl⟩ := mergeNext_cases hr
  obtain ⟨haddr, hle⟩ := next_addr (place_block_ok hok)
    (show p.fragmentList = p.before.reverse ++ p.frag :: g :: after by simp [Place.fragmentList,
      ha])
  unfold Covers
  simp only [Fragment.length, Fragment.setSize] at *
  rw [Nat.mod_eq_of_lt (by unfold headerSize at *; omega)]
  omega

theorem defragment_covers (hu : p.frag.inUse = false) : Covers p (Xtrace.defragment p fl).1 := by
  fun_induction Xtrace.defragment p fl with
  | case1 p fl r hp r' hn ih =>
    obtain ⟨hk, hu⟩ := mergePrev_keeps hok hu hp
    obtain ⟨hk', hu'⟩ := mergeNext_keeps hk.ok hu hn
    exact ((mergePrev_covers hok hp).trans (mergeNext_covers hk.ok hn)).trans (ih hk'.ok hu')
  | case2 p fl r hp hn ih =>
    obtain ⟨hk, hu⟩ := mergePrev_keeps hok hu hp
    exact (mergePrev_covers hok hp).trans (ih hk.ok hu)
  | case3 p fl hp r' hn ih =>
    obtain ⟨hk, hu⟩ := mergeNext_keeps hok hu hn
    exact (mergeNext_covers hok hn).trans (ih hk.ok hu)
  | case4 p fl hp hn => exact ⟨le_rfl, le_rfl⟩

end

theorem inUse_of_sameBlock {q : Place} (hrest : q.rest = p.rest) (hsame : p.SameBlock q) :
    (q.before.reverse ++ q.after).filter Fragment.inUse =
      (p.before.reverse ++ p.after).filter Fragment.inUse := by
  obtain ⟨hleft, -, hright⟩ := hsame
  unfold Place.rest at hrest
  rw [hleft, hright, filter_append, filter_append _ (p.before.reverse ++ _),
    append_cancel_left_eq, ← append_assoc, ← append_assoc, filter_append,
    filter_append (p.before.reverse ++ p.after)] at hrest
  exact append_cancel_right hrest

theorem unmaps_iff (hok : Heap.Ok ⟨p.blocks, fl⟩) (hp : Xtrace.mergePrev p fl = none)
    (hn : Xtrace.mergeNext p fl = none) : (p.frag.isMmapBase = true ∧ p.block.size = p.frag.size) ↔
      ∀ g ∈ p.before.reverse ++ p.after, g.inUse = false := by
  obtain ⟨hbefore, hafter⟩ := neighbours_inUse hok hp hn
  constructor
  · rintro ⟨hbase, hsize⟩ g hg
    obtain ⟨hb, ha⟩ := alone_of_base hok hbase hsize
    simp [hb, ha] at hg
  · intro hfree
    have hb : p.before = [] := by
      rcases hb : p.before with _ | ⟨q, before⟩
      · rfl
      · have := hbefore q (by simp [hb])
        rw [hfree q (by simp [hb])] at this
        cases this
    have ha : p.after = [] := by
      rcases ha : p.after with _ | ⟨q, after⟩
      · rfl
      · have := hafter q (by simp [ha])
        rw [hfree q (by simp [ha])] at this
        cases this
    refine ⟨(base_iff hok).2 hb, ?_⟩
    have htiles := (place_block_ok hok).tiles
    simp only [Place.fragmentList, hb, ha, reverse_nil, nil_append, Tiles] at htiles
    unfold Fragment.length Block.stop headerSize blockSize at htiles
    simp only at htiles
    omega

end Defragment

/-- `release_fragment` of the fragment `f` of the block `b`: what is in the memory then. -/
structure Released (freeList : ℕ) (m m' : Memory) (h h' : Heap) (b : Block) (f : Fragment) :
    Prop where
  ok : h'.Ok
  inMemory : InMemory freeList m' h'
  live : ∀ g, g ∈ h'.liveFragments ↔ g ∈ h.liveFragments ∧ g ≠ f
  contents : ∀ g ∈ h'.liveFragments, ∀ a, g.addr + headerSize ≤ a → a < g.addr + g.length →
    m' a = m a
  unmapped : (∀ a, b.addr ≤ a → a < b.stop → m' a = none) ↔
    ∀ g ∈ b.fragmentList, g.inUse = true → g = f
  forgotten : (∀ g ∈ b.fragmentList, g.inUse = true → g = f) →
    ∀ x ∈ h'.freeList, x < b.addr ∨ b.stop ≤ x
  merged : (∃ g ∈ b.fragmentList, g.inUse = true ∧ g ≠ f) → ∃ q : Place, q.blocks = h'.blocks ∧
    q.frag.inUse = false ∧ q.frag.addr ≤ f.addr ∧
    f.addr + f.length ≤ q.frag.addr + q.frag.length ∧
    (∀ g ∈ q.before.head?, g.inUse = true) ∧ ∀ g ∈ q.after.head?, g.inUse = true

section Place

variable {p : Place} {fl : List ℕ}

def afterLoop (p : Place) (fl : List ℕ) : Place × List ℕ :=
  Xtrace.defragment { p with frag := { p.frag with inUse := false } } (p.frag.addr :: fl)

structure AfterLoop (p : Place) (r : Place × List ℕ) : Prop extends Xtrace.Keeps p r where
  inUse : r.1.frag.inUse = false
  sameBlock : p.SameBlock r.1
  covers : Covers p r.1
  prev : Xtrace.mergePrev r.1 r.2 = none
  next : Xtrace.mergeNext r.1 r.2 = none

theorem afterLoop_spec (hok : Heap.Ok ⟨p.blocks, fl⟩) (hu : p.frag.inUse = true) :
    AfterLoop p (afterLoop p fl) := by
  have hgive := give_keeps hok hu
  obtain ⟨hk, hu'⟩ := defragment_keeps hgive.ok rfl
  obtain ⟨hprev, hnext⟩ := defragment_done { p with frag := { p.frag with inUse := false } }
    (p.frag.addr :: fl)
  exact ⟨⟨hk.ok, hk.rest⟩, hu', defragment_sameBlock
    { p with frag := { p.frag with inUse := false } }
    (p.frag.addr :: fl), defragment_covers hgive.ok rfl, hprev, hnext⟩

def Idle (p : Place) : Prop := ∀ g ∈ p.before.reverse ++ p.after, g.inUse = false

theorem AfterLoop.unmaps_iff (h : AfterLoop p r) :
    (r.1.frag.isMmapBase = true ∧ r.1.block.size = r.1.frag.size) ↔ Idle p := by
  have hfilter := inUse_of_sameBlock h.rest h.sameBlock
  rw [XtraceMalloc.unmaps_iff h.ok h.prev h.next, Idle]
  have hidle : ∀ fs : List Fragment, (∀ g ∈ fs, g.inUse = false) ↔
    fs.filter Fragment.inUse = [] := by
    intro fs
    simp [filter_eq_nil_iff]
  rw [hidle, hidle, hfilter]

section

variable (hok : Heap.Ok ⟨p.blocks, fl⟩) (hu : p.frag.inUse = true)

include hok hu

theorem releaseFragment_eq : (Idle p → Xtrace.releaseFragment p fl =
        ⟨p.left ++ p.right, (afterLoop p fl).2.erase (afterLoop p fl).1.frag.addr⟩) ∧
      (¬ Idle p → Xtrace.releaseFragment p fl =
        ⟨(afterLoop p fl).1.blocks, (afterLoop p fl).2⟩) := by
  have h := afterLoop_spec hok hu
  set r := afterLoop p fl
  have hunfold : Xtrace.releaseFragment p fl =
      if r.1.frag.isMmapBase ∧ ¬ (r.1.frag.inUse ∨ r.1.block.size ≠ r.1.frag.size) then
        ⟨r.1.left ++ r.1.right, r.2.erase r.1.frag.addr⟩
      else ⟨r.1.blocks, r.2⟩ := rfl
  have hcond : (r.1.frag.isMmapBase = true ∧
      ¬ (r.1.frag.inUse = true ∨ r.1.block.size ≠ r.1.frag.size)) ↔ Idle p := by
    rw [← h.unmaps_iff, h.inUse]
    simp
  rw [hunfold]
  refine ⟨fun hidle => ?_, fun hidle => if_neg fun hc => hidle (hcond.1 hc)⟩
  rw [if_pos (hcond.2 hidle), h.sameBlock.1, h.sameBlock.2.2]

theorem releaseFragment_live (g : Fragment) :
    g ∈ (Xtrace.releaseFragment p fl).liveFragments ↔ g ∈ p.rest := by
  have h := afterLoop_spec hok hu
  by_cases hidle : Idle p
  · rw [(releaseFragment_eq hok hu).1 hidle]
    obtain ⟨hbase, hsize⟩ := h.unmaps_iff.2 hidle
    have hlive := (unmap_ok h.ok h.inUse hbase hsize).2
    rw [h.sameBlock.1, h.sameBlock.2.2] at hlive
    rw [hlive, h.rest]
  · rw [(releaseFragment_eq hok hu).2 hidle, Place.mem_liveFragments, h.rest, h.inUse]
    simp

end

end Place

theorem exists_place {b : Block} {f : Fragment} (hb : b ∈ h.blocks) (hf : f ∈ b.fragmentList) :
    ∃ p : Place, p.blocks = h.blocks ∧ p.frag = f ∧ p.block = b ∧
      p.fragmentList = b.fragmentList := by
  obtain ⟨left, right, hblocks⟩ := append_of_mem hb
  obtain ⟨xs, zs, hlist⟩ := append_of_mem hf
  refine ⟨⟨left, b, xs.reverse, f, zs, right⟩, ?_, rfl, rfl, by simp [Place.fragmentList, hlist]⟩
  simp [Place.blocks, Place.fragmentList, hblocks, ← hlist]

def Place.payloads (p : Place) : Set ℕ :=
  { a | ∃ g ∈ p.rest, g.addr + headerSize ≤ a ∧ a < g.addr + g.length }

theorem rest_subset (fl : List ℕ) {g : Fragment} (hg : g ∈ p.rest) :
    g ∈ (Heap.mk p.blocks fl).fragments := others_mem fl (mem_filter.1 hg).1

theorem idle_iff (hne : ∀ g ∈ p.others, g ≠ p.frag) :
    (∀ g ∈ p.fragmentList, g.inUse = true → g = p.frag) ↔ Idle p := by
  have hmem : ∀ g, g ∈ p.fragmentList ↔ g = p.frag ∨ g ∈ p.before.reverse ++ p.after := by
    intro g
    simp only [Place.fragmentList, mem_append, mem_cons]
    tauto
  have hother : ∀ g ∈ p.before.reverse ++ p.after, g ∈ p.others := by
    intro g hg
    simp only [Place.others, mem_append] at hg ⊢
    tauto
  constructor
  · exact fun hall g hg => Bool.eq_false_iff.2 fun hug =>
      hne g (hother g hg) (hall g ((hmem g).2 (.inr hg)) hug)
  · intro hall g hg hug
    rcases (hmem g).1 hg with rfl | hg
    · rfl
    · exact absurd (hall g hg) (by simp [hug])

theorem releaseFragment_released (hok : h.Ok) (hm : InMemory freeList m h) {b : Block}
    {f : Fragment} (hb : b ∈ h.blocks) (hf : f ∈ b.fragmentList) (hu : f.inUse = true) {fuel : ℕ}
    (hfuel : b.fragmentList.length ≤ fuel) : ∃ m' h',
      releaseFragment freeList fuel m f.addr = some m' ∧ Released freeList m m' h h' b f := by
  obtain ⟨p, hblocks, rfl, rfl, hlist⟩ := exists_place hb hf
  obtain ⟨blocks, fl⟩ := h
  subst hblocks
  have hs : Stored freeList (Place.payloads p) m ⟨p.blocks, fl⟩ := hm.stored hok fun a ha => by
    obtain ⟨g, hg, hle, hlt⟩ := ha
    exact ⟨g, rest_subset fl hg, hle, hlt⟩
  have hlen : p.fragmentList.length = p.neighbours + 1 := by
    simp only [Place.fragmentList, Place.neighbours, length_append, length_reverse, length_cons]
    omega
  rw [← hlist] at hfuel
  obtain ⟨m', hrelease, hs', hkeep, hgone⟩ := releaseFragment_spec hs hu
    (show p.neighbours < fuel by omega) fun a ha => by
      obtain ⟨g, hg, hle, hlt⟩ := ha
      exact ⟨g, hg, by omega, hlt⟩
  have hloop := afterLoop_spec hok hu
  have hlive := releaseFragment_live hok hu
  have hne : ∀ g ∈ p.others, g ≠ p.frag := fun g hg heq =>
    hs.image.frag_notMem_others (heq ▸ mem_map_of_mem hg)
  have hidle : (∀ g ∈ p.block.fragmentList, g.inUse = true → g = p.frag) ↔ Idle p :=
    hlist ▸ idle_iff hne
  have hpos : p.block.addr < p.block.stop := by
    unfold Block.stop blockSize
    omega
  obtain ⟨hunmapped, hstays⟩ := releaseFragment_eq hok hu
  refine ⟨m', Xtrace.releaseFragment p fl, hrelease, ⟨hs'.ok, hs'.inMemory, fun g => ?_,
    fun g hg a ha ha' => hkeep a ⟨g, (hlive g).1 hg, ha, ha'⟩, ?_, fun hall x hx => ?_,
    ?_⟩⟩
  · rw [hlive, Place.mem_liveFragments]
    refine ⟨fun hg => ⟨.inl hg, hne g (mem_filter.1 hg).1⟩, ?_⟩
    rintro ⟨hg | ⟨rfl, -⟩, hgf⟩
    · exact hg
    · exact absurd rfl hgf
  · rw [hidle]
    by_cases hi : Idle p
    · refine iff_of_true (hgone fun hmem => ?_) hi
      rw [hunmapped hi] at hmem
      obtain ⟨c, hc, heq⟩ := mem_map.1 hmem
      have := Heap.Ok.other_apart hok hc
      simp only [Prod.mk.injEq] at heq
      omega
    · refine iff_of_false (fun hnone => ?_) hi
      rw [hstays hi] at hs'
      have := hs'.mapped _ (hloop.sameBlock.regions _ fl ▸ p.region_mem fl) p.block.addr le_rfl hpos
      rw [hnone _ le_rfl hpos] at this
      cases this
  · rw [hunmapped (hidle.1 hall)] at hx hs'
    obtain ⟨g, hg, rfl⟩ := mem_map.1 (hs'.ok.free.subset hx)
    obtain ⟨c, hc, hle, hstop⟩ := hs'.ok.bounds (mem_filter.1 hg).1
    have := Heap.Ok.other_apart hok hc
    unfold Fragment.length headerSize at hstop
    omega
  · rintro ⟨g, hg, hug, hgf⟩
    have hi : ¬ Idle p := fun hi => hgf (hidle.2 hi g hg hug)
    rw [hstays hi]
    exact ⟨_, rfl, hloop.inUse, hloop.covers.1, hloop.covers.2,
      neighbours_inUse hloop.ok hloop.prev hloop.next⟩

section Sample

def sampleHeap : Heap :=
  ⟨[⟨8192, 4040, [⟨8208, 100, true, true⟩, ⟨8348, 3900, false, false⟩]⟩], [8348]⟩

def sampleWords : List (ℕ × ℕ) :=
  [(4096, 8348), (8192, 4040), (8200, 8208), (8208, 3 * 2 ^ 62 + 100), (8216, 8348), (8224, 8200),
    (8348, 3900), (8356, 0), (8364, 8216), (8372, 0), (8380, 4096)]

def sampleMemory : Memory := fun a =>
  if (4096 ≤ a ∧ a < 4104) ∨ (8192 ≤ a ∧ a < 12288) then
    match sampleWords.find? fun w => w.1 ≤ a ∧ a < w.1 + 8 with
    | some w => (le 8 w.2)[a - w.1]?
    | none => some 0
  else none

theorem sampleHeap_ok : sampleHeap.Ok := by
  refine ⟨fun b hb => ?_, pairwise_singleton _ _, List.Perm.refl _⟩
  rw [mem_singleton.1 hb]
  refine ⟨⟨rfl, rfl, rfl⟩, fun f hf => ?_, by decide⟩
  simp only [mem_cons, not_mem_nil, or_false] at hf
  rcases hf with rfl | rfl <;> decide

theorem sampleMemory_mapped {a : ℕ} (h : (4096 ≤ a ∧ a < 4104) ∨ (8192 ≤ a ∧ a < 12288)) :
    (sampleMemory a).isSome := by
  unfold sampleMemory
  rw [if_pos h]
  split
  · rename_i w hw
    have := find?_some hw
    simp only [decide_eq_true_eq] at this
    rw [getElem?_eq_getElem (by rw [le_length]; omega)]
    rfl
  · rfl

theorem sample_inMemory : InMemory 4096 sampleMemory sampleHeap where
  bound := by decide
  outside b hb := by
    rw [mem_singleton.1 hb]
    decide
  mapped b hb a ha ha' := by
    rw [mem_singleton.1 hb] at ha ha'
    exact sampleMemory_mapped (.inr ⟨ha, ha'⟩)
  sizes b hb := by
    rw [mem_singleton.1 hb]
    decide
  lists b hb := by
    rw [mem_singleton.1 hb]
    exact ⟨⟨by decide, by decide, by decide, by decide, by decide, by decide, trivial⟩, by decide⟩
  flags f hf := by
    simp only [sampleHeap, Heap.fragments, flatMap_cons, flatMap_nil, append_nil,
      mem_cons, not_mem_nil, or_false] at hf
    rcases hf with rfl | rfl <;> decide
  free := ⟨⟨by decide, by decide, by decide, trivial⟩, by decide⟩

theorem releaseFragment_sample : ∃ m' h',
    releaseFragment 4096 2 sampleMemory 8208 = some m' ∧
      Released 4096 sampleMemory m' sampleHeap h'
        ⟨8192, 4040, [⟨8208, 100, true, true⟩, ⟨8348, 3900, false, false⟩]⟩
        ⟨8208, 100, true, true⟩ :=
  releaseFragment_released sampleHeap_ok sample_inMemory mem_cons_self mem_cons_self rfl
    le_rfl

end Sample

end Darling.XtraceMalloc
