import Darling.Proofs.XtraceHeap
import Darling.Runs

/-!
# Runs of the xtrace heap

A call keeps the heap in order unless it maps a block that is too small: `allocate_fragment` rounds
the request up to a multiple of 4096 and then takes the headers of the block out of it, so there is
room only if the rounding adds as much.
-/

namespace Darling.Xtrace

open List

section Locate

variable {addr : ℕ} {f : Fragment} {p : Place} {h : Heap}

theorem locateFragment_some {before' after : List Fragment} :
    ∀ {before fs : List Fragment}, locateFragment addr before fs = some (before', f, after) →
      before'.reverse ++ f :: after = before.reverse ++ fs ∧ f.addr = addr
  | _, [], h => by simp [locateFragment] at h
  | before, g :: fs, h => by
    unfold locateFragment at h
    split_ifs at h with hg
    · cases h
      exact ⟨rfl, hg⟩
    · obtain ⟨hlist, haddr⟩ := locateFragment_some h
      exact ⟨by simpa using hlist, haddr⟩

theorem locateFragment_isSome (hf : f.addr = addr) :
    ∀ (before : List Fragment) {fs : List Fragment}, f ∈ fs →
      (locateFragment addr before fs).isSome
  | before, g :: fs, h => by
    unfold locateFragment
    split_ifs with hg
    · rfl
    · rcases mem_cons.1 h with rfl | h
      · exact absurd hf hg
      · exact locateFragment_isSome hf _ h

theorem locateBlock_some : ∀ {left right : List Block},
    locateBlock addr left right = some p → p.blocks = left ++ right ∧ p.frag.addr = addr
  | _, [], h => by simp [locateBlock] at h
  | left, b :: right, h => by
    unfold locateBlock at h
    split at h
    · rename_i before f after hfound
      cases h
      obtain ⟨hlist, haddr⟩ := locateFragment_some hfound
      exact ⟨by simpa [Place.blocks, Place.fragmentList] using hlist ▸ rfl, haddr⟩
    · obtain ⟨hblocks, haddr⟩ := locateBlock_some h
      exact ⟨by simpa using hblocks, haddr⟩

theorem locateBlock_isSome (hf : f.addr = addr) {b : Block}
    (hb : f ∈ b.fragmentList) : ∀ (left : List Block) {right : List Block}, b ∈ right →
      (locateBlock addr left right).isSome
  | left, c :: right, h => by
    unfold locateBlock
    split
    · rfl
    · rename_i hnone
      rcases mem_cons.1 h with rfl | h
      · have := locateFragment_isSome hf [] hb
        simp [hnone] at this
      · exact locateBlock_isSome hf hb _ h

theorem Heap.locate_some (hp : h.locate addr = some p) :
    p.blocks = h.blocks ∧ p.frag.addr = addr := by
  simpa using locateBlock_some hp

theorem Place.frag_mem_fragments (hp : p.blocks = h.blocks) : p.frag ∈ h.fragments := by
  simp [Heap.fragments, ← hp, Place.blocks, Place.fragmentList]

theorem Heap.Ok.locate (hh : h.Ok) (hf : f ∈ h.fragments) :
    ∃ p, h.locate f.addr = some p ∧ p.blocks = h.blocks ∧ p.frag = f := by
  obtain ⟨b, hb, hfb⟩ := mem_flatMap.1 hf
  obtain ⟨p, hp⟩ := Option.isSome_iff_exists.1
    (locateBlock_isSome (Eq.refl f.addr) hfb [] hb)
  obtain ⟨hblocks, haddr⟩ := Heap.locate_some hp
  exact ⟨p, hp, hblocks, hh.eq_of_addr (Place.frag_mem_fragments hblocks) hf haddr⟩

end Locate

variable {h : Heap} {requiredSize base : ℕ}

theorem viableFragment_some {v : Place × ℕ} (hv : viableFragment h requiredSize = some v) :
    ∃ a ∈ h.freeList, h.locate a = some v.1 ∧ requiredSize < v.1.frag.size := by
  revert v
  refine foldlRecOn (motive := fun best => ∀ {v : Place × ℕ}, best = some v →
    ∃ a ∈ h.freeList, h.locate a = some v.1 ∧ requiredSize < v.1.frag.size) h.freeList _ ?_ ?_
  · intro v hv
    cases hv
  · intro best ih a ha v hv
    split at hv
    · exact ih hv
    · rename_i p hp
      split_ifs at hv with hc
      · cases hv
        exact ⟨a, ha, hp, hc.1⟩
      · exact ih hv

theorem Heap.Ok.inUse_of_mem_freeList (hh : h.Ok) {f : Fragment} (hf : f ∈ h.fragments)
    (hfree : f.addr ∈ h.freeList) : f.inUse = false := by
  obtain ⟨g, hg, hga⟩ := mem_map.1 (hh.free.mem_iff.1 hfree)
  obtain ⟨hg, hu⟩ := mem_filter.1 hg
  rw [← hh.eq_of_addr hg hf hga]
  simpa using hu

/-- What a call leaves that returns a fragment: it is in use and large enough, and the other ones
stay in use. -/
structure Gives (others : List Fragment) (requiredSize : ℕ) (h : Heap) (addr : ℕ) : Prop where
  ok : h.Ok
  kept : ∀ f ∈ others, f ∈ h.liveFragments
  given : ∃ f ∈ h.liveFragments, f.addr = addr ∧ requiredSize ≤ f.size
  fresh : ∀ f ∈ others, f.addr ≠ addr

theorem takeFragment_gives {p : Place} {others : List Fragment} {fl : List ℕ}
    (hp : Heap.Ok ⟨p.blocks, fl⟩) (hu : p.frag.inUse = false) (hsize : requiredSize ≤ p.frag.size)
    (hlive : ∀ f ∈ others, f ∈ p.rest) : Gives others requiredSize
      (takeFragment p fl requiredSize).1 (takeFragment p fl requiredSize).2 := by
  have hs := shrinkFragment_resizes hp hsize
  obtain ⟨hok, hrest⟩ := take_keeps hs.ok (hs.inUse.trans hu)
  refine ⟨hok, fun f hf => ?_, ?_, fun f hf he => ?_⟩
  · exact Place.mem_liveFragments.2 (Or.inl (hrest ▸ hs.rest ▸ hlive f hf))
  · exact ⟨_, Place.mem_liveFragments.2 (Or.inr ⟨rfl, rfl⟩), rfl, hs.size⟩
  · -- A fragment in use at the address would be the one that was free.
    have hmem : f ∈ (Heap.mk p.blocks fl).liveFragments :=
      Place.mem_liveFragments.2 (Or.inl (hlive f hf))
    obtain ⟨hmem, huse⟩ := mem_filter.1 hmem
    have := hp.eq_of_addr hmem (Place.frag_mem_fragments rfl) (he.trans hs.addr)
    rw [this, hu] at huse
    cases huse

theorem roundUp_eq (n : ℕ) : roundUp n blockSizeMultiple =
    if n % 4096 = 0 then n else (n / 4096 * 4096 + 4096) % 2 ^ 64 := by
  have hand : n &&& (blockSizeMultiple - 1) = n % 4096 := Nat.and_two_pow_sub_one_eq_mod n 12
  have hor : n ||| (blockSizeMultiple - 1) = 2 ^ 12 * (n / 4096) + (2 ^ 12 - 1) := by
    refine Nat.eq_of_testBit_eq fun i => ?_
    rw [Nat.testBit_or, Nat.testBit_two_pow_mul_add _ (by omega), blockSizeMultiple,
      show 4096 - 1 = 2 ^ 12 - 1 from rfl, Nat.testBit_two_pow_sub_one]
    split_ifs with hi
    · simp [hi]
    · simp only [hi, decide_false, Bool.or_false]
      rw [show 4096 = 2 ^ 12 from rfl, Nat.testBit_div_two_pow]
      congr 1
      omega
  unfold roundUp
  rw [hand, hor]
  split_ifs
  · rfl
  · congr 1
    omega

variable {n : ℕ}

theorem room_iff (hn : n < 2 ^ 64) (hpos : 0 < roundUp n blockSizeMultiple) :
    n + blockSize ≤ roundUp n blockSizeMultiple ↔ 0 < n % 4096 ∧ n % 4096 ≤ 4040 := by
  rw [roundUp_eq] at hpos ⊢
  unfold blockSize
  split_ifs at hpos ⊢ with hmod
  · omega
  · omega

/-- `mmap` returns pages of its own, with addresses to spare. -/
structure Fresh (h : Heap) (requiredSize base : ℕ) : Prop where
  aligned : base % 4096 = 0
  pos : 0 < roundUp requiredSize blockSizeMultiple
  le : base + roundUp requiredSize blockSizeMultiple ≤ 2 ^ 62
  apart : ∀ b ∈ h.blocks, base + roundUp requiredSize blockSizeMultiple ≤ b.addr ∨ b.stop ≤ base

theorem Fresh.blockSize_le (hf : Fresh h requiredSize base)
    (hn : requiredSize < 2 ^ 64) : blockSize < roundUp requiredSize blockSizeMultiple := by
  have := hf.pos
  rw [roundUp_eq] at this ⊢
  unfold blockSize
  split_ifs at this ⊢ with hmod <;> omega

theorem Fresh.wsub_eq (hf : Fresh h requiredSize base) (hn : requiredSize < 2 ^ 64) :
    wsub 64 (roundUp requiredSize blockSizeMultiple) blockSize =
      roundUp requiredSize blockSizeMultiple - blockSize :=
  wsub_of_le (hf.blockSize_le hn).le (by have := hf.le; omega)

theorem newBlock_ok (hh : h.Ok) {size : ℕ} (hle : base + blockSize + size ≤ 2 ^ 62)
    (hapart : ∀ b ∈ h.blocks, base + blockSize + size ≤ b.addr ∨ b.stop ≤ base) :
    Heap.Ok ⟨(newBlock h base size).blocks, (newBlock h base size).frag.addr :: h.freeList⟩ ∧
      (newBlock h base size).frag.size = size := by
  have hmod : size % 2 ^ 62 = size := Nat.mod_eq_of_lt (by unfold blockSize at hle; omega)
  refine ⟨⟨fun b hb => ?_, pairwise_cons.2 ⟨hapart, hh.apart⟩, ?_⟩, hmod⟩
  · rcases mem_cons.1 hb with rfl | hb
    · refine ⟨?_, ?_, hle⟩
      · simp only [newBlock, Place.fragmentList, Tiles, Fragment.init, Fragment.length, Block.stop,
          headerSize, blockSize, hmod, reverse_nil, nil_append, true_and]
        omega
      · simp [newBlock, Place.fragmentList, Fragment.init]
    · exact hh.blocks b hb
  · refine Perm.trans (Perm.cons _ hh.free) ?_
    simp [Heap.fragments, newBlock, Place.blocks, Place.fragmentList, Fragment.init, freeAddrs_cons]

theorem newBlock_rest (h : Heap) (base size : ℕ) :
    (newBlock h base size).rest = h.liveFragments := by
  simp [Place.rest, newBlock, Heap.liveFragments, Heap.fragments]

theorem allocateFragment_spec (hh : h.Ok) {mmap : Option ℕ} (hn : requiredSize < 2 ^ 64)
    (hf : ∀ base, mmap = some base → Fresh h requiredSize base)
    (hroom : viableFragment h requiredSize = none → mmap.isSome →
      requiredSize + blockSize ≤ roundUp requiredSize blockSizeMultiple) :
    allocateFragment h requiredSize mmap = (h, none) ∨
      ∃ h' addr, allocateFragment h requiredSize mmap = (h', some addr) ∧
        Gives h.liveFragments requiredSize h' addr := by
  rcases hv : viableFragment h requiredSize with _ | ⟨p, size⟩
  · rcases mmap with _ | base
    · exact Or.inl (by simp [allocateFragment, hv])
    · have hfresh := hf base rfl
      have hlt := hfresh.blockSize_le hn
      have hle := hfresh.le
      have hroom := hroom hv rfl
      have hstop : base + blockSize + (roundUp requiredSize blockSizeMultiple - blockSize) =
          base + roundUp requiredSize blockSizeMultiple := by omega
      obtain ⟨hok, hsize⟩ := newBlock_ok hh (hstop.trans_le hle) (by rw [hstop]; exact hfresh.apart)
      have hrest := newBlock_rest h base (roundUp requiredSize blockSizeMultiple - blockSize)
      simp only [allocateFragment, hv, hfresh.wsub_eq hn]
      refine Or.inr ⟨_, _, rfl, takeFragment_gives hok ?_ ?_ ?_⟩
      · rfl
      · rw [hsize]
        omega
      · rw [hrest]
        exact fun f hf => hf
  · obtain ⟨a, ha, hp, hsize⟩ := viableFragment_some hv
    obtain ⟨hblocks, haddr⟩ := Heap.locate_some hp
    have hu : p.frag.inUse = false :=
      hh.inUse_of_mem_freeList (Place.frag_mem_fragments hblocks) (haddr ▸ ha)
    obtain ⟨blocks, fl⟩ := h
    subst hblocks
    have hrest : ∀ f ∈ (Heap.mk p.blocks fl).liveFragments, f ∈ p.rest := by
      intro f hf
      rcases Place.mem_liveFragments.1 hf with hf | ⟨-, hf⟩
      · exact hf
      · rw [hu] at hf
        cases hf
    simp only [allocateFragment, hv]
    exact Or.inr ⟨_, _, rfl, takeFragment_gives hh hu hsize.le hrest⟩

variable {newSize : ℕ}

theorem expandScan_spec {count total : ℕ} : ∀ {available : ℕ} {after : List Fragment},
    available < newSize → expandScan newSize available after = (some count, total) →
      newSize ≤ total → count ≤ after.length ∧ (∀ f ∈ after.take count, f.inUse = false) ∧
        total = available + ((after.take count).map Fragment.length).sum
  | _, [], _, h, _ => by simp [expandScan] at h
  | available, next :: after, hlt, h, hle => by
    unfold expandScan at h
    split_ifs at h with hu hfits
    · cases h
      omega
    · cases h
      refine ⟨by simp, by simpa using hu, ?_⟩
      simp [Fragment.length]
      omega
    · simp only [Prod.mk.injEq, Option.map_eq_some_iff] at h
      obtain ⟨⟨count', hcount, rfl⟩, htotal⟩ := h
      obtain ⟨hlen, hfree, hsum⟩ :=
        expandScan_spec (by omega) (Prod.ext hcount htotal) hle
      refine ⟨by simpa using hlen, ?_, ?_⟩
      · simpa using ⟨by simpa using hu, hfree⟩
      · simp only [take_succ_cons, map_cons, sum_cons, Fragment.length] at hsum ⊢
        omega

variable {r : Place × List ℕ}

theorem expandFragment_resizes {p : Place} {fl : List ℕ}
    (h : Heap.Ok ⟨p.blocks, fl⟩) (hlt : p.frag.size < newSize)
    (hr : expandFragment p fl newSize = some r) : Resizes p newSize r := by
  unfold expandFragment at hr
  rcases hscan : expandScan newSize p.frag.size p.after with ⟨_ | count, available⟩
  · simp [hscan] at hr
  · simp only [hscan] at hr
    split_ifs at hr with hle
    obtain ⟨hlen, hfree, hsum⟩ := expandScan_spec hlt hscan hle
    have ha := absorb_resizes h hlen hfree
    have hs := shrinkFragment_resizes ha.ok ((hle.trans hsum.le).trans ha.size)
    cases hr
    exact ⟨⟨hs.ok, hs.rest.trans ha.rest⟩, hs.addr.trans ha.addr, hs.inUse.trans ha.inUse, hs.size⟩

variable {addr : ℕ}

section Calls

variable {h : Heap} {p : Place} {f : Fragment}

theorem mem_rest_of_ne (hp : p.blocks = h.blocks) (hf : f ∈ h.liveFragments)
    (hne : f.addr ≠ p.frag.addr) : f ∈ p.rest := by
  obtain ⟨blocks, fl⟩ := h
  subst hp
  rcases Place.mem_liveFragments.1 hf with hf | ⟨rfl, -⟩
  · exact hf
  · exact absurd rfl hne

theorem ok_of_blocks (hh : h.Ok) (hp : p.blocks = h.blocks) : Heap.Ok ⟨p.blocks, h.freeList⟩ := by
  rw [hp]
  exact hh

/-- The fragments in use at other addresses. -/
def Heap.others (h : Heap) (addr : ℕ) : List Fragment :=
    h.liveFragments.filter fun f => f.addr ≠ addr

theorem Resizes.gives (hr : Resizes p n r) (hp : p.blocks = h.blocks) (hu : p.frag.inUse = true) :
    Gives (h.others p.frag.addr) n ⟨r.1.blocks, r.2⟩ p.frag.addr := by
  refine ⟨hr.ok, fun f hf => ?_, ?_, fun f hf => ?_⟩
  · obtain ⟨hf, hne⟩ := mem_filter.1 hf
    refine Place.mem_liveFragments.2 (Or.inl ?_)
    rw [hr.rest]
    exact mem_rest_of_ne hp hf (by simpa using hne)
  · exact ⟨r.1.frag, Place.mem_liveFragments.2 (Or.inr ⟨rfl, hr.inUse.trans hu⟩), hr.addr, hr.size⟩
  · simpa using (mem_filter.1 hf).2

theorem xtraceFree_ok (hh : h.Ok) (hf : f ∈ h.liveFragments) :
    (xtraceFree h (f.addr + headerSize)).Ok ∧
      ∀ g ∈ h.others f.addr, g ∈ (xtraceFree h (f.addr + headerSize)).liveFragments := by
  obtain ⟨hmem, hu⟩ := mem_filter.1 hf
  obtain ⟨p, hp, hblocks, rfl⟩ := hh.locate hmem
  simp only [xtraceFree, Nat.add_sub_cancel, hp]
  obtain ⟨hok, hrest⟩ := releaseFragment_ok (ok_of_blocks hh hblocks) hu
  refine ⟨hok, fun g hg => hrest g ?_⟩
  obtain ⟨hg, hne⟩ := mem_filter.1 hg
  exact mem_rest_of_ne hblocks hg (by simpa using hne)

theorem Gives.free {h' : Heap} (hf : f ∈ h.liveFragments) (hg : Gives h.liveFragments n h' addr) :
    Gives (h.others f.addr) n (xtraceFree h' (f.addr + headerSize)) addr := by
  obtain ⟨hok, hkept⟩ := xtraceFree_ok hg.ok (hg.kept f hf)
  refine ⟨hok, fun g hgm => hkept g ?_, ?_, fun g hgm => hg.fresh g (mem_filter.1 hgm).1⟩
  · obtain ⟨hgm, hne⟩ := mem_filter.1 hgm
    exact mem_filter.2 ⟨hg.kept g hgm, hne⟩
  · obtain ⟨g, hgm, haddr, hsize⟩ := hg.given
    have hne : f.addr ≠ g.addr := haddr ▸ hg.fresh f hf
    exact ⟨g, hkept g (mem_filter.2 ⟨hgm, by simpa using hne.symm⟩), haddr, hsize⟩

theorem xtraceRealloc_spec (hh : h.Ok) (hf : f ∈ h.liveFragments) {mmap : Option ℕ}
    (hn : newSize < 2 ^ 64) (hfresh : ∀ base, mmap = some base → Fresh h newSize base)
    (hroom : ∀ p, h.locate f.addr = some p → p.frag.size < newSize →
      expandFragment p h.freeList newSize = none → viableFragment h newSize = none →
      mmap.isSome → newSize + blockSize ≤ roundUp newSize blockSizeMultiple) :
    xtraceRealloc h (f.addr + headerSize) newSize mmap = (h, none) ∨
      ∃ h' addr, xtraceRealloc h (f.addr + headerSize) newSize mmap =
        (h', some (addr + headerSize)) ∧
        Gives (h.others f.addr) newSize h' addr := by
  obtain ⟨hmem, hu⟩ := mem_filter.1 hf
  obtain ⟨p, hp, hblocks, rfl⟩ := hh.locate hmem
  have hok := ok_of_blocks hh hblocks
  simp only [xtraceRealloc, Nat.add_sub_cancel, hp]
  split_ifs with hlt heq
  · exact Or.inr ⟨_, _, rfl, (shrinkFragment_resizes hok hlt.le).gives hblocks hu⟩
  · refine Or.inr ⟨h, _, rfl, ?_⟩
    have hsame : Resizes p newSize (p, h.freeList) := ⟨⟨hok, rfl⟩, rfl, rfl, heq.le⟩
    have := hsame.gives hblocks hu
    rwa [hblocks] at this
  · rcases he : expandFragment p h.freeList newSize with _ | r
    · rcases allocateFragment_spec hh hn hfresh (hroom p hp (by omega) he) with hnone |
        ⟨h', addr, hsome, hg⟩
      · exact Or.inl (by simp [hnone])
      · simp only [hsome]
        exact Or.inr ⟨_, _, rfl, hg.free hf⟩
    · exact Or.inr ⟨_, _, rfl, (expandFragment_resizes hok (by omega) he).gives hblocks hu⟩

end Calls

/-- What a caller can rely on: the memory behind each pointer lies in one mapped block, it is the
payload of a fragment in use, and no two fragments in use overlap. -/
structure Guarantee (s : State) : Prop where
  inside : ∀ x ∈ s.live, ∃ b ∈ s.heap.blocks, b.addr ≤ x.1 ∧ x.1 + x.2 ≤ b.stop
  held : ∀ x ∈ s.live, ∃ f ∈ s.heap.liveFragments, f.addr + headerSize = x.1 ∧ x.2 ≤ f.size
  distinct : (s.live.map Prod.fst).Nodup
  apart : s.heap.liveFragments.Pairwise Fragment.Apart

/-- Calls with pointers that are live and sizes that are not zero, and `mmap` returns regions of
their own. -/
def Permitted (s : State) : Call → Prop
  | .malloc size mmap =>
    0 < size ∧ size < 2 ^ 64 ∧ ∀ base, mmap = some base → Fresh s.heap size base
  | .realloc pointer size mmap =>
    pointer ∈ s.live.map Prod.fst ∧ 0 < size ∧ size < 2 ^ 64 ∧
      ∀ base, mmap = some base → Fresh s.heap size base
  | .free pointer => pointer ∈ s.live.map Prod.fst

/-- The call gets to `mmap`, which does not fail: no free fragment is larger than the request, and
the fragment of the pointer can not grow to it. -/
def MapsBlock (h : Heap) : Call → Prop
  | .malloc size mmap => viableFragment h size = none ∧ mmap.isSome
  | .realloc pointer size mmap =>
    (∃ p, h.locate (pointer - headerSize) = some p ∧ p.frag.size < size ∧
      expandFragment p h.freeList size = none) ∧ viableFragment h size = none ∧ mmap.isSome
  | .free _ => False

def Call.size : Call → ℕ
  | .malloc size _ => size
  | .realloc _ size _ => size
  | .free _ => 0

/-- A request that a block is mapped for is not within the headers of a multiple of 4096. -/
def Roomy (s : State) (c : Call) : Prop :=
  MapsBlock s.heap c → 0 < c.size % 4096 ∧ c.size % 4096 ≤ 4040

/-- The heap is in order, and every pointer is that of a fragment large enough. -/
structure State.Ok (s : State) : Prop where
  heap : s.heap.Ok
  held : ∀ x ∈ s.live, ∃ f ∈ s.heap.liveFragments, f.addr + headerSize = x.1 ∧ x.2 ≤ f.size
  distinct : (s.live.map Prod.fst).Nodup

variable {s : State}

theorem State.Ok.guarantee (hs : s.Ok) : Guarantee s := by
  refine ⟨fun x hx => ?_, hs.held, hs.distinct, hs.heap.fragments_apart.filter _⟩
  obtain ⟨f, hf, haddr, hsize⟩ := hs.held x hx
  obtain ⟨b, hb, hbounds⟩ := hs.heap.bounds (mem_filter.1 hf).1
  refine ⟨b, hb, ?_⟩
  unfold Fragment.length at hbounds
  omega

section Steps

variable {h : Heap} {live : List (ℕ × ℕ)} {others : List Fragment}

theorem Gives.state_ok (hg : Gives others n h addr)
    (hheld : ∀ x ∈ live, ∃ f ∈ others, f.addr + headerSize = x.1 ∧ x.2 ≤ f.size)
    (hdistinct : (live.map Prod.fst).Nodup) : State.Ok ⟨h, (addr + headerSize, n) :: live⟩ := by
  refine ⟨hg.ok, fun x hx => ?_, nodup_cons.2 ⟨fun hmem => ?_, hdistinct⟩⟩
  · rcases mem_cons.1 hx with rfl | hx
    · obtain ⟨f, hf, haddr, hsize⟩ := hg.given
      exact ⟨f, hf, by rw [haddr], hsize⟩
    · obtain ⟨f, hf, hfx⟩ := hheld x hx
      exact ⟨f, hg.kept f hf, hfx⟩
  · obtain ⟨x, hx, heq⟩ := mem_map.1 hmem
    obtain ⟨f, hf, haddr, -⟩ := hheld x hx
    exact hg.fresh f hf (by simp only at heq; omega)

theorem held_forget (hheld : ∀ x ∈ live, ∃ f ∈ h.liveFragments, f.addr + headerSize = x.1 ∧
    x.2 ≤ f.size) : ∀ x ∈ forget (addr + headerSize) live,
      ∃ f ∈ h.others addr, f.addr + headerSize = x.1 ∧ x.2 ≤ f.size := by
  intro x hx
  obtain ⟨hx, hne⟩ := mem_filter.1 hx
  obtain ⟨f, hf, haddr, hsize⟩ := hheld x hx
  refine ⟨f, mem_filter.2 ⟨hf, ?_⟩, haddr, hsize⟩
  simp only [ne_eq, decide_eq_true_eq] at hne ⊢
  omega

theorem distinct_forget (hdistinct : (live.map Prod.fst).Nodup) (pointer : ℕ) :
    ((forget pointer live).map Prod.fst).Nodup :=
  hdistinct.sublist (Sublist.map _ filter_sublist)

theorem step_ok {c : Call} (hs : s.Ok) (hc : Permitted s c) (hroomy : Roomy s c) :
    (step s c).Ok := by
  cases c with
  | malloc size mmap =>
    obtain ⟨hpos, hlt, hfresh⟩ := hc
    have hroom : viableFragment s.heap size = none → mmap.isSome →
        size + blockSize ≤ roundUp size blockSizeMultiple := by
      intro hv hm
      obtain ⟨base, rfl⟩ := Option.isSome_iff_exists.1 hm
      exact (room_iff hlt (hfresh base rfl).pos).2 (hroomy ⟨hv, hm⟩)
    simp only [step, xtraceMalloc, if_neg hpos.ne']
    rcases allocateFragment_spec hs.heap hlt hfresh hroom with hnone | ⟨h, addr, hsome, hg⟩
    · simp only [hnone]
      exact hs
    · simp only [hsome]
      exact hg.state_ok hs.held hs.distinct
  | realloc pointer size mmap =>
    obtain ⟨hmem, hpos, hlt, hfresh⟩ := hc
    obtain ⟨x, hx, rfl⟩ := mem_map.1 hmem
    obtain ⟨f, hf, haddr, -⟩ := hs.held x hx
    have hroom : ∀ p, s.heap.locate f.addr = some p → p.frag.size < size →
        expandFragment p s.heap.freeList size = none → viableFragment s.heap size = none →
        mmap.isSome → size + blockSize ≤ roundUp size blockSizeMultiple := by
      intro p hp hsize he hv hm
      obtain ⟨base, rfl⟩ := Option.isSome_iff_exists.1 hm
      refine (room_iff hlt (hfresh base rfl).pos).2 (hroomy ⟨⟨p, ?_, hsize, he⟩, hv, hm⟩)
      rw [← haddr, Nat.add_sub_cancel]
      exact hp
    rw [← haddr]
    simp only [step]
    rcases xtraceRealloc_spec hs.heap hf hlt hfresh hroom with hnone | ⟨h, addr, hsome, hg⟩
    · simp only [hnone]
      exact hs
    · simp only [hsome]
      exact hg.state_ok (held_forget hs.held) (distinct_forget hs.distinct _)
  | free pointer =>
    obtain ⟨x, hx, rfl⟩ := mem_map.1 hc
    obtain ⟨f, hf, haddr, -⟩ := hs.held x hx
    rw [← haddr]
    obtain ⟨hok, hkept⟩ := xtraceFree_ok hs.heap hf
    refine ⟨hok, fun y hy => ?_, distinct_forget hs.distinct _⟩
    obtain ⟨g, hg, hgy⟩ := held_forget hs.held y hy
    exact ⟨g, hkept g hg, hgy⟩

end Steps

section Regions

/-- The mapped pages. -/
def Heap.regions (h : Heap) : List (ℕ × ℕ) := h.blocks.map fun b => (b.addr, b.stop)

theorem Place.region_mem (p : Place) (fl : List ℕ) :
    (p.block.addr, p.block.stop) ∈ (Heap.mk p.blocks fl).regions := mem_map.2 ⟨_, p.block_mem, rfl⟩

def Place.SameBlock (p q : Place) : Prop := q.left = p.left ∧ q.block = p.block ∧ q.right = p.right

theorem Place.SameBlock.trans {p q r : Place} (h : p.SameBlock q) (h' : q.SameBlock r) :
    p.SameBlock r := ⟨h'.1.trans h.1, h'.2.1.trans h.2.1, h'.2.2.trans h.2.2⟩

theorem Place.SameBlock.regions {p q : Place} (h : p.SameBlock q) (fl fl' : List ℕ) :
    (Heap.mk q.blocks fl).regions = (Heap.mk p.blocks fl').regions := by
  simp [Heap.regions, Place.blocks, Block.stop, h.1, h.2.1, h.2.2]

variable {p : Place} {fl : List ℕ}

theorem shrinkFragment_sameBlock (newSize : ℕ) : p.SameBlock (shrinkFragment p fl newSize).1 := by
  simp only [shrinkFragment]
  split_ifs
  · exact ⟨rfl, rfl, rfl⟩
  · exact ⟨rfl, rfl, rfl⟩

theorem shrinkFragment_addr (newSize : ℕ) :
    (shrinkFragment p fl newSize).1.frag.addr = p.frag.addr := by
  simp only [shrinkFragment]
  split_ifs <;> rfl

theorem takeFragment_regions (n : ℕ) :
    (takeFragment p fl n).1.regions = (Heap.mk p.blocks fl).regions ∧
      (takeFragment p fl n).2 = p.frag.addr := by
  have hsame : p.SameBlock { (shrinkFragment p fl n).1 with
      frag := { (shrinkFragment p fl n).1.frag with inUse := true } } :=
    (shrinkFragment_sameBlock n).trans ⟨rfl, rfl, rfl⟩
  exact ⟨hsame.regions _ _, shrinkFragment_addr n⟩

theorem mergePrev_sameBlock (h : mergePrev p fl = some r) : p.SameBlock r.1 := by
  obtain ⟨prev, before, -, -, -, rfl⟩ := mergePrev_cases h
  exact ⟨rfl, rfl, rfl⟩

theorem mergeNext_sameBlock (h : mergeNext p fl = some r) : p.SameBlock r.1 := by
  obtain ⟨next, after, -, -, rfl⟩ := mergeNext_cases h
  exact ⟨rfl, rfl, rfl⟩

theorem defragment_sameBlock (p : Place) (fl : List ℕ) : p.SameBlock (defragment p fl).1 := by
  fun_induction defragment p fl with
  | case1 p fl r hp r' hn ih =>
    exact ((mergePrev_sameBlock hp).trans (mergeNext_sameBlock hn)).trans ih
  | case2 p fl r hp hn ih => exact (mergePrev_sameBlock hp).trans ih
  | case3 p fl hp r' hn ih => exact (mergeNext_sameBlock hn).trans ih
  | case4 p fl hp hn => exact ⟨rfl, rfl, rfl⟩

theorem xtraceFree_regions (h : Heap) (pointer : ℕ) :
    ∀ r ∈ (xtraceFree h pointer).regions, r ∈ h.regions := by
  unfold xtraceFree
  rcases hp : h.locate (pointer - headerSize) with _ | p
  · exact fun r hr => hr
  · have hblocks := (Heap.locate_some hp).1
    have hsame := Place.SameBlock.trans (p := p) ⟨rfl, rfl, rfl⟩ (defragment_sameBlock
      { p with frag := { p.frag with inUse := false } } (p.frag.addr :: h.freeList))
    have hregions : (Heap.mk p.blocks []).regions = h.regions := by
      simp [Heap.regions, hblocks]
    rw [← hregions]
    simp only [releaseFragment]
    split_ifs
    · obtain ⟨hleft, -, hright⟩ := hsame
      intro r hr
      simp only [Heap.regions, Place.blocks, hleft, hright, map_append, map_cons,
        mem_append, mem_cons] at hr ⊢
      exact hr.imp id Or.inr
    · rw [hsame.regions _ []]
      exact fun r hr => hr

theorem not_guarantee {h : Heap} {base : ℕ} (hn : n < 2 ^ 64) (hf : Fresh h n base)
    (hroom : ¬ n + blockSize ≤ roundUp n blockSizeMultiple) (hlive : (base + blockSize, n) ∈ s.live)
    (hregions : ∀ r ∈ s.heap.regions, r = (base, base + roundUp n blockSizeMultiple) ∨
      r ∈ h.regions) : ¬ Guarantee s := by
  intro hs
  obtain ⟨b, hb, hle, hstop⟩ := hs.inside _ hlive
  have hlt := hf.blockSize_le hn
  rcases hregions _ (mem_map.2 ⟨b, hb, rfl⟩) with heq | hold
  · simp only [Prod.mk.injEq] at heq
    omega
  · obtain ⟨c, hc, heq⟩ := mem_map.1 hold
    simp only [Prod.mk.injEq] at heq
    have := hf.apart c hc
    omega

theorem allocateFragment_regions {h : Heap} {base : ℕ} (hn : n < 2 ^ 64) (hf : Fresh h n base)
    (hv : viableFragment h n = none) :
    ∃ h', allocateFragment h n (some base) = (h', some (base + 16)) ∧
      h'.regions = (base, base + roundUp n blockSizeMultiple) :: h.regions := by
  have hlt := hf.blockSize_le hn
  have hstop : base + blockSize + (roundUp n blockSizeMultiple - blockSize) =
      base + roundUp n blockSizeMultiple := by omega
  simp only [allocateFragment, hv, hf.wsub_eq hn]
  obtain ⟨hregions, haddr⟩ := @takeFragment_regions
    (newBlock h base (roundUp n blockSizeMultiple - blockSize))
    ((newBlock h base (roundUp n blockSizeMultiple - blockSize)).frag.addr :: h.freeList) n
  refine ⟨_, Prod.ext rfl (congrArg some haddr), hregions.trans ?_⟩
  simp [Heap.regions, newBlock, Place.blocks, Block.stop, hstop]

theorem step_not_guarantee {c : Call} (hc : Permitted s c)
    (hroomy : ¬ Roomy s c) : ¬ Guarantee (step s c) := by
  unfold Roomy at hroomy
  push Not at hroomy
  obtain ⟨hmaps, hroom⟩ := hroomy
  cases c with
  | malloc size mmap =>
    obtain ⟨hpos, hlt, hfresh⟩ := hc
    obtain ⟨hv, hm⟩ := hmaps
    obtain ⟨base, rfl⟩ := Option.isSome_iff_exists.1 hm
    have hf := hfresh base rfl
    obtain ⟨h', halloc, hregions⟩ := allocateFragment_regions hlt hf hv
    refine not_guarantee hlt hf (fun hle => ?_) ?_ ?_
    · have := (room_iff hlt hf.pos).1 hle
      exact absurd (hroom this.1) (by simp only [Call.size]; omega)
    · simp only [step, xtraceMalloc, if_neg hpos.ne', halloc]
      exact mem_cons_self
    · simp only [step, xtraceMalloc, if_neg hpos.ne', halloc, Option.map_some, hregions]
      exact fun r hr => mem_cons.1 hr
  | realloc pointer size mmap =>
    obtain ⟨-, -, hlt, hfresh⟩ := hc
    obtain ⟨⟨p, hp, hsize, he⟩, hv, hm⟩ := hmaps
    obtain ⟨base, rfl⟩ := Option.isSome_iff_exists.1 hm
    have hf := hfresh base rfl
    obtain ⟨h', halloc, hregions⟩ := allocateFragment_regions hlt hf hv
    have hstep : step s (.realloc pointer size (some base)) =
        ⟨xtraceFree h' pointer, (base + 16 + headerSize, size) :: forget pointer s.live⟩ := by
      simp [step, xtraceRealloc, hp, if_neg hsize.not_gt, if_neg hsize.ne', he, halloc]
    rw [hstep]
    refine not_guarantee hlt hf (fun hle => ?_) mem_cons_self fun r hr => ?_
    · have := (room_iff hlt hf.pos).1 hle
      exact absurd (hroom this.1) (by simp only [Call.size]; omega)
    · exact mem_cons.1 (hregions ▸ xtraceFree_regions h' pointer r hr)
  | free pointer => exact hmaps.elim

end Regions

def initial : State := ⟨⟨[], []⟩, []⟩

theorem initial_ok : initial.Ok :=
  ⟨⟨by simp [initial], by simp [initial], Perm.refl _⟩, by simp [initial], by simp [initial]⟩

/-- In a run of calls that are permitted, what the callers rely on holds in every state exactly if
every request that a block is mapped for leaves room for the headers. -/
theorem guarantee_iff (calls : List Call) (hcalls : EachStep step Permitted initial calls) :
    (∀ cs, cs <+: calls → Guarantee (cs.foldl step initial)) ↔
      EachStep step Roomy initial calls := by
  rw [← eachState_iff_foldl]
  exact eachState_iff (fun s hs => hs.guarantee) (fun s c hs hc hr => step_ok hs hc hr)
    (fun s c _ hc hr => step_not_guarantee hc hr) initial_ok hcalls

theorem fresh_initial (haligned : base % 4096 = 0) (hpos : 0 < roundUp n blockSizeMultiple)
    (hle : base + roundUp n blockSizeMultiple ≤ 2 ^ 62) : Fresh initial.heap n base :=
  ⟨haligned, hpos, hle, by simp [initial]⟩

theorem guarantee_iff_short :
    EachStep step Permitted initial [.malloc 100 (some 8192), .free 8248] ∧
      ((∀ cs, cs <+: [.malloc 100 (some 8192), .free 8248] → Guarantee (cs.foldl step initial)) ↔
        EachStep step Roomy initial [.malloc 100 (some 8192), .free 8248]) := by
  have hperm : EachStep step Permitted initial [.malloc 100 (some 8192), .free 8248] := by
    refine ⟨⟨by decide, by decide, fun base hbase => ?_⟩, ?_, trivial⟩
    · cases hbase
      exact fresh_initial rfl (by decide) (by decide)
    · show 8248 ∈ (step initial (.malloc 100 (some 8192))).live.map Prod.fst
      decide
  exact ⟨hperm, guarantee_iff _ hperm⟩

/-- The whole of a multiple of 4096: the last 56 bytes are behind the block. -/
theorem malloc_page_overruns : Permitted initial (.malloc 4096 (some 8192)) ∧
      (step initial (.malloc 4096 (some 8192))).live = [(8248, 4096)] ∧
      (step initial (.malloc 4096 (some 8192))).heap.regions = [(8192, 12288)] ∧
      ¬ Guarantee (step initial (.malloc 4096 (some 8192))) := by
  have hperm : Permitted initial (.malloc 4096 (some 8192)) := by
    refine ⟨by decide, by decide, fun base hbase => ?_⟩
    cases hbase
    exact fresh_initial rfl (by decide) (by decide)
  refine ⟨hperm, by decide, by decide, step_not_guarantee hperm fun hroomy => ?_⟩
  have := (hroomy ⟨rfl, rfl⟩).1
  simp [Call.size] at this

end Darling.Xtrace
