import Darling.Proofs.Endian
import Darling.Xtrace
import Mathlib.Data.List.Count
import Mathlib.Data.List.Pairwise
import Mathlib.Data.List.Perm.Basic

/-!
# The heap's invariant

The fragments of a block tile it, the blocks are apart, and the free list has the fragments that are
not in use.  Splitting and merging put some fragments in the place of others that fill the same
bytes (`Heap.Ok.replace`); the fragments in use elsewhere (`Place.rest`) stay as they are.
-/

namespace Darling.Xtrace

open List
open Fragment (setSize)
open Place (blocks fragmentList)

def Block.stop (b : Block) : ℕ := b.addr + blockSize + b.size

/-- The fragments tile the block, and the first one is marked. -/
structure Block.Ok (b : Block) : Prop where
  tiles : Tiles Fragment.addr Fragment.length (b.addr + 16) b.stop b.fragmentList
  base : ∀ f ∈ b.fragmentList, f.isMmapBase = true ↔ f.addr = b.addr + 16
  stop_le : b.stop ≤ 2 ^ 62

def Block.Apart (b c : Block) : Prop := b.stop ≤ c.addr ∨ c.stop ≤ b.addr

def Fragment.Apart (f g : Fragment) :
    Prop := f.addr + f.length ≤ g.addr ∨ g.addr + g.length ≤ f.addr

def Heap.fragments (h : Heap) : List Fragment := h.blocks.flatMap Block.fragmentList

/-- The fragments that were handed out. -/
def Heap.liveFragments (h : Heap) : List Fragment := h.fragments.filter Fragment.inUse

def freeAddrs (fs : List Fragment) : List ℕ := (fs.filter fun f => !f.inUse).map Fragment.addr

/-- Blocks are in order and apart, and the free list has the free fragments. -/
structure Heap.Ok (h : Heap) : Prop where
  blocks : ∀ b ∈ h.blocks, b.Ok
  apart : h.blocks.Pairwise Block.Apart
  free : h.freeList.Perm (freeAddrs h.fragments)

@[simp] theorem freeAddrs_nil : freeAddrs [] = [] := rfl

@[simp] theorem freeAddrs_append (fs gs : List Fragment) :
    freeAddrs (fs ++ gs) = freeAddrs fs ++ freeAddrs gs := by
  simp [freeAddrs]

theorem freeAddrs_cons (f : Fragment) (fs : List Fragment) :
    freeAddrs (f :: fs) = if f.inUse then freeAddrs fs else f.addr :: freeAddrs fs := by
  cases h : f.inUse <;> simp [freeAddrs, h]

theorem length_pos (f : Fragment) : 0 < f.length := by unfold Fragment.length headerSize; omega

instance : Std.Symm Fragment.Apart := ⟨fun _ _ => Or.symm⟩

instance : Std.Symm Block.Apart := ⟨fun _ _ => Or.symm⟩

namespace Heap.Ok

variable {h : Heap}

theorem bounds (hh : h.Ok) {f : Fragment} (hf : f ∈ h.fragments) :
    ∃ b ∈ h.blocks, b.addr + 16 ≤ f.addr ∧ f.addr + f.length ≤ b.stop := by
  obtain ⟨b, hb, hfb⟩ := mem_flatMap.1 hf
  exact ⟨b, hb, (hh.blocks b hb).tiles.bounds hfb⟩

theorem fragments_apart (hh : h.Ok) : h.fragments.Pairwise Fragment.Apart := by
  refine pairwise_flatMap.2 ⟨fun b hb => ?_, ?_⟩
  · exact (hh.blocks b hb).tiles.pairwise.imp Or.inl
  · refine hh.apart.imp_of_mem fun {b c} hb hc hbc f hf g hg => ?_
    have hf := (hh.blocks b hb).tiles.bounds hf
    have hg := (hh.blocks c hc).tiles.bounds hg
    unfold Block.Apart at hbc
    unfold Fragment.Apart
    omega

theorem eq_of_addr (hh : h.Ok) {f g : Fragment} (hf : f ∈ h.fragments) (hg : g ∈ h.fragments)
    (hfg : f.addr = g.addr) : f = g := by
  by_contra hne
  have hap := hh.fragments_apart.forall hf hg hne
  have := length_pos f
  have := length_pos g
  unfold Fragment.Apart at hap
  omega

theorem replace (ys ys' : List Fragment) {left right : List Block} {b : Block}
    {xs zs : List Fragment} {fl fl' : List ℕ}
    (h : Heap.Ok ⟨left ++ { b with fragmentList := xs ++ (ys ++ zs) } :: right, fl⟩)
    (htiles : ∀ s t, t ≤ 2 ^ 62 → Tiles Fragment.addr Fragment.length s t ys →
      Tiles Fragment.addr Fragment.length s t ys')
    (hbase : ∀ f ∈ ys', ∃ g ∈ ys, f.addr = g.addr ∧ f.isMmapBase = g.isMmapBase ∨
      g.addr < f.addr ∧ f.isMmapBase = false)
    (hfree : ∀ a, fl'.count a + (freeAddrs ys).count a = fl.count a + (freeAddrs ys').count a) :
    Heap.Ok ⟨left ++ { b with fragmentList := xs ++ (ys' ++ zs) } :: right, fl'⟩ := by
  have hb := h.blocks { b with fragmentList := xs ++ (ys ++ zs) } (by simp)
  refine ⟨fun c hc => ?_, ?_, perm_iff_count.2 fun a => ?_⟩
  · simp only [mem_append, mem_cons] at hc
    rcases hc with hc | rfl | hc
    · exact h.blocks c (by simp [hc])
    · refine ⟨?_, ?_, hb.stop_le⟩
      · exact hb.tiles.replace fun s t _ ht hys => htiles s t (ht.trans hb.stop_le) hys
      · intro f hf
        simp only [mem_append] at hf
        rcases hf with hf | hf | hf
        · exact hb.base f (by simp [hf])
        · obtain ⟨g, hg, hfg⟩ := hbase f hf
          have hgbase := hb.base g (by simp [hg])
          have hgle := (hb.tiles.bounds (x := g) (by simp [hg])).1
          rcases hfg with ⟨haddr, hflag⟩ | ⟨hlt, hflag⟩
          · rw [haddr, hflag]
            exact hgbase
          · simp only [hflag, Bool.false_eq_true, false_iff]
            exact fun he => absurd hgle (by simp only; omega)
        · exact hb.base f (by simp [hf])
    · exact h.blocks c (by simp [hc])
  · simpa [pairwise_append, Block.Apart, Block.stop] using h.apart
  · have hcount := h.free.count_eq a
    have := hfree a
    simp only [Heap.fragments, flatMap_append, flatMap_cons, freeAddrs_append,
      count_append] at hcount ⊢
    omega

section Replace

variable {left right : List Block} {b : Block} {xs zs : List Fragment} {f g : Fragment}
  {fl : List ℕ}

theorem split (h : Heap.Ok ⟨left ++ { b with fragmentList := xs ++ f :: zs } :: right, fl⟩)
    {m n : ℕ} (hsize : f.size = m + headerSize + n) :
    Heap.Ok ⟨left ++ { b with fragmentList := xs ++ { f with size := m } ::
      ⟨f.addr + headerSize + m, n, false, false⟩ :: zs } :: right,
      (f.addr + headerSize + m) :: fl⟩ := by
  refine replace [f] [{ f with size := m }, ⟨_, n, false, false⟩] h ?_ ?_ ?_
  · rintro s t - ⟨hs, ht⟩
    simp only [Tiles, Fragment.length] at ht ⊢
    omega
  · intro g hg
    refine ⟨f, mem_singleton_self f, ?_⟩
    simp only [mem_cons, not_mem_nil, or_false] at hg
    rcases hg with rfl | rfl
    · exact Or.inl ⟨rfl, rfl⟩
    · exact Or.inr ⟨by unfold headerSize; simp only; omega, rfl⟩
  · intro a
    cases hu : f.inUse <;> simp [freeAddrs_cons, hu, count_cons]
    omega

theorem join (h : Heap.Ok ⟨left ++ { b with fragmentList := xs ++ f :: g :: zs } :: right, fl⟩)
    (hg : g.inUse = false) :
    Heap.Ok ⟨left ++ { b with
      fragmentList := xs ++ f.setSize (f.size + headerSize + g.size) :: zs } :: right,
      fl.erase g.addr⟩ := by
  refine replace [f, g] [f.setSize (f.size + headerSize + g.size)] h ?_ ?_ ?_
  · rintro s t ht ⟨hs, hg, hst⟩
    simp only [Tiles, Fragment.length, setSize] at hg hst ⊢
    rw [Nat.mod_eq_of_lt (by unfold headerSize at *; omega)]
    omega
  · intro x hx
    exact ⟨f, by simp, Or.inl (by simp_all [setSize])⟩
  · intro a
    have hpos : 0 < fl.count g.addr := by
      rw [h.free.count_eq]
      refine count_pos_iff.2 (mem_map.2 ⟨g, mem_filter.2 ⟨?_, by simp [hg]⟩, rfl⟩)
      simp [Heap.fragments]
    rw [count_erase]
    by_cases ha : g.addr = a
    · subst ha
      cases hu : f.inUse <;> simp [freeAddrs_cons, hu, hg, setSize, count_cons] <;> omega
    · cases hu : f.inUse <;> simp [freeAddrs_cons, hu, hg, setSize, count_cons, ha]

theorem setInUse (h : Heap.Ok ⟨left ++ { b with fragmentList := xs ++ f :: zs } :: right, fl⟩)
    {u : Bool} {fl' : List ℕ} (hfl : ∀ a, fl'.count a + (freeAddrs [f]).count a =
      fl.count a + (freeAddrs [{ f with inUse := u }]).count a) :
    Heap.Ok ⟨left ++ { b with fragmentList := xs ++ { f with inUse := u } :: zs } :: right,
      fl'⟩ := by
  refine replace [f] [{ f with inUse := u }] h ?_ ?_ hfl
  · exact fun s t _ ht => ht
  · exact fun g hg => ⟨f, mem_singleton_self f, Or.inl (by simp_all)⟩

end Replace

end Heap.Ok

/-- The fragments in use besides the one at the place. -/
def Place.rest (p : Place) : List Fragment :=
  (p.left.flatMap Block.fragmentList ++ (p.before.reverse ++ (p.after ++
    p.right.flatMap Block.fragmentList))).filter Fragment.inUse

/-- The fragments besides the one at the place. -/
def Place.others (p : Place) : List Fragment :=
  p.left.flatMap Block.fragmentList ++ (p.before.reverse ++ (p.after ++
    p.right.flatMap Block.fragmentList))

theorem Place.block_mem (p : Place) :
    { p.block with fragmentList := p.fragmentList } ∈ p.blocks := by
  simp [blocks]

theorem Place.fragments_perm (p : Place) (fl : List ℕ) :
    (Heap.mk p.blocks fl).fragments.Perm (p.frag :: p.others) := by
  simp only [Heap.fragments, blocks, fragmentList, Place.others, flatMap_append,
    flatMap_cons, append_assoc, cons_append]
  rw [← append_assoc, ← append_assoc (p.left.flatMap _)]
  exact perm_middle

def Place.without (p : Place) : List Block :=
  p.left ++ { p.block with fragmentList := p.before.reverse ++ p.after } :: p.right

theorem Place.without_fragments (p : Place) (fl : List ℕ) :
    (Heap.mk p.without fl).fragments = p.others := by
  simp [Heap.fragments, Place.without, Place.others]

theorem Place.insert_perm (p : Place) (g : Fragment) (fl : List ℕ) :
    (Heap.mk { p with after := g :: p.after }.blocks fl).fragments.Perm
      (g :: (Heap.mk p.blocks fl).fragments) := by
  have hperm := { p with before := p.frag :: p.before, frag := g }.fragments_perm fl
  simpa [Place.others, Heap.fragments, blocks, fragmentList] using hperm

theorem Place.fragmentList_sublist (p : Place) (fl : List ℕ) :
    p.fragmentList.Sublist (Heap.mk p.blocks fl).fragments := by
  simp only [Heap.fragments, blocks, flatMap_append, flatMap_cons]
  exact (sublist_append_left _ _).trans (sublist_append_right _ _)

theorem Place.other_blocks {p : Place} {fl : List ℕ} (hbs : (p.blocks.map Block.addr).Nodup)
    (hfs : ((Heap.mk p.blocks fl).fragments.map Fragment.addr).Nodup) {b : Block}
    (hb : b ∈ p.left ∨ b ∈ p.right) : p.block.addr ≠ b.addr ∧
      (p.fragmentList.map Fragment.addr).Disjoint (b.fragmentList.map Fragment.addr) := by
  simp only [Heap.fragments, blocks, map_append, map_cons, flatMap_append,
    flatMap_cons] at hbs hfs
  rw [perm_middle.nodup_iff, nodup_cons, mem_append] at hbs
  have hfs := (nodup_append.1 ((perm_append_comm_assoc _ _ _).nodup_iff.1 hfs)).2.2
  refine ⟨fun heq => hbs.1 ?_, fun x hx hx' => hfs x hx x ?_ rfl⟩
  · rw [heq]
    exact hb.imp mem_map_of_mem mem_map_of_mem
  · obtain ⟨f, hf, rfl⟩ := mem_map.1 hx'
    refine mem_append.2 (hb.imp (fun hb => ?_) fun hb => ?_)
    all_goals exact mem_map_of_mem (mem_flatMap.2 ⟨b, hb, hf⟩)

theorem Place.mem_liveFragments {p : Place} {fl : List ℕ} {f : Fragment} :
    f ∈ (Heap.mk p.blocks fl).liveFragments ↔ f ∈ p.rest ∨ f = p.frag ∧ p.frag.inUse = true := by
  simp only [Heap.liveFragments, Heap.fragments, blocks, fragmentList, Place.rest,
    flatMap_append, flatMap_cons, mem_filter, mem_append, mem_cons]
  constructor
  · rintro ⟨h | (h | rfl | h) | h, hu⟩ <;> simp [*]
  · rintro (⟨h | h | h | h, hu⟩ | ⟨rfl, hu⟩) <;> simp [*]

structure Keeps (p : Place) (r : Place × List ℕ) : Prop where
  ok : Heap.Ok ⟨r.1.blocks, r.2⟩
  rest : r.1.rest = p.rest

structure Resizes (p : Place) (newSize : ℕ) (r : Place × List ℕ) : Prop extends Keeps p r where
  addr : r.1.frag.addr = p.frag.addr
  inUse : r.1.frag.inUse = p.frag.inUse
  size : newSize ≤ r.1.frag.size

section Edits

variable {p : Place} {fl : List ℕ}

section

variable (h : Heap.Ok ⟨p.blocks, fl⟩)

include h

theorem place_block_ok : Block.Ok { p.block with fragmentList := p.fragmentList } :=
  h.blocks _ p.block_mem

theorem frag_size_lt : p.frag.addr + p.frag.length ≤ 2 ^ 62 := by
  have hb := place_block_ok h
  exact (hb.tiles.bounds (by simp [fragmentList])).2.trans hb.stop_le

theorem shrinkFragment_resizes {newSize : ℕ} (hsize : newSize ≤ p.frag.size) :
    Resizes p newSize (shrinkFragment p fl newSize) := by
  have hlt := frag_size_lt h
  unfold Fragment.length at hlt
  simp only [shrinkFragment, wsub_of_le hsize (show p.frag.size < 2 ^ 64 by omega)]
  split_ifs with hrem
  · refine ⟨⟨?_, ?_⟩, rfl, rfl, ?_⟩
    · have hmod : newSize % 2 ^ 62 = newSize := Nat.mod_eq_of_lt (by omega)
      have hmod' : (p.frag.size - newSize - headerSize) % 2 ^ 62 =
          p.frag.size - newSize - headerSize := Nat.mod_eq_of_lt (by unfold headerSize at *; omega)
      simp only [setSize, Fragment.init, hmod, hmod']
      exact h.split (by omega)
    · simp [Place.rest, Fragment.init]
    · simp only [setSize]
      rw [Nat.mod_eq_of_lt (by omega)]
  · exact ⟨⟨h, rfl⟩, rfl, rfl, hsize⟩

theorem mem_freeList (hu : p.frag.inUse = false) : p.frag.addr ∈ fl := by
  refine h.free.mem_iff.2 (mem_map.2 ⟨p.frag, mem_filter.2 ⟨?_, by simp [hu]⟩, rfl⟩)
  simp [Heap.fragments, blocks, fragmentList]

theorem take_keeps (hu : p.frag.inUse = false) :
    Keeps p ({ p with frag := { p.frag with inUse := true } }, fl.erase p.frag.addr) := by
  refine ⟨h.setInUse fun a => ?_, rfl⟩
  have hpos := count_pos_iff.2 (mem_freeList h hu)
  rw [count_erase]
  by_cases ha : p.frag.addr = a
  · subst ha
    simp [freeAddrs_cons, hu]
    omega
  · simp [freeAddrs_cons, hu, ha]

theorem give_keeps (hu : p.frag.inUse = true) :
    Keeps p ({ p with frag := { p.frag with inUse := false } }, p.frag.addr :: fl) := by
  refine ⟨h.setInUse fun a => ?_, rfl⟩
  simp [freeAddrs_cons, hu, count_cons]

theorem mergePrev_keeps {r : Place × List ℕ} (hu : p.frag.inUse = false)
    (hr : mergePrev p fl = some r) : Keeps p r ∧ r.1.frag.inUse = false := by
  obtain ⟨prev, before, hb, -, hprev, rfl⟩ := mergePrev_cases hr
  refine ⟨⟨?_, ?_⟩, hprev⟩
  · simp only [blocks, fragmentList, hb, reverse_cons, append_assoc,
      singleton_append] at h ⊢
    exact h.join hu
  · simp [Place.rest, hb, hprev]

theorem mergeNext_keeps {r : Place × List ℕ} (hu : p.frag.inUse = false)
    (hr : mergeNext p fl = some r) : Keeps p r ∧ r.1.frag.inUse = false := by
  obtain ⟨next, after, ha, hnext, rfl⟩ := mergeNext_cases hr
  refine ⟨⟨?_, ?_⟩, hu⟩
  · simp only [blocks, fragmentList, ha] at h ⊢
    exact h.join hnext
  · simp [Place.rest, ha, hnext]

end

section

variable (h : Heap.Ok ⟨p.blocks, fl⟩)

include h

theorem defragment_keeps (hu : p.frag.inUse = false) :
    Keeps p (defragment p fl) ∧ (defragment p fl).1.frag.inUse = false := by
  fun_induction defragment p fl with
  | case1 p fl r hp r' hn ih =>
    obtain ⟨hr, hur⟩ := mergePrev_keeps h hu hp
    obtain ⟨hr', hur'⟩ := mergeNext_keeps hr.ok hur hn
    obtain ⟨hd, hud⟩ := ih hr'.ok hur'
    exact ⟨⟨hd.ok, hd.rest.trans (hr'.rest.trans hr.rest)⟩, hud⟩
  | case2 p fl r hp hn ih =>
    obtain ⟨hr, hur⟩ := mergePrev_keeps h hu hp
    obtain ⟨hd, hud⟩ := ih hr.ok hur
    exact ⟨⟨hd.ok, hd.rest.trans hr.rest⟩, hud⟩
  | case3 p fl hp r' hn ih =>
    obtain ⟨hr, hur⟩ := mergeNext_keeps h hu hn
    obtain ⟨hd, hud⟩ := ih hr.ok hur
    exact ⟨⟨hd.ok, hd.rest.trans hr.rest⟩, hud⟩
  | case4 p fl hp hn => exact ⟨⟨h, rfl⟩, hu⟩

theorem alone_of_base (hbase : p.frag.isMmapBase = true)
    (hsize : p.block.size = p.frag.size) : p.before = [] ∧ p.after = [] := by
  have hb := place_block_ok h
  have haddr := (hb.base p.frag (by simp [fragmentList])).1 hbase
  obtain ⟨mid, hbefore, hmid, hafter⟩ := Tiles.append_iff.1 hb.tiles
  have hstop : mid + p.frag.length = p.block.addr + blockSize + p.block.size := by
    simp only [Fragment.length, headerSize, blockSize] at *
    omega
  constructor
  · rw [← hmid, haddr] at hbefore
    exact reverse_eq_nil_iff.1 (hbefore.eq_nil length_pos)
  · rw [hstop] at hafter
    exact hafter.eq_nil length_pos

theorem unmap_ok (hu : p.frag.inUse = false) (hbase : p.frag.isMmapBase = true)
    (hsize : p.block.size = p.frag.size) :
    Heap.Ok ⟨p.left ++ p.right, fl.erase p.frag.addr⟩ ∧
      (Heap.mk (p.left ++ p.right) (fl.erase p.frag.addr)).liveFragments = p.rest := by
  obtain ⟨hbefore, hafter⟩ := alone_of_base h hbase hsize
  refine ⟨⟨fun b hb => h.blocks b ?_, h.apart.sublist ?_, perm_iff_count.2 fun a => ?_⟩, ?_⟩
  · rcases mem_append.1 hb with hb | hb <;> simp [blocks, hb]
  · exact List.Sublist.append_left (sublist_cons_self _ _) _
  · have hcount := h.free.count_eq a
    simp only [Heap.fragments, blocks, fragmentList, hbefore, hafter, flatMap_append,
      flatMap_cons, freeAddrs_append, freeAddrs_cons, hu, count_append, count_cons, reverse_nil,
      nil_append, freeAddrs_nil, count_nil, Bool.false_eq_true, if_false] at hcount ⊢
    rw [count_erase]
    omega
  · simp [Heap.liveFragments, Heap.fragments, Place.rest, hbefore, hafter]

theorem releaseFragment_ok (hu : p.frag.inUse = true) :
    (releaseFragment p fl).Ok ∧ ∀ f ∈ p.rest, f ∈ (releaseFragment p fl).liveFragments := by
  obtain ⟨hd, hud⟩ := defragment_keeps (give_keeps h hu).ok rfl
  have hrest := hd.rest.trans (give_keeps h hu).rest
  simp only [releaseFragment]
  split_ifs with hc
  · obtain ⟨hbase, hc⟩ := hc
    push Not at hc
    obtain ⟨hok, hlive⟩ := unmap_ok hd.ok hud hbase hc.2
    exact ⟨hok, fun f hf => by rw [hlive, hrest]; exact hf⟩
  · exact ⟨hd.ok, fun f hf => Place.mem_liveFragments.2 (Or.inl (hrest ▸ hf))⟩

end

theorem absorb_resizes : ∀ {count : ℕ} {p : Place} {fl : List ℕ}, Heap.Ok ⟨p.blocks, fl⟩ →
    count ≤ p.after.length → (∀ f ∈ p.after.take count, f.inUse = false) →
    Resizes p (p.frag.size + ((p.after.take count).map Fragment.length).sum) (absorb count p fl)
  | 0, p, fl, h, _, _ => ⟨⟨h, rfl⟩, rfl, rfl, by simp [absorb]⟩
  | count + 1, p, fl, h, hcount, hfree => by
    rcases ha : p.after with _ | ⟨dying, after⟩
    · simp [ha] at hcount
    · have hdying : dying.inUse = false := hfree dying (by simp [ha])
      have hjoin : Heap.Ok ⟨({ p with
          frag := p.frag.setSize (p.frag.size + headerSize + dying.size)
          after := after } : Place).blocks, fl.erase dying.addr⟩ := by
        simp only [blocks, fragmentList, ha] at h ⊢
        exact h.join hdying
      have hsize : p.frag.addr + p.frag.length + dying.length ≤ 2 ^ 62 := by
        have hb := place_block_ok h
        have htiles := hb.tiles
        simp only [fragmentList, ha] at htiles
        obtain ⟨mid, -, hmid, -, hafter⟩ := Tiles.append_iff.1 htiles
        rw [hmid]
        exact hafter.le.trans hb.stop_le
      have ih := @absorb_resizes count _ _ hjoin (by simp [ha] at hcount; omega)
        (fun f hf => hfree f (by simp [ha, hf]))
      simp only [absorb, ha]
      refine ⟨⟨ih.ok, ?_⟩, ih.addr, ih.inUse, ?_⟩
      · rw [ih.rest]
        simp [Place.rest, ha, hdying]
      · refine le_trans ?_ ih.size
        simp only [setSize, take_succ_cons, map_cons, sum_cons]
        unfold Fragment.length headerSize at *
        rw [Nat.mod_eq_of_lt (by omega)]
        omega

end Edits

end Darling.Xtrace
