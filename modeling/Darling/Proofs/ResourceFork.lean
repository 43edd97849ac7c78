import Darling.ResourceFork
import Darling.Proofs.Endian

/-!
# What `loadResources` reads

The two sums that it checks say nothing of where the parts of the map lie, so it stays inside the
file exactly if every offset that it follows happens to lead to something inside.
-/

namespace Darling

theorem and_shiftLeft_eq (v m k : ℕ) : v &&& m <<< k = (v >>> k &&& m) <<< k := by
  refine Nat.eq_of_testBit_eq fun i => ?_
  rw [Nat.testBit_and, Nat.testBit_shiftLeft, Nat.testBit_shiftLeft, Nat.testBit_and,
    Nat.testBit_shiftRight]
  by_cases hi : k ≤ i
  · rw [Nat.add_sub_cancel' hi]
    simp [hi]
  · simp [hi]

namespace ResourceFork

theorem bswap24_unle (a b c : Byte) : bswap24 (unle [a, b, c]) = unle [c, b, a] := by
  have ha : a.toNat < 256 := a.toNat_lt
  have hb : b.toNat < 256 := b.toNat_lt
  have hc : c.toNat < 256 := c.toNat_lt
  have hmask (v k : ℕ) : v &&& 255 <<< k = (v / 2 ^ k % 2 ^ 8) <<< k := by
    rw [and_shiftLeft_eq, Nat.shiftRight_eq_div_pow, ← Nat.and_two_pow_sub_one_eq_mod]
  simp only [unle, bswap24]
  generalize hv : a.toNat + 256 * (b.toNat + 256 * (c.toNat + 256 * 0)) = v
  have h0 : v >>> 16 &&& 255 = c.toNat := by
    rw [show (255 : ℕ) = 255 <<< 0 from rfl, hmask, Nat.shiftRight_eq_div_pow, Nat.shiftLeft_zero]
    omega
  have h1 : v &&& 65280 = b.toNat <<< 8 := by
    rw [show (65280 : ℕ) = 255 <<< 8 from rfl, hmask]
    congr 1
    omega
  have h2 : v <<< 16 % 2 ^ 32 &&& 16711680 = a.toNat <<< 16 := by
    rw [show (16711680 : ℕ) = 255 <<< 16 from rfl, hmask, Nat.shiftLeft_eq v]
    congr 1
    omega
  rw [h0, h1, h2, Nat.or_comm c.toNat, ← Nat.shiftLeft_add_eq_or_of_lt hc, Nat.or_comm,
    ← Nat.shiftLeft_add_eq_or_of_lt (by rw [Nat.shiftLeft_eq]; omega), Nat.shiftLeft_eq,
    Nat.shiftLeft_eq]
  omega

section Fields

variable {mem : Bytes} {n s i j : ℕ}

theorem piece_length (h : i + n ≤ mem.length) : ((mem.drop i).take n).length = n := by
  rw [List.length_take, List.length_drop]
  omega

theorem bswap_field (hs : i + s ≤ mem.length) (hj : j + n ≤ s) :
    bswap n (field n ((mem.drop i).take s) j) = big n mem (i + j) := by
  rw [field, piece_of_piece mem hj, bswap_unle (piece_length (by omega)), big]

theorem bswap24_field (hs : i + s ≤ mem.length) (hj : j + 3 ≤ s) :
    bswap24 (field 3 ((mem.drop i).take s) j) = big 3 mem (i + j) := by
  rw [field, piece_of_piece mem hj, big]
  have hin : i + j + 3 ≤ mem.length := by omega
  obtain ⟨a, b, c, h⟩ := List.length_eq_three.1 (piece_length hin)
  rw [h, bswap24_unle]
  rfl

theorem unle_byte (h : i + 1 ≤ mem.length) : unle ((mem.drop i).take 1) = big 1 mem i := by
  obtain ⟨a, ha⟩ := List.length_eq_one_iff.1 (piece_length h)
  rw [big, ha]
  rfl

/-- The header of the file, at an offset. -/
def headerAt (mem : Bytes) (i : ℕ) : ResourcesHeader :=
  ⟨big 4 mem (i + 0), big 4 mem (i + 4), big 4 mem (i + 8), big 4 mem (i + 12)⟩

def mapHeaderAt (mem : Bytes) (i : ℕ) : ResourceMapHeader :=
  ⟨big 2 mem (i + 22), big 2 mem (i + 24), big 2 mem (i + 26), big 2 mem (i + 28)⟩

def typeAt (mem : Bytes) (i : ℕ) : ResourceType :=
  ⟨big 4 mem (i + 0), big 2 mem (i + 4), big 2 mem (i + 6)⟩

def itemAt (mem : Bytes) (i : ℕ) : ReferenceListItem :=
  ⟨big 2 mem (i + 0), big 2 mem (i + 2), big 1 mem (i + 4), big 3 mem (i + 5)⟩

theorem ofBytes_header (h : i + 16 ≤ mem.length) :
    ResourcesHeader.ofBytes ((mem.drop i).take 16) = headerAt mem i := by
  simp [ResourcesHeader.ofBytes, headerAt, bswap_field h (show 0 + 4 ≤ 16 by omega),
    bswap_field h (show 4 + 4 ≤ 16 by omega), bswap_field h (show 8 + 4 ≤ 16 by omega),
    bswap_field h (show 12 + 4 ≤ 16 by omega)]

theorem ofBytes_mapHeader (h : i + 30 ≤ mem.length) :
    ResourceMapHeader.ofBytes ((mem.drop i).take 30) = mapHeaderAt mem i := by
  simp [ResourceMapHeader.ofBytes, mapHeaderAt, bswap_field h (show 22 + 2 ≤ 30 by omega),
    bswap_field h (show 24 + 2 ≤ 30 by omega), bswap_field h (show 26 + 2 ≤ 30 by omega),
    bswap_field h (show 28 + 2 ≤ 30 by omega)]

theorem ofBytes_type (h : i + 8 ≤ mem.length) :
    ResourceType.ofBytes ((mem.drop i).take 8) = typeAt mem i := by
  simp [ResourceType.ofBytes, typeAt, bswap_field h (show 0 + 4 ≤ 8 by omega),
    bswap_field h (show 4 + 2 ≤ 8 by omega), bswap_field h (show 6 + 2 ≤ 8 by omega)]

theorem ofBytes_item (h : i + 12 ≤ mem.length) :
    ReferenceListItem.ofBytes ((mem.drop i).take 12) = itemAt mem i := by
  have hbyte : field 1 ((mem.drop i).take 12) 4 = big 1 mem (i + 4) := by
    rw [field, piece_of_piece mem (by omega), unle_byte (by omega)]
  simp [ReferenceListItem.ofBytes, itemAt, bswap_field h (show 0 + 2 ≤ 12 by omega),
    bswap_field h (show 2 + 2 ≤ 12 by omega), bswap24_field h (show 5 + 3 ≤ 12 by omega), hbyte]

end Fields

section Inside

variable (mem : Bytes) (header : ResourcesHeader) (mapHeader : ResourceMapHeader)

/-- The name lies inside the file, and its length is not negative. -/
def NameInside (p : ℕ) : Prop :=
  p + 1 ≤ mem.length ∧ big 1 mem p < 128 ∧ p + 1 + big 1 mem p ≤ mem.length

/-- The data lie inside the file. -/
def DataInside (d : ℕ) : Prop := d + 4 ≤ mem.length ∧ d + 4 + big 4 mem d ≤ mem.length

/-- The item, its name and its data. -/
def ItemInside (rli : ℕ) : Prop :=
  rli + 12 ≤ mem.length ∧
    ((itemAt mem rli).resourceNameListOffset ≠ 0xffff → NameInside mem
      (header.resourceMapOffset + mapHeader.nameListOffset +
        (itemAt mem rli).resourceNameListOffset)) ∧
    ((itemAt mem rli).resourceDataOffset ≠ 0xffff → DataInside mem
      (header.resourceDataOffset + (itemAt mem rli).resourceDataOffset))

/-- The type and all its items. -/
def TypeInside (t : ℕ) : Prop :=
  t + 8 ≤ mem.length ∧ ∀ j ≤ (typeAt mem t).numOfThisTypeMinusOne, ItemInside mem header mapHeader
    (header.resourceMapOffset + mapHeader.typeListOffset + (typeAt mem t).referenceListOffset +
      12 * j)

/-- The map and all its types. -/
def MapInside : Prop :=
  header.resourceMapOffset + 30 ≤ mem.length ∧
    ∀ i ≤ (mapHeaderAt mem header.resourceMapOffset).numOfTypesMinusOne,
      TypeInside mem header (mapHeaderAt mem header.resourceMapOffset)
        (header.resourceMapOffset + (mapHeaderAt mem header.resourceMapOffset).typeListOffset + 2 +
          8 * i)

/-- A length in the header does not fit the file; the sums are those of 32 bits. -/
def Truncated : Prop :=
  mem.length < (header.resourceDataOffset + header.resourceDataLength) % 2 ^ 32 ∨
    mem.length < (header.resourceMapOffset + header.resourceMapLength) % 2 ^ 32

instance : Decidable (Truncated mem header) := inferInstanceAs (Decidable (_ ∨ _))

end Inside

variable {mem : Bytes} {header : ResourcesHeader} {mapHeader : ResourceMapHeader}

theorem finishes_loadName {p : ℕ} : Finishes (loadName mem p) ↔ NameInside mem p := by
  unfold loadName NameInside
  rw [finishes_read_bind]
  refine and_congr_right fun hp => ?_
  rw [unle_byte hp]
  by_cases hn : big 1 mem p < 128
  · rw [if_pos hn]
    simp only [Finishes, read_eq_ok, hn, true_and]
    exact ⟨fun ⟨_, h, _⟩ => h, fun h => ⟨_, h, rfl⟩⟩
  · rw [if_neg hn]
    exact ⟨fun h => absurd h (not_finishes_error _), fun h => absurd h.1 hn⟩

theorem finishes_loadData {d : ℕ} : Finishes (loadData mem d) ↔ DataInside mem d := by
  unfold loadData DataInside
  rw [finishes_read_bind]
  refine and_congr_right fun hd => ?_
  rw [bswap_unle (piece_length hd), ← big]
  simp only [Finishes, read_eq_ok]
  exact ⟨fun ⟨_, h, _⟩ => h, fun h => ⟨_, h, rfl⟩⟩

theorem finishes_ite_pure {α : Type} {c : Prop} [Decidable c] {r : Except Stop α} {a : α} :
    Finishes (if c then r else pure a) ↔ (c → Finishes r) := by
  by_cases hc : c
  · rw [if_pos hc]
    exact ⟨fun h _ => h, fun h => h hc⟩
  · rw [if_neg hc]
    exact iff_of_true ⟨a, rfl⟩ fun h => absurd h hc

theorem finishes_loadResource {type rli : ℕ} :
    Finishes (loadResource mem header mapHeader type rli) ↔
      ItemInside mem header mapHeader rli := by
  unfold loadResource ItemInside
  rw [finishes_read_bind]
  refine and_congr_right fun hr => ?_
  rw [ofBytes_item hr, ← finishes_loadName, ← finishes_loadData, ← finishes_ite_pure,
    ← finishes_ite_pure, ← itemName, ← itemData]
  simp only [finishes_bind]
  exact ⟨fun ⟨name, hname, data, hdata, _⟩ => ⟨⟨name, hname⟩, data, hdata⟩,
    fun ⟨⟨name, hname⟩, data, hdata⟩ => ⟨name, hname, data, hdata, _, rfl⟩⟩

theorem finishes_loadType {garbage : ℕ → ℕ} {t : ℕ} :
    Finishes (loadType garbage mem header mapHeader t) ↔ TypeInside mem header mapHeader t := by
  unfold loadType TypeInside
  rw [finishes_read_bind]
  refine and_congr_right fun ht => ?_
  rw [ofBytes_type ht]
  simp only [finishes_foldlM, List.mem_range, Nat.lt_succ_iff, finishes_loadResource]

theorem loadType_stops {garbage : ℕ → ℕ} {t : ℕ} :
    StopsWith (· ≠ Stop.eofErr) (loadType garbage mem header mapHeader t) := by
  have hread (n i : ℕ) : StopsWith (· ≠ Stop.eofErr) (read .outside n mem i) :=
    .read (by decide) n mem i
  refine (hread 8 t).bind fun b => StopsWith.foldlM (fun rtd j => ?_) _ _
  refine StopsWith.bind ?_ fun res => .ok _
  refine (hread 12 _).bind fun b => StopsWith.bind ?_ fun name => StopsWith.bind ?_ fun data =>
    .ok _
  · unfold itemName loadName
    split_ifs
    · refine (hread 1 _).bind fun length => ?_
      split_ifs
      · exact hread _ _
      · rintro e ⟨⟩
        decide
    · exact .ok _
  · unfold itemData loadData
    split_ifs
    · exact (hread 4 _).bind fun length => hread _ _
    · exact .ok _

theorem finishes_loadMap {garbage : ℕ → ℕ → ℕ} :
    Finishes (loadMap garbage mem header) ↔ MapInside mem header := by
  unfold loadMap MapInside
  rw [finishes_read_bind]
  refine and_congr_right fun hm => ?_
  rw [ofBytes_mapHeader hm]
  rw [finishes_bind]
  constructor
  · rintro ⟨types, h, -⟩ i hi
    exact finishes_loadType.1 (finishes_foldlM.1 ⟨types, h⟩ i (List.mem_range.2 (by omega)))
  · intro h
    obtain ⟨types, ht⟩ := finishes_foldlM.2 fun i hi =>
      finishes_loadType.2 (h i (Nat.lt_succ_iff.1 (List.mem_range.1 hi)))
    exact ⟨types, ht, _, rfl⟩

theorem loadMap_stops {garbage : ℕ → ℕ → ℕ} :
    StopsWith (· ≠ Stop.eofErr) (loadMap garbage mem header) :=
  (StopsWith.read (by decide) 30 mem _).bind fun _ =>
    (StopsWith.foldlM (fun _ _ => loadType_stops.bind fun _ => .ok _) _ _).bind fun _ => .ok _

theorem loadResources_eq (garbage : ℕ → ℕ → ℕ) (mem : Bytes) : loadResources garbage mem =
      if mem.length < 16 ∨ Truncated mem (headerAt mem 0) then .error .eofErr
      else loadMap garbage mem (headerAt mem 0) := by
  unfold loadResources
  by_cases hlen : mem.length < 16
  · rw [if_pos hlen, if_pos (.inl hlen)]
    rfl
  · have hread : read Stop.outside 16 mem 0 = .ok ((mem.drop 0).take 16) :=
      read_eq_ok.2 ⟨by omega, rfl⟩
    rw [if_neg hlen, hread]
    dsimp only [bind, Except.bind]
    rw [ofBytes_header (by omega)]
    split_ifs with ht h h
    · rfl
    · exact absurd (.inr ht) h
    · exact absurd h (not_or.2 ⟨hlen, ht⟩)
    · rfl

/-- `loadResources` throws `eofErr` or finishes, with every byte that it reads inside the file and
no other exception, exactly if the header or the sums of its lengths stop it or every part that it
reaches lies in the file. -/
theorem loadResources_contained_iff (garbage : ℕ → ℕ → ℕ) (mem : Bytes) :
    (loadResources garbage mem = .error .eofErr ∨ Finishes (loadResources garbage mem)) ↔
      (mem.length < 16 ∨ Truncated mem (headerAt mem 0)) ∨ MapInside mem (headerAt mem 0) := by
  rw [loadResources_eq]
  split_ifs with h
  · exact iff_of_true (.inl rfl) (.inl h)
  · rw [finishes_loadMap]
    exact ⟨fun hr => hr.elim (fun he => absurd rfl (loadMap_stops _ he)) .inr,
      fun hm => .inr (hm.resolve_left h)⟩

/-- The map's header is read behind the end of sixteen zeros. -/
theorem loadResources_sixteen_zeros :
    loadResources (fun _ _ => 0) (List.replicate 16 0) = .error .outside := rfl

end ResourceFork

end Darling
