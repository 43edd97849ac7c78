import Darling.Proofs.ResourceFork

/-!
# What `loadResources` makes of a resource file

A file that lays out resources as documented is described by where its parts lie.  The records that
are made of it lack their type, the map of names has no name, a length of 128 or more is no length,
data at offset `0xffff` is no data, and no types are 65536 types.
-/

namespace Darling.ResourceFork

open List Option

/-- A resource, and where its name and data are laid. -/
structure Item where
  id : ℕ
  name : Option Bytes
  attributes : ℕ
  data : Bytes
  nameOffset : ℕ
  dataOffset : ℕ
  deriving Inhabited

/-- The resources of a type, of which there is at least one, with ids of their own. -/
structure Group where
  type : ℕ
  items : List Item
  referenceListOffset : ℕ
  nonempty : items ≠ []
  nodup : (items.map Item.id).Nodup

instance : Inhabited Group := ⟨⟨0, [default], 0, cons_ne_nil _ _, nodup_singleton _⟩⟩

/-- A resource file: its header, and its types, no two of them the same. -/
structure Fork where
  header : ResourcesHeader
  attributes : ℕ
  nameListOffset : ℕ
  groups : List Group
  nodup : (groups.map Group.type).Nodup
  length_lt : groups.length < 2 ^ 16

def Fork.mapHeader (f : Fork) : ResourceMapHeader where
  attributes := f.attributes
  typeListOffset := 28
  nameListOffset := f.nameListOffset
  numOfTypesMinusOne := (f.groups.length + 0xffff) % 2 ^ 16

section Laid

variable (mem : Bytes) (header : ResourcesHeader) (mapHeader : ResourceMapHeader)

/-- The bytes stand at the offset. -/
def Holds (bs : Bytes) (i : ℕ) : Prop := bs <+: mem.drop i

instance (bs : Bytes) (i : ℕ) : Decidable (Holds mem bs i) := inferInstanceAs (Decidable (_ <+: _))

/-- The item is laid out as documented. -/
structure Item.Laid (it : Item) (rli : ℕ) : Prop where
  inside : rli + 12 ≤ mem.length
  item : itemAt mem rli = ⟨it.id, it.nameOffset, it.attributes, it.dataOffset⟩
  noName : it.name = none → it.nameOffset = 0xffff
  name : ∀ n, it.name = some n → it.nameOffset ≠ 0xffff ∧ n.length < 256 ∧
    Holds mem (UInt8.ofNat n.length :: n)
      (header.resourceMapOffset + mapHeader.nameListOffset + it.nameOffset)
  data_lt : it.data.length < 256 ^ 4
  data : Holds mem ((le 4 it.data.length).reverse ++ it.data)
    (header.resourceDataOffset + it.dataOffset)

/-- The type and its items are laid out as documented. -/
structure Group.Laid (g : Group) (t : ℕ) : Prop where
  inside : t + 8 ≤ mem.length
  type : typeAt mem t = ⟨g.type, g.items.length - 1, g.referenceListOffset⟩
  items : ∀ j (it : Item), g.items[j]? = some it → it.Laid mem header mapHeader
    (header.resourceMapOffset + mapHeader.typeListOffset + g.referenceListOffset + 12 * j)

/-- The file lays out the resources as documented. -/
structure Fork.Laid (f : Fork) : Prop where
  header : headerAt mem 0 = f.header
  dataInside : f.header.resourceDataOffset + f.header.resourceDataLength ≤ mem.length
  mapInside : f.header.resourceMapOffset + f.header.resourceMapLength ≤ mem.length
  inside : f.header.resourceMapOffset + 30 ≤ mem.length
  map : mapHeaderAt mem f.header.resourceMapOffset = f.mapHeader
  groups : ∀ i (g : Group), f.groups[i]? = some g → g.Laid mem f.header f.mapHeader
    (f.header.resourceMapOffset + f.mapHeader.typeListOffset + 2 + 8 * i)

end Laid

/-- The record that should be made. -/
def Item.record (it : Item) (type : ℕ) : ResourceData :=
  ⟨it.id, type, it.name.getD [], it.attributes, it.data⟩

/-- The store has each resource once under its type, with all that is its own, and finds it by its
id and a resource of its name by that name. -/
def Faithful (groups : List Group) (r : Except Stop Resources) : Prop :=
  ∃ store, r = .ok store ∧ (∀ t, t ∈ store.resourceTypes ↔ t ∈ groups.map Group.type) ∧
    ∀ g ∈ groups, ∃ rtd, store.resourceTypes.lookup g.type = some rtd ∧
      rtd.resources = g.items.map (·.record g.type) ∧
      ∀ it ∈ g.items, get1Resource store g.type it.id = some (it.record g.type) ∧
        ∀ n, it.name = some n →
          ∃ d ∈ rtd.resources, d.name = n ∧ get1NamedResource store g.type n = some d

section Loaded

variable {mem : Bytes} {header : ResourcesHeader} {mapHeader : ResourceMapHeader}
  {i j : ℕ} {it : Item} {α : Type*} {l : List α} {g : Group}

theorem Holds.inside {bs : Bytes} (h : Holds mem bs i) (hbs : bs ≠ []) :
    i + bs.length ≤ mem.length := by
  have hle := h.length_le
  have hpos := length_pos_iff.2 hbs
  rw [length_drop] at hle
  omega

theorem Holds.reads {bs cs : Bytes} {n m : ℕ} (h : Holds mem (bs ++ cs) i) (hbs : bs ≠ [])
    (hn : bs.length = n) (hm : cs.length = m) :
    read Stop.outside n mem i = .ok bs ∧ read Stop.outside m mem (i + n) = .ok cs := by
  have hin := h.inside (by simp [hbs])
  rw [length_append] at hin
  obtain ⟨rest, h⟩ := h
  rw [read_eq_ok, read_eq_ok]
  refine ⟨⟨by omega, ?_⟩, by omega, ?_⟩
  · rw [← h, append_assoc, ← hn, take_left]
  · rw [← drop_drop, ← h, append_assoc, ← hn, drop_left, ← hm, take_left]

/-- The record before it is moved. -/
def Item.loaded (it : Item) (type : ℕ) : ResourceData :=
  ⟨it.id, type, it.name.getD [], it.attributes, if it.dataOffset = 0xffff then [] else it.data⟩

theorem loadData_holds {data : Bytes} (hlt : data.length < 256 ^ 4)
    (h : Holds mem ((le 4 data.length).reverse ++ data) i) : loadData mem i = .ok data := by
  have hlen : (le 4 data.length).reverse.length = 4 := by simp
  have hne : (le 4 data.length).reverse ≠ [] := ne_nil_of_length_pos (by omega)
  have hval : bswap 4 (unle (le 4 data.length).reverse) = data.length := by
    rw [bswap_unle hlen, reverse_reverse, unle_le_of_lt hlt]
  obtain ⟨hl, hd⟩ := h.reads hne hlen rfl
  rw [loadData, hl, ok_bind, hval, hd]

theorem loadName_holds {name : Bytes} (hlt : name.length < 128)
    (h : Holds mem (UInt8.ofNat name.length :: name) i) : loadName mem i = .ok name := by
  have hval : unle [UInt8.ofNat name.length] = name.length := by
    rw [unle, unle, UInt8.toNat_ofNat']
    omega
  have hsplit : Holds mem ([UInt8.ofNat name.length] ++ name) i := h
  obtain ⟨hl, hn⟩ := hsplit.reads (cons_ne_nil _ _) (length_singleton) rfl
  rw [loadName, hl, ok_bind, hval, if_pos hlt, hn]

theorem Item.Laid.loadResource_eq {rli type : ℕ} (h : it.Laid mem header mapHeader rli)
    (hname : (it.name.getD []).length < 128) :
    loadResource mem header mapHeader type rli = .ok (it.loaded type) := by
  have hn : itemName mem header mapHeader (itemAt mem rli) = .ok (it.name.getD []) := by
    rw [itemName, h.item]
    rcases hit : it.name with _ | n
    · rw [if_neg (not_not.2 (h.noName hit))]
      rfl
    · obtain ⟨hoff, -, hold⟩ := h.name n hit
      rw [hit] at hname
      rw [if_pos hoff]
      exact loadName_holds hname hold
  have hd : itemData mem header (itemAt mem rli) =
      .ok (if it.dataOffset = 0xffff then [] else it.data) := by
    rw [itemData, h.item]
    by_cases hoff : it.dataOffset = 0xffff
    · rw [if_neg (not_not.2 hoff), if_pos hoff]
      rfl
    · rw [if_pos hoff, if_neg hoff]
      exact loadData_holds h.data_lt h.data
  rw [loadResource, read_eq_ok.2 ⟨h.inside, rfl⟩, ok_bind, ofBytes_item h.inside]
  simp only [hn, hd, ok_bind]
  rw [h.item]
  rfl

theorem getElem?_eq_getD [Inhabited α] (h : j < l.length) : l[j]? = some (l.getD j default) := by
  rw [getD_eq_getElem?_getD, getElem?_eq_getElem h, getD_some]

theorem getD_of_getElem? [Inhabited α] {a : α} (h : l[j]? = some a) : l.getD j default = a := by
  rw [getD_eq_getElem?_getD, h, getD_some]

def Group.Short (g : Group) : Prop := ∀ it ∈ g.items, (it.name.getD []).length < 128

/-- The record that is made; a move does not keep its type. -/
def Group.record (g : Group) (garbage : ℕ → ℕ) (j : ℕ) : ResourceData :=
  ((g.items.getD j default).loaded g.type).move (garbage j)

def Group.loaded (g : Group) (garbage : ℕ → ℕ) : ResourceTypeData ResourceData where
  type := g.type
  resources := (range g.items.length).map (g.record garbage)
  idMap := (range g.items.length).foldl
    (fun m j => m.emplace (g.items.getD j default).id (g.record garbage j)) ∅
  nameMap := (range g.items.length).foldl (fun m j => m.emplace [] (g.record garbage j)) ∅

theorem foldl_append (res : ℕ → ResourceData) (garbage : ℕ → ℕ) :
    ∀ (l : List ℕ) (rtd : ResourceTypeData ResourceData),
      l.foldl (fun rtd j => rtd.append (garbage j) (res j)) rtd =
        { type := rtd.type
          resources := rtd.resources ++ l.map fun j => (res j).move (garbage j)
          idMap := l.foldl (fun m j => m.emplace (res j).id ((res j).move (garbage j))) rtd.idMap
          nameMap := l.foldl (fun m j => m.emplace [] ((res j).move (garbage j))) rtd.nameMap }
  | [], rtd => by simp
  | j :: l, rtd => by
    rw [foldl_cons, foldl_append res garbage l]
    simp [ResourceTypeData.append, ResourceTypeData.push, ResourceData.movedFrom]

theorem Group.Laid.loadType_eq {garbage : ℕ → ℕ} {t : ℕ} (h : g.Laid mem header mapHeader t)
    (hshort : g.Short) : loadType garbage mem header mapHeader t = .ok (g.loaded garbage) := by
  have hlen : g.items.length - 1 + 1 = g.items.length :=
    Nat.succ_pred_eq_of_pos (length_pos_iff.2 g.nonempty)
  have hitem : ∀ j ∈ range g.items.length, loadResource mem header mapHeader g.type
      (header.resourceMapOffset + mapHeader.typeListOffset + g.referenceListOffset + 12 * j) =
      .ok ((g.items.getD j default).loaded g.type) := by
    intro j hj
    have hget := getElem?_eq_getD (mem_range.1 hj)
    exact (h.items j _ hget).loadResource_eq (hshort _ (mem_of_getElem? hget))
  rw [loadType, read_eq_ok.2 ⟨h.inside, rfl⟩, ok_bind, ofBytes_type h.inside, h.type]
  simp only [hlen]
  rw [foldlM_eq_ok hitem, foldl_append]
  simp [Group.loaded, Group.record, Item.loaded]

/-- What `loadResources` makes of the file. -/
def Fork.loaded (f : Fork) (garbage : ℕ → ℕ → ℕ) : Resources where
  attributes := f.attributes
  resourceTypes := (range f.groups.length).foldl (fun types i =>
    types.emplace (f.groups.getD i default).type ((f.groups.getD i default).loaded (garbage i))) ∅

variable {f : Fork} {garbage : ℕ → ℕ → ℕ}

theorem Fork.Laid.loadResources_eq_loadMap (h : f.Laid mem) :
    loadResources garbage mem = loadMap garbage mem f.header := by
  have hhead := h.header
  rw [loadResources_eq, if_neg, hhead]
  rintro (hlen | ht)
  · have := h.inside
    omega
  · rw [hhead, Truncated] at ht
    have := h.dataInside
    have := h.mapInside
    omega

theorem Fork.count (hne : f.groups ≠ []) :
    f.mapHeader.numOfTypesMinusOne + 1 = f.groups.length := by
  have hpos := length_pos_iff.2 hne
  have hlt := f.length_lt
  simp only [Fork.mapHeader]
  omega

theorem Fork.Laid.loadResources_eq_loaded (h : f.Laid mem) (hne : f.groups ≠ [])
    (hshort : ∀ g ∈ f.groups, g.Short) : loadResources garbage mem = .ok (f.loaded garbage) := by
  have htype : ∀ i ∈ range f.groups.length, loadType (garbage i) mem f.header f.mapHeader
      (f.header.resourceMapOffset + f.mapHeader.typeListOffset + 2 + 8 * i) =
      .ok ((f.groups.getD i default).loaded (garbage i)) := by
    intro i hi
    have hget := getElem?_eq_getD (mem_range.1 hi)
    exact (h.groups i _ hget).loadType_eq (hshort _ (mem_of_getElem? hget))
  rw [h.loadResources_eq_loadMap, loadMap, read_eq_ok.2 ⟨h.inside, rfl⟩, ok_bind,
    ofBytes_mapHeader h.inside, h.map]
  simp only [Fork.count hne]
  rw [foldlM_eq_ok htype]
  rfl

theorem Fork.Laid.short (h : f.Laid mem) (hne : f.groups ≠ [])
    (hfin : Finishes (loadResources garbage mem)) : ∀ g ∈ f.groups, g.Short := by
  intro g hg it hit
  rw [h.loadResources_eq_loadMap, finishes_loadMap, MapInside, h.map] at hfin
  obtain ⟨i, hi⟩ := mem_iff_getElem?.1 hg
  obtain ⟨j, hj⟩ := mem_iff_getElem?.1 hit
  have hcount := Fork.count hne
  have hilt := (List.getElem?_eq_some_iff.1 hi).1
  have hjlt := (List.getElem?_eq_some_iff.1 hj).1
  have hlaid := h.groups i g hi
  have hitem := hlaid.items j it hj
  rcases hname : it.name with _ | n
  · simp
  · obtain ⟨hoff, hlt, hold⟩ := hitem.name n hname
    have htype := (hfin.2 i (by omega)).2
    rw [hlaid.type] at htype
    have hin := (htype j (by simp only; omega)).2.1
    rw [hitem.item] at hin
    have hlen : big 1 mem (f.header.resourceMapOffset + f.mapHeader.nameListOffset +
        it.nameOffset) = n.length := by
      obtain ⟨rest, hrest⟩ := hold
      rw [big, ← hrest]
      simp [unle, UInt8.toNat_ofNat']
      omega
    have := (hin hoff).2.1
    rw [hlen] at this
    exact this

theorem nodup_getD {β : Type*} [Inhabited α] {key : α → β} (h : (l.map key).Nodup)
    (hi : i < l.length) (hj : j < l.length)
    (he : key (l.getD i default) = key (l.getD j default)) : j = i := by
  have hi' : (l.map key)[i]? = some (key (l.getD i default)) := by
    rw [getElem?_map, getElem?_eq_getD hi, map_some]
  have hj' : (l.map key)[j]? = some (key (l.getD j default)) := by
    rw [getElem?_map, getElem?_eq_getD hj, map_some]
  exact (getElem?_inj (by rwa [length_map]) h).1 (by rw [hi', hj', he])

theorem Fork.lookup_loaded (hg : f.groups[i]? = some g) :
    (f.loaded garbage).resourceTypes.lookup g.type = some (g.loaded (garbage i)) := by
  have hi := (List.getElem?_eq_some_iff.1 hg).1
  have := UnorderedMap.lookup_foldl_emplace_of_inj (fun i => (f.groups.getD i default).type)
    (fun i => (f.groups.getD i default).loaded (garbage i)) (mem_range.2 hi)
    fun j hj => nodup_getD f.nodup hi (mem_range.1 hj)
  rwa [getD_of_getElem? hg] at this

theorem Fork.mem_loaded (t : ℕ) :
    t ∈ (f.loaded garbage).resourceTypes ↔ t ∈ f.groups.map Group.type := by
  rw [Fork.loaded, UnorderedMap.mem_foldl_emplace (fun i => (f.groups.getD i default).type),
    List.mem_map]
  constructor
  · rintro ⟨i, hi, rfl⟩
    exact ⟨_, mem_of_getElem? (getElem?_eq_getD (mem_range.1 hi)), rfl⟩
  · rintro ⟨g, hg, rfl⟩
    obtain ⟨i, hi⟩ := mem_iff_getElem?.1 hg
    exact ⟨i, mem_range.2 (List.getElem?_eq_some_iff.1 hi).1, by rw [getD_of_getElem? hi]⟩

section

variable {garbage : ℕ → ℕ}

theorem Group.lookup_id (hit : g.items[j]? = some it) :
    (g.loaded garbage).idMap.lookup it.id = some (g.record garbage j) := by
  have hj := (List.getElem?_eq_some_iff.1 hit).1
  have := UnorderedMap.lookup_foldl_emplace_of_inj (fun j => (g.items.getD j default).id)
    (g.record garbage) (mem_range.2 hj)
    fun k hk => nodup_getD g.nodup hj (mem_range.1 hk)
  rwa [getD_of_getElem? hit] at this

theorem Group.lookup_name (n : Bytes) :
    (g.loaded garbage).nameMap.lookup n = if n = [] then some (g.record garbage 0) else none := by
  have hpos := length_pos_iff.2 g.nonempty
  obtain ⟨m, hm⟩ := Nat.exists_eq_add_of_lt hpos
  rw [Group.loaded, UnorderedMap.lookup_foldl_emplace (fun _ => []), AList.lookup_empty,
    none_or, hm, Nat.zero_add, range_succ_eq_map]
  split_ifs with hn
  · rw [find?_cons_of_pos (by simpa using hn), map_some]
  · rw [find?_eq_none.2 fun _ _ => by simpa using hn, map_none]

theorem Group.record_eq_iff (hit : g.items[j]? = some it) : g.record garbage j = it.record g.type ↔
      garbage j = g.type ∧ (it.dataOffset = 0xffff → it.data = []) := by
  simp only [Group.record, getD_of_getElem? hit, Item.loaded, ResourceData.move, Item.record,
    ResourceData.mk.injEq, true_and]
  by_cases hoff : it.dataOffset = 0xffff
  · simp [hoff, eq_comm]
  · simp [hoff]

/-- The records of a type are its resources exactly if the memory that they were made in held the
type and no data lies at the offset that means none. -/
theorem Group.resources_iff : (g.loaded garbage).resources = g.items.map (·.record g.type) ↔
      ∀ j (it : Item), g.items[j]? = some it →
        garbage j = g.type ∧ (it.dataOffset = 0xffff → it.data = []) := by
  constructor
  · intro h j it hit
    have hj := congrArg (·[j]?) h
    simp only [Group.loaded, getElem?_map, hit, map_some,
      getElem?_range (List.getElem?_eq_some_iff.1 hit).1, some.injEq] at hj
    exact (Group.record_eq_iff hit).1 hj
  · intro h
    refine ext_getElem? fun j => ?_
    rw [Group.loaded, getElem?_map, getElem?_map]
    rcases hit : g.items[j]? with _ | it
    · rw [getElem?_eq_none (by simpa using getElem?_eq_none_iff.1 hit)]
      rfl
    · rw [getElem?_range (List.getElem?_eq_some_iff.1 hit).1, map_some, map_some,
        (Group.record_eq_iff hit).2 (h j it hit)]

end

theorem exists_mem_of_loadMap {store : Resources} (h : loadMap garbage mem header = .ok store) :
    ∃ t, t ∈ store.resourceTypes := by
  obtain ⟨hin, htypes⟩ := finishes_loadMap.1 ⟨store, h⟩
  have hfin : ∀ i ≤ (mapHeaderAt mem header.resourceMapOffset).numOfTypesMinusOne, ∃ rtd, loadType
      (garbage i) mem header (mapHeaderAt mem header.resourceMapOffset) (header.resourceMapOffset +
        (mapHeaderAt mem header.resourceMapOffset).typeListOffset + 2 + 8 * i) = .ok rtd :=
    fun i hi => finishes_loadType.2 (htypes i hi)
  have : Nonempty (ResourceTypeData ResourceData) := ⟨⟨0, [], ∅, ∅⟩⟩
  choose! rtd hrtd using hfin
  rw [loadMap, read_eq_ok.2 ⟨hin, rfl⟩, ok_bind, ofBytes_mapHeader hin] at h
  simp only at h
  rw [foldlM_eq_ok fun i hi => hrtd i (Nat.lt_succ_iff.1 (mem_range.1 hi)), ok_bind] at h
  cases h
  exact ⟨_, (UnorderedMap.mem_foldl_emplace (fun i => (rtd i).type) rtd _ _).2
    ⟨0, mem_range.2 (Nat.succ_pos _), rfl⟩⟩

theorem Faithful.groups_ne_nil (h : f.Laid mem)
    (hf : Faithful f.groups (loadResources garbage mem)) : f.groups ≠ [] := by
  intro hnil
  obtain ⟨store, hload, hmem, -⟩ := hf
  rw [h.loadResources_eq_loadMap] at hload
  obtain ⟨t, ht⟩ := exists_mem_of_loadMap hload
  rw [hmem, hnil] at ht
  exact not_mem_nil ht

theorem get1Resource_loaded (hg : f.groups[i]? = some g) (hit : g.items[j]? = some it) :
    get1Resource (f.loaded garbage) g.type it.id = some (g.record (garbage i) j) := by
  rw [get1Resource, Fork.lookup_loaded hg]
  exact Group.lookup_id hit

theorem get1NamedResource_loaded (hg : f.groups[i]? = some g) (n : Bytes) :
    get1NamedResource (f.loaded garbage) g.type n =
      if n = [] then some (g.record (garbage i) 0) else none := by
  rw [get1NamedResource, Fork.lookup_loaded hg]
  exact Group.lookup_name n

/-- The record is the one that should be made. -/
def Intact (garbage : ℕ → ℕ → ℕ) (i j : ℕ) (g : Group) (it : Item) : Prop :=
  garbage i j = g.type ∧ it.name.getD [] = [] ∧ (it.dataOffset = 0xffff → it.data = [])

end Loaded

/-- A file that is laid out as documented is decoded faithfully exactly if it has a type, no name
has a letter, no data but empty data lies at offset `0xffff`, and the memory of each record held
its type before. -/
theorem loadResources_faithful_iff (f : Fork) (mem : Bytes) (garbage : ℕ → ℕ → ℕ) (h : f.Laid mem) :
    Faithful f.groups (loadResources garbage mem) ↔
      f.groups ≠ [] ∧ ∀ i (g : Group), f.groups[i]? = some g → ∀ j (it : Item),
        g.items[j]? = some it → Intact garbage i j g it := by
  constructor
  · intro hf
    have hne := hf.groups_ne_nil h
    obtain ⟨store, hload, -, hgroups⟩ := hf
    have hshort := h.short hne ⟨store, hload⟩
    rw [h.loadResources_eq_loaded hne hshort, Except.ok.injEq] at hload
    subst hload
    refine ⟨hne, fun i g hg j it hit => ?_⟩
    obtain ⟨rtd, hrtd, hres, hfind⟩ := hgroups g (mem_of_getElem? hg)
    rw [Fork.lookup_loaded hg, Option.some.injEq] at hrtd
    subst hrtd
    obtain ⟨htype, hdata⟩ := Group.resources_iff.1 hres j it hit
    refine ⟨htype, ?_, hdata⟩
    rcases hname : it.name with _ | n
    · rfl
    · obtain ⟨d, -, -, hd⟩ := (hfind it (mem_of_getElem? hit)).2 n hname
      rw [get1NamedResource_loaded hg] at hd
      split_ifs at hd with hn
      exact hn
  · rintro ⟨hne, hintact⟩
    have hshort : ∀ g ∈ f.groups, g.Short := by
      intro g hg it hit
      obtain ⟨i, hi⟩ := mem_iff_getElem?.1 hg
      obtain ⟨j, hj⟩ := mem_iff_getElem?.1 hit
      rw [(hintact i g hi j it hj).2.1]
      decide
    refine ⟨f.loaded garbage, h.loadResources_eq_loaded hne hshort, Fork.mem_loaded, ?_⟩
    intro g hg
    obtain ⟨i, hi⟩ := mem_iff_getElem?.1 hg
    have hown : ∀ j (it : Item), g.items[j]? = some it →
        garbage i j = g.type ∧ (it.dataOffset = 0xffff → it.data = []) :=
      fun j it hj => ⟨(hintact i g hi j it hj).1, (hintact i g hi j it hj).2.2⟩
    have hres := Group.resources_iff.2 hown
    have hrecord : ∀ j (it : Item), g.items[j]? = some it →
        g.record (garbage i) j = it.record g.type :=
      fun j it hj => (Group.record_eq_iff hj).2 (hown j it hj)
    refine ⟨_, Fork.lookup_loaded hi, hres, fun it hit => ?_⟩
    obtain ⟨j, hj⟩ := mem_iff_getElem?.1 hit
    refine ⟨by rw [get1Resource_loaded hi hj, hrecord j it hj], fun n hn => ?_⟩
    have hnil := (hintact i g hi j it hj).2.1
    rw [hn, getD_some] at hnil
    -- every name is found at the entry of the empty one, which is the first resource's
    have hfirst := getElem?_eq_getD (length_pos_iff.2 g.nonempty)
    refine ⟨g.record (garbage i) 0, ?_, ?_, by rw [get1NamedResource_loaded hi, if_pos hnil]⟩
    · rw [hres, hrecord 0 _ hfirst]
      exact mem_map_of_mem (mem_of_getElem? hfirst)
    · rw [hrecord 0 _ hfirst, hnil]
      exact (hintact i g hi 0 _ hfirst).2.1

def sampleFile (off : Byte) (names : Bytes) : Bytes :=
  [0, 0, 0, 16, 0, 0, 0, 21, 0, 0, 0, 5, 0, 0, 0, 50] ++ [0, 0, 0, 1, 7] ++
    (replicate 24 0 ++ [0, 28, 0, 50, 0, 0] ++ [0, 0, 0, 65, 0, 0, 0, 10] ++
      [0, 1, off, off, 0, 0, 0, 0, 0, 0, 0, 0] ++ names)

def sampleItem (name : Option Bytes) (nameOffset : ℕ) : Item := ⟨1, name, 0, [7], nameOffset, 0⟩

def sampleFork (name : Option Bytes) (nameOffset : ℕ) : Fork where
  header := ⟨16, 21, 5, 50⟩
  attributes := 0
  nameListOffset := 50
  groups := [⟨65, [sampleItem name nameOffset], 10, cons_ne_nil _ _, nodup_singleton _⟩]
  nodup := nodup_singleton _
  length_lt := by simp

theorem sampleFork_mapHeader (name : Option Bytes) (nameOffset : ℕ) :
    (sampleFork name nameOffset).mapHeader = ⟨0, 28, 50, 0⟩ := by
  simp [Fork.mapHeader, sampleFork]

theorem sampleFork_laid {off : Byte} {names : Bytes} {name : Option Bytes} {nameOffset : ℕ}
    (hlen : 71 ≤ (sampleFile off names).length)
    (hitem : (sampleItem name nameOffset).Laid (sampleFile off names) ⟨16, 21, 5, 50⟩
      ⟨0, 28, 50, 0⟩ 59) :
    (sampleFork name nameOffset).Laid (sampleFile off names) where
  header := rfl
  dataInside := le_trans (show 16 + 5 ≤ 71 by decide) hlen
  mapInside := hlen
  inside := le_trans (show 21 + 30 ≤ 71 by decide) hlen
  map := by
    rw [sampleFork_mapHeader]
    rfl
  groups := by
    rw [sampleFork_mapHeader]
    rintro (_ | i) g hg
    · cases hg
      refine ⟨le_trans (show 51 + 8 ≤ 71 by decide) hlen, rfl, ?_⟩
      rintro (_ | j) it hit
      · cases hit
        exact hitem
      · simp at hit
    · simp [sampleFork] at hg

/-- Without a name, and in memory that held the type, the resource is decoded. -/
theorem loadResources_faithful_nameless : (sampleFork none 0xffff).Laid (sampleFile 255 []) ∧
    Faithful (sampleFork none 0xffff).groups
      (loadResources (fun _ _ => 65) (sampleFile 255 [])) := by
  have hlaid : (sampleFork none 0xffff).Laid (sampleFile 255 []) :=
    sampleFork_laid (by decide) ⟨by decide, rfl, fun _ => rfl, nofun, by decide, by decide⟩
  refine ⟨hlaid, (loadResources_faithful_iff _ _ _ hlaid).2 ⟨cons_ne_nil _ _, ?_⟩⟩
  rintro (_ | i) g hg (_ | j) it hit
  · cases hg
    cases hit
    exact ⟨rfl, rfl, nofun⟩
  · cases hg
    simp at hit
  all_goals simp [sampleFork] at hg

/-- A resource with the name `A`: it is in the store, not with its type, and not found by its
name. -/
theorem loadResources_named : (sampleFork (some [65]) 0).Laid (sampleFile 0 [1, 65]) ∧
      ∃ store rtd, loadResources (fun _ _ => 0) (sampleFile 0 [1, 65]) = .ok store ∧
        store.resourceTypes.lookup 65 = some rtd ∧
        rtd.resources = [⟨1, 0, [65], 0, [7]⟩] ∧
        get1NamedResource store 65 [65] = none := by
  refine ⟨sampleFork_laid (by decide) ⟨by decide, rfl, nofun, ?_, by decide, by decide⟩,
    _, _, rfl, rfl, rfl, rfl⟩
  rintro n ⟨⟩
  exact ⟨by decide, by decide, by decide⟩

end Darling.ResourceFork
