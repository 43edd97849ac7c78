import Darling.ResourceManager
import Darling.Runs

/-!
# When the caches of the Resource Manager can be trusted

A query adds what it finds to what its cache holds and takes the cache for filled when its tag is
the type asked for.  A cache stays what the files have of the type that it is tagged with (`Fresh`)
as long as it is asked for another type only while it is empty, and nothing that is cached changes.
-/

namespace Darling.ResourceManager

open List Option

open ResourceFork (ResourceData ResourceTypeData)

/-- The resources of a type, file by file. -/
def State.present (s : State) (type : ℕ) : List ℕ := s.files.flatMap (·.ofType type)

/-- A file has the resource at `p` under the key `k` in the map `sel` of the type. -/
def State.Has {κ : Type} [DecidableEq κ] (sel : ResourceTypeData ℕ → UnorderedMap κ ℕ) (s : State)
    (type : ℕ) (k : κ) (p : ℕ) : Prop :=
  ∃ r ∈ s.files, ∃ rtd, r.resourceTypes.lookup type = some rtd ∧ (sel rtd).lookup k = some p

/-- What the open files say, with no cache: the same number or type; and a resource that is there,
or none if there is none. -/
def Correct (s : State) : Query → Answer → Prop
  | .countTypes, a => a = .count (.ofNat 16 s.types.card)
  | .getIndType index, a => a = .type (nth (s.types.sort (· ≤ ·)) index)
  | .countResources type, a => a = .count (.ofNat 16 (s.present type).length)
  | .getIndResource type index, a => ∃ o, a = .resource o ∧
      (o.isSome ↔ 1 ≤ index ∧ index ≤ (s.present type).length) ∧
        ∀ p, o = some p → p ∈ s.present type
  | .getResource type resId, a => ∃ o, a = .resource o ∧
      (o.isSome ↔ ∃ p, s.Has (·.idMap) type resId p) ∧
        ∀ p, o = some p → s.Has (·.idMap) type resId p
  | .getNamedResource type name, a => ∃ o, a = .resource o ∧
      (o.isSome ↔ ∃ p, s.Has (·.nameMap) type name p) ∧
        ∀ p, o = some p → s.Has (·.nameMap) type name p

/-- A query is answered from the files. -/
def Right (s : State) : Call → Prop
  | .query q => Correct s q (s.query q).1
  | _ => True

/-- No file has a resource of the type under a key. -/
def State.Absent {κ : Type} [DecidableEq κ] (sel : ResourceTypeData ℕ → UnorderedMap κ ℕ)
    (s : State) (type : ℕ) : Prop := ∀ k p, ¬ s.Has sel type k p

/-- A cache that has the tag of a cleared one is empty. -/
def Cleared (tag : ℕ) (empty : Prop) : Prop := tag = noType ∧ empty

/-- A cache with a tag is asked for a type; a cleared one is taken for filled with `noType`. -/
def Asks (tag : ℕ) (empty absent : Prop) (type : ℕ) : Prop :=
  if tag = type then Cleared tag empty → absent else empty

/-- The cache has another tag, or has been cleared. -/
def Untagged (tag : ℕ) (empty : Prop) (type : ℕ) : Prop := tag ≠ type ∨ Cleared tag empty

/-- The record that a handle leads to. -/
def State.Records (s : State) (res : ℕ) (record : ResourceData) : Prop :=
  ∃ r ∈ s.files, ∃ p, r.handleMap.lookup res = some p ∧ s.heap.lookup p = some record

/-- A cache is asked for the type of its tag or is empty, and the cache of names, which is taken for
filled by the tag of the ids, is not asked for names that it lacks; what is changed is of a type
that no cache is tagged with, and a type that is added is among those that are cached. -/
def Disciplined (s : State) : Call → Prop
  | .query (.countResources type) =>
    Asks s.resourcesOfTypeCacheType (s.resourcesOfTypeCache = []) (s.present type = []) type
  | .query (.getIndResource type _) =>
    Asks s.resourcesOfTypeCacheType (s.resourcesOfTypeCache = []) (s.present type = []) type
  | .query (.getResource type _) =>
    Asks s.resourcesOfTypeMapCacheType (s.resourcesOfTypeMapCache = ∅) (s.Absent (·.idMap) type)
      type
  | .query (.getNamedResource type _) =>
    Asks s.resourcesOfTypeNameMapCacheType (s.resourcesOfTypeNameMapCache = ∅)
      (s.Absent (·.nameMap) type) type ∧
    (s.resourcesOfTypeMapCacheType = type → s.resourcesOfTypeNameMapCacheType = type ∨
      s.Absent (·.nameMap) type)
  | .addResource _ type _ _ _ _ => (s.allTypesCache = ∅ ∨ type ∈ s.types) ∧
    Untagged s.resourcesOfTypeCacheType (s.resourcesOfTypeCache = []) type ∧
    Untagged s.resourcesOfTypeMapCacheType (s.resourcesOfTypeMapCache = ∅) type ∧
    Untagged s.resourcesOfTypeNameMapCacheType (s.resourcesOfTypeNameMapCache = ∅) type
  | .removeResource res => ∀ record, s.Records res record →
    Untagged s.resourcesOfTypeCacheType (s.resourcesOfTypeCache = []) record.type ∧
    Untagged s.resourcesOfTypeMapCacheType (s.resourcesOfTypeMapCache = ∅) record.type ∧
    Untagged s.resourcesOfTypeNameMapCacheType (s.resourcesOfTypeNameMapCache = ∅) record.type
  | .setResInfo res theID name => ∀ record, s.Records res record →
    (Untagged s.resourcesOfTypeMapCacheType (s.resourcesOfTypeMapCache = ∅) record.type ∨
      record.id = theID) ∧
    (Untagged s.resourcesOfTypeNameMapCacheType (s.resourcesOfTypeNameMapCache = ∅) record.type ∨
      record.name = name)
  | _ => True

section Queries

variable {s : State}

theorem foldl_append_ofType (type : ℕ) : ∀ (files : List File) (rv : List ℕ),
    files.foldl (fun rv r => rv ++ r.ofType type) rv = rv ++ files.flatMap (·.ofType type)
  | [], rv => by simp
  | r :: files, rv => by
    rw [foldl_cons, foldl_append_ofType type files, flatMap_cons, append_assoc]

section Maps

variable {κ : Type} [DecidableEq κ] (sel : ResourceTypeData ℕ → UnorderedMap κ ℕ)

/-- The first file that has the key answers. -/
def State.found (s : State) (type : ℕ) (k : κ) : Option ℕ :=
  s.files.findSome? fun r => (r.resourceTypes.lookup type).bind fun rtd => (sel rtd).lookup k

theorem lookup_collect (type : ℕ) (k : κ) : ∀ (files : List File) (rv : UnorderedMap κ ℕ),
    (collect sel files type rv).lookup k = (rv.lookup k).or (files.findSome? fun r =>
      (r.resourceTypes.lookup type).bind fun rtd => (sel rtd).lookup k)
  | [], rv => by simp [collect]
  | r :: files, rv => by
    have ih := lookup_collect type k files
    unfold collect at ih ⊢
    rw [foldl_cons, ih, findSome?_cons]
    rcases r.resourceTypes.lookup type with _ | rtd
    · rfl
    · simp only [UnorderedMap.lookup_emplaceAll, bind_some, Option.or_assoc]
      congr 1
      rcases (sel rtd).lookup k with _ | p <;> rfl

variable {sel} {type : ℕ} {k : κ}

theorem has_of_found {p : ℕ} (h : s.found sel type k = some p) : s.Has sel type k p := by
  obtain ⟨r, hr, hp⟩ := exists_of_findSome?_eq_some h
  obtain ⟨rtd, hrtd, hk⟩ := bind_eq_some_iff.1 hp
  exact ⟨r, hr, rtd, hrtd, hk⟩

theorem found_isSome : (s.found sel type k).isSome ↔ ∃ p, s.Has sel type k p := by
  constructor
  · intro h
    obtain ⟨p, hp⟩ := isSome_iff_exists.1 h
    exact ⟨p, has_of_found hp⟩
  · rintro ⟨p, r, hr, rtd, hrtd, hk⟩
    exact findSome?_isSome_iff.2 ⟨r, hr, by rw [hrtd, bind_some, hk]; rfl⟩

theorem found_eq_none (h : s.Absent sel type) (k : κ) : s.found sel type k = none :=
  Option.eq_none_iff_forall_not_mem.2 fun p hp => h k p (has_of_found hp)

end Maps

section Lists

variable {α : Type} {l m : List α} {index : ℤ} {p : α}

theorem nth_isSome : (nth l index).isSome ↔ 1 ≤ index ∧ index ≤ l.length := by
  unfold nth
  split_ifs with h
  · simp only [isSome_none, Bool.false_eq_true, false_iff]
    omega
  · rw [← ne_none_iff_isSome, Ne, getElem?_eq_none_iff]
    omega

theorem mem_of_nth (h : nth l index = some p) : p ∈ l := by
  unfold nth at h
  split_ifs at h
  exact mem_of_getElem? h

end Lists

end Queries

/-- Each cache is what the files have of the type that it is tagged with, or cleared. -/
structure Fresh (s : State) : Prop where
  types : s.allTypesCache = ∅ ∨ s.allTypesCache = s.types
  list : s.resourcesOfTypeCache = s.present s.resourcesOfTypeCacheType ∨
    Cleared s.resourcesOfTypeCacheType (s.resourcesOfTypeCache = [])
  ids : (∀ k, s.resourcesOfTypeMapCache.lookup k =
      s.found (·.idMap) s.resourcesOfTypeMapCacheType k) ∨
    Cleared s.resourcesOfTypeMapCacheType (s.resourcesOfTypeMapCache = ∅)
  names : (∀ k, s.resourcesOfTypeNameMapCache.lookup k =
      s.found (·.nameMap) s.resourcesOfTypeNameMapCacheType k) ∨
    Cleared s.resourcesOfTypeNameMapCacheType (s.resourcesOfTypeNameMapCache = ∅)

theorem fresh_clearCaches (s : State) : Fresh s.clearCaches :=
  ⟨.inl rfl, .inr ⟨rfl, rfl⟩, .inr ⟨rfl, rfl⟩, .inr ⟨rfl, rfl⟩⟩

section Asks

variable {κ : Type} [DecidableEq κ] {sel : ResourceTypeData ℕ → UnorderedMap κ ℕ} {s : State}
  {tag type : ℕ} {cache : UnorderedMap κ ℕ} (ha : Asks tag (cache = ∅) (s.Absent sel type) type)
  (h : (∀ k, cache.lookup k = s.found sel tag k) ∨ Cleared tag (cache = ∅)) (k : κ)

include ha h

theorem Asks.lookup : cache.lookup k = if tag = type then s.found sel type k else none := by
  rw [Asks] at ha
  split_ifs at ha ⊢ with htag
  · obtain hk | hcleared := h
    · rw [hk, htag]
    · rw [hcleared.2, AList.lookup_empty, found_eq_none (ha hcleared)]
  · rw [ha, AList.lookup_empty]

theorem Asks.lookup_collect :
    (collect sel s.files type cache).lookup k = s.found sel type k := by
  rw [ResourceManager.lookup_collect, ha.lookup h k]
  split_ifs
  · exact or_self
  · exact none_or

end Asks

section Queries

variable {s : State} {type : ℕ} (h : Fresh s)

include h

theorem Fresh.allTypes : s.allTypes.1 = s.types ∧ Fresh s.allTypes.2 := by
  unfold State.allTypes
  split_ifs with hempty
  · exact ⟨rfl, .inr rfl, h.list, h.ids, h.names⟩
  · exact ⟨h.types.resolve_left hempty, h⟩

theorem Fresh.resourcesOfType (ha : Asks s.resourcesOfTypeCacheType (s.resourcesOfTypeCache = [])
    (s.present type = []) type) : (s.resourcesOfType type).1 = s.present type ∧
      Fresh (s.resourcesOfType type).2 := by
  rw [Asks] at ha
  unfold State.resourcesOfType
  by_cases htag : s.resourcesOfTypeCacheType = type
  · rw [if_pos htag] at ha
    rw [if_neg (not_not.2 htag)]
    refine ⟨?_, h⟩
    obtain heq | hcleared := h.list
    · rw [heq, htag]
    · rw [ha hcleared, hcleared.2]
  · rw [if_neg htag] at ha
    rw [if_pos htag]
    have hnew : s.files.foldl (fun rv r => rv ++ r.ofType type) s.resourcesOfTypeCache =
        s.present type := by rw [foldl_append_ofType, ha, nil_append, State.present]
    exact ⟨hnew, h.types, .inl hnew, h.ids, h.names⟩

theorem Fresh.resourcesOfTypeMap (ha : Asks s.resourcesOfTypeMapCacheType
    (s.resourcesOfTypeMapCache = ∅) (s.Absent (·.idMap) type) type) :
    (∀ k, (s.resourcesOfTypeMap type).1.lookup k = s.found (·.idMap) type k) ∧
      Fresh (s.resourcesOfTypeMap type).2 := by
  have hnew := ha.lookup_collect h.ids
  unfold State.resourcesOfTypeMap
  by_cases htag : s.resourcesOfTypeMapCacheType = type
  · rw [if_neg (not_not.2 htag)]
    exact ⟨fun k => by rw [ha.lookup h.ids, if_pos htag], h⟩
  · rw [if_pos htag]
    exact ⟨hnew, h.types, h.list, .inl hnew, h.names⟩

theorem Fresh.resourcesOfTypeNameMap {name : Bytes}
    (ha : Disciplined s (.query (.getNamedResource type name))) :
    (∀ k, (s.resourcesOfTypeNameMap type).1.lookup k = s.found (·.nameMap) type k) ∧
      Fresh (s.resourcesOfTypeNameMap type).2 := by
  have hnew := ha.1.lookup_collect h.names
  unfold State.resourcesOfTypeNameMap
  by_cases htag : s.resourcesOfTypeMapCacheType = type
  · rw [if_neg (not_not.2 htag)]
    refine ⟨fun k => ?_, h⟩
    rw [ha.1.lookup h.names]
    obtain hname | habsent := ha.2 htag
    · rw [if_pos hname]
    · rw [found_eq_none habsent, ite_self]
  · rw [if_pos htag]
    exact ⟨hnew, h.types, h.list, h.ids, .inl hnew⟩

theorem Fresh.query {q : Query} (hc : Disciplined s (.query q)) :
    Correct s q (s.query q).1 ∧ Fresh (s.query q).2 := by
  cases q with
  | countTypes => exact ⟨by rw [Correct, State.query, h.allTypes.1], h.allTypes.2⟩
  | getIndType => exact ⟨by rw [Correct, State.query, h.allTypes.1], h.allTypes.2⟩
  | countResources =>
    obtain ⟨heq, hfresh⟩ := h.resourcesOfType hc
    exact ⟨by rw [Correct, State.query, heq], hfresh⟩
  | getIndResource =>
    obtain ⟨heq, hfresh⟩ := h.resourcesOfType hc
    refine ⟨⟨_, rfl, ?_⟩, hfresh⟩
    rw [heq]
    exact ⟨nth_isSome, fun p => mem_of_nth⟩
  | getResource =>
    obtain ⟨heq, hfresh⟩ := h.resourcesOfTypeMap hc
    refine ⟨⟨_, rfl, ?_⟩, hfresh⟩
    rw [heq]
    exact ⟨found_isSome, fun p => has_of_found⟩
  | getNamedResource =>
    obtain ⟨heq, hfresh⟩ := h.resourcesOfTypeNameMap hc
    refine ⟨⟨_, rfl, ?_⟩, hfresh⟩
    rw [heq]
    exact ⟨found_isSome, fun p => has_of_found⟩

end Queries

section Congr

variable {s s' : State} {type : ℕ}

theorem present_congr (h : s'.files.map (fun r => (r.resourceTypes.lookup type).map (·.resources)) =
    s.files.map fun r => (r.resourceTypes.lookup type).map (·.resources)) :
    s'.present type = s.present type := by
  have hfile : ∀ s : State, s.present type =
      (s.files.map fun r => (r.resourceTypes.lookup type).map (·.resources)).flatMap
        (·.getD []) := by
    intro s
    rw [State.present, flatMap_map]
    refine flatMap_congr fun r _ => ?_
    rw [File.ofType]
    cases r.resourceTypes.lookup type <;> rfl
  rw [hfile, hfile, h]

theorem found_congr {κ : Type} [DecidableEq κ] {sel : ResourceTypeData ℕ → UnorderedMap κ ℕ}
    (h : s'.files.map (fun r => (r.resourceTypes.lookup type).map sel) =
      s.files.map fun r => (r.resourceTypes.lookup type).map sel) (k : κ) :
    s'.found sel type k = s.found sel type k := by
  have hfile : ∀ s : State, s.found sel type k =
      (s.files.map fun r => (r.resourceTypes.lookup type).map sel).findSome?
        fun o => o.bind fun m => m.lookup k := by
    intro s
    rw [State.found, findSome?_map]
    congr 1
    funext r
    rw [Function.comp_apply, Option.bind_map]
    rfl
  rw [hfile, hfile, h]

theorem mem_types : type ∈ s.types ↔ ∃ r ∈ s.files, (r.resourceTypes.lookup type).isSome := by
  simp [State.types, AList.lookup_isSome, AList.mem_keys]

end Congr

/-- The entry of a type in a file changes from `old` to `new`; what a cache has of it does not. -/
def Kept {β : Type} (proj : ResourceTypeData ℕ → β) (tag : ℕ) (empty : Prop) (type : ℕ)
    (old : Option (ResourceTypeData ℕ)) (new : ResourceTypeData ℕ) : Prop :=
  Untagged tag empty type ∨ old.map proj = some (proj new)

section Edit

variable {s : State} {refNum type : ℕ} {r r' : File} {new : ResourceTypeData ℕ}
  {heap : UnorderedMap ℕ ResourceData}
  (hr : s.resources.lookup refNum = some r)
  (hr' : r'.resourceTypes = r.resourceTypes.insert type new)

include hr hr'

theorem map_files_replace {β : Type} {proj : ResourceTypeData ℕ → β} {t : ℕ}
    (h : t ≠ type ∨ (r.resourceTypes.lookup type).map proj = some (proj new)) :
    ({ s with resources := s.resources.replace refNum r', heap := heap } : State).files.map
        (fun r => (r.resourceTypes.lookup t).map proj) =
      s.files.map fun r => (r.resourceTypes.lookup t).map proj := by
  rw [State.files, State.files, List.map_map, List.map_map]
  refine UnorderedMap.map_entries_replace (fun r => (r.resourceTypes.lookup t).map proj) hr ?_
  rw [hr', UnorderedMap.lookup_insert_eq]
  split_ifs with heq
  · subst heq
    rw [h.resolve_left (not_not.2 rfl), Option.map_some]
  · rfl

theorem types_replace (ht : type ∈ s.types) :
    ({ s with resources := s.resources.replace refNum r', heap := heap } : State).types =
      s.types := by
  ext t
  by_cases heq : t = type
  · subst heq
    refine iff_of_true (mem_types.2 ⟨r', ?_, by rw [hr', AList.lookup_insert]; rfl⟩) ht
    have hmem : refNum ∈ s.resources := AList.lookup_isSome.1 (by rw [hr]; rfl)
    exact mem_map_of_mem (UnorderedMap.mem_entries_replace hmem)
  · have hmem : ∀ s : State, t ∈ s.types ↔
        some () ∈ s.files.map fun r => (r.resourceTypes.lookup t).map fun _ => () := by
      intro s
      simp [mem_types, Option.isSome_iff_exists]
    rw [hmem, hmem, map_files_replace hr hr' (.inl heq)]

theorem Kept.full {β : Type} {proj : ResourceTypeData ℕ → β} {tag : ℕ} {empty full full' : Prop}
    (h : Kept proj tag empty type (r.resourceTypes.lookup type) new)
    (hfull : full ∨ Cleared tag empty)
    (hcongr : ({ s with resources := s.resources.replace refNum r', heap := heap } :
        State).files.map (fun r => (r.resourceTypes.lookup tag).map proj) =
      s.files.map (fun r => (r.resourceTypes.lookup tag).map proj) → full → full') :
    full' ∨ Cleared tag empty := by
  obtain hf | hcleared := hfull
  · obtain (hne | hcleared) | hproj := h
    · exact .inl (hcongr (map_files_replace hr hr' (.inl hne)) hf)
    · exact .inr hcleared
    · exact .inl (hcongr (map_files_replace hr hr' (.inr hproj)) hf)
  · exact .inr hcleared

theorem Fresh.edit (h : Fresh s) (htypes : s.allTypesCache = ∅ ∨ type ∈ s.types)
    (hlist : Kept (·.resources) s.resourcesOfTypeCacheType (s.resourcesOfTypeCache = []) type
      (r.resourceTypes.lookup type) new)
    (hids : Kept (·.idMap) s.resourcesOfTypeMapCacheType (s.resourcesOfTypeMapCache = ∅) type
      (r.resourceTypes.lookup type) new)
    (hnames : Kept (·.nameMap) s.resourcesOfTypeNameMapCacheType
      (s.resourcesOfTypeNameMapCache = ∅) type (r.resourceTypes.lookup type) new) :
    Fresh { s with resources := s.resources.replace refNum r', heap := heap } where
  types := by
    obtain hempty | ht := htypes
    · exact .inl hempty
    · rw [types_replace hr hr' ht]
      exact h.types
  list := hlist.full hr hr' h.list fun hc hf => by rw [present_congr hc]; exact hf
  ids := hids.full hr hr' h.ids fun hc hf k => by rw [found_congr hc]; exact hf k
  names := hnames.full hr hr' h.names fun hc hf k => by rw [found_congr hc]; exact hf k

end Edit


section Step

variable {s : State}

theorem rekey_self {κ : Type} [DecidableEq κ] (k : κ) (p : ℕ) (m : UnorderedMap κ ℕ) :
    rekey k k p m = m := if_pos rfl

theorem mem_files {refNum : ℕ} {r : File} (hr : s.resources.lookup refNum = some r) : r ∈ s.files :=
  mem_map_of_mem (AList.mem_lookup_iff.1 hr)

theorem mem_types_of_lookup {refNum type : ℕ} {r : File} {rtd : ResourceTypeData ℕ}
    (hr : s.resources.lookup refNum = some r) (h : r.resourceTypes.lookup type = some rtd) :
    type ∈ s.types :=
  mem_types.2 ⟨r, mem_files hr, by rw [h]; rfl⟩

section

variable (h : Fresh s)

include h

theorem Fresh.closeResFile (refNum : ℕ) : Fresh (s.closeResFile refNum) := by
  have hcur : Fresh (if s.currentResFile = some refNum then { s with currentResFile := none }
      else s) := by
    split_ifs
    · exact ⟨h.types, h.list, h.ids, h.names⟩
    · exact h
  simp only [State.closeResFile]
  generalize (if s.currentResFile = some refNum then { s with currentResFile := none }
    else s) = s' at hcur ⊢
  rcases s'.resources.lookup refNum with _ | r
  · exact hcur
  · exact fresh_clearCaches _

theorem Fresh.getD {o : Option State} (ho : ∀ s', o = some s' → Fresh s') : Fresh (o.getD s) := by
  rcases o with _ | s'
  · exact h
  · exact ho s' rfl

theorem Fresh.addResource {data type resId : ℕ} {name : Bytes} {address garbage : ℕ}
    (hc : Disciplined s (.addResource data type resId name address garbage)) :
    Fresh (s.addResource data type resId name address garbage) := by
  obtain ⟨htypes, hlist, hids, hnames⟩ := hc
  refine h.getD fun s' hs' => ?_
  simp only [bind_eq_bind, bind_eq_some_iff] at hs'
  obtain ⟨refNum, _, r, hr, _, _, hs'⟩ := hs'
  cases hs'
  exact h.edit hr rfl htypes (.inl hlist) (.inl hids) (.inl hnames)

theorem Fresh.removeResource {res : ℕ} (hc : Disciplined s (.removeResource res)) :
    Fresh (s.removeResource res) := by
  refine h.getD fun s' hs' => ?_
  simp only [bind_eq_bind, bind_eq_some_iff] at hs'
  obtain ⟨refNum, _, r, hr, p, hp, record, hrecord, rtd, hrtd, hs'⟩ := hs'
  cases hs'
  obtain ⟨hlist, hids, hnames⟩ := hc record ⟨r, mem_files hr, p, hp, hrecord⟩
  simp only [File.remove, hrtd]
  exact h.edit hr rfl (.inr (mem_types_of_lookup hr hrtd)) (.inl hlist) (.inl hids) (.inl hnames)

theorem Fresh.setResInfo {res theID : ℕ} {name : Bytes}
    (hc : Disciplined s (.setResInfo res theID name)) : Fresh (s.setResInfo res theID name) := by
  refine h.getD fun s' hs' => ?_
  simp only [bind_eq_bind, bind_eq_some_iff] at hs'
  obtain ⟨⟨refNum, p⟩, hfind, r, hr, record, hrecord, hs'⟩ := hs'
  cases hs'
  obtain ⟨⟨n, r₀⟩, he, hfound⟩ := exists_of_findSome?_eq_some hfind
  obtain ⟨q, hp, hpair⟩ := map_eq_some_iff.1 hfound
  obtain ⟨rfl, rfl⟩ := Prod.mk.inj hpair
  obtain rfl : r₀ = r := Option.some_inj.1 ((AList.mem_lookup_iff.2 he).symm.trans hr)
  obtain ⟨hids, hnames⟩ := hc record ⟨r₀, mem_files hr, q, hp, hrecord⟩
  rcases hrtd : r₀.resourceTypes.lookup record.type with _ | rtd
  · have hsame : s.resources.replace n r₀ = s.resources :=
      AList.ext (kreplace_self s.resources.nodupKeys he)
    simp only [hsame]
    exact ⟨h.types, h.list, h.ids, h.names⟩
  · refine h.edit hr rfl (.inr (mem_types_of_lookup hr hrtd)) (.inr ?_) (hids.imp id ?_)
      (hnames.imp id ?_)
    · rw [hrtd]
      rfl
    · rintro rfl
      rw [hrtd, Option.map_some, rekey_self]
    · rintro rfl
      rw [hrtd, Option.map_some, rekey_self]

theorem Fresh.step {c : Call} (hc : Disciplined s c) : Fresh (s.step c) := by
  cases c with
  | fsOpenResourceFile refNum content order =>
    simp only [State.step, State.fsOpenResourceFile]
    split_ifs
    · exact h
    · exact fresh_clearCaches _
  | closeResFile refNum => exact h.closeResFile refNum
  | useResFile ref =>
    simp only [State.step, State.useResFile]
    split
    · exact ⟨h.types, h.list, h.ids, h.names⟩
    · split_ifs
      · exact ⟨h.types, h.list, h.ids, h.names⟩
      · exact h
  | addResource => exact h.addResource hc
  | removeResource => exact h.removeResource hc
  | setResInfo => exact h.setResInfo hc
  | query q => exact (h.query hc).2

end

end Step

theorem Fresh.right {s : State} {c : Call} (h : Fresh s) (hc : Disciplined s c) : Right s c := by
  cases c with
  | query q => exact (h.query hc).1
  | _ => trivial

def sampleContent : UnorderedMap ℕ (List Loaded) :=
  UnorderedMap.emplace 2 [⟨200, 600, ⟨7, 2, [], 0, []⟩⟩]
    (UnorderedMap.emplace 1 [⟨100, 500, ⟨7, 1, [], 0, []⟩⟩] ∅)

end Darling.ResourceManager
