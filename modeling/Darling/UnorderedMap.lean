import Mathlib.Data.List.AList

/-!
# Hash maps

`std::unordered_map` as a list of entries with distinct keys, in the order in which it is iterated.
-/

namespace Darling

open List

variable {κ ν ι : Type*} [DecidableEq κ]

abbrev UnorderedMap (κ ν : Type*) := AList (fun _ : κ => ν)

namespace UnorderedMap

/-- `insert`: an entry that is there is kept. -/
def emplace (k : κ) (v : ν) (m : UnorderedMap κ ν) : UnorderedMap κ ν :=
  if k ∈ m then m else m.insert k v

/-- `insert(first, last)`. -/
def emplaceAll (m m' : UnorderedMap κ ν) : UnorderedMap κ ν := m ∪ m'

theorem lookup_emplace (k k' : κ) (v : ν) (m : UnorderedMap κ ν) :
    (emplace k v m).lookup k' = (m.lookup k').or (if k' = k then some v else none) := by
  unfold emplace
  split_ifs with hk he he
  · subst he
    obtain ⟨w, hw⟩ := Option.isSome_iff_exists.1 (AList.lookup_isSome.2 hk)
    rw [hw, Option.or_some]
    rfl
  · rw [Option.or_none]
  · subst he
    rw [AList.lookup_insert, AList.lookup_eq_none.2 hk, Option.none_or]
  · rw [AList.lookup_insert_ne he, Option.or_none]

variable {k : κ} {m : UnorderedMap κ ν}

theorem lookup_emplace_self (h : k ∉ m) (v : ν) : (emplace k v m).lookup k = some v := by
  rw [lookup_emplace, AList.lookup_eq_none.2 h, Option.none_or, if_pos rfl]

theorem lookup_insert_eq (m : UnorderedMap κ ν) (k k' : κ) (v : ν) :
    (m.insert k v).lookup k' = if k' = k then some v else m.lookup k' := by
  split_ifs with h
  · rw [h, AList.lookup_insert]
  · rw [AList.lookup_insert_ne h]

theorem mem_emplace {k' : κ} {v : ν} : k' ∈ emplace k v m ↔ k' = k ∨ k' ∈ m := by
  rw [← AList.lookup_isSome, lookup_emplace, Option.isSome_or, Bool.or_eq_true, AList.lookup_isSome,
    or_comm]
  split_ifs with he <;> simp [he]

theorem erase_emplace {v : ν} (h : k ∉ m) : (emplace k v m).erase k = m := by
  rw [emplace, if_neg h]
  refine AList.ext ?_
  change (m.insert k v).entries.kerase k = m.entries
  rw [AList.entries_insert_of_notMem h]
  exact kerase_cons_eq rfl

theorem lookup_emplaceAll (m m' : UnorderedMap κ ν) (k : κ) :
    (emplaceAll m m').lookup k = (m.lookup k).or (m'.lookup k) := by
  unfold emplaceAll
  by_cases hk : k ∈ m
  · obtain ⟨w, hw⟩ := Option.isSome_iff_exists.1 (AList.lookup_isSome.2 hk)
    rw [AList.lookup_union_left hk, hw, Option.some_or]
  · rw [AList.lookup_union_right hk, AList.lookup_eq_none.2 hk, Option.none_or]

theorem lookup_foldl_emplace (key : ι → κ) (val : ι → ν) (k : κ) :
    ∀ (l : List ι) (m : UnorderedMap κ ν),
      (l.foldl (fun m i => emplace (key i) (val i) m) m).lookup k =
        (m.lookup k).or ((l.find? (fun i => decide (k = key i))).map val)
  | [], m => by simp
  | i :: l, m => by
    rw [foldl_cons, lookup_foldl_emplace key val k l, lookup_emplace, Option.or_assoc]
    by_cases hk : k = key i
    · simp [hk]
    · simp [hk, find?_cons_of_neg]

theorem mem_foldl_emplace (key : ι → κ) (val : ι → ν) (k : κ) (l : List ι) :
    k ∈ l.foldl (fun m i => emplace (key i) (val i) m) ∅ ↔ ∃ i ∈ l, k = key i := by
  rw [← AList.lookup_isSome, lookup_foldl_emplace, AList.lookup_empty, Option.none_or,
    Option.isSome_map, find?_isSome]
  simp

theorem lookup_foldl_emplace_of_inj (key : ι → κ) (val : ι → ν) {l : List ι} {i : ι} (hi : i ∈ l)
    (hinj : ∀ j ∈ l, key i = key j → j = i) :
    (l.foldl (fun m i => emplace (key i) (val i) m) ∅).lookup (key i) = some (val i) := by
  rw [lookup_foldl_emplace, AList.lookup_empty, Option.none_or]
  rcases hfind : l.find? (fun j => decide (key i = key j)) with _ | j
  · have := find?_eq_none.1 hfind i hi
    simp at this
  · have hj : key i = key j := by simpa using find?_some hfind
    rw [Option.map_some, hinj j (mem_of_find?_eq_some hfind) hj]

def modify (k : κ) (f : ν → ν) (m : UnorderedMap κ ν) : UnorderedMap κ ν where
  entries := m.entries.map (Sigma.map id fun a (v : ν) => if a = k then f v else v)
  nodupKeys := by
    rw [List.NodupKeys, keys, map_map]
    exact m.nodupKeys

theorem lookup_modify (k k' : κ) (f : ν → ν) (m : UnorderedMap κ ν) :
    (modify k f m).lookup k' = (m.lookup k').map fun v => if k' = k then f v else v :=
  dlookup_map₂ k'

theorem mem_modify {k' : κ} {f : ν → ν} : k' ∈ modify k f m ↔ k' ∈ m := by
  rw [← AList.lookup_isSome, ← AList.lookup_isSome, lookup_modify, Option.isSome_map]

theorem replace_eq_modify (k : κ) (v : ν) (m : UnorderedMap κ ν) :
    m.replace k v = modify k (fun _ => v) m := by
  refine AList.ext ?_
  change kreplace k v m.entries = m.entries.map (Sigma.map id fun a w => if a = k then v else w)
  have hnodup := m.nodupKeys
  generalize m.entries = l at hnodup ⊢
  induction l with
  | nil => rfl
  | cons e l ih =>
    obtain ⟨hhead, htail⟩ := nodupKeys_cons.1 hnodup
    obtain ⟨a, w⟩ := e
    by_cases hk : k = a
    · subst hk
      have hrest : l.map (Sigma.map id fun a w => if a = k then v else w) = l := by
        refine (map_congr_left fun e he => ?_).trans (map_id l)
        have hmem := mem_keys_of_mem he
        have hne : e.1 ≠ k := by
          rintro rfl
          exact hhead hmem
        simp only [Sigma.map, id_eq, if_neg hne]
      rw [kreplace, lookmap_cons_some _ _ (dif_pos rfl), map_cons, hrest]
      simp [Sigma.map]
    · have hne : a ≠ k := Ne.symm hk
      rw [kreplace, lookmap_cons_none _ _ (dif_neg hk), map_cons]
      refine congrArg₂ _ ?_ (ih htail)
      simp only [Sigma.map, id_eq, if_neg hne]

theorem map_entries_replace {β : Type*} (f : ν → β) {v v' : ν} (h : m.lookup k = some v)
    (hf : f v' = f v) :
    (m.replace k v').entries.map (fun e => f e.2) = m.entries.map fun e => f e.2 := by
  rw [replace_eq_modify, modify, map_map]
  refine map_congr_left fun e he => ?_
  simp only [Function.comp_apply, Sigma.map]
  split_ifs with hk
  · obtain ⟨a, w⟩ := e
    obtain rfl : a = k := hk
    rw [hf, Option.some_inj.1 (h.symm.trans (AList.mem_lookup_iff.2 he))]
  · rfl

theorem mem_entries_replace {v : ν} (h : k ∈ m) : ⟨k, v⟩ ∈ (m.replace k v).entries := by
  obtain ⟨w, hw⟩ := Option.isSome_iff_exists.1 (AList.lookup_isSome.2 h)
  rw [← AList.mem_lookup_iff, replace_eq_modify, lookup_modify, hw, Option.map_some, if_pos rfl]
  exact rfl

def tally (p : ν → Prop) [DecidablePred p] (m : UnorderedMap κ ν) : ℕ :=
  m.entries.countP fun e => p e.2

section Tally

variable {p : ν → Prop} [DecidablePred p] {m : UnorderedMap κ ν} {k : κ} {v : ν}

theorem tally_insert (h : k ∉ m) : tally p (m.insert k v) = tally p m + if p v then 1 else 0 := by
  rw [tally, AList.entries_insert_of_notMem h, countP_cons]
  simp only [decide_eq_true_eq]
  rfl

theorem tally_emplace (h : k ∉ m) : tally p (emplace k v m) = tally p m + if p v then 1 else 0 := by
  rw [emplace, if_neg h, tally_insert h]

theorem tally_erase (h : m.lookup k = some v) :
    tally p m = tally p (m.erase k) + if p v then 1 else 0 := by
  have hmem : k ∈ m.entries.keys := AList.lookup_isSome.1 (Option.isSome_iff_exists.2 ⟨v, h⟩)
  obtain ⟨v', l₁, l₂, hk, hm, he⟩ := exists_of_kerase hmem
  have hv : v' = v := by
    have := mem_dlookup m.nodupKeys (hm ▸ mem_append_right l₁ mem_cons_self)
    exact Option.some.inj (this.symm.trans h)
  change m.entries.countP _ = (m.entries.kerase k).countP _ + _
  rw [he, hm, countP_append, countP_append, countP_cons, hv]
  simp only [decide_eq_true_eq]
  omega

theorem tally_pos : 0 < tally p m ↔ ∃ k v, m.lookup k = some v ∧ p v := by
  rw [tally, countP_pos_iff]
  constructor
  · rintro ⟨⟨k, v⟩, he, hp⟩
    exact ⟨k, v, mem_dlookup m.nodupKeys he, of_decide_eq_true hp⟩
  · rintro ⟨k, v, hk, hp⟩
    exact ⟨⟨k, v⟩, of_mem_dlookup hk, decide_eq_true hp⟩

end Tally

end UnorderedMap

end Darling
