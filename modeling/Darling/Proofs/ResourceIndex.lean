import Darling.KeyIndex
import Darling.ResourceIndex
import Darling.Runs

/-!
# The vectors and maps of a resource file

A map has one entry for each key, also where several resources carry it.  Erasing by key takes it
away from all of them, so the index stays right exactly as long as no resource that is removed or
changed shares its old id or name, its record has the type it was added under, and the entry that
`remove` reads once more is unchanged.
-/

namespace Darling.ResourceIndex

open Option
open UnorderedMap (emplace lookup_insert_eq)

open ResourceFork (ResourceData ResourceTypeData)
open ResourceManager (File rekey)

section Views

variable {κ : Type} [DecidableEq κ] (sel : ResourceTypeData ℕ → UnorderedMap κ ℕ)
  (key : ResourceData → κ) (s : State)

/-- The key that a record has now. -/
def State.keyOf (p : ℕ) : Option κ := (s.heap.lookup p).map key

/-- The vector of a type and one of its maps. -/
def State.view (type : ℕ) : Option (List ℕ × UnorderedMap κ ℕ) :=
  (s.file.resourceTypes.lookup type).map fun rtd => (rtd.resources, sel rtd)

/-- The maps lead from the keys to the records. -/
def State.Indexed : Prop := ∀ type l m, s.view sel type = some (l, m) → Indexes (s.keyOf key) m l

/-- Another key for the record `d` at `p` does not spoil the maps: it is the same; or the type is
the record's own, and no other resource has the old key; or the record has a wrong type, and nothing
depends on the entries that are made or missing. -/
def State.Rekeys (p : ℕ) (d : ResourceData) (new : κ) : Prop :=
  key d = new ∨
    (∃ l m, s.view sel d.type = some (l, m) ∧ p ∈ l ∧
      ∀ q ∈ l, q ≠ p → s.keyOf key q ≠ some (key d)) ∨
    (∃ type l m, type ≠ d.type ∧ s.view sel type = some (l, m) ∧ p ∈ l ∧
      m.lookup (key d) ≠ some p ∧ new ∈ m ∧
        ∀ l' m', s.view sel d.type = some (l', m') → new ∈ m' ∧ key d ∉ m')

end Views

/-- The records of a type. -/
def State.vector (s : State) (type : ℕ) : List ℕ :=
  ((s.file.resourceTypes.lookup type).map (·.resources)).getD []

/-- The handles, the vectors and the maps agree. -/
structure Consistent (s : State) : Prop where
  handles : ∀ p, (∃ h, s.file.handleMap.lookup h = some p) ↔ ∃ type, p ∈ s.vector type
  ids : s.Indexed (·.idMap) (·.id)
  names : s.Indexed (·.nameMap) (·.name)

open State (vector keyOf view)

/-- The call does not lose an entry. -/
def Lossless (s : State) : Call → Prop
  | .addResource .. => True
  | .removeResource res stale => ∀ p d rtd, s.file.handleMap.lookup res = some p →
      s.heap.lookup p = some d → s.file.resourceTypes.lookup d.type = some rtd →
        p ∈ rtd.resources ∧ stale = p ∧ ∀ q ∈ rtd.resources, q ≠ p →
          s.keyOf (·.id) q ≠ some d.id ∧ s.keyOf (·.name) q ≠ some d.name
  | .setResInfo res theID name => ∀ p d, s.file.handleMap.lookup res = some p →
      s.heap.lookup p = some d →
        s.Rekeys (·.idMap) (·.id) p d theID ∧ s.Rekeys (·.nameMap) (·.name) p d name

/-- What the calls keep besides. -/
structure Invariant (s : State) : Prop extends Consistent s where
  zero : 0 ∉ s.file.handleMap
  handle_inj : ∀ h h' p, s.file.handleMap.lookup h = some p → s.file.handleMap.lookup h' = some p →
    h = h'
  nodup : ∀ type, (s.vector type).Nodup
  disjoint : ∀ type type' p, p ∈ s.vector type → p ∈ s.vector type' → type = type'
  live : ∀ type p, p ∈ s.vector type → p ∈ s.heap

section Maps

variable {κ : Type} {sel : ResourceTypeData ℕ → UnorderedMap κ ℕ} {key : ResourceData → κ}
  {s s' : State} {p type : ℕ} {d d' : ResourceData} {l : List ℕ} {m : UnorderedMap κ ℕ}

theorem vector_of_view (h : s.view sel type = some (l, m)) : s.vector type = l := by
  obtain ⟨rtd, hrtd, he⟩ := map_eq_some_iff.1 h
  obtain ⟨rfl, -⟩ := Prod.mk.inj he
  rw [vector, hrtd]
  rfl

theorem view_of_mem (sel : ResourceTypeData ℕ → UnorderedMap κ ℕ) (h : p ∈ s.vector type) :
    ∃ l m, s.view sel type = some (l, m) ∧ p ∈ l := by
  unfold vector at h
  rcases hrtd : s.file.resourceTypes.lookup type with _ | rtd
  · rw [hrtd] at h
    exact absurd h List.not_mem_nil
  · rw [hrtd] at h
    exact ⟨rtd.resources, sel rtd, by rw [view, hrtd]; rfl, h⟩

theorem keyOf_insert_self (hheap : s'.heap = s.heap.insert p d) :
    s'.keyOf key p = some (key d) := by
  rw [keyOf, hheap, AList.lookup_insert, map_some]

theorem keyOf_insert_of_ne (hheap : s'.heap = s.heap.insert p d) {q : ℕ} (hq : q ≠ p) :
    s'.keyOf key q = s.keyOf key q := by
  rw [keyOf, hheap, AList.lookup_insert_ne hq, keyOf]

variable [DecidableEq κ]

theorem State.Indexed.add (h : s.Indexed sel key) (hheap : s'.heap = s.heap.insert p d)
    (hnew : ∀ type, p ∉ s.vector type) (hview : ∀ type', s'.view sel type' = if type' = type then
      some (((s.view sel type).getD ([], ∅)).1 ++ [p],
        emplace (key d) p ((s.view sel type).getD ([], ∅)).2)
      else s.view sel type') : s'.Indexed sel key := by
  have hcongr : ∀ type l m, s.view sel type = some (l, m) → Indexes (s'.keyOf key) m l := by
    intro type l m hv
    refine (h type l m hv).congr fun q hq => keyOf_insert_of_ne hheap ?_
    rintro rfl
    exact hnew type (vector_of_view hv ▸ hq)
  intro type' l m hv
  rw [hview] at hv
  split_ifs at hv
  · obtain ⟨rfl, rfl⟩ := Prod.mk.inj (some.inj hv)
    refine Indexes.push ?_ (keyOf_insert_self hheap)
    rcases hold : s.view sel type with _ | ⟨l, m⟩
    · exact ⟨nofun, nofun⟩
    · exact hcongr type l m hold
  · exact hcongr type' l m hv

theorem State.Indexed.remove_iff (h : s.Indexed sel key) (hheap : s'.heap = s.heap.erase p)
    (hd : s.heap.lookup p = some d) (hv : s.view sel d.type = some (l, m)) (hl : l.Nodup)
    (hp : p ∈ l) (hdisj : ∀ type, p ∈ s.vector type → type = d.type)
    (hview : ∀ type, s'.view sel type =
      if type = d.type then some (l.erase p, m.erase (key d)) else s.view sel type) :
    s'.Indexed sel key ↔ ∀ q ∈ l, q ≠ p → s.keyOf key q ≠ some (key d) := by
  have hkey : ∀ q, q ≠ p → s'.keyOf key q = s.keyOf key q := fun q hq => by
    rw [keyOf, hheap, AList.lookup_erase_ne hq, keyOf]
  have hpk : s.keyOf key p = some (key d) := by rw [keyOf, hd, map_some]
  rw [← (h d.type l m hv).erase_iff hl hpk hkey]
  constructor
  · intro h'
    exact h' d.type _ _ (by rw [hview, if_pos rfl])
  · intro hidx type l' m' hv'
    rw [hview] at hv'
    split_ifs at hv' with he
    · obtain ⟨rfl, rfl⟩ := Prod.mk.inj (some.inj hv')
      exact hidx
    · refine (h type l' m' hv').congr fun q hq => hkey q ?_
      rintro rfl
      exact he (hdisj type (vector_of_view hv' ▸ hq))

section Rekey

variable (h : s.Indexed sel key) (hd : s.heap.lookup p = some d)
  (hv : s.view sel type = some (l, m)) (hp : p ∈ l)
  (hdisj : ∀ type', p ∈ s.vector type' → type' = type)

include hv hp hdisj in
theorem rekeys_own_iff {new : κ} (hne : key d ≠ new) (htype : type = d.type) :
    s.Rekeys sel key p d new ↔ ∀ q ∈ l, q ≠ p → s.keyOf key q ≠ some (key d) := by
  constructor
  · rintro (he | ⟨l₀, m₀, hv₀, -, hq⟩ | ⟨type₀, l₀, m₀, hne₀, hv₀, hp₀, -⟩)
    · exact absurd he hne
    · rw [← htype, hv] at hv₀
      obtain ⟨rfl, rfl⟩ := Prod.mk.inj (some.inj hv₀)
      exact hq
    · exact absurd ((hdisj type₀ (vector_of_view hv₀ ▸ hp₀)).trans htype) hne₀
  · exact fun hq => .inr (.inl ⟨l, m, htype ▸ hv, hp, hq⟩)

include hv hp hdisj in
theorem rekeys_foreign_iff {new : κ} (hne : key d ≠ new) (htype : type ≠ d.type) :
    s.Rekeys sel key p d new ↔ (m.lookup (key d) ≠ some p ∧ new ∈ m) ∧
      ∀ l' m', s.view sel d.type = some (l', m') → new ∈ m' ∧ key d ∉ m' := by
  constructor
  · rintro (he | ⟨l₀, m₀, hv₀, hp₀, -⟩ | ⟨type₀, l₀, m₀, -, hv₀, hp₀, hlookup, hmem, hrest⟩)
    · exact absurd he hne
    · exact absurd (hdisj d.type (vector_of_view hv₀ ▸ hp₀)).symm htype
    · obtain rfl := hdisj type₀ (vector_of_view hv₀ ▸ hp₀)
      rw [hv] at hv₀
      obtain ⟨rfl, rfl⟩ := Prod.mk.inj (some.inj hv₀)
      exact ⟨⟨hlookup, hmem⟩, hrest⟩
  · rintro ⟨⟨hlookup, hmem⟩, hrest⟩
    exact .inr (.inr ⟨type, l, m, htype, hv, hp, hlookup, hmem, hrest⟩)

variable (hheap : s'.heap = s.heap.insert p d')

include h hheap in
theorem State.Indexed.of_other {type' : ℕ} {l' : List ℕ} {m' : UnorderedMap κ ℕ}
    (hv' : s.view sel type' = some (l', m')) (hp' : p ∉ l') : Indexes (s'.keyOf key) m' l' :=
  (h type' l' m' hv').congr fun _ hq => keyOf_insert_of_ne hheap fun he => hp' (he ▸ hq)

variable (hview : ∀ type', s'.view sel type' = (s.view sel type').map fun v =>
  (v.1, if type' = d.type then rekey (key d) (key d') p v.2 else v.2))

include hview in
theorem indexed_rekey_iff : s'.Indexed sel key ↔ ∀ type' l' m', s.view sel type' = some (l', m') →
    Indexes (s'.keyOf key) (if type' = d.type then rekey (key d) (key d') p m' else m') l' := by
  constructor
  · intro h' type' l' m' hv'
    exact h' type' l' _ (by rw [hview, hv', map_some])
  · intro h' type' l' m' hv'
    rw [hview] at hv'
    obtain ⟨⟨l₀, m₀⟩, hv₀, he⟩ := map_eq_some_iff.1 hv'
    obtain ⟨rfl, rfl⟩ := Prod.mk.inj he
    exact h' type' l₀ m₀ hv₀

include h hd hheap hview in
theorem State.Indexed.rekey_same (hsame : key d = key d') : s'.Indexed sel key := by
  rw [indexed_rekey_iff hview]
  intro type' l' m' hv'
  have hkeep : rekey (key d) (key d') p m' = m' := if_pos hsame
  rw [hkeep, ite_self]
  refine (h type' l' m' hv').congr fun q hq => ?_
  by_cases hqp : q = p
  · rw [hqp, keyOf_insert_self hheap, keyOf, hd, map_some, hsame]
  · exact keyOf_insert_of_ne hheap hqp

include h hd hv hp hdisj hheap hview in
theorem State.Indexed.rekey_iff : s'.Indexed sel key ↔ s.Rekeys sel key p d (key d') := by
  by_cases hne : key d = key d'
  · exact iff_of_true (h.rekey_same hd hheap hview hne) (.inl hne)
  have hself : s'.keyOf key p = some (key d') := keyOf_insert_self hheap
  have hkey : ∀ q, q ≠ p → s'.keyOf key q = s.keyOf key q := fun q => keyOf_insert_of_ne hheap
  have hpk : s.keyOf key p = some (key d) := by rw [keyOf, hd, map_some]
  have hrekey : ∀ m₀ : UnorderedMap κ ℕ, rekey (key d) (key d') p m₀ =
      emplace (key d') p (m₀.erase (key d)) := fun m₀ => if_neg hne
  have hother : ∀ type' l' m', type' ≠ type → s.view sel type' = some (l', m') → p ∉ l' :=
    fun type' l' m' hne hv' hp' => hne (hdisj type' (vector_of_view hv' ▸ hp'))
  rw [indexed_rekey_iff hview]
  by_cases htype : type = d.type
  · rw [rekeys_own_iff hv hp hdisj hne htype, ← (h type l m hv).rekey_iff hne hp hpk hself hkey,
      ← hrekey]
    constructor
    · intro h'
      simpa only [if_pos htype] using h' type l m hv
    · intro hidx type' l' m' hv'
      by_cases htype' : type' = type
      · rw [htype', hv] at hv'
        obtain ⟨rfl, rfl⟩ := Prod.mk.inj (some.inj hv')
        rw [if_pos (htype'.trans htype)]
        exact hidx
      · rw [if_neg fun he => htype' (he.trans htype.symm)]
        exact h.of_other hheap hv' (hother type' l' m' htype' hv')
  · have hforeign : ∀ l' m', s.view sel d.type = some (l', m') →
        (Indexes (s'.keyOf key) (rekey (key d) (key d') p m') l' ↔ key d' ∈ m' ∧ key d ∉ m') := by
      intro l' m' hv'
      have hp' := hother d.type l' m' (Ne.symm htype) hv'
      rw [hrekey]
      exact (h.of_other hheap hv' hp').foreign_iff hne hp'
    rw [rekeys_foreign_iff hv hp hdisj hne htype,
      ← (h type l m hv).unchanged_iff hne hp hpk hself hkey]
    constructor
    · intro h'
      refine ⟨?_, fun l' m' hv' => (hforeign l' m' hv').1 ?_⟩
      · simpa only [if_neg htype] using h' type l m hv
      · simpa only [if_pos] using h' d.type l' m' hv'
    · rintro ⟨hidx, hrest⟩ type' l' m' hv'
      split_ifs with htype'
      · subst htype'
        exact (hforeign _ _ hv').2 (hrest _ _ hv')
      · by_cases he : type' = type
        · rw [he, hv] at hv'
          obtain ⟨rfl, rfl⟩ := Prod.mk.inj (some.inj hv')
          exact hidx
        · exact h.of_other hheap hv' (hother type' l' m' he hv')

end Rekey

end Maps

variable {κ : Type} {sel : ResourceTypeData ℕ → UnorderedMap κ ℕ}

theorem indexed_of_empty [DecidableEq κ] {key : ResourceData → κ} {s : State}
    (h : ∀ type rtd, s.file.resourceTypes.lookup type = some rtd →
      rtd.resources = [] ∧ sel rtd = ∅) : s.Indexed sel key := by
  intro type l m hv
  obtain ⟨rtd, hrtd, he⟩ := map_eq_some_iff.1 hv
  obtain ⟨hl, hm⟩ := h type rtd hrtd
  obtain ⟨rfl, rfl⟩ := Prod.mk.inj he
  rw [hl, hm]
  exact ⟨nofun, nofun⟩

theorem invariant_empty (types : List ℕ) (heap : UnorderedMap ℕ ResourceData) :
    Invariant (.empty types heap) := by
  have hlookup : ∀ type rtd, (State.empty types heap).file.resourceTypes.lookup type = some rtd →
      rtd = ⟨type, [], ∅, ∅⟩ := by
    intro type rtd h
    have hfold := UnorderedMap.lookup_foldl_emplace (fun type => type)
      (fun type => (⟨type, [], ∅, ∅⟩ : ResourceTypeData ℕ)) type types ∅
    rw [AList.lookup_empty, none_or] at hfold
    obtain ⟨type', htype', rfl⟩ := map_eq_some_iff.1 (hfold.symm.trans h)
    obtain rfl : type = type' := by simpa using List.find?_some htype'
    rfl
  have hvector : ∀ type, (State.empty types heap).vector type = [] := by
    intro type
    unfold vector
    rcases h : (State.empty types heap).file.resourceTypes.lookup type with _ | rtd
    · rfl
    · rw [hlookup type rtd h]
      rfl
  have hnone : ∀ type p, p ∉ (State.empty types heap).vector type := fun type p hp => by
    rw [hvector] at hp
    cases hp
  refine ⟨⟨fun p => ?_, indexed_of_empty fun type rtd h => ?_,
    indexed_of_empty fun type rtd h => ?_⟩,
    AList.notMem_empty 0, nofun, fun type => ?_, fun type type' p hp => absurd hp (hnone type p),
    fun type p hp => absurd hp (hnone type p)⟩
  · exact iff_of_false (fun ⟨h, hh⟩ => nomatch hh) fun ⟨type, hp⟩ => hnone type p hp
  · rw [hlookup type rtd h]
    exact ⟨rfl, rfl⟩
  · rw [hlookup type rtd h]
    exact ⟨rfl, rfl⟩
  · rw [hvector]
    exact List.nodup_nil

section Steps

variable {s s' : State}

section Add

variable {type resId p : ℕ} {cname : Bytes}
  (htypes : s'.file.resourceTypes = s.file.resourceTypes.insert type
    (((s.file.resourceTypes.lookup type).getD ⟨type, [], ∅, ∅⟩).push p resId cname))

include htypes

theorem view_add [DecidableEq κ] {k : κ} (hpush : ∀ rtd : ResourceTypeData ℕ,
      sel (rtd.push p resId cname) = emplace k p (sel rtd))
    (hempty : sel ⟨type, [], ∅, ∅⟩ = ∅) (type' : ℕ) :
    s'.view sel type' = if type' = type then
      some (((s.view sel type).getD ([], ∅)).1 ++ [p],
        emplace k p ((s.view sel type).getD ([], ∅)).2)
      else s.view sel type' := by
  rw [view, htypes, lookup_insert_eq]
  split_ifs
  · rw [map_some, hpush, view]
    rcases s.file.resourceTypes.lookup type with _ | rtd
    · rw [getD_none, hempty]
      rfl
    · rfl
  · rfl

theorem vector_add (type' : ℕ) :
    s'.vector type' = if type' = type then s.vector type ++ [p] else s.vector type' := by
  rw [vector, htypes, lookup_insert_eq]
  split_ifs
  · rw [map_some, vector]
    rcases s.file.resourceTypes.lookup type with _ | rtd <;> rfl
  · rfl

theorem mem_vector_add {q type' : ℕ} :
    q ∈ s'.vector type' ↔ q ∈ s.vector type' ∨ type' = type ∧ q = p := by
  rw [vector_add htypes]
  split_ifs with he
  · rw [List.mem_append, List.mem_singleton, he]
    simp
  · simp [he]

end Add

theorem Invariant.addResource (h : Invariant s) (data type resId : ℕ) (name : Bytes)
    (place garbage : ℕ) : Invariant (s.addResource data type resId name place garbage) := by
  unfold State.addResource
  split_ifs with hdata
  · exact h
  obtain ⟨hzero, hfree⟩ := not_or.1 hdata
  have hnew : allocate place s.heap.keys ∉ s.heap := allocate_notMem _ _
  generalize allocate place s.heap.keys = p at hnew
  have hfresh : ∀ type, p ∉ s.vector type := fun type hp => hnew (h.live type p hp)
  generalize hs' : (⟨_, _⟩ : State) = s'
  have hheap : s'.heap = s.heap.insert p
      (ResourceData.move ⟨resId, type, name.takeWhile (· ≠ 0), 0, []⟩ garbage) := hs' ▸ rfl
  have htypes : s'.file.resourceTypes = s.file.resourceTypes.insert type
      (((s.file.resourceTypes.lookup type).getD ⟨type, [], ∅, ∅⟩).push p resId
        (name.takeWhile (· ≠ 0))) := hs' ▸ rfl
  have hhandles : s'.file.handleMap = s.file.handleMap.emplace data p := hs' ▸ rfl
  have hmem := @mem_vector_add s s' type resId p _ htypes
  have hlookup : ∀ hd q, s'.file.handleMap.lookup hd = some q ↔
      s.file.handleMap.lookup hd = some q ∨ hd = data ∧ q = p := by
    intro hd q
    rw [hhandles, UnorderedMap.lookup_emplace]
    by_cases he : hd = data
    · subst he
      rw [AList.lookup_eq_none.2 hfree]
      simp [eq_comm]
    · simp [he]
  have hold : ∀ hd, s.file.handleMap.lookup hd ≠ some p := by
    intro hd hp
    obtain ⟨type', hp'⟩ := (h.handles p).1 ⟨hd, hp⟩
    exact hfresh type' hp'
  refine ⟨⟨fun q => ?_, h.ids.add hheap hfresh (view_add htypes (fun _ => rfl) rfl),
    h.names.add hheap hfresh (view_add htypes (fun _ => rfl) rfl)⟩, ?_, fun hd hd' q hq hq' => ?_,
    fun type' => ?_, fun type' type'' q hq hq' => ?_, fun type' q hq => ?_⟩
  · simp only [hlookup, hmem, exists_or, exists_eq_left]
    exact or_congr_left (h.handles q)
  · rw [hhandles, UnorderedMap.mem_emplace, not_or]
    exact ⟨Ne.symm hzero, h.zero⟩
  · rcases (hlookup hd q).1 hq with hq | ⟨rfl, rfl⟩
    · rcases (hlookup hd' q).1 hq' with hq' | ⟨rfl, rfl⟩
      · exact h.handle_inj hd hd' q hq hq'
      · exact absurd hq (hold hd)
    · rcases (hlookup hd' q).1 hq' with hq' | ⟨rfl, -⟩
      · exact absurd hq' (hold hd')
      · rfl
  · rw [vector_add htypes]
    split_ifs
    · refine List.nodup_append'.2 ⟨h.nodup type, List.nodup_singleton p, fun q hq hq' => ?_⟩
      exact hfresh type (List.mem_singleton.1 hq' ▸ hq)
    · exact h.nodup type'
  · rcases hmem.1 hq with hq | ⟨rfl, rfl⟩
    · rcases hmem.1 hq' with hq' | ⟨rfl, rfl⟩
      · exact h.disjoint type' type'' q hq hq'
      · exact absurd hq (hfresh type')
    · rcases hmem.1 hq' with hq' | ⟨rfl, -⟩
      · exact absurd hq' (hfresh type'')
      · rfl
  · rw [hheap, AList.mem_insert]
    rcases hmem.1 hq with hq | ⟨-, rfl⟩
    · exact .inr (h.live type' q hq)
    · exact .inl rfl

theorem Invariant.of_handle (h : Invariant s) {res p : ℕ}
    (hp : s.file.handleMap.lookup res = some p) : ∃ d type, s.heap.lookup p = some d ∧
      p ∈ s.vector type ∧ ∀ type', p ∈ s.vector type' → type' = type := by
  obtain ⟨type, htype⟩ := (h.handles p).1 ⟨res, hp⟩
  obtain ⟨d, hd⟩ := isSome_iff_exists.1 (AList.lookup_isSome.2 (h.live type p htype))
  exact ⟨d, type, hd, htype, fun type' h' => h.disjoint type' type p h' htype⟩

theorem Invariant.eq_of_mem (h : Invariant s) {type type' p : ℕ} {rtd : ResourceTypeData ℕ}
    (hrtd : s.file.resourceTypes.lookup type' = some rtd) (hmem : p ∈ rtd.resources)
    (hv : p ∈ s.vector type) : type = type' := by
  refine h.disjoint type type' p hv ?_
  rw [vector, hrtd]
  exact hmem

section Remove

variable {res stale p : ℕ} {d : ResourceData} {rtd : ResourceTypeData ℕ}
  (hp : s.file.handleMap.lookup res = some p) (hd : s.heap.lookup p = some d)
  (hrtd : s.file.resourceTypes.lookup d.type = some rtd) (h : Invariant s)

include hp hd hrtd h

theorem Invariant.removeResource_eq : s.removeResource res stale =
    { heap := if stale ∈ rtd.resources then s.heap.erase stale else s.heap
      file :=
        { resourceTypes := s.file.resourceTypes.insert d.type
            { rtd with
              idMap := rtd.idMap.erase d.id
              nameMap := rtd.nameMap.erase d.name
              resources := rtd.resources.erase stale }
          handleMap := s.file.handleMap.erase res } } := by
  have hres : res ≠ 0 := by
    rintro rfl
    exact h.zero (AList.lookup_isSome.1 (isSome_iff_exists.2 ⟨p, hp⟩))
  rw [State.removeResource, if_neg hres, hp, bind_eq_bind, bind_some, hd,
    bind_eq_bind, bind_some, hrtd]
  rfl

theorem vector_remove (type : ℕ) : (s.removeResource res stale).vector type =
    if type = d.type then rtd.resources.erase stale else s.vector type := by
  rw [h.removeResource_eq hp hd hrtd, vector]
  rw [lookup_insert_eq]
  split_ifs <;> rfl

theorem Invariant.own_of_consistent (hc : Consistent (s.removeResource res stale)) :
    p ∈ rtd.resources ∧ stale = p := by
  obtain ⟨d', type, hd', htype, -⟩ := h.of_handle hp
  have hgone : ∀ hd', (s.removeResource res stale).file.handleMap.lookup hd' ≠ some p := by
    intro hd' hlookup
    rw [h.removeResource_eq hp hd hrtd] at hlookup
    have hne : hd' ≠ res := by
      rintro rfl
      rw [AList.lookup_erase] at hlookup
      cases hlookup
    rw [AList.lookup_erase_ne hne] at hlookup
    exact hne (h.handle_inj hd' res p hlookup hp)
  have hout : p ∉ (s.removeResource res stale).vector type := fun hmem => by
    obtain ⟨hd', hlookup⟩ := (hc.handles p).2 ⟨type, hmem⟩
    exact hgone hd' hlookup
  rw [vector_remove hp hd hrtd h] at hout
  split_ifs at hout with he
  · have hmem : p ∈ rtd.resources := by
      rw [he, vector, hrtd] at htype
      exact htype
    refine ⟨hmem, by_contra fun hne => hout ((List.mem_erase_of_ne (Ne.symm hne)).2 hmem)⟩
  · exact absurd htype hout

variable (hmem : p ∈ rtd.resources)

include hmem

theorem Invariant.indexed_remove_iff [DecidableEq κ] {key : ResourceData → κ}
    (hs : s.Indexed sel key)
    (hsel : ∀ l ids names, sel ⟨rtd.type, l, ids, names⟩ = sel ⟨rtd.type, [], ids, names⟩)
    (herase : sel ⟨rtd.type, [], rtd.idMap.erase d.id, rtd.nameMap.erase d.name⟩ =
      (sel rtd).erase (key d)) :
    (s.removeResource res p).Indexed sel key ↔
      ∀ q ∈ rtd.resources, q ≠ p → s.keyOf key q ≠ some (key d) := by
  have hnodup : rtd.resources.Nodup := by
    have := h.nodup d.type
    rwa [vector, hrtd] at this
  have heq := @Invariant.removeResource_eq s res p p d rtd hp hd hrtd h
  refine hs.remove_iff (m := sel rtd) ?_ hd ?_ hnodup hmem
    (fun type => h.eq_of_mem hrtd hmem) fun type => ?_
  · rw [heq]
    exact if_pos hmem
  · rw [view, hrtd, map_some]
  · rw [heq, view]
    rw [lookup_insert_eq]
    split_ifs
    · rw [map_some, hsel, herase]
    · rfl

theorem Invariant.removeResource
    (hids : (s.removeResource res p).Indexed (·.idMap) (·.id))
    (hnames : (s.removeResource res p).Indexed (·.nameMap) (·.name)) :
    Invariant (s.removeResource res p) := by
  have heq := @Invariant.removeResource_eq s res p p d rtd hp hd hrtd h
  have hnodup : rtd.resources.Nodup := by
    have := h.nodup d.type
    rwa [vector, hrtd] at this
  have hvector : ∀ {q type}, q ∈ (s.removeResource res p).vector type ↔
      q ∈ s.vector type ∧ q ≠ p := by
    intro q type
    rw [vector_remove hp hd hrtd h]
    split_ifs with he
    · have hv : s.vector type = rtd.resources := by rw [he, vector, hrtd]; rfl
      rw [hnodup.mem_erase_iff, hv, and_comm]
    · refine ⟨fun hq => ⟨hq, ?_⟩, And.left⟩
      rintro rfl
      exact he (h.eq_of_mem hrtd hmem hq)
  have hhandle : ∀ {hd' q}, (s.removeResource res p).file.handleMap.lookup hd' = some q ↔
      s.file.handleMap.lookup hd' = some q ∧ q ≠ p := by
    intro hd' q
    rw [heq]
    by_cases he : hd' = res
    · subst he
      rw [AList.lookup_erase, hp]
      simp [eq_comm]
    · rw [AList.lookup_erase_ne he]
      refine ⟨fun hq => ⟨hq, ?_⟩, And.left⟩
      rintro rfl
      exact he (h.handle_inj hd' res q hq hp)
  refine ⟨⟨fun q => ?_, hids, hnames⟩, ?_, fun hd' hd'' q hq hq' => ?_, fun type => ?_,
    fun type type' q hq hq' => ?_, fun type q hq => ?_⟩
  · simp [hhandle, hvector, h.handles]
  · rw [heq]
    exact fun hz => h.zero (AList.mem_erase.1 hz).2
  · exact h.handle_inj hd' hd'' q (hhandle.1 hq).1 (hhandle.1 hq').1
  · rw [vector_remove hp hd hrtd h]
    split_ifs
    · exact hnodup.erase p
    · exact h.nodup type
  · exact h.disjoint type type' q (hvector.1 hq).1 (hvector.1 hq').1
  · have hheap : (s.removeResource res p).heap = s.heap.erase p := by
      rw [heq]
      exact if_pos hmem
    rw [hheap]
    exact AList.mem_erase.2 ⟨(hvector.1 hq).2, h.live type q (hvector.1 hq).1⟩

end Remove

theorem removeResource_of_none {res stale : ℕ} (h : ∀ p d, s.file.handleMap.lookup res = some p →
    s.heap.lookup p = some d → s.file.resourceTypes.lookup d.type = none) :
    s.removeResource res stale = s := by
  unfold State.removeResource
  split_ifs
  · rfl
  rcases hp : s.file.handleMap.lookup res with _ | p
  · rfl
  rw [bind_eq_bind, bind_some]
  rcases hd : s.heap.lookup p with _ | d
  · rfl
  rw [bind_eq_bind, bind_some, h p d hp hd]
  rfl

theorem Invariant.lossless_removeResource (h : Invariant s) (res stale : ℕ) :
    (Consistent (s.removeResource res stale) ↔ Lossless s (.removeResource res stale)) ∧
      (Lossless s (.removeResource res stale) → Invariant (s.removeResource res stale)) := by
  by_cases hfound : ∃ p d rtd, s.file.handleMap.lookup res = some p ∧ s.heap.lookup p = some d ∧
      s.file.resourceTypes.lookup d.type = some rtd
  · obtain ⟨p, d, rtd, hp, hd, hrtd⟩ := hfound
    have hids := fun hmem => h.indexed_remove_iff hp hd hrtd hmem h.ids (fun _ _ _ => rfl) rfl
    have hnames := fun hmem => h.indexed_remove_iff hp hd hrtd hmem h.names (fun _ _ _ => rfl) rfl
    have hcond : Lossless s (.removeResource res stale) ↔ p ∈ rtd.resources ∧ stale = p ∧
        ∀ q ∈ rtd.resources, q ≠ p →
          s.keyOf (·.id) q ≠ some d.id ∧ s.keyOf (·.name) q ≠ some d.name := by
      refine ⟨fun hl => hl p d rtd hp hd hrtd, fun hl p' d' rtd' hp' hd' hrtd' => ?_⟩
      obtain rfl := some.inj (hp.symm.trans hp')
      obtain rfl := some.inj (hd.symm.trans hd')
      obtain rfl := some.inj (hrtd.symm.trans hrtd')
      exact hl
    have hgood : Lossless s (.removeResource res stale) →
      Invariant (s.removeResource res stale) := by
      intro hl
      obtain ⟨hmem, rfl, hq⟩ := hcond.1 hl
      exact h.removeResource hp hd hrtd hmem ((hids hmem).2 fun q hql hne => (hq q hql hne).1)
        ((hnames hmem).2 fun q hql hne => (hq q hql hne).2)
    refine ⟨⟨fun hc => hcond.2 ?_, fun hl => (hgood hl).toConsistent⟩, hgood⟩
    obtain ⟨hmem, rfl⟩ := h.own_of_consistent hp hd hrtd hc
    exact ⟨hmem, rfl, fun q hql hne =>
      ⟨(hids hmem).1 hc.ids q hql hne, (hnames hmem).1 hc.names q hql hne⟩⟩
  · have hsame : s.removeResource res stale = s := removeResource_of_none fun p d hp hd =>
      eq_none_iff_forall_ne_some.2 fun rtd hrtd => hfound ⟨p, d, rtd, hp, hd, hrtd⟩
    have hl : Lossless s (.removeResource res stale) := fun p d rtd hp hd hrtd =>
      absurd ⟨p, d, rtd, hp, hd, hrtd⟩ hfound
    rw [hsame]
    exact ⟨iff_of_true h.toConsistent hl, fun _ => h⟩

section Set

variable {res p theID : ℕ} {name : Bytes} {d : ResourceData}
  (hp : s.file.handleMap.lookup res = some p) (hd : s.heap.lookup p = some d)

include hp hd

theorem setResInfo_eq : s.setResInfo res theID name =
    { heap := s.heap.insert p { d with id := theID, name := name }
      file := { s.file with resourceTypes := s.file.resourceTypes.modify d.type fun rtd =>
        { rtd with
          idMap := rekey d.id theID p rtd.idMap
          nameMap := rekey d.name name p rtd.nameMap } } } := by
  rw [State.setResInfo, hp, bind_eq_bind, bind_some, hd]
  rfl

theorem view_setResInfo [DecidableEq κ]
    {old new : κ} (hsel : ∀ rtd : ResourceTypeData ℕ, sel { rtd with
        idMap := rekey d.id theID p rtd.idMap
        nameMap := rekey d.name name p rtd.nameMap } = rekey old new p (sel rtd)) (type : ℕ) :
    (s.setResInfo res theID name).view sel type = (s.view sel type).map fun v =>
      (v.1, if type = d.type then rekey old new p v.2 else v.2) := by
  rw [setResInfo_eq hp hd, view, view]
  rw [UnorderedMap.lookup_modify, map_map, map_map]
  congr 1
  funext rtd
  dsimp only [Function.comp_apply]
  split_ifs
  · rw [hsel]
  · rfl

theorem vector_setResInfo (type : ℕ) :
    (s.setResInfo res theID name).vector type = s.vector type := by
  rw [setResInfo_eq hp hd, vector, vector]
  rw [UnorderedMap.lookup_modify, map_map]
  congr 2
  funext rtd
  split_ifs <;> rfl

theorem Invariant.setResInfo (h : Invariant s)
    (hids : (s.setResInfo res theID name).Indexed (·.idMap) (·.id))
    (hnames : (s.setResInfo res theID name).Indexed (·.nameMap) (·.name)) :
    Invariant (s.setResInfo res theID name) := by
  have hvector := @vector_setResInfo s res p theID name d hp hd
  have hhandles : (s.setResInfo res theID name).file.handleMap = s.file.handleMap := by
    rw [setResInfo_eq hp hd]
  refine ⟨⟨fun q => ?_, hids, hnames⟩, ?_, ?_, fun type => ?_, fun type type' q => ?_,
    fun type q hq => ?_⟩
  · simp [hhandles, hvector, h.handles]
  · rw [hhandles]
    exact h.zero
  · rw [hhandles]
    exact h.handle_inj
  · rw [hvector]
    exact h.nodup type
  · rw [hvector, hvector]
    exact h.disjoint type type' q
  · rw [hvector] at hq
    rw [setResInfo_eq hp hd]
    exact (AList.mem_insert _).2 (.inr (h.live type q hq))

end Set

theorem Invariant.lossless_setResInfo (h : Invariant s) (res theID : ℕ) (name : Bytes) :
    (Consistent (s.setResInfo res theID name) ↔ Lossless s (.setResInfo res theID name)) ∧
      (Lossless s (.setResInfo res theID name) → Invariant (s.setResInfo res theID name)) := by
  rcases hp : s.file.handleMap.lookup res with _ | p
  · have hsame : s.setResInfo res theID name = s := by
      rw [State.setResInfo, hp]
      rfl
    rw [hsame]
    refine ⟨iff_of_true h.toConsistent fun p d hp' => ?_, fun _ => h⟩
    rw [hp] at hp'
    cases hp'
  obtain ⟨d, type, hd, htype, honly⟩ := h.of_handle hp
  have hheap : (s.setResInfo res theID name).heap =
      s.heap.insert p { d with id := theID, name := name } :=
    congrArg State.heap (setResInfo_eq hp hd)
  obtain ⟨l, m, hv, hl⟩ := view_of_mem (·.idMap) htype
  obtain ⟨l', m', hv', hl'⟩ := view_of_mem (·.nameMap) htype
  have hids := h.ids.rekey_iff hd hv hl honly hheap (view_setResInfo hp hd fun _ => rfl)
  have hnames := h.names.rekey_iff hd hv' hl' honly hheap (view_setResInfo hp hd fun _ => rfl)
  have hcond : Lossless s (.setResInfo res theID name) ↔
      s.Rekeys (·.idMap) (·.id) p d theID ∧ s.Rekeys (·.nameMap) (·.name) p d name := by
    refine ⟨fun hl => hl p d hp hd, fun hl p' d' hp' hd' => ?_⟩
    obtain rfl := some.inj (hp.symm.trans hp')
    obtain rfl := some.inj (hd.symm.trans hd')
    exact hl
  rw [hcond, ← hids, ← hnames]
  have hgood := fun hc : _ ∧ _ => @Invariant.setResInfo s res p theID name d hp hd h hc.1 hc.2
  exact ⟨⟨fun hc => ⟨hc.ids, hc.names⟩, fun hc => (hgood hc).toConsistent⟩, hgood⟩

theorem Invariant.lossless (h : Invariant s) (a : Call) :
    (Consistent (s.step a) ↔ Lossless s a) ∧ (Lossless s a → Invariant (s.step a)) := by
  cases a with
  | addResource data type resId name place garbage =>
    have hadd := h.addResource data type resId name place garbage
    exact ⟨iff_of_true hadd.toConsistent trivial, fun _ => hadd⟩
  | removeResource res stale => exact h.lossless_removeResource res stale
  | setResInfo res theID name => exact h.lossless_setResInfo res theID name

end Steps

/-- The index is consistent after every call of a run exactly if no call loses an entry. -/
theorem run_consistent_iff_lossless (types : List ℕ) (heap : UnorderedMap ℕ ResourceData)
    (calls : List Call) :
    EachStep State.step (fun s a => Consistent (s.step a)) (.empty types heap) calls ↔
      EachStep State.step Lossless (.empty types heap) calls :=
  eachStep_iff (fun _ a h => (h.lossless a).2) (fun _ a h => (h.lossless a).1)
    (invariant_empty types heap)

/-- Two resources of type 1 with the id 7; the first one is removed. -/
theorem run_same_id : ¬ EachStep State.step (fun s a => Consistent (s.step a)) (.empty [] ∅)
    [.addResource 10 1 7 [97] 100 1, .addResource 20 1 7 [98] 200 1, .removeResource 10 100] := by
  rintro ⟨-, -, hc, -⟩
  obtain ⟨b, -, hb, -⟩ := (hc.ids 1 [200] ∅ rfl).carried 200 (List.mem_singleton_self _) 7 rfl
  cases hb

end Darling.ResourceIndex
