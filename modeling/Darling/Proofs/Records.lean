import Darling.Records
import Mathlib.Algebra.BigOperators.Intervals

/-!
# What the table operations do to the rows of a parent

Inserting, deleting and updating are followed through `kids`, `entries` and `attached`.  Two ways of
bringing the rows of one parent up to date are compared with the rows that are wanted: replacing all
of them (`contents_refill_iff`, `orphan_refill_iff`), and updating them by key
(`entries_foldl_upsert`).
-/

namespace Darling.Records

open List

variable {α β ι κ : Type*}

namespace RowTable

variable (p q : ℕ) (a : α) (l : List α) (t : RowTable α)

@[simp]
theorem rows_insert : (t.insert p a).rows = t.rows ++ [⟨t.next, p, a⟩] := rfl

@[simp]
theorem rows_deleteWhere (q : Row α → Bool) (t : RowTable α) :
    (t.deleteWhere q).rows = t.rows.filter fun r => !q r := rfl

theorem rowsOf_insert :
    (t.insert p a).rowsOf q = t.rowsOf q ++ if q = p then [⟨t.next, p, a⟩] else [] := by
  rw [rowsOf, rows_insert, filter_append, rowsOf]
  split_ifs with h
  · simp [h]
  · simp [Ne.symm h]

theorem kids_insert : (t.insert p a).kids q = t.kids q ++ if q = p then [a] else [] := by
  rw [kids, rowsOf_insert, map_append, kids]
  split_ifs <;> rfl

theorem kids_insertAll : (t.insertAll p l).kids q = t.kids q ++ if q = p then l else [] := by
  induction l generalizing t with
  | nil => simp [insertAll]
  | cons a l ih =>
    rw [insertAll, foldl_cons, ← insertAll, ih, kids_insert, append_assoc]
    split_ifs <;> rfl

theorem kids_deleteWhere_parent :
    (t.deleteWhere (·.parent = p)).kids q = if q = p then [] else t.kids q := by
  rw [kids, rowsOf, rows_deleteWhere, filter_filter]
  split_ifs with h
  · rw [filter_eq_nil_iff.2, map_nil]
    simp [h]
  · rw [kids, rowsOf]
    congr 1
    refine filter_congr fun r _ => ?_
    by_cases hr : r.parent = q <;> simp [hr, h]

theorem rows_insertAll :
    ∃ new : List (Row α), (t.insertAll p l).rows = t.rows ++ new ∧ ∀ r ∈ new, r.parent = p := by
  induction l generalizing t with
  | nil => exact ⟨[], (append_nil _).symm, by simp⟩
  | cons a l ih =>
    obtain ⟨new, hnew, hp⟩ := ih (t.insert p a)
    refine ⟨⟨t.next, p, a⟩ :: new, ?_, ?_⟩
    · rw [insertAll, foldl_cons, ← insertAll, hnew, rows_insert, append_assoc, singleton_append]
    · simpa using hp

theorem ids_insert : (t.insert p a).ids = t.ids ++ [t.next] := map_append

variable {p t} {r : Row α}

theorem filter_insertAll {f : ℕ → Bool} (hf : f p = false) (l : List α) (t : RowTable α) :
    (t.insertAll p l).rows.filter (fun r => f r.parent) = t.rows.filter fun r => f r.parent := by
  obtain ⟨new, hnew, hp⟩ := rows_insertAll p l t
  have : new.filter (fun r => f r.parent) = [] :=
    filter_eq_nil_iff.2 fun r hr => by simp [hp r hr, hf]
  rw [hnew, filter_append, this, append_nil]

theorem filter_deleteWhere_parent {f : ℕ → Bool} (hf : f p = false) (t : RowTable α) :
    (t.deleteWhere (·.parent = p)).rows.filter (fun r => f r.parent) =
      t.rows.filter fun r => f r.parent := by
  rw [rows_deleteWhere, filter_filter]
  refine filter_congr fun r _ => ?_
  by_cases hr : r.parent = p <;> simp [hr, hf]

theorem mem_rowsOf : r ∈ t.rowsOf p ↔ r ∈ t.rows ∧ r.parent = p := by
  simp [rowsOf]

theorem mem_ids {n : ℕ} : n ∈ t.ids ↔ ∃ r ∈ t.rows, r.id = n := mem_map

theorem next_notMem (t : RowTable α) : t.next ∉ t.ids := fun h =>
  (mem_ids.1 h).elim fun _ hr => ne_next hr.1 hr.2

theorem ids_update (n : ℕ) (f : α → α) (t : RowTable α) : (t.update n f).ids = t.ids := by
  rw [ids, update, map_map]
  exact map_congr_left fun r _ => Row.id_modify n f r

theorem eq_of_id {r' : Row α} (hr : r ∈ t.rows) (hr' : r' ∈ t.rows)
    (h : r.id = r'.id) : r = r' := inj_on_of_nodup_map t.nodup hr hr' h

theorem update_self {f : α → α} (hr : r ∈ t.rows)
    (hf : f r.data = r.data) : t.update r.id f = t := by
  have : t.rows.map (Row.modify r.id f) = t.rows := by
    conv_rhs => rw [← map_id t.rows]
    refine map_congr_left fun r' hr' => ?_
    rw [Row.modify]
    split_ifs with h
    · rw [eq_of_id hr' hr h, hf, id]
    · rfl
  exact RowTable.ext this rfl

theorem kids_eq_nil_iff : t.kids p = [] ↔ ∀ r ∈ t.rows, r.parent ≠ p := by
  simp [kids, rowsOf]

end RowTable

open RowTable (mem_rowsOf mem_ids ne_next eq_of_id rowsOf_insert kids_insertAll filter_insertAll
  rows_insertAll ids_insert rows_deleteWhere)

variable {items : List (α × (ι → List β))} {k : ι → List β} {a : α}

namespace Store

variable (s : Store α ι β) (p n m : ℕ) (a : α) (k : ι → List β) (i : ι)

theorem next_put : (s.put p a k).parents.next = s.parents.next + 1 := rfl

theorem kids_put :
    (s.put p a k).kids n i = s.kids n i + if n = s.parents.next then ↑(k i) else 0 := by
  rw [kids, put, kids_insertAll, ← Multiset.coe_add, kids]
  split_ifs <;> rfl

theorem kids_setKids : (s.setKids n k).kids m i = if m = n then ↑(k i) else s.kids m i := by
  rw [kids, setKids, kids_insertAll, RowTable.kids_deleteWhere_parent]
  split_ifs
  · rw [nil_append]
  · rw [append_nil, kids]

theorem entries_put : (s.put p a k).entries p =
    s.entries p ++ [(a, fun i => s.kids s.parents.next i + ↑(k i))] := by
  have hrows : (s.put p a k).parents.rowsOf p = s.parents.rowsOf p ++ [⟨s.parents.next, p, a⟩] := by
    rw [put, rowsOf_insert, if_pos rfl]
  rw [entries, hrows, map_append, entries]
  congr 1
  · refine map_congr_left fun r hr => ?_
    refine congrArg (Prod.mk _) (funext fun i => ?_)
    rw [kids_put, if_neg (ne_next (mem_rowsOf.1 hr).1), add_zero]
  · refine congrArg (fun k => [(a, k)]) (funext fun i => ?_)
    rw [kids_put, if_pos rfl]

variable {n p a k i} {q : ℕ} {c : Row β}

theorem kids_eq_zero_iff {s : Store α ι β} :
    s.kids n i = 0 ↔ ∀ c ∈ (s.child i).rows, c.parent ≠ n := by
  rw [kids, Multiset.coe_eq_zero, RowTable.kids_eq_nil_iff]

theorem entries_putAll (p : ℕ) (items : List (α × (ι → List β))) :
    (s.putAll p items).entries p = s.entries p ++
      items.mapIdx fun j x => (x.1, fun i => s.kids (s.parents.next + j) i + ↑(x.2 i)) := by
  induction items generalizing s with
  | nil => simp [putAll]
  | cons x items ih =>
    rw [putAll, foldl_cons, ← putAll, ih, entries_put, mapIdx_cons, append_assoc, singleton_append]
    congr 3
    funext j x
    refine congrArg (Prod.mk _) (funext fun i => ?_)
    rw [next_put, kids_put, if_neg (by omega), add_zero, Nat.add_assoc, Nat.add_comm 1 j]

theorem sum_map_mapIdx {γ : Type*} {f : ℕ → κ → γ} {g : γ → ℕ} {d : ℕ → ℕ} {w : κ → ℕ}
    (h : ∀ j x, g (f j x) = d j + w x) (l : List κ) :
    ((l.mapIdx f).map g).sum = (∑ j ∈ Finset.range l.length, d j) + (l.map w).sum := by
  induction l generalizing f d with
  | nil => rfl
  | cons x l ih =>
    rw [mapIdx_cons, map_cons, sum_cons, ih fun j => h (j + 1), h, length_cons,
      Finset.sum_range_succ', map_cons, sum_cons]
    omega

theorem entries_deleteWhere (p : ℕ) : (s.deleteWhere (·.parent = p)).entries p = [] := by
  simp [entries, deleteWhere, RowTable.rowsOf]

theorem contents_refill_iff (p : ℕ) (items : List (α × (ι → List β))) :
    (s.refill p items).contents p = ↑(items.map fun x => (x.1, fun i => (x.2 i : Multiset β))) ↔
      ∀ j < items.length, ∀ i, s.kids (s.parents.next + j) i = 0 := by
  have hentries : (s.refill p items).entries p =
      items.mapIdx fun j x => (x.1, fun i => s.kids (s.parents.next + j) i + ↑(x.2 i)) := by
    rw [refill, entries_putAll, entries_deleteWhere, nil_append]
    rfl
  rw [contents, hentries]
  constructor
  · intro h j hj i
    have hcard := congrArg (fun m => (m.map fun e => Multiset.card (e.2 i)).sum) h
    simp only [Multiset.map_coe, Multiset.sum_coe, map_map] at hcard
    rw [sum_map_mapIdx
      (by exact fun _ _ => Multiset.card_add _ _)] at hcard
    have hzero := Finset.sum_eq_zero_iff.1 (Nat.add_eq_right.1 hcard)
    exact Multiset.card_eq_zero.1 (hzero j (Finset.mem_range.2 hj))
  · intro h
    congr 1
    refine ext_getElem (by simp) fun j hj _ => ?_
    rw [getElem_mapIdx, getElem_map]
    refine congrArg (Prod.mk _) (funext fun i => ?_)
    rw [h j (by simpa using hj) i, zero_add]

theorem orphan_put : (s.put p a k).Orphan i c ↔ s.Orphan i c ∧ c.parent ≠ s.parents.next := by
  obtain ⟨new, hnew, hp⟩ := rows_insertAll s.parents.next (k i) (s.child i)
  simp only [Orphan, put, ids_insert, hnew, mem_append, mem_singleton, not_or]
  constructor
  · rintro ⟨hc | hc, hids, hne⟩
    · exact ⟨⟨hc, hids⟩, hne⟩
    · exact absurd (hp c hc) hne
  · rintro ⟨⟨hc, hids⟩, hne⟩
    exact ⟨.inl hc, hids, hne⟩

theorem orphan_putAll : (s.putAll p items).Orphan i c ↔
      s.Orphan i c ∧ ∀ j < items.length, c.parent ≠ s.parents.next + j := by
  induction items generalizing s with
  | nil => simp [putAll]
  | cons x items ih =>
    rw [putAll, foldl_cons, ← putAll, ih, orphan_put, next_put, length_cons, and_assoc]
    refine and_congr_right fun _ => ?_
    constructor
    · rintro ⟨h0, h⟩ (_ | j) hj
      · exact h0
      · rw [← Nat.add_assoc, Nat.add_right_comm]
        exact h j (by omega)
    · intro h
      refine ⟨h 0 (by omega), fun j hj => ?_⟩
      rw [Nat.add_assoc, Nat.add_comm 1 j]
      exact h (j + 1) (by omega)

theorem orphan_deleteWhere {q : Row α → Bool} : (s.deleteWhere q).Orphan i c ↔
      s.Orphan i c ∨ c ∈ (s.child i).rows ∧ ∃ r ∈ s.parents.rows, q r = true ∧ r.id = c.parent := by
  constructor
  · rintro ⟨hc, hids⟩
    by_cases h : c.parent ∈ s.parents.ids
    · obtain ⟨r, hr, he⟩ := mem_ids.1 h
      refine .inr ⟨hc, r, hr, ?_, he⟩
      by_contra hq
      exact hids (mem_ids.2 ⟨r, mem_filter.2 ⟨hr, by simpa using hq⟩, he⟩)
    · exact .inl ⟨hc, h⟩
  · rintro (⟨hc, hids⟩ | ⟨hc, r, hr, hq, he⟩)
    · refine ⟨hc, fun h => hids ?_⟩
      obtain ⟨r, hr, he⟩ := mem_ids.1 h
      exact mem_ids.2 ⟨r, mem_of_mem_filter hr, he⟩
    · refine ⟨hc, fun h => ?_⟩
      obtain ⟨r', hr', he'⟩ := mem_ids.1 h
      obtain ⟨hr', hq'⟩ := mem_filter.1 hr'
      rw [eq_of_id hr' hr (he'.trans he.symm), hq] at hq'
      cases hq'

theorem orphan_refill_iff (p : ℕ) (items : List (α × (ι → List β))) :
    (∀ i c, (s.refill p items).Orphan i c → s.Orphan i c) ↔
      ∀ r ∈ s.parents.rowsOf p, ∀ i, s.kids r.id i = 0 := by
  simp only [kids_eq_zero_iff]
  constructor
  · intro h r hr i c hc he
    obtain ⟨hr, hp⟩ := mem_rowsOf.1 hr
    refine (h i c ?_).2 (mem_ids.2 ⟨r, hr, he.symm⟩)
    refine (orphan_putAll _).2 ⟨(orphan_deleteWhere _).2 (.inr ⟨hc, r, hr, by simpa using hp,
      he.symm⟩), fun j _ => ?_⟩
    have hle := s.parents.le_seq r hr
    change c.parent ≠ s.parents.seq + 1 + j
    omega
  · intro h i c hc
    rcases (orphan_deleteWhere _).1 ((orphan_putAll _).1 hc).1 with ho | ⟨hc, r, hr, hq, he⟩
    · exact ho
    · exact absurd he.symm (h r (mem_rowsOf.2 ⟨hr, by simpa using hq⟩) i c hc)

theorem attached_put (h : q ≠ p) (a : α) (k : ι → List β) :
    (s.put p a k).attached q = s.attached q := by
  have hrows : (s.put p a k).parents.rowsOf q = s.parents.rowsOf q := by
    rw [put, rowsOf_insert, if_neg h, append_nil]
  have hnext : s.parents.next ∉ (s.parents.rowsOf q).map Row.id := by
    rw [mem_map]
    rintro ⟨r, hr, he⟩
    exact ne_next (mem_rowsOf.1 hr).1 he
  rw [attached, hrows, attached]
  refine congrArg (Prod.mk _) (funext fun i => ?_)
  exact filter_insertAll (f := fun n => n ∈ (s.parents.rowsOf q).map Row.id)
    (decide_eq_false hnext) _ _

theorem attached_putAll (h : q ≠ p) (items : List (α × (ι → List β))) :
    (s.putAll p items).attached q = s.attached q := by
  induction items generalizing s with
  | nil => rfl
  | cons x items ih => rw [putAll, foldl_cons, ← putAll, ih, attached_put _ h]

theorem attached_setKids (h : n ∉ (s.parents.rowsOf q).map Row.id) (k : ι → List β) :
    (s.setKids n k).attached q = s.attached q := by
  refine congrArg (Prod.mk _) (funext fun i => ?_)
  have hf : decide (n ∈ (s.parents.rowsOf q).map Row.id) = false := decide_eq_false h
  exact (filter_insertAll (f := fun n => n ∈ (s.parents.rowsOf q).map Row.id) hf _ _).trans
    (RowTable.filter_deleteWhere_parent (f := fun n => n ∈ (s.parents.rowsOf q).map Row.id) hf _)

theorem attached_deleteWhere {f : Row α → Bool} (h : ∀ r ∈ s.parents.rowsOf q, f r = false) :
    (s.deleteWhere f).attached q = s.attached q := by
  have hrows : (s.deleteWhere f).parents.rowsOf q = s.parents.rowsOf q := by
    rw [deleteWhere, RowTable.rowsOf, rows_deleteWhere, filter_comm]
    exact filter_eq_self.2 fun r hr => by rw [h r hr, Bool.not_false]
  rw [attached, hrows, attached]
  rfl

theorem mem_kids {b : β} : b ∈ s.kids n i ↔ ∃ c ∈ (s.child i).rows, c.parent = n ∧ c.data = b := by
  rw [kids, Multiset.mem_coe, RowTable.kids, mem_map]
  simp [mem_rowsOf, and_assoc]

theorem mem_contents {x : α × (ι → Multiset β)} :
    x ∈ s.contents p ↔ ∃ r ∈ s.parents.rows, r.parent = p ∧ (r.data, s.kids r.id) = x := by
  rw [contents, Multiset.mem_coe, entries, mem_map]
  simp [mem_rowsOf, and_assoc]

theorem contents_eq_of_attached {s s' : Store α ι β} (h : s.attached p = s'.attached p) :
    s.contents p = s'.contents p := by
  have hrows : s.parents.rowsOf p = s'.parents.rowsOf p := congrArg Prod.fst h
  rw [contents, contents, entries, entries, hrows]
  refine congrArg _ (map_congr_left fun r hr => congrArg (Prod.mk _) (funext fun i => ?_))
  have hchild := congrFun (congrArg Prod.snd h) i
  have hkids : ∀ t : Store α ι β, t.parents.rowsOf p = s'.parents.rowsOf p →
      (t.child i).kids r.id = (((t.attached p).2 i).filter (·.parent = r.id)).map Row.data := by
    intro t ht
    rw [attached, filter_filter, RowTable.kids, RowTable.rowsOf]
    refine congrArg (map _) (filter_congr fun c _ => ?_)
    by_cases hc : c.parent = r.id
    · have hmem : c.parent ∈ (t.parents.rowsOf p).map Row.id :=
        hc ▸ mem_map_of_mem (ht ▸ hr)
      simp [hc, hc ▸ hmem]
    · simp [hc]
  rw [kids, kids, hkids s hrows, hkids s' rfl, hchild]

theorem attached_refill (h : q ≠ p) (items : List (α × (ι → List β))) :
    (s.refill p items).attached q = s.attached q := by
  rw [refill, attached_putAll _ h, attached_deleteWhere]
  intro r hr
  rw [(mem_rowsOf.1 hr).2]
  exact decide_eq_false h

end Store

variable {r : Row α}

section Upsert

variable [DecidableEq κ] {key : α → κ}

theorem upsert_of_forall_ne {x : α × β} {l : List (α × β)} (h : ∀ e ∈ l, key e.1 ≠ key x.1) :
    upsert key x l = l ++ [x] := by
  induction l with
  | nil => rfl
  | cons e l ih =>
    rw [upsert, if_neg (h e mem_cons_self), ih fun e' he' => h e' (mem_cons_of_mem _ he')]
    rfl

theorem upsert_map_of_find? {R : List (Row α)} (hnd : (R.map Row.id).Nodup)
    (hr : R.find? (fun r => key r.data = key a) = some r) (f : Row α → β) (b : β) :
    upsert key (a, b) (R.map fun r => (r.data, f r)) =
      R.map fun r' => (r'.data, if r'.id = r.id then b else f r') := by
  induction R with
  | nil => cases hr
  | cons r₀ R ih =>
    rw [map_cons, nodup_cons] at hnd
    by_cases h : key r₀.data = key a
    · rw [find?_cons_of_pos (by simpa using h), Option.some.injEq] at hr
      subst hr
      rw [map_cons, upsert, if_pos h, map_cons, if_pos rfl]
      refine congrArg _ (map_congr_left fun r' hr' => ?_)
      rw [if_neg fun he : r'.id = r₀.id => hnd.1 (he ▸ mem_map_of_mem hr')]
    · rw [find?_cons_of_neg (by simpa using h)] at hr
      have hid : r₀.id ≠ r.id := fun he =>
        hnd.1 (he ▸ mem_map_of_mem (mem_of_find?_eq_some hr))
      rw [map_cons, upsert, if_neg h, ih hnd.2 hr, map_cons, if_neg hid]

def bump (x : α × β) : List (α × β) → List (α × β)
  | [] => [x]
  | e :: es => (e.1, x.2) :: es

theorem filter_upsert (K : κ) (x : α × β) (l : List (α × β)) :
    (upsert key x l).filter (fun e => key e.1 = K) =
      if key x.1 = K then bump x (l.filter fun e => key e.1 = K)
      else l.filter fun e => key e.1 = K := by
  induction l with
  | nil => by_cases h : key x.1 = K <;> simp [upsert, bump, h]
  | cons e l ih =>
    rw [upsert]
    by_cases he : key e.1 = key x.1
    · rw [if_pos he]
      by_cases h : key x.1 = K <;> simp [he, h, bump]
    · rw [if_neg he, filter_cons, ih, filter_cons]
      by_cases h : key x.1 = K
      · simp [h, h ▸ he]
      · simp [h]

theorem filter_foldl_upsert (K : κ) (l L : List (α × β)) :
    (l.foldl (fun L x => upsert key x L) L).filter (fun e => key e.1 = K) =
      (l.filter fun e => key e.1 = K).foldl (fun L x => bump x L)
        (L.filter fun e => key e.1 = K) := by
  induction l generalizing L with
  | nil => rfl
  | cons x l ih =>
    rw [foldl_cons, ih, filter_upsert, filter_cons]
    by_cases h : key x.1 = K <;> simp [h]

theorem foldl_bump (b : β) (l : List (α × β)) : ∃ b', ∀ (a' : α) (es : List (α × β)),
      l.foldl (fun L x => bump x L) ((a', b) :: es) = (a', b') :: es := by
  induction l generalizing b with
  | nil => exact ⟨b, fun _ _ => rfl⟩
  | cons x l ih =>
    obtain ⟨b', hb'⟩ := ih x.2
    exact ⟨b', fun a' es => hb' a' es⟩

theorem perm_iff_filter (key : α → κ) {l l' : List (α × β)} : l.Perm l' ↔
      ∀ K, (l.filter fun e => key e.1 = K).Perm (l'.filter fun e => key e.1 = K) := by
  classical
  refine ⟨fun h K => h.filter _, fun h => perm_iff_count.2 fun e => ?_⟩
  have hcount := perm_iff_count.1 (h (key e.1)) e
  rwa [count_filter (by simp), count_filter (by simp)] at hcount

theorem bump_perm_iff {L : List (α × β)} (x : α × β) (l : List (α × β)) :
    ((x :: l).foldl (fun L x => bump x L) L).Perm ((x :: l).foldl (fun L x => bump x L) []) ↔
      L = [] ∨ ∃ e, L = [e] ∧ e.1 = x.1 := by
  obtain ⟨b, hb⟩ := foldl_bump x.2 l
  rw [foldl_cons, foldl_cons, bump, hb]
  rcases L with _ | ⟨e, es⟩
  · rw [bump, hb]
    simp
  · rw [bump, hb, perm_singleton, cons.injEq, Prod.mk.injEq]
    constructor
    · rintro ⟨⟨he, -⟩, rfl⟩
      exact .inr ⟨e, rfl, he⟩
    · rintro (h | ⟨e', he', h⟩)
      · cases h
      · rw [cons.injEq] at he'
        exact ⟨⟨he'.1 ▸ h, rfl⟩, he'.2⟩

variable {ν : Type*} {name : α → ν}

/-- The entries `L` are updated from `l`, and those with the key of an entry of `L` whose name is
not among the names of `l` are dropped.  What is left is what `l` alone makes exactly when each key
that `l` updates has at most one entry in `L`, with the head that `l` gives it first. -/
theorem update_perm_iff (hname : ∀ a b, name a = name b → key a = key b) (L l : List (α × β))
    {D : κ → Bool} (hD : ∀ K, D K = true ↔ ∃ e ∈ L, key e.1 = K ∧ ∀ x ∈ l, name x.1 ≠ name e.1) :
    ((l.foldl (fun L x => upsert key x L) L).filter fun e => !D (key e.1)).Perm
        (l.foldl (fun L x => upsert key x L) []) ↔
      ∀ K x, l.find? (fun x => key x.1 = K) = some x →
        L.filter (fun e => key e.1 = K) = [] ∨
          ∃ e, L.filter (fun e => key e.1 = K) = [e] ∧ e.1 = x.1 := by
  rw [perm_iff_filter key]
  refine forall_congr' fun K => ?_
  have hfilter : ((l.foldl (fun L x => upsert key x L) L).filter fun e => !D (key e.1)).filter
      (fun e => key e.1 = K) = if D K then [] else
        (l.filter fun e => key e.1 = K).foldl (fun L x => bump x L)
          (L.filter fun e => key e.1 = K) := by
    rw [filter_filter, ← filter_foldl_upsert]
    split_ifs with h
    · refine filter_eq_nil_iff.2 fun e _ => ?_
      by_cases he : key e.1 = K <;> simp [he, h]
    · refine filter_congr fun e _ => ?_
      by_cases he : key e.1 = K <;> simp [he, h]
  rw [hfilter, filter_foldl_upsert, ← head?_filter, filter_nil]
  rcases hl : l.filter (fun e => key e.1 = K) with _ | ⟨x, xs⟩
  · -- Nothing in `l` has the key: what `L` holds under it is dropped.
    have hnone : ∀ e ∈ L, key e.1 = K → D K = true := fun e he hK =>
      (hD K).2 ⟨e, he, hK, fun x hx hn =>
        filter_eq_nil_iff.1 hl x hx (by simpa using (hname _ _ hn).trans hK)⟩
    rw [hl]
    simp only [foldl_nil, head?_nil, reduceCtorEq, false_implies, implies_true, iff_true]
    split_ifs with h
    · exact .refl _
    · rw [filter_eq_nil_iff.2 fun e he hK => h (hnone e he (by simpa using hK))]
  · rw [hl]
    simp only [head?_cons, Option.some.injEq, forall_eq']
    split_ifs with h
    · obtain ⟨e, he, hK, hne⟩ := (hD K).1 h
      have he : e ∈ L.filter fun e => key e.1 = K := mem_filter.2 ⟨he, by simpa using hK⟩
      have hx : x ∈ l := mem_of_mem_filter (hl ▸ mem_cons_self)
      obtain ⟨b, hb⟩ := foldl_bump x.2 xs
      refine iff_of_false ?_ ?_
      · rw [foldl_cons, bump, hb, perm_singleton]
        exact cons_ne_nil _ _ ∘ Eq.symm
      · rintro (h0 | ⟨e', he', hx'⟩)
        · exact not_mem_nil (h0 ▸ he)
        · rw [he', mem_singleton] at he
          exact hne x hx (he ▸ congrArg name hx'.symm)
    · exact bump_perm_iff x xs

end Upsert

namespace Store

variable [DecidableEq κ] {key : α → κ} (s : Store α ι β)

theorem find?_rowsOf (key : α → κ) (p : ℕ) (a : α) :
    (s.parents.rowsOf p).find? (fun r => key r.data = key a) =
      s.parents.rows.find? fun r => key r.data = key a ∧ r.parent = p := by
  rw [RowTable.rowsOf, find?_filter]
  congr 1
  funext r
  by_cases h : key r.data = key a <;> by_cases h' : r.parent = p <;> simp [h, h']

theorem entries_upsert (p : ℕ) (a : α) (k : ι → List β) : (s.upsert key p a k).entries p =
      Records.upsert key (a, fun i => (k i : Multiset β)) (s.entries p) := by
  have hfind := find?_rowsOf s key p a
  unfold upsert
  split
  next r hr =>
    rw [hr] at hfind
    have hnd : ((s.parents.rowsOf p).map Row.id).Nodup :=
      s.parents.nodup.sublist (filter_sublist.map _)
    rw [entries, entries, upsert_map_of_find? hnd hfind]
    refine map_congr_left fun r' _ => congrArg (Prod.mk _) (funext fun i => ?_)
    rw [kids_setKids]
    split_ifs <;> rfl
  next hr =>
    rw [hr, find?_eq_none] at hfind
    rw [upsert_of_forall_ne]
    · change ((s.parents.insert p a).rowsOf p).map _ = _
      rw [rowsOf_insert, if_pos rfl, map_append, entries]
      congr 1
      · refine map_congr_left fun r hr => congrArg (Prod.mk _) (funext fun i => ?_)
        rw [kids_setKids, if_neg (ne_next (mem_rowsOf.1 hr).1)]
        rfl
      · refine congrArg (fun k => [(a, k)]) (funext fun i => ?_)
        rw [kids_setKids, if_pos rfl]
    · intro e he
      obtain ⟨r, hr, rfl⟩ := mem_map.1 he
      simpa using hfind r hr

theorem entries_upsertAll (p : ℕ) (items : List (α × (ι → List β))) :
    (s.upsertAll key p items).entries p =
      (items.map fun x => (x.1, fun i => (x.2 i : Multiset β))).foldl
        (fun L x => Records.upsert key x L) (s.entries p) := by
  induction items generalizing s with
  | nil => rfl
  | cons x items ih =>
    rw [upsertAll, foldl_cons, ← upsertAll, ih, entries_upsert, map_cons, foldl_cons]

theorem upsert_eq (key : α → κ) (p : ℕ) (a : α) (k : ι → List β) :
    (∃ r ∈ s.parents.rowsOf p, key r.data = key a ∧ s.upsert key p a k = s.setKids r.id k) ∨
      s.upsert key p a k =
        { s with parents := s.parents.insert p a }.setKids s.parents.next k := by
  unfold upsert
  split
  next r hr =>
    have hmem := mem_of_find?_eq_some hr
    obtain ⟨hkey, hp⟩ : key r.data = key a ∧ r.parent = p := by simpa using find?_some hr
    exact .inl ⟨r, mem_rowsOf.2 ⟨hmem, hp⟩, hkey, rfl⟩
  next => exact .inr rfl

variable {p : ℕ} {i : ι} {c : Row β}

theorem attached_upsert {q : ℕ} (h : q ≠ p) (a : α) (k : ι → List β) :
    (s.upsert key p a k).attached q = s.attached q := by
  rcases upsert_eq s key p a k with ⟨r, hr, -, he⟩ | he
  · rw [he, attached_setKids]
    rw [mem_map]
    rintro ⟨r', hr', hid⟩
    obtain ⟨hr, hp⟩ := mem_rowsOf.1 hr
    obtain ⟨hr', hp'⟩ := mem_rowsOf.1 hr'
    exact h (hp'.symm.trans (eq_of_id hr' hr hid ▸ hp))
  · have hrows : (s.parents.insert p a).rowsOf q = s.parents.rowsOf q := by
      rw [rowsOf_insert, if_neg h, append_nil]
    rw [he, attached_setKids]
    · rw [attached, hrows, attached]
    · rw [hrows, mem_map]
      rintro ⟨r, hr, hid⟩
      exact ne_next (mem_rowsOf.1 hr).1 hid

theorem attached_upsertAll {q : ℕ} (h : q ≠ p) (items : List (α × (ι → List β))) :
    (s.upsertAll key p items).attached q = s.attached q := by
  induction items generalizing s with
  | nil => rfl
  | cons x items ih => rw [upsertAll, foldl_cons, ← upsertAll, ih, attached_upsert s h]

theorem orphan_setKids {n : ℕ} (hn : n ∈ s.parents.ids)
    (h : (s.setKids n k).Orphan i c) : s.Orphan i c := by
  obtain ⟨hc, hids⟩ := h
  obtain ⟨new, hnew, hp⟩ :=
    rows_insertAll n (k i) ((s.child i).deleteWhere (·.parent = n))
  rw [setKids, hnew, mem_append] at hc
  rcases hc with hc | hc
  · exact ⟨mem_of_mem_filter hc, hids⟩
  · exact absurd hn (hp c hc ▸ hids)

theorem orphan_upsert (h : (s.upsert key p a k).Orphan i c) : s.Orphan i c := by
  rcases upsert_eq s key p a k with ⟨r, hr, -, he⟩ | he
  · rw [he] at h
    exact orphan_setKids s (mem_ids.2 ⟨r, (mem_rowsOf.1 hr).1, rfl⟩) h
  · rw [he] at h
    have hids := ids_insert p a s.parents
    obtain ⟨hc, hnot⟩ := orphan_setKids _ (by simp [hids]) h
    exact ⟨hc, fun hm => hnot (by simp [hids, hm])⟩

theorem orphan_upsertAll (h : (s.upsertAll key p items).Orphan i c) : s.Orphan i c := by
  induction items generalizing s with
  | nil => exact h
  | cons x items ih => exact orphan_upsert s (ih _ h)

theorem upsert_of_ne (hr : key r.data ≠ key a) (k : ι → List β) :
    (r ∈ (s.upsert key p a k).parents.rows ↔ r ∈ s.parents.rows) ∧
      (r ∈ s.parents.rows → (s.upsert key p a k).kids r.id = s.kids r.id) := by
  rcases upsert_eq s key p a k with ⟨r', hr', hkey, he⟩ | he
  · rw [he]
    refine ⟨Iff.rfl, fun hmem => funext fun i => ?_⟩
    rw [kids_setKids, if_neg]
    intro hid
    exact hr (eq_of_id hmem (mem_rowsOf.1 hr').1 hid ▸ hkey)
  · rw [he]
    refine ⟨?_, fun hmem => funext fun i => ?_⟩
    · change r ∈ (s.parents.insert p a).rows ↔ _
      rw [RowTable.rows_insert, mem_append, mem_singleton]
      refine or_iff_left fun h => hr ?_
      rw [h]
    · rw [kids_setKids, if_neg (ne_next hmem)]
      rfl

theorem upsertAll_of_ne (hr : ∀ x ∈ items, key x.1 ≠ key r.data) :
    (r ∈ (s.upsertAll key p items).parents.rows ↔ r ∈ s.parents.rows) ∧
      (r ∈ s.parents.rows → (s.upsertAll key p items).kids r.id = s.kids r.id) := by
  induction items generalizing s with
  | nil => exact ⟨Iff.rfl, fun _ => rfl⟩
  | cons x items ih =>
    obtain ⟨hmem, hkids⟩ := upsert_of_ne s (hr x mem_cons_self).symm x.2
    obtain ⟨hmem', hkids'⟩ := ih (s.upsert key p x.1 x.2) fun y hy =>
      hr y (mem_cons_of_mem _ hy)
    exact ⟨hmem'.trans hmem, fun h => (hkids' (hmem.2 h)).trans (hkids h)⟩

theorem foldl_deleteWhere {γ : Type*} (q : γ → Row α → Bool) (l : List γ) :
    l.foldl (fun s n => s.deleteWhere (q n)) s = s.deleteWhere fun r => l.any (q · r) := by
  induction l generalizing s with
  | nil => exact Store.ext (RowTable.ext (filter_eq_self.2 fun _ _ => rfl).symm rfl) rfl
  | cons n l ih =>
    rw [foldl_cons, ih]
    refine Store.ext (RowTable.ext ?_ rfl) rfl
    change (s.parents.rows.filter _).filter _ = s.parents.rows.filter _
    rw [filter_filter]
    refine filter_congr fun r _ => ?_
    simp [any_cons, Bool.not_or, Bool.and_comm]

section Reconcile

variable {ν : Type*} {name : α → ν} {p : ℕ} {items : List (α × (ι → List β))} {D : κ → Bool}

omit [DecidableEq κ] in
theorem entries_deleteWhere_key :
    (s.deleteWhere fun r => r.parent = p && D (key r.data)).entries p =
      (s.entries p).filter fun e => !D (key e.1) := by
  rw [entries, entries, filter_map, deleteWhere, RowTable.rowsOf, rows_deleteWhere,
    filter_comm, ← RowTable.rowsOf]
  refine congrArg (List.map _) (filter_congr fun r hr => ?_)
  simp [(mem_rowsOf.1 hr).2]

theorem find?_coe (K : κ) :
    (items.map fun x => (x.1, fun i => (x.2 i : Multiset β))).find? (fun x => key x.1 = K) =
      (items.find? fun x => key x.1 = K).map fun x => (x.1, fun i => (x.2 i : Multiset β)) := by
  rw [find?_map]
  rfl

theorem filter_entries_iff {K : κ} : ((s.entries p).filter (fun e => key e.1 = K) = [] ∨
        ∃ e, (s.entries p).filter (fun e => key e.1 = K) = [e] ∧ e.1 = a) ↔
      ∀ r ∈ s.parents.rowsOf p, key r.data = K →
        r.data = a ∧ ∀ r' ∈ s.parents.rowsOf p, key r'.data = K → r' = r := by
  have hnd : ((s.parents.rowsOf p).filter fun r => key r.data = K).Nodup :=
    ((s.parents.nodup.of_map _).filter _).filter _
  have hmem : ∀ r, r ∈ (s.parents.rowsOf p).filter (fun r => key r.data = K) ↔
      r ∈ s.parents.rowsOf p ∧ key r.data = K := by simp
  rw [entries, filter_map, Function.comp_def]
  generalize (s.parents.rowsOf p).filter (fun r => key r.data = K) = M at hnd hmem ⊢
  simp only [← and_imp, ← hmem]
  rcases M with _ | ⟨r, _ | ⟨r', M⟩⟩
  · simp
  · simp
  · refine iff_of_false (by simp) fun h => ?_
    have hr := (h r mem_cons_self).2 r' (mem_cons_of_mem _ mem_cons_self)
    exact (nodup_cons.1 hnd).1 (hr ▸ mem_cons_self)

variable (hname : ∀ a b, name a = name b → key a = key b)
  (hD : ∀ K, D K = true ↔
    ∃ r ∈ s.parents.rowsOf p, key r.data = K ∧ ∀ x ∈ items, name x.1 ≠ name r.data)

include hname hD

theorem contents_reconcile_iff :
    ((s.upsertAll key p items).deleteWhere fun r => r.parent = p && D (key r.data)).contents p =
        ↑(wanted key items) ↔
      ∀ r ∈ s.parents.rowsOf p, ∀ x, items.find? (fun x => key x.1 = key r.data) = some x →
        r.data = x.1 ∧ ∀ r' ∈ s.parents.rowsOf p, key r'.data = key r.data → r' = r := by
  have hD' : ∀ K, D K = true ↔ ∃ e ∈ s.entries p, key e.1 = K ∧
      ∀ x ∈ items.map fun x => (x.1, fun i => (x.2 i : Multiset β)), name x.1 ≠ name e.1 := by
    intro K
    simp only [hD, entries, mem_map, exists_exists_and_eq_and, forall_exists_index, and_imp,
      forall_apply_eq_imp_iff₂]
  rw [contents, Multiset.coe_eq_coe, entries_deleteWhere_key, entries_upsertAll, wanted,
    update_perm_iff hname _ _ hD']
  simp only [filter_entries_iff, find?_coe, Option.map_eq_some_iff]
  constructor
  · intro h r hr x hx
    exact h _ _ ⟨x, hx, rfl⟩ r hr rfl
  · rintro h _ _ ⟨x, hx, rfl⟩ r hr rfl
    exact h r hr x hx

theorem orphan_reconcile_iff
    (h : ∀ r ∈ s.parents.rowsOf p, ∀ x, items.find? (fun x => key x.1 = key r.data) = some x →
      r.data = x.1) :
    (∀ i c, ((s.upsertAll key p items).deleteWhere fun r => r.parent = p && D (key r.data)).Orphan
        i c → s.Orphan i c) ↔
      ∀ r ∈ s.parents.rowsOf p, (∀ x ∈ items, key x.1 ≠ key r.data) → ∀ i, s.kids r.id i = 0 := by
  constructor
  · intro ho r hr hne i
    obtain ⟨hmem, hkids⟩ := upsertAll_of_ne s hne
    obtain ⟨hr, hp⟩ := mem_rowsOf.1 hr
    rw [← hkids hr, kids_eq_zero_iff]
    intro c hc he
    have hdead : D (key r.data) = true :=
      (hD _).2 ⟨r, mem_rowsOf.2 ⟨hr, hp⟩, rfl, fun x hx hn => hne x hx (hname _ _ hn)⟩
    refine (ho i c ((orphan_deleteWhere _).2 (.inr ⟨hc, r, hmem.2 hr, ?_, he.symm⟩))).2
      (mem_ids.2 ⟨r, hr, he.symm⟩)
    simp [hp, hdead]
  · intro hk i c hc
    rcases (orphan_deleteWhere _).1 hc with hc | ⟨hc, r, hr, hq, he⟩
    · exact orphan_upsertAll s hc
    · obtain ⟨hp, hdead⟩ : r.parent = p ∧ D (key r.data) = true := by simpa using hq
      obtain ⟨r₀, hr₀, hkey, hn⟩ := (hD _).1 hdead
      have hne : ∀ x ∈ items, key x.1 ≠ key r.data := by
        intro x hx hx'
        obtain ⟨y, hy⟩ := Option.isSome_iff_exists.1
          (find?_isSome (p := fun x => decide (key x.1 = key r₀.data)).2
            ⟨x, hx, by simpa using hx'.trans hkey.symm⟩)
        exact hn y (mem_of_find?_eq_some hy) (congrArg name (h r₀ hr₀ y hy).symm)
      obtain ⟨hmem, hkids⟩ := upsertAll_of_ne s hne
      have hz := hk r (mem_rowsOf.2 ⟨hmem.1 hr, hp⟩) hne i
      rw [← hkids (hmem.1 hr), kids_eq_zero_iff] at hz
      exact absurd he.symm (hz c hc)

/-- Updating the rows of `p` by key and dropping those whose name is gone gives what the updates
alone make, and no new orphans, exactly when the rows agree with them. -/
theorem reconcile_iff :
    (((s.upsertAll key p items).deleteWhere fun r => r.parent = p && D (key r.data)).contents p =
        ↑(wanted key items) ∧
      ∀ i c, ((s.upsertAll key p items).deleteWhere fun r =>
        r.parent = p && D (key r.data)).Orphan i c → s.Orphan i c) ↔ s.Agrees key p items := by
  rw [contents_reconcile_iff s hname hD]
  constructor
  · rintro ⟨hc, ho⟩ r hr
    have ho := (orphan_reconcile_iff s hname hD fun r hr x hx => (hc r hr x hx).1).1 ho
    split
    next x hx => exact hc r hr x hx
    next hx => exact ho r hr fun x hx' he => find?_eq_none.1 hx x hx' (by simpa using he)
  · intro h
    have hc : ∀ r ∈ s.parents.rowsOf p, ∀ x,
        items.find? (fun x => key x.1 = key r.data) = some x →
        r.data = x.1 ∧ ∀ r' ∈ s.parents.rowsOf p, key r'.data = key r.data → r' = r := by
      intro r hr x hx
      have hr' := h r hr
      rwa [hx] at hr'
    refine ⟨hc, (orphan_reconcile_iff s hname hD fun r hr x hx => (hc r hr x hx).1).2 ?_⟩
    intro r hr hne
    have hr' := h r hr
    rwa [find?_eq_none.2 fun x hx => by simpa using hne x hx] at hr'

end Reconcile

end Store

end Darling.Records
