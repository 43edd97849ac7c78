import Darling.LaunchServices
import Darling.Proofs.Records

/-!
# When the database mirrors a bundle

After `process` the rows of a bundle should be what its property list alone gives, no row should be
left without its parent, and the rows of other bundles should be as before (`Mirrors`).  The first
two fail whenever rows with children are deleted, when a stored row is kept although what it says
has changed, and when the property list no longer declares any types (`process_mirrors_iff`).
-/

namespace Darling.LaunchServices

open Records List
open Sql (noCase)

def Declaration.item (u : Declaration) : Option (Uti × (UtiTable → List (List Text))) :=
  u.identifier.map fun typeId => (⟨typeId, some (u.description.getD typeId)⟩, u.children)

def DocumentType.item (d : DocumentType) : AppDoc × (DocTable → List Text) := (d.row, d.children)

def URLDeclaration.item (u : URLDeclaration) : URLType × (Unit → List Text) := (u.row, u.children)

variable (b : ℕ)

/-- A declared type is an upsert, and is taken off the list of types to delete. -/
theorem processUTI_eq (s : Store Uti UtiTable (List Text)) (previousUtis : List Text)
    (u : Declaration) : processUTI b (s, previousUtis) u = match u.item with
      | none => (s, previousUtis)
      | some x => (s.upsert Uti.key b x.1 x.2, previousUtis.filter (· ≠ x.1.typeIdentifier)) := by
  rw [processUTI, Declaration.item]
  rcases u.identifier with _ | typeId
  · rfl
  · have hrow : s.parents.rows.find? (fun r =>
        r.data.key = Uti.key ⟨typeId, some (u.description.getD typeId)⟩ ∧ r.parent = b) =
        s.parents.rows.find? fun r =>
          noCase r.data.typeIdentifier = noCase typeId ∧ r.parent = b := rfl
    simp only [Option.map_some]
    rw [Store.upsert, hrow]
    split
    next r hr => rw [RowTable.update_self (mem_of_find?_eq_some hr) rfl, ite_self, hr]
    next hr => rw [hr]

theorem foldl_processUTI (utis : List Declaration) (s : Store Uti UtiTable (List Text))
    (previousUtis : List Text) :
    utis.foldl (processUTI b) (s, previousUtis) =
      (s.upsertAll Uti.key b (utis.filterMap Declaration.item),
        previousUtis.filter fun n =>
          ∀ x ∈ utis.filterMap Declaration.item, x.1.typeIdentifier ≠ n) := by
  induction utis generalizing s previousUtis with
  | nil => simp [Store.upsertAll]
  | cons u utis ih =>
    rw [foldl_cons, processUTI_eq]
    rcases hu : u.item with _ | x
    · rw [filterMap_cons_none hu]
      exact ih s previousUtis
    · rw [filterMap_cons_some hu]
      refine (ih _ _).trans (congrArg (Prod.mk _) ?_)
      rw [filter_filter]
      refine filter_congr fun n _ => ?_
      rw [Bool.eq_iff_iff]
      simp only [Bool.and_eq_true, decide_eq_true_eq, forall_mem_cons]
      rw [and_comm, ne_comm]

/-- A stored type that is not declared any more is deleted by its key. -/
def deletedKey (items : List (Uti × (UtiTable → List (List Text)))) (previous : List (Row Uti))
    (K : Text) : Bool :=
  previous.any fun r => r.data.key = K ∧ ∀ x ∈ items, x.1.typeIdentifier ≠ r.data.typeIdentifier

section

variable (utis : List Declaration) (s : Store Uti UtiTable (List Text))

theorem processUTIs_eq : processUTIs b utis s =
      (s.upsertAll Uti.key b (utis.filterMap Declaration.item)).deleteWhere fun r =>
        r.parent = b &&
          deletedKey (utis.filterMap Declaration.item) (s.parents.rowsOf b) r.data.key := by
  rw [processUTIs, foldl_processUTI]
  refine (Store.foldl_deleteWhere _ (fun (n : Text) (r : Row Uti) =>
    decide (noCase r.data.typeIdentifier = noCase n ∧ r.parent = b)) _).trans ?_
  congr 1
  funext r
  rw [Bool.eq_iff_iff]
  simp only [deletedKey, any_eq_true, mem_filter, mem_map, Bool.and_eq_true, decide_eq_true_eq]
  constructor
  · rintro ⟨_, ⟨⟨r', hr', rfl⟩, hne⟩, hkey, hp⟩
    exact ⟨hp, r', hr', hkey.symm, hne⟩
  · rintro ⟨hp, r', hr', hkey, hne⟩
    exact ⟨_, ⟨⟨r', hr', rfl⟩, hne⟩, hkey.symm, hp⟩

/-- The types end up as declared, with no new orphans, exactly if they agreed before. -/
theorem processUTIs_iff :
    ((processUTIs b utis s).contents b = ↑(wanted Uti.key (utis.filterMap Declaration.item)) ∧
        ∀ i c, (processUTIs b utis s).Orphan i c → s.Orphan i c) ↔
      s.Agrees Uti.key b (utis.filterMap Declaration.item) := by
  rw [processUTIs_eq]
  refine Store.reconcile_iff s
    (fun a b (h : a.typeIdentifier = b.typeIdentifier) => congrArg noCase h) ?_
  intro K
  simp [deletedKey, any_eq_true]

end

theorem processFileAssociations_eq (info : Info) (s : Store AppDoc DocTable Text) :
    processFileAssociations b info s = s.refill b (info.documents.map DocumentType.item) := by
  rw [processFileAssociations, Store.refill, Store.putAll, foldl_map]
  rfl

theorem processURLTypes_eq (info : Info) (s : Store URLType Unit Text) :
    processURLTypes b info s = s.refill b (info.urlTypes.map URLDeclaration.item) := by
  rw [processURLTypes, Store.refill, Store.putAll, foldl_map]
  rfl

/-- The rows of a path: the row of the bundle with everything attached to it, up to ids and
order. -/
def Db.view (db : Db) (path : Text) :
    Multiset (Bundle × Multiset (Uti × (UtiTable → Multiset (List Text))) ×
      Multiset (AppDoc × (DocTable → Multiset Text)) × Multiset
        (URLType × (Unit → Multiset Text))) :=
  ((db.bundle.rows.filter (·.data.path = path)).map fun r =>
    (r.data, db.uti.contents r.id, db.appDoc.contents r.id, db.urlType.contents r.id) : List _)

/-- Rows without a parent were there before. -/
structure NoNewOrphans {α ι β : Type*} (s₀ s : Store α ι β) (roots₀ roots : List ℕ) : Prop where
  child : ∀ i c, s.Orphan i c → s₀.Orphan i c
  parents : ∀ r ∈ s.parents.rows, r.parent ∉ roots → r ∈ s₀.parents.rows ∧ r.parent ∉ roots₀

/-- The database says of the bundle what its property list says, and nothing else has changed. -/
structure Mirrors (path : Text) (info : Info) (db db' : Db) : Prop where
  stored : ∃ r ∈ db'.bundle.rows, r.data.path = path
  own : db'.view path = (process 0 path info Db.empty).view path
  utiOrphans : NoNewOrphans db.uti db'.uti db.bundle.ids db'.bundle.ids
  docOrphans : NoNewOrphans db.appDoc db'.appDoc db.bundle.ids db'.bundle.ids
  urlOrphans : NoNewOrphans db.urlType db'.urlType db.bundle.ids db'.bundle.ids
  bundles : db'.bundle.rows.filter (·.data.path ≠ path) = db.bundle.rows.filter (·.data.path ≠ path)
  others : ∀ r ∈ db.bundle.rows, r.data.path ≠ path →
    db'.uti.attached r.id = db.uti.attached r.id ∧
      db'.appDoc.attached r.id = db.appDoc.attached r.id ∧
      db'.urlType.attached r.id = db.urlType.attached r.id

/-- The row that `process` works on: the one of the path, or a new one. -/
def bundleIdOf (path : Text) (bundle : RowTable Bundle) : ℕ :=
  match bundle.rows.find? (·.data.path = path) with
  | some r => r.id
  | none => bundle.next

/-- The rows to be deleted have no children, and none are waiting for the new ones. -/
def Childless {α ι β : Type*} (p n : ℕ) (s : Store α ι β) : Prop :=
  (∀ r ∈ s.parents.rowsOf p, ∀ i, s.kids r.id i = 0) ∧
    ∀ j < n, ∀ i, s.kids (s.parents.next + j) i = 0

/-- Types that are declared again are stored as they are declared; the others have no children.
Without declarations none may be stored. -/
def UtisFit (info : Info) (b : ℕ) (s : Store Uti UtiTable (List Text)) : Prop :=
  match info.exportedTypes with
  | none => s.parents.rowsOf b = []
  | some utis => s.Agrees Uti.key b (utis.filterMap Declaration.item)

/-- The contents of the database that `process` brings up to date. -/
structure Fits (path : Text) (info : Info) (db : Db) : Prop where
  identified : ∃ identifier, info.identifier = some identifier ∧
    ∀ r ∈ db.bundle.rows, r.data.path = path → r.data.bundleId = identifier
  single : ∀ r ∈ db.bundle.rows, r.data.path = path → r.id = bundleIdOf path db.bundle
  utis : UtisFit info (bundleIdOf path db.bundle) db.uti
  docs : Childless (bundleIdOf path db.bundle) info.documents.length db.appDoc
  urls : Childless (bundleIdOf path db.bundle) info.urlTypes.length db.urlType

theorem refill_iff {α ι β : Type*} (p : ℕ) (items : List (α × (ι → List β))) (s : Store α ι β) :
    ((s.refill p items).contents p = ↑(items.map fun x => (x.1, fun i => (x.2 i : Multiset β))) ∧
        ∀ i c, (s.refill p items).Orphan i c → s.Orphan i c) ↔ Childless p items.length s := by
  rw [Store.contents_refill_iff, Store.orphan_refill_iff, and_comm, Childless]

def bundleTable (path identifier : Text) (info : Info) (bundle : RowTable Bundle) :
    RowTable Bundle :=
  match bundle.rows.find? (·.data.path = path) with
  | some r => bundle.update r.id fun b => info.row b.path b.bundleId
  | none => bundle.insert 0 (info.row path identifier)

def utiStore (info : Info) (b : ℕ) (s : Store Uti UtiTable (List Text)) :
    Store Uti UtiTable (List Text) :=
  match info.exportedTypes with
  | none => s
  | some utis => processUTIs b utis s

/-- The stored checksum is not that of the bundle, so `process` does not stop at once. -/
def Changed (path : Text) (info : Info) (db : Db) : Prop :=
  ∀ r, db.bundle.rows.find? (·.data.path = path) = some r → r.data.checksum ≠ info.checksum

variable {info : Info}

/-- `process` table by table. -/
theorem process_eq {path identifier : Text} {db : Db} (h : Changed path info db)
    (hid : info.identifier = some identifier) (last : ℕ) :
    process last path info db =
      { bundle := bundleTable path identifier info db.bundle
        uti := utiStore info (bundleIdOf path db.bundle) db.uti
        appDoc := db.appDoc.refill (bundleIdOf path db.bundle)
          (info.documents.map DocumentType.item)
        urlType := db.urlType.refill (bundleIdOf path db.bundle)
          (info.urlTypes.map URLDeclaration.item) } := by
  rw [← processFileAssociations_eq, ← processURLTypes_eq, process, setupBundleID, bundleTable,
    bundleIdOf]
  rcases hf : db.bundle.rows.find? (fun r => r.data.path = path) with _ | r
  · simp only [hf, hid]
    rfl
  · simp only [hf, if_neg (h r hf)]
    rfl

section Bundles

variable {path : Text} {bundle : RowTable Bundle}

theorem bundleIdOf_mem {r : Row Bundle} (hr : bundle.rows.find? (·.data.path = path) = some r) :
    r ∈ bundle.rows ∧ r.data.path = path ∧ bundleIdOf path bundle = r.id := by
  refine ⟨mem_of_find?_eq_some hr, by simpa using find?_some hr, ?_⟩
  rw [bundleIdOf, hr]

theorem bundleIdOf_ne {r : Row Bundle} (hr : r ∈ bundle.rows) (hp : r.data.path ≠ path) :
    r.id ≠ bundleIdOf path bundle := by
  rcases hf : bundle.rows.find? (fun r => r.data.path = path) with _ | r'
  · rw [bundleIdOf, hf]
    exact RowTable.ne_next hr
  · obtain ⟨hr', hp', he⟩ := bundleIdOf_mem hf
    rw [he]
    exact fun h => hp (RowTable.eq_of_id hr hr' h ▸ hp')

variable (identifier : Text)

theorem mem_ids_bundleTable (info : Info) {n : ℕ} :
    n ∈ (bundleTable path identifier info bundle).ids ↔
      n ∈ bundle.ids ∨ n = bundleIdOf path bundle := by
  rcases hf : bundle.rows.find? (fun r => r.data.path = path) with _ | r
  · rw [bundleTable, hf, bundleIdOf, hf]
    simp [RowTable.ids_insert]
  · obtain ⟨hr, -, he⟩ := bundleIdOf_mem hf
    rw [bundleTable, hf, he, RowTable.ids_update]
    exact ⟨.inl, fun h => h.elim id fun h => h ▸ RowTable.mem_ids.2 ⟨r, hr, rfl⟩⟩

theorem path_modify (n : ℕ) (info : Info) (r : Row Bundle) :
    (r.modify n fun b => info.row b.path b.bundleId).data.path = r.data.path := by
  unfold Row.modify
  split_ifs <;> rfl

theorem filter_update (n : ℕ) (info : Info) (q : Text → Bool) :
    (bundle.update n fun b => info.row b.path b.bundleId).rows.filter (fun r => q r.data.path) =
      (bundle.rows.filter fun r => q r.data.path).map
        (Row.modify n fun b => info.row b.path b.bundleId) := by
  rw [RowTable.update, filter_map]
  refine congrArg (map _) (filter_congr fun r _ => ?_)
  rw [Function.comp, path_modify]

theorem bundleTable_others (info : Info) :
    (bundleTable path identifier info bundle).rows.filter (·.data.path ≠ path) =
      bundle.rows.filter (·.data.path ≠ path) := by
  rcases hf : bundle.rows.find? (fun r => r.data.path = path) with _ | r
  · rw [bundleTable, hf]
    simp [Info.row]
  · obtain ⟨hr, hp, -⟩ := bundleIdOf_mem hf
    rw [bundleTable, hf, filter_update r.id info fun p => p ≠ path]
    conv_rhs => rw [← map_id (bundle.rows.filter _)]
    refine map_congr_left fun r' hr' => ?_
    obtain ⟨hr', hp'⟩ := mem_filter.1 hr'
    rw [Row.modify, if_neg]
    · rfl
    · intro h
      rw [RowTable.eq_of_id hr' hr h, hp] at hp'
      simp at hp'

theorem eq_singleton {α : Type*} {l : List α} {a : α} (hnd : l.Nodup) (ha : a ∈ l)
    (h : ∀ x ∈ l, x = a) : l = [a] := by
  rcases l with _ | ⟨x, l⟩
  · cases ha
  · obtain rfl := h x mem_cons_self
    refine congrArg (cons x) (eq_nil_iff_forall_not_mem.2 fun y hy => ?_)
    exact (nodup_cons.1 hnd).1 (h y (mem_cons_of_mem _ hy) ▸ hy)

/-- There is one row of the path, as the property list has it. -/
theorem bundleTable_own_iff (info : Info) :
    (∃ r, (bundleTable path identifier info bundle).rows.filter (·.data.path = path) = [r] ∧
        r.data = info.row path identifier ∧ r.id = bundleIdOf path bundle) ↔
      (∀ r ∈ bundle.rows, r.data.path = path → r.data.bundleId = identifier) ∧
        ∀ r ∈ bundle.rows, r.data.path = path → r.id = bundleIdOf path bundle := by
  rcases hf : bundle.rows.find? (fun r => r.data.path = path) with _ | r
  · have hnone : ∀ r ∈ bundle.rows, r.data.path ≠ path := by simpa using hf
    rw [bundleTable, hf, bundleIdOf, hf]
    refine iff_of_true ⟨⟨bundle.next, 0, info.row path identifier⟩, ?_, rfl, rfl⟩
      ⟨fun r hr hp => absurd hp (hnone r hr), fun r hr hp => absurd hp (hnone r hr)⟩
    rw [RowTable.rows_insert, filter_append, filter_eq_nil_iff.2 fun r hr => by
      simpa using hnone r hr]
    simp [Info.row]
  · obtain ⟨hr, hp, he⟩ := bundleIdOf_mem hf
    have hmem : r ∈ bundle.rows.filter (·.data.path = path) :=
      mem_filter.2 ⟨hr, by simpa using hp⟩
    rw [bundleTable, hf, filter_update r.id info fun p => p = path, he]
    constructor
    · rintro ⟨r', hr', hdata, -⟩
      obtain ⟨r₀, h₀, rfl⟩ := map_eq_singleton_iff.1 hr'
      obtain rfl := mem_singleton.1 (h₀ ▸ hmem)
      have hall : ∀ r' ∈ bundle.rows, r'.data.path = path → r' = r := fun r' hr' hp' =>
        mem_singleton.1 (h₀ ▸ mem_filter.2 ⟨hr', by simpa using hp'⟩)
      rw [Row.modify, if_pos rfl] at hdata
      have hident : r.data.bundleId = identifier := congrArg Bundle.bundleId hdata
      exact ⟨fun r' hr' hp' => hall r' hr' hp' ▸ hident, fun r' hr' hp' => hall r' hr' hp' ▸ rfl⟩
    · rintro ⟨hident, hid⟩
      have hone : bundle.rows.filter (·.data.path = path) = [r] := by
        refine eq_singleton ((bundle.nodup.of_map _).filter _) hmem fun r' hr' => ?_
        obtain ⟨hr', hp'⟩ := mem_filter.1 hr'
        exact RowTable.eq_of_id hr' hr (hid r' hr' (by simpa using hp'))
      refine ⟨_, congrArg (map _) hone, ?_, Row.id_modify _ _ _⟩
      rw [Row.modify, if_pos rfl, hident r hr hp, hp]

end Bundles

theorem utiStore_attached (info : Info) (s : Store Uti UtiTable (List Text)) {b q : ℕ} (h : q ≠ b) :
    (utiStore info b s).attached q = s.attached q := by
  unfold utiStore
  split
  · rfl
  · rw [processUTIs_eq, Store.attached_deleteWhere, Store.attached_upsertAll s h]
    intro r hr
    rw [(RowTable.mem_rowsOf.1 hr).2, decide_eq_false h, Bool.false_and]

/-- The rows of types that the property list gives. -/
def wantedUtis (info : Info) : List (Uti × (UtiTable → Multiset (List Text))) :=
  match info.exportedTypes with
  | none => []
  | some utis => wanted Uti.key (utis.filterMap Declaration.item)

theorem utiStore_iff (info : Info) (b : ℕ) (s : Store Uti UtiTable (List Text)) :
    ((utiStore info b s).contents b = ↑(wantedUtis info) ∧
        ∀ i c, (utiStore info b s).Orphan i c → s.Orphan i c) ↔ UtisFit info b s := by
  unfold utiStore wantedUtis UtisFit
  rcases info.exportedTypes with _ | utis
  · simp [Store.contents, Store.entries]
  · exact processUTIs_iff b utis s

theorem noNewOrphans_iff {α ι β : Type*} {s₀ s : Store α ι β} {roots₀ roots : List ℕ} {b : ℕ}
    (hroots : ∀ n, n ∈ roots ↔ n ∈ roots₀ ∨ n = b) (h : ∀ q, q ≠ b → s.attached q = s₀.attached q) :
    NoNewOrphans s₀ s roots₀ roots ↔ ∀ i c, s.Orphan i c → s₀.Orphan i c := by
  refine ⟨NoNewOrphans.child, fun hc => ⟨hc, fun r hr hp => ?_⟩⟩
  rw [hroots, not_or] at hp
  have hrows : s.parents.rowsOf r.parent = s₀.parents.rowsOf r.parent :=
    congrArg Prod.fst (h r.parent hp.2)
  exact ⟨(RowTable.mem_rowsOf.1 (hrows ▸ RowTable.mem_rowsOf.2 ⟨hr, rfl⟩)).1, hp.1⟩

/-- All rows that the property list gives. -/
def ownView (path identifier : Text) (info : Info) :
    Bundle × Multiset (Uti × (UtiTable → Multiset (List Text))) ×
      Multiset (AppDoc × (DocTable → Multiset Text)) × Multiset
        (URLType × (Unit → Multiset Text)) :=
  (info.row path identifier, ↑(wantedUtis info),
    ↑((info.documents.map DocumentType.item).map fun x => (x.1, fun i => (x.2 i : Multiset Text))),
    ↑((info.urlTypes.map URLDeclaration.item).map fun x => (x.1, fun i => (x.2 i : Multiset Text))))

theorem bundleTable_mem (path identifier : Text) (info : Info) (bundle : RowTable Bundle) :
    ∃ r ∈ (bundleTable path identifier info bundle).rows,
      r.data.path = path ∧ r.id = bundleIdOf path bundle := by
  rcases hf : bundle.rows.find? (fun r => r.data.path = path) with _ | r
  · rw [bundleTable, hf, bundleIdOf, hf]
    exact ⟨_, mem_append_right _ (mem_singleton_self _), rfl, rfl⟩
  · obtain ⟨hr, hp, he⟩ := bundleIdOf_mem hf
    rw [bundleTable, hf, he]
    exact ⟨_, mem_map_of_mem hr, (path_modify _ _ _).trans hp, Row.id_modify _ _ _⟩

section Mirror

variable {path identifier : Text} {info : Info} {db : Db} (hchg : Changed path info db)
  (hid : info.identifier = some identifier) (last : ℕ)

include hchg hid

theorem process_bundle :
    (process last path info db).bundle = bundleTable path identifier info db.bundle := by
  rw [process_eq hchg hid]

theorem process_uti :
    (process last path info db).uti = utiStore info (bundleIdOf path db.bundle) db.uti := by
  rw [process_eq hchg hid]

theorem process_appDoc :
    (process last path info db).appDoc = db.appDoc.refill (bundleIdOf path db.bundle)
      (info.documents.map DocumentType.item) := by
  rw [process_eq hchg hid]

theorem process_urlType :
    (process last path info db).urlType = db.urlType.refill (bundleIdOf path db.bundle)
      (info.urlTypes.map URLDeclaration.item) := by
  rw [process_eq hchg hid]

theorem mem_ids_process {n : ℕ} : n ∈ (process last path info db).bundle.ids ↔
      n ∈ db.bundle.ids ∨ n = bundleIdOf path db.bundle := by
  rw [process_bundle hchg hid, mem_ids_bundleTable]

theorem view_process_iff : (process last path info db).view path = {ownView path identifier info} ↔
      ((∀ r ∈ db.bundle.rows, r.data.path = path → r.data.bundleId = identifier) ∧
        ∀ r ∈ db.bundle.rows, r.data.path = path → r.id = bundleIdOf path db.bundle) ∧
      (process last path info db).uti.contents (bundleIdOf path db.bundle) = ↑(wantedUtis info) ∧
      (process last path info db).appDoc.contents (bundleIdOf path db.bundle) =
        ↑((info.documents.map DocumentType.item).map fun x =>
          (x.1, fun i => (x.2 i : Multiset Text))) ∧
      (process last path info db).urlType.contents (bundleIdOf path db.bundle) =
        ↑((info.urlTypes.map URLDeclaration.item).map fun x =>
          (x.1, fun i => (x.2 i : Multiset Text))) := by
  rw [Db.view, Multiset.coe_eq_singleton, map_eq_singleton_iff, process_bundle hchg hid,
    ← bundleTable_own_iff identifier info]
  simp only [ownView, Prod.mk.injEq]
  constructor
  · rintro ⟨r, hr, hdata, hutis, hdocs, hurls⟩
    obtain ⟨r', hr', hp', he'⟩ := bundleTable_mem path identifier info db.bundle
    have hid' : r.id = bundleIdOf path db.bundle := by
      have hmem : r' ∈ [r] := hr ▸ mem_filter.2 ⟨hr', by simpa using hp'⟩
      rw [← he', mem_singleton.1 hmem]
    rw [hid'] at hutis hdocs hurls
    exact ⟨⟨r, hr, hdata, hid'⟩, hutis, hdocs, hurls⟩
  · rintro ⟨⟨r, hr, hdata, hid'⟩, hutis, hdocs, hurls⟩
    refine ⟨r, hr, hdata, ?_⟩
    rw [hid']
    exact ⟨hutis, hdocs, hurls⟩

end Mirror

/-- In an empty database `process` leaves these rows. -/
theorem view_alone {path identifier : Text} (hid : info.identifier = some identifier) :
    (process 0 path info Db.empty).view path = {ownView path identifier info} := by
  have hchg : Changed path info Db.empty := fun r hr => nomatch hr
  rw [view_process_iff hchg hid]
  have hutis : UtisFit info (bundleIdOf path Db.empty.bundle) Db.empty.uti := by
    unfold UtisFit
    split
    · rfl
    · exact fun r hr => (not_mem_nil hr).elim
  refine ⟨⟨fun r hr => (not_mem_nil hr).elim, fun r hr => (not_mem_nil hr).elim⟩, ?_⟩
  rw [process_eq hchg hid]
  refine ⟨((utiStore_iff _ _ _).2 hutis).1, ?_, ?_⟩
  · exact ((refill_iff _ _ _).2 ⟨fun r hr => (not_mem_nil hr).elim, fun _ _ _ => rfl⟩).1
  · exact ((refill_iff _ _ _).2 ⟨fun r hr => (not_mem_nil hr).elim, fun _ _ _ => rfl⟩).1

/-- Without an identifier the bundle is not stored, or stored though its property list alone gives
nothing. -/
theorem not_mirrors_of_none {path : Text} {db : Db} (hchg : Changed path info db)
    (hid : info.identifier = none) (last : ℕ) :
    ¬Mirrors path info db (process last path info db) := by
  intro h
  rcases hf : db.bundle.rows.find? (fun r => r.data.path = path) with _ | r
  · obtain ⟨r, hr, hp⟩ := h.stored
    have hbundle : (process last path info db).bundle = db.bundle := by
      rw [process, setupBundleID, hf]
      simp [hid]
    rw [hbundle] at hr
    exact find?_eq_none.1 hf r hr (by simpa using hp)
  · have halone : (process 0 path info Db.empty).view path = 0 := by
      have : (process 0 path info Db.empty).bundle = RowTable.empty := by
        rw [process, setupBundleID, hid]
        rfl
      rw [Db.view, this]
      rfl
    have hown := h.own.trans halone
    obtain ⟨hr, hp, -⟩ := bundleIdOf_mem hf
    have hbundle : (process last path info db).bundle =
        db.bundle.update r.id fun b => info.row b.path b.bundleId := by
      rw [process, setupBundleID, hf]
      simp [if_neg (hchg r hf)]
    rw [Db.view, hbundle, filter_update r.id info fun p => p = path, Multiset.coe_eq_zero,
      map_eq_nil_iff, map_eq_nil_iff, filter_eq_nil_iff] at hown
    exact hown r hr (by simpa using hp)

section Mirror

variable {path identifier : Text} {info : Info} {db : Db} (hchg : Changed path info db)
  (hid : info.identifier = some identifier) (last : ℕ)

include hchg hid

theorem fits_of_mirrors (hm : Mirrors path info db (process last path info db)) :
    Fits path info db := by
  obtain ⟨⟨hident, hsingle⟩, hutis, hdocs, hurls⟩ :=
    (view_process_iff hchg hid last).1 (hm.own.trans (view_alone hid))
  have huti := hm.utiOrphans.child
  have hdoc := hm.docOrphans.child
  have hurl := hm.urlOrphans.child
  rw [process_uti hchg hid] at hutis huti
  rw [process_appDoc hchg hid] at hdocs hdoc
  rw [process_urlType hchg hid] at hurls hurl
  exact
    { identified := ⟨identifier, hid, hident⟩
      single := hsingle
      utis := (utiStore_iff _ _ _).1 ⟨hutis, huti⟩
      docs := by simpa only [length_map] using (refill_iff _ _ _).1 ⟨hdocs, hdoc⟩
      urls := by simpa only [length_map] using (refill_iff _ _ _).1 ⟨hurls, hurl⟩ }

theorem mirrors_of_fits (hf : Fits path info db) :
    Mirrors path info db (process last path info db) := by
  obtain ⟨_, hid', hident⟩ := hf.identified
  obtain rfl : identifier = _ := Option.some.inj (hid.symm.trans hid')
  obtain ⟨hutis, huti⟩ := (utiStore_iff _ _ _).2 hf.utis
  obtain ⟨hdocs, hdoc⟩ := (refill_iff _ (info.documents.map DocumentType.item) _).2
    (by simpa only [length_map] using hf.docs)
  obtain ⟨hurls, hurl⟩ := (refill_iff _ (info.urlTypes.map URLDeclaration.item) _).2
    (by simpa only [length_map] using hf.urls)
  rw [← process_uti hchg hid last] at hutis huti
  rw [← process_appDoc hchg hid last] at hdocs hdoc
  rw [← process_urlType hchg hid last] at hurls hurl
  have hattached : ∀ q, q ≠ bundleIdOf path db.bundle →
      (process last path info db).uti.attached q = db.uti.attached q ∧
      (process last path info db).appDoc.attached q = db.appDoc.attached q ∧
      (process last path info db).urlType.attached q = db.urlType.attached q := by
    intro q hq
    rw [process_uti hchg hid, process_appDoc hchg hid, process_urlType hchg hid]
    exact ⟨utiStore_attached info _ hq, Store.attached_refill _ hq _, Store.attached_refill _ hq _⟩
  have hroots : ∀ n, n ∈ (process last path info db).bundle.ids ↔
      n ∈ db.bundle.ids ∨ n = bundleIdOf path db.bundle := fun _ => mem_ids_process hchg hid last
  exact
    { stored := by
        obtain ⟨r, hr, hp, -⟩ := bundleTable_mem path identifier info db.bundle
        exact ⟨r, process_bundle hchg hid last ▸ hr, hp⟩
      own := ((view_process_iff hchg hid last).2 ⟨⟨hident, hf.single⟩, hutis, hdocs, hurls⟩).trans
        (view_alone hid).symm
      utiOrphans := (noNewOrphans_iff hroots fun q hq => (hattached q hq).1).2 huti
      docOrphans := (noNewOrphans_iff hroots fun q hq => (hattached q hq).2.1).2 hdoc
      urlOrphans := (noNewOrphans_iff hroots fun q hq => (hattached q hq).2.2).2 hurl
      bundles := process_bundle hchg hid last ▸ bundleTable_others identifier info
      others := fun r hr hp => hattached r.id (bundleIdOf_ne hr hp) }

end Mirror

/-- `process` makes the database mirror a changed bundle, and leaves no row without its parent,
exactly when the database fits: the row of the path, if there is one, has the identifier of the
bundle, the document types and URL types that are replaced have no child rows, and the stored types
are declared as they are stored or have no child rows. -/
theorem process_mirrors_iff (last : ℕ) (path : Text) (info : Info) (db : Db)
    (h : Changed path info db) :
    Mirrors path info db (process last path info db) ↔ Fits path info db := by
  rcases hid : info.identifier with _ | identifier
  · refine iff_of_false (not_mirrors_of_none h hid last) fun hf => ?_
    obtain ⟨_, hid', -⟩ := hf.identified
    rw [hid] at hid'
    cases hid'
  · exact ⟨fits_of_mirrors h hid last, mirrors_of_fits h hid last⟩

def samplePath : Text := ascii ['/', 'a']

def sampleInfo : Info where
  identifier := some (ascii ['a'])
  checksum := 1
  packageType := some (ascii ['A', 'P', 'P', 'L'])
  documentTypes := [{ extensions := [some (ascii ['t', 'x', 't'])] }]

def sampleInfo' : Info where
  identifier := some (ascii ['a'])
  checksum := 2
  packageType := some (ascii ['A', 'P', 'P', 'L'])

/-- The bundle without document types, beside another one that has some. -/
def sampleDb : Db :=
  process 0 samplePath sampleInfo' (process 0 (ascii ['/', 'b']) sampleInfo Db.empty)

theorem process_mirrors_new : Changed samplePath sampleInfo sampleDb ∧
      Mirrors samplePath sampleInfo sampleDb (process 0 samplePath sampleInfo sampleDb) := by
  have h : Changed samplePath sampleInfo sampleDb := by
    intro r hr
    obtain rfl := Option.some.inj hr
    decide
  refine ⟨h, (process_mirrors_iff 0 samplePath sampleInfo sampleDb h).2 ?_⟩
  exact
    { identified := ⟨_, rfl, by decide⟩
      single := by decide
      utis := rfl
      docs := ⟨fun _ hr => (not_mem_nil hr).elim, fun j hj i => by
        obtain rfl := Nat.lt_one_iff.1 hj
        cases i <;> rfl⟩
      urls := ⟨fun _ hr => (not_mem_nil hr).elim, fun _ hj => (Nat.not_lt_zero _ hj).elim⟩ }

/-- The extension of a document type that is gone stays behind. -/
theorem process_leaves_orphan :
    Changed samplePath sampleInfo' (process 0 samplePath sampleInfo Db.empty) ∧
      ¬Mirrors samplePath sampleInfo' (process 0 samplePath sampleInfo Db.empty)
        (process 0 samplePath sampleInfo' (process 0 samplePath sampleInfo Db.empty)) := by
  refine ⟨fun r hr => ?_, fun h => ?_⟩
  · obtain rfl := Option.some.inj hr
    decide
  · have ho := h.docOrphans.child .extension ⟨1, 1, ascii ['t', 'x', 't']⟩ ⟨by decide, by decide⟩
    exact ho.2 (by decide)

end Darling.LaunchServices
