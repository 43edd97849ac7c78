import Darling.LSInfo
import Darling.Proofs.LaunchServices
import Darling.Proofs.Sql

/-!
# Which applications are found by an extension

The query compares the row of an extension with the class of a document type where it should be the
row of the document type, and the part about roles names a table that is not there.  So an
application is found by its content types only, or by a class that happens to spell a row, and only
for all roles (`lookup_correct_iff`).
-/

namespace Darling.LaunchServices

open Records Sql
open List hiding product

def foundRow (r : Row Bundle) (d : Row AppDoc) : Found :=
  [(.bundle, .bundle, bundleRow r), (.AD, .appDoc, appDocRow d)]

section Conditions

variable (number : Text → Option ℤ) (db : Db) (e : Text) {r : Row Bundle} {d : Row AppDoc}

theorem equal_textValue {c : Collation} (t : Option Text) (s : Text) :
    equal number (textValue t, some ⟨.text, c⟩) (.text s, none) = true ↔
      ∃ u, t = some u ∧ sameText (some ⟨.text, c⟩) u s = true := by
  rcases t with _ | t
  · simp [textValue, not_equal_null]
  · simp [textValue, equal_literal]

theorem equal_integer_textValue {c c' : Collation} (n : ℕ) (t : Option Text) :
    equal number (.int n, some ⟨.integer, c⟩) (textValue t, some ⟨.text, c'⟩) = true ↔
      ∃ u, t = some u ∧ number u = some (n : ℤ) := by
  rcases t with _ | t
  · simp [textValue, equal, isInteger, Value.numeric]
  · simp [textValue, equal_integer_text]

theorem applications_eval : applications.eval number db.database [foundRow r d] = true ↔
      d.parent = r.id ∧ r.data.packageType = some APPL := by
  rw [applications, Cond.eval, Bool.and_eq_true]
  refine and_congr (equal_integers number d.parent r.id)
    ((equal_textValue number r.data.packageType APPL).trans ?_)
  simp [sameText_binary]

theorem byClass_eval : (byClass e).eval number db.database [foundRow r d] = true ↔
      ∃ c ∈ (db.appDoc.child .extension).rows, c.data = e ∧
        ∃ t, d.data.documentClass = some t ∧ number t = some (c.parent : ℤ) := by
  have hrows : db.database.rows SqlTable.appDocExtension =
      (db.appDoc.child .extension).rows.map appDocExtensionRow := rfl
  rw [byClass, Cond.eval, any_product_cons, hrows, any_map, any_eq_true]
  refine exists_congr fun c => and_congr_right fun _ => ?_
  rw [Function.comp, any_product_nil, Cond.eval, Bool.and_eq_true, and_comm]
  refine and_congr ?_ (equal_integer_textValue number c.parent d.data.documentClass)
  exact (iff_of_eq (congrArg (· = true) (equal_literal number c.data e))).trans
    (sameText_binary c.data e)

/-- The type has the extension as a tag. -/
def HasTag (t : Text) : Prop :=
  ∃ u ∈ db.uti.parents.rows, noCase u.data.typeIdentifier = noCase t ∧
    ∃ c ∈ (db.uti.child .tag).rows, c.parent = u.id ∧ c.data[0]? = some filenameExtension ∧
      ∃ v, c.data[1]? = some v ∧ noCase v = noCase e

theorem taggedType_eval (a : Row Text) (u : Row Uti) (t : Row (List Text)) :
    (taggedType e).eval number db.database [[(.AU, .appDocUti, appDocUtiRow a),
        (.uti, .uti, utiRow u), (.UT, .utiTag, utiTagRow t)], foundRow r d] = true ↔
      noCase u.data.typeIdentifier = noCase a.data ∧ t.parent = u.id ∧ a.parent = d.id ∧
        t.data[0]? = some filenameExtension ∧ ∃ v, t.data[1]? = some v ∧ noCase v = noCase e := by
  simp only [taggedType, Cond.eval, Bool.and_eq_true]
  refine and_congr ?_ (and_congr (equal_integers number _ _) (and_congr
    (equal_integers number _ _) (and_congr ?_ ?_)))
  · exact (iff_of_eq (congrArg (· = true) (equal_texts number _ _))).trans (sameText_noCase _ _)
  · exact (equal_textValue number t.data[0]? filenameExtension).trans
      (by simp [sameText_binary])
  · exact (equal_textValue number t.data[1]? e).trans (by simp [sameText_noCase])

theorem byType_eval : (byType e).eval number db.database [foundRow r d] = true ↔
      ∃ c ∈ (db.appDoc.child .uti).rows, c.parent = d.id ∧ HasTag db e c.data := by
  have hutis : db.database.rows SqlTable.appDocUti =
      (db.appDoc.child .uti).rows.map appDocUtiRow := rfl
  have huti : db.database.rows SqlTable.uti = db.uti.parents.rows.map utiRow := rfl
  have htag : db.database.rows SqlTable.utiTag = (db.uti.child .tag).rows.map utiTagRow := rfl
  rw [byType, Cond.eval]
  simp only [any_product_cons, any_product_nil, hutis, huti, htag, any_map, any_eq_true,
    Function.comp_apply, taggedType_eval, HasTag]
  constructor
  · rintro ⟨a, ha, u, hu, t, ht, hkey, hp, hd, h0, h1⟩
    exact ⟨a, ha, hd, u, hu, hkey, t, ht, hp, h0, h1⟩
  · rintro ⟨a, ha, hd, u, hu, hkey, t, ht, hp, h0, h1⟩
    exact ⟨a, ha, u, hu, t, ht, hkey, hp, hd, h0, h1⟩

end Conditions

section Answers

variable (number : Text → Option ℤ) (db : Db) (e : Text)

/-- The joined rows that the query by extension finds. -/
def Matches (r : Row Bundle) (d : Row AppDoc) : Prop :=
  (d.parent = r.id ∧ r.data.packageType = some APPL) ∧
    ((∃ c ∈ (db.appDoc.child .extension).rows, c.data = e ∧
        ∃ t, d.data.documentClass = some t ∧ number t = some (c.parent : ℤ)) ∨
      ∃ c ∈ (db.appDoc.child .uti).rows, c.parent = d.id ∧ HasTag db e c.data)

theorem query_extension (mask : LSRolesMask) :
    query none none (some e) mask = if 0 ∈ e then none else
      if mask = kLSRolesAll then some (.and applications (.or (byClass e) (byType e)))
      else some (.and (.and applications (.or (byClass e) (byType e))) (inRoles mask)) := by
  have hq : quoted e = if 0 ∈ e then none else some e := literal_escape e
  rw [query, andText, hq]
  by_cases h0 : 0 ∈ e
  · rw [if_pos h0, if_pos h0]
    rfl
  · rw [if_neg h0, if_neg h0]
    by_cases hm : mask = kLSRolesAll <;> simp [andText, hm]

theorem select_inRoles (c : Condition) (mask : LSRolesMask) :
    select number db.database joined (.and c (inRoles mask)) = none := by
  have h : (inRoles mask).resolves db.database.column [scopeOf joined] = false := rfl
  rw [select, Cond.resolves, h, Bool.and_false]
  rfl

theorem mem_product_joined {row : Found} : row ∈ product db.database joined ↔
      ∃ r ∈ db.bundle.rows, ∃ d ∈ db.appDoc.parents.rows, row = foundRow r d := by
  have hb : db.database.rows SqlTable.bundle = db.bundle.rows.map bundleRow := rfl
  have hd : db.database.rows SqlTable.appDoc = db.appDoc.parents.rows.map appDocRow := rfl
  simp only [joined, product, hb, hd, mem_flatMap, mem_map, map_cons, map_nil,
    mem_singleton, exists_exists_and_eq_and, foundRow]
  constructor
  · rintro ⟨r, hr, _, ⟨d, hd, rfl⟩, rfl⟩
    exact ⟨r, hr, d, hd, rfl⟩
  · rintro ⟨r, hr, d, hd, rfl⟩
    exact ⟨r, hr, _, ⟨d, hd, rfl⟩, rfl⟩

theorem select_extension : ∃ rows, select number db.database joined
        (.and applications (.or (byClass e) (byType e))) = some rows ∧
      ∀ row, row ∈ rows ↔ ∃ r ∈ db.bundle.rows, ∃ d ∈ db.appDoc.parents.rows,
        Matches number db e r d ∧ row = foundRow r d := by
  refine ⟨_, if_pos rfl, fun row => ?_⟩
  rw [mem_filter, mem_product_joined]
  constructor
  · rintro ⟨⟨r, hr, d, hd, rfl⟩, h⟩
    rw [Cond.eval, Bool.and_eq_true, Cond.eval, Bool.or_eq_true, applications_eval, byClass_eval,
      byType_eval] at h
    exact ⟨r, hr, d, hd, h, rfl⟩
  · rintro ⟨r, hr, d, hd, h, rfl⟩
    refine ⟨⟨r, hr, d, hd, rfl⟩, ?_⟩
    rw [Cond.eval, Bool.and_eq_true, Cond.eval, Bool.or_eq_true, applications_eval, byClass_eval,
      byType_eval]
    exact h

theorem mem_answers {rows : List Found} {st : Answer} :
    st ∈ answers db rows ↔ rows = [] ∧ st = .kLSApplicationNotFoundErr ∨
      ∃ r ∈ rows, (∀ r' ∈ rows, r.rank db ≤ r'.rank db) ∧ st = .noErr (r.path db) := by
  unfold answers
  split_ifs with h
  · simp [h]
  · simp [h, mem_filter, all_eq_true, and_assoc, eq_comm (b := st)]

end Answers

/-- The row and its document types are those of the bundle. -/
structure Stands (db : Db) (r : Row Bundle) (b : Text × Info) : Prop where
  path : r.data.path = b.1
  packageType : r.data.packageType = b.2.packageType
  docs : db.appDoc.contents r.id =
    ↑((b.2.documents.map DocumentType.item).map fun x => (x.1, fun i => (x.2 i : Multiset Text)))

/-- The database has the bundles, and nothing else. -/
structure Holds (bundles : List (Text × Info)) (db : Db) : Prop where
  sound : ∀ r ∈ db.bundle.rows, ∃ b ∈ bundles, Stands db r b
  complete : ∀ b ∈ bundles, ∃ r ∈ db.bundle.rows, Stands db r b
  children : ∀ i c, ¬db.appDoc.Orphan i c
  docs : ∀ d ∈ db.appDoc.parents.rows, d.parent ∈ db.bundle.ids

theorem holds_empty : Holds [] Db.empty where
  sound _ hr := (not_mem_nil hr).elim
  complete _ hb := (not_mem_nil hb).elim
  children _ _ hc := not_mem_nil hc.1
  docs _ hd := (not_mem_nil hd).elim

section Fresh

variable {bundles : List (Text × Info)} {db : Db} (h : Holds bundles db) {path : Text}
  (hpath : path ∉ bundles.map Prod.fst) {info : Info} {identifier : Text}
  (hid : info.identifier = some identifier) (last : ℕ)

include h hpath

theorem Holds.find?_eq_none : db.bundle.rows.find? (·.data.path = path) = none := by
  refine List.find?_eq_none.2 fun r hr hp => hpath ?_
  obtain ⟨b, hb, hs⟩ := h.sound r hr
  exact mem_map.2 ⟨b, hb, hs.path.symm.trans (by simpa using hp)⟩

theorem Holds.bundleIdOf_eq : bundleIdOf path db.bundle = db.bundle.next := by
  rw [bundleIdOf, h.find?_eq_none hpath]

theorem Holds.changed : Changed path info db := by
  intro r hr
  rw [h.find?_eq_none hpath] at hr
  cases hr

include hid

theorem Holds.rows_process : (process last path info db).bundle.rows =
    db.bundle.rows ++ [⟨db.bundle.next, 0, info.row path identifier⟩] := by
  rw [process_bundle (h.changed hpath) hid, bundleTable, h.find?_eq_none hpath,
    RowTable.rows_insert]

theorem Holds.appDoc_process : (process last path info db).appDoc =
    db.appDoc.refill db.bundle.next (info.documents.map DocumentType.item) := by
  rw [process_appDoc (h.changed hpath) hid, h.bundleIdOf_eq hpath]

theorem Holds.attached_process {q : ℕ} (hq : q ≠ db.bundle.next) :
    (process last path info db).appDoc.attached q = db.appDoc.attached q := by
  rw [h.appDoc_process hpath hid, Store.attached_refill _ hq]

theorem Holds.stands_process {r : Row Bundle} (hr : r ∈ db.bundle.rows) {b : Text × Info}
    (hs : Stands db r b) : Stands (process last path info db) r b := by
  refine ⟨hs.path, hs.packageType, ?_⟩
  rw [Store.contents_eq_of_attached (h.attached_process hpath hid last (RowTable.ne_next hr)),
    hs.docs]

theorem Holds.stands_new : Stands (process last path info db)
    ⟨db.bundle.next, 0, info.row path identifier⟩ (path, info) := by
  refine ⟨rfl, rfl, ?_⟩
  rw [h.appDoc_process hpath hid, Store.contents_refill_iff]
  intro j _ i
  refine Store.kids_eq_zero_iff.2 fun c hc hp => h.children i c ⟨hc, fun hm => ?_⟩
  obtain ⟨d, hd, hd'⟩ := RowTable.mem_ids.1 hm
  have hle := db.appDoc.parents.le_seq d hd
  have hnext : db.appDoc.parents.next = db.appDoc.parents.seq + 1 := rfl
  omega

theorem Holds.orphan_process (i : DocTable) (c : Row Text)
    (hc : (process last path info db).appDoc.Orphan i c) : db.appDoc.Orphan i c := by
  rw [h.appDoc_process hpath hid] at hc
  refine (Store.orphan_refill_iff _ _ _).2 (fun d hd => ?_) i c hc
  obtain ⟨hd, hp⟩ := RowTable.mem_rowsOf.1 hd
  exact absurd (hp ▸ h.docs d hd) (RowTable.next_notMem _)

theorem Holds.add : Holds (bundles ++ [(path, info)]) (process last path info db) where
  sound := by
    intro r hr
    rcases mem_append.1 (h.rows_process hpath hid last ▸ hr) with hr | hr
    · obtain ⟨b, hb, hs⟩ := h.sound r hr
      exact ⟨b, mem_append_left _ hb, h.stands_process hpath hid last hr hs⟩
    · rw [mem_singleton.1 hr]
      exact ⟨_, mem_append_right _ (mem_singleton_self _), h.stands_new hpath hid last⟩
  complete := by
    intro b hb
    rw [h.rows_process hpath hid]
    rcases mem_append.1 hb with hb | hb
    · obtain ⟨r, hr, hs⟩ := h.complete b hb
      exact ⟨r, mem_append_left _ hr, h.stands_process hpath hid last hr hs⟩
    · rw [mem_singleton.1 hb]
      exact ⟨_, mem_append_right _ (mem_singleton_self _), h.stands_new hpath hid last⟩
  children i c hc := h.children i c (h.orphan_process hpath hid last i c hc)
  docs := by
    intro d hd
    by_contra hp
    have hroots : ∀ n, n ∈ (process last path info db).bundle.ids ↔
        n ∈ db.bundle.ids ∨ n = db.bundle.next := by
      intro n
      rw [mem_ids_process (h.changed hpath) hid last, h.bundleIdOf_eq hpath]
    have horphans := (noNewOrphans_iff hroots fun q hq => h.attached_process hpath hid last hq).2
      (h.orphan_process hpath hid last)
    obtain ⟨hd, hp⟩ := horphans.parents d hd hp
    exact hp (h.docs d hd)

end Fresh

theorem Registry.holds (reg : Registry) : Holds reg.bundles reg.database := by
  have hrun : ∀ (todo done : List (Text × Info)) (db : Db), Holds done db →
      ((done ++ todo).map Prod.fst).Nodup → (∀ b ∈ todo, b.2.identifier.isSome) →
      Holds (done ++ todo) (todo.foldl (fun db b => process 0 b.1 b.2 db) db) := by
    intro todo
    induction todo with
    | nil =>
      intro done db h _ _
      rwa [append_nil]
    | cons b todo ih =>
      intro done db h hnd hid
      obtain ⟨identifier, hident⟩ := Option.isSome_iff_exists.1 (hid b mem_cons_self)
      rw [append_cons] at hnd ⊢
      refine ih _ _ (h.add ?_ hident 0) hnd fun b' hb' => hid b' (mem_cons_of_mem _ hb')
      rw [append_assoc, map_append, nodup_append] at hnd
      exact fun hm => hnd.2.2 _ hm _ (by simp) rfl
  exact hrun reg.bundles [] Db.empty holds_empty reg.paths reg.identified

theorem Holds.exists_iff {bundles : List (Text × Info)} {db : Db} (h : Holds bundles db)
    (P : Text → Option Text → AppDoc → (DocTable → Multiset Text) → Prop) :
    (∃ r ∈ db.bundle.rows, ∃ d ∈ db.appDoc.parents.rows, d.parent = r.id ∧
        P r.data.path r.data.packageType d.data (db.appDoc.kids d.id)) ↔
      ∃ b ∈ bundles, ∃ d ∈ b.2.documents,
        P b.1 b.2.packageType d.row fun i => (d.children i : Multiset Text) := by
  constructor
  · rintro ⟨r, hr, d, hd, hp, hP⟩
    obtain ⟨b, hb, hs⟩ := h.sound r hr
    have hmem := (Store.mem_contents _).2 ⟨d, hd, hp, rfl⟩
    rw [hs.docs, Multiset.mem_coe, map_map, mem_map] at hmem
    obtain ⟨d', hd', he⟩ := hmem
    obtain ⟨hrow, hkids⟩ := Prod.mk.inj he
    rw [hs.path, hs.packageType, ← hrow, ← hkids] at hP
    exact ⟨b, hb, d', hd', hP⟩
  · rintro ⟨b, hb, d, hd, hP⟩
    obtain ⟨r, hr, hs⟩ := h.complete b hb
    have hmem : (d.row, fun i => (d.children i : Multiset Text)) ∈ db.appDoc.contents r.id := by
      rw [hs.docs, Multiset.mem_coe, map_map, mem_map]
      exact ⟨d, hd, rfl⟩
    obtain ⟨d', hd', hp, he⟩ := (Store.mem_contents _).1 hmem
    obtain ⟨hrow, hkids⟩ := Prod.mk.inj he
    refine ⟨r, hr, d', hd', hp, ?_⟩
    rw [hs.path, hs.packageType, hrow, hkids]
    exact hP

/-- The document type has one of the roles asked for. -/
def HasRole (mask : LSRolesMask) (d : DocumentType) : Prop :=
  mask = kLSRolesAll ∨ ∃ r ∈ roleTexts, mask &&& r.1 ≠ 0 ∧ d.role.getD roleNone = r.2

/-- By a content type with this extension. -/
def TypeMatches (reg : Registry) (e : Text) (d : DocumentType) : Prop :=
  ∃ types, d.contentTypes = some types ∧ ∃ t, some t ∈ types ∧ HasTag reg.database e t

/-- By a class that spells the number of a row. -/
def ClassMatches (number : Text → Option ℤ) (reg : Registry) (e : Text) (d : DocumentType) : Prop :=
  ∃ c ∈ (reg.database.appDoc.child .extension).rows, c.data = e ∧
    ∃ t, d.documentClass = some t ∧ number t = some (c.parent : ℤ)

/-- An application at the path should open files with the extension, with this rank. -/
def Wanted (reg : Registry) (e : Text) (mask : LSRolesMask) (path : Text) (rank : ℕ) : Prop :=
  ∃ b ∈ reg.bundles, ∃ d ∈ b.2.documents, b.1 = path ∧ b.2.packageType = some APPL ∧
    rankOrder (textValue d.row.rank) = rank ∧ HasRole mask d ∧
      (d.contentTypes = none ∧ some e ∈ d.extensions ∨ TypeMatches reg e d)

/-- What the query selects. -/
def Selected (number : Text → Option ℤ) (reg : Registry) (e : Text) (path : Text) (rank : ℕ) :
    Prop :=
  ∃ b ∈ reg.bundles, ∃ d ∈ b.2.documents, b.1 = path ∧ b.2.packageType = some APPL ∧
    rankOrder (textValue d.row.rank) = rank ∧ (ClassMatches number reg e d ∨ TypeMatches reg e d)

/-- A path of the best rank. -/
def Best (S : Text → ℕ → Prop) (path : Text) : Prop :=
  ∃ rank, S path rank ∧ ∀ path' rank', S path' rank' → rank ≤ rank'

/-- An application is returned exactly if there is one that is wanted, and it is one of the best. -/
def Correct (reg : Registry) (e : Text) (mask : LSRolesMask) : Answer → Prop
  | .noErr path => Best (Wanted reg e mask) path
  | .kLSApplicationNotFoundErr => ¬∃ path rank, Wanted reg e mask path rank
  | .paramErr => False

section

variable (number : Text → Option ℤ)

theorem selected_iff (reg : Registry) (e path : Text) (rank : ℕ) : Selected number reg e path rank ↔
      ∃ r ∈ reg.database.bundle.rows, ∃ d ∈ reg.database.appDoc.parents.rows,
        Matches number reg.database e r d ∧ r.data.path = path ∧
          rankOrder (textValue d.data.rank) = rank := by
  have htypes : ∀ d : DocumentType, TypeMatches reg e d ↔
      ∃ t ∈ (d.children .uti : Multiset Text), HasTag reg.database e t := by
    intro d
    rcases hc : d.contentTypes with _ | types <;>
      simp [TypeMatches, DocumentType.children, hc]
  have hiff := reg.holds.exists_iff fun p t a k => p = path ∧ t = some APPL ∧
    rankOrder (textValue a.rank) = rank ∧
      ((∃ c ∈ (reg.database.appDoc.child .extension).rows, c.data = e ∧
          ∃ t, a.documentClass = some t ∧ number t = some (c.parent : ℤ)) ∨
        ∃ t ∈ k .uti, HasTag reg.database e t)
  simp only [Selected, ClassMatches, htypes]
  refine hiff.symm.trans (exists_congr fun r => and_congr_right fun _ => exists_congr fun d =>
    and_congr_right fun _ => ?_)
  have huti : (∃ t ∈ reg.database.appDoc.kids d.id .uti, HasTag reg.database e t) ↔
      ∃ c ∈ (reg.database.appDoc.child .uti).rows, c.parent = d.id ∧
        HasTag reg.database e c.data := by
    simp only [Store.mem_kids]
    constructor
    · rintro ⟨_, ⟨c, hc, hp, rfl⟩, ht⟩
      exact ⟨c, hc, hp, ht⟩
    · rintro ⟨c, hc, hp, ht⟩
      exact ⟨_, ⟨c, hc, hp, rfl⟩, ht⟩
  rw [huti]
  constructor
  · rintro ⟨hparent, hp, ht, hk, hm⟩
    exact ⟨⟨⟨hparent, ht⟩, hm⟩, hp, hk⟩
  · rintro ⟨⟨⟨hparent, ht⟩, hm⟩, hp, hk⟩
    exact ⟨hparent, hp, ht, hk, hm⟩

theorem mem_LSGetApplicationForInfo (reg : Registry) {e : Text} (h0 : 0 ∉ e) {st : Answer} :
    st ∈ LSGetApplicationForInfo number reg.database none none (some e) kLSRolesAll ↔
      (¬∃ path rank, Selected number reg e path rank) ∧ st = .kLSApplicationNotFoundErr ∨
        ∃ path, Best (Selected number reg e) path ∧ st = .noErr path := by
  obtain ⟨rows, hrows, hmem⟩ := select_extension number reg.database e
  have hget : LSGetApplicationForInfo number reg.database none none (some e) kLSRolesAll =
      answers reg.database rows := by
    rw [LSGetApplicationForInfo, if_neg (by simp), query_extension, if_neg h0, if_pos rfl,
      Option.bind_some, hrows]
  have hsel : ∀ path rank, Selected number reg e path rank ↔
      ∃ row ∈ rows, Found.path reg.database row = path ∧ Found.rank reg.database row = rank := by
    intro path rank
    rw [selected_iff]
    simp only [hmem]
    constructor
    · rintro ⟨r, hr, d, hd, hm, hp, hk⟩
      exact ⟨_, ⟨r, hr, d, hd, hm, rfl⟩, hp, hk⟩
    · rintro ⟨_, ⟨r, hr, d, hd, hm, rfl⟩, hp, hk⟩
      exact ⟨r, hr, d, hd, hm, hp, hk⟩
  rw [hget, mem_answers]
  refine or_congr (and_congr_left fun _ => ?_) ?_
  · rw [eq_nil_iff_forall_not_mem]
    constructor
    · rintro h ⟨path, rank, hs⟩
      obtain ⟨row, hrow, -⟩ := (hsel path rank).1 hs
      exact h row hrow
    · exact fun h row hrow => h ⟨_, _, (hsel _ _).2 ⟨row, hrow, rfl, rfl⟩⟩
  · constructor
    · rintro ⟨row, hrow, hbest, rfl⟩
      refine ⟨_, ⟨_, (hsel _ _).2 ⟨row, hrow, rfl, rfl⟩, fun path' rank' hs => ?_⟩, rfl⟩
      obtain ⟨row', hrow', -, rfl⟩ := (hsel path' rank').1 hs
      exact hbest row' hrow'
    · rintro ⟨path, ⟨rank, hs, hbest⟩, rfl⟩
      obtain ⟨row, hrow, rfl, rfl⟩ := (hsel path rank).1 hs
      exact ⟨row, hrow, fun row' hrow' => hbest _ _ ((hsel _ _).2 ⟨row', hrow', rfl, rfl⟩), rfl⟩

theorem LSGetApplicationForInfo_fails (db : Db) {e : Text} {mask : LSRolesMask}
    (h : ¬(mask = kLSRolesAll ∧ 0 ∉ e)) :
    LSGetApplicationForInfo number db none none (some e) mask = [.kLSApplicationNotFoundErr] := by
  rw [LSGetApplicationForInfo, if_neg (by simp), query_extension]
  by_cases h0 : 0 ∈ e
  · rw [if_pos h0, Option.bind_none]
  · rw [if_neg h0, if_neg fun hm => h ⟨hm, h0⟩, Option.bind_some, select_inRoles]

end

/-- Looking an application up by extension answers correctly, for all roles, exactly when the best
of the applications whose content types or whose class match are the best of those that are wanted;
with certain roles only, or with a zero in the extension, exactly when none is wanted. -/
theorem lookup_correct_iff (number : Text → Option ℤ) (reg : Registry) (e : Text)
    (mask : LSRolesMask) :
    (∀ st ∈ LSGetApplicationForInfo number reg.database none none (some e) mask,
        Correct reg e mask st) ↔
      if mask = kLSRolesAll ∧ 0 ∉ e then
        (∀ path, Best (Selected number reg e) path → Best (Wanted reg e mask) path) ∧
          ((¬∃ path rank, Selected number reg e path rank) →
            ¬∃ path rank, Wanted reg e mask path rank)
      else ¬∃ path rank, Wanted reg e mask path rank := by
  by_cases h : mask = kLSRolesAll ∧ 0 ∉ e
  · obtain ⟨rfl, h0⟩ := h
    rw [if_pos ⟨rfl, h0⟩]
    simp only [mem_LSGetApplicationForInfo number reg h0]
    constructor
    · intro h
      exact ⟨fun path hb => h _ (.inr ⟨path, hb, rfl⟩), fun hn => h _ (.inl ⟨hn, rfl⟩)⟩
    · rintro ⟨hbest, hnone⟩ _ (⟨hn, rfl⟩ | ⟨path, hb, rfl⟩)
      · exact hnone hn
      · exact hbest path hb
  · rw [if_neg h, LSGetApplicationForInfo_fails number _ h]
    simp [Correct]

def sampleRegistry : Registry where
  bundles := [(samplePath, sampleInfo)]
  paths := List.nodup_singleton _
  identified := by decide

theorem lookup_misses : Answer.kLSApplicationNotFoundErr ∈ LSGetApplicationForInfo (fun _ => none)
        sampleRegistry.database none none (some (ascii ['t', 'x', 't'])) kLSRolesAll ∧
      ¬Correct sampleRegistry (ascii ['t', 'x', 't']) kLSRolesAll .kLSApplicationNotFoundErr := by
  refine ⟨by decide, fun h => h ⟨samplePath, 2, ?_⟩⟩
  exact ⟨_, List.mem_singleton_self _, _, List.mem_singleton_self _, rfl, rfl, by decide, .inl rfl,
    .inl ⟨rfl, List.mem_singleton_self _⟩⟩

end Darling.LaunchServices
