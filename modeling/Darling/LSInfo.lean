import Darling.LaunchServices

/-!
# Looking up applications

`LSGetApplicationForInfo` puts a query together from the arguments it is given, and asks the
LaunchServices database.  The query is given here as the condition that its text spells; in the text
each table is named as here.
-/

namespace Darling.LaunchServices

open Records Sql

inductive SqlTable where
  | bundle
  | appDoc
  | appDocUti
  | appDocExtension
  | uti
  | utiTag
deriving DecidableEq, Repr

inductive SqlColumn where
  | id
  | path
  | packageType
  | creator
  | signature
  | bundle
  | role
  | rank
  | documentClass
  | doc
  | extension
  | uti
  | typeIdentifier
  | tag
  | value
deriving DecidableEq, Repr

inductive SqlName where
  | bundle
  | appDoc
  | uti
  | A
  | AD
  | AE
  | AU
  | UT
deriving DecidableEq, Repr

def sqlColumn : SqlTable → SqlColumn → Option Column
  | .bundle, .id => some ⟨.integer, .binary⟩
  | .bundle, .path | .bundle, .packageType | .bundle, .creator | .bundle, .signature =>
    some ⟨.text, .binary⟩
  | .appDoc, .id | .appDoc, .bundle => some ⟨.integer, .binary⟩
  | .appDoc, .role | .appDoc, .rank | .appDoc, .documentClass => some ⟨.text, .binary⟩
  | .appDocUti, .id | .appDocUti, .doc => some ⟨.integer, .binary⟩
  | .appDocUti, .uti => some ⟨.text, .binary⟩
  | .appDocExtension, .id | .appDocExtension, .doc => some ⟨.integer, .binary⟩
  | .appDocExtension, .extension => some ⟨.text, .binary⟩
  | .uti, .id | .uti, .bundle => some ⟨.integer, .binary⟩
  | .uti, .typeIdentifier => some ⟨.text, .noCase⟩
  | .utiTag, .id | .utiTag, .uti => some ⟨.integer, .binary⟩
  | .utiTag, .tag => some ⟨.text, .binary⟩
  | .utiTag, .value => some ⟨.text, .noCase⟩
  | _, _ => none

def textValue (t : Option Text) : Value := (t.map Value.text).getD .null

def bundleRow (r : Row Bundle) : SqlColumn → Value
  | .id => .int r.id
  | .path => .text r.data.path
  | .packageType => textValue r.data.packageType
  | .creator => textValue r.data.creator
  | .signature => textValue r.data.signature
  | _ => .null

def appDocRow (r : Row AppDoc) : SqlColumn → Value
  | .id => .int r.id
  | .bundle => .int r.parent
  | .role => textValue r.data.role
  | .rank => textValue r.data.rank
  | .documentClass => textValue r.data.documentClass
  | _ => .null

def appDocUtiRow (r : Row Text) : SqlColumn → Value
  | .id => .int r.id
  | .doc => .int r.parent
  | .uti => .text r.data
  | _ => .null

def appDocExtensionRow (r : Row Text) : SqlColumn → Value
  | .id => .int r.id
  | .doc => .int r.parent
  | .extension => .text r.data
  | _ => .null

def utiRow (r : Row Uti) : SqlColumn → Value
  | .id => .int r.id
  | .bundle => .int r.parent
  | .typeIdentifier => .text r.data.typeIdentifier
  | _ => .null

def utiTagRow (r : Row (List Text)) : SqlColumn → Value
  | .id => .int r.id
  | .uti => .int r.parent
  | .tag => textValue r.data[0]?
  | .value => textValue r.data[1]?
  | _ => .null

def Db.database (db : Db) : Database SqlTable SqlColumn where
  column := sqlColumn
  rows
    | .bundle => db.bundle.rows.map bundleRow
    | .appDoc => db.appDoc.parents.rows.map appDocRow
    | .appDocUti => (db.appDoc.child .uti).rows.map appDocUtiRow
    | .appDocExtension => (db.appDoc.child .extension).rows.map appDocExtensionRow
    | .uti => db.uti.parents.rows.map utiRow
    | .utiTag => (db.uti.child .tag).rows.map utiTagRow

abbrev LSRolesMask := UInt32

def kLSRolesNone : LSRolesMask := 1

def kLSRolesViewer : LSRolesMask := 2

def kLSRolesEditor : LSRolesMask := 4

def kLSRolesShell : LSRolesMask := 8

def kLSRolesAll : LSRolesMask := 0xFFFFFFFF

def roleTexts : List (LSRolesMask × Text) :=
  [(kLSRolesNone, roleNone),
    (kLSRolesViewer, ascii ['V', 'i', 'e', 'w', 'e', 'r']),
    (kLSRolesEditor, ascii ['E', 'd', 'i', 't', 'o', 'r']),
    (kLSRolesShell, ascii ['S', 'h', 'e', 'l', 'l'])]

def roleSQLArray (mask : LSRolesMask) : List Text :=
  (roleTexts.filter fun r => mask &&& r.1 ≠ 0).map Prod.snd

def col (table : SqlName) (column : SqlColumn) : Operand SqlName SqlColumn :=
  .column ⟨some table, column⟩

def APPL : Text := ascii ['A', 'P', 'P', 'L']

def filenameExtension : Text :=
  ascii ['p', 'u', 'b', 'l', 'i', 'c', '.', 'f', 'i', 'l', 'e', 'n', 'a', 'm', 'e', '-', 'e', 'x',
    't', 'e', 'n', 's', 'i', 'o', 'n']

abbrev Condition := Cond SqlName SqlTable SqlColumn

def joined : List (SqlName × SqlTable) := [(.bundle, .bundle), (.AD, .appDoc)]

def applications : Condition :=
  .and (.eq (col .AD .bundle) (col .bundle .id)) (.eq (col .bundle .packageType) (.literal APPL))

/-- `EXISTS (SELECT * FROM app_doc_extension AE WHERE AE.doc=AD.class AND AE.extension = '%@')`. -/
def byClass (extension : Text) : Condition :=
  .existsIn [(.AE, .appDocExtension)]
    (.and (.eq (col .AE .doc) (col .AD .documentClass))
      (.eq (col .AE .extension) (.literal extension)))

/-- `uti.type_identifier = AU.uti`, `UT.uti=uti.id` and `AU.doc=AD.id AND
UT.tag = 'public.filename-extension' AND UT.value='%@'`. -/
def taggedType (extension : Text) : Condition :=
  .and (.eq (col .uti .typeIdentifier) (col .AU .uti))
    (.and (.eq (col .UT .uti) (col .uti .id))
      (.and (.eq (col .AU .doc) (col .AD .id))
        (.and (.eq (col .UT .tag) (.literal filenameExtension))
          (.eq (col .UT .value) (.literal extension)))))

/-- `EXISTS (SELECT * FROM app_doc_uti AU JOIN uti ON .. JOIN uti_tag UT ON .. WHERE ..)`. -/
def byType (extension : Text) : Condition :=
  .existsIn [(.AU, .appDocUti), (.uti, .uti), (.UT, .utiTag)] (taggedType extension)

/-- `id IN (SELECT A.bundle FROM app_doc WHERE role IN (%@))`. -/
def inRoles (mask : LSRolesMask) : Condition :=
  .inSelect (.column ⟨none, .id⟩) ⟨some .A, .bundle⟩ [(.appDoc, .appDoc)]
    (.inTexts (.column ⟨none, .role⟩) (roleSQLArray mask))

def quoted (s : Text) : Option Text := literal (escape s ++ [quote])

def andText (f : Text → Condition) (t : Option Text) (c : Condition) : Option Condition :=
  match t with
  | none => some c
  | some s => (quoted s).map fun q => .and c (f q)

def query (inType inCreator inExtension : Option Text) (mask : LSRolesMask) : Option Condition := do
  let c ← andText (fun e => .or (byClass e) (byType e)) inExtension applications
  let c ← andText (fun t => .eq (.column ⟨none, .signature⟩) (.literal t)) inType c
  let c ← andText (fun t => .eq (.column ⟨none, .creator⟩) (.literal t)) inCreator c
  return if mask ≠ kLSRolesAll then .and c (inRoles mask) else c

inductive Answer where
  | paramErr
  | kLSApplicationNotFoundErr
  | noErr (path : Text)
deriving DecidableEq, Repr

def rankOwner : Text := ascii ['O', 'w', 'n', 'e', 'r']

def rankAlternate : Text := ascii ['A', 'l', 't', 'e', 'r', 'n', 'a', 't', 'e']

/-- `case when AD.rank='Owner' then 1 when AD.rank='Default' then 2 when AD.rank='Alternate' then 3
else 5 end`. -/
def rankOrder (rank : Value) : ℕ :=
  if rank = .text rankOwner then 1
  else if rank = .text rankDefault then 2
  else if rank = .text rankAlternate then 3
  else 5

abbrev Found := Scope SqlName SqlTable (SqlColumn → Value)

def Found.rank (db : Db) (row : Found) : ℕ := rankOrder ((col .AD .rank).value db.database [row]).1

def Found.path (db : Db) (row : Found) : Text :=
  match ((.column ⟨none, .path⟩ : Operand SqlName SqlColumn).value db.database [row]).1 with
  | .text path => path
  | _ => []

def answers (db : Db) (rows : List Found) : List Answer :=
  if rows = [] then [.kLSApplicationNotFoundErr]
  else (rows.filter fun r => rows.all fun r' => r.rank db ≤ r'.rank db).map fun r =>
    .noErr (r.path db)

def LSGetApplicationForInfo (number : Text → Option ℤ) (db : Db)
    (inType inCreator inExtension : Option Text) (mask : LSRolesMask) : List Answer :=
  if inType = none ∧ inCreator = none ∧ inExtension = none then [.paramErr]
  else
    match (query inType inCreator inExtension mask).bind (select number db.database joined) with
    | none => [.kLSApplicationNotFoundErr]
    | some rows => answers db rows

structure Registry where
  bundles : List (Text × Info)
  paths : (bundles.map Prod.fst).Nodup
  identified : ∀ b ∈ bundles, b.2.identifier.isSome

def Registry.database (reg : Registry) : Db :=
  reg.bundles.foldl (fun db b => process 0 b.1 b.2 db) Db.empty

end Darling.LaunchServices
