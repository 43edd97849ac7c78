import Darling.Sql
import Darling.Records

/-!
# The LaunchServices database

`launchservicesd` keeps in an SQLite database what bundles declare in their information property
lists: uniform type identifiers, document types and URL schemes.  `LSBundle` brings the rows of one
bundle up to date.  SQLite does not enforce the foreign keys of `schema.sql`.
-/

namespace Darling.LaunchServices

open Records
open Sql (noCase)

abbrev Text := Bytes

/-- A value that may be a string or an array; `none` in an array is an object that is no string. -/
inductive OneOrMany where
  | other
  | one (s : Text)
  | many (items : List (Option Text))
deriving DecidableEq, Repr

def OneOrMany.strings : OneOrMany → List Text
  | other => []
  | one s => [s]
  | many items => items.filterMap id

/-- An element of `UTExportedTypeDeclarations`.  The identifier and the description are there when
they are strings. -/
structure Declaration where
  identifier : Option Text
  description : Option Text := none
  conformsTo : OneOrMany := .other
  iconFile : Option Text := none
  iconFiles : List (Option Text) := []
  tagSpecification : List (Text × OneOrMany) := []

structure DocumentType where
  iconFile : Option Text := none
  name : Option Text := none
  role : Option Text := none
  rank : Option Text := none
  documentClass : Option Text := none
  contentTypes : Option (List (Option Text)) := none
  extensions : List (Option Text) := []
  mimeTypes : List (Option Text) := []

/-- An element of `CFBundleURLTypes`; the icon is read under the name of the array itself. -/
structure URLDeclaration where
  role : Option Text := none
  name : Option Text := none
  icon : Option Text := none
  schemes : List Text := []

/-- What `LSBundle` reads of a bundle.  `ownType` is the property list itself as a document type,
when it has a `CFBundleTypeRole`. -/
structure Info where
  identifier : Option Text
  checksum : UInt32
  packageType : Option Text := none
  creator : Option Text := none
  signature : Option Text := none
  exportedTypes : Option (List Declaration) := none
  documentTypes : List DocumentType := []
  ownType : Option DocumentType := none
  urlTypes : List URLDeclaration := []

structure Bundle where
  path : Text
  bundleId : Text
  checksum : UInt32
  packageType : Option Text
  creator : Option Text
  signature : Option Text
deriving DecidableEq, Repr

structure Uti where
  typeIdentifier : Text
  description : Option Text
deriving DecidableEq, Repr

inductive UtiTable where
  | conforms
  | icon
  | tag
deriving DecidableEq, Repr

structure AppDoc where
  icon : Option Text
  name : Option Text
  role : Option Text
  rank : Option Text
  documentClass : Option Text
deriving DecidableEq, Repr

inductive DocTable where
  | uti
  | extension
  | mime
deriving DecidableEq, Repr

structure URLType where
  role : Text
  name : Option Text
  icon : Option Text
deriving DecidableEq, Repr

/-- The tables of `schema.sql`.  A child row of `uti` is the list of its columns. -/
structure Db where
  bundle : RowTable Bundle
  uti : Store Uti UtiTable (List Text)
  appDoc : Store AppDoc DocTable Text
  urlType : Store URLType Unit Text

def Db.empty : Db := ⟨.empty, .empty, .empty, .empty⟩

def Uti.key (u : Uti) : Text := noCase u.typeIdentifier

def Declaration.children (u : Declaration) : UtiTable → List (List Text)
  | .conforms => u.conformsTo.strings.map ([·])
  | .icon => (u.iconFile.toList ++ u.iconFiles.filterMap id).map ([·])
  | .tag => u.tagSpecification.flatMap fun t => t.2.strings.map ([t.1, ·])

/-- One round of the loop: the row of the identifier is looked up or inserted, and its children are
replaced.  A description that changed is replaced by the one that was stored.  The second component
are the identifiers that were there before and have not been met. -/
def processUTI (bundleId : ℕ) (st : Store Uti UtiTable (List Text) × List Text)
    (u : Declaration) : Store Uti UtiTable (List Text) × List Text :=
  match u.identifier with
  | none => st
  | some typeId =>
    let (s, previousUtis) := st
    let description := u.description.getD typeId
    let row := s.parents.rows.find? fun r =>
      noCase r.data.typeIdentifier = noCase typeId ∧ r.parent = bundleId
    let (parents, utiId) : RowTable Uti × ℕ := match row with
      | some r =>
        let oldDesc := r.data.description
        (if oldDesc = some description then s.parents
          else s.parents.update r.id fun d => { d with description := oldDesc }, r.id)
      | none => (s.parents.insert bundleId ⟨typeId, some description⟩, s.parents.next)
    ({ s with parents := parents }.setKids utiId u.children,
      previousUtis.filter (· ≠ typeId))

def processUTIs (bundleId : ℕ) (utis : List Declaration) (s : Store Uti UtiTable (List Text)) :
    Store Uti UtiTable (List Text) :=
  let previousUtis := (s.parents.rowsOf bundleId).map (·.data.typeIdentifier)
  let (s, deleted) := utis.foldl (processUTI bundleId) (s, previousUtis)
  deleted.foldl (fun s deletedId => s.deleteWhere fun r =>
    noCase r.data.typeIdentifier = noCase deletedId ∧ r.parent = bundleId) s

def roleNone : Text := ascii ['N', 'o', 'n', 'e']

def rankDefault : Text := ascii ['D', 'e', 'f', 'a', 'u', 'l', 't']

def DocumentType.row (d : DocumentType) : AppDoc :=
  ⟨d.iconFile, d.name, some (d.role.getD roleNone), some (d.rank.getD rankDefault), d.documentClass⟩

/-- Extensions and MIME types are obsolete: they count without `LSItemContentTypes` only. -/
def DocumentType.children (d : DocumentType) : DocTable → List Text
  | .uti => (d.contentTypes.getD []).filterMap id
  | .extension => if d.contentTypes.isSome then [] else d.extensions.filterMap id
  | .mime => if d.contentTypes.isSome then [] else d.mimeTypes.filterMap id

def processFileAssociation (bundleId : ℕ) (s : Store AppDoc DocTable Text) (d : DocumentType) :
    Store AppDoc DocTable Text := s.put bundleId d.row d.children

def Info.documents (info : Info) : List DocumentType := info.documentTypes ++ info.ownType.toList

def processFileAssociations (bundleId : ℕ) (info : Info) (s : Store AppDoc DocTable Text) :
    Store AppDoc DocTable Text :=
  info.documents.foldl (processFileAssociation bundleId) (s.deleteWhere (·.parent = bundleId))

def URLDeclaration.row (u : URLDeclaration) : URLType := ⟨u.role.getD roleNone, u.name, u.icon⟩

def URLDeclaration.children (u : URLDeclaration) (_ : Unit) : List Text := u.schemes

def processURLTypes (bundleId : ℕ) (info : Info) (s : Store URLType Unit Text) :
    Store URLType Unit Text :=
  info.urlTypes.foldl (fun s u => s.put bundleId u.row u.children)
    (s.deleteWhere (·.parent = bundleId))

def Info.row (info : Info) (path identifier : Text) : Bundle :=
  ⟨path, identifier, info.checksum, info.packageType, info.creator, info.signature⟩

/-- The id that the other tables will use and the bundle table, or nothing when the checksum is the
stored one.  Without an identifier the insertion fails, and the id is `last`, that of the last row
inserted on the connection. -/
def setupBundleID (last : ℕ) (path : Text) (info : Info) (bundle : RowTable Bundle) :
    Option (ℕ × RowTable Bundle) :=
  match bundle.rows.find? (·.data.path = path) with
  | some r =>
    if r.data.checksum = info.checksum then none
    else some (r.id, bundle.update r.id fun b => info.row b.path b.bundleId)
  | none =>
    match info.identifier with
    | some identifier => some (bundle.next, bundle.insert 0 (info.row path identifier))
    | none => some (last, bundle)

def process (last : ℕ) (path : Text) (info : Info) (db : Db) : Db :=
  match setupBundleID last path info db.bundle with
  | none => db
  | some (bundleId, bundle) =>
    { bundle := bundle
      uti := match info.exportedTypes with
        | none => db.uti
        | some utis => processUTIs bundleId utis db.uti
      appDoc := processFileAssociations bundleId info db.appDoc
      urlType := processURLTypes bundleId info db.urlType }

end Darling.LaunchServices
