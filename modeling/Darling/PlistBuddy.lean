import Darling.Decimal
import Darling.Plist
import Mathlib.Data.List.DropRight

/-!
# PlistBuddy

The commands of PlistBuddy that edit the property list: the tokens of an entry, the walk from the
root along them, and `addEntry`, `setEntry` and `deleteEntry`.
-/

namespace Darling.PlistBuddy

open Plist (Step Position)

inductive PropertyType where
  | unknown | string | array | dict | bool | real | integer | date | data
deriving DecidableEq, Repr

inductive Failure where
  | addDoesNotExist | addAlreadyExists | addToParent
  | setDoesNotExist | setContainer
  | deleteDoesNotExist
  | unclosedQuotes | integerFormat | realFormat | dateFormat | entryType
  /-- `CFStringCreateWithCString` returned NULL. -/
  | notUtf8
  /-- A container function was given NULL, another object or an index outside the array. -/
  | fault
deriving DecidableEq, Repr

def text (s : String) : Bytes := s.toUTF8.toList

/-- What the libraries read from a text: `none` where they refuse it. -/
structure Library where
  utf8 : Bytes → Bool
  strtoll : Bytes → Option ℤ
  strtod : Bytes → Option UInt64
  strptime : Bytes → Option UInt64

def inferType : Plist → PropertyType
  | .string _ => .string
  | .array _ => .array
  | .dict _ => .dict
  | .bool _ => .bool
  | .integer _ => .integer
  | .real _ => .real
  | .date _ => .date
  | .data _ => .data
  | .uid _ => .unknown

def unescape : Bytes → Option Bytes
  | [] => some []
  | 92 :: [] => none
  | 92 :: c :: s =>
    (unescape s).map ((if c = 110 then 10 else if c = 116 then 9 else c) :: ·)
  | c :: s => (unescape s).map (c :: ·)

def unquote (string : Bytes) : Option Bytes :=
  if string.head? = some 34 then
    if string.getLast? = some 34 then some string.dropLast.tail else none
  else some string

def toLower (c : Byte) : Byte := if 65 ≤ c && c ≤ 90 then c + 32 else c

def strcasecmp (s t : Bytes) : Bool := s.map toLower == t.map toLower

def parseValue (lib : Library) (type : PropertyType) (string : Bytes) : Except Failure Plist :=
  match type with
  | .string | .data =>
    match (unquote string).bind unescape with
    | none => .error .unclosedQuotes
    | some stringOut =>
      if type = .string then
        if lib.utf8 stringOut then .ok (.string stringOut) else .error .notUtf8
      else .ok (.data string)
  | .bool => .ok (.bool (strcasecmp string (text "true") || strcasecmp string (text "yes") ||
      string == text "1"))
  | .integer => ((lib.strtoll string).map Plist.integer).elim (.error .integerFormat) .ok
  | .real => ((lib.strtod string).map Plist.real).elim (.error .realFormat) .ok
  | .date => ((lib.strptime string).map Plist.date).elim (.error .dateFormat) .ok
  | _ => .error .entryType

def isspace (c : Byte) : Bool := c == 32 || (9 ≤ c && c ≤ 13)

def strtol (s : Bytes) : ℤ :=
  let value (digits : Bytes) : ℤ :=
    (digits.takeWhile isdigit).foldl (fun (n : ℤ) c => n * 10 + (c.toNat - 48 : ℕ)) 0
  match s.dropWhile isspace with
  | 45 :: digits => max (-value digits) (-2 ^ 63)
  | 43 :: digits => min (value digits) (2 ^ 63 - 1)
  | digits => min (value digits) (2 ^ 63 - 1)

def atoi (s : Bytes) : ℤ := (strtol s).bmod (2 ^ 32)

def strtokEmpty (delim : Byte) : Option Bytes → Option (Bytes × Option Bytes)
  | none => none
  | some str =>
    let str := str.dropWhile (· == delim)
    some (str.takeWhile (· != delim),
      match str.dropWhile (· != delim) with
      | [] => none
      | _ :: rest => some rest)

/-- The step that a token takes from an object.  A key is the UTF-8 of its string. -/
def nextStep (tok : Bytes) : Plist → Option Step
  | .dict entries => if (entries.lookup tok).isSome then some (.key tok) else none
  | .array items =>
    if atoi tok < 0 ∨ atoi tok ≥ items.length then none else some (.index (atoi tok).toNat)
  | _ => none

structure Cursor where
  plist : Plist
  pos : Option Position
  lastPos : Option Position
  lastTok : Bytes

def Cursor.advance (autoCreate : Bool) (tok : Bytes) (p : Option Bytes) (pos : Position)
    (c : Cursor) : Cursor :=
  if tok = [] then ⟨c.plist, some pos, some pos, tok⟩
  else
    match c.plist.at? pos with
    | none => ⟨c.plist, none, some pos, tok⟩
    | some node =>
      match nextStep tok node, node with
      | some step, _ => ⟨c.plist, some (pos ++ [step]), some pos, tok⟩
      | none, .dict entries =>
        if autoCreate && p.isSome then
          ⟨Plist.put (.dict (Plist.addValue tok (.dict []) entries)) pos c.plist,
            some (pos ++ [.key tok]), some pos, tok⟩
        else ⟨c.plist, none, some pos, tok⟩
      | none, _ => ⟨c.plist, none, some pos, tok⟩

def resolveLoop (autoCreate : Bool) : ℕ → Option Bytes → Cursor → Option Bytes × Cursor
  | 0, _, c => (none, c)
  | fuel + 1, p, c =>
    match strtokEmpty 58 p, c.pos with
    | none, _ => (none, c)
    | some (tok, _), none => (some tok, c)
    | some (tok, p), some pos => resolveLoop autoCreate fuel p (c.advance autoCreate tok p pos)

structure Resolved where
  plist : Plist
  parent : Option Position
  entry : Option Position
  last : Bytes

def trim (whatStr : Bytes) : Bytes := (whatStr.dropWhile (· == 58)).rdropWhile (· == 58)

def resolvePlistEntry (plist : Plist) (whatStr : Bytes) (autoCreate : Bool) : Resolved :=
  let whatStr2 := trim whatStr
  let (tok, c) := resolveLoop autoCreate (whatStr2.length + 2) (some whatStr2)
    ⟨plist, some [], none, []⟩
  ⟨c.plist, if tok.isNone then c.lastPos else none, c.pos, c.lastTok⟩

def newValue (lib : Library) (type : PropertyType) (value : Bytes) : Except Failure Plist :=
  match type with
  | .array => .ok (.array [])
  | .dict => .ok (.dict [])
  | type => parseValue lib type value

def clampIndex (index : ℤ) (count : ℕ) : ℕ := if index < 0 then 0 else min index.toNat count

def addLeaf (leafName : Bytes) (v : Plist) (isNew : Bool) : Plist → Except Failure Plist
  | .array items => .ok (.array (items.insertIdx (clampIndex (atoi leafName) items.length) v))
  | .dict entries =>
    if isNew then .ok (.dict (Plist.addValue leafName v entries)) else .error .addAlreadyExists
  | _ => if isNew then .error .addToParent else .error .addAlreadyExists

def setLeaf (leafName : Bytes) (v : Plist) : Plist → Except Failure Plist
  | .dict entries => .ok (.dict (Plist.replaceValue leafName v entries))
  | .array items =>
    if 0 ≤ atoi leafName ∧ atoi leafName < items.length then
      .ok (.array (items.set (atoi leafName).toNat v))
    else if atoi leafName = items.length then .ok (.array (items ++ [v]))
    else .error .fault
  | _ => .error .fault

def deleteLeaf (leafName : Bytes) : Plist → Except Failure Plist
  | .dict entries => .ok (.dict (Plist.removeValue leafName entries))
  | .array items =>
    if 0 ≤ atoi leafName ∧ atoi leafName < items.length then
      .ok (.array (items.eraseIdx (atoi leafName).toNat))
    else .error .fault
  | _ => .error .fault

def Resolved.editParent (r : Resolved) (missing : Failure)
    (leaf : Bytes → Plist → Except Failure Plist) : Plist × Option Failure :=
  match r.parent with
  | none => (r.plist, some missing)
  | some pos =>
    match (r.plist.at? pos).elim (.error .fault) (leaf r.last) with
    | .error e => (r.plist, some e)
    | .ok node => (Plist.put node pos r.plist, none)

def addEntry (lib : Library) (plist : Plist) (entry : Bytes) (type : PropertyType)
    (value : Bytes) : Plist × Option Failure :=
  match newValue lib type value with
  | .error e => (plist, some e)
  | .ok newValue =>
    let r := resolvePlistEntry plist entry true
    r.editParent .addDoesNotExist fun leafName => addLeaf leafName newValue r.entry.isNone

def setEntry (lib : Library) (plist : Plist) (entry entryValue : Bytes) : Plist × Option Failure :=
  let r := resolvePlistEntry plist entry false
  match r.entry.bind (Plist.at? · plist) with
  | none => (plist, some .setDoesNotExist)
  | some existing =>
    if inferType existing = .array ∨ inferType existing = .dict then (plist, some .setContainer)
    else
      match parseValue lib (inferType existing) entryValue with
      | .error e => (plist, some e)
      | .ok newValue => r.editParent .fault fun leafName => setLeaf leafName newValue

def deleteEntry (plist : Plist) (entry : Bytes) : Plist × Option Failure :=
  let r := resolvePlistEntry plist entry false
  match r.entry with
  | none => (plist, some .deleteDoesNotExist)
  | some _ => r.editParent .fault deleteLeaf

structure Token where
  bytes : Bytes
  ne_nil : bytes ≠ []
  colon_notMem : 58 ∉ bytes

def entryText (before : ℕ) (tokens : List Token) (after : ℕ) : Bytes :=
  List.replicate before 58 ++ [58].intercalate (tokens.map Token.bytes) ++ List.replicate after 58

def entryAt (plist : Plist) (entry : Bytes) : Option Plist :=
  (resolvePlistEntry plist entry false).entry.bind (Plist.at? · plist)

/-- What lies apart from the position is as it was.  On the way to it every container is still of
its kind, and where there was nothing is a dictionary. -/
structure SameApart (p : Position) (t t' : Plist) : Prop where
  apart : ∀ q, Plist.Apart p q → t'.at? q = t.at? q
  along : ∀ q, q <+: p → q ≠ p →
    ∃ node, t'.at? q = some node ∧ ((t.at? q).getD (.dict [])).SameKind node

/-- The new value is under its name in a dictionary, which may be new itself. -/
def AddedToDict (entry leaf : Bytes) (v t t' : Plist) : Prop :=
  ∃ p entries, t'.at? p = some (.dict entries) ∧
    (resolvePlistEntry t' entry false).entry = some (p ++ [.key leaf]) ∧
    entryAt t' entry = some v ∧ t.at? (p ++ [.key leaf]) = none ∧
    SameApart (p ++ [.key leaf]) t t'

/-- The new value is in the array in front of what was at its index. -/
def AddedToArray (entry leaf : Bytes) (v t t' : Plist) : Prop :=
  ∃ p items, (resolvePlistEntry t entry false).parent = some p ∧
    t.at? p = some (.array items) ∧
    t'.at? p = some (.array (items.insertIdx (clampIndex (atoi leaf) items.length) v)) ∧
    SameApart p t t'

def WasSet (lib : Library) (entry value : Bytes) (t t' : Plist) : Prop :=
  ∃ p old v, (resolvePlistEntry t entry false).entry = some p ∧ t.at? p = some old ∧
    parseValue lib (inferType old) value = .ok v ∧ entryAt t' entry = some v ∧ SameApart p t t'

def DeletedFromDict (entry leaf : Bytes) (t t' : Plist) : Prop :=
  ∃ p entries, (resolvePlistEntry t entry false).entry = some (p ++ [.key leaf]) ∧
    t'.at? p = some (.dict entries) ∧ entryAt t' entry = none ∧
    t'.at? (p ++ [.key leaf]) = none ∧ SameApart (p ++ [.key leaf]) t t'

/-- The entry is no longer in the array, and what was behind it is one place further in front. -/
def DeletedFromArray (entry : Bytes) (t t' : Plist) : Prop :=
  ∃ p i items, (resolvePlistEntry t entry false).entry = some (p ++ [.index i]) ∧
    t.at? p = some (.array items) ∧ t'.at? p = some (.array (items.eraseIdx i)) ∧
    SameApart p t t'

end Darling.PlistBuddy
