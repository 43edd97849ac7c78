import Darling.FileTree
import Mathlib.Data.Int.Notation

/-!
# Property lists

A property list is a tree of arrays and dictionaries with scalars at its leaves.  A position is the
list of keys and indices that leads from the root to an object of the tree.
-/

namespace Darling

/-- An object of a property list.  Reals and dates are the bits of their double. -/
inductive Plist where
  | string (s : Bytes)
  | bool (b : Bool)
  | integer (n : ℤ)
  | real (bits : UInt64)
  | date (bits : UInt64)
  | data (bytes : Bytes)
  | uid (n : ℕ)
  | array (items : List Plist)
  | dict (entries : List (Bytes × Plist))

namespace Plist

inductive Step where
  | key (k : Bytes)
  | index (i : ℕ)
deriving DecidableEq, Repr

abbrev Position := List Step

def child : Plist → Step → Option Plist
  | dict entries, .key k => entries.lookup k
  | array items, .index i => items[i]?
  | _, _ => none

def at? : Position → Plist → Option Plist
  | [], t => some t
  | s :: p, t => (t.child s).bind (at? p)

def addValue (k : Bytes) (v : Plist) (entries : List (Bytes × Plist)) : List (Bytes × Plist) :=
  if (entries.lookup k).isSome then entries else entries ++ [(k, v)]

def modifyValue (k : Bytes) (f : Plist → Plist) (entries : List (Bytes × Plist)) :
    List (Bytes × Plist) := entries.map fun e => if e.1 = k then (e.1, f e.2) else e

def replaceValue (k : Bytes) (v : Plist) (entries : List (Bytes × Plist)) : List (Bytes × Plist) :=
  modifyValue k (fun _ => v) entries

def removeValue (k : Bytes) (entries : List (Bytes × Plist)) : List (Bytes × Plist) :=
  entries.filter (·.1 ≠ k)

def put (v : Plist) : Position → Plist → Plist
  | [], _ => v
  | .key k :: p, dict entries => dict (modifyValue k (put v p) entries)
  | .index i :: p, array items => array (items.modify i (put v p))
  | _ :: _, t => t

def Apart (p q : Position) : Prop := ¬ p <+: q ∧ ¬ q <+: p

/-- Both are dictionaries, or both are arrays. -/
def SameKind : Plist → Plist → Prop
  | dict _, dict _ | array _, array _ => True
  | _, _ => False

end Plist

end Darling
