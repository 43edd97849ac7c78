import Mathlib.Data.List.Basic

/-!
# File trees

A file system is a tree of directories, plain files and symbolic links.  `Node.descend` goes through
directories only, so a link on the way ends the descent: what it finds under a list of names is
what stands at that place, not what a link there leads to.
-/

namespace Darling

abbrev Byte := UInt8

abbrev Bytes := List Byte

def slash : Byte := '/'.toUInt8

def dot : Byte := '.'.toUInt8

def ascii (cs : List Char) : Bytes := cs.map Char.toUInt8

inductive Kind where
  | file
  | dir
  | symlink
  deriving DecidableEq, Repr

inductive Node where
  | file
  | symlink (target : Bytes)
  | dir (entries : List (Bytes × Node))

namespace Node

def kind : Node → Kind
  | file => .file
  | symlink _ => .symlink
  | dir _ => .dir

def descend : Node → List Bytes → Option Node
  | n, [] => some n
  | dir es, c :: cs => (es.lookup c).bind (·.descend cs)
  | file, _ :: _ => none
  | symlink _, _ :: _ => none

def LinkAt (n : Node) (cs : List Bytes) : Prop := ∃ t, n.descend cs = some (symlink t)

def Clean (n : Node) (cs : List Bytes) : Prop := ∀ ds, ds <+: cs → ¬ n.LinkAt ds

def CleanAbove (n : Node) (cs : List Bytes) : Prop := ∀ ds, ds <+: cs → ds ≠ cs → ¬ n.LinkAt ds

end Node

def IsName (c : Bytes) : Prop := c ≠ [] ∧ slash ∉ c ∧ 0 ∉ c ∧ c ≠ [dot] ∧ c ≠ [dot, dot]

instance : DecidablePred IsName := fun c =>
  inferInstanceAs (Decidable (c ≠ [] ∧ slash ∉ c ∧ 0 ∉ c ∧ c ≠ [dot] ∧ c ≠ [dot, dot]))

def render (cs : List Bytes) : Bytes := cs.flatMap (slash :: ·)

def components (p : Bytes) : List Bytes := (p.splitOn slash).filter (· ≠ [])

end Darling
