import Darling.FileTree
import Mathlib.Data.Int.Notation

/-!
# A fragment of SQL

Conditions over the rows of a join, with subqueries, as SQLite prepares and evaluates them.  A name
is looked up in the innermost query first; one that no table of a query has, or that two have, makes
the statement fail.  Operands are compared under the numeric affinity of either and the collation of
the left one.  Without negation an unknown truth value counts as false.
-/

namespace Darling.Sql

inductive Value where
  | null
  | int (n : ℤ)
  | text (s : Bytes)
deriving DecidableEq, Repr

inductive Affinity where
  | integer
  | text
deriving DecidableEq, Repr

inductive Collation where
  | binary
  | noCase
deriving DecidableEq, Repr

structure Column where
  affinity : Affinity
  collation : Collation := .binary
deriving DecidableEq, Repr

/-- `COLLATE NOCASE` compares the texts it makes of the upper case letters of ASCII. -/
def noCase (s : Bytes) : Bytes := s.map fun c => if 65 ≤ c ∧ c ≤ 90 then c + 32 else c

def quote : Byte := '\''.toUInt8

def escape (s : Bytes) : Bytes := s.flatMap fun c => if c = quote then [quote, quote] else [c]

/-- The text of a literal whose opening quote has been read.  The statement is a C string: a zero
ends it, and with it the literal before its closing quote. -/
def literal : Bytes → Option Bytes
  | [] => none
  | c :: s =>
    if c = 0 then none
    else if c = quote then
      match s with
      | c' :: s' => if c' = quote then (literal s').map (quote :: ·) else some []
      | [] => some []
    else (literal s).map (c :: ·)

variable {ν τ γ ρ : Type}

structure ColRef (ν γ : Type) where
  qualifier : Option ν
  column : γ

inductive Operand (ν γ : Type) where
  | column (ref : ColRef ν γ)
  | literal (s : Bytes)

inductive Cond (ν τ γ : Type) where
  | eq (l r : Operand ν γ)
  | and (a b : Cond ν τ γ)
  | or (a b : Cond ν τ γ)
  | inTexts (l : Operand ν γ) (texts : List Bytes)
  | existsIn (tables : List (ν × τ)) (c : Cond ν τ γ)
  | inSelect (l : Operand ν γ) (result : ColRef ν γ) (tables : List (ν × τ)) (c : Cond ν τ γ)

abbrev Scope (ν τ ρ : Type) := List (ν × τ × ρ)

structure Database (τ γ : Type) where
  column : τ → γ → Option Column
  rows : τ → List (γ → Value)

section Resolution

variable [DecidableEq ν] (column : τ → γ → Option Column)

def names (ref : ColRef ν γ) (src : ν × τ × ρ) : Bool :=
  (ref.qualifier.all fun q => q = src.1) && (column src.2.1 ref.column).isSome

def resolve (ref : ColRef ν γ) : List (Scope ν τ ρ) → Option (τ × ρ)
  | [] => none
  | scope :: outer =>
    match scope.filter (names column ref) with
    | [] => resolve ref outer
    | [src] => some src.2
    | _ => none

def Operand.resolves (scopes : List (Scope ν τ ρ)) : Operand ν γ → Bool
  | .column ref => (Sql.resolve column ref scopes).isSome
  | .literal _ => true

def scopeOf (tables : List (ν × τ)) : Scope ν τ Unit := tables.map fun t => (t.1, t.2, ())

def Cond.resolves : List (Scope ν τ Unit) → Cond ν τ γ → Bool
  | scopes, eq l r => l.resolves column scopes && r.resolves column scopes
  | scopes, and a b => a.resolves scopes && b.resolves scopes
  | scopes, or a b => a.resolves scopes && b.resolves scopes
  | scopes, inTexts l _ => l.resolves column scopes
  | scopes, existsIn tables c => c.resolves (scopeOf tables :: scopes)
  | scopes, inSelect l result tables c =>
    l.resolves column scopes &&
      (Sql.resolve column result (scopeOf tables :: scopes)).isSome &&
        c.resolves (scopeOf tables :: scopes)

end Resolution

section Evaluation

variable [DecidableEq ν] (number : Bytes → Option ℤ) (db : Database τ γ)

/-- The numeric affinity applied to a value; `number` is the integer that a text spells. -/
def Value.numeric : Value → Value
  | text s => ((number s).map int).getD (text s)
  | v => v

def isInteger (c : Option Column) : Bool := c.any (·.affinity = .integer)

def sameText (c : Option Column) (s t : Bytes) : Bool :=
  if c.any (·.collation = .noCase) then noCase s = noCase t else s = t

def equal (l r : Value × Option Column) : Bool :=
  let v := if isInteger r.2 && !isInteger l.2 then l.1.numeric number else l.1
  let w := if isInteger l.2 && !isInteger r.2 then r.1.numeric number else r.1
  match v, w with
  | .int m, .int n => m = n
  | .text s, .text t => sameText (l.2.or r.2) s t
  | _, _ => false

def Operand.value (scopes : List (Scope ν τ (γ → Value))) : Operand ν γ → Value × Option Column
  | .column ref =>
    match Sql.resolve db.column ref scopes with
    | some (t, row) => (row ref.column, db.column t ref.column)
    | none => (.null, none)
  | .literal s => (.text s, none)

def product : List (ν × τ) → List (Scope ν τ (γ → Value))
  | [] => [[]]
  | t :: tables => (db.rows t.2).flatMap fun row => (product tables).map ((t.1, t.2, row) :: ·)

def Cond.eval : List (Scope ν τ (γ → Value)) → Cond ν τ γ → Bool
  | scopes, eq l r => equal number (l.value db scopes) (r.value db scopes)
  | scopes, and a b => a.eval scopes && b.eval scopes
  | scopes, or a b => a.eval scopes || b.eval scopes
  | scopes, inTexts l texts =>
    texts.any fun s => equal number (l.value db scopes) ((Operand.literal s).value db scopes)
  | scopes, existsIn tables c => (product db tables).any fun scope => c.eval (scope :: scopes)
  | scopes, inSelect l result tables c =>
    (product db tables).any fun scope => c.eval (scope :: scopes) &&
      equal number (l.value db scopes) ((Operand.column result).value db (scope :: scopes))

def select (tables : List (ν × τ)) (c : Cond ν τ γ) : Option (List (Scope ν τ (γ → Value))) :=
  if c.resolves db.column [scopeOf tables] then
    some ((product db tables).filter fun scope => c.eval number db [scope])
  else none

end Evaluation

end Darling.Sql
