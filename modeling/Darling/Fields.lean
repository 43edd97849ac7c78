import Darling.CArray

/-!
# Fields of a record in memory

A record is an array of cells, and a pointer to one of its fields is the index of the field's first
cell.  A pointer may be `NULL`; nothing is stored through it then.
-/

namespace Darling.Fields

open CArray

variable {α : Type*}

def put (a : List α) (ptr : Option ℕ) (s : List α) : Option (List α) :=
  match ptr with
  | none => some a
  | some i => blit a i s

def puts (a : List α) (ws : List (Option ℕ × List α)) : Option (List α) :=
  ws.foldlM (fun a w => put a w.1 w.2) a

def Apart (w w' : Option ℕ × List α) : Prop :=
  ∀ i ∈ w.1, ∀ i' ∈ w'.1, i + w.2.length ≤ i' ∨ i' + w'.2.length ≤ i

def Misses (j : ℕ) (ptr : Option ℕ) (n : ℕ) : Prop := ∀ i ∈ ptr, j < i ∨ i + n ≤ j

def Fits (len : ℕ) (ptr : Option ℕ) (n : ℕ) : Prop := ∀ i ∈ ptr, i + n ≤ len

end Darling.Fields
