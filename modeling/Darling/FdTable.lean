import Mathlib.Data.Int.Basic

/-!
# Descriptor tables

The table of a process: what file each descriptor number refers to, and its close-on-exec flag.  The
calls return a number, negative for an error, and the table they leave.  A call that takes a new
number takes the lowest that is free.
-/

namespace Darling

def ebadf : ℤ := 9
def emfile : ℤ := 24

structure Desc (φ : Type) where
  file : φ
  cloexec : Bool

/-- `limit` bounds the numbers that a call may take, `size` the numbers in use. -/
structure Table (φ : Type) where
  limit : ℕ
  size : ℕ
  get : ℤ → Option (Desc φ)
  get_neg : ∀ fd < 0, get fd = none
  get_size : ∀ fd : ℤ, size ≤ fd → get fd = none

namespace Table

variable {φ ψ : Type}

def set (t : Table φ) (n : ℕ) (d : Desc φ) : Table φ where
  limit := t.limit
  size := max t.size (n + 1)
  get fd := if fd = n then some d else t.get fd
  get_neg fd h := by
    rw [if_neg (by omega)]
    exact t.get_neg fd h
  get_size fd h := by
    rw [if_neg (by omega)]
    exact t.get_size fd (by omega)

def erase (t : Table φ) (fd : ℤ) : Table φ where
  limit := t.limit
  size := t.size
  get i := if i = fd then none else t.get i
  get_neg i h := by
    rw [t.get_neg i h, ite_self]
  get_size i h := by
    rw [t.get_size i h, ite_self]

def map (f : φ → ψ) (t : Table φ) : Table ψ where
  limit := t.limit
  size := t.size
  get fd := (t.get fd).map fun d => ⟨f d.file, d.cloexec⟩
  get_neg fd h := by rw [t.get_neg fd h, Option.map_none]
  get_size fd h := by rw [t.get_size fd h, Option.map_none]

def lowest (t : Table φ) : Option ℕ := (List.range t.limit).find? fun n => (t.get n).isNone

def numbers (t : Table φ) : List ℕ := (List.range t.size).filter fun n => (t.get n).isSome

def alloc (t : Table φ) (d : Desc φ) : ℤ × Table φ :=
  match t.lowest with
  | none => (-emfile, t)
  | some n => (n, t.set n d)

def close (t : Table φ) (fd : ℤ) : ℤ × Table φ :=
  if (t.get fd).isSome then (0, t.erase fd) else (-ebadf, t)

def dup (t : Table φ) (fd : ℤ) : ℤ × Table φ :=
  match t.get fd with
  | none => (-ebadf, t)
  | some d => t.alloc ⟨d.file, false⟩

def dup2 (t : Table φ) (fdFrom fdTo : ℤ) : ℤ × Table φ :=
  match t.get fdFrom with
  | none => (-ebadf, t)
  | some d =>
    if fdFrom = fdTo then (fdTo, t)
    else if 0 ≤ fdTo ∧ fdTo < t.limit then (fdTo, t.set fdTo.toNat ⟨d.file, false⟩)
    else (-ebadf, t)

/-- `F_GETFD`: 1 is `FD_CLOEXEC`. -/
def getfd (t : Table φ) (fd : ℤ) : ℤ :=
  match t.get fd with
  | none => -ebadf
  | some d => if d.cloexec then 1 else 0

def setfd (t : Table φ) (fd : ℤ) (arg : BitVec 32) : ℤ × Table φ :=
  match t.get fd with
  | none => (-ebadf, t)
  | some d => (0, t.set fd.toNat ⟨d.file, arg.getLsbD 0⟩)

/-- The numbers of the reading and of the writing end of a new pipe, both close-on-exec. -/
def pipe2 (t : Table φ) (rd wr : φ) : Option (ℕ × ℕ × Table φ) := do
  let r ← t.lowest
  let t := t.set r ⟨rd, true⟩
  let w ← t.lowest
  return (r, w, t.set w ⟨wr, true⟩)

def inherited (t : Table φ) (fd : ℤ) : Option φ :=
  (t.get fd).bind fun d => if d.cloexec then none else some d.file

def inheritsAny (t : Table φ) (p : φ → Bool) : Bool :=
  (List.range t.size).any fun n => (t.inherited n).any p

end Table

end Darling
