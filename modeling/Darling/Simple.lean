import Darling.CArray
import Darling.Endian
import Mathlib.Algebra.Group.Int.Defs

/-!
# `__simple_vsnprintf`

The printer of `simple.c`.  The code that goes through the format is the same for every way to put
down a character, `put`: at the end of a text that grows, or in a buffer as far as there is room.
Strings are given without their NUL.
-/

namespace Darling.Simple

open CArray

/-- A pointer to a string, which may be `NULL`, or a number. -/
inductive Arg
  | str (s : Option Bytes)
  | num (n : ℤ)

def digit (c : ℕ) : Byte := UInt8.ofNat (if c < 10 then 48 + c else 55 + c)

/-- What the loop leaves in `temp`, from its end; `room` is the size of `temp`. -/
def digits (base : ℤ) : ℕ → ℤ → Option Bytes
  | 0, _ => none
  | room + 1, num => do
    let high ← if 0 < num.tdiv base then digits base room (num.tdiv base) else some []
    some (high ++ [digit (num.tmod base).natAbs])

section

variable {σ : Type} (put : Byte → σ → Option σ)

def puts (s : Bytes) (st : σ) : Option σ := s.foldlM (fun st c => put c st) st

def putDigits (base : ℤ) (room : ℕ) (num : ℤ) (st : σ) : Option σ := do
  puts put (← digits base room num) st

/-- The `switch`.  An `int` is the low half of what is passed, and its sign is wrapped. -/
def conversion (c : Byte) (args : List Arg) (st : σ) : Option (σ × List Arg) :=
  match c, args with
  | 37, args => (put 37 st).map (·, args)
  | 115, .str s :: args => (puts put (s.getD [40, 110, 117, 108, 108, 41]) st).map (·, args)
  | 100, .num n :: args => do
    let num := Int.bmod n (2 ^ 32)
    let st ← if num < 0 then put 45 st else some st
    (putDigits put 10 16 (if num < 0 then Int.bmod (-num) (2 ^ 32) else num) st).map (·, args)
  | 117, .num n :: args => (putDigits put 10 16 (n % 2 ^ 32) st).map (·, args)
  | 112, .num n :: args => do
    let st ← puts put [48, 120] st
    (putDigits put 16 40 (n % 2 ^ 64) st).map (·, args)
  | 120, .num n :: args => (putDigits put 16 40 (n % 2 ^ 64) st).map (·, args)
  | 115, _ | 100, _ | 117, _ | 112, _ | 120, _ => none
  | _, args => some (st, args)

/-- A format that ends in `%l` is read beyond its end. -/
def loop : Bytes → List Arg → σ → Option σ
  | [], _, st => some st
  | c :: format, args, st =>
    if c = 37 then
      match format with
      | [] => some st
      | c :: format =>
        if c = 108 then
          match format with
          | [] => none
          | c :: format => do
            let (st, args) ← conversion put c args st
            loop format args st
        else do
          let (st, args) ← conversion put c args st
          loop format args st
    else do
      let st ← put c st
      loop format args st

end

@[simp] def grow (c : Byte) (s : Bytes) : Option Bytes := some (s ++ [c])

/-- The text that is produced where there is no limit. -/
def text (format : Bytes) (args : List Arg) : Option Bytes := loop grow format args []

/-- `buf` and `offset`. -/
def put (maxLength : ℕ) (c : Byte) (st : Bytes × ℕ) : Option (Bytes × ℕ) := do
  let buf ← if st.2 < maxLength then store st.1 st.2 c else some st.1
  some (buf, (st.2 + 1) % 2 ^ 64)

def vsnprintf (buf : Bytes) (maxLength : ℕ) (format : Bytes) (args : List Arg) :
    Option (Bytes × ℤ) := do
  let (buf, offset) ← loop (put maxLength) format args (buf, 0)
  let buf ← store buf (if offset < maxLength then offset else wsub 64 maxLength 1) 0
  some (buf, Int.bmod offset (2 ^ 32))

end Darling.Simple
