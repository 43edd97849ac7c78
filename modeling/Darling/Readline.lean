import Darling.CArray
import Darling.FileTree
import Mathlib.Data.PNat.Defs

/-!
# `_readline`

Lines of an open file, through a buffer of 1024 bytes.  A line of 1023 bytes or more comes in
pieces, since the read into the full buffer is taken for the end of the file.
-/

namespace Darling.Readline

open CArray

/-- How `read` answers: with at most `n + 1` bytes, or it fails. -/
inductive Answer where
  | upTo (n : ℕ)
  | fails (e : ℕ+)

/-- What is left of the file, and how the next calls of `read` are answered; later ones are answered
in full. -/
structure Input where
  text : Bytes
  answers : List Answer

def Input.read (f : Input) (len : ℕ) : Except ℕ+ Bytes × Input :=
  match f.answers with
  | [] => (.ok (f.text.take len), ⟨f.text.drop len, []⟩)
  | .upTo n :: as =>
    (.ok (f.text.take (min len (n + 1))), ⟨f.text.drop (min len (n + 1)), as⟩)
  | .fails e :: as => (.error e, ⟨f.text, as⟩)

structure RdlineBuffer where
  buffer : Bytes
  usage : ℕ
  next : ℕ

def readlineInit (stack : Bytes) : RdlineBuffer := ⟨stack, 0, 0⟩

def memchr (buf : Bytes) (n : ℕ) : Option ℕ :=
  if 10 ∈ buf.take n then some ((buf.take n).idxOf 10) else none

/-- The loop: whether there is a line, at the start of the buffer.  There is no newline to be found
in an empty buffer. -/
def readLoop : ℕ → Bool → RdlineBuffer → Input → Option (Bool × RdlineBuffer × Input)
  | 0, _, _, _ => none
  | fuel + 1, eof, b, f =>
    match memchr b.buffer b.usage with
    | some p => do
      let buffer ← store b.buffer p 0
      return (true, ⟨buffer, b.usage, p + 1⟩, f)
    | none =>
      if eof then
        if 0 < b.usage then do
          let buffer ← store b.buffer b.usage 0
          return (true, ⟨buffer, 0, b.next⟩, f)
        else return (false, b, f)
      else
        match f.read (1024 - b.usage - 1) with
        | (.error _, f) => return (false, b, f)
        | (.ok bs, f) => do
          let buffer ← blit b.buffer b.usage bs
          readLoop fuel (bs.length == 0) ⟨buffer, b.usage + bs.length, b.next⟩ f

/-- The buffer takes 1023 bytes, and one more call of `read` and one more round find the end. -/
def readline (b : RdlineBuffer) (f : Input) : Option (Bool × RdlineBuffer × Input) :=
  if b.next ≠ 0 then do
    let buffer ← move b.buffer 0 b.next (b.usage - b.next)
    readLoop 1025 false ⟨buffer, b.usage - b.next, 0⟩ f
  else readLoop 1025 false b f

def call (s : RdlineBuffer × Input) : Option (Option Bytes × (RdlineBuffer × Input)) := do
  let (found, b, f) ← readline s.1 s.2
  return (if found then some b.buffer else none, (b, f))

/-- The result is this line, terminated, or it is `NULL` and there is no line. -/
def Returns : Option Bytes → Option Bytes → Prop
  | some memory, some line => ∃ stale, memory = line ++ 0 :: stale
  | none, none => True
  | _, _ => False

/-- No call of `read` fails. -/
def Input.Delivers (f : Input) : Prop := ∀ e, Answer.fails e ∉ f.answers

end Darling.Readline
