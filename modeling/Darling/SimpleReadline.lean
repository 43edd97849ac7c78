import Darling.Readline

/-!
# `__simple_readline`

Lines of an open file, through a buffer of 512 bytes, each copied to an array of the caller.  A line
that does not fit there is cut off, and an empty one looks like the end of the file.
-/

namespace Darling.SimpleReadline

open CArray Readline

structure SimpleReadlineBuf where
  buf : Bytes
  used : ℤ

def simpleReadlineInit (stack : Bytes) : SimpleReadlineBuf := ⟨stack, 0⟩

/-- `buf->used == 0 || (nl = memchr(buf->buf, '\n', buf->used)) == NULL`, as an index.  A negative
number of bytes is a huge one for `memchr`. -/
def newlineIn (b : SimpleReadlineBuf) : Option (Option ℕ) :=
  if 0 ≤ b.used then some (memchr b.buf b.used.toNat)
  else if 10 ∈ b.buf then some (memchr b.buf b.buf.length)
  else none

def findNl : ℕ → SimpleReadlineBuf → Input → Option (Option ℕ × SimpleReadlineBuf × Input)
  | 0, _, _ => none
  | fuel + 1, b, f => do
    match ← newlineIn b with
    | some nl => return (some nl, b, f)
    | none =>
      if b.used = 512 then return (some 512, b, f)
      else
        match f.read (512 - b.used).toNat with
        | (.error e, f) => findNl fuel { b with used := b.used - e.val } f
        | (.ok bs, f) =>
          if bs = [] then
            if b.used = 0 then return (none, b, f) else return (some b.used.toNat, b, f)
          else do
            let buf ← blit b.buf b.used.toNat bs
            findNl fuel ⟨buf, b.used + bs.length⟩ f

/-- Behind `have_nl`: the line goes to `out`, the rest to the front of the buffer. -/
def takeLine (nl : ℕ) (b : SimpleReadlineBuf) (out : Bytes) (maxOut : ℕ) :
    Option (Bytes × SimpleReadlineBuf) := do
  let len := min (maxOut - 1) nl
  let out ← blit out 0 (← slice b.buf 0 len)
  let out ← store out len 0
  let used := b.used - len
  let used := if used ≠ 0 then used - 1 else used
  if used < 0 then none
  else if used ≠ 0 then
    let buf ← move b.buf 0 (nl + 1) used.toNat
    return (out, ⟨buf, used⟩)
  else return (out, { b with used := used })

def simpleReadline (b : SimpleReadlineBuf) (out : Bytes) (maxOut : ℕ) (f : Input) :
    Option (Option Bytes × SimpleReadlineBuf × Input) := do
  match ← findNl (f.answers.length + 3) b f with
  | (none, b, f) => return (none, b, f)
  | (some nl, b, f) =>
    if nl = 0 then return (none, b, f)
    else
      let (out, b) ← takeLine nl b out maxOut
      return (some out, b, f)

def call (out : Bytes) (s : SimpleReadlineBuf × Input) :
    Option (Option Bytes × (SimpleReadlineBuf × Input)) := do
  let (r, b, f) ← simpleReadline s.1 out out.length s.2
  return (r, (b, f))

end Darling.SimpleReadline
