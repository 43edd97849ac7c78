import Darling.FileTree
import Darling.Transducer
import Mathlib.Data.PNat.Defs

/-!
# `TECConvertText`

Text goes through two converters and a buffer of 64 UTF-16 units between them.  The converters are
any transducers that hold back what does not fit; a client feeds its input in pieces, into output
buffers of any size, and flushes at the end.
-/

namespace Darling.Tec

abbrev UChar := Byte × Byte

def bufferSize : ℕ := 64

def bytesOf (units : List UChar) : Bytes := units.flatMap fun c => [c.1, c.2]

def ofBytes : Bytes → List UChar
  | lo :: hi :: bytes => (lo, hi) :: ofBytes bytes
  | _ => []

/-- `memmove(buffer, buffer + inputUsed, n)`: `n` is a number of bytes. -/
def memmove (buffer : List UChar) (inputUsed n : ℕ) : List UChar :=
  ofBytes (((bytesOf buffer).drop (2 * inputUsed)).take n ++ (bytesOf buffer).drop n)

variable {σ₁ σ₂ : Type*}

structure Object (σ₁ σ₂ : Type*) where
  inputState : σ₁
  inputHeld : List UChar
  outputState : σ₂
  outputHeld : Bytes
  buffer : List UChar
  bufferUsed : ℕ

def Object.carry (t : Object σ₁ σ₂) : List UChar := t.buffer.take t.bufferUsed

section Convert

variable (T₁ : Transducer σ₁ Byte UChar) (T₂ : Transducer σ₂ UChar Byte)

def Object.fromUnicode (t : Object σ₁ σ₂) (room : ℕ) : Transducer.Pumped σ₂ UChar Byte :=
  T₂.pump room t.outputState t.outputHeld t.carry

def Object.flush (t : Object σ₁ σ₂) (room : ℕ) : Object σ₁ σ₂ :=
  let r := t.fromUnicode T₂ room
  let inputUsed := t.bufferUsed - r.rest.length
  { t with
    outputState := r.state
    outputHeld := r.held
    buffer :=
      if inputUsed < t.bufferUsed then memmove t.buffer inputUsed (t.bufferUsed - inputUsed)
      else t.buffer
    bufferUsed := t.bufferUsed - inputUsed }

def Object.toUnicode (t : Object σ₁ σ₂) (input : Bytes) : Transducer.Pumped σ₁ Byte UChar :=
  T₁.pump (bufferSize - t.bufferUsed) t.inputState t.inputHeld input

def Object.consume (t : Object σ₁ σ₂) (input : Bytes) : Object σ₁ σ₂ :=
  let r := t.toUnicode T₁ input
  { t with
    inputState := r.state
    inputHeld := r.held
    buffer := t.carry ++ r.written ++ t.buffer.drop (t.bufferUsed + r.written.length)
    bufferUsed := t.bufferUsed + r.written.length }

structure Result (σ₁ σ₂ : Type*) where
  object : Object σ₁ σ₂
  input : Bytes
  passes : List Bytes
  units : List UChar

def Result.after (r : Result σ₁ σ₂) (pass : Bytes) : Result σ₁ σ₂ :=
  { r with passes := pass :: r.passes }

def Object.next (t : Object σ₁ σ₂) (input : Bytes) (room : ℕ)
    (loop : Object σ₁ σ₂ → Bytes → ℕ → Option (Result σ₁ σ₂)) : Option (Result σ₁ σ₂) :=
  if input = [] then some ⟨t, input, [], t.carry⟩
  else loop (t.consume T₁ input) (t.toUnicode T₁ input).rest room

/-- The loop, for so many rounds; `none` if it goes on. -/
def convertLoop : ℕ → Object σ₁ σ₂ → Bytes → ℕ → Option (Result σ₁ σ₂)
  | 0, _, _, _ => none
  | fuel + 1, t, input, room =>
    if room = 0 then some ⟨t, input, [], t.carry⟩
    else if 0 < t.bufferUsed then
      if (t.fromUnicode T₂ room).overflow then some
        ⟨t.flush T₂ room, input, [(t.fromUnicode T₂ room).written], (t.fromUnicode T₂ room).rest⟩
      else
        ((t.flush T₂ room).next T₁ input (room - (t.fromUnicode T₂ room).written.length)
          (convertLoop fuel)).map (·.after (t.fromUnicode T₂ room).written)
    else t.next T₁ input room (convertLoop fuel)

/-- Every round but the last reads input or takes units that the converter has held back. -/
def enoughFuel (t : Object σ₁ σ₂) (input : Bytes) : ℕ :=
  input.length + t.inputHeld.length + (T₁.run t.inputState input).2.length + 1

/-- The loop does end in so many rounds. -/
def convertText (t : Object σ₁ σ₂) (input : Bytes) (outputBufferLength : ℕ) : Result σ₁ σ₂ :=
  (convertLoop T₁ T₂ (enoughFuel T₁ t input) t input outputBufferLength).getD
    ⟨t, input, [], t.carry⟩

def flushText (t : Object σ₁ σ₂) (outputBufferLength : ℕ) : Result σ₁ σ₂ :=
  convertText T₁ T₂ t [] outputBufferLength

def Result.actualOutputLength (r : Result σ₁ σ₂) : ℕ := (r.passes.getLast?.map List.length).getD 0

def Result.written (r : Result σ₁ σ₂) : Bytes := r.passes.flatten

/-- A client with the input that it has not got rid of, all that was written, what the last call
wrote and reported, and whether that was a flush that wrote nothing. -/
structure Client (σ₁ σ₂ : Type*) where
  object : Object σ₁ σ₂
  rest : Bytes
  written : Bytes
  last : Bytes
  reported : ℕ
  quiet : Bool

def Client.init (garbage : List UChar) (input : Bytes) : Client σ₁ σ₂ where
  object := ⟨T₁.init, [], T₂.init, [], garbage, 0⟩
  rest := input
  written := []
  last := []
  reported := 0
  quiet := false

inductive Call where
  /-- The next bytes of the input, not more than `length` of them. -/
  | convert (length : ℕ) (outputBufferLength : ℕ+)
  | flush (outputBufferLength : ℕ+)

def Call.result (s : Client σ₁ σ₂) : Call → Result σ₁ σ₂
  | convert length n => convertText T₁ T₂ s.object (s.rest.take length) n
  | flush n => flushText T₁ T₂ s.object n

def Call.actualInputLength (s : Client σ₁ σ₂) : Call → ℕ
  | convert length n =>
    (s.rest.take length).length - (convertText T₁ T₂ s.object (s.rest.take length) n).input.length
  | flush _ => 0

def Client.step (s : Client σ₁ σ₂) (call : Call) : Client σ₁ σ₂ where
  object := (call.result T₁ T₂ s).object
  rest := s.rest.drop (call.actualInputLength T₁ T₂ s)
  written := s.written ++ (call.result T₁ T₂ s).written
  last := (call.result T₁ T₂ s).written
  reported := (call.result T₁ T₂ s).actualOutputLength
  quiet :=
    match call with
    | .convert _ _ => false
    | .flush _ => (call.result T₁ T₂ s).written = []

def oneShot (input : Bytes) : Bytes := T₂.full T₂.init (T₁.full T₁.init input)

def Object.toCome (t : Object σ₁ σ₂) (units : List UChar) (rest : Bytes) : Bytes :=
  t.outputHeld ++ T₂.full t.outputState (units ++ (t.inputHeld ++ T₁.full t.inputState rest))

/-- The last call wrote as many bytes as it reported; what was written and what is to come is the
conversion of the whole input; and nothing is to come after a flush that wrote nothing. -/
structure Client.Faithful (input : Bytes) (s : Client σ₁ σ₂) : Prop where
  reported : s.reported = s.last.length
  toCome : s.written ++ s.object.toCome T₁ T₂ s.object.carry s.rest = oneShot T₁ T₂ input
  complete : s.rest = [] → s.quiet = true → s.written = oneShot T₁ T₂ input

/-- The units of the input, with those held back, in the blocks in which the buffer takes them. -/
def inputBlocks : ℕ → σ₁ → List UChar → Bytes → List (List UChar)
  | 0, _, _, _ => []
  | fuel + 1, state, held, input =>
    if input = [] then []
    else
      let r := T₁.pump bufferSize state held input
      r.written :: inputBlocks fuel r.state r.held r.rest

/-- The units that are carried over, and the blocks of the input. -/
def Object.blocks (t : Object σ₁ σ₂) (fuel : ℕ) (input : Bytes) : List (List UChar) :=
  (t.carry :: inputBlocks T₁ fuel t.inputState t.inputHeld input).filter (· ≠ [])

def Call.blocks (s : Client σ₁ σ₂) (call : Call) : List (List UChar) :=
  let input := match call with
    | convert length _ => s.rest.take length
    | flush _ => []
  s.object.blocks T₁ (enoughFuel T₁ s.object input) input

def Call.room : Call → ℕ
  | convert _ n | flush n => n

/-- What the output converter has held back, and what it makes of these units. -/
def given (state : σ₂) (held : Bytes) (units : List UChar) : Bytes := held ++ (T₂.run state units).2

/-- Behind the first block that gives bytes is no other, unless they fill the room; and the bytes of
a block do not fill the room before its last unit. -/
structure Clean (room : ℕ) (state : σ₂) (held : Bytes) (blocks : List (List UChar)) : Prop where
  alone : ∀ pre post, blocks = pre ++ post → pre ≠ [] → given T₂ state held pre.flatten ≠ [] →
    (given T₂ state held pre.flatten).length < room → post = []
  whole : ∀ pre block post, blocks = pre ++ block :: post →
    (given T₂ state held pre.flatten).length < room →
      (given T₂ state held (pre.flatten ++ block.dropLast)).length < room

/-- One block of the call gives bytes, and none is cut; and if it is a flush at the end of the input
that has nothing to write, the converters hold nothing back. -/
structure Client.Condition (s : Client σ₁ σ₂) (call : Call) : Prop where
  clean : Clean T₂ call.room s.object.outputState s.object.outputHeld (call.blocks T₁ s)
  drained : ∀ n, call = .flush n → s.rest = [] →
    (s.object.carry = [] ∨ s.object.outputHeld = [] ∧
      (T₂.run s.object.outputState s.object.carry).2 = []) →
    s.object.toCome T₁ T₂ s.object.carry [] = []

end Convert

end Darling.Tec
