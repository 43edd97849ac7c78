import Darling.Endian

/-!
# Streams of an audio device

The callbacks and streams of `AudioHardwareImpl.cpp`, and the conversion of samples in
`pulse/AudioHardwareStreamPA.cpp`, on a machine that has the low byte first.
-/

namespace Darling.AudioHardware

/-- A callback and its client data.  Ids and callbacks are addresses. -/
abbrev Proc := ℤ × ℤ

/-- A stream has the callback and the client data that it was created with. -/
structure State where
  proc : ℤ → Option Proc := fun _ => none
  nextProcId : ℤ := 1
  streams : ℤ → Option Proc := fun _ => none

inductive Call
  | createIOProcID (inProc inClientData : ℤ) (outIOProcID : Bool)
  | destroyIOProcID (inIOProcID : ℤ)
  /-- `createStream` returns a stream or `NULL`. -/
  | start (inProcID : ℤ) (stream : Bool)
  | stop (inProcID : ℤ)

def State.step (s : State) : Call → State
  | .createIOProcID inProc inClientData outIOProcID =>
    if inProc = 0 then s
    else if outIOProcID then
      { s with
        proc := Function.update s.proc s.nextProcId (some (inProc, inClientData))
        nextProcId := Int.bmod (s.nextProcId + 1) (2 ^ 32) }
    else { s with proc := Function.update s.proc inProc (some (inProc, inClientData)) }
  | .destroyIOProcID inIOProcID => { s with proc := Function.update s.proc inIOProcID none }
  | .start inProcID stream =>
    if s.streams inProcID = none ∧ stream then
      { s with streams := Function.update s.streams inProcID (s.proc inProcID) }
    else s
  | .stop inProcID => { s with streams := Function.update s.streams inProcID none }

inductive Width
  | w8
  | w16
  | w24
  | w32
deriving DecidableEq

/-- `mBitsPerChannel`. -/
def Width.bits : Width → ℕ
  | .w8 => 8
  | .w16 => 16
  | .w24 => 24
  | .w32 => 32

/-- The bytes of a sample in the buffer. -/
def Width.size : Width → ℕ
  | .w8 => 1
  | .w16 => 2
  | .w24 => 4
  | .w32 => 4

/-- `transform`, for an unsigned type of so many bits. -/
def transform (bits v : ℕ) : ℕ := (v + 2 ^ (bits - 1)) % 2 ^ bits

/-- What is done to the number that is read. -/
def Width.convert : Width → ℕ → ℕ
  | .w24, v =>
    transform 32 (if v &&& 0x800000 ≠ 0 then v ||| 0xff000000 else v) &&& 0xffffff
  | w, v => transform w.bits v

def transformSample (w : Width) (revEndian : Bool) (s : Bytes) : Bytes :=
  if revEndian then le w.size (bswap w.size (w.convert (bswap w.size (unle s))))
  else le w.size (w.convert (unle s))

/-- The loop over so many samples. -/
def transformSamples (w : Width) (revEndian : Bool) : ℕ → Bytes → Bytes
  | 0, data => data
  | j + 1, data => transformSample w revEndian (data.take w.size) ++
      transformSamples w revEndian j (data.drop w.size)

/-- What becomes of one buffer; the counter of the loop is an `int`. -/
def transformSignedUnsigned (w : Width) (revEndian : Bool) (data : Bytes) : Option Bytes :=
  if data.length / w.size < 2 ^ 31 then
    some (transformSamples w revEndian (data.length / w.size) data)
  else none

end Darling.AudioHardware
