import Darling.Endian

/-!
# The commands of `shellspawn`

The client (`startup/darling.c`) writes commands to a stream socket, a header of four bytes and the
data, and `GO` last, with the descriptors attached to its first byte.  The server
(`shellspawn/shellspawn.c`) reads them one by one; what it does with a command it has read is left
out.
-/

namespace Darling.Shellspawn

def cmdGo : UInt16 := 4

structure Command where
  cmd : UInt16
  data : Bytes
deriving DecidableEq

/-- `pushShellspawnCommandData`: `data_length` is an `unsigned short`. -/
def pushShellspawnCommandData (c : Command) : Bytes :=
  le 2 c.cmd.toNat ++ (le 2 c.data.length ++ c.data)

structure Socket where
  pending : Bytes
  control : Option ℕ

def client (cmds : List Command) : Socket where
  pending := cmds.flatMap pushShellspawnCommandData ++ pushShellspawnCommandData ⟨cmdGo, []⟩
  control := some (cmds.flatMap pushShellspawnCommandData).length

/-- A call that asks for `count` bytes gets some that wait, `most` at most and one at least; with
the bytes comes whether the control message was among them. -/
def Socket.recv (s : Socket) (most count : ℕ) : Bytes × Bool × Socket :=
  let n := max 1 (min most count)
  (s.pending.take n, s.control.any (· < n),
    ⟨s.pending.drop n, (s.control.filter (n ≤ ·)).map (· - n)⟩)

section Server

variable (most : ℕ → ℕ)

/-- `recvmsg` of the header and `read` of the data, the calls number `i` and `i + 1`; `none` is the
jump to `err`. -/
def readCommand (i : ℕ) (s : Socket) : Option (Command × Bool × ℕ × Socket) :=
  let (header, control, s) := s.recv (most i) 4
  if header.length ≠ 4 then none
  else
    let cmd := UInt16.ofNat (unle (header.take 2))
    let dataLength := unle (header.drop 2)
    if dataLength ≠ 0 then
      let (param, _, s) := s.recv (most (i + 1)) dataLength
      if param.length ≠ dataLength then none else some (⟨cmd, param⟩, control, i + 2, s)
    else some (⟨cmd, []⟩, control, i + 1, s)

def spawnShell : ℕ → ℕ → Socket → Option (List Command)
  | 0, _, _ => none
  | fuel + 1, i, s =>
    match readCommand most i s with
    | none => none
    | some (c, control, i, s) =>
      if c.cmd = cmdGo then if control then some [c] else none
      else (spawnShell fuel i s).map (c :: ·)

end Server

end Darling.Shellspawn
