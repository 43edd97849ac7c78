import Darling.CArray
import Darling.Endian
import Mathlib.Algebra.Group.Int.Defs
import Mathlib.Data.Int.Basic

/-!
# Control messages in `network/sendmsg.c` and `network/recvmsg.c`

A control buffer is a sequence of messages, each a header, the data, and padding.  The width of
`cmsg_len` is 4 bytes in BSD and 8 in Linux, and so is the alignment.  Sending builds the Linux
buffer from the BSD one, receiving goes through the Linux buffer in a loop.
-/

namespace Darling.Cmsg

open CArray

structure Message where
  level : UInt32
  type : UInt32
  data : Bytes

section Layout

variable (word : ℕ)

/-- `struct bsd_cmsghdr` and `struct linux_cmsghdr`: `cmsg_len` of 4 or 8 bytes, `cmsg_level` and
`cmsg_type`.  The width of `cmsg_len` is also the alignment. -/
def header (m : Message) : Bytes :=
  le word (word + 8 + m.data.length) ++ (le 4 m.level.toNat ++ le 4 m.type.toNat)

def cmsgSpace (len : ℕ) : ℕ := align (word + 8) word + align len word

/-- The buffer holds these messages, with any padding. -/
def Laid : List Message → Bytes → Prop
  | [], buf => buf = []
  | m :: ms, buf => ∃ pad rest, buf = header word m ++ (m.data ++ (pad ++ rest)) ∧
      pad.length = align m.data.length word - m.data.length ∧ Laid ms rest

end Layout

def socketLevelBsdToLinux (level : UInt32) : UInt32 := if level = 0xffff then 1 else level

def socketLevelLinuxToBsd (level : UInt32) : UInt32 := if level = 1 then 0xffff else level

/-- The Linux buffer that `sys_sendmsg_nocancel` builds from `msg_control`; `junk` is what `malloc`
returns. -/
def sendmsgControl (junk : ℕ → Byte) (control : Bytes) : Option Bytes :=
  if 0 < control.length then do
    let lchdr := (List.range (align (control.length + (16 - 12)) 8)).map junk
    let len ← load 4 control 0
    let level ← load 4 control 4
    let type ← load 4 control 8
    let lchdr ← blit lchdr 0 (le 8 (len + (16 - 12)) ++
      (le 4 (socketLevelBsdToLinux (UInt32.ofNat level)).toNat ++ le 4 type))
    let data ← slice control 12 (wsub 64 len 12)
    blit lchdr 16 data
  else some []

def recvmsgRoom (controllen : ℕ) : ℕ := align (controllen + (16 - 12)) 8

/-- The loop of `sys_recvmsg_nocancel`; `lpos` and `bpos` are of type `int`. -/
def convert (lbuf : Bytes) : ℕ → ℤ → ℤ → Bytes → ℕ → Option (Bytes × ℕ)
  | 0, _, _, _, _ => none
  | fuel + 1, lpos, bpos, control, controllen =>
    if (lpos % 2 ^ 64).toNat < lbuf.length then do
      let len ← load 8 lbuf lpos.toNat
      let level ← load 4 lbuf (lpos.toNat + 8)
      let type ← load 4 lbuf (lpos.toNat + 12)
      let blen := wsub 32 len (16 - 12)
      let size := wsub 64 len 16
      -- In front of the caller's buffer.
      if bpos < 0 then none
      else do
        let control ← blit control bpos.toNat (le 4 blen ++
          (le 4 (socketLevelLinuxToBsd (UInt32.ofNat level)).toNat ++ le 4 type))
        let data ← slice lbuf (lpos.toNat + 16) size
        let control ← blit control (bpos.toNat + 12) data
        convert lbuf fuel (Int.bmod (lpos + align len 8) (2 ^ 32))
          (Int.bmod (bpos + align blen 4) (2 ^ 32)) control
          (wsub 32 controllen (cmsgSpace 8 size - cmsgSpace 4 size))
    else some (control, controllen)

def recvmsgControl (fuel : ℕ) (lbuf control : Bytes) : Option (Bytes × ℕ) :=
  convert lbuf fuel 0 0 control (lbuf.length % 2 ^ 32)

end Darling.Cmsg
