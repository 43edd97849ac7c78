import Darling.Cells
import Darling.Endian
import Darling.Xattr

/-!
# Socket addresses: `network/duct.c`

`sys_bind` converts the caller's address in a block of its own, `sys_getsockname` and
`sys_recvfrom_nocancel` convert the address that Linux returns in the caller's buffer.  The path of
a local socket is expanded on the way in and unexpanded on the way out.  Memory that nothing has
been stored in holds no values.
-/

namespace Darling.Duct

open CArray Cells Vchroot

def sfamilyLinuxToBsd : ℕ → ℕ
  | 1 => 1
  | 2 => 2
  | 4 => 23
  | 10 => 30
  | family => family

def sfamilyBsdToLinux : ℕ → ℕ
  | 1 => 1
  | 2 => 2
  | 23 => 4
  | 30 => 10
  | family => family

/-- `sizeof(struct sockaddr_fixup)`, with `sun_path` from 2 on. -/
def fixupSize : ℕ := 106

def sunPathSize : ℕ := 104

section FromBsd

variable {ι : Type} (w : Xattr.System ι)

def sockaddrFixupSizeFromBsd (name : Bytes) (len : ℕ) : Option ℕ := do
  let family ← name[1]?
  return if family.toNat = 1 then fixupSize else len

def expandSunPath (st : Xattr.Stack) (out : List (Option Byte)) :
    Option (ℤ × List (Option Byte)) := do
  let path ← readStr 0 out 2
  let (ret, vc) ← w.expand st path false
  if ret < 0 then return (errnoLinuxToBsd w.errnos ret, out)
  else
    let path ← str 0 vc 0
    let out ← writeStrn 0 out 2 path (sunPathSize - 1)
    let out ← writeAt out (2 + sunPathSize - 1) [0]
    let path ← readStr 0 out 2
    return (2 + path.length, out)

def sockaddrFixupFromBsd (st : Xattr.Stack) (out : List (Option Byte)) (name : Bytes) (len : ℕ) :
    Option (ℤ × List (Option Byte)) := do
  let bytes ← slice name 0 len
  let out ← writeAt out 0 bytes
  let family ← readAt out 1 1
  let family := sfamilyBsdToLinux (unle family)
  let out ← writeAt out 0 (le 2 family)
  if family = 1 then expandSunPath w st out else return (len, out)

/-- How `sys_bind` ends: it returns, or calls Linux with an address and maps what that returns. -/
inductive Request where
  | ret (rv : ℤ)
  | call (addr : Bytes) (finish : ℤ → ℤ)

def sysBind (st : Xattr.Stack) (name : Bytes) (socklen : ℕ) : Option Request :=
  if 512 < socklen then some (.ret (fail einval))
  else do
    let size ← sockaddrFixupSizeFromBsd name socklen
    let (ret, fixed) ← sockaddrFixupFromBsd w st (List.replicate size none) name socklen
    if ret < 0 then return .ret ret
    else
      let addr ← readAt fixed 0 ret.toNat
      return .call addr w.finish

end FromBsd

section FromLinux

variable (V : Config)

def unexpandSunPath (vc : Bytes) (out : List (Option Byte)) : Option (ℕ × List (Option Byte)) := do
  let path ← readStr 0 out 2
  let vc ← strcpy 0 vc 0 path
  let vc ← vchrootUnexpand V vc
  let path ← str 0 vc 0
  let out ← writeStrn 0 out 2 path (sunPathSize - 1)
  let out ← writeAt out (2 + sunPathSize - 1) [0]
  let path ← readStr 0 out 2
  return (2 + path.length + 1, out)

def sockaddrFixupFromLinux (vc : Bytes) (out : List (Option Byte)) (len : ℕ) :
    Option (ℤ × List (Option Byte)) := do
  let bytes ← readAt out 0 len
  let out ← writeAt out 0 bytes
  let family ← readAt out 0 2
  let family := UInt8.ofNat (sfamilyLinuxToBsd (unle family))
  let out ← writeAt out 1 [family]
  let (ret, out) ← (if family.toNat = 1 then unexpandSunPath V vc out else some (len, out))
  let out ← writeAt out 0 [UInt8.ofNat ret]
  return (ret, out)

/-- What a call leaves with the caller: the return code, the buffer and `*socklen`. -/
structure Outcome where
  ret : ℤ
  buf : List (Option Byte)
  socklen : ℤ

/-- Linux stores as much of the address as the buffer takes, and its full length in `*socklen`. -/
def kernelStores (L : ℕ) (addr : Bytes) : List (Option Byte) :=
  (addr.take L).map some ++ List.replicate (L - addr.length) none

/-- `sys_getsockname`, for a buffer of `L` bytes; Linux returns `rv` and, if it succeeds, `addr`. -/
def sysGetsockname (errnos : ℕ → ℕ) (vc : Bytes) (L : ℕ) (rv : ℤ) (addr : Bytes) : Option Outcome :=
  if rv < 0 then some ⟨errnoLinuxToBsd errnos rv, List.replicate L none, L⟩
  else do
    let (ret, buf) ← sockaddrFixupFromLinux V vc (kernelStores L addr) addr.length
    return ⟨if 0 < ret then 0 else ret, buf, ret⟩

def sysRecvfromNocancel (errnos : ℕ → ℕ) (vc : Bytes) (L : ℕ) (rv : ℤ) (addr : Bytes) :
    Option Outcome :=
  if rv < 0 then some ⟨errnoLinuxToBsd errnos rv, List.replicate L none, L⟩
  else do
    let (len, buf) ← sockaddrFixupFromLinux V vc (kernelStores L addr) addr.length
    return ⟨if len < 0 then len else rv, buf, len⟩

end FromLinux

end Darling.Duct
