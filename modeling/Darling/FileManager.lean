import Mathlib.Data.Int.Notation
import Mathlib.Data.Nat.Notation

/-!
# `FSGetCatalogInfo` with `kFSCatInfoUserPrivs`

For a file that `stat` finds.  A call that needs more rounds of the loop than `fuel` has no result.
-/

namespace Darling.FileManager

structure Caller where
  uid : BitVec 32
  egid : BitVec 32
  groups : List (BitVec 32)

structure Stat where
  mode : BitVec 16
  uid : BitVec 32
  gid : BitVec 32

/-- The return value of `getgroups` for a buffer of `size` elements; -1 is `EINVAL`. -/
def getgroups (c : Caller) (size : ℤ) : ℤ :=
  if size = 0 then c.groups.length else if size < c.groups.length then -1 else c.groups.length

/-- The loop of `hasgid`, which is left only if the second call returns another number: then
`count` is 0, and there is nothing to be found. -/
def hasgidLoop (c : Caller) : ℕ → Option Bool
  | 0 => none
  | fuel + 1 =>
    let count := getgroups c 0
    if count = -1 then hasgidLoop c fuel
    else if getgroups c count ≠ count then some false
    else hasgidLoop c fuel

def hasgid (fuel : ℕ) (c : Caller) (gid : BitVec 32) : Option Bool :=
  if c.egid = gid then some true else hasgidLoop c fuel

def uaccess (fuel : ℕ) (c : Caller) (st : Stat) : Option (BitVec 16) :=
  if st.uid = c.uid then some (st.mode &&& 0o700)
  else (hasgid fuel c st.gid).map fun b => if b then st.mode &&& 0o70 else st.mode &&& 0o7

def fsGetCatalogInfo (fuel : ℕ) (c : Caller) (st : Stat) : Option (BitVec 8) :=
  (uaccess fuel c st).map fun access =>
    (if access &&& 2 = 0 then 0x4 else 0) ||| if c.uid = st.uid then 0 else 0x80

def Writable (c : Caller) (st : Stat) : Prop :=
  st.mode &&& (if st.uid = c.uid then 0o200
    else if st.gid = c.egid ∨ st.gid ∈ c.groups then 0o20 else 0o2) ≠ 0

/-- `hasgid` returns, and finds the group exactly if the caller is in it. -/
def HasgidRight (c : Caller) (gid : BitVec 32) : Prop :=
  ∃ fuel b, hasgid fuel c gid = some b ∧ (b = true ↔ gid = c.egid ∨ gid ∈ c.groups)

def PrivilegesRight (c : Caller) (st : Stat) : Prop :=
  ∃ fuel privs, fsGetCatalogInfo fuel c st = some privs ∧ (privs &&& 0x4 ≠ 0 ↔ ¬ Writable c st)

end Darling.FileManager
