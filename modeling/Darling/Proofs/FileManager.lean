import Darling.FileManager
import Mathlib.Tactic.Common

/-!
# The loop of `hasgid` does not end

`getgroups` returns the same number twice, which is when the loop goes on.
-/

namespace Darling.FileManager

theorem getgroups_length (c : Caller) : getgroups c c.groups.length = c.groups.length := by
  simp [getgroups]

theorem hasgidLoop_eq_none (c : Caller) : ∀ fuel : ℕ, hasgidLoop c fuel = none
  | 0 => rfl
  | fuel + 1 => by
    have hcount : getgroups c 0 = c.groups.length := by simp [getgroups]
    simp only [hasgidLoop, hcount, getgroups_length, hasgidLoop_eq_none c fuel]
    simp

theorem hasgid_eq (fuel : ℕ) (c : Caller) (gid : BitVec 32) :
    hasgid fuel c gid = if c.egid = gid then some true else none := by
  rw [hasgid, hasgidLoop_eq_none]

theorem hasgidRight_iff (c : Caller) (gid : BitVec 32) : HasgidRight c gid ↔ gid = c.egid := by
  simp only [HasgidRight, hasgid_eq]
  constructor
  · rintro ⟨-, b, h, -⟩
    by_contra hne
    simp [Ne.symm hne] at h
  · rintro rfl
    exact ⟨0, true, by simp, by simp⟩

/-- Of the bits of the owner or of the group none is the one that is looked at. -/
theorem fsGetCatalogInfo_eq (fuel : ℕ) (c : Caller) (st : Stat) : fsGetCatalogInfo fuel c st =
    if st.uid = c.uid then some 0x4 else if st.gid = c.egid then some 0x84 else none := by
  simp only [fsGetCatalogInfo, uaccess, hasgid_eq, eq_comm (a := c.uid), eq_comm (a := c.egid)]
  split_ifs with huid hgid
  · simp [BitVec.and_assoc]
  · simp [BitVec.and_assoc]
  · rfl

theorem privilegesRight_iff (c : Caller) (st : Stat) : PrivilegesRight c st ↔
    (st.uid = c.uid ∨ st.gid = c.egid) ∧ ¬ Writable c st := by
  simp only [PrivilegesRight, fsGetCatalogInfo_eq]
  by_cases huid : st.uid = c.uid
  · simp [huid]
  · by_cases hgid : st.gid = c.egid <;> simp [huid, hgid]

/-- `hasgid` returns for the effective group alone, `FSGetCatalogInfo` for it and for the owner, and
then it says that there may be no changes. -/
theorem catalogInfo_right_iff (c : Caller) (gid : BitVec 32) (st : Stat) :
    (HasgidRight c gid ↔ gid = c.egid) ∧ (PrivilegesRight c st ↔
      (st.uid = c.uid ∨ st.gid = c.egid) ∧ ¬ Writable c st) :=
  ⟨hasgidRight_iff c gid, privilegesRight_iff c st⟩

/-- A file of mode 644 of the caller, who is in no other group. -/
theorem catalogInfo_owner_wrong : ¬ PrivilegesRight ⟨501, 20, []⟩ ⟨0o644, 501, 20⟩ := by
  rw [privilegesRight_iff, Writable]
  decide

end Darling.FileManager
