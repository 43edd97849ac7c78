import Darling.Proofs.CArray
import Darling.Proofs.Endian
import Darling.Reader
import Darling.Sysctl

/-!
# Variables by name and by number

The tree has no two entries with one number at a level and is four levels deep at most, so the
vector that `handle_name_to_oid` puts down leads `sys_sysctl` to the entry that `sys_sysctlbyname`
finds.  A handler only looks at what comes behind the numbers of its own entry.
-/

namespace Darling.Sysctl

open CArray Catalog

theorem sysctlsRoot_numbered : Numbered 4 sysctlsRoot := by decide

def Handler.looks : Handler → Bool
  | .plain _ => false
  | .nameToOid => false
  | _ => true

theorem sysctlsRoot_shallow :
    Everywhere (fun d (info : Info) => d ≤ 4 ∧ (info.handler.any Handler.looks → d ≤ 2)) 4 0
      sysctlsRoot := by
  decide

/-- The call fails, if it does, because of what `old`, `oldlen` or `_new` points to. -/
def Buffered {α : Type*} (r : Except Fault α) : Prop := ∀ f, r = .error f → f = .buffer

section Buffered

variable {α β : Type}

theorem Buffered.ok (x : α) : Buffered (.ok x) := nofun

theorem buffered_buffer : ∀ x : Option α, Buffered (buffer x)
  | none, _, h => (Except.error.inj h).symm
  | some _, _, h => nomatch h

theorem Buffered.bind {r : Except Fault α} {f : α → Except Fault β} (hr : Buffered r)
    (hf : ∀ x, Buffered (f x)) : Buffered (r >>= f) := by
  intro x h
  cases r with
  | error y => exact hr x (congrArg _ (Except.error.inj h))
  | ok y => exact hf y x h

end Buffered

theorem numbers_some (ts : List Bytes) : numbers 4 sysctlsRoot ts ≠ none := by
  rcases hwalk : byName sysctlsRoot ts with e | current
  · rw [numbers_of_error sysctlsRoot_numbered hwalk]
    exact nofun
  · obtain ⟨vec, hvec, -, -⟩ := byNumber_of_byName sysctlsRoot_numbered hwalk
    rw [hvec]
    exact nofun

section Handlers

variable {ω : Type} (m : Machine ω) (a : Args) (w : ω)

theorem run_short (h : Handler) {name : Option (List UInt32)} {nlen : ℤ}
    (hlen : h.looks → nlen ≤ 2) : h.run m name nlen a w = h.run m none 0 a w := by
  have hloop : nlen ≤ 2 → (nlen - 2).toNat = 0 := fun hle => by omega
  cases h with
  | plain h => rfl
  | nameToOid => rfl
  | oidToName =>
    simp only [Handler.run, handleOidToName, hloop (hlen rfl)]
    rfl
  | getDataType =>
    simp only [Handler.run, handleGetDataType, hloop (hlen rfl)]
    rfl
  | proc =>
    have hle := hlen rfl
    simp only [Handler.run, handleProc]
    rw [if_pos (by omega), if_pos (by omega)]
  | procargs32 =>
    have hle := hlen rfl
    simp only [Handler.run, handleProcargs32]
    rw [if_pos (by omega), if_pos (by omega)]
  | procCputype =>
    have hle := hlen rfl
    simp only [Handler.run, handleProcCputype]
    rw [if_pos (by omega), if_pos (by omega)]
  | route =>
    have hle := hlen rfl
    simp only [Handler.run, handleRoute]
    rw [if_pos (by omega), if_pos (by omega)]

theorem copyoutString_buffered (text : Bytes) : Buffered (copyoutString text a w) := by
  rw [copyoutString]
  split
  · exact .ok _
  · exact (buffered_buffer _).bind fun _ => (buffered_buffer _).bind fun _ => .ok _

theorem handleNameToOid_buffered : Buffered (handleNameToOid a w) := by
  refine (buffered_buffer _).bind fun new => (buffered_buffer _).bind fun text => ?_
  split
  · exact absurd ‹_› (numbers_some _)
  · exact .ok _
  · refine (buffered_buffer _).bind fun len => ?_
    split
    · exact .ok _
    split_ifs
    · exact .ok _
    · exact (buffered_buffer _).bind fun _ => .ok _

theorem run_buffered (h : Handler) : Buffered (h.run m none 0 a w) := by
  cases h with
  | plain h => exact buffered_buffer _
  | nameToOid => exact handleNameToOid_buffered a w
  | oidToName => exact copyoutString_buffered a w []
  | getDataType =>
    refine (buffered_buffer _).bind fun len => ?_
    split
    · exact .ok _
    split_ifs
    · exact .ok _
    · exact (buffered_buffer _).bind fun _ => (buffered_buffer _).bind fun _ => .ok _
  | proc => exact .ok _
  | procargs32 => exact .ok _
  | procCputype => exact .ok _
  | route => exact .ok _

end Handlers

section Calls

variable {ω : Type} (m : Machine ω)

theorem entries_agree (name : Bytes) : (∃ e, entryByName name = .error e ∧
      numbers 4 sysctlsRoot (tokens (name.take (128 - 1))) = some (.error e)) ∨
    ∃ current vec, entryByName name = .ok current ∧
      numbers 4 sysctlsRoot (tokens (name.take (128 - 1))) = some (.ok vec) ∧ vec.length ≤ 4 ∧
      entryByOid (some vec) vec.length = some (.ok current) := by
  rcases hwalk : entryByName name with e | current
  · exact .inl ⟨e, rfl, numbers_of_error sysctlsRoot_numbered hwalk⟩
  · obtain ⟨vec, hvec, hlen, hback⟩ := byNumber_of_byName sysctlsRoot_numbered hwalk
    refine .inr ⟨current, vec, rfl, hvec, hlen, hback fun j x hj => ?_⟩
    rw [Nat.zero_add]
    exact hj

theorem finish_agrees {name : Bytes} {current : KnownSysctl} {vec : List UInt32}
    (hname : entryByName name = .ok current)
    (hvec : numbers 4 sysctlsRoot (tokens (name.take (128 - 1))) = some (.ok vec)) (a : Args)
    (w : ω) : finish m (some vec) vec.length a w current = finish m none 0 a w current := by
  have hshallow := sysctlsRoot_shallow.of_byName hname hvec
  rw [finish, finish]
  rcases hhandler : current.data.handler with _ | h
  · rfl
  · refine run_short m a w h fun hlooks => ?_
    rw [hhandler, Nat.zero_add] at hshallow
    exact_mod_cast hshallow.2 hlooks

theorem finish_buffered (current : KnownSysctl) (a : Args) (w : ω) :
    Buffered (finish m none 0 a w current) := by
  rw [finish]
  split
  · exact .ok _
  · exact run_buffered m a w _

theorem sysSysctl_ok {vec : List UInt32} {current : KnownSysctl} (hlen : vec.length ≤ 4)
    (h : entryByOid (some vec) vec.length = some (.ok current)) (a : Args) (w : ω) :
    sysSysctl m (some vec) vec.length a w = finish m (some vec) vec.length a w current := by
  have hint : (vec.length : ℤ).bmod (2 ^ 32) = vec.length :=
    Int.bmod_eq_of_le (by omega) (by omega)
  rw [sysSysctl, h, hint]
  rfl

def oidRequest (name buf : Bytes) : Args :=
  ⟨some buf, some buf.length, some (name ++ [0]), name.length⟩

theorem sysSysctl_nameToOid (a : Args) (w : ω) :
    sysSysctl m (some [0, 3]) 2 a w = handleNameToOid a w := rfl

theorem handleNameToOid_text {name : Bytes} (hnul : 0 ∉ name) (buf : Bytes) (w : ω) :
    handleNameToOid (oidRequest name buf) w =
      match numbers 4 sysctlsRoot (tokens (name.take (128 - 1))) with
      | none => .error .array
      | some (.error e) => .ok ((oidRequest name buf).returns (WalkError.code e) w)
      | some (.ok oid) =>
        if buf.length < 4 * oid.length then .ok ((oidRequest name buf).returns (fail einval) w)
        else do
          let old ← buffer (blit buf 0 (bytesOf oid))
          return ⟨0, some old, some (4 * oid.length), w⟩ := by
  have htext : str 0 (name ++ [0]) 0 = some name := str_split hnul [] []
  simp only [handleNameToOid, oidRequest, buffer, ok_bind, htext]
  rfl

theorem bytesOf_length (xs : List UInt32) : (bytesOf xs).length = 4 * xs.length := by
  rw [bytesOf, List.length_flatMap]
  simp [le_length, Nat.mul_comm]

/-- `sys_sysctlbyname` fails as the request for the vector does, or does what `sys_sysctl` does with
the vector, with one entry found by both. -/
def Agrees (name buf : Bytes) (a : Args) (w : ω) : Prop :=
  (∃ e, sysSysctl m (some [0, 3]) 2 (oidRequest name buf) w =
        .ok ((oidRequest name buf).returns (WalkError.code e) w) ∧
      sysSysctlbyname m name a w = .ok (a.returns (WalkError.code e) w)) ∨
    ∃ vec current, vec.length ≤ 4 ∧
      (4 * vec.length ≤ buf.length → sysSysctl m (some [0, 3]) 2 (oidRequest name buf) w =
        .ok ⟨0, some (bytesOf vec ++ buf.drop (4 * vec.length)), some (4 * vec.length), w⟩) ∧
      entryByName name = .ok current ∧ entryByOid (some vec) vec.length = some (.ok current) ∧
      sysSysctlbyname m name a w = sysSysctl m (some vec) vec.length a w

theorem sysctlbyname_agrees {name : Bytes} (hnul : 0 ∉ name) (hname : name ≠ noremotehang)
    (buf : Bytes) (a : Args) (w : ω) :
    Agrees m name buf a w ∧ Buffered (sysSysctlbyname m name a w) ∧
      ∀ b, Buffered (sysSysctl m (some [0, 3]) 2 b w) := by
  rw [Agrees]
  simp only [sysSysctl_nameToOid, handleNameToOid_text hnul, sysSysctlbyname, if_neg hname]
  obtain ⟨e, hwalk, hnumbers⟩ | ⟨current, vec, hwalk, hnumbers, hlen, hoid⟩ := entries_agree name
  · simp only [hwalk, hnumbers]
    exact ⟨.inl ⟨e, rfl, rfl⟩, .ok _, fun b => handleNameToOid_buffered b w⟩
  · simp only [hwalk, hnumbers]
    refine ⟨.inr ⟨vec, current, hlen, fun hroom => ?_, rfl, hoid, ?_⟩,
      finish_buffered m current a w, fun b => handleNameToOid_buffered b w⟩
    · have hblit : blit buf 0 (bytesOf vec) = some (bytesOf vec ++ buf.drop (bytesOf vec).length) :=
        blit_room (u := []) (by rwa [bytesOf_length])
      rw [if_neg (by omega), hblit, bytesOf_length]
      rfl
    · rw [sysSysctl_ok m hlen hoid, finish_agrees m hwalk hnumbers]

def oneCpu : Machine Unit where
  plain
    | .availcpu, _, w => some ⟨0, some [1, 0, 0, 0], some 4, w⟩
    | _, _, _ => none
  sysctlProc _ _ _ _ := none
  sysctlProcargs _ _ _ := none
  task64bit _ _ := 0
  doIflist _ _ := none
  cpuType _ := 7
  typeCode _ := 1

theorem sysctlbyname_ncpu : 0 ∉ ascii "hw.ncpu".toList ∧ ascii "hw.ncpu".toList ≠ noremotehang ∧
    Agrees oneCpu (ascii "hw.ncpu".toList) (List.replicate 16 0)
      ⟨some (List.replicate 4 0), some 4, none, 0⟩ () :=
  have hnul : 0 ∉ ascii "hw.ncpu".toList := by decide
  have hname : ascii "hw.ncpu".toList ≠ noremotehang := by decide
  ⟨hnul, hname, (sysctlbyname_agrees oneCpu hnul hname _ _ ()).1⟩

end Calls

end Darling.Sysctl
