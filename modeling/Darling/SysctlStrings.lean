import Darling.Decimal
import Darling.Sysctl

/-!
# The strings of `sysctl`

The handlers that hand out a string through `copyout_string`: constants of the emulation, what
`uname` says, and what the processor says of itself, numbers included.
-/

namespace Darling.Sysctl

open CArray Catalog

/-- What the handlers ask for: `uname`, the processor by `cpuid` (the number of its last leaf, its
signature and its names, the second one only if it tells), and the calls that change the names of
the host. -/
structure Source (ω : Type) where
  nodename : Bytes
  domainname : Bytes
  machine : Bytes
  vendor : Bytes
  brandString : Option Bytes
  maxLeaf : UInt32
  signature : UInt32
  sethostname : Bytes → ℕ → ω → ℤ × ω
  setdomainname : Bytes → ℕ → ω → ℤ × ω
  errnos : ℕ → ℕ
  nodename_nul : 0 ∉ nodename
  domainname_nul : 0 ∉ domainname
  machine_nul : 0 ∉ machine
  vendor_nul : 0 ∉ vendor
  brandString_nul : ∀ s, brandString = some s → 0 ∉ s

abbrev Call (ω : Type) := Args → ω → Except Fault (Outcome ω)

section Handlers

variable {ω : Type} (src : Source ω)

def emulatedSysname : Bytes := ascii "Darwin".toList

def emulatedRelease : Bytes := ascii "19.6.0".toList

def emulatedVersion : Bytes := ascii "Darwin Kernel Version 19.6.0".toList

def emulatedOsversion : Bytes := ascii "19G73".toList

def emulatedOsproductversion : Bytes := ascii "10.15.2".toList

def handleOstype : Call ω := copyoutString emulatedSysname

def handleOsrelease : Call ω := copyoutString emulatedRelease

def handleVersion : Call ω := copyoutString emulatedVersion

def handleOsversion : Call ω := copyoutString emulatedOsversion

def handleOsproductversion : Call ω := copyoutString emulatedOsproductversion

def handleHostName (name : Bytes) (set : Bytes → ℕ → ω → ℤ × ω) : Call ω := fun a w => do
  let out ← copyoutString name a w
  match a.new with
  | none => return out
  | some new =>
    if 0 < a.newlen then
      let (rv, w) := set new a.newlen out.world
      return { out with rv := if rv < 0 then errnoLinuxToBsd src.errnos rv else rv, world := w }
    else return out

def handleHostname : Call ω := handleHostName src src.nodename src.sethostname

def handleDomainname : Call ω := handleHostName src src.domainname src.setdomainname

def handleMachine : Call ω := copyoutString src.machine

def handleVendor : Call ω := copyoutString src.vendor

def handleBrandString : Call ω := fun a w =>
  match src.brandString with
  | none => .ok (a.returns 2 w)
  | some name => copyoutString name a w

def copyoutInt (value : ℤ) : Call ω := copyoutString (decimalInt value)

def Source.maxBasic : ℤ := (src.maxLeaf.toNat : ℤ).bmod (2 ^ 32)

def Source.family : ℤ := (src.signature >>> 7 &&& 15).toNat

def Source.model : ℤ := (src.signature >>> 3 &&& 15).toNat

def Source.stepping : ℤ := (src.signature &&& 15).toNat

def handleMaxBasic : Call ω := copyoutInt src.maxBasic

def handleFamily : Call ω := copyoutInt src.family

def handleModel : Call ω := copyoutInt src.model

def handleStepping : Call ω := copyoutInt src.stepping

def stringHandler : Plain → Option (Option Bytes × Call ω)
  | .ostype => some (some emulatedSysname, handleOstype)
  | .osrelease => some (some emulatedRelease, handleOsrelease)
  | .version => some (some emulatedVersion, handleVersion)
  | .osversion => some (some emulatedOsversion, handleOsversion)
  | .osproductversion => some (some emulatedOsproductversion, handleOsproductversion)
  | .hostname => some (some src.nodename, handleHostname src)
  | .domainname => some (some src.domainname, handleDomainname src)
  | .machine => some (some src.machine, handleMachine src)
  | .vendor => some (some src.vendor, handleVendor src)
  | .brandString => some (src.brandString, handleBrandString src)
  | .maxBasic => some (some (decimalInt src.maxBasic), handleMaxBasic src)
  | .family => some (some (decimalInt src.family), handleFamily src)
  | .model => some (some (decimalInt src.model), handleModel src)
  | .stepping => some (some (decimalInt src.stepping), handleStepping src)
  | _ => none

def Source.install (m : Machine ω) : Machine ω :=
  { m with
    plain := fun h a w =>
      match stringHandler src h with
      | none => m.plain h a w
      | some (_, run) => (run a w).toOption }

end Handlers

/-- The names on the way that a vector leads, down to where it ends. -/
def namesOf : KnownSysctl → List UInt32 → Option (List Bytes)
  | _, [] => some []
  | e, x :: xs =>
    match e.entries.find? (·.number = x) with
    | none => none
    | some e' => (namesOf e' xs).map (e'.name :: ·)

def dotted (ts : List Bytes) : Bytes := [dot].intercalate ts

/-- A query reports the length of the string, and so does a call with room for `m` bytes; this
leaves what is behind them, and puts the string with its end there exactly if it is shorter. -/
def Serves {ω : Type} (call : Call ω) (s : Bytes) (w : ω) : Prop :=
  (∀ len, call ⟨none, some len, none, 0⟩ w = .ok ⟨0, none, some s.length, w⟩) ∧
    ∀ out m, m ≤ out.length → ∃ out', call ⟨some out, some m, none, 0⟩ w =
        .ok ⟨0, some out', some s.length, w⟩ ∧ out'.length = out.length ∧
      out'.drop m = out.drop m ∧ (Spells 0 (out'.take m) s ↔ s.length < m)

end Darling.Sysctl
