import Darling.PosixSpawn

/-!
# What the file actions of `posix_spawn` are for

Each action is one call on the descriptors of the caller.  There is no status pipe here, and `open`
puts the file at the number asked for.
-/

namespace Darling.PosixSpawn

variable {φ σ : Type}

def unlessError (r : ℤ × Table (File φ)) : Option (Table (File φ)) :=
  if r.1 < 0 then none else some r.2

def openAt (t : Table (File φ)) (fd : ℤ) (d : Darling.Desc (File φ)) : Option (Table (File φ)) :=
  if 0 ≤ fd ∧ fd < t.limit then some (t.set fd.toNat d) else none

def applyAction (sys : Sys φ σ) (act : Action) (t : Table (File φ)) (w : σ) :
    Option (Table (File φ) × σ) :=
  match act.kind with
  | .close => (unlessError (t.close act.filedes)).map (·, w)
  | .dup2 newfiledes => (unlessError (t.dup2 act.filedes newfiledes)).map (·, w)
  | .open oflag mode path =>
    match sys.openat w path oflag mode with
    | (.error _, _) => none
    | (.ok f, w) => (openAt t act.filedes ⟨.user f, oCloexec oflag⟩).map (·, w)
  | .inherit => (unlessError (t.setfd act.filedes 0)).map (·, w)
  | .chdir path => if (sys.chdir w path).1 < 0 then none else some (t, (sys.chdir w path).2)
  | .fchdir =>
    let r := sys.fchdir w ((t.get act.filedes).map Darling.Desc.file)
    if r.1 < 0 then none else some (t, r.2)
  | .other _ => some (t, w)

def applyActions (sys : Sys φ σ) : List Action → Table (File φ) → σ →
    Option (Table (File φ) × σ)
  | [], t, w => some (t, w)
  | act :: acts, t, w => do
    let (t, w) ← applyAction sys act t w
    applyActions sys acts t w

end Darling.PosixSpawn
