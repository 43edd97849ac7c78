import Darling.Vchroot

/-!
# The resolver over strings

What `vchroot_run` does, with `current_path` and its length counter replaced by the string they
stand for.  A step still fails where the array version would leave its arrays: at a `/` that does
not fit and at a `..` with no slash to step back to.
-/

namespace Darling.Vchroot

namespace Text

open CArray

structure State where
  root : Root
  path : Bytes
  unknown : Bool
  follow : Bool
  deriving DecidableEq

section Step

variable (V : Config) (k : Kernel)

def appendSlash (s : State) : Option State :=
  if s.path.length + 1 < pathMax then some { s with path := s.path ++ [slash] } else none

def reenter (s : State) : Option State :=
  if V.prefixPath.length + exitPath.length + 1 < pathMax then
    some { s with path := V.prefixPath ++ exitPath ++ [slash], root := .guest }
  else none

def dotdot (s : State) : Option (Flow State) := do
  let s ← (if s.path.length ≤ 1 then reenter V s else some s)
  let p ← beforeLast slash s.path.dropLast
  return if p.length < (s.root.text V).length then .ret (fail enoent) { s with path := p }
    else .next { s with path := p }

def icaseSearch (s : State) (comp : Bytes) : State :=
  match k.getdents (if 1 < s.path.length then s.path.dropLast else [slash]) with
  | .error _ => { s with path := s.path ++ comp, unknown := true }
  | .ok batches =>
    match batches.flatten.find? (caseEq · comp) with
    | some d => { s with path := s.path ++ d }
    | none => { s with path := s.path ++ comp, unknown := true }

def enterLink (s : State) (comp : Bytes) : Verdict State :=
  match k.readlink (s.path ++ comp) with
  | .error e => .ret (fail e) { s with path := s.path ++ comp }
  | .ok t =>
    let link := t.take (linkMax - 1)
    if procPath <+: s.path ++ comp ∧ colon ∈ link then .skip { s with path := s.path ++ comp }
    else if link.head? = some slash then
      .follow link { s with path := s.path ++ comp, root := .guest, follow := true }
    else .follow link { s with path := s.path.dropLast, follow := true }

def inspect (s : State) (comp : Bytes) (more : Bool) : Verdict State :=
  if pathMax < comp.length + s.path.length + 2 then .ret (fail enoent) s
  else if s.unknown then .skip { s with path := s.path ++ comp }
  else
    match k.lstat (s.path ++ comp) with
    | .error e =>
      if V.icaseEnabled ∧ e = enoent then .skip (icaseSearch k s comp)
      else .skip { s with path := s.path ++ comp }
    | .ok kind =>
      if kind = .symlink ∧ (s.follow ∨ more) then enterLink k s comp
      else .skip { s with path := s.path ++ comp }

def AtExit (s : State) : Prop :=
  s.root.text V ≠ [] ∧ s.path.length = (s.root.text V).length + exitPath.length ∧
    caseEq (s.path.drop (s.root.text V).length) exitPath

instance (s : State) : Decidable (AtExit V s) :=
  inferInstanceAs (Decidable (_ ∧ _ ∧ _))

def exitCheck (s : State) : State :=
  if AtExit V s then { s with path := [], root := .host } else s

variable (run : Bytes → State → Option (ℤ × State))

def component (s : State) (comp : Bytes) (more : Bool) : Option (Flow State) :=
  match inspect V k s comp more with
  | .skip s' => some (.next (exitCheck V s'))
  | .ret rv s' => some (.ret rv s')
  | .follow link s' => do
    let (rv, s') ← run link s'
    let s' := { s' with follow := s.follow }
    if rv ≠ 0 then return .ret rv s' else return .next (exitCheck V s')

def iteration (s : State) (comp : Bytes) (more : Bool) : Option (Flow State) :=
  if comp = [dot] ∨ comp = [] then some (.next s)
  else do
    let s ← appendSlash s
    if comp = [dot, dot] then dotdot V s else component V k run s comp more

def loop : ℕ → Bytes → State → Option (ℤ × State)
  | 0, _, s => some (0, s)
  | n + 1, input, s =>
    if input = [] then some (0, s)
    else
      match iteration V k run s (nextComponent input).1 ((nextComponent input).2 ≠ []) with
      | none => none
      | some (.ret rv s) => some (rv, s)
      | some (.next s) => loop n (rest input) s

def start (input : Bytes) (s : State) : Bytes × State :=
  if input.head? = some slash then (input.tail, { s with path := s.root.text V })
  else (input, s)

end Step

def run (V : Config) (k : Kernel) : ℕ → Bytes → State → Option (ℤ × State)
  | 0, _, s => some (fail eloop, s)
  | left + 1, input, s =>
    loop V k (run V k left) (start V input s).1.length (start V input s).1 (start V input s).2

section Trace

variable (V : Config) (k : Kernel) (run : Bytes → State → Option (ℤ × State))
  (trace : Bytes → State → List (Point State))

def iterationTrace (s : State) (comp : Bytes) (more : Bool) : List (Point State) :=
  if comp = [dot] ∨ comp = [] then []
  else
    match appendSlash s with
    | none => []
    | some s =>
      if comp = [dot, dot] then []
      else
        match inspect V k s comp more with
        | .skip s' => [.label s']
        | .ret _ _ => []
        | .follow link s' =>
          trace link s' ++
            match run link s' with
            | none => []
            | some (rv, s') => if rv = 0 then [.label { s' with follow := s.follow }] else []

def loopTrace : ℕ → Bytes → State → List (Point State)
  | 0, input, s => [.head input s]
  | n + 1, input, s =>
    .head input s ::
      if input = [] then []
      else
        iterationTrace V k run trace s (nextComponent input).1 ((nextComponent input).2 ≠ []) ++
          match iteration V k run s (nextComponent input).1 ((nextComponent input).2 ≠ []) with
          | some (.next s) => loopTrace n (rest input) s
          | _ => []

end Trace

def trace (V : Config) (k : Kernel) : ℕ → Bytes → State → List (Point State)
  | 0, _, _ => []
  | left + 1, input, s =>
    loopTrace V k (run V k left) (trace V k left) (start V input s).1.length (start V input s).1
      (start V input s).2

def openState (V : Config) (k : Kernel) (base : ProcLink) (follow : Bool) (input : Bytes) :
    Except ℕ+ State :=
  if input.head? = some slash then .ok ⟨.guest, [], false, follow⟩
  else
    match k.procLink base with
    | .error e => .error e
    | .ok t =>
      let p := if t.take (pathMax - 1) = [slash] then [] else t.take (pathMax - 1)
      .ok ⟨if V.prefixPath <+: p then .guest else .host, p, false, follow⟩

/-- The return code and the string `args->path` is left with. -/
def expand (V : Config) (k : Kernel) (base : ProcLink) (follow : Bool) (input : Bytes) :
    Option (ℤ × Bytes) :=
  if input = [] then some (fail enoent, input)
  else
    match openState V k base follow input with
    | .error e => some (fail e, input)
    | .ok s => do
      let (rv, s) ← run V k (maxSymlinkDepth + 1) input s
      return (rv, if s.path = [] then [slash] else s.path)

def expandTrace (V : Config) (k : Kernel) (base : ProcLink) (follow : Bool) (input : Bytes) :
    List (Point State) :=
  if input = [] then []
  else
    match openState V k base follow input with
    | .error _ => []
    | .ok s => trace V k (maxSymlinkDepth + 1) input s

def guestPath (V : Config) (p : Bytes) : Bytes :=
  if V.prefixPath <+: p then
    if p.drop V.prefixPath.length = [] then [slash] else p.drop V.prefixPath.length
  else exitPath ++ p

end Text

end Darling.Vchroot
