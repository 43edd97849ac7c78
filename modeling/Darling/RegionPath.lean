import Darling.Fields
import Darling.Hexadecimal
import Darling.ProcInfo
import Darling.Readline

/-!
# The region calls of `misc/proc_info.c`

`_proc_pidinfo_regionpathinfo` and `_proc_pidinfo_regionpath` look for the mapping of an address in
`/proc/<pid>/smaps`.  Both parse the first line of every mapping into a structure on the stack,
which is copied to the caller whole.
-/

namespace Darling.RegionPath

open CArray Fields Readline SysctlProc

def atoiAt (line : Bytes) (p : ℕ) : Option (ℕ × ℕ) :=
  (scan isdigit (line.drop p)).map fun n => (atoi (line.drop p), p + n)

def atoi16At (line : Bytes) (p : ℕ) : Option (ℕ × ℕ) :=
  (scan isdigit16 (line.drop p)).map fun n => (atoi16 (line.drop p), p + n)

def scanRange : Bytes → ℕ → Option ℕ → Option (ℕ × Option ℕ)
  | [], _, _ => none
  | c :: cs, p, minus =>
    if c = 0 ∨ c = 32 then some (p, minus)
    else scanRange cs (p + 1) (if c = 45 then some p else minus)

structure Targets where
  address : Option ℕ
  size : Option ℕ
  protection : Option ℕ
  shareMode : Option ℕ
  offset : Option ℕ
  dev : Option ℕ
  ino : Option ℕ
  path : Option ℕ

def putSize (line : Bytes) (p address : ℕ) (ptr : Option ℕ) (frame : Bytes) : Option Bytes :=
  match ptr with
  | none => some frame
  | some _ => do
    let (stop, _) ← atoi16At line p
    put frame ptr (le 8 (wsub 64 stop address))

def protectionOf (r w x : Byte) : ℕ :=
  (if r = 114 then 1 else 0) ||| (if w = 119 then 2 else 0) ||| (if x = 120 then 4 else 0)

def putProtection (line : Bytes) (p : ℕ) (ptr : Option ℕ) (frame : Bytes) : Option Bytes :=
  match ptr with
  | none => some frame
  | some _ => do
    let r ← (line)[p]?
    let w ← (line)[p + 1]?
    let x ← (line)[p + 2]?
    put frame ptr (le 4 (protectionOf r w x))

def shareModeOf (c : Byte) : ℕ := if c = 112 then 2 else 4

def putShareMode (line : Bytes) (p : ℕ) (ptr : Option ℕ) (frame : Bytes) : Option Bytes :=
  match ptr with
  | none => some frame
  | some _ => do
    let c ← (line)[p]?
    put frame ptr (le 4 (shareModeOf c))

def putPath (line : Bytes) (p : ℕ) (ptr : Option ℕ) (frame : Bytes) : Option Bytes := do
  let c ← (line)[p]?
  if c = 0 ∨ ptr = none then return frame
  else
    let name ← str 0 line p
    put frame ptr (name ++ [0])

/-- `parse_smaps_firstline`; the inner `none` is `false`. -/
def parseSmapsFirstline (line : Bytes) (t : Targets) (frame : Bytes) : Option (Option Bytes) := do
  let (p, minus) ← scanRange line 0 none
  match minus with
  | none => return none
  | some minus =>
    let (address, _) ← atoi16At line 0
    let frame ← put frame t.address (le 8 address)
    let frame ← putSize line (minus + 1) address t.size frame
    let frame ← putProtection line (p + 1) t.protection frame
    let frame ← putShareMode line (p + 4) t.shareMode frame
    let (offset, p) ← atoi16At line (p + 6)
    let frame ← put frame t.offset (le 8 offset)
    let (maj, p) ← atoi16At line (p + 1)
    let (min, p) ← atoi16At line (p + 1)
    let frame ← put frame t.dev (le 4 (maj <<< 8 ||| min))
    let (ino, p) ← atoiAt line (p + 1)
    let frame ← put frame t.ino (le 8 ino)
    let blanks ← scan (· = 32) (line.drop p)
    let frame ← putPath line (p + blanks) t.path frame
    return some frame

def inRegion (t : Targets) (arg : ℕ) (frame : Bytes) : Option Bool := do
  let address ← load 8 frame (← t.address)
  let size ← load 8 frame (← t.size)
  return decide (address ≤ arg ∧ arg < (address + size) % 2 ^ 64)

/-- The loop over the lines: `foundRegion` and the structure.  One call reads on behind the mapping
it has found, the other breaks. -/
def search (t : Targets) (breaks : Bool) (arg : ℕ) :
    ℕ → Bool → RdlineBuffer → Input → Bytes → Option (Bool × Bytes)
  | 0, _, _, _, _ => none
  | fuel + 1, found, b, f, frame => do
    match ← readline b f with
    | (false, _, _) => return (found, frame)
    | (true, b, f) =>
      if found then search t breaks arg fuel true b f frame
      else
        match ← parseSmapsFirstline b.buffer t frame with
        | none => search t breaks arg fuel false b f frame
        | some frame =>
          let inside ← inRegion t arg frame
          if inside && breaks then return (true, frame)
          else search t breaks arg fuel inside b f frame

/-- A call: the size of its structure, the fields it has filled in, and what it returns. -/
structure Flavor where
  sizeof : ℕ
  targets : Targets
  breaks : Bool
  hit : ℤ
  miss : ℤ

/-- What is returned, and the caller's buffer.  `file` is the open `smaps`, or why it could not be
opened; `frame` and `stack` are what the structure and the line buffer held. -/
def Flavor.call (k : Flavor) (file : Except ℕ+ Input) (arg : ℕ) (buffer : Option Bytes)
    (bufsize : ℤ)
    (frame stack : Bytes) : Option (ℤ × Option Bytes) :=
  match buffer with
  | none => some (fail efault, none)
  | some buffer =>
    -- `bufsize` is compared as an unsigned number
    if bufsize % 2 ^ 64 < k.sizeof then some (fail enospc, some buffer)
    else
      match file with
      | .error e => some (fail e, some buffer)
      | .ok f => do
        let (found, frame) ←
          search k.targets k.breaks arg (f.text.length + 1) false (readlineInit stack) f frame
        let buffer ← blit buffer 0 frame
        return (if found then k.hit else k.miss, some buffer)

/-- `struct proc_regionwithpathinfo`, as `sys/proc_info.h` lays it out: `prp_prinfo` at 0, of which
`pri_protection`, `pri_offset`, `pri_share_mode`, `pri_address` and `pri_size` are stored to, and
`prp_vip` at 96, with `vst_dev`, `vst_ino` and, at 248, `vip_path`. -/
def regionpathinfo : Flavor where
  sizeof := 1272
  targets := ⟨some 80, some 88, some 0, some 60, some 16, some 96, some 104, some 248⟩
  breaks := false
  hit := 1
  miss := fail esrch

/-- `struct proc_regionpath`: `prpo_addr`, `prpo_regionlength` and `prpo_path`. -/
def regionpath : Flavor where
  sizeof := 1040
  targets := ⟨some 0, some 8, none, none, none, none, none, some 16⟩
  breaks := true
  hit := 0
  miss := fail einval

def procPidinfoRegionpathinfo := regionpathinfo.call

def procPidinfoRegionpath := regionpath.call

end Darling.RegionPath
