import Darling.FileTree
import Mathlib.Data.Int.Basic
import Mathlib.Data.List.TakeWhile
import Mathlib.Data.PNat.Defs

/-!
# The Linux calls on paths

A `Kernel` answers `lstat`, `readlink`, `open` with `getdents64`, and `readlink` on the links
`/proc` keeps for a descriptor and for the working directory.  `Faithful` ties such answers to a
file tree; `Node.kernel` answers from a tree as `namei` does.
-/

namespace Darling

def enoent : ℕ+ := ⟨2, by decide⟩

def enotdir : ℕ+ := ⟨20, by decide⟩

def efault : ℕ+ := ⟨14, by decide⟩

def einval : ℕ+ := ⟨22, by decide⟩

def enametoolong : ℕ+ := ⟨36, by decide⟩

def eloop : ℕ+ := ⟨40, by decide⟩

def fail (e : ℕ+) : ℤ := -(e.val : ℤ)

def errnoLinuxToBsd (table : ℕ → ℕ) (err : ℤ) : ℤ :=
  if err.natAbs < 512 ∧ table err.natAbs ≠ 0 then
    if err < 0 then -(table err.natAbs : ℤ) else table err.natAbs
  else err

inductive ProcLink where
  | fd (n : ℤ)
  | cwd
  deriving DecidableEq

/-- The calls.  What the kernel hands out as text holds no NUL.  `getdents` is `open(O_RDONLY)` and
then, batch by batch, the names `getdents64` returns before a call that returns nothing or fails. -/
structure Kernel where
  lstat : Bytes → Except ℕ+ Kind
  readlink : Bytes → Except ℕ+ Bytes
  getdents : Bytes → Except ℕ+ (List (List Bytes))
  procLink : ProcLink → Except ℕ+ Bytes
  readlink_nul : ∀ p t, readlink p = .ok t → 0 ∉ t
  getdents_nul : ∀ p bs, getdents p = .ok bs → ∀ b ∈ bs, ∀ d ∈ b, 0 ∉ d
  procLink_nul : ∀ l t, procLink l = .ok t → 0 ∉ t

def absolute (cs : List Bytes) : Bytes := if cs = [] then [slash] else render cs

/-- The answers report the tree, wherever no link stands above the place asked for. -/
structure Faithful (k : Kernel) (fs : Node) : Prop where
  lstat : ∀ {cs n}, (∀ c ∈ cs, IsName c) → cs ≠ [] → fs.descend cs = some n →
    k.lstat (render cs) = .ok n.kind
  lstat_none : ∀ {cs}, (∀ c ∈ cs, IsName c) → cs ≠ [] → fs.CleanAbove cs →
    fs.descend cs = none → ∃ e, k.lstat (render cs) = .error e
  readlink : ∀ {cs t}, (∀ c ∈ cs, IsName c) → fs.descend cs = some (.symlink t) →
    k.readlink (render cs) = .ok t
  getdents : ∀ {cs es}, (∀ c ∈ cs, IsName c) → fs.descend cs = some (.dir es) →
    ∃ bs, k.getdents (absolute cs) = .ok bs ∧
      ∀ d, IsName d → (d ∈ bs.flatten ↔ ∃ n, (d, n) ∈ es)

namespace Node

/-- `namei` from the place `cur`, with `again` for what is left once a link has been met. -/
def walk (fs : Node) (again : List Bytes → List Bytes → Except ℕ+ (List Bytes)) :
    List Bytes → List Bytes → Except ℕ+ (List Bytes)
  | cur, [] => .ok cur
  | cur, c :: cs =>
    if c = [dot] then walk fs again cur cs
    else if c = [dot, dot] then walk fs again cur.dropLast cs
    else
      match fs.descend (cur ++ [c]) with
      | some (.symlink t) =>
        again (if t.head? = some slash then [] else cur) (components t ++ cs)
      | some _ => walk fs again (cur ++ [c]) cs
      | none => .error (if (fs.descend cur).map kind = some .dir then enoent else enotdir)

/-- The place a path leads to, through at most `n` links. -/
def namei (fs : Node) : ℕ → List Bytes → List Bytes → Except ℕ+ (List Bytes)
  | 0 => fun _ _ => .error eloop
  | n + 1 => walk fs (namei fs n)

def maxLinks : ℕ := 40

def place (fs : Node) (p : Bytes) : Except ℕ+ (List Bytes) :=
  match (components p).getLast? with
  | none => .ok []
  | some c => (fs.namei maxLinks [] (components p).dropLast).map (· ++ [c])

def cText (t : Bytes) : Bytes := t.takeWhile (· ≠ 0)

def lstat (fs : Node) (p : Bytes) : Except ℕ+ Kind :=
  match fs.place p with
  | .error e => .error e
  | .ok cs =>
    match fs.descend cs with
    | some n => .ok n.kind
    | none =>
      .error (if (fs.descend cs.dropLast).map kind = some .dir then enoent else enotdir)

def readlink (fs : Node) (p : Bytes) : Except ℕ+ Bytes :=
  match fs.place p with
  | .error e => .error e
  | .ok cs =>
    match fs.descend cs with
    | some (.symlink t) => .ok (cText t)
    | some _ => .error einval
    | none => .error enoent

def getdents (fs : Node) (p : Bytes) : Except ℕ+ (List (List Bytes)) :=
  match fs.namei maxLinks [] (components p) with
  | .error e => .error e
  | .ok cs =>
    match fs.descend cs with
    | some (.dir es) => .ok [[dot] :: [dot, dot] :: es.map (cText ·.1)]
    | some _ => .ok []
    | none => .error enoent

theorem zero_notMem_cText (t : Bytes) : 0 ∉ cText t := fun h => by
  simpa using List.mem_takeWhile_imp h

theorem zero_notMem_readlink {fs : Node} {p t : Bytes} (h : fs.readlink p = .ok t) : 0 ∉ t := by
  unfold readlink at h
  split at h
  · simp at h
  · split at h
    · rw [← Except.ok.inj h]
      exact zero_notMem_cText _
    · simp at h
    · simp at h

theorem zero_notMem_getdents {fs : Node} {p : Bytes} {bs : List (List Bytes)}
    (h : fs.getdents p = .ok bs) : ∀ b ∈ bs, ∀ d ∈ b, 0 ∉ d := by
  unfold getdents at h
  split at h
  · simp at h
  · split at h
    · rw [← Except.ok.inj h]
      intro b hb d hd
      rw [List.mem_singleton.1 hb, List.mem_cons, List.mem_cons, List.mem_map] at hd
      obtain rfl | rfl | ⟨e, -, rfl⟩ := hd
      · decide
      · decide
      · exact zero_notMem_cText _
    · simp [← Except.ok.inj h]
    · simp at h

def kernel (fs : Node) (links : ProcLink → Except ℕ+ Bytes) : Kernel where
  lstat := fs.lstat
  readlink := fs.readlink
  getdents := fs.getdents
  procLink l := (links l).map cText
  readlink_nul _ _ h := zero_notMem_readlink h
  getdents_nul _ _ h := zero_notMem_getdents h
  procLink_nul l t h := by
    rcases hl : links l with e | t'
    · simp [hl, Except.map] at h
    · rw [hl] at h
      exact Except.ok.inj h ▸ zero_notMem_cText t'

end Node

end Darling
