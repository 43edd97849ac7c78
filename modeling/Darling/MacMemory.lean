import Darling.FileTree

/-!
# Handles of `MacMemory`

`malloc` and `realloc` succeed, with a block that may be larger than what was asked for.  The size
of a handle is the size of its block.  What the handles are for is `ideal`: there each one has as
many bytes as it should have.
-/

namespace Darling.MacMemory

/-- The block of `realloc(old, n)`, as far as `malloc_size` counts.  Behind the old bytes there is
anything, and as much of it as the allocator likes. -/
def realloc (old : Bytes) (n : ℕ) (junk : Bytes) : Bytes :=
  old.take n ++ junk ++ List.replicate (n - (old.take n ++ junk).length) 0

def newPtr (n : ℕ) (junk : Bytes) : Bytes := realloc [] n junk

def getHandleSize (h : Option Bytes) : ℕ := (h.getD []).length

def setHandleSize (h : Option Bytes) (n : ℕ) (junk : Bytes) : Option Bytes :=
  match h with
  | none => some (newPtr n junk)
  | some old => if n = 0 then none else some (realloc old n junk)

def memcpy (b : Bytes) (i : ℕ) (s : Bytes) : Bytes := b.take i ++ (s ++ b.drop (i + s.length))

def ptrToHand (src junk : Bytes) : Option Bytes := some (memcpy (newPtr src.length junk) 0 src)

def handToHand (h : Option Bytes) (junk : Bytes) : Option Bytes :=
  some (memcpy (newPtr (getHandleSize h) junk) 0 (h.getD []))

def ptrAndHand (src : Bytes) (h : Option Bytes) (junk : Bytes) : Option Bytes :=
  if src = [] then h
  else (setHandleSize h (getHandleSize h + src.length) junk).map (memcpy · (getHandleSize h) src)

/-- What becomes of the handle `b`, which may be `a`. -/
def handAndHand (s : ℕ → Option Bytes) (a b : ℕ) (junk : Bytes) : Option Bytes :=
  if s a = none then s b
  else
    let s' := Function.update s b
      (setHandleSize (s b) (getHandleSize (s b) + getHandleSize (s a)) junk)
    (s' b).map (memcpy · (getHandleSize (s b)) (((s' a).getD []).take (getHandleSize (s a))))

inductive Call where
  | newHandle (h n : ℕ)
  | setHandleSize (h n : ℕ)
  | ptrToHand (src : Bytes) (h : ℕ)
  | handToHand (h h' : ℕ)
  | ptrAndHand (src : Bytes) (h : ℕ)
  | handAndHand (h h' : ℕ)

def step (s : ℕ → Option Bytes) (x : Call × Bytes) : ℕ → Option Bytes :=
  match x.1 with
  | .newHandle h n => Function.update s h (some (newPtr n x.2))
  | .setHandleSize h n => Function.update s h (setHandleSize (s h) n x.2)
  | .ptrToHand src h => Function.update s h (ptrToHand src x.2)
  | .handToHand h h' => Function.update s h' (handToHand (s h) x.2)
  | .ptrAndHand src h => Function.update s h (ptrAndHand src (s h) x.2)
  | .handAndHand h h' => Function.update s h' (handAndHand s h h' x.2)

def ideal (s : ℕ → Bytes) (x : Call × Bytes) : ℕ → Bytes :=
  match x.1 with
  | .newHandle h n => Function.update s h ((newPtr n x.2).take n)
  | .setHandleSize h n => Function.update s h ((realloc (s h) n x.2).take n)
  | .ptrToHand src h => Function.update s h src
  | .handToHand h h' => Function.update s h' (s h)
  | .ptrAndHand src h => Function.update s h (s h ++ src)
  | .handAndHand h h' => Function.update s h' (s h' ++ s h)

/-- A block that the call allocates is as large as it was asked for. -/
def Exact (s : ℕ → Option Bytes) (x : Call × Bytes) : Prop :=
  match x.1 with
  | .newHandle _ n => (newPtr n x.2).length = n
  | .setHandleSize h n => getHandleSize (setHandleSize (s h) n x.2) = n
  | .ptrToHand src _ => (newPtr src.length x.2).length = src.length
  | .handToHand h _ => (newPtr (getHandleSize (s h)) x.2).length = getHandleSize (s h)
  | .ptrAndHand src h => src ≠ [] →
    getHandleSize (setHandleSize (s h) (getHandleSize (s h) + src.length) x.2) =
      getHandleSize (s h) + src.length
  | .handAndHand h h' => s h ≠ none →
    getHandleSize (setHandleSize (s h') (getHandleSize (s h') + getHandleSize (s h)) x.2) =
      getHandleSize (s h') + getHandleSize (s h)

end Darling.MacMemory
