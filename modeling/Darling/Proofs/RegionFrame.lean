import Darling.Proofs.RegionPath

/-!
# What the region calls show of the stack

Nothing clears the structures on the stack, and some of their bytes are never stored to, whatever
`smaps` says.  Every call that gets as far as the copy hands those bytes out.
-/

namespace Darling.RegionPath

open CArray Fields Readline Option List

structure Targets.Missed (t : Targets) (j : ℕ) : Prop where
  address : Misses j t.address 8
  size : Misses j t.size 8
  protection : Misses j t.protection 4
  shareMode : Misses j t.shareMode 4
  offset : Misses j t.offset 8
  dev : Misses j t.dev 4
  ino : Misses j t.ino 8
  path : Misses j t.path 1023

theorem missed_regionpathinfo : regionpathinfo.targets.Missed 4 := by
  constructor <;> simp [regionpathinfo, Misses]

theorem missed_regionpath : regionpath.targets.Missed 1039 := by
  constructor <;> simp [regionpath, Misses]

variable {t : Targets}

section Stay

variable {line frame frame' : Bytes} {j p : ℕ} {ptr : Option ℕ}

theorem getElem_of_putLe {n x : ℕ} (h : put frame ptr (le n x) = some frame')
    (hj : Misses j ptr n) : frame'[j]? = frame[j]? := getElem_of_put h (by rwa [le_length])

theorem getElem_of_putSize {address : ℕ} (h : putSize line p address ptr frame = some frame')
    (hj : Misses j ptr 8) : frame'[j]? = frame[j]? := by
  cases ptr with
  | none => rw [← some.inj h]
  | some i =>
    obtain ⟨⟨stop, q⟩, -, h⟩ := bind_eq_some_iff.1 h
    exact getElem_of_putLe h hj

theorem getElem_of_putProtection (h : putProtection line p ptr frame = some frame')
    (hj : Misses j ptr 4) : frame'[j]? = frame[j]? := by
  cases ptr with
  | none => rw [← some.inj h]
  | some i =>
    obtain ⟨r, -, h⟩ := bind_eq_some_iff.1 h
    obtain ⟨w, -, h⟩ := bind_eq_some_iff.1 h
    obtain ⟨x, -, h⟩ := bind_eq_some_iff.1 h
    exact getElem_of_putLe h hj

theorem getElem_of_putShareMode (h : putShareMode line p ptr frame = some frame')
    (hj : Misses j ptr 4) : frame'[j]? = frame[j]? := by
  cases ptr with
  | none => rw [← some.inj h]
  | some i =>
    obtain ⟨c, -, h⟩ := bind_eq_some_iff.1 h
    exact getElem_of_putLe h hj

theorem getElem_of_putPath (hline : line.length ≤ 1024) (hp : 0 < p)
    (h : putPath line p ptr frame = some frame') (hj : Misses j ptr 1023) :
    frame'[j]? = frame[j]? := by
  obtain ⟨c, -, h⟩ := bind_eq_some_iff.1 h
  split_ifs at h
  · rw [← some.inj h]
  · obtain ⟨name, hname, h⟩ := bind_eq_some_iff.1 h
    have hlen := length_of_str hname
    refine getElem_of_put h fun i hi => ?_
    have := hj i hi
    rw [length_append, length_singleton]
    omega

theorem le_of_atoiAt {v q : ℕ} (h : atoiAt line p = some (v, q)) : p ≤ q := by
  obtain ⟨n, -, h⟩ := map_eq_some_iff.1 h
  rw [← (Prod.mk.inj h).2]
  exact Nat.le_add_right p n

theorem getElem_of_parse (hline : line.length ≤ 1024)
    (h : parseSmapsFirstline line t frame = some (some frame')) (hj : t.Missed j) :
    frame'[j]? = frame[j]? := by
  obtain ⟨⟨p, minus⟩, -, h⟩ := bind_eq_some_iff.1 h
  cases minus with
  | none => cases h
  | some minus =>
    obtain ⟨⟨address, _⟩, -, h⟩ := bind_eq_some_iff.1 h
    obtain ⟨f₁, h₁, h⟩ := bind_eq_some_iff.1 h
    obtain ⟨f₂, h₂, h⟩ := bind_eq_some_iff.1 h
    obtain ⟨f₃, h₃, h⟩ := bind_eq_some_iff.1 h
    obtain ⟨f₄, h₄, h⟩ := bind_eq_some_iff.1 h
    obtain ⟨⟨offset, p₁⟩, hp₁, h⟩ := bind_eq_some_iff.1 h
    obtain ⟨f₅, h₅, h⟩ := bind_eq_some_iff.1 h
    obtain ⟨⟨maj, p₂⟩, hp₂, h⟩ := bind_eq_some_iff.1 h
    obtain ⟨⟨min, p₃⟩, hp₃, h⟩ := bind_eq_some_iff.1 h
    obtain ⟨f₆, h₆, h⟩ := bind_eq_some_iff.1 h
    obtain ⟨⟨ino, p₄⟩, hp₄, h⟩ := bind_eq_some_iff.1 h
    obtain ⟨f₇, h₇, h⟩ := bind_eq_some_iff.1 h
    obtain ⟨blanks, -, h⟩ := bind_eq_some_iff.1 h
    obtain ⟨f₈, h₈, h⟩ := bind_eq_some_iff.1 h
    obtain rfl : f₈ = frame' := by simpa using h
    have hle''' := le_of_atoiAt hp₄
    rw [getElem_of_putPath hline (by omega) h₈ hj.path, getElem_of_putLe h₇ hj.ino,
      getElem_of_putLe h₆ hj.dev, getElem_of_putLe h₅ hj.offset,
      getElem_of_putShareMode h₄ hj.shareMode, getElem_of_putProtection h₃ hj.protection,
      getElem_of_putSize h₂ hj.size, getElem_of_putLe h₁ hj.address]

end Stay

variable {j : ℕ}

theorem getElem_of_search {breaks : Bool} {arg : ℕ} (hj : t.Missed j) :
    ∀ {fuel : ℕ} {found found' : Bool} {b : RdlineBuffer} {f : Input} {frame frame' text : Bytes},
      Holds b f text → search t breaks arg fuel found b f frame = some (found', frame') →
      frame'[j]? = frame[j]?
  | fuel + 1, found, found', b, f, frame, frame', text, hb, h => by
    obtain ⟨res, hres, hout⟩ := readline_outcome hb
    rw [search, hres, some_bind] at h
    cases hout with
    | stop _ => rw [(Prod.mk.inj (some.inj h)).2]
    | line _ _ hholds _ =>
      split_ifs at h
      · exact getElem_of_search hj hholds h
      · obtain ⟨parsed, hparse, h⟩ := bind_eq_some_iff.1 h
        cases parsed with
        | none => exact getElem_of_search hj hholds h
        | some frame₁ =>
          have hstay := getElem_of_parse hholds.buffer_length.le hparse hj
          obtain ⟨inside, -, h⟩ := bind_eq_some_iff.1 h
          split_ifs at h
          · rw [← (Prod.mk.inj (some.inj h)).2, hstay]
          · rw [getElem_of_search hj hholds h, hstay]

/-- The buffer of a caller, with its length. -/
structure Caller where
  buffer : Option Bytes
  bufsize : ℤ
  bufsize_ge : -2 ^ 31 ≤ bufsize
  bufsize_lt : bufsize < 2 ^ 31
  length : ∀ b ∈ buffer, b.length = bufsize.toNat

/-- What the stack held before the call. -/
structure Stack (sizeof : ℕ) where
  frame : Bytes
  buffer : Bytes
  frame_length : frame.length = sizeof
  buffer_length : buffer.length = 1024

/-- A call that shows the caller nothing of the stack: with two stacks it returns the same and
leaves the same bytes in the buffer. -/
def Undisclosed (sizeof : ℕ)
    (call : Option Bytes → ℤ → Bytes → Bytes → Option (ℤ × Option Bytes)) (c : Caller) : Prop :=
  ∀ s s' : Stack sizeof, ∃ res, call c.buffer c.bufsize s.frame s.buffer = some res ∧
    call c.buffer c.bufsize s'.frame s'.buffer = some res

section Call

variable {k : Flavor} {file : Except ℕ+ Input} {arg : ℕ} {c : Caller}

theorem getElem_of_call {f : Input} {buffer : Bytes} {bufsize : ℤ} {x : Byte} {code : ℤ}
    {out : Option Bytes} (hj : k.targets.Missed j) (hsize : ¬ bufsize % 2 ^ 64 < k.sizeof)
    (s : Stack k.sizeof) (hx : s.frame[j]? = some x)
    (h : k.call (.ok f) arg (some buffer) bufsize s.frame s.buffer = some (code, out)) :
    ∃ bs, out = some bs ∧ bs[j]? = some x := by
  unfold Flavor.call at h
  simp only [hsize, if_false] at h
  obtain ⟨⟨found, frame⟩, hsearch, h⟩ := bind_eq_some_iff.1 h
  obtain ⟨bs, hblit, h⟩ := bind_eq_some_iff.1 h
  have hstay := getElem_of_search hj (holds_init s.buffer_length f) hsearch
  rw [hx] at hstay
  obtain ⟨hlt, -⟩ := List.getElem?_eq_some_iff.1 hstay
  refine ⟨bs, (Prod.mk.inj (some.inj h)).2.symm, ?_⟩
  unfold blit at hblit
  split_ifs at hblit
  rw [← some.inj hblit, take_zero, nil_append, getElem?_append_left hlt, hstay]

theorem zeros_length : (replicate 1024 (0 : Byte)).length = 1024 := length_replicate

def plainStack (n : ℕ) (x : Byte) : Stack n where
  frame := replicate n x
  buffer := replicate 1024 0
  frame_length := length_replicate
  buffer_length := zeros_length

theorem getElem_plainStack {n : ℕ} (h : j < n) (x : Byte) :
    (plainStack n x).frame[j]? = some x := by
  rw [plainStack, getElem?_replicate, if_pos h]

theorem not_undisclosed {f : Input} {buffer : Bytes} (hj : k.targets.Missed j)
    (hlt : j < k.sizeof) (hbuf : c.buffer = some buffer) (hsize : ¬ c.bufsize % 2 ^ 64 < k.sizeof) :
    ¬ Undisclosed k.sizeof (k.call (.ok f) arg) c := by
  intro h
  obtain ⟨⟨code, out⟩, h₀, h₁⟩ := h (plainStack k.sizeof 0) (plainStack k.sizeof 1)
  rw [hbuf] at h₀ h₁
  obtain ⟨bs, rfl, hbs⟩ := getElem_of_call hj hsize _ (getElem_plainStack hlt 0) h₀
  obtain ⟨bs', hout, hbs'⟩ := getElem_of_call hj hsize _ (getElem_plainStack hlt 1) h₁
  rw [← some.inj hout, hbs] at hbs'
  exact absurd (some.inj hbs') (by decide)

theorem undisclosed_iff (hj : k.targets.Missed j) (hlt : j < k.sizeof)
    (hsizeof : k.sizeof < 2 ^ 31) : Undisclosed k.sizeof (k.call file arg) c ↔
      c.buffer = none ∨ (0 ≤ c.bufsize ∧ c.bufsize < k.sizeof) ∨ ∃ e, file = .error e := by
  have hge := c.bufsize_ge
  have hlt' := c.bufsize_lt
  have hsmall : c.bufsize % 2 ^ 64 < k.sizeof ↔ 0 ≤ c.bufsize ∧ c.bufsize < k.sizeof := by omega
  constructor
  · intro h
    by_contra hno
    rw [not_or, not_or, ← hsmall] at hno
    obtain ⟨hbuf, hsize, hfile⟩ := hno
    obtain ⟨buffer, hbuffer⟩ := ne_none_iff_exists'.1 hbuf
    cases file with
    | error e => exact hfile ⟨e, rfl⟩
    | ok f => exact not_undisclosed hj hlt hbuffer hsize h
  · intro h s s'
    unfold Flavor.call
    rcases hbuf : c.buffer with _ | buffer
    · exact ⟨_, rfl, rfl⟩
    · rw [hbuf, ← hsmall] at h
      by_cases hsize : c.bufsize % 2 ^ 64 < k.sizeof
      · simp only [hsize, if_true]
        exact ⟨_, rfl, rfl⟩
      · simp only [hsize, reduceCtorEq, false_or] at h
        obtain ⟨e, rfl⟩ := h
        simp only [hsize, if_false]
        exact ⟨_, rfl, rfl⟩

end Call

/-- The region calls show nothing of the stack exactly if they fail before they look at `smaps`. -/
theorem regions_undisclosed_iff (file : Except ℕ+ Input) (arg : ℕ) (c : Caller) :
    (Undisclosed 1272 (procPidinfoRegionpathinfo file arg) c ↔
      c.buffer = none ∨ (0 ≤ c.bufsize ∧ c.bufsize < 1272) ∨ ∃ e, file = .error e) ∧
    (Undisclosed 1040 (procPidinfoRegionpath file arg) c ↔
      c.buffer = none ∨ (0 ≤ c.bufsize ∧ c.bufsize < 1040) ∨ ∃ e, file = .error e) :=
  ⟨undisclosed_iff missed_regionpathinfo (by decide) (by decide),
    undisclosed_iff missed_regionpath (by decide) (by decide)⟩

def noMappings : Smaps := ⟨[], List.Pairwise.nil⟩

theorem Setting.run_noMappings {k : Flavor} (c : Setting k.sizeof) (a : ℕ) :
    c.run noMappings a = some (k.miss, some (c.frame ++ c.buffer.drop k.sizeof)) :=
  c.run_eq noMappings a c.frame_length (search_end (c.ready noMappings))

def roomyCaller : Caller where
  buffer := some (replicate 1272 0)
  bufsize := 1272
  bufsize_ge := by decide
  bufsize_lt := by decide
  length := fun b hb => by rw [← some.inj hb]; exact length_replicate

/-- Without a mapping the structure is handed out as it lay on the stack. -/
theorem regions_disclosed :
    ¬ Undisclosed 1272 (procPidinfoRegionpathinfo (.ok ⟨[], []⟩) 0) roomyCaller ∧
    ¬ Undisclosed 1040 (procPidinfoRegionpath (.ok ⟨[], []⟩) 0) roomyCaller ∧
    (∀ c : Setting 1272, procPidinfoRegionpathinfo (.ok ⟨[], c.answers⟩) 0 (some c.buffer)
      c.buffer.length c.frame c.stack =
        some (fail SysctlProc.esrch, some (c.frame ++ c.buffer.drop 1272))) ∧
    ∀ c : Setting 1040, procPidinfoRegionpath (.ok ⟨[], c.answers⟩) 0 (some c.buffer)
      c.buffer.length c.frame c.stack =
        some (fail einval, some (c.frame ++ c.buffer.drop 1040)) :=
  ⟨not_undisclosed missed_regionpathinfo (by decide) rfl (by decide),
    not_undisclosed missed_regionpath (by decide) rfl (by decide),
    fun c => @Setting.run_noMappings regionpathinfo c 0,
    fun c => @Setting.run_noMappings regionpath c 0⟩

end Darling.RegionPath
