import Darling.Execve
import Darling.Proofs.CArray

/-!
# The vector of a script

The line is cut as it is meant to be (`cutLine_line`).  The loop that appends the old vector goes
one slot too far: it reads the slot behind the terminating `NULL`, which is not the caller's, and
with an argument in the line it writes behind the block (`buildArgv_eq`).
-/

namespace Darling.Execve

open CArray List Option

/-- The first line of a script, in its parts. -/
structure Line where
  blanks : Bytes
  interp : Bytes
  gap : Bytes
  arg : Option Bytes
  blanks_space : ∀ c ∈ blanks, isspace c = true ∧ c ≠ newline
  interp_ne_nil : interp ≠ []
  interp_plain : ∀ c ∈ interp, isspace c = false ∧ c ≠ 0
  gap_space : ∀ c ∈ gap, isspace c = true ∧ c ≠ newline
  arg_some : ∀ a, arg = some a → gap ≠ [] ∧ newline ∉ a ∧ 0 ∉ a ∧
    ∃ c s, a = c :: s ∧ isspace c = false

def Line.text (l : Line) : Bytes := hashBang ++ (l.blanks ++ (l.interp ++ (l.gap ++ l.arg.getD [])))

theorem isspace_newline : isspace newline = true := by decide

theorem isspace_zero : isspace 0 = false := by decide

theorem newline_notMem_text (l : Line) : newline ∉ l.text := by
  simp only [Line.text, mem_append, not_or]
  refine ⟨by decide, fun h => (l.blanks_space _ h).2 rfl, fun h => ?_,
    fun h => (l.gap_space _ h).2 rfl, fun h => ?_⟩
  · have := (l.interp_plain _ h).1
    rw [isspace_newline] at this
    cases this
  · rcases harg : l.arg with _ | a
    · simp [harg] at h
    · exact (l.arg_some a harg).2.1 (by simpa [harg] using h)

theorem idxOf?_append {s t : Bytes} {x : Byte} :
    x ∉ s → (s ++ x :: t).idxOf? x = some s.length := by
  induction s with
  | nil => simp [idxOf?_cons]
  | cons y s ih =>
    intro h
    simp only [mem_cons, not_or] at h
    simp [idxOf?_cons, Ne.symm h.1, ih h.2]

section Cut

variable {u interp : Bytes}

theorem scan_word (hplain : ∀ c ∈ interp, isspace c = false ∧ c ≠ 0) {x : Byte}
    (hx : isspace x = true ∨ x = 0) (w : Bytes) :
    scan (fun c => !isspace c && c ≠ 0) ((u ++ (interp ++ x :: w)).drop u.length) =
      some interp.length := by
  rw [drop_left]
  refine scan_append ?_ (fun y hy => ?_) _
  · rcases hx with hx | rfl
    · simp [hx]
    · simp
  · simp [(hplain y hy).1, (hplain y hy).2]

theorem get_word (x : Byte) (w : Bytes) :
    (u ++ (interp ++ x :: w))[u.length + interp.length]? = some x := by
  rw [getElem?_append_right (by omega)]
  simp

variable {gap : Bytes}

theorem scan_gap (hgap : ∀ c ∈ gap, isspace c = true ∧ c ≠ newline) {x : Byte}
    (hx : isspace x = false) (w : Bytes) :
    scan (fun c => isspace c && c ≠ 0)
      ((u ++ (interp ++ 0 :: (gap ++ x :: w))).drop (u.length + interp.length + 1)) =
      some gap.length := by
  have hdrop : (u ++ (interp ++ 0 :: (gap ++ x :: w))).drop (u.length + interp.length + 1) =
      gap ++ x :: w := by
    rw [← drop_drop, ← drop_drop, drop_left, drop_left]
    rfl
  rw [hdrop]
  refine scan_append (by simp [hx]) (fun y hy => ?_) _
  have hy := (hgap y hy).1
  have hne : y ≠ 0 := by
    rintro rfl
    rw [isspace_zero] at hy
    cases hy
  simp [hy, hne]

theorem get_gap (y x : Byte) (w : Bytes) :
    (u ++ (interp ++ y :: (gap ++ x :: w)))[u.length + interp.length + 1 + gap.length]? =
      some x := by
  have := @get_word (u ++ (interp ++ [y])) gap x w
  simpa [Nat.add_assoc] using this

theorem str_gap {a : Bytes} (ha : 0 ∉ a) (y : Byte) (w : Bytes) :
    str 0 (u ++ (interp ++ y :: (gap ++ (a ++ 0 :: w))))
      (u.length + interp.length + 1 + gap.length) =
      some a := by
  have := str_split ha (u ++ (interp ++ y :: gap)) w
  simpa [Nat.add_assoc, Nat.add_comm 1] using this

end Cut

theorem cutTerminated_line (l : Line) (rest : Bytes) :
    cutTerminated (l.text ++ 0 :: rest) = some (l.interp, l.arg) := by
  obtain ⟨blanks, interp, gap, arg, hblanks, hne, hplain, hgap, harg⟩ := l
  simp only [Line.text]
  have hzero : (0 : Byte) ∉ interp := fun h => (hplain 0 h).2 rfl
  obtain ⟨u, hu⟩ : ∃ u, u = hashBang ++ blanks := ⟨_, rfl⟩
  have hlen : 2 + blanks.length = u.length := by
    rw [hu, length_append]
    rfl
  have hscan : ∀ w, scan isspace ((u ++ (interp ++ w)).drop 2) = some blanks.length := by
    intro w
    obtain ⟨c, cs, hinterp⟩ := exists_cons_of_ne_nil hne
    have hdrop : (u ++ (interp ++ w)).drop 2 = blanks ++ c :: (cs ++ w) := by
      simp [hu, hashBang, hinterp]
    rw [hdrop]
    exact scan_append (hplain c (by simp [hinterp])).1 (fun y hy => (hblanks y hy).1) _
  have hstr : ∀ w, str 0 (u ++ (interp ++ 0 :: w)) u.length = some interp := str_split hzero u
  rcases gap with _ | ⟨g, gap⟩
  · rcases arg with _ | a
    · have hcells : hashBang ++ (blanks ++ (interp ++ ([] ++ (none : Option Bytes).getD []))) ++
          0 :: rest = u ++ (interp ++ 0 :: rest) := by simp [hu]
      rw [hcells]
      unfold cutTerminated
      simp only [hscan, hlen, scan_word hplain (Or.inr rfl), get_word, hstr, bind_eq_bind,
        bind_some, if_true]
      rfl
    · exact absurd rfl (harg a rfl).1
  · have hg := hgap g mem_cons_self
    have hg0 : g ≠ 0 := by
      rintro rfl
      rw [isspace_zero] at hg
      exact absurd hg.1 (by simp)
    have hgap' : ∀ c ∈ gap, isspace c = true ∧ c ≠ newline :=
      fun c hc => hgap c (mem_cons_of_mem g hc)
    have hcells : hashBang ++ (blanks ++ (interp ++ (g :: gap ++ arg.getD []))) ++ 0 :: rest =
        u ++ (interp ++ g :: (gap ++ (arg.getD [] ++ 0 :: rest))) := by simp [hu]
    have hstore : ∀ w, store (u ++ (interp ++ g :: w)) (u.length + interp.length) 0 =
        some (u ++ (interp ++ 0 :: w)) := by
      intro w
      have := store_split (u ++ interp) w g 0
      simpa using this
    rw [hcells]
    unfold cutTerminated
    simp only [hscan, hlen, scan_word hplain (Or.inl hg.1), get_word, hstr, hstore,
      bind_eq_bind, bind_some, if_neg hg0]
    rcases arg with _ | a
    · simp only [getD_none, nil_append, scan_gap hgap' isspace_zero, get_gap, bind_some, if_true]
      rfl
    · obtain ⟨-, -, ha0, c, s, rfl, hc⟩ := harg a rfl
      have hc0 : c ≠ 0 := fun h => ha0 (by simp [h])
      have hsplit : (some (c :: s)).getD [] ++ 0 :: rest = c :: (s ++ 0 :: rest) := rfl
      have hargument := @str_gap u interp gap _ ha0 0 rest
      simp only [hsplit, cons_append] at hargument ⊢
      simp only [scan_gap hgap' hc, get_gap, hargument, bind_some, if_neg hc0]
      rfl

theorem cutLine_line {cells rest : Bytes} {ret : ℕ} (l : Line)
    (hcells : cells = l.text ++ newline :: rest) (hret : l.text.length < ret) :
    cutLine cells ret = some (some (l.interp, l.arg)) := by
  have htake : cells.take ret = l.text ++ newline :: rest.take (ret - l.text.length - 1) := by
    rw [hcells, take_append, take_of_length_le (by omega)]
    rw [show ret - l.text.length = (ret - l.text.length - 1) + 1 by omega, take_succ_cons]
    simp
  have hstore : store cells l.text.length 0 = some (l.text ++ 0 :: rest) := by
    rw [hcells]
    exact store_split _ _ _ _
  unfold cutLine
  rw [htake, idxOf?_append (newline_notMem_text l)]
  simp only [hstore, bind_eq_bind, bind_some, cutTerminated_line]
  rfl

/-- A vector in memory, with what stands behind its `NULL`. -/
def slots (args : List Bytes) (behind : List (Option Bytes)) : List (Option Bytes) :=
  args.map some ++ none :: behind

theorem scan_slots (args : List Bytes) (behind : List (Option Bytes)) :
    scan isSome (slots args behind) = some args.length := by
  have := scan_append (p := isSome) (x := none) rfl
    (fun y (hy : y ∈ args.map some) => by
      obtain ⟨a, -, rfl⟩ := mem_map.1 hy
      rfl) behind
  simpa [slots] using this

theorem slots_eq (args : List Bytes) (behind : List (Option Bytes)) :
    ∃ x, slots args behind = [x] ++ (slots args behind).drop 1 := by
  rcases args with _ | ⟨a, args⟩
  · exact ⟨none, rfl⟩
  · exact ⟨some a, rfl⟩

theorem buildArgv_arg (fill : Option Bytes) (interp arg fname : Bytes) (args : List Bytes)
    (behind : List (Option Bytes)) :
    buildArgv fill interp (some arg) fname (slots args behind) = none := by
  obtain ⟨x, hx⟩ := slots_eq args behind
  have hblock : replicate (args.length + 1 + 2) fill =
      fill :: fill :: fill :: replicate args.length fill := rfl
  have hcopy := @foldlM_copy _ 2 (args.length + 1) 1 [some interp, some arg, some fname]
    (replicate args.length fill) [x] ((slots args behind).drop 1) rfl rfl
  rw [← hx, if_neg (by simp), cons_append, cons_append, cons_append, nil_append] at hcopy
  unfold buildArgv
  simp only [scan_slots, hblock, bind_eq_bind, bind_some]
  exact hcopy

theorem buildArgv_plain (fill : Option Bytes) (interp fname : Bytes) (args : List Bytes)
    (behind : List (Option Bytes)) :
    buildArgv fill interp none fname (slots args behind) =
      if behind = [] then none
      else some (some interp :: some fname :: ((slots args behind).drop 1).take
        (args.length + 1)) := by
  obtain ⟨x, hx⟩ := slots_eq args behind
  have hblock : replicate (args.length + 1 + 2) fill =
      fill :: fill :: replicate (args.length + 1) fill := rfl
  have hcopy := @foldlM_copy _ 1 (args.length + 1) 1 [some interp, some fname]
    (replicate (args.length + 1) fill) [x] ((slots args behind).drop 1) rfl rfl
  have hlen : (args.length + 1 ≤ ((slots args behind).drop 1).length ∧
      args.length + 1 ≤ (replicate (args.length + 1) fill).length) ↔ ¬ behind = [] := by
    rcases behind with _ | ⟨b, behind⟩
    · simp [slots]
    · simp [slots]
  simp only [← hx, hlen, cons_append, nil_append] at hcopy
  unfold buildArgv
  simp only [scan_slots, hblock, bind_eq_bind, bind_some]
  refine hcopy.trans ?_
  by_cases hb : behind = []
  · simp [hb]
  · simp [hb]

theorem interpreter_line {b : Shebang} {l : Line} {more : Bytes}
    (h : b.cells.take b.ret = l.text ++ newline :: more) :
    interpreter b = some (some (some (l.interp, l.arg))) := by
  have hcells : b.cells = l.text ++ newline :: (more ++ b.cells.drop b.ret) := by
    conv_lhs => rw [← take_append_drop b.ret b.cells, h]
    simp
  have hlen := congrArg length h
  rw [length_take, b.cells_length, min_eq_left b.ret_le, length_append, length_cons] at hlen
  have hinterp := length_pos_iff.2 l.interp_ne_nil
  have htext : 2 + l.interp.length ≤ l.text.length := by
    simp only [Line.text, length_append, hashBang]
    simp
    omega
  have hhash : b.cells.take 2 = hashBang := by
    rw [hcells]
    simp only [Line.text, append_assoc]
    exact take_left' (by decide)
  have hscript : scriptCells b = some (some b.cells) := by
    rw [scriptCells, if_pos (by omega), if_pos hhash]
  have hcut : cutLine b.cells b.ret = some (some (l.interp, l.arg)) :=
    cutLine_line l hcells (by omega)
  simp only [interpreter, hscript, hcut, bind_eq_bind, bind_some]
  rfl

/-- What `sys_execve` does for a script: the vector, and then the path, come from the interpreter
and the argument. -/
theorem sysExecve_run {errno : ℤ → ℤ} {files : Files} {fill : Option Bytes}
    {fname path₀ interp : Bytes} {arg : Option Bytes} {argvp : List (Option Bytes)} {b : Shebang}
    (hfname : files.expand fname = .ok path₀) (hread : files.read = .ok b)
    (h : interpreter b = some (some (some (interp, arg)))) :
    sysExecve errno files fill fname argvp =
      (buildArgv fill interp arg fname argvp).map fun v => (files.expand interp).map (·, v) := by
  simp only [sysExecve, hfname, hread, h, bind_eq_bind, bind_some]
  rcases files.expand interp with _ | path <;>
    rcases buildArgv fill interp arg fname argvp with _ | v <;> rfl

theorem sysExecve_script {errno : ℤ → ℤ} {files : Files} {fill : Option Bytes}
    {fname path₀ path : Bytes} {argvp : List (Option Bytes)} {b : Shebang} {l : Line} {more : Bytes}
    (hfname : files.expand fname = .ok path₀) (hread : files.read = .ok b)
    (hline : b.cells.take b.ret = l.text ++ newline :: more)
    (hinterp : files.expand l.interp = .ok path) :
    sysExecve errno files fill fname argvp =
      (buildArgv fill l.interp l.arg fname argvp).map fun v => .ok (path, v) := by
  rw [sysExecve_run hfname hread (interpreter_line hline), hinterp]
  rfl

/-- The vector that Linux gets for a script is the interpreter, its argument, the file and the
arguments after the first, with every access inside the vectors, exactly if the caller's vector has
a slot behind its `NULL`, the line has no argument, and there is an argument or that slot is
`NULL`. -/
theorem sysExecve_argv_iff (errno : ℤ → ℤ) (files : Files) (fill : Option Bytes)
    (fname path₀ path : Bytes) (b : Shebang) (l : Line) (more : Bytes) (args : List Bytes)
    (behind : List (Option Bytes)) (hfname : files.expand fname = .ok path₀)
    (hread : files.read = .ok b) (hline : b.cells.take b.ret = l.text ++ newline :: more)
    (hinterp : files.expand l.interp = .ok path) :
    (∃ v, sysExecve errno files fill fname (slots args behind) = some (.ok (path, v)) ∧
        Spells none v ((l.interp :: (l.arg.toList ++ fname :: args.drop 1)).map some)) ↔
      behind ≠ [] ∧ l.arg = none ∧ (args ≠ [] ∨ behind.head? = some none) := by
  rw [sysExecve_script hfname hread hline hinterp]
  rcases harg : l.arg with _ | arg
  · rw [buildArgv_plain]
    rcases behind with _ | ⟨x, behind⟩
    · simp
    · rcases args with _ | ⟨a, args⟩
      · simp [slots, Spells]
      · simp only [slots, Spells]
        simp
        refine ⟨[x], ?_⟩
        rw [take_append, take_of_length_le (by simp; omega), length_map,
          show args.length + 1 + 1 - args.length = 2 by omega]
        rfl
  · rw [buildArgv_arg]
    simp

def sampleLine : Line where
  blanks := []
  interp := [105]
  gap := []
  arg := none
  blanks_space := by simp
  interp_ne_nil := by simp
  interp_plain c hc := by
    cases mem_singleton.1 hc
    decide
  gap_space := by simp
  arg_some := by simp

def sampleShebang : Shebang where
  cells := sampleLine.text ++ newline :: List.replicate 252 0
  ret := 4
  cells_length := by
    rw [length_append, length_cons, length_replicate]
    rfl
  ret_le := by decide

def sampleFiles : Files := ⟨.ok, .ok sampleShebang⟩

theorem sample_line :
    sampleShebang.cells.take sampleShebang.ret = sampleLine.text ++ newline :: [] := by
  decide

theorem sysExecve_argv_null :
    sampleShebang.cells.take sampleShebang.ret = sampleLine.text ++ newline :: [] ∧
    ((∃ v, sysExecve id sampleFiles none [115] (slots [[97]] [none]) = some (.ok ([105], v)) ∧
        Spells none v [some [105], some [115]]) ↔
      [none] ≠ ([] : List (Option Bytes)) ∧ sampleLine.arg = none ∧
        (([[97]] : List Bytes) ≠ [] ∨ [none].head? = some (none : Option Bytes))) :=
  ⟨sample_line, sysExecve_argv_iff id sampleFiles none [115] [115] [105] sampleShebang sampleLine []
    [[97]] [none] rfl rfl sample_line rfl⟩

/-- One argument and `NULL`, in a vector of two slots: the third is read. -/
theorem sysExecve_argv_outside : sysExecve id sampleFiles none [115] (slots [[97]] []) = none := by
  have hscript := @sysExecve_script id sampleFiles none [115] [115] [105] (slots [[97]] [])
    sampleShebang sampleLine [] rfl rfl sample_line rfl
  rw [hscript]
  rfl

section Interpreter

variable {l line : Bytes}

theorem cutTerminated_blank (hl : ∀ c ∈ l, isspace c = true) (rest : Bytes) :
    cutTerminated (hashBang ++ (l ++ 0 :: rest)) = some ([], none) := by
  have hblanks : scan isspace ((hashBang ++ (l ++ 0 :: rest)).drop 2) = some l.length :=
    scan_append isspace_zero hl rest
  have hword := @scan_word (hashBang ++ l) [] (by simp) 0 (.inr rfl) rest
  have hget := @get_word (hashBang ++ l) [] 0 rest
  have hstr := str_split (not_mem_nil (a := (0 : Byte))) (hashBang ++ l) rest
  have hlen : (hashBang ++ l).length = 2 + l.length := length_append
  rw [hlen, append_assoc] at hword hget hstr
  simp only [nil_append, length_nil, Nat.add_zero] at hword hget hstr
  simp only [cutTerminated, hblanks, hword, hget, hstr, bind_eq_bind, bind_some,
    Nat.add_zero, if_true]
  rfl

theorem isspace_head_dropWhile {t : Bytes} {p : Byte → Bool} (h : t.dropWhile p ≠ []) :
    ∃ c s, t.dropWhile p = c :: s ∧ p c = false := by
  obtain ⟨c, s, hs⟩ := exists_cons_of_ne_nil h
  have := head_dropWhile_not p h
  exact ⟨c, s, hs, by simpa [hs] using this⟩

theorem subset_dropWhile {p : Byte → Bool} {t : Bytes} {c : Byte} (h : c ∈ t.dropWhile p) : c ∈ t :=
  (List.dropWhile_suffix p).subset h

def lineOf (l : Bytes) (hz : 0 ∉ l) (hnl : newline ∉ l) (hne : l.dropWhile isspace ≠ []) :
    Line where
  blanks := l.takeWhile isspace
  interp := (words l).1
  gap := ((l.dropWhile isspace).dropWhile (!isspace ·)).takeWhile isspace
  arg := (words l).2
  blanks_space c hc := ⟨mem_takeWhile_imp hc,
    fun h => hnl (h ▸ (List.takeWhile_prefix isspace).subset hc)⟩
  interp_ne_nil := by
    obtain ⟨c, s, hs, hc⟩ := isspace_head_dropWhile hne
    rw [words, hs, takeWhile_cons_of_pos (by simp [hc])]
    exact cons_ne_nil _ _
  interp_plain c hc := by
    refine ⟨by simpa using mem_takeWhile_imp hc, fun h => hz (h ▸ ?_)⟩
    exact subset_dropWhile ((List.takeWhile_prefix _).subset hc)
  gap_space c hc := ⟨mem_takeWhile_imp hc, fun h => hnl (h ▸
    subset_dropWhile (subset_dropWhile ((List.takeWhile_prefix isspace).subset hc)))⟩
  arg_some a ha := by
    simp only [words] at ha
    split_ifs at ha with hrest
    obtain rfl := some.inj ha
    refine ⟨fun hgap => ?_, fun h => hnl (subset_dropWhile (subset_dropWhile (subset_dropWhile h))),
      fun h => hz (subset_dropWhile (subset_dropWhile (subset_dropWhile h))),
      isspace_head_dropWhile hrest⟩
    have hnil : (l.dropWhile isspace).dropWhile (!isspace ·) ≠ [] := fun h => hrest (by rw [h]; rfl)
    obtain ⟨c, s, hs, hc⟩ := isspace_head_dropWhile hnil
    rw [hs, takeWhile_cons_of_pos (by simpa using hc)] at hgap
    cases hgap

theorem lineOf_text (hz : 0 ∉ l) (hnl : newline ∉ l) (hne : l.dropWhile isspace ≠ []) :
    (lineOf l hz hnl hne).text = hashBang ++ l := by
  have harg : (words l).2.getD [] =
      ((l.dropWhile isspace).dropWhile (!isspace ·)).dropWhile isspace := by
    simp only [words]
    split_ifs with h
    · rw [h]
      rfl
    · rfl
  simp only [Line.text, lineOf, harg]
  simp [words, takeWhile_append_dropWhile]

theorem cutTerminated_words (hz : 0 ∉ l) (hnl : newline ∉ l) (rest : Bytes) :
    cutTerminated (hashBang ++ (l ++ 0 :: rest)) = some (words l) := by
  by_cases hne : l.dropWhile isspace = []
  · have hl : l.takeWhile isspace ++ l.dropWhile isspace = l := takeWhile_append_dropWhile
    rw [hne, append_nil] at hl
    rw [cutTerminated_blank (takeWhile_eq_self_iff.1 hl), words, hne]
    rfl
  · rw [← append_assoc, ← lineOf_text hz hnl hne]
    exact cutTerminated_line _ rest

theorem cutLine_words {more : Bytes} {ret : ℕ} (hnl : newline ∉ line)
    (hret : line.length + 3 ≤ ret) :
    cutLine (hashBang ++ (line ++ newline :: more)) ret =
      some (some (words (line.takeWhile (· ≠ 0)))) := by
  have hmem : newline ∉ hashBang ++ line := by
    rw [mem_append, not_or]
    exact ⟨by decide, hnl⟩
  have hlen : (hashBang ++ line).length = line.length + 2 := by
    rw [length_append, Nat.add_comm]
    rfl
  have hidx : ((hashBang ++ line ++ newline :: more).take ret).idxOf? newline =
      some (hashBang ++ line).length := by
    obtain ⟨n, rfl⟩ := Nat.exists_eq_add_of_le hret
    rw [take_append, take_of_length_le (by omega), hlen,
      show line.length + 3 + n - (line.length + 2) = n + 1 by omega, take_succ_cons, ← hlen]
    exact idxOf?_append hmem
  obtain ⟨hz, rest, hrest⟩ := spells_takeWhile more line
  have hcut := cutTerminated_words hz
    (fun h => hnl ((List.takeWhile_prefix _).subset h)) rest
  rw [← append_assoc, cutLine, hidx]
  simp only [store_split, bind_eq_bind, bind_some]
  rw [append_assoc, hrest, hcut]
  rfl

theorem mem_words {c : Byte} (hc : c ∈ l) (hspace : isspace c = false) :
    c ∈ (words l).1 ∨ ∃ a, (words l).2 = some a ∧ c ∈ a := by
  have hskip {p : Byte → Bool} {t : Bytes} (ht : c ∈ t) :
      c ∈ t.takeWhile p ∨ c ∈ t.dropWhile p := by
    rwa [← mem_append, takeWhile_append_dropWhile]
  rcases hskip (p := isspace) hc with h | h
  · exact absurd (mem_takeWhile_imp h) (by simp [hspace])
  rcases hskip h with h | h
  · exact .inl h
  rcases hskip (p := isspace) h with h | h
  · exact absurd (mem_takeWhile_imp h) (by simp [hspace])
  · exact .inr ⟨_, if_neg (ne_nil_of_mem h), h⟩

theorem words_cut_iff : words (line.takeWhile (· ≠ 0)) = words line ↔ 0 ∉ line := by
  constructor
  · intro heq hz
    have hcut : (0 : Byte) ∉ line.takeWhile (· ≠ 0) := fun h => by
      simpa using mem_takeWhile_imp h
    rcases mem_words hz isspace_zero with h | ⟨a, ha, h⟩
    · rw [← heq] at h
      exact hcut (subset_dropWhile ((List.takeWhile_prefix _).subset h))
    · rw [← heq] at ha
      simp only [words] at ha
      split_ifs at ha
      obtain rfl := some.inj ha
      exact hcut (subset_dropWhile (subset_dropWhile (subset_dropWhile h)))
  · intro hz
    have hall : line.takeWhile (· ≠ 0) = line :=
      takeWhile_eq_self_iff.2 fun c hc => decide_eq_true fun h => hz (h ▸ hc)
    rw [hall]

variable {b : Shebang} {file : Bytes}

def sh : Bytes := (binSh.drop 2).take 7

theorem cutLine_binSh (rest : Bytes) (ret : ℕ) :
    cutLine (binSh ++ rest) ret = some (if 10 ≤ ret then some (sh, none) else none) := by
  by_cases hret : 10 ≤ ret
  · have hcut := @cutLine_words sh rest ret (by decide) hret
    have hwords : words (sh.takeWhile (· ≠ 0)) = (sh, none) := by decide
    have hcells : hashBang ++ (sh ++ newline :: rest) = binSh ++ rest := rfl
    rw [if_pos hret, ← hcells, hcut, hwords]
  · have hnone : newline ∉ (binSh ++ rest).take ret := by
      rw [take_append_of_le_length (Nat.le_of_not_le hret)]
      have hpre : binSh.take ret <+: binSh.take 9 := List.take_prefix_take_left (by omega)
      exact fun h => absurd (hpre.subset h) (by decide)
    rw [if_neg hret, cutLine, idxOf?_eq_none_iff.2 hnone]

/-- Whatever the caller's vector, Linux gets the interpreter's path, and a vector of the
interpreter, the argument, the file and more. -/
def Runs (b : Shebang) (interp : Bytes) (arg : Option Bytes) : Prop :=
  ∀ errno files fill fname path₀ args behind, files.expand fname = .ok path₀ →
    files.read = .ok b →
    sysExecve errno files fill fname (slots args behind) =
        (buildArgv fill interp arg fname (slots args behind)).map
          (fun v => (files.expand interp).map (·, v)) ∧
      ∀ v, buildArgv fill interp arg fname (slots args behind) = some v →
        (interp :: (arg.toList ++ [fname])).map some <+: v

/-- Every call with this line ends in `-ENOEXEC`. -/
def Refuses (b : Shebang) : Prop :=
  ∀ errno files fill fname path₀ argvp, files.expand fname = .ok path₀ → files.read = .ok b →
    sysExecve errno files fill fname argvp = some (.error (-enoexec))

theorem runs_of_interpreter {interp : Bytes} {arg : Option Bytes}
    (h : interpreter b = some (some (some (interp, arg)))) : Runs b interp arg := by
  intro errno files fill fname path₀ args behind hfname hread
  refine ⟨sysExecve_run hfname hread h, fun v hv => ?_⟩
  rcases arg with _ | arg
  · rw [buildArgv_plain] at hv
    split_ifs at hv
    rw [← some.inj hv]
    exact ⟨_, rfl⟩
  · exact nomatch (buildArgv_arg fill interp arg fname args behind).symm.trans hv

theorem refuses_of_interpreter (h : interpreter b = some (some none)) : Refuses b := by
  intro errno files fill fname path₀ argvp hfname hread
  simp only [sysExecve, hfname, hread, h, bind_eq_bind, bind_some]

theorem interpreter_of_script (hb : b.Holds file) {rest : Bytes}
    (hfile : file = hashBang ++ (line ++ newline :: rest)) (h4 : 4 ≤ file.length)
    (hnl : newline ∉ line) (hlen : line.length + 3 ≤ 256) :
    cutLine (b.cells.take b.ret) b.ret = some (some (words (line.takeWhile (· ≠ 0)))) ∧
      interpreter b = some (some (some (words (line.takeWhile (· ≠ 0))))) := by
  obtain ⟨hret, hcells⟩ := hb
  have hlength : file.length = line.length + 3 + rest.length := by
    rw [hfile, length_append, length_append, length_cons]
    change 2 + _ = _
    omega
  obtain ⟨n, hn⟩ := Nat.exists_eq_add_of_le hlen
  have htake : b.cells.take b.ret = hashBang ++ (line ++ newline :: rest.take n) := by
    have hpre : (hashBang ++ (line ++ [newline])).length = line.length + 3 := by
      rw [length_append, length_append]
      change 2 + (_ + 1) = _
      omega
    have hsplit : hashBang ++ (line ++ newline :: rest) =
        hashBang ++ (line ++ [newline]) ++ rest := by simp
    rw [hcells, hfile, hsplit, hn, ← hpre, take_length_add_append]
    simp
  have hwhole : b.cells = hashBang ++ (line ++ newline :: (rest.take n ++ b.cells.drop b.ret)) := by
    conv_lhs => rw [← take_append_drop b.ret b.cells, htake]
    simp
  have hret' : line.length + 3 ≤ b.ret := by omega
  refine ⟨by rw [htake, cutLine_words hnl hret'], ?_⟩
  have hscript : scriptCells b = some (some b.cells) := by
    rw [scriptCells, if_pos (by omega), if_pos]
    rw [hwhole]
    rfl
  simp only [interpreter, hscript, bind_eq_bind, bind_some]
  rw [hwhole, cutLine_words hnl hret']
  rfl

theorem interpreter_of_text (hb : b.Holds file) (h4 : 4 ≤ file.length)
    (htext : (file.take 4).all istext) (hhash : file.take 2 ≠ hashBang) :
    interpreter b = some (some (if 10 ≤ file.length then some (sh, none) else none)) := by
  obtain ⟨hret, hcells⟩ := hb
  have htake (m : ℕ) (hm : m ≤ 4) : b.cells.take m = file.take m := by
    have := congrArg (take m) hcells
    rwa [take_take, take_take, min_eq_left (by omega), min_eq_left (by omega)] at this
  have hcopy := blit_room (u := []) (t := binSh ++ [0]) (by
    rw [b.cells_length]
    decide)
  have hscript : scriptCells b =
      some (some (binSh ++ 0 :: b.cells.drop (binSh ++ [0]).length)) := by
    rw [scriptCells, if_pos (by omega), htake 2 (by decide), if_neg hhash, htake 4 le_rfl,
      if_pos htext, strcpy]
    simpa using hcopy
  have h10 : 10 ≤ b.ret ↔ 10 ≤ file.length := by omega
  simp only [interpreter, hscript, bind_eq_bind, bind_some, cutLine_binSh, h10]
  rfl

def shebangOf (file : Bytes) (h : file.length ≤ 256) : Shebang where
  cells := file ++ List.replicate (256 - file.length) 0
  ret := file.length
  cells_length := by
    rw [length_append, length_replicate]
    omega
  ret_le := h

theorem shebangOf_holds {h : file.length ≤ 256} : (shebangOf file h).Holds file := by
  refine ⟨(min_eq_right h).symm, ?_⟩
  rw [shebangOf, take_left, take_of_length_le h]

end Interpreter

end Darling.Execve
