import Darling.Proofs.VchrootLinks

/-!
# Accesses stay inside the arrays

A run leaves its arrays only at a `/` that does not fit or at a `..` with no slash to step back to
(`run_eq_none`).  Neither happens once the path is short of the last two cells and begins with a
slash, which every step keeps, and which a run starts with but for some prefixes and link texts
(`vchrootExpand_safe`).
-/

namespace Darling.Vchroot

open CArray List

variable {base : ProcLink} {follow : Bool}

namespace Text

variable {V : Config} {k : Kernel}

/-- The iteration accesses an element outside `current_path`. -/
def Faults (V : Config) (s : State) (input : Bytes) : Prop :=
  Moves (nextComponent input).1 ∧ (appendSlash s = none ∨
    (nextComponent input).1 = [dot, dot] ∧ ∃ s₁, appendSlash s = some s₁ ∧ dotdot V s₁ = none)

variable {s : State} {input : Bytes}

theorem iteration_eq_none {run : Bytes → State → Option (ℤ × State)} {more : Bool}
    (h : iteration V k run s (nextComponent input).1 more = none) :
    Faults V s input ∨ ∃ s₁ link s₂, Moves (nextComponent input).1 ∧
      (nextComponent input).1 ≠ [dot, dot] ∧ appendSlash s = some s₁ ∧
      inspect V k s₁ (nextComponent input).1 more = .follow link s₂ ∧ run link s₂ = none := by
  unfold iteration at h
  by_cases hm : (nextComponent input).1 = [dot] ∨ (nextComponent input).1 = []
  · simp [hm] at h
  rw [if_neg hm] at h
  rcases happ : appendSlash s with _ | s₁
  · exact .inl ⟨hm, .inl happ⟩
  simp only [happ, some_bind] at h
  by_cases hdd : (nextComponent input).1 = [dot, dot]
  · rw [if_pos hdd] at h
    exact .inl ⟨hm, .inr ⟨hdd, s₁, happ, h⟩⟩
  rw [if_neg hdd] at h
  unfold component at h
  rcases hi : inspect V k s₁ (nextComponent input).1 more with s₂ | ⟨rv, s₂⟩ | ⟨link, s₂⟩
  · simp [hi] at h
  · simp [hi] at h
  · simp only [hi, Option.bind_eq_bind, Option.bind_eq_none_iff] at h
    refine .inr ⟨s₁, link, s₂, hm, hdd, rfl, hi, ?_⟩
    rcases hr : run link s₂ with _ | ⟨rv, s₃⟩
    · rfl
    · have := h _ hr
      split_ifs at this

theorem Faults.iteration (h : Faults V s input) (run : Bytes → State → Option (ℤ × State))
    (more : Bool) : Text.iteration V k run s (nextComponent input).1 more = none := by
  obtain ⟨hm, hnone | ⟨hdd, s₁, happ, hd⟩⟩ := h
  · rw [Text.iteration, if_neg hm, hnone]
    rfl
  · rw [Text.iteration, if_neg hm, happ, hdd]
    exact hd

theorem loop_eq_none {run : Bytes → State → Option (ℤ × State)}
    {tr : Bytes → State → List (Point State)}
    (hrun : ∀ {link s}, run link s = none → ∃ i t, .head i t ∈ tr link s ∧ i ≠ [] ∧ Faults V t i) :
    ∀ (n : ℕ) {input : Bytes} {s : State}, loop V k run n input s = none →
      ∃ i t, .head i t ∈ loopTrace V k run tr n input s ∧ i ≠ [] ∧ Faults V t i
  | 0, input, s, h => by simp [loop] at h
  | n + 1, input, s, h => by
    simp only [loop, loopTrace] at h ⊢
    by_cases hin : input = []
    · simp [hin] at h
    simp only [if_neg hin, mem_cons, mem_append] at h ⊢
    rcases hi : iteration V k run s (nextComponent input).1
      (decide ((nextComponent input).2 ≠ [])) with _ | s₁ | ⟨rv, s₁⟩
    · obtain hf | ⟨s₁, link, s₂, hm, hdd, happ, hins, hr⟩ := iteration_eq_none hi
      · exact ⟨input, s, .inl rfl, hin, hf⟩
      · obtain ⟨i, t, hmem, hne, hf⟩ := hrun hr
        exact ⟨i, t, .inr (.inl (mem_iterationTrace.2
          ⟨hm, hdd, s₁, happ, .inr ⟨link, s₂, hins, .inl hmem⟩⟩)), hne, hf⟩
    · rw [hi] at h
      obtain ⟨i, t, hmem, hne, hf⟩ := loop_eq_none hrun n h
      exact ⟨i, t, .inr (.inr hmem), hne, hf⟩
    · rw [hi] at h
      simp at h

theorem run_eq_none : ∀ (left : ℕ) {input : Bytes} {s : State}, run V k left input s = none →
    ∃ i t, .head i t ∈ trace V k left input s ∧ i ≠ [] ∧ Faults V t i
  | 0, _, _, h => by simp [run] at h
  | left + 1, _, _, h => loop_eq_none (fun h => run_eq_none left h) _ h

theorem Faults.expand
    (hs : openState V k base follow input = .ok s) (hne : (start V input s).1 ≠ [])
    (h : Faults V (start V input s).2 (start V input s).1) :
    Text.expand V k base follow input = none := by
  have hin : input ≠ [] := by
    rintro rfl
    simp [start] at hne
  have hrun : run V k (maxSymlinkDepth + 1) input s = none := by
    obtain ⟨n, hn⟩ := Nat.exists_eq_succ_of_ne_zero (length_pos_of_ne_nil hne).ne'
    rw [run, hn, Nat.succ_eq_add_one, loop, if_neg hne, h.iteration]
  rw [Text.expand, if_neg hin, hs]
  simp [hrun]

theorem moves_up : Moves (nextComponent [dot, dot]).1 := by
  unfold Moves
  decide

theorem faults_up (hne : s.path ≠ []) (hs : slash ∉ s.path) : Faults V s [dot, dot] := by
  refine ⟨moves_up, ?_⟩
  rcases happ : appendSlash s with _ | s₁
  · exact .inl rfl
  · refine .inr ⟨by decide, s₁, rfl, ?_⟩
    rw [up_eq happ, if_neg hne, beforeLast_eq_none.2 hs]
    rfl

theorem faults_full (hlen : pathMax ≤ s.path.length + 1) : Faults V s [dot, dot] :=
  ⟨moves_up, .inl (by rw [appendSlash, if_neg (by omega)])⟩

/-- There is room for a slash and a terminator, and a `..` finds a slash or returns. -/
structure Roomy (V : Config) (s : State) : Prop where
  len : s.path.length + 2 ≤ pathMax
  slashed : s.path = [] ∨ s.path.head? = some slash ∨
    (s.root = .guest ∧ V.prefixPath <+: s.path ∧ slash ∈ V.prefixPath)

theorem Roomy.slash_mem (h : Roomy V s) (hne : s.path ≠ []) : slash ∈ s.path := by
  obtain h | h | ⟨-, hp, hs⟩ := h.slashed
  · exact absurd h hne
  · exact mem_of_mem_head? h
  · exact hp.subset hs

theorem Roomy.not_faults (hV : V.prefixPath.length ≤ 1024) (h : Roomy V s)
    (input : Bytes) : ¬ Faults V s input := by
  rintro ⟨-, hnone | ⟨-, s₁, happ, hd⟩⟩
  · have := h.len
    rw [appendSlash, if_pos (by omega)] at hnone
    simp at hnone
  · rw [up_eq happ] at hd
    split_ifs at hd with hnil hfit
    · rw [exitPath_length, pathMax] at hfit
      omega
    · rw [Option.map_eq_none_iff, beforeLast_eq_none] at hd
      exact hd (h.slash_mem hnil)

theorem Roomy.append {s' : State} (h : Roomy V s) {d : Bytes} (hroot : s'.root = s.root)
    (hpath : s'.path = s.path ++ slash :: d) (hlen : s'.path.length + 2 ≤ pathMax) :
    Roomy V s' := by
  refine ⟨hlen, .inr ?_⟩
  rw [hpath, hroot]
  obtain h | h | ⟨hr, hp, hs⟩ := h.slashed
  · exact .inl (by simp [h])
  · exact .inl (by rw [head?_append, h]; rfl)
  · exact .inr ⟨hr, hp.trans (List.prefix_append _ _), hs⟩

theorem Roomy.of_root (hV : V.prefixPath.length ≤ 1024)
    (hslash : V.prefixPath = [] ∨ slash ∈ V.prefixPath) {d : Bytes} (hroot : s.root = .guest)
    (hpath : s.path = V.prefixPath ++ d) (hd : d = [] ∨ d.head? = some slash)
    (hlen : d.length ≤ 1024) : Roomy V s := by
  refine ⟨by rw [hpath, length_append, pathMax]; omega, ?_⟩
  rw [hpath]
  obtain h | h := hslash
  · rw [h, nil_append]
    exact hd.imp_right .inl
  · exact .inr (.inr ⟨hroot, List.prefix_append _ _, h⟩)

theorem roomy_exitCheck (h : Roomy V s) : Roomy V (exitCheck V s) :=
  exitCheck_of ⟨by simp [pathMax], .inl rfl⟩ h

section

variable (hV : V.prefixPath.length ≤ 1024) (hslash : V.prefixPath = [] ∨ slash ∈ V.prefixPath)

include hV hslash

theorem roomy_invariant : Invariant V k (fun _ => Roomy V) (fun _ => True) fun _ _ => True where
  done h := h
  up {s s₁ s' input} h _ _ happ hup := by
    obtain ⟨-, rfl⟩ | ⟨t, ht, hlen, rfl⟩ := up_next happ hup
    · exact .of_root hV hslash rfl rfl (.inr (by decide)) (by decide)
    · obtain ⟨u, -, hp⟩ := beforeLast_eq_some.1 ht
      have hl := h.len
      rw [hp, length_append] at hl
      refine ⟨by simp only []; omega, ?_⟩
      obtain h | h | ⟨hr, hpre, hs⟩ := h.slashed
      · simp [h] at hp
      · rcases t with _ | ⟨b, t⟩
        · exact .inl rfl
        · rw [hp] at h
          exact .inr (.inl h)
      · rw [hr] at hlen
        refine .inr (.inr ⟨hr, ?_, hs⟩)
        exact List.prefix_of_prefix_length_le hpre (hp ▸ List.prefix_append _ _) hlen
  skip {s s₁ s' input} h _ _ happ hi := by
    obtain ⟨-, rfl⟩ := appendSlash_eq_some.1 happ
    obtain ⟨hroot, -, d, hd, hpath⟩ := inspect_skip_frame hi
    have hfit := (inspect_skip hi).1
    rw [append_assoc, singleton_append] at hpath
    refine ⟨trivial, roomy_exitCheck (h.append hroot hpath ?_)⟩
    rw [hpath]
    simp only [length_append, length_cons, length_nil] at hfit ⊢
    omega
  enter h _ happ hi := start_entered happ hi
    (.of_root hV hslash rfl (append_nil _).symm (.inl rfl) (by decide)) ⟨h.len, h.slashed⟩
  leave {s f} h _ := ⟨trivial, roomy_exitCheck ⟨h.len, h.slashed⟩⟩

theorem run_isSome (left : ℕ) (hz : 0 ∉ input)
    (hs : Roomy V (start V input s).2) : run V k left input s ≠ none := by
  intro h
  obtain ⟨i, t, hmem, -, hf⟩ := run_eq_none left h
  have hpts := (roomy_invariant hV hslash (k := k)).run_inv left hz hs fun p _ => by
    cases p <;> simp [PointGood]
  exact (hpts.1 _ hmem).not_faults hV i hf

theorem openState_roomy (hbase : ∀ t, k.procLink base = .ok t → (t = [] ∨ t.head? = some slash) ∧
      t.length + 1 < pathMax)
    (h : openState V k base follow input = .ok s) : Roomy V (start V input s).2 := by
  unfold openState at h
  unfold start
  by_cases habs : input.head? = some slash
  · simp only [if_pos habs] at h ⊢
    cases h
    exact .of_root hV hslash rfl (append_nil _).symm (.inl rfl) (by decide)
  simp only [if_neg habs] at h ⊢
  rcases ht : k.procLink base with e | t
  · simp [ht] at h
  obtain ⟨hroot, hlen⟩ := hbase t ht
  simp only [ht, take_of_length_le (show t.length ≤ pathMax - 1 by omega)] at h
  cases h
  by_cases hnil : t = [slash]
  · simp only [if_pos hnil]
    exact ⟨by simp [pathMax], .inl rfl⟩
  · simp only [if_neg hnil]
    exact ⟨by simp only []; omega, hroot.imp_right .inl⟩

end

end Text

theorem vchrootExpand_eq_none {V : Config} {k : Kernel} {junk input : Bytes} {args : ExpandArgs}
    (hjunk : junk.length = pathMax) (hsize : args.path.length = pathMax)
    (hin : Spells 0 args.path input) :
    vchrootExpand V k junk args = none ↔ Text.expand V k args.base args.follow input = none := by
  have hrel := vchrootExpand_rel (V := V) (k := k) hjunk hsize hin
  generalize vchrootExpand V k junk args = x at hrel
  generalize Text.expand V k args.base args.follow input = y at hrel
  cases hrel <;> simp

theorem Text.expand_eq_none {V : Config} {k : Kernel}
    {input : Bytes} (h : Text.expand V k base follow input = none) :
    ∃ s, Text.openState V k base follow input = .ok s ∧
      Text.run V k (maxSymlinkDepth + 1) input s = none := by
  unfold Text.expand at h
  split_ifs at h
  split at h
  · simp at h
  · rename_i s hs
    refine ⟨s, hs, ?_⟩
    rcases hr : Text.run V k (maxSymlinkDepth + 1) input s with _ | ⟨rv, s'⟩
    · rfl
    · simp [hr] at h

/-- The answers a link of `/proc` gives: an error, an absolute path or a text without a slash. -/
def LinkAnswer (r : Except ℕ+ Bytes) : Prop :=
  ∀ t, r = .ok t → 0 ∉ t ∧ (t.head? = some slash ∨ slash ∉ t)

def emptyKernel (r : Except ℕ+ Bytes) : Kernel := (Node.dir []).kernel fun _ => r

theorem emptyKernel_procLink {r : Except ℕ+ Bytes} (hr : LinkAnswer r) {l : ProcLink} :
    (emptyKernel r).procLink l = r := by
  rcases r with e | t
  · rfl
  · exact congrArg _ (Node.cText_of_notMem (hr t rfl).1)

/-- Whatever the file system and the guest path, an expansion accesses nothing outside its arrays,
exactly if the prefix is empty or has a slash, and the text of the directory's link is empty or
begins with a slash and is at least two bytes shorter than the array. -/
theorem vchrootExpand_safe {V : Config} (hV : V.prefixPath.length ≤ 1024) {r : Except ℕ+ Bytes}
    (hr : LinkAnswer r) :
    (∀ (k : Kernel) (junk input : Bytes) (args : ExpandArgs), k.procLink args.base = r →
      junk.length = pathMax → args.path.length = pathMax → Spells 0 args.path input →
      vchrootExpand V k junk args ≠ none) ↔
    (V.prefixPath = [] ∨ slash ∈ V.prefixPath) ∧
      ∀ t, r = .ok t → (t = [] ∨ t.head? = some slash) ∧ t.length + 1 < pathMax := by
  constructor
  · intro h
    have hnot : ∀ input s, input.length < pathMax → 0 ∉ input →
        Text.openState V (emptyKernel r) .cwd false input = .ok s →
        (Text.start V input s).1 = [dot, dot] →
        ¬ Text.Faults V (Text.start V input s).2 [dot, dot] := by
      intro input s hlen hz hs hst hf
      have hsize : (ofString 0 pathMax input).length = pathMax := ofString_length hlen.le
      have hsp := spells_ofString hz hlen
      refine h (emptyKernel r) zeros input ⟨ofString 0 pathMax input, -100, false⟩
        (emptyKernel_procLink hr) zeros_length hsize hsp ?_
      rw [vchrootExpand_eq_none zeros_length hsize hsp]
      exact Text.Faults.expand hs (by simp [hst]) (hst ▸ hf)
    have hopen : ∀ t, r = .ok t → t.take (pathMax - 1) ≠ [slash] →
        ∃ s, Text.openState V (emptyKernel r) .cwd false [dot, dot] = .ok s ∧
          (Text.start V [dot, dot] s).2.path = t.take (pathMax - 1) := by
      rintro t rfl hne
      rw [Text.openState, if_neg (by decide), emptyKernel_procLink hr]
      exact ⟨_, rfl, if_neg hne⟩
    refine ⟨?_, fun t ht => ⟨?_, ?_⟩⟩
    · by_contra hc
      obtain ⟨hne, hs⟩ := not_or.1 hc
      exact hnot [slash, dot, dot] _ (by decide) (by decide) rfl rfl
        (Text.faults_up hne hs)
    · by_contra hc
      obtain ⟨hne, hh⟩ := not_or.1 hc
      have hs : slash ∉ t.take (pathMax - 1) := fun hm =>
        ((hr t ht).2.resolve_left hh) (mem_of_mem_take hm)
      obtain ⟨s, hs₀, hp⟩ := hopen t ht fun he => hs (by simp [he])
      refine hnot _ _ (by decide) (by decide) hs₀ rfl (Text.faults_up ?_ (hp ▸ hs))
      simpa [hp, pathMax] using hne
    · by_contra hc
      have hlen : (t.take (pathMax - 1)).length = pathMax - 1 := by
        rw [length_take]
        omega
      obtain ⟨s, hs₀, hp⟩ := hopen t ht fun he => by
        rw [he] at hlen
        simp [pathMax] at hlen
      refine hnot _ _ (by decide) (by decide) hs₀ rfl (Text.faults_full ?_)
      rw [hp, hlen]
      decide
  · rintro ⟨hslash, ht⟩ k junk input args hlink hjunk hsize hin hnone
    rw [vchrootExpand_eq_none hjunk hsize hin] at hnone
    obtain ⟨s, hs, hrun⟩ := Text.expand_eq_none hnone
    exact Text.run_isSome hV hslash _ hin.1
      (Text.openState_roomy hV hslash (fun t htk => ht t (hlink ▸ htk)) hs) hrun

def pipeText : Bytes := ascii ['p', 'i', 'p', 'e', ':', '[', '1', ']']

theorem pipeText_answer : LinkAnswer (.ok pipeText) := by
  intro t ht
  rw [← Except.ok.inj ht]
  decide

theorem vchrootExpand_safe_pipe : LinkAnswer (.ok pipeText) ∧
      ¬ ∀ (k : Kernel) (junk input : Bytes) (args : ExpandArgs),
        k.procLink args.base = .ok pipeText → junk.length = pathMax → args.path.length = pathMax →
        Spells 0 args.path input → vchrootExpand sampleConfig k junk args ≠ none := by
  refine ⟨pipeText_answer, ?_⟩
  rw [vchrootExpand_safe (by decide) pipeText_answer]
  rintro ⟨-, h⟩
  exact absurd (h _ rfl) (by decide)

def pipeArgs : ExpandArgs := { sampleArgs ['.', '.'] with dfd := 3 }

/-- From a pipe's descriptor, `..` reads below `current_path`. -/
theorem vchrootExpand_pipe_up :
    vchrootExpand sampleConfig (emptyKernel (.ok pipeText)) zeros pipeArgs = none := by
  have hsize : pipeArgs.path.length = pathMax := sampleArgs_size ['.', '.'] (by decide)
  have hin : Spells 0 pipeArgs.path _ := sampleArgs_spells ['.', '.'] (by decide) (by decide)
  rw [vchrootExpand_eq_none zeros_length hsize hin]
  rfl

end Darling.Vchroot
