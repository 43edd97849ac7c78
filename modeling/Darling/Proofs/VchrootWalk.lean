import Darling.Proofs.VchrootLinks

/-!
# The loop along a path

`walk` is the loop with the fuel its input needs.  Along names that are looked at and are no links,
or that are not looked at at all, it goes down the path one name after the other (`walk_places`);
through the exit path it comes out at the host root (`walk_exit`).
-/

namespace Darling.Vchroot

namespace Text

open CArray List Option

variable {V : Config} {k : Kernel}

theorem loop_fuel {run : Bytes → State → Option (ℤ × State)} : ∀ (n m : ℕ) {input : Bytes}
    {s : State}, input.length ≤ n → input.length ≤ m →
    loop V k run n input s = loop V k run m input s
  | 0, 0, _, _, _, _ => rfl
  | 0, m + 1, input, s, hn, _ => by
    rw [length_eq_zero_iff.1 (Nat.le_zero.1 hn)]
    rfl
  | n + 1, 0, input, s, _, hm => by
    rw [length_eq_zero_iff.1 (Nat.le_zero.1 hm)]
    rfl
  | n + 1, m + 1, input, s, hn, hm => by
    simp only [loop]
    split_ifs with hin
    · rfl
    · have hlt := rest_length_lt hin
      split
      · rfl
      · rfl
      · exact loop_fuel n m (by omega) (by omega)

/-- The loop, with as many rounds as its input has bytes. -/
def walk (V : Config) (k : Kernel) (left : ℕ) (input : Bytes) (s : State) : Option (ℤ × State) :=
  loop V k (run V k left) input.length input s

variable {left : ℕ} {s : State}

@[simp] theorem walk_nil : walk V k left [] s = some (0, s) := rfl

variable {input : Bytes}

theorem walk_next (s' : State) (hne : input ≠ [])
    (h : iteration V k (run V k left) s (nextComponent input).1 ((nextComponent input).2 ≠ [])
      = some (.next s')) : walk V k left input s = walk V k left (rest input) s' := by
  obtain ⟨n, hn⟩ := Nat.exists_eq_succ_of_ne_zero (length_pos_of_ne_nil hne).ne'
  have hlt := rest_length_lt hne
  unfold walk
  rw [hn, Nat.succ_eq_add_one, loop, if_neg hne, h]
  exact loop_fuel _ _ (by omega) le_rfl

theorem walk_dropWhile (input : Bytes) :
    walk V k left input s = walk V k left (input.dropWhile (· = slash)) s := by
  rcases input with _ | ⟨b, input⟩
  · rfl
  by_cases hb : b = slash
  · subst hb
    have hcomp : nextComponent (slash :: input) = ([], slash :: input) := by
      simp [nextComponent]
    rw [walk_next s (by simp) (by rw [hcomp, iteration, if_pos (.inr rfl)]), rest, hcomp]
  · rw [dropWhile_cons_of_neg (by simpa using hb)]

theorem run_absolute (h : input.head? = some slash) : run V k (left + 1) input s
      = walk V k left (input.dropWhile (· = slash)) { s with path := s.root.text V } := by
  have hd : input.dropWhile (· = slash) = input.tail.dropWhile (· = slash) := by
    rcases input with _ | ⟨b, input⟩
    · rfl
    · rw [head?_cons, some.injEq] at h
      rw [dropWhile_cons_of_pos (by simpa using h), tail_cons]
  rw [hd, ← walk_dropWhile, run, start, if_pos h]
  rfl

theorem run_relative (h : input.head? ≠ some slash) :
    run V k (left + 1) input s = walk V k left input s := by
  rw [run, start, if_neg h]
  rfl

/-- What an expansion returns for a run. -/
def shown (a : ℤ × State) : ℤ × Bytes := (a.1, if a.2.path = [] then [slash] else a.2.path)

theorem expand_absolute {base : ProcLink} {f : Bool} (h : input.head? = some slash) :
    expand V k base f input = (walk V k maxSymlinkDepth (input.dropWhile (· = slash))
      ⟨.guest, V.prefixPath, false, f⟩).map shown := by
  have hne : input ≠ [] := by
    rintro rfl
    simp at h
  rw [expand, if_neg hne, openState, if_pos h]
  simp only [run_absolute h, Root.text, bind_eq_bind, Option.pure_def]
  rw [map_eq_bind]
  rfl

theorem expand_relative {base : ProcLink} {f : Bool} {W : List Bytes} (hne : input ≠ [])
    (h : input.head? ≠ some slash) (hlink : k.procLink base = .ok (absolute W))
    (hW : ∀ c ∈ W, IsName c) (hlen : (absolute W).length < pathMax) :
    expand V k base f input = (walk V k maxSymlinkDepth input
      ⟨if V.prefixPath <+: render W then .guest else .host, render W, false, f⟩).map shown := by
  have hp : (if absolute W = [slash] then [] else absolute W) = render W := by
    by_cases hnil : W = []
    · rw [hnil]
      rfl
    · rw [absolute_of_ne_nil hnil, if_neg (render_ne_slash hW)]
  rw [expand, if_neg hne, openState, if_neg h, hlink]
  simp only [take_of_length_le (show (absolute W).length ≤ pathMax - 1 by omega), hp,
    run_relative h, bind_eq_bind, Option.pure_def]
  rw [map_eq_bind]
  rfl

section Name

variable {c tl : Bytes}

/-- What may follow a component. -/
def IsTail (tl : Bytes) : Prop := tl = [] ∨ tl.head? = some slash

theorem nextComponent_name (hc : slash ∉ c) (htl : IsTail tl) :
    nextComponent (c ++ tl) = (c, tl) := by
  have hpos : ∀ b ∈ c, decide (b ≠ slash) = true := fun b hb => by
    simpa using fun h : b = slash => hc (h ▸ hb)
  unfold nextComponent
  rw [takeWhile_append_of_pos hpos, dropWhile_append_of_pos hpos]
  obtain rfl | h := htl
  · simp
  · rcases tl with _ | ⟨b, tl⟩
    · simp
    · rw [head?_cons, some.injEq] at h
      simp [h]

theorem walk_name {s' : State} (hc : IsName c) (htl : IsTail tl)
    (h : iteration V k (run V k left) s c (tl ≠ []) = some (.next s')) :
    walk V k left (c ++ tl) s = walk V k left (tl.dropWhile (· = slash)) s' := by
  have hcomp := nextComponent_name hc.2.1 htl
  rw [walk_next s' (by simp [hc.1]) (by rw [hcomp]; exact h), rest, hcomp]

/-- A component that is appended as it is. -/
def Passed (k : Kernel) (s : State) (c : Bytes) : Prop :=
  s.unknown ∨ ∃ kd, k.lstat (s.path ++ slash :: c) = .ok kd ∧ kd ≠ .symlink

theorem iteration_passed {run : Bytes → State → Option (ℤ × State)} {more : Bool} (hc : IsName c)
    (hfit : c.length + s.path.length + 3 ≤ pathMax) (h : Passed k s c) :
    iteration V k run s c more
      = some (.next (exitCheck V { s with path := s.path ++ slash :: c })) := by
  refine iteration_skip hc (by omega) ?_
  unfold inspect
  rw [if_neg (fits_slash hfit), ← append_cons]
  obtain hu | ⟨kd, hl, hk⟩ := h
  · rw [if_pos hu]
  · simp [hl, hk]

end Name

theorem isTail_render_append (cs : List Bytes) {tl : Bytes} (htl : IsTail tl) :
    IsTail (render cs ++ tl) := by
  rcases cs with _ | ⟨c, cs⟩
  · exact htl
  · exact .inr rfl

theorem dropWhile_render_cons {c : Bytes} (hc : IsName c) (cs : List Bytes) (tl : Bytes) :
    (render (c :: cs) ++ tl).dropWhile (· = slash) = c ++ (render cs ++ tl) := by
  obtain ⟨b, c, rfl⟩ := exists_cons_of_ne_nil hc.1
  have hb : b ≠ slash := fun h => hc.2.1 (h ▸ mem_cons_self)
  simp [render, hb]

theorem walk_places : ∀ {cs : List Bytes} {s : State} {tl : Bytes}, (∀ c ∈ cs, IsName c) →
    IsTail tl → (s.path ++ render cs).length + 2 ≤ pathMax →
    (∀ ds d, ds ++ [d] <+: cs → Passed k { s with path := s.path ++ render ds } d) →
    (∀ ds, ds ≠ [] → ds <+: cs → ¬ AtExit V { s with path := s.path ++ render ds }) →
    walk V k left ((render cs ++ tl).dropWhile (· = slash)) s
      = walk V k left (tl.dropWhile (· = slash)) { s with path := s.path ++ render cs }
  | [], s, tl, _, _, _, _, _ => by simp [render]
  | c :: cs, s, tl, hcs, htl, hfit, hpass, hex => by
    have hc := hcs c mem_cons_self
    have happ : ∀ ds, s.path ++ render (c :: ds) = (s.path ++ slash :: c) ++ render ds := by
      simp [render]
    have hlen : c.length + s.path.length + 3 ≤ pathMax := by
      rw [happ, length_append, length_append, length_cons] at hfit
      omega
    have hp : Passed k s c := by simpa [render] using hpass [] c (by simp)
    have hne : ¬ AtExit V { s with path := s.path ++ slash :: c } := by
      simpa [render] using hex [c] (by simp) (by simp)
    rw [dropWhile_render_cons hc, walk_name hc (isTail_render_append cs htl)
      (iteration_passed hc hlen hp), exitCheck, if_neg hne, happ]
    refine walk_places (fun d hd => hcs d (mem_cons_of_mem _ hd)) htl (happ cs ▸ hfit)
      (fun ds d hd => ?_) (fun ds hds hd => ?_)
    · rw [← happ]
      exact hpass (c :: ds) d (by simpa using hd)
    · rw [← happ]
      exact hex (c :: ds) (by simp) (by simpa using hd)

theorem not_atExit_host {s : State} (h : s.root = .host) : ¬ AtExit V s := fun hex =>
  hex.1 (by rw [h]; rfl)

section Exit

def systemRootName : Bytes := exitPath.drop 9

theorem exitPath_eq : exitPath = render [volumesName, systemRootName] := by decide

theorem isName_systemRootName : IsName systemRootName := by decide

variable {c d e : Bytes} {u u' f : Bool}

/-- The name that is looked up in a directory and found there: in another case if there is none in
this one.  With it whether none was found (from then on nothing is looked up); `none` for a link
that is followed. -/
def lookup (V : Config) (k : Kernel) (dir : Bytes) (unknown : Bool) (c : Bytes) :
    Option (Bytes × Bool) :=
  if unknown then some (c, true)
  else
    match k.lstat (dir ++ slash :: c) with
    | .error e =>
      if V.icaseEnabled ∧ e = enoent then
        match k.getdents (if dir = [] then [slash] else dir) with
        | .error _ => some (c, true)
        | .ok batches =>
          match batches.flatten.find? (caseEq · c) with
          | some d => some (d, false)
          | none => some (c, true)
      else some (c, false)
    | .ok .symlink =>
      match k.readlink (dir ++ slash :: c) with
      | .ok t =>
        if procPath <+: dir ++ slash :: c ∧ colon ∈ t.take (linkMax - 1) then some (c, false)
        else none
      | .error _ => none
    | .ok _ => some (c, false)

theorem caseEq_of_lookup {dir : Bytes} (h : lookup V k dir u c = some (d, u')) : caseEq d c := by
  have hself : caseEq c c := by simp [caseEq]
  unfold lookup at h
  grind

theorem iteration_lookup (hc : IsName c) (hfit : c.length + s.path.length + 3 ≤ pathMax)
    (h : lookup V k s.path s.unknown c = some (d, u)) (run : Bytes → State → Option (ℤ × State))
    (more : Bool) : iteration V k run s c more
      = some (.next (exitCheck V { s with path := s.path ++ slash :: d, unknown := u })) := by
  have hfit' := fits_slash hfit
  refine iteration_skip hc (by omega) ?_
  obtain ⟨root, path, _ | _, follow⟩ := s
  · unfold inspect
    simp only [if_neg hfit', ← append_cons, Bool.false_eq_true, if_false]
    simp only [lookup, Bool.false_eq_true, if_false] at h
    rcases hl : k.lstat (path ++ slash :: c) with e | kind
    · simp only [hl] at h ⊢
      by_cases hi : V.icaseEnabled ∧ e = enoent
      · rw [if_pos hi] at h ⊢
        rw [icaseSearch, above_eq]
        generalize k.getdents (if path = [] then [slash] else path) = r at h ⊢
        rcases r with e | batches
        · cases h
          simp only [← append_cons]
        · simp only at h ⊢
          generalize batches.flatten.find? (caseEq · c) = r at h ⊢
          rcases r with _ | d <;> cases h <;> simp only [← append_cons]
      · rw [if_neg hi] at h ⊢
        cases h
        rfl
    · by_cases hkind : kind = .symlink
      · subst hkind
        simp only [hl, true_and] at h ⊢
        rcases hr : k.readlink (path ++ slash :: c) with e | t
        · simp [hr] at h
        · simp only [hr, enterLink, ← append_cons] at h ⊢
          split_ifs at h ⊢ <;> cases h <;> rfl
      · simp only [if_neg (show ¬ (kind = .symlink ∧ _) from fun h => hkind h.1)]
        simp only [hl] at h
        cases h
        rfl
  · cases h
    unfold inspect
    simp only [if_neg hfit', ← append_cons, if_true]

theorem caseEq_append {a b : Bytes} (h : caseEq a b) (h' : caseEq c d) :
    caseEq (a ++ c) (b ++ d) := by
  simp only [caseEq, decide_eq_true_eq, map_append] at h h' ⊢
  rw [h, h']

theorem caseEq_exitPath (hd : caseEq d volumesName) (he : caseEq e systemRootName) :
    caseEq (render [d, e]) exitPath := by
  have hs : caseEq [slash] [slash] := by decide
  have := caseEq_append (caseEq_append hs hd) (caseEq_append hs he)
  rw [exitPath_eq]
  simpa [render] using this

theorem map_lower_render (cs : List Bytes) :
    (render cs).map lower = render (cs.map (·.map lower)) := by
  induction cs with
  | nil => rfl
  | cons c cs ih =>
    simp only [render, flatMap_cons, map_append, map_cons] at ih ⊢
    rw [ih]
    rfl

theorem components_lower {cs : List Bytes} (h : ∀ c ∈ cs, IsName c) :
    components ((render cs).map lower) = cs.map (·.map lower) := by
  rw [map_lower_render]
  refine components_render fun c hc => ?_
  obtain ⟨d, hd, rfl⟩ := mem_map.1 hc
  refine ⟨by simpa using (h d hd).1, fun hm => ?_⟩
  obtain ⟨x, hx, hxs⟩ := mem_map.1 hm
  exact (h d hd).2.1 (lower_eq (by decide) hxs ▸ hx)

theorem names_of_caseEq_exitPath {cs : List Bytes} (h : ∀ c ∈ cs, IsName c)
    (hex : caseEq (render cs) exitPath) :
    ∃ d e, cs = [d, e] ∧ caseEq d volumesName ∧ caseEq e systemRootName := by
  have hmap : cs.map (·.map lower) = [volumesName, systemRootName].map (·.map lower) := by
    rw [← components_lower h, of_decide_eq_true hex, exitPath_eq, components_lower]
    simpa using ⟨isName_volumesName, isName_systemRootName⟩
  have hlen : cs.length = 2 := by simpa using congrArg length hmap
  obtain ⟨d, e, rfl⟩ := length_eq_two.1 hlen
  simp only [map_cons, map_nil, cons.injEq, and_true] at hmap
  exact ⟨d, e, rfl, by simpa [caseEq] using hmap.1, by simpa [caseEq] using hmap.2⟩

theorem atExit_render (hne : V.prefixPath ≠ []) (h : caseEq (render [d, e]) exitPath) :
    AtExit V ⟨.guest, V.prefixPath ++ render [d, e], u, f⟩ := by
  refine ⟨hne, ?_, ?_⟩
  · rw [length_append, caseEq_length h]
    rfl
  · rwa [Root.text, drop_left]

theorem not_atExit_volumes (hd : d.length = volumesName.length) :
    ¬ AtExit V ⟨.guest, V.prefixPath ++ slash :: d, u, f⟩ := by
  rintro ⟨-, hlen, -⟩
  rw [length_append, length_cons, hd] at hlen
  simp [Root.text, exitPath_length, show volumesName.length = 7 from rfl] at hlen

theorem walk_out {c' tl : Bytes} {u' : Bool} (hc : IsName c) (hc' : IsName c') (htl : IsTail tl)
    (hne : V.prefixPath ≠ []) (hlen : d.length = volumesName.length)
    (hde : caseEq (render [d, e]) exitPath)
    (h : ∀ more, iteration V k (run V k left) ⟨.guest, V.prefixPath, false, f⟩ c more
      = some (.next (exitCheck V ⟨.guest, V.prefixPath ++ slash :: d, u, f⟩)))
    (h' : ∀ more, iteration V k (run V k left) ⟨.guest, V.prefixPath ++ slash :: d, u, f⟩ c' more
      = some (.next (exitCheck V ⟨.guest, V.prefixPath ++ slash :: d ++ slash :: e, u', f⟩))) :
    walk V k left ((render [c, c'] ++ tl).dropWhile (· = slash)) ⟨.guest, V.prefixPath, false, f⟩
      = walk V k left (tl.dropWhile (· = slash)) ⟨.host, [], u', f⟩ := by
  have hpath : V.prefixPath ++ slash :: d ++ slash :: e = V.prefixPath ++ render [d, e] := by
    simp [render]
  rw [dropWhile_render_cons hc, walk_name hc (isTail_render_append _ htl) (h _), exitCheck,
    if_neg (not_atExit_volumes hlen), dropWhile_render_cons hc',
    walk_name hc' (isTail_render_append _ htl) (h' _), hpath, exitCheck,
    if_pos (atExit_render hne hde)]
  rfl

/-- The lookups along the exit path: whether a name is missing, or `none` if a link is followed. -/
def exitLookup (V : Config) (k : Kernel) : Option Bool := do
  let (d, u) ← lookup V k V.prefixPath false volumesName
  let (_, u) ← lookup V k (V.prefixPath ++ slash :: d) u systemRootName
  return u

theorem walk_exit (left : ℕ) {tl : Bytes} (htl : IsTail tl) (hne : V.prefixPath ≠ [])
    (hfit : V.prefixPath.length + exitPath.length + 2 ≤ pathMax) (h : exitLookup V k = some u) :
    walk V k left ((exitPath ++ tl).dropWhile (· = slash)) ⟨.guest, V.prefixPath, false, f⟩
      = walk V k left (tl.dropWhile (· = slash)) ⟨.host, [], u, f⟩ := by
  have hlen : exitPath.length = volumesName.length + systemRootName.length + 2 := by decide
  obtain ⟨⟨d, u₁⟩, hd, h⟩ := bind_eq_some_iff.1 h
  obtain ⟨⟨e, u₂⟩, he, h⟩ := bind_eq_some_iff.1 h
  cases h
  have hdl := caseEq_length (caseEq_of_lookup hd)
  rw [exitPath_eq]
  exact walk_out isName_volumesName isName_systemRootName htl hne hdl
    (caseEq_exitPath (caseEq_of_lookup hd) (caseEq_of_lookup he))
    (iteration_lookup (s := ⟨.guest, V.prefixPath, false, f⟩) isName_volumesName
      (by simp only []; omega) hd _)
    (iteration_lookup (s := ⟨.guest, V.prefixPath ++ slash :: d, u₁, f⟩) isName_systemRootName
      (by simp only [length_append, length_cons]; omega) he _)

end Exit

end Text

end Darling.Vchroot
