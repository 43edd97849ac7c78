import Darling.Proofs.VchrootWalk

/-!
# `vchroot_expand` and letter case

Two guest paths that differ in letter case are expanded side by side, where no directory has two
entries that differ in case only.  The runs are at the same place until a name is missing, and apart
below it until they step up again.  A link is followed only under its own name, so the runs part
where it is spelled in another case.
-/

namespace Darling.Vchroot

open CArray List

variable {c c' : Bytes}

section Lower

variable {s t : Bytes}

theorem caseEq_iff : caseEq s t ↔ s.map lower = t.map lower := decide_eq_true_iff

theorem caseEq_symm (h : caseEq s t) : caseEq t s :=
    caseEq_iff.2 (caseEq_iff.1 h).symm

theorem caseEq_left (h : caseEq s t) : (fun d => caseEq d s) = fun d => caseEq d t := by
  funext d
  rw [Bool.eq_iff_iff, caseEq_iff, caseEq_iff, caseEq_iff.1 h]

theorem lower_eq_slash {b : Byte} : lower b = slash ↔ b = slash :=
  ⟨lower_eq (by decide), fun h => by rw [h]; decide⟩

theorem nextComponent_lower (input : Bytes) : nextComponent (input.map lower) =
    ((nextComponent input).1.map lower, (nextComponent input).2.map lower) := by
  have hp : (fun b => decide (b ≠ slash)) ∘ lower = fun b => decide (b ≠ slash) := by
    funext b
    simp [lower_eq_slash]
  simp only [nextComponent, takeWhile_map, dropWhile_map, hp]

theorem rest_lower (input : Bytes) : rest (input.map lower) = (rest input).map lower := by
  have hp : (fun b => decide (b = slash)) ∘ lower = fun b => decide (b = slash) := by
    funext b
    simp [lower_eq_slash]
  simp [rest, nextComponent_lower, dropWhile_map, hp]

variable {input input' : Bytes}

section

variable (h : caseEq input input')

include h

theorem caseEq_nil : input' = [] ↔ input = [] := by
  rw [← length_eq_zero_iff, ← caseEq_length h, length_eq_zero_iff]

theorem nextComponent_caseEq : caseEq (nextComponent input).1 (nextComponent input').1 ∧
    caseEq (nextComponent input).2 (nextComponent input').2 := by
  rw [caseEq_iff] at h
  rw [caseEq_iff, caseEq_iff, ← Prod.mk.injEq, ← nextComponent_lower, h, nextComponent_lower]

theorem caseEq_rest : caseEq (rest input) (rest input') := by
  rw [caseEq_iff] at h ⊢
  rw [← rest_lower, h, rest_lower]

theorem caseEq_head : input'.head? = some slash ↔ input.head? = some slash := by
  rw [caseEq_iff] at h
  have hl : ∀ s : Bytes, (s.map lower).head? = some slash ↔ s.head? = some slash := by
    intro s
    rcases s with _ | ⟨b, s⟩
    · rfl
    · simp [lower_eq_slash]
  rw [← hl, ← h, hl]

theorem caseEq_tail : caseEq input.tail input'.tail := by
  rw [caseEq_iff] at h ⊢
  rw [map_tail, map_tail, h]

end

theorem caseEq_of_not_isName (h : caseEq c c') (hs : slash ∉ c) (hz : 0 ∉ c)
    (hc : ¬ IsName c) : c' = c := by
  have : c = replicate 0 dot ∨ c = replicate 1 dot ∨ c = replicate 2 dot := by
    by_contra hn
    push Not at hn
    exact hc ⟨hn.1, hs, hz, hn.2⟩
  obtain rfl | rfl | rfl := this <;> exact caseEq_dots h

end Lower

mutual

/-- No directory has two entries that differ in letter case only. -/
def caseUnique : Node → Bool
  | .file => true
  | .symlink _ => true
  | .dir es => caseUniqueEntries es

def caseUniqueEntries : List (Bytes × Node) → Bool
  | [] => true
  | (c, n) :: es => es.all (fun e => caseEq c e.1 → c = e.1) && caseUnique n && caseUniqueEntries es

end

theorem caseUniqueEntries_mem : ∀ {es : List (Bytes × Node)}, caseUniqueEntries es →
    (∀ a ∈ es, ∀ b ∈ es, caseEq a.1 b.1 → a.1 = b.1) ∧ ∀ a ∈ es, caseUnique a.2
  | [], _ => by simp
  | (c, n) :: es, h => by
    simp only [caseUniqueEntries, Bool.and_eq_true, all_eq_true, decide_eq_true_eq] at h
    obtain ⟨⟨hc, hn⟩, hes⟩ := h
    obtain ⟨hpair, hsub⟩ := caseUniqueEntries_mem hes
    refine ⟨?_, forall_mem_cons.2 ⟨hn, hsub⟩⟩
    rintro a (_ | ⟨_, ha⟩) b (_ | ⟨_, hb⟩) hab
    · rfl
    · exact hc b hb hab
    · exact (hc a ha (caseEq_symm hab)).symm
    · exact hpair a ha b hb hab

theorem caseUnique_descend : ∀ {n m : Node} {cs : List Bytes}, caseUnique n →
    n.descend cs = some m → caseUnique m
  | n, m, [], hn, h => by
    cases h
    exact hn
  | .dir es, m, c :: cs, hn, h => by
    obtain ⟨n, hl, hd⟩ := Option.bind_eq_some_iff.1 h
    exact caseUnique_descend ((caseUniqueEntries_mem hn).2 _ (Node.mem_of_lookup hl)) hd
  | .file, m, c :: cs, _, h => by simp [Node.descend] at h
  | .symlink t, m, c :: cs, _, h => by simp [Node.descend] at h

theorem caseUnique_dir {fs : Node} (h : caseUnique fs) {cs : List Bytes} {es : List (Bytes × Node)}
    (hd : fs.descend cs = some (.dir es)) : ∀ a ∈ es, ∀ b ∈ es, caseEq a.1 b.1 → a.1 = b.1 :=
  (caseUniqueEntries_mem (caseUnique_descend h hd)).1

variable {e : ℕ+} {kd : Kind}

section Siblings

variable {fs : Node} {q c c' : Bytes}

theorem lstat_ok_unique (hfs : caseUnique fs) (hc : IsName c) (hc' : IsName c') (h : caseEq c c')
    {kd' : Kind} (hl : fs.lstat (q ++ slash :: c) = .ok kd)
    (hl' : fs.lstat (q ++ slash :: c') = .ok kd') : c = c' := by
  obtain ⟨r, es, n, hr, hd, hn, -⟩ := Node.lstat_eq_ok hc hl
  obtain ⟨r', es', n', hr', hd', hn', -⟩ := Node.lstat_eq_ok hc' hl'
  obtain rfl := Except.ok.inj (hr.symm.trans hr')
  rw [hd] at hd'
  cases hd'
  exact caseUnique_dir hfs hd _ (Node.mem_of_lookup hn) _ (Node.mem_of_lookup hn') h

/-- The search finds the one entry that differs in case. -/
theorem getdents_find (hfs : caseUnique fs) (ht : fs.textual) (hc : IsName c) (hc' : IsName c')
    (h : caseEq c c') (hl : fs.lstat (q ++ slash :: c) = .ok kd)
    (hl' : fs.lstat (q ++ slash :: c') = .error e) :
    e = enoent ∧ ∃ bs, fs.getdents (if q = [] then [slash] else q) = .ok bs ∧
      bs.flatten.find? (caseEq · c') = some c := by
  obtain ⟨r, es, n, hr, hd, hn, -⟩ := Node.lstat_eq_ok hc hl
  have hcomp : components (if q = [] then [slash] else q) = components q := by
    split_ifs with hq
    · rw [hq]
      rfl
    · rfl
  refine ⟨?_, _, Node.getdents_eq_ok (by rw [hcomp, hr]) hd, ?_⟩
  · rw [Node.lstat_append hc', hr] at hl'
    change fs.child r c' = _ at hl'
    rw [Node.child_dir hd] at hl'
    split at hl'
    · cases hl'
    · exact (Except.error.inj hl').symm
  · have hes := Node.textual_descend ht hd
    have hnames : es.map (Node.cText ·.1) = es.map (·.1) :=
      map_congr_left fun a ha => Node.cText_of_notMem (Node.textualEntries_mem hes a ha).1
    have hdots : ∀ d : Bytes, ¬ IsName d → ¬ caseEq d c' :=
      fun d hd h => hd (isName_of_caseEq hc' h)
    simp only [hnames, flatten_singleton, find?_cons, Bool.eq_false_iff.2 (hdots [dot] (by decide)),
      Bool.eq_false_iff.2 (hdots [dot, dot] (by decide))]
    rcases hf : (es.map (·.1)).find? (caseEq · c') with _ | d
    · have := find?_eq_none.1 hf c (mem_map.2 ⟨_, Node.mem_of_lookup hn, rfl⟩)
      exact absurd h this
    · obtain ⟨a, ha, rfl⟩ := mem_map.1 (mem_of_find?_eq_some hf)
      have hac : caseEq a.1 c := by
        have := find?_some hf
        rw [caseEq_iff] at this h ⊢
        exact this.trans h.symm
      rw [hf]
      exact congrArg some (caseUnique_dir hfs hd a ha _ (Node.mem_of_lookup hn) hac)

end Siblings

namespace Text

section Inspect

variable {V : Config} {k : Kernel} {s : State} {comp : Bytes} {more : Bool}

/-- The name is that of a link, and the link is followed. -/
def Followed (k : Kernel) (s : State) (p : Bytes) (more : Bool) : Prop :=
  k.lstat p = .ok .symlink ∧ (s.follow ∨ more) ∧
    ¬ (procPath <+: p ∧ ∃ t, k.readlink p = .ok t ∧ colon ∈ t.take (linkMax - 1))

/-- The component is not entered as a link, and the run goes on in `t`. -/
def Skips (V : Config) (k : Kernel) (s : State) (comp : Bytes) (more : Bool) (t : State) : Prop :=
  inspect V k { s with path := s.path ++ [slash] } comp more = .skip t

variable (hfit : ¬ pathMax < comp.length + (s.path.length + 1) + 2)

include hfit

theorem inspect_unknown (hu : s.unknown) :
    Skips V k s comp more { s with path := s.path ++ slash :: comp } := by
  simp [Skips, inspect, if_neg hfit, hu]

theorem inspect_error (hu : ¬ s.unknown) (hl : k.lstat (s.path ++ slash :: comp) = .error e) :
    inspect V k { s with path := s.path ++ [slash] } comp more =
      if V.icaseEnabled ∧ e = enoent then
        .skip (icaseSearch k { s with path := s.path ++ [slash] } comp)
      else .skip { s with path := s.path ++ slash :: comp } := by
  simp [inspect, if_neg hfit, if_neg hu, hl]

theorem inspect_stays (hu : ¬ s.unknown) (hl : k.lstat (s.path ++ slash :: comp) = .ok kd)
    (hf : ¬ Followed k s (s.path ++ slash :: comp) more) :
    Skips V k s comp more { s with path := s.path ++ slash :: comp } := by
  simp only [Skips, inspect, length_append, length_singleton, if_neg hfit, if_neg hu,
    append_assoc, singleton_append, hl]
  split_ifs with hlink
  · obtain ⟨rfl, hfollow⟩ := hlink
    obtain ⟨hp, t, ht, hcolon⟩ := not_not.1 fun hproc => hf ⟨hl, hfollow, hproc⟩
    simp only [enterLink, append_assoc, singleton_append, ht]
    exact if_pos ⟨hp, hcolon⟩
  · rfl

omit hfit

theorem icaseSearch_eq : icaseSearch k { s with path := s.path ++ [slash] } comp =
    match k.getdents (if s.path = [] then [slash] else s.path) with
    | .error _ => { s with path := s.path ++ slash :: comp, unknown := true }
    | .ok batches =>
      match batches.flatten.find? (caseEq · comp) with
      | some d => { s with path := s.path ++ slash :: d }
      | none => { s with path := s.path ++ slash :: comp, unknown := true } := by
  have happ : ∀ d : Bytes, s.path ++ [slash] ++ d = s.path ++ slash :: d := by simp
  unfold icaseSearch
  rw [above_eq]
  rcases k.getdents (if s.path = [] then [slash] else s.path) with e | bs
  · simp [happ]
  · dsimp only
    rcases bs.flatten.find? (caseEq · comp) with _ | d <;> simp [happ]

end Inspect

/-- The first of the names is not there. -/
def Missing (fs : Node) (q : Bytes) (e : ℕ+) (xs : List Bytes) : Prop :=
  ∃ x ys, xs = x :: ys ∧ fs.lstat (q ++ slash :: x) = .error e

variable {fs : Node} {q : Bytes} {e : ℕ+} {xs : List Bytes}

theorem Missing.lstat (h : Missing fs q e xs)
    (hxs : ∀ x ∈ xs, IsName x) : fs.lstat (q ++ render xs) = .error e := by
  obtain ⟨x, ys, rfl, hl⟩ := h
  obtain ⟨hx, hys⟩ := forall_mem_cons.1 hxs
  exact Node.lstat_error_below hx hl hys

theorem Missing.append (h : Missing fs q e xs) (zs : List Bytes) : Missing fs q e (xs ++ zs) := by
  obtain ⟨x, ys, rfl, hl⟩ := h
  exact ⟨x, ys ++ zs, rfl, hl⟩

theorem Missing.of_append {zs : List Bytes} (h : Missing fs q e (xs ++ zs))
    (hne : xs ≠ []) : Missing fs q e xs := by
  obtain ⟨x, ys, hxs, hl⟩ := h
  obtain ⟨x', ys', rfl⟩ := exists_cons_of_ne_nil hne
  cases hxs
  exact ⟨x, ys', rfl, hl⟩

/-- The two runs have come to a name that is missing in `q`, and are below it. -/
structure Apart (fs : Node) (q : Bytes) (xs xs' : List Bytes) (s s' : State) : Prop where
  root : s'.root = s.root
  unknown : s'.unknown = s.unknown
  follow : s'.follow = s.follow
  path : s.path = q ++ render xs
  path' : s'.path = q ++ render xs'
  names : ∀ x ∈ xs, IsName x
  names' : ∀ x ∈ xs', IsName x
  alike : xs.map (·.map lower) = xs'.map (·.map lower)
  missing : ∃ e, Missing fs q e xs ∧ Missing fs q e xs' ∧ (e = enoent → s.unknown)

def Twin (fs : Node) (s s' : State) : Prop := s = s' ∨ ∃ q xs xs', Apart fs q xs xs' s s'

def FlowTwin (fs : Node) : Flow State → Flow State → Prop
  | .next s, .next s' => Twin fs s s'
  | .ret rv _, .ret rv' _ => rv = rv'
  | _, _ => False

/-- The runs return the same code and, if it is 0, end in states that stand so to each other. -/
def RunTwin (fs : Node) (a b : ℤ × State) : Prop := a.1 = b.1 ∧ (a.1 = 0 → Twin fs a.2 b.2)

theorem FlowTwin.refl (fs : Node) (f : Flow State) : FlowTwin fs f f := by
  rcases f with s | ⟨rv, s⟩
  · exact .inl rfl
  · rfl

section Apart

variable {fs : Node} {q : Bytes} {xs xs' : List Bytes} {s s' : State} {V : Config}

section

variable (h : Apart fs q xs xs' s s')

include h

theorem Apart.lower_path : s.path.map lower = s'.path.map lower := by
  rw [h.path, h.path', map_append, map_append, map_lower_render, map_lower_render, h.alike]

theorem Apart.length_path : s'.path.length = s.path.length := by
  simpa using (congrArg List.length h.lower_path).symm

theorem Apart.path_ne_nil : s.path ≠ [] ∧ s'.path ≠ [] := by
  obtain ⟨e, ⟨x, ys, rfl, -⟩, ⟨x', ys', rfl, -⟩, -⟩ := h.missing
  rw [h.path, h.path']
  simp [render]

theorem Apart.lstat_error : ∃ e, fs.lstat s.path = .error e ∧ fs.lstat s'.path = .error e := by
  obtain ⟨e, hm, hm', -⟩ := h.missing
  rw [h.path, h.path']
  exact ⟨e, hm.lstat h.names, hm'.lstat h.names'⟩

theorem Apart.eq_of_path (r : Root) (p : Bytes) :
    ({ s' with root := r, path := p } : State) = { s with root := r, path := p } := by
  rw [h.unknown, h.follow]

theorem Apart.concat (hc : IsName c) (hcc : caseEq c c') :
    Apart fs q (xs ++ [c]) (xs' ++ [c']) { s with path := s.path ++ slash :: c }
      { s' with path := s'.path ++ slash :: c' } where
  root := h.root
  unknown := h.unknown
  follow := h.follow
  path := by rw [render_concat, ← append_assoc, h.path]
  path' := by rw [render_concat, ← append_assoc, h.path']
  names := by simpa [or_imp, forall_and] using ⟨h.names, hc⟩
  names' := by
    simpa [or_imp, forall_and] using ⟨h.names', isName_of_caseEq hc (caseEq_symm hcc)⟩
  alike := by simp [h.alike, caseEq_iff.1 hcc]
  missing := by
    obtain ⟨e, hm, hm', he⟩ := h.missing
    exact ⟨e, hm.append _, hm'.append _, he⟩

end

theorem Apart.start {r : Root} {u f : Bool} (hc : IsName c) (hcc : caseEq c c')
    (hl : fs.lstat (q ++ slash :: c) = .error e)
    (hl' : fs.lstat (q ++ slash :: c') = .error e) (he : e = enoent → u) :
    Apart fs q [c] [c'] ⟨r, q ++ slash :: c, u, f⟩ ⟨r, q ++ slash :: c', u, f⟩ where
  root := rfl
  unknown := rfl
  follow := rfl
  path := by simp [render]
  path' := by simp [render]
  names := by simpa using hc
  names' := by simpa using isName_of_caseEq hc (caseEq_symm hcc)
  alike := by simpa using caseEq_iff.1 hcc
  missing := ⟨e, ⟨c, [], rfl, hl⟩, ⟨c', [], rfl, hl'⟩, he⟩

section

variable (h : Apart fs q xs xs' s s')

include h

theorem Apart.atExit_iff : AtExit V s' ↔ AtExit V s := by
  unfold AtExit
  rw [h.root, h.length_path, caseEq_iff, caseEq_iff, map_drop, map_drop, h.lower_path]

theorem Apart.exitCheck : Twin fs (exitCheck V s) (Text.exitCheck V s') := by
  unfold Text.exitCheck
  by_cases hex : AtExit V s
  · rw [if_pos hex, if_pos (h.atExit_iff.2 hex)]
    exact .inl (h.eq_of_path _ _).symm
  · rw [if_neg hex, if_neg (h.atExit_iff.not.2 hex)]
    exact .inr ⟨q, xs, xs', h⟩

/-- One step up, the runs are closer. -/
theorem Apart.dropLast : ∃ p p', beforeLast slash s.path = some p ∧
    beforeLast slash s'.path = some p' ∧ p'.length = p.length ∧
      Twin fs { s with path := p } { s' with path := p' } := by
  obtain ⟨e, hm, hm', he⟩ := h.missing
  obtain ⟨ys, y, rfl⟩ := xs.eq_nil_or_concat'.resolve_left (by obtain ⟨x, ys, rfl, -⟩ := hm; simp)
  obtain ⟨ys', y', rfl⟩ := xs'.eq_nil_or_concat'.resolve_left
    (by obtain ⟨x, ys, rfl, -⟩ := hm'; simp)
  obtain ⟨hnames, hy⟩ : (∀ x ∈ ys, IsName x) ∧ IsName y := by
    simpa [or_imp, forall_and] using h.names
  obtain ⟨hnames', hy'⟩ : (∀ x ∈ ys', IsName x) ∧ IsName y' := by
    simpa [or_imp, forall_and] using h.names'
  have halike : ys.map (·.map lower) = ys'.map (·.map lower) := by
    have := h.alike
    rw [map_append, map_append] at this
    exact (append_inj' this rfl).1
  refine ⟨q ++ render ys, q ++ render ys', ?_, ?_, ?_, ?_⟩
  · rw [h.path, render_concat, ← append_assoc, beforeLast_split hy.2.1]
  · rw [h.path', render_concat, ← append_assoc, beforeLast_split hy'.2.1]
  · have := congrArg List.length (congrArg render halike)
    simpa [← map_lower_render] using this.symm
  · by_cases hnil : ys = []
    · have hnil' : ys' = [] := by simpa [hnil] using halike.symm
      rw [hnil, hnil']
      left
      rw [h.unknown, h.follow, h.root]
    · have hnil' : ys' ≠ [] := by
        rintro rfl
        exact hnil (by simpa using halike)
      exact .inr ⟨q, ys, ys', h.root, h.unknown, h.follow, rfl, rfl, hnames, hnames', halike,
        e, hm.of_append hnil, hm'.of_append hnil', he⟩

end

end Apart

/-- The name is not that of a link to follow and, where names are no longer looked at, is not
there. -/
structure Harmless (k : Kernel) (s : State) (more : Bool) (x : Bytes) : Prop where
  missing : s.unknown → ∃ e, k.lstat (s.path ++ slash :: x) = .error e
  link : ¬ s.unknown → ¬ Followed k s (s.path ++ slash :: x) more

/-- The names are the same, or neither matters. -/
def Alike (k : Kernel) (s : State) (more : Bool) (c c' : Bytes) : Prop :=
  c = c' ∨ Harmless k s more c ∧ Harmless k s more c'

section Iteration

variable {fs : Node} {links : ProcLink → Except ℕ+ Bytes} {V : Config} {s : State} {c c' : Bytes}
  {more : Bool}

section

variable (hc : IsName c) (hcc : caseEq c c')
  (hfit : ¬ pathMax < c.length + (s.path.length + 1) + 2)

include hc hcc hfit

theorem inspect_respelled (links : ProcLink → Except ℕ+ Bytes) (more : Bool) (hfs : caseUnique fs)
    (ht : fs.textual) (hV : V.icaseEnabled) (hc' : IsName c') (hu : ¬ s.unknown)
    (hl : fs.lstat (s.path ++ slash :: c) = .ok kd)
    (hl' : fs.lstat (s.path ++ slash :: c') = .error e)
    (hf : ¬ Followed (fs.kernel links) s (s.path ++ slash :: c) more) :
    Skips V (fs.kernel links) s c more { s with path := s.path ++ slash :: c } ∧
      Skips V (fs.kernel links) s c' more { s with path := s.path ++ slash :: c } := by
  obtain ⟨rfl, bs, hbs, hfind⟩ := getdents_find hfs ht hc hc' hcc hl hl'
  refine ⟨inspect_stays hfit hu hl hf, ?_⟩
  rw [Skips, inspect_error (by rwa [← caseEq_length hcc]) hu hl', if_pos ⟨hV, rfl⟩, icaseSearch_eq,
    show (fs.kernel links).getdents = fs.getdents from rfl, hbs]
  simp [hfind]

theorem inspect_missing (hV : V.icaseEnabled) (hu : ¬ s.unknown)
    (hl : fs.lstat (s.path ++ slash :: c) = .error e)
    (hl' : fs.lstat (s.path ++ slash :: c') = .error e) :
    ∃ t t', Skips V (fs.kernel links) s c more t ∧ Skips V (fs.kernel links) s c' more t' ∧
      (t = t' ∨ Apart fs s.path [c] [c'] t t') := by
  unfold Skips
  rw [inspect_error hfit hu hl, inspect_error (by rwa [← caseEq_length hcc]) hu hl']
  by_cases he : e = enoent
  · rw [if_pos ⟨hV, he⟩, if_pos ⟨hV, he⟩]
    refine ⟨_, _, rfl, rfl, ?_⟩
    rw [icaseSearch_eq, icaseSearch_eq, caseEq_left hcc]
    rcases (fs.kernel links).getdents _ with e₁ | bs
    · exact .inr (.start hc hcc hl hl' fun _ => rfl)
    · dsimp only
      rcases bs.flatten.find? (caseEq · c') with _ | d
      · exact .inr (.start hc hcc hl hl' fun _ => rfl)
      · exact .inl rfl
  · rw [if_neg fun hb => he hb.2, if_neg fun hb => he hb.2]
    exact ⟨_, _, rfl, rfl, .inr (.start hc hcc hl hl' fun hb => absurd hb he)⟩

theorem inspect_twin (hfs : caseUnique fs) (ht : fs.textual) (hV : V.icaseEnabled) (hne : c ≠ c')
    (h : Harmless (fs.kernel links) s more c) (h' : Harmless (fs.kernel links) s more c') :
    ∃ t t', Skips V (fs.kernel links) s c more t ∧ Skips V (fs.kernel links) s c' more t' ∧
      (t = t' ∨ Apart fs s.path [c] [c'] t t') := by
  have hc' := isName_of_caseEq hc (caseEq_symm hcc)
  have hfit' : ¬ pathMax < c'.length + (s.path.length + 1) + 2 := by
    rwa [← caseEq_length hcc]
  by_cases hu : s.unknown
  · obtain ⟨e, hl⟩ := h.missing hu
    obtain ⟨e', hl'⟩ := h'.missing hu
    obtain rfl := Node.lstat_error_unique hc hc' hl hl'
    exact ⟨_, _, inspect_unknown hfit hu, inspect_unknown hfit' hu,
      .inr (.start hc hcc hl hl' fun _ => hu)⟩
  rcases hl : fs.lstat (s.path ++ slash :: c) with e | kd
  · rcases hl' : fs.lstat (s.path ++ slash :: c') with e' | kd'
    · obtain rfl := Node.lstat_error_unique hc hc' hl hl'
      exact inspect_missing hc hcc hfit hV hu hl hl'
    · obtain ⟨hi', hi⟩ := inspect_respelled hc' (caseEq_symm hcc) hfit' links more hfs ht hV hc hu
        hl' hl (h'.link hu)
      exact ⟨_, _, hi, hi', .inl rfl⟩
  · rcases hl' : fs.lstat (s.path ++ slash :: c') with e' | kd'
    · obtain ⟨hi, hi'⟩ := inspect_respelled hc hcc hfit links more hfs ht hV hc' hu hl hl'
        (h.link hu)
      exact ⟨_, _, hi, hi', .inl rfl⟩
    · exact absurd (lstat_ok_unique hfs hc hc' hcc hl hl') hne

theorem inspect_apart {q : Bytes} {xs xs' : List Bytes} {s' : State} (h : Apart fs q xs xs' s s') :
    Skips V (fs.kernel links) s c more { s with path := s.path ++ slash :: c } ∧
      Skips V (fs.kernel links) s' c' more { s' with path := s'.path ++ slash :: c' } := by
  have hfit' : ¬ pathMax < c'.length + (s'.path.length + 1) + 2 := by
    rwa [← caseEq_length hcc, h.length_path]
  by_cases hu : s.unknown
  · exact ⟨inspect_unknown hfit hu, inspect_unknown hfit' (h.unknown.trans hu)⟩
  have hu' : ¬ s'.unknown := by rwa [h.unknown]
  obtain ⟨e, hm, hm', he⟩ := h.missing
  have hcat := h.concat hc hcc
  have hl : fs.lstat (s.path ++ slash :: c) = .error e := by
    rw [show s.path ++ slash :: c = _ from hcat.path]
    exact (hm.append _).lstat hcat.names
  have hl' : fs.lstat (s'.path ++ slash :: c') = .error e := by
    rw [show s'.path ++ slash :: c' = _ from hcat.path']
    exact (hm'.append _).lstat hcat.names'
  constructor
  · rw [Skips, inspect_error hfit hu hl, if_neg fun hb => hu (he hb.2)]
  · rw [Skips, inspect_error hfit' hu' hl', if_neg fun hb => hu (he hb.2)]

end

variable {run : Bytes → State → Option (ℤ × State)} {k : Kernel}

theorem iteration_name (hc : IsName c) : iteration V k run s c more =
    if s.path.length + 1 < pathMax then
      component V k run { s with path := s.path ++ [slash] } c more
    else none := by
  have hdot : ¬ (c = [dot] ∨ c = []) := fun h => h.elim hc.2.2.2.1 hc.1
  simp only [iteration, if_neg hdot, if_neg hc.2.2.2.2, appendSlash]
  split_ifs <;> rfl

theorem iteration_up (hne : s.path ≠ []) : iteration V k run s [dot, dot] more =
    if s.path.length + 1 < pathMax then
      (beforeLast slash s.path).map fun p =>
        if p.length < (s.root.text V).length then .ret (fail enoent) { s with path := p }
        else .next { s with path := p }
    else none := by
  rw [iteration, if_neg (by decide)]
  rcases ha : appendSlash s with _ | s₁
  · rw [if_neg fun hlt => by rw [appendSlash, if_pos hlt] at ha; cases ha]
    rfl
  · rw [if_pos (appendSlash_eq_some.1 ha).1]
    simp [some_bind, up_eq ha, if_neg hne]

theorem component_skip {t : State} (h : Skips V k s c more t) :
    component V k run { s with path := s.path ++ [slash] } c more =
      some (.next (exitCheck V t)) := by
  rw [component, h]

theorem component_long {p : Bytes} (h : pathMax < c.length + (p.length + 1) + 2) :
    component V k run { s with path := p ++ [slash] } c more =
      some (.ret (fail enoent) { s with path := p ++ [slash] }) := by
  rw [component, inspect, if_pos (by simpa using h)]

theorem iteration_same (hfs : caseUnique fs) (ht : fs.textual) (hV : V.icaseEnabled)
    (hcc : caseEq c c') (hs : slash ∉ c) (hz : 0 ∉ c) (hal : Alike (fs.kernel links) s more c c') :
    Option.Rel (FlowTwin fs) (iteration V (fs.kernel links) run s c more)
      (iteration V (fs.kernel links) run s c' more) := by
  by_cases hne : c = c'
  · subst hne
    rcases iteration V (fs.kernel links) run s c more with _ | f
    · exact .none
    · exact .some (.refl fs f)
  have hc : IsName c := by
    by_contra hc
    exact hne (caseEq_of_not_isName hcc hs hz hc).symm
  obtain ⟨h, h'⟩ := hal.resolve_left hne
  rw [iteration_name hc, iteration_name (isName_of_caseEq hc (caseEq_symm hcc))]
  split_ifs
  · by_cases hfit : pathMax < c.length + (s.path.length + 1) + 2
    · rw [component_long hfit, component_long (by rwa [← caseEq_length hcc])]
      exact .some rfl
    · obtain ⟨t, t', hi, hi', htw⟩ := inspect_twin hc hcc hfit hfs ht hV hne h h'
      rw [component_skip hi, component_skip hi']
      obtain rfl | hap := htw
      · exact .some (.inl rfl)
      · exact .some hap.exitCheck
  · exact .none

theorem iteration_apart {q : Bytes} {xs xs' : List Bytes} {s' : State} (h : Apart fs q xs xs' s s')
    (hcc : caseEq c c') (hs : slash ∉ c) (hz : 0 ∉ c) :
    Option.Rel (FlowTwin fs) (iteration V (fs.kernel links) run s c more)
      (iteration V (fs.kernel links) run s' c' more) := by
  by_cases hc : IsName c
  · rw [iteration_name hc, iteration_name (isName_of_caseEq hc (caseEq_symm hcc)), h.length_path]
    split_ifs
    · by_cases hfit : pathMax < c.length + (s.path.length + 1) + 2
      · rw [component_long hfit, component_long (by rwa [← caseEq_length hcc, h.length_path])]
        exact .some rfl
      · obtain ⟨hi, hi'⟩ := inspect_apart hc hcc hfit h
        rw [component_skip hi, component_skip hi']
        exact .some (h.concat hc hcc).exitCheck
    · exact .none
  · obtain rfl := caseEq_of_not_isName hcc hs hz hc
    by_cases hdot : c' = [dot] ∨ c' = []
    · rw [iteration, iteration, if_pos hdot, if_pos hdot]
      exact .some (.inr ⟨q, xs, xs', h⟩)
    have hup : c' = [dot, dot] := by
      by_contra hup
      push Not at hdot
      exact hc ⟨hdot.2, hs, hz, hdot.1, hup⟩
    subst hup
    rw [iteration_up h.path_ne_nil.1, iteration_up h.path_ne_nil.2, h.length_path, h.root]
    obtain ⟨p, p', hp, hp', hlen, htw⟩ := h.dropLast
    rw [h.root] at htw
    rw [hp, hp', Option.map_some, Option.map_some, hlen]
    split_ifs
    · exact .some rfl
    · exact .some htw
    · exact .none

end Iteration

/-- Wherever the runs differ in a name, it does not matter. -/
def LoopAlike (V : Config) (k : Kernel) (run : Bytes → State → Option (ℤ × State)) :
    ℕ → Bytes → Bytes → State → Prop
  | 0, _, _, _ => True
  | n + 1, input, input', s => input = [] ∨
      Alike k s ((nextComponent input).2 ≠ []) (nextComponent input).1 (nextComponent input').1 ∧
        ∀ s₁, iteration V k run s (nextComponent input).1 ((nextComponent input).2 ≠ []) =
          some (.next s₁) → LoopAlike V k run n (rest input) (rest input') s₁

def RunAlike (V : Config) (k : Kernel) (left : ℕ) (input input' : Bytes) (s : State) : Prop :=
  LoopAlike V k (run V k left) (start V input s).1.length (start V input s).1 (start V input' s).1
    (start V input s).2

def ExpandAlike (V : Config) (k : Kernel) (base : ProcLink) (follow : Bool)
    (input input' : Bytes) : Prop :=
  ∀ s, openState V k base follow input = .ok s → RunAlike V k maxSymlinkDepth input input' s

section Run

variable {fs : Node} {links : ProcLink → Except ℕ+ Bytes} {V : Config}
  (hfs : caseUnique fs) (ht : fs.textual) (hV : V.icaseEnabled)

include hfs ht hV

/-- The two loops end alike. -/
theorem loop_twin (run : Bytes → State → Option (ℤ × State)) : ∀ (n : ℕ) {input input' : Bytes}
    {s s' : State}, caseEq input input' → 0 ∉ input → Twin fs s s' →
      LoopAlike V (fs.kernel links) run n input input' s →
      Option.Rel (RunTwin fs) (loop V (fs.kernel links) run n input s)
        (loop V (fs.kernel links) run n input' s')
  | 0, input, input', s, s', _, _, htw, _ => .some ⟨rfl, fun _ => htw⟩
  | n + 1, input, input', s, s', hin, hz, htw, hal => by
    have hnil := caseEq_nil hin
    by_cases hne : input = []
    · rw [loop, loop, if_pos hne, if_pos (hnil.2 hne)]
      exact .some ⟨rfl, fun _ => htw⟩
    obtain ⟨hal, hnext⟩ := hal.resolve_left hne
    obtain ⟨hcc, hmore⟩ := nextComponent_caseEq hin
    have hs := slash_notMem_nextComponent input
    have hz' : 0 ∉ (nextComponent input).1 := fun h => hz (mem_of_mem_nextComponent h)
    have hiter : Option.Rel (FlowTwin fs)
        (iteration V (fs.kernel links) run s (nextComponent input).1 ((nextComponent input).2 ≠ []))
        (iteration V (fs.kernel links) run s' (nextComponent input').1
          ((nextComponent input').2 ≠ [])) := by
      rw [decide_eq_decide.2 (caseEq_nil hmore).not]
      obtain rfl | ⟨q, xs, xs', hap⟩ := htw
      · exact iteration_same hfs ht hV hcc hs hz' hal
      · exact iteration_apart hap hcc hs hz'
    rw [loop, loop, if_neg hne, if_neg (hnil.not.2 hne)]
    generalize hx : iteration V (fs.kernel links) run s _ _ = x at hiter hnext ⊢
    generalize iteration V (fs.kernel links) run s' _ _ = y at hiter ⊢
    cases hiter with
    | none => exact .none
    | @some f f' hff =>
      rcases f with s₁ | ⟨rv, s₁⟩ <;> rcases f' with s₁' | ⟨rv', s₁'⟩
      · exact loop_twin run n (caseEq_rest hin) (fun h => hz (mem_of_mem_rest h)) hff (hnext s₁ rfl)
      · exact hff.elim
      · exact hff.elim
      · exact .some ⟨hff, fun h0 => absurd h0 (iteration_ret_ne_zero hx)⟩

theorem run_twin {left : ℕ} {input input' : Bytes} {s : State} (hin : caseEq input input')
    (hz : 0 ∉ input) (hal : RunAlike V (fs.kernel links) left input input' s) :
    Option.Rel (RunTwin fs) (run V (fs.kernel links) (left + 1) input s)
      (run V (fs.kernel links) (left + 1) input' s) := by
  have hstate : (start V input' s).2 = (start V input s).2 := by
    unfold start
    simp only [caseEq_head hin]
    split_ifs <;> rfl
  have htext : caseEq (start V input s).1 (start V input' s).1 := by
    unfold start
    simp only [caseEq_head hin]
    split_ifs
    · exact caseEq_tail hin
    · exact hin
  have hz' : 0 ∉ (start V input s).1 := by
    unfold start
    split_ifs
    · exact fun h => hz (mem_of_mem_tail h)
    · exact hz
  rw [run, run, hstate, ← caseEq_length htext]
  exact loop_twin hfs ht hV _ _ htext hz' (.inl rfl) hal

theorem expand_twin {base : ProcLink} {follow : Bool} {input input' : Bytes}
    (hin : caseEq input input') (hz : 0 ∉ input)
    (hal : ExpandAlike V (fs.kernel links) base follow input input') :
    Option.Rel (fun a b => a.1 = b.1 ∧ (a.1 = 0 →
        ((∃ kd, fs.lstat a.2 = .ok kd) ∨ ∃ kd, fs.lstat b.2 = .ok kd) → a.2 = b.2))
      (expand V (fs.kernel links) base follow input)
      (expand V (fs.kernel links) base follow input') := by
  have hnil := caseEq_nil hin
  have hopen : openState V (fs.kernel links) base follow input' =
      openState V (fs.kernel links) base follow input := by
    unfold openState
    simp [caseEq_head hin]
  unfold expand
  by_cases hne : input = []
  · rw [if_pos hne, if_pos (hnil.2 hne)]
    exact .some ⟨rfl, fun h0 => absurd h0 (fail_ne_zero _)⟩
  rw [if_neg hne, if_neg (hnil.not.2 hne), hopen]
  rcases ho : openState V (fs.kernel links) base follow input with e | s
  · exact .some ⟨rfl, fun h0 => absurd h0 (fail_ne_zero _)⟩
  dsimp only
  have hrun := run_twin hfs ht hV hin hz (hal s ho)
  generalize run V (fs.kernel links) (maxSymlinkDepth + 1) input s = x at hrun
  generalize run V (fs.kernel links) (maxSymlinkDepth + 1) input' s = y at hrun
  cases hrun with
  | none => exact .none
  | @some a b hab =>
    obtain ⟨hcode, htw⟩ := hab
    refine .some ⟨hcode, fun h0 hex => ?_⟩
    obtain heq | ⟨q, xs, xs', hap⟩ := htw h0
    · simp [heq]
    · obtain ⟨e, hl, hl'⟩ := hap.lstat_error
      simp only [if_neg hap.path_ne_nil.1, if_neg hap.path_ne_nil.2, hl, hl'] at hex
      obtain ⟨kd, hkd⟩ | ⟨kd, hkd⟩ := hex <;> cases hkd

end Run

end Text

/-- Two expansions have the same code and, if one of the host paths exists, the same host path. -/
def SameExpansion (fs : Node) (a b : ℤ × Bytes) : Prop :=
  a.1 = b.1 ∧ (a.1 = 0 → ∀ q q', Spells 0 a.2 q → Spells 0 b.2 q' →
    ((∃ kd, fs.lstat q = .ok kd) ∨ ∃ kd, fs.lstat q' = .ok kd) → q = q')

theorem vchrootExpand_case {fs : Node} {links : ProcLink → Except ℕ+ Bytes} {V : Config}
    (hfs : caseUnique fs) (ht : fs.textual) (hV : V.icaseEnabled) {junk junk' input input' : Bytes}
    (hjunk : junk.length = pathMax) (hjunk' : junk'.length = pathMax) {args args' : ExpandArgs}
    (hsize : args.path.length = pathMax) (hsize' : args'.path.length = pathMax)
    (hin : Spells 0 args.path input) (hin' : Spells 0 args'.path input')
    (hdfd : args'.dfd = args.dfd) (hfollow : args'.follow = args.follow)
    (hcase : caseEq input input')
    (hal : Text.ExpandAlike V (fs.kernel links) args.base args.follow input input') :
    Option.Rel (SameExpansion fs) (vchrootExpand V (fs.kernel links) junk args)
      (vchrootExpand V (fs.kernel links) junk' args') := by
  have hrel := vchrootExpand_rel (V := V) (k := fs.kernel links) hjunk hsize hin
  have hrel' := vchrootExpand_rel (V := V) (k := fs.kernel links) hjunk' hsize' hin'
  have htwin := Text.expand_twin hfs ht hV hcase hin.1 hal
  rw [show args'.base = args.base by rw [ExpandArgs.base, ExpandArgs.base, hdfd], hfollow] at hrel'
  generalize vchrootExpand V (fs.kernel links) junk args = x at hrel
  generalize vchrootExpand V (fs.kernel links) junk' args' = x' at hrel'
  generalize Text.expand V (fs.kernel links) args.base args.follow input = y at hrel htwin
  generalize Text.expand V (fs.kernel links) args.base args.follow input' = y' at hrel' htwin
  cases htwin with
  | none =>
    cases hrel
    cases hrel'
    exact .none
  | @some b b' hb =>
    cases hrel with
    | @some a _ ha =>
      cases hrel' with
      | @some a' _ ha' =>
        refine .some ⟨by rw [ha.1, hb.1, ha'.1], fun h0 q q' hq hq' hex => ?_⟩
        obtain rfl := ha.2.unique hq
        obtain rfl := ha'.2.unique hq'
        exact hb.2 (ha.1 ▸ h0) hex

def spellTree : Node :=
  .dir [(ascii ['p'], .dir [(ascii ['l'], .symlink (ascii ['/', 'x'])), (ascii ['x'], .dir [])])]

def spellKernel : Kernel := spellTree.kernel fun _ => .error enoent

theorem vchrootExpand_case_dir : Option.Rel (SameExpansion spellTree)
      (vchrootExpand sampleConfig spellKernel zeros (sampleArgs ['/', 'x']))
      (vchrootExpand sampleConfig spellKernel zeros (sampleArgs ['/', 'X'])) := by
  refine vchrootExpand_case (by decide) (by decide) rfl zeros_length zeros_length
    (sampleArgs_size _ (by decide)) (sampleArgs_size _ (by decide))
    (sampleArgs_spells _ (by decide) (by decide)) (sampleArgs_spells _ (by decide) (by decide))
    rfl rfl (by decide) ?_
  rintro s hs
  cases hs
  refine .inr ⟨.inr ⟨⟨fun hu => ?_, fun _ h => ?_⟩, ⟨fun hu => ?_, fun _ h => ?_⟩⟩,
    fun s₁ _ => trivial⟩
  · cases hu
  · cases h.1
  · cases hu
  · cases h.1

/-- The link is followed as `/l`, and not as `/L`. -/
theorem vchrootExpand_link_case :
    caseUnique spellTree ∧ caseEq (ascii ['/', 'l']) (ascii ['/', 'L']) ∧ ∃ out out',
      vchrootExpand sampleConfig spellKernel zeros (sampleArgs ['/', 'l']) = some (0, out) ∧
      vchrootExpand sampleConfig spellKernel zeros (sampleArgs ['/', 'L']) = some (0, out') ∧
      Spells 0 out (ascii ['/', 'p', '/', 'x']) ∧ Spells 0 out' (ascii ['/', 'p', '/', 'l']) ∧
      spellTree.lstat (ascii ['/', 'p', '/', 'x']) = .ok .dir ∧
      spellTree.lstat (ascii ['/', 'p', '/', 'l']) = .ok .symlink := by
  refine ⟨by decide, by decide, ?_⟩
  obtain ⟨out, hout, hsp⟩ := vchrootExpand_of_text (V := sampleConfig) (k := spellKernel)
    zeros_length (sampleArgs_size ['/', 'l'] (by decide))
    (sampleArgs_spells _ (by decide) (by decide))
    (show _ = some (0, ascii ['/', 'p', '/', 'x']) by rfl)
  obtain ⟨out', hout', hsp'⟩ := vchrootExpand_of_text (V := sampleConfig) (k := spellKernel)
    zeros_length (sampleArgs_size ['/', 'L'] (by decide))
    (sampleArgs_spells _ (by decide) (by decide))
    (show _ = some (0, ascii ['/', 'p', '/', 'l']) by rfl)
  exact ⟨out, out', hout, hout', hsp, hsp', rfl, rfl⟩

end Darling.Vchroot
