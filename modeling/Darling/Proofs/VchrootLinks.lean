import Darling.Proofs.VchrootInside

/-!
# Links the resolver does not look at

The path `vchroot_run` builds is to hold no link but, without `follow`, at its end.  Four kinds of
step append a name without looking whether it is a link: after an unknown component, where the
case-insensitive search respells, for a link under the letters `/proc` with a colon in its text, and
where `..` at the host root comes back in at `Volumes`.  A run is free of links exactly if no such
step finds one (`vchrootExpand_resolved`).
-/

namespace Darling.Vchroot

open CArray List

/-- No link above the path, and none at its end if more is to come or links are followed. -/
def Resolved (fs : Node) (m follow : Bool) (p : Bytes) : Prop :=
  fs.CleanAbove (components p) ∧ (m ∨ follow → ¬ fs.LinkAt (components p))

/-- The prefix is the path of a directory. -/
structure PrefixDir (V : Config) (fs : Node) (P : List Bytes) : Prop where
  names : ∀ c ∈ P, IsName c
  text : V.prefixPath = render P
  dir : ∃ es, fs.descend P = some (.dir es)

/-- The text of the link is the path of a directory. -/
def BaseDir (k : Kernel) (fs : Node) (l : ProcLink) : Prop :=
  ∀ t, k.procLink l = .ok t → t.length < pathMax ∧ ∃ W es, (∀ c ∈ W, IsName c) ∧ t = absolute W ∧
    fs.descend W = some (.dir es)

/-- The name an iteration puts behind the path unread: whether it is a link is not looked at, or
does not count. -/
inductive Unread (V : Config) (k : Kernel) (s : Text.State) (comp : Bytes) : Bytes → Prop where
  | unknown (hu : s.unknown) : Unread V k s comp comp
  | respelled {bs : List (List Bytes)} {d : Bytes} (hu : ¬ s.unknown) (hi : V.icaseEnabled)
      (hl : k.lstat (s.path ++ slash :: comp) = .error enoent)
      (hg : k.getdents (if s.path = [] then [slash] else s.path) = .ok bs)
      (hd : bs.flatten.find? (caseEq · comp) = some d) : Unread V k s comp d
  | proc {t : Bytes} (hu : ¬ s.unknown) (hl : k.lstat (s.path ++ slash :: comp) = .ok .symlink)
      (hr : k.readlink (s.path ++ slash :: comp) = .ok t)
      (hp : procPath <+: s.path ++ slash :: comp) (hc : colon ∈ t.take (linkMax - 1)) :
      Unread V k s comp comp

/-- The iteration puts a link into the path. -/
def LeavesLink (V : Config) (k : Kernel) (fs : Node) (s : Text.State) (input : Bytes) : Prop :=
  (rest input ≠ [] ∨ s.follow) ∧
    (((nextComponent input).1 = [dot, dot] ∧ s.path = [] ∧
        V.prefixPath.length + exitPath.length + 1 < pathMax ∧
        fs.LinkAt (components (V.prefixPath ++ Text.volumes))) ∨
      (IsName (nextComponent input).1 ∧
        (nextComponent input).1.length + s.path.length + 3 ≤ pathMax ∧
        ∃ d, Unread V k s (nextComponent input).1 d ∧
          fs.LinkAt (components (s.path ++ slash :: d)) ∧
          ¬ Text.AtExit V { s with path := s.path ++ slash :: d }))

theorem lower_eq {x b : Byte} (hb : b < 65) (h : lower x = b) : x = b := by
  unfold lower at h
  split_ifs at h with hx
  · exfalso
    have h' := congrArg UInt8.toNat h
    simp only [UInt8.lt_iff_toNat_lt, UInt8.le_iff_toNat_le, UInt8.toNat_add, UInt8.reduceToNat]
      at hx h' hb
    omega
  · exact h

theorem caseEq_mem {s t : Bytes} (h : caseEq s t) {b : Byte} (hb : b < 65) (hl : lower b = b)
    (hs : b ∈ s) : b ∈ t := by
  have hm : b ∈ t.map lower := by
    rw [← of_decide_eq_true h]
    exact mem_map.2 ⟨b, hs, hl⟩
  obtain ⟨x, hx, hxb⟩ := mem_map.1 hm
  exact lower_eq hb hxb ▸ hx

theorem caseEq_dots {t : Bytes} {n : ℕ} (h : caseEq (replicate n dot) t) : t = replicate n dot := by
  rw [eq_replicate_iff]
  refine ⟨by rw [← caseEq_length h, length_replicate], fun b hb => ?_⟩
  have hm : lower b ∈ (replicate n dot).map lower := by
    rw [of_decide_eq_true h]
    exact mem_map_of_mem hb
  rw [map_replicate] at hm
  exact lower_eq (by decide) (eq_of_mem_replicate hm)

theorem isName_of_caseEq {c d : Bytes} (h : IsName c) (hd : caseEq d c) : IsName d := by
  refine ⟨?_, fun hm => h.2.1 (caseEq_mem hd (by decide) (by decide) hm),
    fun hm => h.2.2.1 (caseEq_mem hd (by decide) (by decide) hm), ?_, ?_⟩
  · rintro rfl
    exact h.1 (length_eq_zero_iff.1 (caseEq_length hd).symm)
  · rintro rfl
    exact h.2.2.2.1 (caseEq_dots (n := 1) hd)
  · rintro rfl
    exact h.2.2.2.2 (caseEq_dots (n := 2) hd)

variable {input : Bytes}

theorem rest_length_lt (h : input ≠ []) : (rest input).length < input.length := by
  obtain ⟨b, l, rfl⟩ := exists_cons_of_ne_nil h
  have hle : ∀ (p : Byte → Bool) (l : Bytes), (l.dropWhile p).length ≤ l.length := fun _ _ =>
    (List.dropWhile_suffix _).length_le
  unfold rest nextComponent
  by_cases hb : b = slash
  · simpa [hb] using Nat.lt_succ_of_le (hle _ l)
  · simpa [hb] using Nat.lt_succ_of_le ((hle _ _).trans (hle _ l))

theorem rest_eq_nil (h : (nextComponent input).2 = []) : rest input = [] := by
  rw [rest, h]
  rfl

namespace Text

variable {V : Config} {k : Kernel} {fs : Node}

theorem above_eq (p : Bytes) :
    (if 1 < (p ++ [slash]).length then (p ++ [slash]).dropLast else [slash])
      = if p = [] then [slash] else p := by
  by_cases h : p = [] <;> simp [h, length_pos_iff]

variable {s : State} {m : Bool} {cs P : List Bytes}

theorem inspect_skip_name {s₁ s' : State} {comp : Bytes} {more : Bool}
    (happ : appendSlash s = some s₁) (hname : IsName comp)
    (h : inspect V k s₁ comp more = .skip s') :
    comp.length + s.path.length + 3 ≤ pathMax ∧ s'.root = s.root ∧ s'.follow = s.follow ∧
      ∃ d, IsName d ∧ s'.path = s.path ++ slash :: d ∧
        (Unread V k s comp d ∨ (d = comp ∧
          ((∃ e, k.lstat (s.path ++ slash :: comp) = .error e) ∨
            ∃ kind, k.lstat (s.path ++ slash :: comp) = .ok kind ∧
              ¬ (kind = .symlink ∧ (s.follow ∨ more))))) := by
  obtain ⟨-, rfl⟩ := appendSlash_eq_some.1 happ
  have hpath : ∀ d, (s.path ++ [slash]) ++ d = s.path ++ slash :: d := by simp
  obtain ⟨hfit, hcase⟩ := inspect_skip h
  refine ⟨by simpa [Nat.add_assoc] using hfit, (inspect_skip_frame h).1, (inspect_skip_frame h).2.1,
    ?_⟩
  simp only [hpath] at hcase
  obtain ⟨hu, rfl⟩ | ⟨hu, ⟨e, he, -, rfl⟩ | ⟨hic, he, rfl⟩ | ⟨kd, hk, hnf, rfl⟩ |
    ⟨t, hk, hr, hp, hc, rfl⟩⟩ := hcase
  · exact ⟨comp, hname, rfl, .inl (.unknown hu)⟩
  · exact ⟨comp, hname, rfl, .inr ⟨rfl, .inl ⟨e, he⟩⟩⟩
  · unfold icaseSearch
    simp only [above_eq]
    split
    · exact ⟨comp, hname, hpath _, .inr ⟨rfl, .inl ⟨_, he⟩⟩⟩
    · rename_i bs hbs
      split
      · rename_i d hd
        exact ⟨d, isName_of_caseEq hname (by simpa using find?_some hd), hpath _,
          .inl (.respelled hu hic he hbs hd)⟩
      · exact ⟨comp, hname, hpath _, .inr ⟨rfl, .inl ⟨_, he⟩⟩⟩
  · exact ⟨comp, hname, rfl, .inr ⟨rfl, .inr ⟨kd, hk, hnf⟩⟩⟩
  · exact ⟨comp, hname, rfl, .inl (.proc hu hk hr hp hc)⟩

theorem iteration_skip {run : Bytes → State → Option (ℤ × State)} {c : Bytes} {more : Bool}
    {s' : State} (hc : IsName c) (hlen : s.path.length + 1 < pathMax)
    (h : inspect V k { s with path := s.path ++ [slash] } c more = .skip s') :
    iteration V k run s c more = some (.next (exitCheck V s')) := by
  have happ : appendSlash s = some { s with path := s.path ++ [slash] } :=
    appendSlash_eq_some.2 ⟨hlen, rfl⟩
  unfold iteration
  rw [if_neg (by rintro (h | h); exacts [hc.2.2.2.1 h, hc.1 h])]
  simp [happ, some_bind, if_neg hc.2.2.2.2, component, h]

theorem fits_slash {c p : Bytes} (h : c.length + p.length + 3 ≤ pathMax) :
    ¬ pathMax < c.length + (p ++ [slash]).length + 2 := by
  simp only [length_append, length_singleton]
  omega

theorem iteration_unread {comp d : Bytes} {more : Bool} (h : Unread V k s comp d)
    (hname : IsName comp) (hfit : comp.length + s.path.length + 3 ≤ pathMax) (hm : s.follow ∨ more)
    (run : Bytes → State → Option (ℤ × State)) :
    iteration V k run s comp more =
      some (.next (exitCheck V { s with path := s.path ++ slash :: d })) := by
  refine iteration_skip hname (by omega) ?_
  unfold inspect
  simp only [if_neg (fits_slash hfit), ← append_cons]
  cases h with
  | unknown hu => rw [if_pos hu]
  | @respelled bs d hu hi hl hg hd =>
    simp only [if_neg hu, hl, hi, true_and, if_true, icaseSearch, above_eq, hg, hd, ← append_cons]
  | proc hu hl hr hp hc =>
    simp only [if_neg hu, hl, true_and, if_pos hm, enterLink, ← append_cons, hr]
    rw [if_pos ⟨hp, hc⟩]

/-- The path is one of names, and resolved. -/
def ResolvedInv (fs : Node) (m : Bool) (s : State) : Prop :=
  (∃ cs, (∀ c ∈ cs, IsName c) ∧ s.path = render cs) ∧ Resolved fs m s.follow s.path

theorem resolvedInv_iff (hcs : ∀ c ∈ cs, IsName c) (hp : s.path = render cs) :
    ResolvedInv fs m s ↔ fs.CleanAbove cs ∧ (m ∨ s.follow → ¬ fs.LinkAt cs) := by
  unfold ResolvedInv Resolved
  rw [hp, components_render (IsName.text hcs)]
  exact ⟨And.right, fun h => ⟨⟨cs, hcs, rfl⟩, h⟩⟩

theorem beforeLast_render (h : ∀ c ∈ cs, IsName c) {t : Bytes}
    (ht : beforeLast slash (render cs) = some t) : cs ≠ [] ∧ t = render cs.dropLast := by
  obtain rfl | ⟨ds, c, rfl⟩ := cs.eq_nil_or_concat'
  · simp [render, beforeLast] at ht
  · rw [render_concat, beforeLast_split (h c (by simp)).2.1, Option.some.injEq] at ht
    exact ⟨by simp, by rw [dropLast_concat, ht]⟩

theorem isName_volumesName : IsName volumesName := by decide

theorem resolvedInv_of_dir {es : List (Bytes × Node)} (hP : ∀ c ∈ P, IsName c)
    (hd : fs.descend P = some (.dir es)) (hs : s.path = render P) : ResolvedInv fs m s :=
  (resolvedInv_iff hP hs).2
    ⟨Node.cleanAbove_of_descend hd, fun _ => Node.not_linkAt_of_descend hd (by simp [Node.kind])⟩

theorem resolvedInv_root {es : List (Bytes × Node)} (hd : fs.descend P = some (.dir es))
    (hs : s.path = []) : ResolvedInv fs m s := by
  obtain ⟨ns, hns⟩ := Node.root_dir hd
  exact resolvedInv_of_dir (by simp) hns hs

theorem not_linkAt_of_lstat (hk : Faithful k fs) (hcs : ∀ c ∈ cs, IsName c) (hne : cs ≠ [])
    (h : k.lstat (render cs) ≠ .ok .symlink) : ¬ fs.LinkAt cs := by
  rintro ⟨t, ht⟩
  exact h (hk.lstat hcs hne ht)

theorem resolved_invariant (hk : Faithful k fs) (hP : PrefixDir V fs P) :
    Invariant V k (ResolvedInv fs) (fun _ => True) fun s input => ¬ LeavesLink V k fs s input where
  done {s} h := ⟨h.1, h.2.1, fun hm => h.2.2 (hm.imp_left (by simp))⟩
  up {s s₁ s' input} h hG hdd happ hup := by
    obtain ⟨hP, hV, es, hd⟩ := hP
    obtain ⟨⟨cs, hcs, hp⟩, -⟩ := id h
    obtain ⟨hclean, hlink⟩ := (resolvedInv_iff hcs hp).1 h
    obtain ⟨hnil, rfl⟩ | ⟨t, ht, -, rfl⟩ := up_next happ hup
    · have hcs' : ∀ c ∈ P ++ [volumesName], IsName c := by
        simpa [or_imp, forall_and] using ⟨hP, isName_volumesName⟩
      have hr : V.prefixPath ++ volumes = render (P ++ [volumesName]) := by
        rw [render_concat, hV, volumes_eq]
      refine (resolvedInv_iff hcs' hr).2 ⟨?_, fun hm hl =>
        hG ⟨by simpa using hm, .inl ⟨hdd, hnil, ?_, ?_⟩⟩⟩
      · exact (Node.clean_iff.2 ⟨Node.cleanAbove_of_descend hd,
          Node.not_linkAt_of_descend hd (by simp [Node.kind])⟩).concat _
      · rw [up_eq happ, if_pos hnil] at hup
        by_contra hfit
        simp [hfit] at hup
      · rwa [hr, components_render (IsName.text hcs')]
    · rw [hp] at ht
      obtain ⟨hne, rfl⟩ := beforeLast_render hcs ht
      have hcl := hclean.dropLast hne
      exact (resolvedInv_iff (fun c hc => hcs c (dropLast_subset _ hc)) rfl).2
        ⟨hcl.above, fun _ => hcl _ (List.prefix_refl _)⟩
  skip {s s₁ s' input} h hG hname happ hi := by
    obtain ⟨hP, hV, es, hd⟩ := hP
    refine ⟨trivial, ?_⟩
    obtain ⟨⟨cs, hcs, hp⟩, -⟩ := id h
    obtain ⟨hclean, hlink⟩ := (resolvedInv_iff hcs hp).1 h
    obtain ⟨hfit, hroot, hfol, d, hdn, hpath, hread⟩ := inspect_skip_name happ hname hi
    have hcs' : ∀ c ∈ cs ++ [d], IsName c := by simpa [or_imp, forall_and] using ⟨hcs, hdn⟩
    rw [hp, ← render_concat] at hpath
    unfold exitCheck
    split_ifs with hex
    · exact resolvedInv_root hd rfl
    refine (resolvedInv_iff hcs' hpath).2
      ⟨(Node.clean_iff.2 ⟨hclean, hlink (.inl rfl)⟩).concat d, fun hm => ?_⟩
    rw [hfol] at hm
    have hm' : rest input ≠ [] ∨ s.follow := by simpa using hm
    obtain hun | ⟨rfl, hl⟩ := hread
    · intro hla
      refine hG ⟨hm', .inr ⟨hname, hfit, d, hun, ?_, ?_⟩⟩
      · rwa [hp, ← render_concat, components_render (IsName.text hcs')]
      · rwa [AtExit, hp, ← render_concat, ← hpath, ← hroot]
    · refine not_linkAt_of_lstat hk hcs' (by simp) ?_
      rw [render_concat, ← hp]
      rintro heq
      obtain ⟨e, he⟩ | ⟨kd, hkd, hnf⟩ := hl
      · simp [he] at heq
      · rw [hkd, Except.ok.injEq] at heq
        refine hnf ⟨heq, hm'.symm.imp_right fun hr => ?_⟩
        simpa using fun hn => hr (rest_eq_nil hn)
  enter h _ happ hi := start_entered happ hi
    (resolvedInv_of_dir hP.names hP.dir.choose_spec hP.text)
    ⟨h.1, h.2.1, fun _ => h.2.2 (.inl rfl)⟩
  leave {s f} h hf := ⟨trivial, exitCheck_of (resolvedInv_root hP.dir.choose_spec rfl)
    ⟨h.1, h.2.1, fun _ => h.2.2 (.inr hf)⟩⟩

/-- Whatever links lead to, the iteration goes from one state to the other. -/
def StepsTo (V : Config) (k : Kernel) (s : State) (input : Bytes) (s' : State) : Prop :=
  ∀ run, iteration V k run s (nextComponent input).1 ((nextComponent input).2 ≠ [])
    = some (.next s')

theorem loopTrace_next {run : Bytes → State → Option (ℤ × State)}
    {tr : Bytes → State → List (Point State)}
    (htr : ∀ {link s i t t'}, .head i t ∈ tr link s → i ≠ [] → StepsTo V k t i t' →
      .head (rest i) t' ∈ tr link s) :
    ∀ (n : ℕ) {input : Bytes} {s : State}, input.length ≤ n → ∀ {i t t'},
      .head i t ∈ loopTrace V k run tr n input s → i ≠ [] → StepsTo V k t i t' →
      .head (rest i) t' ∈ loopTrace V k run tr n input s
  | 0, input, s, hn, i, t, t', hmem, hi, _ => by
    simp only [loopTrace, mem_singleton, Point.head.injEq] at hmem
    exact absurd (hmem.1.trans (length_eq_zero_iff.1 (by omega))) hi
  | n + 1, input, s, hn, i, t, t', hmem, hi, hst => by
    simp only [loopTrace] at hmem ⊢
    by_cases hin : input = []
    · simp only [if_pos hin, mem_singleton, Point.head.injEq] at hmem
      exact absurd (hmem.1.trans hin) hi
    have hlt := rest_length_lt hin
    simp only [if_neg hin, mem_cons, mem_append, Point.head.injEq] at hmem ⊢
    obtain ⟨rfl, rfl⟩ | hmem | hmem := hmem
    · refine .inr (.inr ?_)
      rw [hst run]
      exact mem_of_mem_head? (loopTrace_head? n _ _)
    · obtain ⟨hm, hdd, s₁, happ, ⟨s₂, hins, h⟩ | ⟨link, s₂, hins, h | ⟨s₃, -, h⟩⟩⟩ :=
        mem_iterationTrace.1 hmem
      · simp at h
      · exact .inr (.inl (mem_iterationTrace.2
          ⟨hm, hdd, s₁, happ, .inr ⟨link, s₂, hins, .inl (htr h hi hst)⟩⟩))
      · simp at h
    · refine .inr (.inr ?_)
      split at hmem
      · exact loopTrace_next htr n (by omega) hmem hi hst
      · simp at hmem

theorem trace_next : ∀ (left : ℕ) {input : Bytes} {s : State} {i t t'},
    .head i t ∈ trace V k left input s → i ≠ [] → StepsTo V k t i t' →
    .head (rest i) t' ∈ trace V k left input s
  | 0, _, _, _, _, _, h, _, _ => by simp [trace] at h
  | left + 1, _, _, _, _, _, h, hi, hst =>
    loopTrace_next (fun h hi hst => trace_next left h hi hst) _ le_rfl h hi hst

theorem LeavesLink.stepsTo {input : Bytes} (h : LeavesLink V k fs s input) :
    ∃ s', StepsTo V k s input s' ∧ ¬ Resolved fs (rest input ≠ []) s'.follow s'.path := by
  obtain ⟨hm, ⟨hdd, hnil, hfit, hlink⟩ | ⟨hname, hfit, d, hun, hlink, hex⟩⟩ := h
  · have happ : appendSlash s = some { s with path := [slash] } :=
      appendSlash_eq_some.2 ⟨by simp [hnil, pathMax], by rw [hnil]; rfl⟩
    refine ⟨{ s with root := .guest, path := V.prefixPath ++ volumes }, fun run => ?_,
      fun hr => hr.2 (by simpa using hm) hlink⟩
    rw [hdd, iteration, if_neg (by decide)]
    simp [happ, some_bind, up_eq happ, if_pos hnil, if_pos hfit]
  · refine ⟨_, iteration_unread hun hname hfit ?_, fun hr => ?_⟩
    · refine hm.symm.imp_right fun hr => ?_
      simpa using fun hn => hr (rest_eq_nil hn)
    · rw [exitCheck, if_neg hex] at hr
      exact hr.2 (by simpa using hm) hlink

section Expand

variable {P : List Bytes} {base : ProcLink} {follow : Bool} {input : Bytes}

theorem openState_resolved (hP : PrefixDir V fs P)
    (hbase : input.head? ≠ some slash → BaseDir k fs base) {s : State}
    (h : openState V k base follow input = .ok s) : ResolvedInv fs true (start V input s).2 := by
  unfold openState at h
  unfold start
  by_cases habs : input.head? = some slash
  · simp only [if_pos habs] at h ⊢
    cases h
    exact resolvedInv_of_dir hP.names hP.dir.choose_spec hP.text
  simp only [if_neg habs] at h ⊢
  rcases ht : k.procLink base with e | t
  · simp [ht] at h
  obtain ⟨hlen, W, es, hW, rfl, hd⟩ := hbase habs t ht
  simp only [ht] at h
  cases h
  rw [take_of_length_le (Nat.le_sub_one_of_lt hlen)]
  refine resolvedInv_of_dir hW hd ?_
  by_cases hnil : W = []
  · simp [absolute, hnil, render]
  · simp [absolute, hnil, render_ne_slash hW]

theorem expandTrace_resolved (hk : Faithful k fs) (hP : PrefixDir V fs P)
    (hbase : input.head? ≠ some slash → BaseDir k fs base) (hz : 0 ∉ input)
    (h : ∀ i s, .head i s ∈ expandTrace V k base follow input → i ≠ [] → ¬ LeavesLink V k fs s i) :
    (∀ i s, .head i s ∈ expandTrace V k base follow input →
      Resolved fs (i ≠ []) s.follow s.path) ∧
    ∀ q, expand V k base follow input = some (0, q) → Resolved fs false follow q := by
  unfold expandTrace at h ⊢
  by_cases hne : input = []
  · simp [hne, expand, fail_ne_zero]
  simp only [if_neg hne] at h ⊢
  rcases hs : openState V k base follow input with e | s
  · simp [expand, hne, hs, fail_ne_zero]
  simp only [hs] at h ⊢
  obtain ⟨hpts, hret⟩ := (resolved_invariant hk hP).run_inv (maxSymlinkDepth + 1) hz
    (openState_resolved hP hbase hs) fun p hp => by
      cases p with
      | head i s => exact h i s hp
      | label s => trivial
  refine ⟨fun i s hmem => (hpts _ hmem).2, fun q hq => ?_⟩
  obtain ⟨s₀, s', hs₀, hr, rfl⟩ := expand_zero hq
  obtain rfl : s = s₀ := Except.ok.inj (hs.symm.trans hs₀)
  have hfol : s'.follow = follow := by
    rw [run_follow _ hr]
    unfold openState at hs
    split_ifs at hs
    · cases hs
      rfl
    · split at hs <;> cases hs
      rfl
  have hres := (hret s' hr).2
  rw [hfol] at hres
  split_ifs with hnil
  · rw [hnil] at hres
    exact hres
  · exact hres

/-- The path is one of names. -/
def Rendered (s : State) : Prop := ∃ cs, (∀ c ∈ cs, IsName c) ∧ s.path = render cs

theorem rendered_nil (hs : s.path = []) : Rendered s := ⟨[], by simp, hs⟩

theorem rendered_invariant (hP : PrefixDir V fs P) :
    Invariant V k (fun _ => Rendered) Rendered fun _ _ => True where
  done h := h
  up {s s₁ s' input} h _ _ happ hup := by
    obtain ⟨cs, hcs, hp⟩ := h
    obtain ⟨-, rfl⟩ | ⟨t, ht, -, rfl⟩ := up_next happ hup
    · refine ⟨P ++ [volumesName], ?_, ?_⟩
      · simpa [or_imp, forall_and] using ⟨hP.names, isName_volumesName⟩
      · rw [render_concat, hP.text, volumes_eq]
    · rw [hp] at ht
      obtain ⟨-, rfl⟩ := beforeLast_render hcs ht
      exact ⟨_, fun c hc => hcs c (dropLast_subset _ hc), rfl⟩
  skip {s s₁ s' input} h _ hname happ hi := by
    obtain ⟨cs, hcs, hp⟩ := h
    obtain ⟨-, -, -, d, hdn, hpath, -⟩ := inspect_skip_name happ hname hi
    have hr : Rendered s' :=
      ⟨cs ++ [d], by simpa [or_imp, forall_and] using ⟨hcs, hdn⟩, by rw [hpath, hp, render_concat]⟩
    exact ⟨hr, exitCheck_of (rendered_nil rfl) hr⟩
  enter h _ happ hi := start_entered happ hi ⟨P, hP.names, hP.text⟩ h
  leave {s f} h _ := ⟨h, exitCheck_of (rendered_nil rfl) h⟩

theorem expand_rendered (hP : PrefixDir V fs P)
    (hbase : input.head? ≠ some slash → BaseDir k fs base) (hz : 0 ∉ input) {q : Bytes}
    (h : expand V k base follow input = some (0, q)) :
    ∃ cs, (∀ c ∈ cs, IsName c) ∧ q = absolute cs := by
  obtain ⟨s, s', hs, hr, rfl⟩ := expand_zero h
  obtain ⟨cs, hcs, hp⟩ := ((rendered_invariant hP).run_inv (maxSymlinkDepth + 1) hz
    (openState_resolved hP hbase hs).1 fun p _ => by cases p <;> simp [PointGood]).2 s' hr
  exact ⟨cs, hcs, by rw [hp, absolute_eq_ite]⟩

theorem not_leavesLink_of_resolved (h : ∀ i s, .head i s ∈ expandTrace V k base follow input →
      Resolved fs (i ≠ []) s.follow s.path) :
    ∀ i s, .head i s ∈ expandTrace V k base follow input → i ≠ [] → ¬ LeavesLink V k fs s i := by
  intro i s hmem hi hlv
  obtain ⟨s', hst, hnot⟩ := LeavesLink.stepsTo hlv
  refine hnot (h _ _ ?_)
  unfold expandTrace at hmem ⊢
  split_ifs at hmem ⊢
  · simp at hmem
  · rcases hs : openState V k base follow input with e | s₀
    · simp [hs] at hmem
    · rw [hs] at hmem
      exact trace_next _ hmem hi hst

end Expand

end Text

/-- The state that the context stands for. -/
def Context.state (c : Context) (p : Bytes) : Text.State :=
  ⟨c.currentRoot, p, c.unknownComponent, c.follow⟩

theorem Rel.state_eq {V : Config} {c : Context} {s : Text.State} (h : Rel V c s) {p : Bytes}
    (hp : Spells 0 c.currentPath p) : c.state p = s := by
  obtain rfl : s.path = p := h.spells.unique hp
  rw [Context.state, h.root, h.unknown, h.follow]

theorem forall_head_iff {V : Config} {k : Kernel} {junk : Bytes} {args : ExpandArgs}
    (hjunk : junk.length = pathMax) (hin : Spells 0 args.path input)
    {Q : Bytes → Text.State → Prop} :
    (∀ i c p, .head i c ∈ expandTrace V k junk args → Spells 0 c.currentPath p → Q i (c.state p)) ↔
      ∀ i s, .head i s ∈ Text.expandTrace V k args.base args.follow input → Q i s := by
  have hrel := expandTrace_rel (V := V) (k := k) hjunk hin
  constructor
  · intro h i s hmem
    obtain ⟨x, hx, hxs⟩ := forall₂_exists_mem (List.Forall₂.flip hrel) _ hmem
    match x, hx, hxs with
    | .head j c, hx, ⟨hij, hr⟩ =>
      have := h j c _ hx hr.spells
      rwa [hij, hr.state_eq hr.spells] at this
  · intro h i c p hmem hp
    obtain ⟨y, hy, hcy⟩ := forall₂_exists_mem hrel _ hmem
    match y, hy, hcy with
    | .head j s, hy, ⟨hij, hr⟩ =>
      have := h j s hy
      rwa [← hij, ← hr.state_eq hp] at this

/-- The path is resolved at every head of the loop. -/
def AllResolved (V : Config) (k : Kernel) (fs : Node) (junk : Bytes) (args : ExpandArgs) : Prop :=
  ∀ i c p, .head i c ∈ expandTrace V k junk args → Spells 0 c.currentPath p →
    Resolved fs (i ≠ []) c.follow p

/-- No iteration leaves a link. -/
def LeavesNoLink (V : Config) (k : Kernel) (fs : Node) (junk : Bytes) (args : ExpandArgs) : Prop :=
  ∀ i c p, .head i c ∈ expandTrace V k junk args → Spells 0 c.currentPath p →
    i ≠ [] → ¬ LeavesLink V k fs (c.state p) i

/-- The path of a run is resolved at every head of its loop exactly if no step of it leaves a link,
and then so is the path that an expansion returns with 0. -/
theorem vchrootExpand_resolved {V : Config} {k : Kernel} {fs : Node} {P : List Bytes}
    {junk input : Bytes} {args : ExpandArgs} (hk : Faithful k fs) (hP : PrefixDir V fs P)
    (hbase : input.head? ≠ some slash → BaseDir k fs args.base) (hjunk : junk.length = pathMax)
    (hsize : args.path.length = pathMax) (hin : Spells 0 args.path input) :
    (AllResolved V k fs junk args ↔ LeavesNoLink V k fs junk args) ∧
      (LeavesNoLink V k fs junk args → ∀ out, vchrootExpand V k junk args = some (0, out) →
        ∃ q, Spells 0 out q ∧ Resolved fs false args.follow q) := by
  have hres : AllResolved V k fs junk args ↔ _ := forall_head_iff hjunk hin
    (Q := fun i s => Resolved fs (i ≠ []) s.follow s.path)
  have hlv : LeavesNoLink V k fs junk args ↔ _ := forall_head_iff hjunk hin
    (Q := fun i s => i ≠ [] → ¬ LeavesLink V k fs s i)
  rw [hres, hlv]
  refine ⟨⟨Text.not_leavesLink_of_resolved, fun h =>
    (Text.expandTrace_resolved hk hP hbase hin.1 h).1⟩, fun h out hout => ?_⟩
  obtain ⟨q, hq, hsp⟩ := vchrootExpand_some hjunk hsize hin hout
  exact ⟨q, hsp, (Text.expandTrace_resolved hk hP hbase hin.1 h).2 q hq⟩

theorem sampleKernel_faithful : Faithful sampleKernel sampleTree :=
  Node.kernel_faithful (by decide) _

theorem sampleConfig_prefixDir : PrefixDir sampleConfig sampleTree [ascii ['p']] where
  names := by decide
  text := rfl
  dir := ⟨_, rfl⟩

theorem vchrootExpand_resolved_link :
    (AllResolved sampleConfig sampleKernel sampleTree zeros (sampleArgs ['/', 'l', '/', 'f']) ↔
      LeavesNoLink sampleConfig sampleKernel sampleTree zeros
        (sampleArgs ['/', 'l', '/', 'f'])) :=
  (vchrootExpand_resolved sampleKernel_faithful sampleConfig_prefixDir (fun h => absurd rfl h)
    zeros_length (sampleArgs_size _ (by decide)) (sampleArgs_spells _ (by decide) (by decide))).1

/-- After the unknown `n` the link `l` is not looked at: `/n/../l/f` expands to `/p/l/f`. -/
theorem vchrootExpand_unresolved :
    Faithful sampleKernel sampleTree ∧ PrefixDir sampleConfig sampleTree [ascii ['p']] ∧
      ∃ out, vchrootExpand sampleConfig sampleKernel zeros
          (sampleArgs ['/', 'n', '/', '.', '.', '/', 'l', '/', 'f']) = some (0, out) ∧
        Spells 0 out (ascii ['/', 'p', '/', 'l', '/', 'f']) ∧
        ¬ Resolved sampleTree false true (ascii ['/', 'p', '/', 'l', '/', 'f']) := by
  refine ⟨sampleKernel_faithful, sampleConfig_prefixDir, ?_⟩
  obtain ⟨out, hout, hsp⟩ := vchrootExpand_of_text (V := sampleConfig) (k := sampleKernel)
    zeros_length (sampleArgs_size ['/', 'n', '/', '.', '.', '/', 'l', '/', 'f'] (by decide))
    (sampleArgs_spells _ (by decide) (by decide))
    (show _ = some (0, ascii ['/', 'p', '/', 'l', '/', 'f']) by rfl)
  refine ⟨out, hout, hsp, fun h => h.1 [ascii ['p'], ascii ['l']] ⟨[ascii ['f']], rfl⟩ (by decide)
    ⟨ascii ['/', 'x'], rfl⟩⟩

end Darling.Vchroot
