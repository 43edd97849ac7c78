import Darling.Proofs.VchrootWalk

/-!
# Host paths as guest paths

`vchroot_unexpand` and `vchroot_fdpath` take off the prefix where the host path begins with its
letters, and put the exit path in front elsewhere (`Text.guestPath`).  Off the exit directory the
expansion of a guest path is the host path it came from (`vchrootUnexpand_inverse`), and a path
relative to a directory expands as the one behind the directory's guest path
(`vchrootExpand_relative`).
-/

namespace Darling.Vchroot

open CArray List Option
open Text (expand guestPath expand_absolute)

variable {V : Config} {k : Kernel} {a p junk r : Bytes} {args : FdpathArgs}

theorem head?_eq_terminator {s : Bytes} (h : Spells 0 a s) : a.head? = some 0 ↔ s = [] := by
  obtain ⟨hz, r, rfl⟩ := h
  rcases s with _ | ⟨b, s⟩
  · simp
  · simp only [cons_append, head?_cons, some.injEq, reduceCtorEq, iff_false]
    rintro rfl
    simp at hz

theorem strcpy_slash {u : Bytes} (h : Spells 0 a u) (hlen : 1 < a.length) :
    ∃ b, (if a.head? = some 0 then strcpy 0 a 0 [slash] else some a) = some b ∧
      b.length = a.length ∧ Spells 0 b (if u = [] then [slash] else u) := by
  rw [if_congr (head?_eq_terminator h) rfl rfl]
  split_ifs
  · obtain ⟨b, hb, hbs, hbl⟩ := strcpy_zero (z := (0 : Byte)) (t := [slash])
      (by decide) hlen
    exact ⟨b, hb, hbl, hbs⟩
  · exact ⟨a, rfl, rfl, h⟩

theorem take_eq_iff : a.take p.length = p ↔ p <+: a := by
  rw [List.prefix_iff_eq_take, eq_comm]

/-- Where the exit path fits, `vchroot_unexpand` leaves the guest path. -/
theorem vchrootUnexpand_spec {path : Bytes} (hsize : path.length = pathMax) (hp : Spells 0 path p)
    (hfit : exitPath.length + p.length < pathMax) :
    ∃ out, vchrootUnexpand V path = some out ∧ out.length = pathMax ∧
      Spells 0 out (guestPath V p) := by
  have hpre : path.take V.prefixPath.length = V.prefixPath ↔ V.prefixPath <+: p := by
    obtain ⟨-, r, rfl⟩ := hp
    rw [take_eq_iff, prefix_append_terminator V.prefix_nul]
  unfold vchrootUnexpand guestPath
  simp only [hpre]
  by_cases h : V.prefixPath <+: p
  · have hle := h.length_le
    have hz : 0 ∉ p.drop V.prefixPath.length := fun hm => hp.1 (mem_of_mem_drop hm)
    obtain ⟨a, ha, hs, hl⟩ := strcpy_zero (a := path) hz (by
      rw [length_drop]
      have := hp.length_lt
      omega)
    obtain ⟨b, hb, hbl, hbs⟩ := strcpy_slash hs (by rw [hl, hsize]; decide)
    have hmove : move path 0 V.prefixPath.length ((p.drop V.prefixPath.length).length + 1)
        = some a := by
      rw [move, length_drop, hp.take_drop hle, if_pos (by omega)]
      exact ha
    simp only [if_pos h, hp.str_at hle, some_bind, hmove]
    exact ⟨b, hb, by rw [hbl, hl, hsize], hbs⟩
  · obtain ⟨w, -, hw, hwl⟩ := blit_front (e := exitPath) (t := p ++ [0]) (by
      rw [hsize, length_append, length_singleton]
      omega)
    have hmove : move path exitPath.length 0 (p.length + 1) = blit path exitPath.length
      (p ++ [0]) := by
      rw [move, drop_zero, hp.take_zero, if_pos (by omega)]
    simp only [if_neg h, hp.str_zero, some_bind, hmove]
    refine ⟨_, hw, hwl.trans hsize, ?_, w, by simp⟩
    simp [zero_notMem_exitPath, hp.1]

section

variable (hjunk : junk.length = pathMax) (hlink : k.procLink (.fd args.fd) = .ok p)
  (hlen : p.length < pathMax)

include hjunk hlink hlen

theorem vchrootFdpath_eq : vchrootFdpath V k junk args =
      if V.prefixPath <+: p then
        if args.room < p.length - V.prefixPath.length then some (fail enametoolong, args.path)
        else (strcpy 0 args.path 0 (p.drop V.prefixPath.length)).bind fun a =>
          (if a.head? = some 0 then strcpy 0 a 0 [slash] else some a).map ((0 : ℤ), ·)
      else
        if args.maxlen < exitPath.length + 1 + p.length then some (fail enametoolong, args.path)
        else (blit args.path 0 exitPath).bind fun a =>
          (blit a exitPath.length (p ++ [0])).map ((0 : ℤ), ·) := by
  have hz := k.procLink_nul _ _ hlink
  obtain ⟨b, link, hb, hc, hs, -⟩ := blit_terminate hz (hjunk ▸ hlen)
  have hpre : V.prefixPath.length ≤ p.length ∧ p.take V.prefixPath.length = V.prefixPath ↔
      V.prefixPath <+: p := by
    rw [take_eq_iff]
    exact ⟨And.right, fun h => ⟨h.length_le, h⟩⟩
  unfold vchrootFdpath
  rw [hlink]
  simp only [take_of_length_le (show p.length ≤ pathMax - 1 by omega), hb, hc, hs.str_zero,
    some_bind, hpre, Option.pure_def, hs.take_zero, map_eq_bind]
  by_cases h : V.prefixPath <+: p
  · simp only [if_pos h, hs.str_at h.length_le]
    rfl
  · simp only [if_neg h]
    rfl

theorem vchrootFdpath_spec (hroom : (guestPath V p).length < args.maxlen)
    (hbuf : args.maxlen ≤ args.path.length) (h64 : args.maxlen < 2 ^ 64) :
    ∃ out, vchrootFdpath V k junk args = some (0, out) ∧ Spells 0 out (guestPath V p) := by
  have hz := k.procLink_nul _ _ hlink
  rw [vchrootFdpath_eq hjunk hlink hlen]
  unfold guestPath at hroom ⊢
  by_cases h : V.prefixPath <+: p
  · rw [if_pos h] at hroom
    have hpos : (p.drop V.prefixPath.length).length < args.maxlen ∧ 1 < args.maxlen := by
      split_ifs at hroom with hnil
      · exact ⟨by rw [hnil]; exact (Nat.zero_lt_one.trans hroom), hroom⟩
      · exact ⟨hroom, lt_of_le_of_lt (length_pos_of_ne_nil hnil) hroom⟩
    have hnot : ¬ args.room < p.length - V.prefixPath.length := by
      rw [length_drop] at hpos
      rw [FdpathArgs.room, show args.maxlen + (2 ^ 64 - 1) = args.maxlen - 1 + 2 ^ 64 by omega,
        Nat.add_mod_right, Nat.mod_eq_of_lt (by omega)]
      omega
    obtain ⟨a, ha, hsa, hl⟩ := strcpy_zero
      (fun hm => hz (mem_of_mem_drop hm)) (lt_of_lt_of_le hpos.1 hbuf)
    obtain ⟨b, hb, -, hbs⟩ := strcpy_slash hsa (by omega)
    simp only [if_pos h, if_neg hnot, bind_some, ha, hb]
    exact ⟨b, rfl, hbs⟩
  · rw [if_neg h, length_append] at hroom
    obtain ⟨w, hw, -, -⟩ := blit_front (a := args.path) (e := exitPath) (t := p ++ [0]) (by
      rw [length_append, length_singleton]
      omega)
    obtain ⟨a, ha, ha'⟩ := bind_eq_some_iff.1 hw
    simp only [if_neg h, if_neg (show ¬ args.maxlen < exitPath.length + 1 + p.length by omega), ha,
      bind_some, ha']
    exact ⟨_, rfl, by simp [zero_notMem_exitPath, hz], w, by simp⟩

theorem vchrootFdpath_zero {gp g : Bytes} (h : vchrootFdpath V k junk args = some (0, gp))
    (hg : Spells 0 gp g) : g = guestPath V p := by
  have hz := k.procLink_nul _ _ hlink
  have hzd : 0 ∉ p.drop V.prefixPath.length := fun hm => hz (mem_of_mem_drop hm)
  rw [vchrootFdpath_eq hjunk hlink hlen] at h
  unfold guestPath
  by_cases hp : V.prefixPath <+: p
  · rw [if_pos hp] at h ⊢
    split_ifs at h with hroom
    · simp [fail_ne_zero] at h
    obtain ⟨a, ha, h⟩ := bind_eq_some_iff.1 h
    have hsa := spells_of_strcpy hzd ha
    rw [if_congr (head?_eq_terminator hsa) rfl rfl] at h
    split_ifs at h ⊢ with hnil
    · obtain ⟨b, hb, hb'⟩ := map_eq_some_iff.1 h
      obtain rfl : b = gp := congrArg Prod.snd hb'
      exact hg.unique (spells_of_strcpy (by decide) hb)
    · obtain rfl : a = gp := by simpa using h
      exact hg.unique hsa
  · rw [if_neg hp] at h ⊢
    split_ifs at h with hroom
    · simp [fail_ne_zero] at h
    obtain ⟨a, ha, h⟩ := bind_eq_some_iff.1 h
    obtain ⟨b, hb, hb'⟩ := map_eq_some_iff.1 h
    obtain rfl : b = gp := congrArg Prod.snd hb'
    exact hg.unique (spells_of_blit zero_notMem_exitPath hz ha hb)

end

/-- A place of the host that is there, with no link on the way to it. -/
structure HostPlace (fs : Node) (cs : List Bytes) : Prop where
  names : ∀ c ∈ cs, IsName c
  clean : fs.Clean cs
  found : ∃ n, fs.descend cs = some n

/-- Neither the place nor anything between the prefix and it is spelled like the exit path. -/
def OffExit (V : Config) (P cs : List Bytes) : Prop :=
  V.prefixPath ≠ [] → ∀ ds, P ++ ds <+: cs → ¬ caseEq (render ds) exitPath

section Places

variable {fs : Node} {P : List Bytes} {cs : List Bytes} {tl : Bytes} {f : Bool}

theorem HostPlace.passed (hk : Faithful k fs) {bs : List Bytes} (h : HostPlace fs (bs ++ cs))
    (r : Root) (u f : Bool) {ds : List Bytes} {d : Bytes} (hd : ds ++ [d] <+: cs) :
    Text.Passed k ⟨r, render bs ++ render ds, u, f⟩ d := by
  obtain ⟨es, rfl⟩ := hd
  obtain ⟨n, hn⟩ := h.found
  have hpre : bs ++ ds ++ [d] <+: bs ++ (ds ++ [d] ++ es) := ⟨es, by simp⟩
  obtain ⟨m, hm⟩ := Node.exists_descend_above hn hpre
  refine .inr ⟨m.kind, ?_, fun hkd => h.clean _ hpre ?_⟩
  · rw [← render_append, ← render_concat]
    exact hk.lstat (fun c hc => h.names c (hpre.subset hc)) (by simp) hm
  · rcases m with _ | t | ns
    · simp [Node.kind] at hkd
    · exact ⟨t, hm⟩
    · simp [Node.kind] at hkd

theorem HostPlace.of_dir {es : List (Bytes × Node)} (hcs : ∀ c ∈ cs, IsName c)
    (hd : fs.descend cs = some (.dir es)) : HostPlace fs cs :=
  ⟨hcs, Node.clean_iff.2 ⟨Node.cleanAbove_of_descend hd,
    Node.not_linkAt_of_descend hd (by simp [Node.kind])⟩, _, hd⟩

theorem guestPath_inside (hP : PrefixDir V fs P) (cs : List Bytes) :
    guestPath V (absolute (P ++ cs)) = absolute cs := by
  have hpre : V.prefixPath <+: absolute (P ++ cs) := by
    rw [hP.text, render_prefix_absolute hP.names, render_append]
    exact List.prefix_append _ _
  rw [guestPath, if_pos hpre, hP.text]
  by_cases hnil : P ++ cs = []
  · obtain ⟨rfl, rfl⟩ := append_eq_nil_iff.1 hnil
    rfl
  · rw [absolute_of_ne_nil hnil, render_append, drop_left, absolute_eq_ite]

theorem guestPath_outside {p : Bytes} (h : ¬ V.prefixPath <+: p) :
    guestPath V p = exitPath ++ p := if_neg h

theorem inside_of_guestPath (hP : PrefixDir V fs P) (hcs : ∀ c ∈ cs, IsName c)
    (h : V.prefixPath <+: absolute cs) (hg : (guestPath V (absolute cs)).head? = some slash) :
    P <+: cs := by
  rw [guestPath, if_pos h] at hg
  rw [hP.text] at h hg
  rw [render_prefix_absolute hP.names] at h
  obtain ⟨u, hu⟩ := h
  refine prefix_of_render (IsName.text hP.names) (IsName.text hcs) hu.symm ?_
  by_cases hnil : cs = []
  · rw [hnil] at hu
    exact .inl (append_eq_nil_iff.1 hu).2
  · rw [absolute_of_ne_nil hnil, ← hu, drop_left] at hg
    split_ifs at hg with hun
    · exact .inl hun
    · exact .inr hg

section

variable (hk : Faithful k fs)

include hk

/-- Off the exit directory the loop follows a guest path down the tree. -/
theorem walk_inside (hP : PrefixDir V fs P) (hcs : HostPlace fs (P ++ cs))
    (hoff : OffExit V P (P ++ cs)) (hfit : (render (P ++ cs)).length + 2 ≤ pathMax)
    (htl : Text.IsTail tl) (left : ℕ) :
    Text.walk V k left ((absolute cs ++ tl).dropWhile (· = slash)) ⟨.guest, V.prefixPath, false, f⟩
      = Text.walk V k left (tl.dropWhile (· = slash)) ⟨.guest, render (P ++ cs), false, f⟩ := by
  rw [absolute_dropWhile, render_append, ← hP.text]
  refine Text.walk_places (fun c hc => hcs.names c (by simp [hc])) htl ?_ (fun ds d hd => ?_)
    fun ds _ hds hex => ?_
  · rwa [hP.text, ← render_append]
  · rw [hP.text]
    exact hcs.passed hk _ _ _ hd
  · refine hoff hex.1 ds (by simpa using hds) ?_
    have := hex.2.2
    rwa [Root.text, drop_left] at this

theorem walk_host (hcs : HostPlace fs cs) (hfit : (render cs).length + 2 ≤ pathMax)
    (htl : Text.IsTail tl) {u : Bool} (left : ℕ) :
    Text.walk V k left ((absolute cs ++ tl).dropWhile (· = slash)) ⟨.host, [], u, f⟩
      = Text.walk V k left (tl.dropWhile (· = slash)) ⟨.host, render cs, u, f⟩ := by
  rw [absolute_dropWhile]
  have hcs' : HostPlace fs ([] ++ cs) := hcs
  exact Text.walk_places hcs.names htl hfit (fun ds d hd => hcs'.passed hk _ _ _ hd)
    fun ds _ _ => Text.not_atExit_host rfl

theorem expand_inside (hP : PrefixDir V fs P) (hcs : HostPlace fs (P ++ cs))
    (hoff : OffExit V P (P ++ cs)) (hfit : (render (P ++ cs)).length + 2 ≤ pathMax)
    (base : ProcLink) (f : Bool) :
    expand V k base f (absolute cs) = some (0, absolute (P ++ cs)) := by
  have hw := walk_inside hk hP hcs hoff hfit (.inl rfl) (f := f) maxSymlinkDepth
  rw [append_nil] at hw
  rw [expand_absolute (absolute_head? cs), hw, absolute_eq_ite]
  rfl

theorem expand_outside {u : Bool} (hcs : HostPlace fs cs) (hne : V.prefixPath ≠ [])
    (hpfit : V.prefixPath.length + exitPath.length + 2 ≤ pathMax)
    (hexit : Text.exitLookup V k = some u) (hfit : (render cs).length + 2 ≤ pathMax)
    (base : ProcLink) (f : Bool) :
    expand V k base f (exitPath ++ absolute cs) = some (0, absolute cs) := by
  have hu := Text.walk_exit (f := f) maxSymlinkDepth (.inr (absolute_head? cs)) hne hpfit hexit
  have hw := walk_host (V := V) hk hcs hfit (.inl rfl) (u := u) (f := f) maxSymlinkDepth
  rw [append_nil] at hw
  rw [expand_absolute rfl, hu, hw, absolute_eq_ite cs]
  rfl

theorem walk_variant (hP : PrefixDir V fs P) (hcs : HostPlace fs (P ++ cs))
    (hne : V.prefixPath ≠ []) (hex : caseEq (render cs) exitPath)
    (hfit : (render (P ++ cs)).length + 2 ≤ pathMax) (htl : Text.IsTail tl) (left : ℕ) :
    Text.walk V k left ((render cs ++ tl).dropWhile (· = slash)) ⟨.guest, V.prefixPath, false, f⟩
      = Text.walk V k left (tl.dropWhile (· = slash)) ⟨.host, [], false, f⟩ := by
  obtain ⟨d, e, rfl, hd, he⟩ :=
    Text.names_of_caseEq_exitPath (fun c hc => hcs.names c (by simp [hc])) hex
  have hdn := hcs.names d (by simp)
  have hen := hcs.names e (by simp)
  have hlen : d.length + e.length + V.prefixPath.length + 4 ≤ pathMax := by
    have : render (P ++ [d, e]) = V.prefixPath ++ slash :: (d ++ slash :: e) := by
      simp [hP.text, render]
    simp only [this, length_append, length_cons] at hfit
    omega
  have h₁ := hcs.passed hk .guest false f (show [] ++ [d] <+: [d, e] by simp)
  have h₂ := hcs.passed hk .guest false f (show [d] ++ [e] <+: [d, e] by simp)
  simp only [render, flatMap_nil, flatMap_cons, append_nil] at h₁ h₂
  rw [← render, ← hP.text] at h₁ h₂
  refine Text.walk_out hdn hen htl hne (caseEq_length hd) hex
    (fun _ => Text.iteration_passed hdn (by simp only []; omega) h₁)
    fun _ => Text.iteration_passed hen ?_ h₂
  simp only [length_append, length_cons]
  omega

end

end Places

/-- What `vchroot_unexpand` makes of a host path is absolute, expands to it without following, and
is what `vchroot_fdpath` reports for a descriptor with that link. -/
def Inverts (V : Config) (k : Kernel) (p : Bytes) : Prop :=
  ∀ junk path, junk.length = pathMax → path.length = pathMax → Spells 0 path p →
    ∃ gp g, vchrootUnexpand V path = some gp ∧ gp.length = pathMax ∧ Spells 0 gp g ∧
      g.head? = some slash ∧
      (∀ dfd, ∃ out, vchrootExpand V k junk ⟨gp, dfd, false⟩ = some (0, out) ∧ Spells 0 out p) ∧
      ∀ args : FdpathArgs, k.procLink (.fd args.fd) = .ok p → g.length < args.maxlen →
        args.maxlen ≤ args.path.length → args.maxlen < 2 ^ 64 →
        ∃ out, vchrootFdpath V k junk args = some (0, out) ∧ Spells 0 out g

theorem inverts_iff (hz : 0 ∉ p) (hfit : exitPath.length + p.length < pathMax) :
    Inverts V k p ↔ (guestPath V p).head? = some slash ∧
      expand V k .cwd false (guestPath V p) = some (0, p) := by
  constructor
  · intro h
    have hlt : p.length < pathMax := by omega
    have hsize : (ofString 0 pathMax p).length = pathMax := ofString_length hlt.le
    obtain ⟨gp, g, hgp, hgl, hg, hhead, hexp, -⟩ :=
      h zeros _ zeros_length hsize (spells_ofString hz hlt)
    obtain ⟨gp', hgp', -, hg'⟩ :=
      vchrootUnexpand_spec hsize (spells_ofString hz hlt) hfit
    obtain rfl : gp = gp' := some.inj (hgp.symm.trans hgp')
    obtain rfl : g = guestPath V p := hg.unique hg'
    obtain ⟨out, hout, hsp⟩ := hexp (-100)
    obtain ⟨q, hq, hsq⟩ := vchrootExpand_some zeros_length hgl hg hout
    obtain rfl : q = p := hsq.unique hsp
    exact ⟨hhead, hq⟩
  · rintro ⟨hhead, hexp⟩ junk path hjunk hsize hp
    obtain ⟨gp, hgp, hgl, hg⟩ := vchrootUnexpand_spec hsize hp hfit
    refine ⟨gp, _, hgp, hgl, hg, hhead, fun dfd => ?_, fun args hlink hroom hbuf h64 => ?_⟩
    · refine vchrootExpand_of_text hjunk hgl hg ?_
      rw [expand_absolute hhead] at hexp ⊢
      exact hexp
    · exact vchrootFdpath_spec hjunk hlink (by omega) hroom hbuf h64

theorem zero_notMem_render {cs : List Bytes} (h : ∀ c ∈ cs, IsName c) : 0 ∉ render cs := by
  intro hm
  obtain ⟨c, hc, hz⟩ := mem_flatMap.1 hm
  obtain hz | hz := mem_cons.1 hz
  · exact slash_ne_zero hz.symm
  · exact (h c hc).2.2.1 hz

theorem zero_notMem_absolute {cs : List Bytes} (h : ∀ c ∈ cs, IsName c) : 0 ∉ absolute cs := by
  unfold absolute
  split_ifs
  · decide
  · exact zero_notMem_render h

theorem render_length_le (cs : List Bytes) : (render cs).length ≤ (absolute cs).length := by
  unfold absolute
  split_ifs with h
  · simp [h, render]
  · exact le_rfl

theorem exit_inside {fs : Node} {P ds : List Bytes} {e : Bytes} (hP : PrefixDir V fs P)
    (hne : V.prefixPath ≠ []) (he : absolute (P ++ ds) = V.prefixPath ++ e) :
    P ++ ds ≠ [] ∧ render ds = e := by
  have hnil : P ++ ds ≠ [] := fun h => by
    rw [hP.text, (append_eq_nil_iff.1 h).1] at hne
    exact hne rfl
  rw [absolute_of_ne_nil hnil, render_append, hP.text] at he
  exact ⟨hnil, append_cancel_left he⟩

theorem sample_offExit : OffExit sampleConfig [ascii ['p']] [ascii ['p'], ascii ['d']] := by
  rintro - ds ⟨es, hes⟩ hex
  have hlen := congrArg (fun cs => (render cs).length) hes
  have h19 := caseEq_length hex
  simp only [render_append, length_append, h19, exitPath_length] at hlen
  have hfour : (render [ascii ['p'], ascii ['d']]).length = 4 := rfl
  omega

/-- The same return code and, with 0, the same path. -/
def SameResult (a b : ℤ × Bytes) : Prop :=
  a.1 = b.1 ∧ (a.1 = 0 → ∃ q, Spells 0 a.2 q ∧ Spells 0 b.2 q)

/-- Whenever `vchroot_fdpath` reports `g` for a descriptor, `g` is absolute, and `r` relative to the
descriptor expands as `g + "/" + r`. -/
def Agrees (V : Config) (k : Kernel) (fd : ℤ) (r : Bytes) (follow : Bool) : Prop :=
  ∀ (junk junk' link gp g : Bytes) (fargs : FdpathArgs) (rel abs : ExpandArgs),
    junk.length = pathMax → junk'.length = pathMax → link.length = pathMax → fargs.fd = fd →
    vchrootFdpath V k link fargs = some (0, gp) → Spells 0 gp g →
    rel.dfd = fd → rel.follow = follow → rel.path.length = pathMax → Spells 0 rel.path r →
    abs.follow = follow → abs.path.length = pathMax → Spells 0 abs.path (g ++ slash :: r) →
    g.head? = some slash ∧
      Option.Rel SameResult (vchrootExpand V k junk rel) (vchrootExpand V k junk' abs)

theorem sameResult_of_text {junk' g : Bytes} {rel abs : ExpandArgs} (hjunk : junk.length = pathMax)
    (hjunk' : junk'.length = pathMax) (hrel : rel.path.length = pathMax)
    (habs : abs.path.length = pathMax) (hr : Spells 0 rel.path r) (hg : Spells 0 abs.path g)
    (h : expand V k rel.base rel.follow r = expand V k abs.base abs.follow g) :
    Option.Rel SameResult (vchrootExpand V k junk rel) (vchrootExpand V k junk' abs) := by
  have h₁ := vchrootExpand_rel (V := V) (k := k) hjunk hrel hr
  have h₂ := vchrootExpand_rel (V := V) (k := k) hjunk' habs hg
  rw [← h] at h₂
  generalize vchrootExpand V k junk rel = x at h₁ ⊢
  generalize vchrootExpand V k junk' abs = y at h₂ ⊢
  generalize expand V k rel.base rel.follow r = z at h₁ h₂
  cases h₁ with
  | none =>
    cases h₂
    exact .none
  | some h₁ =>
    cases h₂ with
    | some h₂ => exact .some ⟨h₁.1.trans h₂.1.symm, fun _ => ⟨_, h₁.2, h₂.2⟩⟩

/-- Only the path up to its NUL matters: not what follows it, nor what the memory that
`vchroot_expand` works in has held. -/
theorem vchrootExpand_initialised {junk' path' : Bytes} {args : ExpandArgs}
    (hjunk : junk.length = pathMax) (hjunk' : junk'.length = pathMax)
    (hlen : args.path.length = pathMax) (hlen' : path'.length = pathMax)
    (hr : Spells 0 args.path r) (hr' : Spells 0 path' r) : Option.Rel SameResult
      (vchrootExpand V k junk args) (vchrootExpand V k junk' { args with path := path' }) :=
  sameResult_of_text hjunk hjunk' hlen hlen' hr hr' rfl

theorem vchrootExpand_initialised_ones : Option.Rel SameResult
    (vchrootExpand sampleConfig sampleKernel zeros (sampleArgs ['/', 'l']))
    (vchrootExpand sampleConfig sampleKernel (replicate pathMax 1)
      ⟨ascii ['/', 'l'] ++ 0 :: replicate (pathMax - 3) 1, -100, true⟩) :=
  vchrootExpand_initialised zeros_length length_replicate (sampleArgs_size _ (by decide))
    (by rw [length_append, length_cons, length_replicate]; rfl)
    (sampleArgs_spells _ (by decide) (by decide)) ⟨by decide, _, rfl⟩

theorem zero_notMem_guestPath (h : 0 ∉ p) : 0 ∉ guestPath V p := by
  unfold guestPath
  split_ifs
  · decide
  · exact fun hm => h (mem_of_mem_drop hm)
  · simp [zero_notMem_exitPath, h]

theorem Agrees.text {fd : ℤ} {f : Bool} (h : Agrees V k fd r f) (hfd : fd ≠ -100)
    (hlink : k.procLink (.fd fd) = .ok p) (hlen : p.length < pathMax) (hz : 0 ∉ r)
    (hfit : (guestPath V p).length + 1 + r.length < pathMax) :
    (guestPath V p).head? = some slash ∧ ∀ q q', expand V k (.fd fd) f r = some (0, q) →
      expand V k (.fd fd) f (guestPath V p ++ slash :: r) = some (0, q') → q = q' := by
  have hzg := zero_notMem_guestPath (V := V) (k.procLink_nul _ _ hlink)
  set g := guestPath V p
  have hlink' : k.procLink (.fd (FdpathArgs.mk fd zeros pathMax).fd) = .ok p := hlink
  obtain ⟨gp, hgp, hg⟩ := vchrootFdpath_spec zeros_length hlink' hlen
    (show g.length < pathMax by omega) zeros_length.ge (show pathMax < 2 ^ 64 by decide)
  have hagl : (g ++ slash :: r).length < pathMax := by
    rw [length_append, length_cons]
    omega
  have hzabs : 0 ∉ g ++ slash :: r := by
    simp only [mem_append, mem_cons, not_or]
    exact ⟨hzg, slash_ne_zero.symm, hz⟩
  set rel : ExpandArgs := ⟨ofString 0 pathMax r, fd, f⟩
  set abs : ExpandArgs := ⟨ofString 0 pathMax (g ++ slash :: r), fd, f⟩
  have hrel : Spells 0 rel.path r := spells_ofString hz (by omega)
  have habs : Spells 0 abs.path (g ++ slash :: r) := spells_ofString hzabs hagl
  have hrl : rel.path.length = pathMax := ofString_length (by omega)
  have hal : abs.path.length = pathMax := ofString_length hagl.le
  obtain ⟨hhead, hres⟩ := h zeros zeros zeros gp g _ rel abs zeros_length zeros_length zeros_length
    rfl hgp hg rfl rfl hrl hrel rfl hal habs
  refine ⟨hhead, fun q q' hq hq' => ?_⟩
  have hbase : ProcLink.fd fd = rel.base ∧ ProcLink.fd fd = abs.base :=
    ⟨(if_pos hfd).symm, (if_pos hfd).symm⟩
  rw [hbase.1] at hq
  rw [hbase.2] at hq'
  obtain ⟨out, hout, hsp⟩ := vchrootExpand_of_text zeros_length hrl hrel hq
  obtain ⟨out', hout', hsp'⟩ := vchrootExpand_of_text zeros_length hal habs hq'
  rw [hout, hout'] at hres
  cases hres with
  | some hs =>
    obtain ⟨x, hx, hx'⟩ := hs.2 rfl
    exact (hsp.unique hx).trans (hx'.unique hsp')

theorem dropWhile_slash_cons (h : r.head? ≠ some slash) :
    (slash :: r).dropWhile (· = slash) = r := by
  rw [dropWhile_cons_of_pos (by simp)]
  rcases r with _ | ⟨b, r⟩
  · rfl
  · exact dropWhile_cons_of_neg (by simpa using h)

section Relative

variable {fs : Node} {P W : List Bytes} {es : List (Bytes × Node)}

section

variable (hk : Faithful k fs) (hP : PrefixDir V fs P)

include hk hP

theorem expand_relative_inside {ds : List Bytes} (hds : HostPlace fs (P ++ ds))
    (hoff : OffExit V P (P ++ ds)) (hlen : (absolute (P ++ ds)).length + 2 ≤ pathMax)
    {l base : ProcLink} {f : Bool} {r : Bytes} (hlink : k.procLink l = .ok (absolute (P ++ ds)))
    (hne : r ≠ []) (hr : r.head? ≠ some slash) :
    expand V k l f r = expand V k base f (absolute ds ++ slash :: r) := by
  have hle := render_length_le (P ++ ds)
  have hpre : V.prefixPath <+: render (P ++ ds) := by
    rw [hP.text, render_append]
    exact List.prefix_append _ _
  rw [Text.expand_relative hne hr hlink hds.names (by omega), if_pos hpre,
    expand_absolute (absolute_append_head? _ _), walk_inside hk hP hds hoff (by omega) (.inr rfl),
    dropWhile_slash_cons hr]

theorem expand_relative_outside (hW : HostPlace fs W) (hpre : ¬ V.prefixPath <+: absolute W)
    (hpfit : V.prefixPath.length + exitPath.length + 2 ≤ pathMax)
    (hexit : Text.exitLookup V k = some false) (hlen : (absolute W).length + 2 ≤ pathMax)
    {l base : ProcLink} {f : Bool} {r : Bytes} (hlink : k.procLink l = .ok (absolute W))
    (hne : r ≠ []) (hr : r.head? ≠ some slash) :
    expand V k l f r = expand V k base f (exitPath ++ absolute W ++ slash :: r) := by
  have hle := render_length_le W
  have hpne : V.prefixPath ≠ [] := fun h => hpre (h ▸ List.nil_prefix)
  have hpre' : ¬ V.prefixPath <+: render W := by
    rwa [hP.text, ← render_prefix_absolute hP.names, ← hP.text]
  have htl : Text.IsTail (absolute W ++ slash :: r) := .inr (absolute_append_head? _ _)
  rw [Text.expand_relative hne hr hlink hW.names (by omega), if_neg hpre', append_assoc,
    expand_absolute rfl, Text.walk_exit _ htl hpne hpfit hexit,
    walk_host hk hW (by omega) (.inr rfl), dropWhile_slash_cons hr]

end

end Relative

end Darling.Vchroot
