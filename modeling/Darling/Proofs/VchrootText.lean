import Darling.Proofs.CArray
import Darling.Proofs.Kernel
import Darling.VchrootText

/-!
# The arrays hold the strings

`vchroot_run` on its arrays and the resolver over strings go step for step: they leave their arrays
at the same places, return the same codes, and `current_path` spells the string throughout
(`vchrootRun_rel`).  So `vchroot_expand` is `Text.expand` (`vchrootExpand_rel`).
-/

namespace Darling.Vchroot

open CArray List Option

/-- The same way to go on, with related states. -/
def Flow.Rel {γ δ : Type} (r : γ → δ → Prop) : Flow γ → Flow δ → Prop
  | .next c, .next s => r c s
  | .ret rv c, .ret rv' s => rv = rv' ∧ r c s
  | _, _ => False

/-- The same verdict, with related states. -/
def Verdict.Rel {γ δ : Type} (r : γ → δ → Prop) : Verdict γ → Verdict δ → Prop
  | .skip c, .skip s => r c s
  | .ret rv c, .ret rv' s => rv = rv' ∧ r c s
  | .follow l c, .follow l' s => l = l' ∧ 0 ∉ l ∧ r c s
  | _, _ => False

/-- A context and a state that agree but for the path. -/
structure Loose (V : Config) (c : Context) (s : Text.State) : Prop where
  size : c.currentPath.length = pathMax
  root : c.currentRoot = s.root
  rootLen : c.currentRootLen = (s.root.text V).length
  unknown : c.unknownComponent = s.unknown
  follow : c.follow = s.follow

/-- `current_path` spells the path of the state. -/
structure Rel (V : Config) (c : Context) (s : Text.State) : Prop extends Loose V c s where
  spells : Spells 0 c.currentPath s.path
  len : c.currentPathLen = s.path.length

/-- The same return code, with related states. -/
def RunRel (V : Config) (a : ℤ × Context) (b : ℤ × Text.State) : Prop := a.1 = b.1 ∧ Rel V a.2 b.2

theorem slash_ne_zero : slash ≠ 0 := by decide

theorem zero_notMem_exitPath : (0 : Byte) ∉ exitPath := by decide

theorem exitPath_length : exitPath.length = 19 := rfl

theorem caseEq_length {s t : Bytes} (h : caseEq s t) : s.length = t.length := by
  have := congrArg length (of_decide_eq_true h)
  simpa using this

theorem slash_notMem_nextComponent (input : Bytes) : slash ∉ (nextComponent input).1 := by
  intro h
  simpa using mem_takeWhile_imp h

variable {input : Bytes}

theorem mem_of_mem_nextComponent {x : Byte} (h : x ∈ (nextComponent input).1) :
    x ∈ input := (List.takeWhile_prefix _).subset h

theorem mem_of_mem_rest {x : Byte} (h : x ∈ rest input) : x ∈ input :=
  (List.dropWhile_suffix _).subset ((List.dropWhile_suffix _).subset h)

section Step

variable {V : Config} {k : Kernel} {c : Context} {s : Text.State}

theorem appendSlash_rel (h : Rel V c s) :
    Option.Rel (fun c' s' => Rel V c' s' ∧ s'.path = s.path ++ [slash]) (appendSlash c)
      (Text.appendSlash s) := by
  have hp := h.spells.store_push slash_ne_zero
  unfold appendSlash Text.appendSlash
  rw [h.size] at hp
  rw [h.len]
  split_ifs at hp ⊢ with hlt
  · obtain ⟨b, b', hb, hb', hs, hl⟩ := hp
    simp only [hb, hb', bind_eq_bind, bind_some, Option.pure_def]
    exact .some ⟨⟨⟨hl, h.root, h.rootLen, h.unknown, h.follow⟩, hs, by simp⟩, rfl⟩
  · obtain ⟨b, hb, hb'⟩ := hp
    simp only [hb, hb', bind_eq_bind, bind_some, bind_none]
    exact .none

theorem reenter_rel (h : Loose V c s) : Option.Rel (Rel V) (reenter V c) (Text.reenter V s) := by
  obtain ⟨a, ha, hs, hl⟩ := strcpy_zero V.prefix_nul
    (by rw [h.size]; exact V.prefix_lt)
  rw [h.size] at hl
  unfold reenter Text.reenter
  simp only [ha, bind_eq_bind, bind_some, Option.pure_def]
  by_cases hfit : V.prefixPath.length + exitPath.length < pathMax
  · obtain ⟨b, hb, hbs, hbl⟩ := hs.strcat_push zero_notMem_exitPath (by rw [hl]; exact hfit)
    have hp := hbs.store_push slash_ne_zero
    rw [hbl, hl, length_append] at hp
    simp only [hb, bind_some, show V.prefixPath.length + (exitPath.length + 1) - 1
        = V.prefixPath.length + exitPath.length by omega]
    split_ifs at hp ⊢ with hlt
    · obtain ⟨d, d', hd, hd', hds, hdl⟩ := hp
      simp only [hd, ← Nat.add_assoc, hd', bind_some]
      exact .some ⟨⟨hdl, rfl, rfl, h.unknown, h.follow⟩, hds, by simp; omega⟩
    · obtain ⟨d, hd, hd'⟩ := hp
      simp only [hd, ← Nat.add_assoc, hd', bind_some, bind_none]
      exact .none
  · rw [if_neg (by omega), hs.strcat_outside (by rw [hl]; omega)]
    exact .none

theorem scanBack_rel (h : Rel V c s) (h2 : 2 ≤ s.path.length) :
    scanBack c.currentPath slash (c.currentPathLen - 2)
      = (beforeLast slash s.path.dropLast).map length := by
  have hlt := h.spells.length_lt
  rw [scanBack_eq _ _ (by rw [h.len]; omega), h.len]
  obtain ⟨-, rest, hr⟩ := h.spells
  rw [hr, take_append_of_le_length (by omega), dropLast_eq_take,
    show s.path.length - 2 + 1 = s.path.length - 1 by omega]

theorem dotdot_rel (h : Rel V c s) :
    Option.Rel (Flow.Rel (Rel V)) (dotdot V c) (Text.dotdot V s) := by
  have hpre : Option.Rel (fun c s => Rel V c s ∧ 2 ≤ s.path.length)
      (if c.currentPathLen ≤ 1 then reenter V c else some c)
      (if s.path.length ≤ 1 then Text.reenter V s else some s) := by
    rw [h.len]
    split_ifs with h1
    · have hr := reenter_rel h.toLoose
      unfold Text.reenter at hr ⊢
      split_ifs at hr ⊢
      · generalize reenter V c = x at hr ⊢
        cases hr with
        | some hr => exact .some ⟨hr, by simp [exitPath_length]⟩
      · generalize reenter V c = x at hr ⊢
        cases hr
        exact .none
    · exact .some ⟨h, by omega⟩
  refine rel_bind hpre fun c s hcs => ?_
  obtain ⟨hr, h2⟩ := hcs
  simp only [bind_eq_bind, Option.pure_def, scanBack_rel hr h2]
  rcases hb : beforeLast slash s.path.dropLast with _ | t
  · exact .none
  · obtain ⟨u, -, hu⟩ := beforeLast_eq_some.1 hb
    have hne : s.path ≠ [] := by
      intro h
      simp [h] at h2
    have hsplit : s.path = t ++ (slash :: u ++ [s.path.getLast hne]) := by
      rw [← append_assoc, ← hu, dropLast_append_getLast]
    obtain ⟨b, hst, hsp, hl⟩ := Spells.store_cut (hsplit ▸ hr.spells)
    simp only [map_some, bind_some, hst, hr.rootLen]
    rw [hr.size] at hl
    split_ifs
    · exact .some ⟨rfl, ⟨hl, hr.root, rfl, hr.unknown, hr.follow⟩, hsp, rfl⟩
    · exact .some ⟨⟨hl, hr.root, rfl, hr.unknown, hr.follow⟩, hsp, rfl⟩

/-- The context when a component stands behind the path of the state. -/
structure Appended (V : Config) (c : Context) (s : Text.State) (above comp : Bytes) : Prop
    extends Loose V c s where
  spells : Spells 0 c.currentPath (above ++ slash :: comp)
  len : c.currentPathLen = s.path.length + comp.length
  path : s.path = above ++ [slash]

variable {above comp : Bytes}

theorem Appended.rel (h : Appended V c s above comp) : Rel V c { s with path := s.path ++ comp } :=
  ⟨⟨h.size, h.root, h.rootLen, h.unknown, h.follow⟩, by simpa [h.path] using h.spells,
    by simp [h.len]⟩

theorem store_slash_back {a d : Bytes} (h : Spells 0 a (above ++ slash :: comp)) (hd : 0 ∉ d)
    (hlen : d.length = comp.length) :
    ∃ b b', store a above.length 0 = some b ∧ str 0 b 0 = some above ∧
      str 0 b (above.length + 1) = some comp ∧ store b above.length slash = some a ∧
      strcpy 0 b (above.length + 1) d = some b' ∧
      ∃ e, store b' above.length slash = some e ∧ Spells 0 e (above ++ slash :: d) ∧
        e.length = a.length := by
  obtain ⟨hz, rest, rfl⟩ := h
  simp only [mem_append, mem_cons, not_or] at hz
  obtain ⟨ha, hs, hc⟩ := hz
  refine ⟨above ++ 0 :: (comp ++ 0 :: rest), above ++ 0 :: (d ++ 0 :: rest), ?_, ?_, ?_, ?_, ?_,
    above ++ slash :: (d ++ 0 :: rest), ?_, ⟨by simp [ha, hd, hs], rest, by simp⟩, by simp [hlen]⟩
  · simpa using store_split above (comp ++ 0 :: rest) slash 0
  · simpa using str_split ha [] (comp ++ 0 :: rest)
  · have := str_split hc (above ++ [0]) rest
    simpa using this
  · simpa using store_split above (comp ++ 0 :: rest) 0 slash
  · have := strcpy_split 0 hlen (above ++ [0]) rest 0
    simpa using this
  · exact store_split above (d ++ 0 :: rest) 0 slash

theorem icaseSearch_rel (h : Appended V c s above comp) :
    ∃ c', icaseSearch k c (above.length + 1) = some c' ∧ Rel V c' (Text.icaseSearch k s comp) := by
  have hcomp : 0 ∉ comp := fun hm => h.spells.1 (by simp [hm])
  obtain ⟨b, -, hst, habove, hname, hback, -⟩ := store_slash_back h.spells hcomp rfl
  have hdir : (if 1 < above.length + 1 then str 0 b 0 else some [slash])
      = some (if 1 < s.path.length then s.path.dropLast else [slash]) := by
    rw [h.path, habove]
    simp only [length_append, length_singleton, dropLast_concat]
    split_ifs <;> rfl
  have hkeep : ∀ u, Rel V { c with unknownComponent := u }
      { s with path := s.path ++ comp, unknown := u } := fun u =>
    ⟨⟨h.size, h.root, h.rootLen, rfl, h.follow⟩, h.rel.spells, h.rel.len⟩
  unfold icaseSearch Text.icaseSearch
  simp only [Nat.add_sub_cancel, hst, hdir, bind_eq_bind, bind_some, Option.pure_def]
  rcases hg : k.getdents (if 1 < s.path.length then s.path.dropLast else [slash]) with e | batches
  · exact ⟨_, by simp only [bind_some, hback], hkeep true⟩
  simp only [hname, bind_some]
  rcases hf : batches.flatten.find? (caseEq · comp) with _ | d
  · exact ⟨_, by simp only [bind_some, hback], hkeep true⟩
  · have hd : 0 ∉ d := by
      obtain ⟨bt, hbt, hdb⟩ := mem_flatten.1 (mem_of_find?_eq_some hf)
      exact k.getdents_nul _ _ hg bt hbt d hdb
    have hlen : d.length = comp.length := caseEq_length (by simpa using find?_some hf)
    obtain ⟨b₁, b', hst', -, -, -, hcpy, e, he, hsp, hel⟩ := store_slash_back h.spells hd hlen
    obtain rfl : b₁ = b := some.inj (hst'.symm.trans hst)
    refine ⟨_, by simp only [hcpy, bind_some, he]; rfl, ?_⟩
    refine ⟨⟨hel.trans h.size, h.root, h.rootLen, h.unknown, h.follow⟩, ?_, ?_⟩
    · simpa [h.path] using hsp
    · simp [h.len, hlen]

theorem linkBuffer_str {t : Bytes} (ht : 0 ∉ t) (hlen : t.length < linkMax) :
    ∃ b b', blit (replicate linkMax (0 : Byte)) 0 t = some b ∧ store b t.length 0 = some b' ∧
      str 0 b' 0 = some t := by
  have hn : linkMax = t.length + (linkMax - t.length - 1 + 1) := by omega
  have hrep : replicate linkMax (0 : Byte)
      = replicate t.length 0 ++ 0 :: replicate (linkMax - t.length - 1) 0 := by
    conv_lhs => rw [hn, replicate_add, replicate_succ]
  refine ⟨t ++ 0 :: replicate (linkMax - t.length - 1) 0,
    t ++ 0 :: replicate (linkMax - t.length - 1) 0, ?_, store_split t _ 0 0, ?_⟩
  · rw [hrep]
    exact blit_split (by simp) [] _
  · exact str_split ht [] _

theorem enterLink_rel (h : Appended V c s above comp) :
    Option.Rel (Verdict.Rel (Rel V)) (enterLink V k c (above.length + 1))
      (some (Text.enterLink k s comp)) := by
  unfold enterLink Text.enterLink
  simp only [h.rel.spells.str_zero, bind_eq_bind, bind_some, Option.pure_def]
  rcases hr : k.readlink (s.path ++ comp) with e | t
  · exact .some ⟨rfl, h.rel⟩
  have ht : 0 ∉ t.take (linkMax - 1) := fun hm =>
    k.readlink_nul _ _ hr (mem_of_mem_take hm)
  obtain ⟨b, b', hb, hb', hs⟩ := linkBuffer_str ht (by
    rw [length_take]
    exact lt_of_le_of_lt (min_le_left _ _) (by decide))
  simp only [hb, hb', hs, bind_some]
  split_ifs with hproc habs
  · exact .some h.rel
  · exact .some ⟨rfl, ht, ⟨h.size, rfl, rfl, h.unknown, rfl⟩, h.rel.spells, h.rel.len⟩
  · obtain ⟨d, hd, hds, hdl⟩ := h.spells.store_cut
    simp only [Nat.add_sub_cancel, hd, bind_some]
    refine .some ⟨rfl, ht, ⟨hdl.trans h.size, h.root, h.rootLen, h.unknown, rfl⟩, ?_, ?_⟩
    · simpa [h.path] using hds
    · simp [h.path]

theorem inspect_rel (h : Rel V c s) (hpath : s.path = above ++ [slash]) (hcomp : 0 ∉ comp)
    (more : Bool) :
    Option.Rel (Verdict.Rel (Rel V)) (inspect V k c comp more)
      (some (Text.inspect V k s comp more)) := by
  obtain ⟨r, rl, a, n, u, f⟩ := c
  obtain ⟨⟨hsize, rfl, rfl, rfl, rfl⟩, hsp, rfl⟩ := h
  unfold inspect Text.inspect
  simp only [bind_eq_bind, Option.pure_def]
  by_cases hfit : pathMax < comp.length + s.path.length + 2
  · simp only [if_pos hfit]
    exact .some ⟨rfl, ⟨hsize, rfl, rfl, rfl, rfl⟩, hsp, rfl⟩
  simp only [if_neg hfit]
  obtain ⟨b, b', hb, hb', hs, hl⟩ := hsp.blit_push hcomp (by
    have : a.length = pathMax := hsize
    omega)
  simp only [hb, hb', bind_some]
  have happ : Appended V ⟨s.root, (s.root.text V).length, b', s.path.length + comp.length,
    s.unknown,
      s.follow⟩ s above comp :=
    ⟨⟨hl.trans hsize, rfl, rfl, rfl, rfl⟩, by simpa [hpath] using hs, rfl, hpath⟩
  have hprev : s.path.length = above.length + 1 := by simp [hpath]
  by_cases hu : s.unknown
  · simp only [if_pos hu]
    exact .some happ.rel
  simp only [if_neg hu, hs.str_zero, bind_some]
  rcases k.lstat (s.path ++ comp) with e | kind
  · simp only []
    split_ifs
    · obtain ⟨c', hc', hr⟩ := icaseSearch_rel happ
      rw [← hprev] at hc'
      rw [hc']
      exact .some hr
    · exact .some happ.rel
  · simp only []
    split_ifs
    · have := enterLink_rel (k := k) happ
      rwa [← hprev] at this
    · exact .some happ.rel

theorem exitCheck_rel (h : Rel V c s) :
    ∃ c', exitCheck c = some c' ∧ Rel V c' (Text.exitCheck V s) := by
  have hpos : 0 < (s.root.text V).length ↔ s.root.text V ≠ [] := length_pos_iff
  unfold exitCheck Text.exitCheck
  simp only [h.len, h.rootLen, hpos]
  by_cases hlen : s.root.text V ≠ [] ∧
      s.path.length = (s.root.text V).length + exitPath.length
  · have htake : (s.path.drop (s.root.text V).length).take exitPath.length
        = s.path.drop (s.root.text V).length :=
      take_of_length_le (by rw [length_drop]; omega)
    rw [if_pos hlen, h.spells.str_at (by omega)]
    simp only [bind_eq_bind, bind_some, Option.pure_def, htake]
    by_cases hcase : caseEq (s.path.drop (s.root.text V).length) exitPath
    · obtain ⟨b, hb, hbs, hbl⟩ := Spells.store_cut (t := []) h.spells
      rw [if_pos hcase, if_pos ⟨hlen.1, hlen.2, hcase⟩]
      refine ⟨_, by simp only [length_nil] at hb; rw [hb]; rfl, ?_⟩
      exact ⟨⟨hbl.trans h.size, rfl, rfl, h.unknown, h.follow⟩, hbs, rfl⟩
    · rw [if_neg hcase, if_neg fun hx : Text.AtExit V s => hcase hx.2.2]
      exact ⟨c, rfl, h⟩
  · rw [if_neg hlen, if_neg fun hx : Text.AtExit V s => hlen ⟨hx.1, hx.2.1⟩]
    exact ⟨c, rfl, h⟩

section Run

variable {run : Bytes → Context → Option (ℤ × Context)}
  {run' : Bytes → Text.State → Option (ℤ × Text.State)}
  (hrun : ∀ {link c s}, 0 ∉ link → Rel V c s → Option.Rel (RunRel V) (run link c) (run' link s))

include hrun

theorem component_rel (h : Rel V c s) {above comp : Bytes} (hpath : s.path = above ++ [slash])
    (hcomp : 0 ∉ comp) (more : Bool) :
    Option.Rel (Flow.Rel (Rel V)) (component V k run c comp more)
      (Text.component V k run' s comp more) := by
  have hi := inspect_rel (k := k) h hpath hcomp more
  unfold component Text.component
  generalize inspect V k c comp more = x at hi
  generalize Text.inspect V k s comp more = v at hi
  cases hi with
  | @some w v hv =>
    simp only [bind_eq_bind, bind_some, Option.pure_def]
    match w, v, hv with
    | .skip c', .skip s', hv =>
      obtain ⟨e, he, hr⟩ := exitCheck_rel hv
      simp only [he]
      exact .some hr
    | .ret rv c', .ret rv' s', hv => exact .some hv
    | .follow l c', .follow l' s', ⟨hl, hz, hv⟩ =>
      subst hl
      refine rel_bind (hrun hz hv) fun a b hab => ?_
      obtain ⟨rv, c₁⟩ := a
      obtain ⟨rv', s₁⟩ := b
      obtain ⟨rfl, hr⟩ := hab
      have hr' : Rel V { c₁ with follow := c.follow } { s₁ with follow := s.follow } :=
        ⟨⟨hr.size, hr.root, hr.rootLen, hr.unknown, h.follow⟩, hr.spells, hr.len⟩
      split_ifs
      · exact .some ⟨rfl, hr'⟩
      · obtain ⟨e, he, hre⟩ := exitCheck_rel hr'
        rw [he]
        exact .some hre

theorem iteration_rel (h : Rel V c s) {comp : Bytes} (hcomp : 0 ∉ comp) (more : Bool) :
    Option.Rel (Flow.Rel (Rel V)) (iteration V k run c comp more)
      (Text.iteration V k run' s comp more) := by
  unfold iteration Text.iteration
  by_cases hdot : comp = [dot] ∨ comp = []
  · rw [if_pos hdot, if_pos hdot]
    exact .some h
  rw [if_neg hdot, if_neg hdot]
  refine rel_bind (appendSlash_rel h) fun c' s' hr => ?_
  split_ifs with hdd
  · exact dotdot_rel hr.1
  · exact component_rel hrun hr.1 hr.2 hcomp more

theorem loop_rel : ∀ (n : ℕ) {input : Bytes} {c : Context} {s : Text.State}, 0 ∉ input →
    Rel V c s → Option.Rel (RunRel V) (loop V k run n input c) (Text.loop V k run' n input s)
  | 0, _, _, _, _, h => .some ⟨rfl, h⟩
  | n + 1, input, c, s, hz, h => by
    simp only [loop, Text.loop]
    split_ifs with hin
    · exact .some ⟨rfl, h⟩
    have hz₁ : 0 ∉ (nextComponent input).1 := fun hm => hz (mem_of_mem_nextComponent hm)
    have hi := iteration_rel (k := k) hrun h hz₁ (decide ((nextComponent input).2 ≠ []))
    generalize iteration V k run c (nextComponent input).1 _ = x at hi ⊢
    generalize Text.iteration V k run' s (nextComponent input).1 _ = y at hi ⊢
    cases hi with
    | none => exact .none
    | @some f g hfg =>
      match f, g, hfg with
      | .next c', .next s', hfg => exact loop_rel n (fun hm => hz (mem_of_mem_rest hm)) hfg
      | .ret rv c', .ret rv' s', hfg => exact .some hfg

end Run

theorem start_rel (hL : Loose V c s) (h : input.head? ≠ some slash → Rel V c s) :
    ∃ c', start V input c = some ((Text.start V input s).1, c') ∧
      Rel V c' (Text.start V input s).2 := by
  unfold start Text.start
  split_ifs with habs
  · have htext : 0 ∉ s.root.text V ∧ (s.root.text V).length < pathMax := by
      cases s.root
      · exact ⟨V.prefix_nul, V.prefix_lt⟩
      · exact ⟨by simp [Root.text], by simp [Root.text, pathMax]⟩
    obtain ⟨a, ha, hs, hl⟩ := strcpy_zero htext.1
      (by rw [hL.size]; exact htext.2)
    refine ⟨{ c with currentPath := a, currentPathLen := (s.root.text V).length }, ?_, ?_⟩
    · simp [hL.root, ha, hs.str_zero]
    · exact ⟨⟨hl.trans hL.size, hL.root, hL.rootLen, hL.unknown, hL.follow⟩, hs, rfl⟩
  · exact ⟨c, rfl, h habs⟩

theorem start_fst_subset (input : Bytes) : (Text.start V input s).1 ⊆ input := by
  unfold Text.start
  split_ifs
  · exact tail_subset input
  · exact Subset.refl _

end Step

theorem fail_ne_zero (e : ℕ+) : fail e ≠ 0 := (fail_neg e).ne

section Main

variable {V : Config} {k : Kernel} {input junk : Bytes} {args : ExpandArgs}

theorem Text.expand_zero {base : ProcLink} {follow : Bool} {q : Bytes}
    (h : Text.expand V k base follow input = some (0, q)) :
    ∃ s s', Text.openState V k base follow input = .ok s ∧
      Text.run V k (maxSymlinkDepth + 1) input s = some (0, s') ∧
      q = if s'.path = [] then [slash] else s'.path := by
  unfold Text.expand at h
  split_ifs at h with hne
  · simp [fail_ne_zero] at h
  · split at h
    · simp [fail_ne_zero] at h
    · rename_i s hs
      obtain ⟨⟨rv, s'⟩, hr, hq⟩ := bind_eq_some_iff.1 h
      obtain ⟨rfl, rfl⟩ := hq
      exact ⟨s, s', hs, hr, rfl⟩

theorem vchrootRun_rel : ∀ (left : ℕ) {input : Bytes} {c : Context} {s : Text.State},
    0 ∉ input → Loose V c s → (input.head? ≠ some slash ∨ left = 0 → Rel V c s) →
    Option.Rel (RunRel V) (vchrootRun V k left input c) (Text.run V k left input s)
  | 0, _, _, _, _, _, h => .some ⟨rfl, h (.inr rfl)⟩
  | left + 1, input, c, s, hz, hL, h => by
    obtain ⟨c', hc', hr⟩ := start_rel hL fun hh => h (.inl hh)
    simp only [vchrootRun, Text.run, hc', bind_eq_bind, bind_some]
    refine loop_rel ?_ _ (fun hm => hz (start_fst_subset input hm)) hr
    exact fun hz hr => vchrootRun_rel left hz hr.toLoose fun _ => hr

theorem openContext_rel (hjunk : junk.length = pathMax) (args : ExpandArgs) (hne : input ≠ []) :
    match Text.openState V k args.base args.follow input with
    | .error e => openContext V k junk args input = some (.inl (fail e))
    | .ok s => ∃ c, openContext V k junk args input = some (.inr c) ∧ Loose V c s ∧
        (input.head? ≠ some slash → Rel V c s) := by
  unfold openContext Text.openState
  simp only [if_neg hne]
  by_cases habs : input.head? = some slash
  · simp only [if_pos habs]
    exact ⟨_, rfl, ⟨hjunk, rfl, rfl, rfl, rfl⟩, fun h => absurd habs h⟩
  simp only [if_neg habs]
  rcases ht : k.procLink args.base with e | t
  · rfl
  simp only []
  set t' := t.take (pathMax - 1)
  have hz : 0 ∉ t' := fun hm => k.procLink_nul _ _ ht (mem_of_mem_take hm)
  have hlt : t'.length < pathMax :=
    lt_of_le_of_lt (length_take_le _ _) (by decide)
  obtain ⟨m, x, w, hm, rfl⟩ := exists_split (u := []) rfl (hjunk ▸ hlt)
  have hb : blit ([] ++ (m ++ x :: w)) 0 t' = some (t' ++ x :: w) := blit_split hm.symm [] _
  have hlen : (t' ++ x :: w).length = pathMax := by
    rw [← hjunk]
    simp [hm]
  set p := if t' = [slash] then [] else t'
  obtain ⟨hn, a, ha, hs, hl⟩ : (if t' = [slash] then 0 else t'.length) = p.length ∧
      ∃ a, store (t' ++ x :: w) p.length 0 = some a ∧ Spells 0 a p ∧ a.length = pathMax := by
    rw [← hlen]
    unfold p
    split_ifs with h1
    · rw [h1]
      exact ⟨rfl, _, store_split [] _ slash 0, ⟨by simp, _, rfl⟩, rfl⟩
    · exact ⟨rfl, _, store_split t' w x 0, ⟨hz, _, rfl⟩, by simp⟩
  have hpre : (p.length < V.prefixPath.length ∨ p.take V.prefixPath.length ≠ V.prefixPath)
      ↔ ¬ V.prefixPath <+: p := by
    rw [List.prefix_iff_eq_take, eq_comm]
    refine ⟨?_, .inr⟩
    rintro (h | h) he
    · have := congrArg length he
      rw [length_take] at this
      omega
    · exact h he
  simp only [hb, hn, ha, hs.str_zero, bind_eq_bind, bind_some, Option.pure_def, hpre]
  by_cases hp : V.prefixPath <+: p
  · simp only [hp, not_true_eq_false, if_false, if_true]
    exact ⟨_, rfl, ⟨hl, rfl, rfl, rfl, rfl⟩, fun _ => ⟨⟨hl, rfl, rfl, rfl, rfl⟩, hs, rfl⟩⟩
  · simp only [hp, not_false_eq_true, if_false, if_true]
    exact ⟨_, rfl, ⟨hl, rfl, rfl, rfl, rfl⟩, fun _ => ⟨⟨hl, rfl, rfl, rfl, rfl⟩, hs, rfl⟩⟩

section

variable (hjunk : junk.length = pathMax) (hsize : args.path.length = pathMax)
   (hin : Spells 0 args.path input)

include hjunk hsize hin

/-- `vchroot_expand` leaves its arrays exactly when `Text.expand` fails, and otherwise returns what
it returns, with `args->path` spelling the string. -/
theorem vchrootExpand_rel :
    Option.Rel (fun a b => a.1 = b.1 ∧ Spells 0 a.2 b.2) (vchrootExpand V k junk args)
      (Text.expand V k args.base args.follow input) := by
  unfold vchrootExpand Text.expand
  simp only [hin.str_zero, bind_eq_bind, bind_some, Option.pure_def]
  by_cases hne : input = []
  · simp only [openContext, if_pos hne, bind_some]
    exact .some ⟨rfl, hin⟩
  rw [if_neg hne]
  have ho := openContext_rel (V := V) (k := k) hjunk args hne
  rcases hs : Text.openState V k args.base args.follow input with e | s
  · rw [hs] at ho
    simp only [ho, bind_some]
    exact .some ⟨rfl, hin⟩
  · rw [hs] at ho
    obtain ⟨c, hc, hL, hr⟩ := ho
    simp only [hc, bind_some]
    refine rel_bind (vchrootRun_rel (maxSymlinkDepth + 1) hin.1 hL fun h => hr (by simpa using h))
      fun a b hab => ?_
    obtain ⟨rv, c'⟩ := a
    obtain ⟨rv', s'⟩ := b
    obtain ⟨rfl, hrel⟩ := hab
    have hout : (if 0 < c'.currentPathLen then str 0 c'.currentPath 0 else some [slash])
        = some (if s'.path = [] then [slash] else s'.path) := by
      rw [hrel.len, hrel.spells.str_zero]
      by_cases hp : s'.path = []
      · simp [hp]
      · rw [if_pos (length_pos_iff.2 hp), if_neg hp]
    have hlt : (if s'.path = [] then [slash] else s'.path).length < pathMax := by
      split_ifs
      · decide
      · exact hrel.size ▸ hrel.spells.length_lt
    have hz : 0 ∉ (if s'.path = [] then [slash] else s'.path) := by
      split_ifs
      · decide
      · exact hrel.spells.1
    obtain ⟨b, hb, hbs, -⟩ := strcpy_zero hz (hsize ▸ hlt)
    simp only [hout, bind_some, hb]
    exact .some ⟨rfl, hbs⟩

theorem vchrootExpand_some {rv : ℤ} {out : Bytes}
    (h : vchrootExpand V k junk args = some (rv, out)) :
    ∃ q, Text.expand V k args.base args.follow input = some (rv, q) ∧ Spells 0 out q := by
  have hrel := vchrootExpand_rel (V := V) (k := k) hjunk hsize hin
  obtain ⟨⟨_, q⟩, hq, rfl, hsp⟩ := exists_of_rel (h ▸ hrel)
  exact ⟨q, hq, hsp⟩

theorem vchrootExpand_of_text {rv : ℤ} {q : Bytes}
    (h : Text.expand V k args.base args.follow input = some (rv, q)) :
    ∃ out, vchrootExpand V k junk args = some (rv, out) ∧ Spells 0 out q := by
  have hrel := vchrootExpand_rel (V := V) (k := k) hjunk hsize hin
  obtain ⟨⟨_, out⟩, hout, rfl, hsp⟩ := exists_of_rel' (h ▸ hrel)
  exact ⟨out, hout, hsp⟩

end

end Main

end Darling.Vchroot
