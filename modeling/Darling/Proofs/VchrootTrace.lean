import Darling.Proofs.VchrootText

/-!
# The places a run passes

The places `vchroot_run` passes over its arrays hold, one for one, the states the resolver over
strings passes (`vchrootTrace_rel`).  A run that returns 0 ends at the head of its loop, and from
one place to the next the guest root is left only at `ignore_symlink`, in the exit directory
(`trace_isChain`).
-/

namespace Darling.Vchroot

open CArray List Option

/-- The same place: a head with the same input, or a label, over the same path. -/
def PointRel (V : Config) : Point Context → Point Text.State → Prop
  | .head i c, .head j s => i = j ∧ Rel V c s
  | .label c, .label s => Rel V c s
  | _, _ => False

variable {V : Config}

theorem PointRel.val {p : Point Context} {q : Point Text.State}
    (h : PointRel V p q) : Rel V p.val q.val :=
  match p, q, h with
  | .head _ _, .head _ _, h => h.2
  | .label _, .label _, h => h

section Forall

variable {α β : Type*} {R : α → β → Prop}

theorem forall₂_exists_mem : ∀ {l : List α} {m : List β}, Forall₂ R l m →
    ∀ a ∈ l, ∃ b ∈ m, R a b
  | _, _, .nil, a, ha => by simp at ha
  | _, _, .cons h hs, a, ha => by
    rcases mem_cons.1 ha with rfl | ha
    · exact ⟨_, mem_cons_self, h⟩
    · obtain ⟨b, hb, hab⟩ := forall₂_exists_mem hs a ha
      exact ⟨b, mem_cons_of_mem _ hb, hab⟩

theorem forall₂_isChain {S : α → α → Prop} {T : β → β → Prop}
    (hST : ∀ a b x y, R a x → R b y → T x y → S a b) : ∀ {l : List α} {m : List β},
    Forall₂ R l m → m.IsChain T → l.IsChain S
  | _, _, .nil, _ => .nil
  | _, _, .cons _ .nil, _ => .singleton _
  | _, _, .cons h (.cons h' hs), hm => by
    rw [isChain_cons_cons] at hm
    exact (forall₂_isChain hST (.cons h' hs) hm.2).cons_cons (hST _ _ _ _ h h' hm.1)

theorem forall₂_and_right {P : β → Prop} : ∀ {l : List α} {m : List β}, Forall₂ R l m →
    (∀ b ∈ m, P b) → Forall₂ (fun a b => R a b ∧ P b) l m
  | _, _, .nil, _ => .nil
  | _, _, .cons h hs, hP =>
    .cons ⟨h, hP _ mem_cons_self⟩
      (forall₂_and_right hs fun b hb => hP b (mem_cons_of_mem _ hb))

end Forall

section Rel

variable {V : Config} {k : Kernel} {run : Bytes → Context → Option (ℤ × Context)}
  {run' : Bytes → Text.State → Option (ℤ × Text.State)}
  {tr : Bytes → Context → List (Point Context)}
  {tr' : Bytes → Text.State → List (Point Text.State)}
  (hrun : ∀ {link c s}, 0 ∉ link → Rel V c s → Option.Rel (RunRel V) (run link c) (run' link s))
  (htr : ∀ {link c s}, 0 ∉ link → Rel V c s →
    List.Forall₂ (PointRel V) (tr link c) (tr' link s))

include hrun htr

theorem iterationTrace_rel {c : Context} {s : Text.State} (h : Rel V c s) {comp : Bytes}
    (hcomp : 0 ∉ comp) (more : Bool) :
    Forall₂ (PointRel V) (iterationTrace V k run tr c comp more)
      (Text.iterationTrace V k run' tr' s comp more) := by
  unfold iterationTrace Text.iterationTrace
  by_cases hdot : comp = [dot] ∨ comp = []
  · rw [if_pos hdot, if_pos hdot]
    exact .nil
  rw [if_neg hdot, if_neg hdot]
  have hs := appendSlash_rel h
  generalize appendSlash c = x at hs
  generalize Text.appendSlash s = y at hs
  cases hs with
  | none => exact .nil
  | @some c₁ s₁ hr =>
    simp only []
    by_cases hdd : comp = [dot, dot]
    · rw [if_pos hdd, if_pos hdd]
      exact .nil
    rw [if_neg hdd, if_neg hdd]
    have hi := inspect_rel (k := k) hr.1 hr.2 hcomp more
    generalize inspect V k c₁ comp more = x at hi
    generalize Text.inspect V k s₁ comp more = v at hi
    cases hi with
    | @some w v hv =>
      match w, v, hv with
      | .skip c', .skip s', hv => exact .cons hv .nil
      | .ret rv c', .ret rv' s', hv => exact .nil
      | .follow l c', .follow l' s', ⟨hl, hz, hv⟩ =>
        subst hl
        refine rel_append (htr hz hv) ?_
        have hR := hrun hz hv
        generalize run l c' = x at hR
        generalize run' l s' = y at hR
        cases hR with
        | none => exact .nil
        | @some a b hab =>
          obtain ⟨rv, c₂⟩ := a
          obtain ⟨rv', s₂⟩ := b
          obtain ⟨rfl, hr'⟩ := hab
          simp only []
          split_ifs
          · exact .cons ⟨⟨hr'.size, hr'.root, hr'.rootLen, hr'.unknown, hr.1.follow⟩, hr'.spells,
              hr'.len⟩ .nil
          · exact .nil

theorem loopTrace_rel : ∀ (n : ℕ) {input : Bytes} {c : Context} {s : Text.State}, 0 ∉ input →
    Rel V c s → Forall₂ (PointRel V) (loopTrace V k run tr n input c)
      (Text.loopTrace V k run' tr' n input s)
  | 0, _, _, _, _, h => .cons ⟨rfl, h⟩ .nil
  | n + 1, input, c, s, hz, h => by
    refine .cons ⟨rfl, h⟩ ?_
    split_ifs with hin
    · exact .nil
    have hz₁ : 0 ∉ (nextComponent input).1 := fun hm => hz (mem_of_mem_nextComponent hm)
    refine rel_append (iterationTrace_rel hrun htr h hz₁ _) ?_
    have hi := iteration_rel (k := k) hrun h hz₁ (decide ((nextComponent input).2 ≠ []))
    generalize iteration V k run c (nextComponent input).1 _ = x at hi ⊢
    generalize Text.iteration V k run' s (nextComponent input).1 _ = y at hi ⊢
    cases hi with
    | none => exact .nil
    | @some f g hfg =>
      match f, g, hfg with
      | .next c', .next s', hfg => exact loopTrace_rel n (fun hm => hz (mem_of_mem_rest hm)) hfg
      | .ret rv c', .ret rv' s', hfg => exact .nil

end Rel

theorem vchrootTrace_rel {k : Kernel} : ∀ (left : ℕ) {input : Bytes} {c : Context}
    {s : Text.State}, 0 ∉ input → Loose V c s → (input.head? ≠ some slash → Rel V c s) →
    Forall₂ (PointRel V) (vchrootTrace V k left input c) (Text.trace V k left input s)
  | 0, _, _, _, _, _, _ => .nil
  | left + 1, input, c, s, hz, hL, h => by
    obtain ⟨c', hc', hr⟩ := start_rel hL h
    simp only [vchrootTrace, Text.trace, hc']
    refine loopTrace_rel ?_ ?_ _ (fun hm => hz (start_fst_subset input hm)) hr
    · exact fun hz hr => vchrootRun_rel left hz hr.toLoose fun _ => hr
    · exact fun hz hr => vchrootTrace_rel left hz hr.toLoose fun _ => hr

variable {input : Bytes}

theorem expandTrace_rel {k : Kernel} {junk : Bytes} {args : ExpandArgs}
    (hjunk : junk.length = pathMax) (hin : Spells 0 args.path input) :
    Forall₂ (PointRel V) (expandTrace V k junk args)
      (Text.expandTrace V k args.base args.follow input) := by
  unfold expandTrace Text.expandTrace
  simp only [hin.str_zero]
  by_cases hne : input = []
  · simp only [openContext, if_pos hne]
    exact .nil
  rw [if_neg hne]
  have ho := openContext_rel (V := V) (k := k) hjunk args hne
  rcases hs : Text.openState V k args.base args.follow input with e | s
  · rw [hs] at ho
    simp only [ho]
    exact .nil
  · rw [hs] at ho
    obtain ⟨c, hc, hL, hr⟩ := ho
    simp only [hc]
    exact vchrootTrace_rel _ hin.1 hL hr

namespace Text

variable {link : Bytes}

section Step

variable {V : Config} {k : Kernel} {run : Bytes → State → Option (ℤ × State)}

/-- The component is neither empty nor `.`. -/
def Moves (comp : Bytes) : Prop := ¬ (comp = [dot] ∨ comp = [])

variable {s s' : State} {comp : Bytes} {more : Bool}

/-- All that an iteration which goes on can have done. -/
theorem iteration_next (h : iteration V k run s comp more = some (.next s')) :
    (¬ Moves comp ∧ s' = s) ∨ (Moves comp ∧ ∃ s₁, appendSlash s = some s₁ ∧
      ((comp = [dot, dot] ∧ dotdot V s₁ = some (.next s')) ∨
        (comp ≠ [dot, dot] ∧
          ((∃ s₂, inspect V k s₁ comp more = .skip s₂ ∧ s' = exitCheck V s₂) ∨
            ∃ link s₂ s₃, inspect V k s₁ comp more = .follow link s₂ ∧
              run link s₂ = some (0, s₃) ∧ s' = exitCheck V
                { s₃ with follow := s₁.follow })))) := by
  unfold iteration at h
  by_cases hm : comp = [dot] ∨ comp = []
  · rw [if_pos hm] at h
    cases h
    exact .inl ⟨not_not.2 hm, rfl⟩
  rw [if_neg hm] at h
  refine .inr ⟨hm, ?_⟩
  rcases hs : appendSlash s with _ | s₁
  · simp [hs] at h
  rw [hs] at h
  simp only [bind_eq_bind, bind_some] at h
  refine ⟨s₁, rfl, ?_⟩
  by_cases hdd : comp = [dot, dot]
  · rw [if_pos hdd] at h
    exact .inl ⟨hdd, h⟩
  rw [if_neg hdd] at h
  refine .inr ⟨hdd, ?_⟩
  unfold component at h
  rcases hi : inspect V k s₁ comp more with s₂ | ⟨rv, s₂⟩ | ⟨link, s₂⟩
  · rw [hi] at h
    cases h
    exact .inl ⟨s₂, rfl, rfl⟩
  · simp [hi] at h
  · simp only [hi, bind_eq_bind] at h
    rcases hr : run link s₂ with _ | ⟨rv, s₃⟩
    · simp [hr] at h
    simp only [hr, bind_some] at h
    split_ifs at h with h0
    · cases h
    · cases h
      exact .inr ⟨link, s₂, s₃, rfl, not_not.1 h0 ▸ hr, rfl⟩

theorem mem_iterationTrace {tr : Bytes → State → List (Point State)} {p : Point State} :
    p ∈ iterationTrace V k run tr s comp more ↔
      Moves comp ∧ comp ≠ [dot, dot] ∧ ∃ s₁, appendSlash s = some s₁ ∧
        ((∃ s₂, inspect V k s₁ comp more = .skip s₂ ∧ p = .label s₂) ∨
          ∃ link s₂, inspect V k s₁ comp more = .follow link s₂ ∧
            (p ∈ tr link s₂ ∨
              ∃ s₃, run link s₂ = some (0, s₃) ∧ p = .label { s₃ with follow := s₁.follow })) := by
  unfold iterationTrace
  by_cases hm : comp = [dot] ∨ comp = []
  · simp [Moves, hm]
  rcases happ : appendSlash s with _ | s₁
  · simp [hm]
  by_cases hdd : comp = [dot, dot]
  · simp [hdd]
  rw [if_neg hm]
  simp only [Moves, hm, not_false_eq_true, ne_eq, true_and, some.injEq, exists_eq_left', hdd]
  rcases inspect V k s₁ comp more with s₂ | ⟨rv, s₂⟩ | ⟨link, s₂⟩
  · simp
  · simp
  · rcases hr : run link s₂ with _ | ⟨rv, s₃⟩
    · simp [hr]
    · by_cases h0 : rv = 0
      · simp [hr, h0]
      · simp [hr, h0]

theorem appendSlash_eq_some : appendSlash s = some s' ↔ s.path.length + 1 < pathMax ∧
      s' = { s with path := s.path ++ [slash] } := by
  unfold appendSlash
  split_ifs with h <;> simp [h, eq_comm]

def volumes : Bytes := exitPath.take 8

def volumesName : Bytes := volumes.tail

theorem volumes_eq : volumes = slash :: volumesName := by decide

theorem beforeLast_reenter (V : Config) :
    beforeLast slash (V.prefixPath ++ exitPath) = some (V.prefixPath ++ volumes) := by
  rw [show exitPath = volumes ++ slash :: exitPath.drop 9 by decide, ← append_assoc]
  exact beforeLast_split (by decide)

variable {s₁ : State}

theorem up_eq (h : appendSlash s = some s₁) : dotdot V s₁ =
      if s.path = [] then
        if V.prefixPath.length + exitPath.length + 1 < pathMax then
          some (.next { s with root := .guest, path := V.prefixPath ++ volumes })
        else none
      else
        (beforeLast slash s.path).map fun t =>
          if t.length < (s.root.text V).length then .ret (fail enoent) { s with path := t }
          else .next { s with path := t } := by
  obtain ⟨-, rfl⟩ := appendSlash_eq_some.1 h
  unfold dotdot reenter
  by_cases hp : s.path = []
  · simp only [hp, nil_append, length_singleton, le_refl, if_true]
    split_ifs with hfit
    · simp only [bind_eq_bind, bind_some, dropLast_concat, beforeLast_reenter]
      rw [if_neg (by simp [Root.text])]
      rfl
    · rfl
  · have h1 : ¬ (s.path ++ [slash]).length ≤ 1 := by
      simpa using hp
    rw [if_neg h1, if_neg hp]
    simp only [bind_eq_bind, bind_some, dropLast_concat]
    rcases beforeLast slash s.path with _ | t <;> rfl

theorem up_next (h : appendSlash s = some s₁) (hd : dotdot V s₁ = some (.next s')) :
    (s.path = [] ∧ s' = { s with root := .guest, path := V.prefixPath ++ volumes }) ∨
      ∃ t, beforeLast slash s.path = some t ∧ (s.root.text V).length ≤ t.length ∧
        s' = { s with path := t } := by
  rw [up_eq h] at hd
  split_ifs at hd with hp hfit
  · cases hd
    exact .inl ⟨hp, rfl⟩
  · obtain ⟨t, ht, hf⟩ := map_eq_some_iff.1 hd
    split_ifs at hf with hl
    cases hf
    exact .inr ⟨t, ht, by omega, rfl⟩

theorem inspect_ret_neg {rv : ℤ} (h : inspect V k s comp more = .ret rv s') : rv < 0 := by
  unfold inspect enterLink at h
  split_ifs at h
  · cases h
    exact fail_neg _
  · split at h
    · split_ifs at h
    · split_ifs at h
      split at h
      · cases h
        exact fail_neg _
      · simp only [] at h
        split_ifs at h

/-- A component that ends the walk fails, or its link does. -/
theorem iteration_ret {rv : ℤ} (h : iteration V k run s comp more = some (.ret rv s')) :
    rv < 0 ∨ rv ≠ 0 ∧ ∃ link s₂ s₃, run link s₂ = some (rv, s₃) := by
  unfold iteration at h
  split_ifs at h with hm hdd
  · simp at h
  all_goals
    rcases hs : appendSlash s with _ | s₁
    · simp [hs] at h
    simp only [hs, bind_eq_bind, bind_some] at h
  · rw [up_eq hs] at h
    split_ifs at h
    · simp at h
    · obtain ⟨t, -, hf⟩ := map_eq_some_iff.1 h
      split_ifs at hf
      cases hf
      exact .inl (fail_neg _)
  · unfold component at h
    rcases hi : inspect V k s₁ comp more with s₂ | ⟨rv', s₂⟩ | ⟨link, s₂⟩
    · simp [hi] at h
    · rw [hi] at h
      cases h
      exact .inl (inspect_ret_neg hi)
    · simp only [hi, bind_eq_bind] at h
      rcases hr : run link s₂ with _ | ⟨rv', s₃⟩
      · simp [hr] at h
      simp only [hr, bind_some] at h
      split_ifs at h with h0
      · cases h
        exact .inr ⟨h0, link, s₂, s₃, hr⟩
      · cases h

theorem iteration_ret_ne_zero {rv : ℤ}
    (h : iteration V k run s comp more = some (.ret rv s')) : rv ≠ 0 :=
  (iteration_ret h).elim (·.ne) (·.1)

/-- When a component is passed over, and what is then appended. -/
theorem inspect_skip (h : inspect V k s comp more = .skip s') :
    comp.length + s.path.length + 2 ≤ pathMax ∧
      ((s.unknown ∧ s' = { s with path := s.path ++ comp }) ∨
        (¬ s.unknown ∧
          ((∃ e, k.lstat (s.path ++ comp) = .error e ∧ ¬ (V.icaseEnabled ∧ e = enoent) ∧
              s' = { s with path := s.path ++ comp }) ∨
            (V.icaseEnabled ∧ k.lstat (s.path ++ comp) = .error enoent ∧
              s' = icaseSearch k s comp) ∨
            (∃ kind, k.lstat (s.path ++ comp) = .ok kind ∧
              ¬ (kind = .symlink ∧ (s.follow ∨ more)) ∧ s' = { s with path := s.path ++ comp }) ∨
            ∃ t, k.lstat (s.path ++ comp) = .ok .symlink ∧ k.readlink (s.path ++ comp) = .ok t ∧
              procPath <+: s.path ++ comp ∧ colon ∈ t.take (linkMax - 1) ∧
              s' = { s with path := s.path ++ comp }))) := by
  unfold inspect at h
  split_ifs at h with hfit hu
  · cases h
    exact ⟨by omega, .inl ⟨hu, rfl⟩⟩
  refine ⟨by omega, .inr ⟨hu, ?_⟩⟩
  rcases hl : k.lstat (s.path ++ comp) with e | kind
  · simp only [hl] at h
    split_ifs at h with hic
    · cases h
      exact .inr (.inl ⟨hic.1, by rw [hic.2], rfl⟩)
    · cases h
      exact .inl ⟨e, rfl, hic, rfl⟩
  · simp only [hl] at h
    split_ifs at h with hk
    · obtain ⟨rfl, -⟩ := hk
      unfold enterLink at h
      rcases hr : k.readlink (s.path ++ comp) with e | t
      · simp [hr] at h
      · simp only [hr] at h
        split_ifs at h with hproc
        cases h
        exact .inr (.inr (.inr ⟨t, rfl, rfl, hproc.1, hproc.2, rfl⟩))
    · cases h
      exact .inr (.inr (.inl ⟨kind, rfl, hk, rfl⟩))

theorem inspect_follow (h : inspect V k s comp more = .follow link s') :
    ¬ s.unknown ∧ k.lstat (s.path ++ comp) = .ok .symlink ∧ (s.follow ∨ more) ∧
      ∃ t, k.readlink (s.path ++ comp) = .ok t ∧ link = t.take (linkMax - 1) ∧
        ¬ (procPath <+: s.path ++ comp ∧ colon ∈ link) ∧
        s' = if link.head? = some slash then
            { s with path := s.path ++ comp, root := .guest, follow := true }
          else { s with path := s.path.dropLast, follow := true } := by
  unfold inspect at h
  split_ifs at h with hfit hu
  rcases hl : k.lstat (s.path ++ comp) with e | kind
  · simp only [hl] at h
    split_ifs at h
  · simp only [hl] at h
    split_ifs at h with hk
    obtain ⟨rfl, hf⟩ := hk
    unfold enterLink at h
    rcases hr : k.readlink (s.path ++ comp) with e | t
    · simp [hr] at h
    · simp only [hr] at h
      split_ifs at h with hproc habs
      · cases h
        exact ⟨hu, rfl, hf, t, rfl, rfl, hproc, by rw [if_pos habs]⟩
      · cases h
        exact ⟨hu, rfl, hf, t, rfl, rfl, hproc, by rw [if_neg habs]⟩

theorem start_entered {I : State → Prop}
    (happ : appendSlash s = some s₁) (hi : inspect V k s₁ comp more = .follow link s')
    (habs : I { s with path := V.prefixPath, root := .guest, follow := true })
    (hrel : I { s with follow := true }) : I (start V link s').2 := by
  obtain ⟨-, rfl⟩ := appendSlash_eq_some.1 happ
  obtain ⟨-, -, -, t, -, -, -, rfl⟩ := inspect_follow hi
  unfold start
  split_ifs
  · exact habs
  · simpa using hrel

theorem icaseSearch_spec (s : State) (comp : Bytes) :
    ∃ d, d.length = comp.length ∧ (icaseSearch k s comp).path = s.path ++ d ∧
      (icaseSearch k s comp).root = s.root ∧ (icaseSearch k s comp).follow = s.follow := by
  unfold icaseSearch
  split
  · exact ⟨comp, rfl, rfl, rfl, rfl⟩
  · split
    · rename_i d hd
      exact ⟨d, caseEq_length (by simpa using find?_some hd), rfl, rfl, rfl⟩
    · exact ⟨comp, rfl, rfl, rfl, rfl⟩

theorem inspect_skip_frame (h : inspect V k s comp more = .skip s') :
    s'.root = s.root ∧ s'.follow = s.follow ∧
      ∃ d, d.length = comp.length ∧ s'.path = s.path ++ d := by
  obtain ⟨-, ⟨-, rfl⟩ | ⟨-, ⟨e, -, -, rfl⟩ | ⟨-, -, rfl⟩ | ⟨kd, -, -, rfl⟩ | ⟨t, -, -, -, -,
    rfl⟩⟩⟩ :=
    inspect_skip h
  · exact ⟨rfl, rfl, comp, rfl, rfl⟩
  · exact ⟨rfl, rfl, comp, rfl, rfl⟩
  · obtain ⟨d, hd, hp, hr, hf⟩ := icaseSearch_spec s comp
    exact ⟨hr, hf, d, hd, hp⟩
  · exact ⟨rfl, rfl, comp, rfl, rfl⟩
  · exact ⟨rfl, rfl, comp, rfl, rfl⟩

theorem exitCheck_of {I : State → Prop} (hexit : I { s with path := [], root := .host })
    (h : I s) : I (exitCheck V s) := by
  unfold exitCheck
  split_ifs
  · exact hexit
  · exact h

@[simp] theorem exitCheck_follow (s : State) : (exitCheck V s).follow = s.follow :=
  exitCheck_of (I := fun t => t.follow = s.follow) rfl rfl

theorem iteration_next_follow
    (h : iteration V k run s comp more = some (.next s')) : s'.follow = s.follow := by
  obtain ⟨-, rfl⟩ | ⟨-, s₁, hs₁, ⟨-, hd⟩ | ⟨-, ⟨s₂, hi, rfl⟩ | ⟨link, s₂, s₃, -, -, rfl⟩⟩⟩ :=
    iteration_next h
  · rfl
  · obtain ⟨-, rfl⟩ | ⟨t, -, -, rfl⟩ := up_next hs₁ hd <;> rfl
  · obtain ⟨-, rfl⟩ := appendSlash_eq_some.1 hs₁
    rw [exitCheck_follow, (inspect_skip_frame hi).2.1]
  · obtain ⟨-, rfl⟩ := appendSlash_eq_some.1 hs₁
    rw [exitCheck_follow]

theorem loop_follow : ∀ (n : ℕ) {input : Bytes} {s s' : State},
    loop V k run n input s = some (0, s') → s'.follow = s.follow
  | 0, _, s, s', h => by
    cases h
    rfl
  | n + 1, input, s, s', h => by
    simp only [loop] at h
    split_ifs at h
    · cases h
      rfl
    · split at h
      · cases h
      · rename_i hi
        cases h
        exact absurd rfl (iteration_ret_ne_zero hi)
      · rename_i hi
        rw [loop_follow n h, iteration_next_follow hi]

theorem run_follow (left : ℕ)
    (h : Text.run V k left input s = some (0, s')) : s'.follow = s.follow := by
  rcases left with _ | left
  · simp [Text.run, fail_ne_zero] at h
  · rw [loop_follow _ h, start]
    split_ifs <;> rfl

end Step

/-- What every place of a run keeps: `I m s` at the head of the loop, with more input to come (`m`)
or without, and `J s` at `ignore_symlink`.  `G` is what may be assumed of each iteration, of the
state it starts from and the input it has. -/
structure Invariant (V : Config) (k : Kernel) (I : Bool → State → Prop) (J : State → Prop)
    (G : State → Bytes → Prop) : Prop where
  done : ∀ {s}, I true s → I false s
  up : ∀ {s s₁ s' input}, I true s → G s input → (nextComponent input).1 = [dot, dot] →
    appendSlash s = some s₁ → dotdot V s₁ = some (.next s') → I (rest input ≠ []) s'
  skip : ∀ {s s₁ s' input}, I true s → G s input → IsName (nextComponent input).1 →
    appendSlash s = some s₁ →
    inspect V k s₁ (nextComponent input).1 ((nextComponent input).2 ≠ []) = .skip s' →
    J s' ∧ I (rest input ≠ []) (exitCheck V s')
  enter : ∀ {s s₁ s' input link}, I true s → IsName (nextComponent input).1 →
    appendSlash s = some s₁ →
    inspect V k s₁ (nextComponent input).1 ((nextComponent input).2 ≠ []) = .follow link s' →
    I true (start V link s').2
  leave : ∀ {s f}, I false s → s.follow = true →
    J { s with follow := f } ∧ I true (exitCheck V { s with follow := f })

/-- The invariant at a place of the trace. -/
def PointInv (I : Bool → State → Prop) (J : State → Prop) : Point State → Prop
  | .head i s => I (i ≠ []) s
  | .label s => J s

/-- What may be assumed of a place. -/
def PointGood (G : State → Bytes → Prop) : Point State → Prop
  | .head i s => i ≠ [] → G s i
  | .label _ => True

namespace Invariant

variable {V : Config} {k : Kernel} {I : Bool → State → Prop} {J : State → Prop}
  {G : State → Bytes → Prop} (hI : Invariant V k I J G)

include hI

theorem weaken {s : State} : ∀ {m m' : Bool}, I m s → (m' → m) → I m' s
  | true, true, h, _ => h
  | true, false, h, _ => hI.done h
  | false, false, h, _ => h
  | false, true, _, hm => absurd (hm rfl) (by simp)

section Loop

variable {run : Bytes → State → Option (ℤ × State)} {tr : Bytes → State → List (Point State)}
  (hfollow : ∀ {link s s'}, run link s = some (0, s') → s'.follow = s.follow)
  (hrun : ∀ {link s}, 0 ∉ link → I true (start V link s).2 →
    (∀ p ∈ tr link s, PointGood G p) →
    (∀ p ∈ tr link s, PointInv I J p) ∧ ∀ s', run link s = some (0, s') → I false s')

include hfollow hrun

theorem follow_inv {s s₁ s₂ : State} (hs : I true s)
    (hname : IsName (nextComponent input).1) (happ : appendSlash s = some s₁)
    (hi : inspect V k s₁ (nextComponent input).1 ((nextComponent input).2 ≠ []) = .follow link s₂)
    (hgood : ∀ p ∈ tr link s₂, PointGood G p) :
    (∀ p ∈ tr link s₂, PointInv I J p) ∧ ∀ s₃, run link s₂ = some (0, s₃) →
      J { s₃ with follow := s₁.follow } ∧ I true (exitCheck V { s₃ with follow := s₁.follow }) := by
  have hen := hI.enter hs hname happ hi
  obtain ⟨-, -, -, t, ht, rfl, -, heq⟩ := inspect_follow hi
  have hfol : s₂.follow = true := by
    rw [heq]
    split_ifs <;> rfl
  obtain ⟨hp, hr⟩ := hrun (fun hm => k.readlink_nul _ _ ht (mem_of_mem_take hm)) hen hgood
  exact ⟨hp, fun s₃ h3 => hI.leave (hr s₃ h3) ((hfollow h3).trans hfol)⟩

theorem iteration_inv {s : State} (hs : I true s) (hG : G s input) (hz : 0 ∉ input)
    (hgood : ∀ p ∈ iterationTrace V k run tr s (nextComponent input).1
      ((nextComponent input).2 ≠ []), PointGood G p) :
    (∀ p ∈ iterationTrace V k run tr s (nextComponent input).1 ((nextComponent input).2 ≠ []),
      PointInv I J p) ∧
    ∀ s', iteration V k run s (nextComponent input).1 ((nextComponent input).2 ≠ [])
      = some (.next s') → I (rest input ≠ []) s' := by
  have hname : Moves (nextComponent input).1 → (nextComponent input).1 ≠ [dot, dot] →
      IsName (nextComponent input).1 := fun hm hdd =>
    ⟨fun h => hm (.inr h), slash_notMem_nextComponent input,
      fun h => hz (mem_of_mem_nextComponent h), fun h => hm (.inl h), hdd⟩
  have hsub : ∀ {s₁ s₂ : State} {link}, Moves (nextComponent input).1 →
      (nextComponent input).1 ≠ [dot, dot] → appendSlash s = some s₁ →
      inspect V k s₁ (nextComponent input).1 ((nextComponent input).2 ≠ []) = .follow link s₂ →
      ∀ p ∈ tr link s₂, PointGood G p := fun hm hdd happ hi p hp =>
    hgood p (mem_iterationTrace.2 ⟨hm, hdd, _, happ, .inr ⟨_, _, hi, .inl hp⟩⟩)
  constructor
  · intro p hp
    obtain ⟨hm, hdd, s₁, happ, ⟨s₂, hi, rfl⟩ | ⟨link, s₂, hi, h⟩⟩ := mem_iterationTrace.1 hp
    · exact (hI.skip hs hG (hname hm hdd) happ hi).1
    · obtain ⟨hpts, hret⟩ := hI.follow_inv hfollow hrun hs (hname hm hdd) happ hi
        (hsub hm hdd happ hi)
      obtain h | ⟨s₃, hr, rfl⟩ := h
      · exact hpts p h
      · exact (hret s₃ hr).1
  · intro s' h
    obtain ⟨-, rfl⟩ | ⟨hm, s₁, happ, ⟨hdd, hd⟩ | ⟨hdd,
      ⟨s₂, hi, rfl⟩ | ⟨link, s₂, s₃, hi, hr, rfl⟩⟩⟩ :=
      iteration_next h
    · exact hI.weaken hs fun _ => rfl
    · exact hI.up hs hG hdd happ hd
    · exact (hI.skip hs hG (hname hm hdd) happ hi).2
    · exact hI.weaken ((hI.follow_inv hfollow hrun hs (hname hm hdd) happ hi
        (hsub hm hdd happ hi)).2 s₃ hr).2 fun _ => rfl

theorem loop_inv : ∀ (n : ℕ) {input : Bytes} {s : State}, 0 ∉ input → I (input ≠ []) s →
    (∀ p ∈ loopTrace V k run tr n input s, PointGood G p) →
    (∀ p ∈ loopTrace V k run tr n input s, PointInv I J p) ∧
      ∀ s', loop V k run n input s = some (0, s') → I false s'
  | 0, input, s, _, hs, _ => by
    refine ⟨by simpa [loopTrace, PointInv] using hs, fun s' h => ?_⟩
    cases h
    exact hI.weaken hs (by simp)
  | n + 1, input, s, hz, hs, hgood => by
    simp only [loopTrace, loop] at hgood ⊢
    by_cases hin : input = []
    · simp only [if_pos hin, mem_singleton, forall_eq]
      refine ⟨hs, fun s' h => ?_⟩
      cases h
      exact hI.weaken hs (by simp)
    simp only [if_neg hin, mem_cons, mem_append] at hgood ⊢
    have hs' : I true s := by simpa [hin] using hs
    obtain ⟨hit, hnext⟩ := hI.iteration_inv hfollow hrun hs' (hgood _ (.inl rfl) hin) hz
      fun p hp => hgood p (.inr (.inl hp))
    have hstop : ∀ p, p = Point.head input s ∨ p ∈ iterationTrace V k run tr s
        (nextComponent input).1 ((nextComponent input).2 ≠ []) ∨ p ∈ ([] : List (Point State)) →
        PointInv I J p := by
      rintro p (rfl | hp | hp)
      · exact hs
      · exact hit p hp
      · simp at hp
    rcases hi : iteration V k run s (nextComponent input).1
      (decide ((nextComponent input).2 ≠ [])) with _ | s₁ | ⟨rv, s₁⟩
    · exact ⟨hstop, by simp⟩
    · simp only [hi] at hgood
      obtain ⟨hp, hr⟩ := loop_inv n (fun hm => hz (mem_of_mem_rest hm)) (hnext s₁ hi)
        fun p hp => hgood p (.inr (.inr hp))
      refine ⟨?_, hr⟩
      rintro p (rfl | hp' | hp')
      · exact hs
      · exact hit p hp'
      · exact hp p hp'
    · refine ⟨hstop, fun s' h => ?_⟩
      cases h
      exact absurd rfl (iteration_ret_ne_zero hi)

end Loop

theorem run_inv : ∀ (left : ℕ) {input : Bytes} {s : State}, 0 ∉ input →
    I true (start V input s).2 → (∀ p ∈ trace V k left input s, PointGood G p) →
    (∀ p ∈ trace V k left input s, PointInv I J p) ∧
      ∀ s', Text.run V k left input s = some (0, s') → I false s'
  | 0, _, _, _, _, _ => by simp [trace, Text.run, fail_ne_zero]
  | left + 1, input, s, hz, hs, hgood => by
    exact hI.loop_inv (run_follow left) (run_inv left) _
      (fun hm => hz (start_fst_subset input hm)) (hI.weaken hs fun _ => rfl) hgood

end Invariant

/-- From a place to the next one: the guest root is left only at `ignore_symlink`, in the exit
directory. -/
def Leaves (V : Config) (p q : Point State) : Prop :=
  p.val.root = .guest → q.val.root = .host → ∃ s, p = .label s ∧ AtExit V s

theorem leaves_of_root {V : Config} {p q : Point State}
    (h : p.val.root = .guest → q.val.root = .guest) : Leaves V p q := fun hp hq => by
  rw [h hp] at hq
  simp at hq

/-- A trace that leaves the guest root only in the exit directory and ends at the head it returns
from. -/
structure Passes (V : Config) (ts : List (Point State)) (s : State) (r : Option (ℤ × State)) :
    Prop where
  chain : ts.IsChain (Leaves V)
  first : ∀ p ∈ ts.head?, p.val.root = s.root
  last : ∀ s', r = some (0, s') → ∃ i, ts.getLast? = some (.head i s')

section Chain

variable {V : Config} {k : Kernel} {run : Bytes → State → Option (ℤ × State)}
  {tr : Bytes → State → List (Point State)} (hrun : ∀ link s, Passes V (tr link s) s (run link s))

include hrun

theorem iterationTrace_passes (s : State) (comp : Bytes) (more : Bool) :
    (iterationTrace V k run tr s comp more).IsChain (Leaves V) ∧
      (∀ p ∈ (iterationTrace V k run tr s comp more).head?,
        s.root = .guest → p.val.root = .guest) ∧
      ∀ s', iteration V k run s comp more = some (.next s') →
        (iterationTrace V k run tr s comp more = [] ∧ (s.root = .guest → s'.root = .guest)) ∨
          ∃ s₂, (iterationTrace V k run tr s comp more).getLast? = some (.label s₂) ∧
            s' = exitCheck V s₂ := by
  by_cases hm : comp = [dot] ∨ comp = []
  · simp only [iterationTrace, iteration, if_pos hm]
    refine ⟨.nil, by simp, fun s' h => .inl ⟨trivial, ?_⟩⟩
    cases h
    exact id
  rcases happ : appendSlash s with _ | s₁
  · simp [iterationTrace, iteration, if_neg hm, happ]
  have hs₁ : s₁.root = s.root := by
    obtain ⟨-, rfl⟩ := appendSlash_eq_some.1 happ
    rfl
  by_cases hdd : comp = [dot, dot]
  · simp only [iterationTrace, iteration, if_neg hm, happ, if_pos hdd, bind_eq_bind, bind_some]
    refine ⟨.nil, by simp, fun s' h => .inl ⟨trivial, fun hr => ?_⟩⟩
    obtain ⟨-, rfl⟩ | ⟨t, -, -, rfl⟩ := up_next happ h
    · rfl
    · exact hr
  simp only [iterationTrace, iteration, if_neg hm, happ, if_neg hdd, bind_eq_bind,
    bind_some, component]
  rcases hi : inspect V k s₁ comp more with s₂ | ⟨rv, s₂⟩ | ⟨link, s₂⟩
  · refine ⟨.singleton _, ?_, fun s' h => .inr ⟨s₂, rfl, ?_⟩⟩
    · simp only [head?_cons, mem_def, some.injEq, forall_eq', Point.val]
      rw [(inspect_skip_frame hi).1, hs₁]
      exact id
    · cases h
      rfl
  · simp
  · have hroot : s.root = .guest → s₂.root = .guest := by
      obtain ⟨-, -, -, t, -, -, -, rfl⟩ := inspect_follow hi
      split_ifs
      · exact fun _ => rfl
      · exact fun h => hs₁.trans h
    obtain ⟨hc, hf, hl⟩ := hrun link s₂
    have hf' : ∀ p ∈ (tr link s₂).head?, s.root = .guest → p.val.root = .guest :=
      fun p hp h => (hf p hp).trans (hroot h)
    rcases hr : run link s₂ with _ | ⟨rv, s₃⟩
    · simpa [hr] using ⟨hc, hf'⟩
    by_cases h0 : rv = 0
    · subst h0
      obtain ⟨i, hlast⟩ := hl s₃ hr
      have hne : tr link s₂ ≠ [] := by
        rintro h
        simp [h] at hlast
      simp only [hr, if_true, bind_some, ne_eq, not_true_eq_false, if_false,
        Option.pure_def, some.injEq, Flow.next.injEq]
      refine ⟨hc.append (.singleton _) ?_, ?_, fun s' h => .inr ⟨_, by simp, h.symm⟩⟩
      · simp only [hlast, head?_cons, mem_def, some.injEq, forall_eq']
        exact leaves_of_root id
      · rwa [head?_append_of_ne_nil _ hne]
    · simpa [hr, h0] using ⟨hc, hf'⟩

omit hrun in
theorem loopTrace_head? (n : ℕ) (input : Bytes) (s : State) :
    (loopTrace V k run tr n input s).head? = some (.head input s) := by
  rcases n with _ | n <;> rfl

theorem loop_passes : ∀ (n : ℕ) (input : Bytes) (s : State),
    Passes V (loopTrace V k run tr n input s) s (loop V k run n input s)
  | 0, input, s => by
    refine ⟨.singleton _, by simp [loopTrace, Point.val], fun s' h => ⟨input, ?_⟩⟩
    cases h
    rfl
  | n + 1, input, s => by
    have hfirst : ∀ p ∈ (loopTrace V k run tr (n + 1) input s).head?, p.val.root = s.root := by
      simp [loopTrace_head?, Point.val]
    refine ⟨?_, hfirst, ?_⟩
    all_goals simp only [loopTrace, loop]
    all_goals by_cases hin : input = []
    · simp only [if_pos hin]
      exact .singleton _
    · simp only [if_neg hin]
      set more := decide ((nextComponent input).2 ≠ [])
      obtain ⟨hc, hf, hl⟩ :=
        iterationTrace_passes hrun s (nextComponent input).1 more
      have hdone : (Point.head input s :: (iterationTrace V k run tr s (nextComponent input).1 more
          ++ [])).IsChain (Leaves V) := by
        rw [append_nil]
        exact hc.cons fun p hp => leaves_of_root (hf p hp)
      rcases hi : iteration V k run s (nextComponent input).1 more with _ | s₁ | ⟨rv, s₁⟩
      · exact hdone
      · have hrest := (loop_passes n (rest input) s₁).chain
        obtain ⟨hnil, hr⟩ | ⟨s₂, hlast, rfl⟩ := hl s₁ hi
        · simp only [hnil, nil_append]
          refine hrest.cons fun p hp => ?_
          rw [loopTrace_head?, mem_def, some.injEq] at hp
          exact leaves_of_root (hp ▸ hr)
        · have hne : iterationTrace V k run tr s (nextComponent input).1 more ≠ [] := by
            rintro h
            simp [h] at hlast
          refine (hc.append hrest fun p hp q hq => ?_).cons fun p hp => ?_
          · rw [hlast, mem_def, some.injEq] at hp
            rw [loopTrace_head?, mem_def, some.injEq] at hq
            subst hp hq
            intro hg hh
            refine ⟨s₂, rfl, ?_⟩
            by_contra hex
            simp only [Point.val, exitCheck, if_neg hex] at hg hh
            rw [hg] at hh
            simp at hh
          · rw [head?_append_of_ne_nil _ hne] at hp
            exact leaves_of_root (hf p hp)
      · exact hdone
    · simp only [if_pos hin]
      intro s' h
      cases h
      exact ⟨input, rfl⟩
    · simp only [if_neg hin]
      intro s' h
      split at h
      · cases h
      · rename_i hi
        cases h
        exact absurd rfl (iteration_ret_ne_zero hi)
      · rename_i s₁ hi
        obtain ⟨i, hlast⟩ :=
          (loop_passes n (rest input) s₁).last s' h
        refine ⟨i, ?_⟩
        rw [hi, ← cons_append, getLast?_append, hlast]
        rfl

end Chain

theorem run_passes (V : Config) (k : Kernel) : ∀ (left : ℕ) (input : Bytes) (s : State),
    Passes V (trace V k left input s) s (Text.run V k left input s)
  | 0, _, _ => ⟨.nil, by simp [trace], by simp [Text.run, fail_ne_zero]⟩
  | left + 1, input, s => by
    have hroot : (start V input s).2.root = s.root := by
      unfold start
      split_ifs <;> rfl
    have h := loop_passes (k := k) (run_passes V k left) (start V input s).1.length
      (start V input s).1 (start V input s).2
    exact ⟨h.chain, fun p hp => (h.first p hp).trans hroot, h.last⟩

end Text

end Darling.Vchroot
