import Darling.PosixActions
import Darling.Proofs.PosixSpawn

/-!
# The file actions on the child's descriptors

The table of the child is the one that the actions are meant to make, with the status pipe at a
number that is free there (`Beside`).  A round keeps that if its action does not name the pipe and
`sys_open` returns the number asked for, and otherwise leaves a descriptor that the new program
should not inherit.
-/

namespace Darling.PosixSpawn

open Option

variable {φ σ : Type}

structure Beside (t : Table (File φ)) (s : Child φ σ) : Prop where
  fds : t.With s.pipe ⟨.pipeWrite, true⟩ s.fds
  plain : t.AllFiles fun f => f.isPipeWrite = false

/-- The action does not name the status pipe, and the number that `open` asks for is the lowest that
is free. -/
def Placed (s : Child φ σ) (act : Action) : Prop :=
  ¬ Names s.pipe act ∧ ∀ oflag mode path, act.kind = .open oflag mode path →
    s.fds.lowest.map Nat.cast = some act.filedes

section Step

variable {sys : Sys φ σ} {act : Action} {t : Table (File φ)} {s : Child φ σ}
  {w : σ} {t' : Table (File φ)} {fd : ℤ}

theorem exists_unlessError {p : ℤ} {e : Darling.Desc (File φ)} {r r' : ℤ × Table (File φ)}
    (h : r'.1 = r.1 ∧ r.2.With p e r'.2) (hret : ¬ r'.1 < 0) :
    ∃ t', (unlessError r).map (·, w) = some (t', w) ∧ t'.With p e r'.2 := by
  refine ⟨r.2, ?_, h.2⟩
  rw [unlessError, if_neg (h.1 ▸ hret)]
  rfl

theorem unlessError_eq_some {r : ℤ × Table (File φ)} (h : unlessError r = some t') : t' = r.2 := by
  unfold unlessError at h
  split_ifs at h
  exact (some.inj h).symm

theorem plain_applyAction {w' : σ} (ht : t.AllFiles fun f => f.isPipeWrite = false)
    (h : applyAction sys act t w = some (t', w')) : t'.AllFiles fun f => f.isPipeWrite = false := by
  have hcall : ∀ r : ℤ × Table (File φ), (unlessError r).map (·, w) = some (t', w') → t' = r.2 := by
    intro r hr
    obtain ⟨t'', hr', heq⟩ := map_eq_some_iff.1 hr
    cases heq
    exact unlessError_eq_some hr'
  unfold applyAction at h
  cases hkind : act.kind with
  | close =>
    rw [hkind] at h
    rw [hcall _ h]
    exact ht.close
  | dup2 newfiledes =>
    rw [hkind] at h
    rw [hcall _ h]
    exact ht.dup2
  | inherit =>
    rw [hkind] at h
    rw [hcall _ h]
    exact ht.setfd
  | «open» oflag mode path =>
    simp only [hkind] at h
    split at h
    · cases h
    · obtain ⟨t'', hopen, heq⟩ := map_eq_some_iff.1 h
      cases heq
      unfold openAt at hopen
      split_ifs at hopen
      rw [← some.inj hopen]
      exact ht.set rfl
  | chdir path =>
    simp only [hkind] at h
    split_ifs at h
    cases h
    exact ht
  | fchdir =>
    simp only [hkind] at h
    split_ifs at h
    cases h
    exact ht
  | other type =>
    rw [hkind] at h
    cases h
    exact ht

theorem beside_perform (hs : Beside t s) (h : Placed s act) :
    wp (perform sys act) (fun _ s' => ∃ t', applyAction sys act t s.world = some (t', s'.world) ∧
      t'.With s'.pipe ⟨.pipeWrite, true⟩ s'.fds) (fun _ _ => True) s := by
  obtain ⟨hnames, hopen⟩ := h
  obtain ⟨hfd, hto⟩ := not_or.1 hnames
  unfold perform applyAction
  cases hkind : act.kind with
  | close =>
    simp only [wp_bind, closeInternal, wp_call, wp_failIf, wp_nothing]
    split_ifs with hbad
    exact exists_unlessError (hs.fds.close hfd) (by omega)
  | dup2 newfiledes =>
    simp only [wp_bind, sysDup2, wp_call, wp_failIf, wp_nothing]
    split_ifs with hbad
    exact exists_unlessError (hs.fds.dup2 hfd fun heq => hto (heq ▸ hkind)) hbad
  | inherit =>
    have hclear : ∀ (b : BitVec 32) (t' : Table (File φ)),
        t'.setfd act.filedes (b &&& ~~~fdCloexec) = t'.setfd act.filedes 0 := by
      intro b t'
      simp [Table.setfd, fdCloexec]
    simp only [setFlags, wp_bind, wp_call, wp_failIf, wp_nothing, hclear]
    split_ifs with hget hset
    exact exists_unlessError (hs.fds.setfd hfd) hset
  | «open» oflag mode path =>
    rcases hres : sys.openat s.world path oflag mode with ⟨opened, w⟩
    obtain ⟨n, hlow, hn⟩ := map_eq_some_iff.1 (hopen oflag mode path hkind)
    simp only [wp_bind]
    cases opened with
    | error e => simp [wp_sysOpen_error hres, fail_neg e]
    | ok f =>
      have hlt := (Table.lowest_free hlow).2
      have hplace : openAt t act.filedes ⟨.user f, oCloexec oflag⟩
          = some (t.set n ⟨.user f, oCloexec oflag⟩) := by
        rw [openAt, ← hs.fds.limit, if_pos (by omega), ← hn, Int.toNat_natCast]
      rw [wp_sysOpen_ok hres hlow, wp_failIf, if_neg (by omega), if_neg (by simp [hn])]
      refine ⟨_, ?_, hs.fds.set _ (by rwa [hn])⟩
      simp [hres, hplace]
  | chdir path =>
    simp only [wp_bind, wp_outside, wp_failIf, wp_nothing]
    split_ifs with hbad
    exact ⟨t, rfl, hs.fds⟩
  | fchdir =>
    simp only [wp_bind, wp_get, wp_outside, wp_failIf, wp_nothing, hs.fds.get_of_ne hfd]
    split_ifs with hbad
    exact ⟨t, rfl, hs.fds⟩
  | other type => exact ⟨t, rfl, hs.fds⟩

theorem beside_round (sys : Sys φ σ) (hs : Beside t s) (h : Placed s act) :
    wp (round sys act) (fun _ s' => ∃ t', applyAction sys act t s.world = some (t', s'.world) ∧
      Beside t' s') (fun _ _ => True) s := by
  rw [round, wp_bind, movePipe]
  simp only [wp_bind, wp_get, wp_ite, wp_pure]
  rw [if_neg h.1]
  refine wp_mono (beside_perform hs h) ?_ fun _ _ => id
  rintro _ s' ⟨t', hact, hwith⟩
  exact ⟨t', hact, hwith, plain_applyAction hs.plain hact⟩

theorem get_dup2_of_ne {fdTo i : ℤ} (h : i ≠ fdTo) : (t.dup2 fd fdTo).2.get i = t.get i := by
  unfold Table.dup2
  split
  · rfl
  · split_ifs
    · rfl
    · rw [Table.get_set, if_neg (by omega)]
    · rfl

theorem dup2_eq_set {fdTo : ℤ} {d : Darling.Desc (File φ)} (hd : t.get fd = some d)
    (hne : fd ≠ fdTo) (hret : ¬ (t.dup2 fd fdTo).1 < 0) :
    0 ≤ fdTo ∧ (t.dup2 fd fdTo).2 = t.set fdTo.toNat ⟨d.file, false⟩ := by
  unfold Table.dup2 at hret ⊢
  simp only [hd, if_neg hne] at hret ⊢
  split_ifs at hret ⊢ with hrange
  · exact ⟨hrange.1, rfl⟩
  · exact absurd (show -ebadf < 0 by decide) hret

theorem openAt_eq_some {d : Darling.Desc (File φ)} {w' : σ}
    (h : (openAt t fd d).map (·, w) = some (t', w')) : t' = t.set fd.toNat d := by
  obtain ⟨t'', hopen, heq⟩ := map_eq_some_iff.1 h
  cases heq
  unfold openAt at hopen
  split_ifs at hopen
  exact (some.inj hopen).symm

theorem exposed_perform {p : ℤ} {n : ℕ} (hnames : Names p act) (hp : s.fds.get p = none)
    (hn : s.fds.get n = some ⟨.pipeWrite, false⟩) :
    wp (perform sys act) (fun _ s' => s'.fds.get n = some ⟨.pipeWrite, false⟩) (fun _ _ => True)
      s := by
  have hne : (n : ℤ) ≠ p := by
    rintro rfl
    rw [hp] at hn
    cases hn
  have hfd : (∀ fd, act.kind ≠ .dup2 fd) → act.filedes = p := fun h => hnames.resolve_right (h p)
  unfold perform
  cases hkind : act.kind with
  | close =>
    rw [hfd (by simp [hkind])]
    simp [closeInternal, Table.close, hp, ebadf]
  | inherit =>
    rw [hfd (by simp [hkind])]
    simp [setFlags, Table.getfd, hp, ebadf]
  | dup2 newfiledes =>
    simp only [wp_bind, sysDup2, wp_call, wp_failIf, wp_nothing]
    split_ifs with hret
    by_cases hfrom : act.filedes = p
    · rw [hfrom]
      simp [Table.dup2, hp, hn]
    · obtain rfl : newfiledes = p := by simpa [hkind] using hnames.resolve_left hfrom
      exact (get_dup2_of_ne hne).trans hn
  | «open» oflag mode path =>
    rw [hfd (by simp [hkind])]
    rcases hres : sys.openat s.world path oflag mode with ⟨opened, w⟩
    rw [wp_bind]
    cases opened with
    | error e => simp [wp_sysOpen_error hres, fail_neg e]
    | ok f =>
      cases hlow : s.fds.lowest with
      | none =>
        rw [wp_sysOpen_full hres hlow, wp_bind, wp_failIf, if_pos (by decide)]
        trivial
      | some m =>
        have hm : (n : ℤ) ≠ m := by
          intro heq
          rw [heq, (Table.lowest_free hlow).1] at hn
          cases hn
        have hset : (s.fds.set m ⟨.user f, oCloexec oflag⟩).get n = some ⟨.pipeWrite, false⟩ := by
          rw [Table.get_set, if_neg hm, hn]
        rw [wp_sysOpen_ok hres hlow, wp_bind, wp_failIf, if_neg (by omega), wp_ite]
        split_ifs
        · simp only [wp_bind, sysDup2, wp_call, wp_failIf, closeInternal, wp_pure]
          split_ifs
          exact (get_dup2_of_ne hne).trans hset
        · exact hset
  | chdir path => simp [hn]
  | fchdir => simp [hn]
  | other type => exact hn

theorem misplaced_perform {oflag : BitVec 32} {mode : ℕ} {path : Bytes} (hs : Beside t s)
    (hkind : act.kind = .open oflag mode path)
    (hlow : s.fds.lowest.map Nat.cast ≠ some act.filedes) :
    wp (perform sys act) (fun _ s' => ∀ t' w', applyAction sys act t s.world = some (t', w') →
      s'.fds.inherited ≠ t'.inherited) (fun _ _ => True) s := by
  simp only [perform, applyAction, hkind]
  rcases hres : sys.openat s.world path oflag mode with ⟨opened, w⟩
  rw [wp_bind]
  cases opened with
  | error e => simp [wp_sysOpen_error hres, fail_neg e]
  | ok f =>
    cases hm : s.fds.lowest with
    | none =>
      rw [wp_sysOpen_full hres hm, wp_bind, wp_failIf, if_pos (by decide)]
      trivial
    | some m =>
      have hne : (m : ℤ) ≠ act.filedes := fun heq => hlow (by rw [hm, ← heq]; rfl)
      rw [wp_sysOpen_ok hres hm, wp_bind, wp_failIf, if_neg (by omega), wp_ite, if_pos hne]
      simp only [wp_bind, sysDup2, wp_call, wp_failIf, closeInternal, wp_pure]
      split_ifs with hret
      intro t' w' hopen heq
      obtain ⟨hpos, hdup⟩ := dup2_eq_set
        (if_pos rfl) hne hret
      have hnat : (act.filedes.toNat : ℤ) = act.filedes := Int.toNat_of_nonneg hpos
      rw [hdup, openAt_eq_some hopen] at heq
      cases hc : oCloexec oflag with
      | true => simpa [Table.inherited, hc, hnat] using congrFun heq act.filedes
      | false =>
        have hfree := hs.fds.get m
        rw [(Table.lowest_free hm).1] at hfree
        split_ifs at hfree
        simpa [Table.inherited, hc, hnat, hne, ← hfree] using congrFun heq m

theorem not_inherited_eq {n : ℕ} (ht : t'.AllFiles fun f => f.isPipeWrite = false)
    (hn : t.get n = some ⟨.pipeWrite, false⟩) : t.inherited ≠ t'.inherited := by
  intro heq
  have h := congrFun heq n
  rw [Table.inherited, hn] at h
  obtain ⟨d, hd, hvis⟩ := bind_eq_some_iff.1 h.symm
  split_ifs at hvis
  have := ht n d hd
  rw [some.inj hvis] at this
  cases this

theorem astray_round (hs : Beside t s) (h : ¬ Placed s act) :
    wp (round sys act) (fun _ s' => ∀ t' w', applyAction sys act t s.world = some (t', w') →
      s'.fds.inherited ≠ t'.inherited) (fun _ _ => True) s := by
  rw [round, wp_bind, movePipe]
  simp only [wp_bind, wp_get, wp_ite, wp_pure]
  split_ifs with hnames
  · have hpipe : s.fds.get s.pipe = some ⟨.pipeWrite, true⟩ := by rw [hs.fds.get, if_pos rfl]
    simp only [sysDup, wp_call, wp_failIf, wp_nothing, Table.dup, hpipe]
    cases hlow : s.fds.lowest with
    | none =>
      simp only [Table.alloc, hlow]
      rw [if_pos (by decide)]
      trivial
    | some n =>
      have hne : (n : ℤ) ≠ s.pipe := by
        intro heq
        rw [← heq, (Table.lowest_free hlow).1] at hpipe
        cases hpipe
      have hset : (s.fds.set n ⟨.pipeWrite, false⟩).get s.pipe = some ⟨.pipeWrite, true⟩ := by
        rw [Table.get_set, if_neg hne.symm, hpipe]
      simp only [Table.alloc, hlow]
      rw [if_neg (by omega)]
      simp only [closeInternal, wp_call, wp_modify, Table.close, hset, isSome_some, if_true]
      refine wp_mono (exposed_perform hnames (n := n) (by simp) (by simp [hne])) ?_ fun _ _ => id
      intro _ s' hn t' w' hact
      exact not_inherited_eq (plain_applyAction hs.plain hact) hn
  · obtain ⟨oflag, mode, path, hkind, hlow⟩ : ∃ oflag mode path,
        act.kind = .open oflag mode path ∧ s.fds.lowest.map Nat.cast ≠ some act.filedes := by
      by_contra hcon
      push Not at hcon
      exact h ⟨hnames, hcon⟩
    exact misplaced_perform hs hkind hlow

end Step

section Run

variable {sys : Sys φ σ}

/-- After every beginning of the actions that runs through, the new program would inherit the
descriptors that the actions make of `t`. -/
def Agrees (sys : Sys φ σ) (acts : List Action) (t : Table (File φ)) (w : σ) (s : Child φ σ) :
    Prop :=
  ∀ pre, pre <+: acts → wp (forM pre (round sys)) (fun _ s' => ∃ t' w',
    applyActions sys pre t w = some (t', w') ∧ s'.fds.inherited = t'.inherited) (fun _ _ => True) s

variable {t : Table (File φ)}

theorem applyActions_cons {act : Action} {t' : Table (File φ)} {w w' : σ}
    (h : applyAction sys act t w = some (t', w')) (acts : List Action) :
    applyActions sys (act :: acts) t w = applyActions sys acts t' w' := by
  rw [applyActions, h]
  rfl

theorem agrees_cons {act : Action} {acts : List Action} {w : σ} {s : Child φ σ}
    (hs : s.fds.inherited = t.inherited) :
    Agrees sys (act :: acts) t w s ↔ wp (round sys act) (fun _ s' => ∃ t' w',
      applyAction sys act t w = some (t', w') ∧ Agrees sys acts t' w' s') (fun _ _ => True) s := by
  constructor
  · intro h
    have hall := wp_forall fun pre => wp_forall fun hpre : pre <+: acts => by
      have := h (act :: pre) ((List.prefix_cons_inj act).2 hpre)
      rwa [List.forM_cons, wp_bind] at this
    refine wp_mono hall (fun _ s' hs' => ?_) fun _ _ => id
    obtain ⟨t', w', hone, -⟩ := hs' [] List.nil_prefix
    obtain ⟨⟨t₁, w₁⟩, hact, -⟩ := bind_eq_some_iff.1 hone
    refine ⟨t₁, w₁, hact, fun pre hpre => ?_⟩
    have := hs' pre hpre
    rwa [applyActions_cons hact] at this
  · intro h pre hpre
    rcases List.prefix_cons_iff.1 hpre with rfl | ⟨pre, rfl, htail⟩
    · exact ⟨t, w, rfl, hs⟩
    · rw [List.forM_cons, wp_bind]
      refine wp_mono h (fun _ s' => ?_) fun _ _ => id
      rintro ⟨t', w', hact, hagrees⟩
      rw [applyActions_cons hact]
      exact hagrees pre htail

theorem agrees_iff : ∀ (acts : List Action) (t : Table (File φ)) (s : Child φ σ), Beside t s →
    (Agrees sys acts t s.world s ↔ Along (IfReturns Placed (round sys)) (round sys) acts s)
  | [], t, s, hs => by
    refine ⟨fun _ => trivial, fun _ pre hpre => ?_⟩
    rw [List.prefix_nil.1 hpre]
    exact ⟨t, s.world, rfl, hs.fds.inherited rfl⟩
  | act :: acts, t, s, hs => by
    rw [agrees_cons (hs.fds.inherited rfl), Along]
    by_cases hplaced : Placed s act
    · have hround := beside_round sys hs hplaced
      constructor
      · intro h
        refine ⟨wp_mono h (fun _ _ _ => hplaced) fun _ _ => id, ?_⟩
        refine wp_mono (wp_and h hround) ?_ fun _ _ _ => trivial
        rintro _ s' ⟨⟨t₁, w₁, hact, hagrees⟩, t', hact', hs'⟩
        rw [hact] at hact'
        cases hact'
        exact (agrees_iff acts t₁ s' hs').1 hagrees
      · rintro ⟨-, h⟩
        refine wp_mono (wp_and h hround) ?_ fun _ _ _ => trivial
        rintro _ s' ⟨halong, t', hact, hs'⟩
        exact ⟨t', s'.world, hact, (agrees_iff acts t' s' hs').2 halong⟩
    · -- Such a round throws, or goes astray.
      constructor
      · intro h
        have hthrows : wp (round sys act) (fun _ _ => False) (fun _ _ => True) s := by
          refine wp_mono (wp_and h (astray_round hs hplaced)) ?_ fun _ _ _ => trivial
          rintro _ s' ⟨⟨t', w', hact, hagrees⟩, hne⟩
          obtain ⟨t'', w'', heq, hvis⟩ := hagrees [] List.nil_prefix
          cases heq
          exact hne t' w' hact hvis
        exact ⟨wp_mono hthrows (fun _ _ => False.elim) fun _ _ => id,
          wp_mono hthrows (fun _ _ => False.elim) fun _ _ => id⟩
      · rintro ⟨hret, -⟩
        exact wp_mono hret (fun _ _ h => absurd h hplaced) fun _ _ => id

theorem beside_outside {β : Type} (f : σ → β × σ) :
    Keeps (Beside t) (outside f : Spawn φ σ β) fun _ => True :=
  fun _ hs => ⟨⟨hs.fds, hs.plain⟩, trivial⟩

theorem beside_prepare {desc : Desc} (h : desc.attrp.any Attr.cloexecDefault = false) :
    Keeps (Beside t) (prepare sys desc) fun _ => True := by
  unfold prepare
  cases hattr : desc.attrp with
  | none => exact Keeps.pure trivial
  | some attr =>
    refine keeps_attributes sys attr beside_outside fun hdefault => ?_
    rw [hattr, any_some, hdefault] at h
    cases h

theorem plain_map (fds : Table φ) :
    (fds.map File.user).AllFiles fun f => f.isPipeWrite = false := by
  intro i d hd
  obtain ⟨e, -, rfl⟩ := map_eq_some_iff.1 hd
  rfl

/-- After every beginning of the actions that runs through, the new program would inherit the
descriptors that the actions make of those of the caller: exactly if no action of a round that
returns names the status pipe, and every `open` of such a round asks for the lowest number that is
free. -/
theorem actions_inherited_iff (sys : Sys φ σ) (desc : Desc) (fds : Table φ) (world : σ)
    {fds' : Table (File φ)} {pipe0 pipe1 : ℕ}
    (hdefault : desc.attrp.any Attr.cloexecDefault = false)
    (hpipe : (fds.map File.user).pipe2 .pipeRead .pipeWrite = some (pipe0, pipe1, fds')) :
    wp (beforeActions sys desc pipe0) (fun _ s =>
        Agrees sys desc.actions (fds.map File.user) s.world s ↔
          Along (IfReturns Placed (round sys)) (round sys) desc.actions s)
      (fun _ _ => True) (start fds' pipe1 world) := by
  rw [beforeActions, wp_bind, closeInternal, wp_call]
  have hs := Table.With.of_pipe2 hpipe
  refine wp_mono (beside_prepare hdefault _ ⟨hs, plain_map fds⟩) ?_ fun _ _ _ => trivial
  exact fun _ s hs => agrees_iff desc.actions _ s hs.1

end Run

theorem actions_inherited_dup2 : (only ⟨1, .dup2 2⟩).attrp.any Attr.cloexecDefault = false ∧
      wp (beforeActions quietSys (only ⟨1, .dup2 2⟩) 3) (fun _ s =>
        Agrees quietSys [⟨1, .dup2 2⟩] (stdio.map File.user) s.world s) (fun _ _ => True)
        (start stdioPiped 4 ()) :=
  ⟨rfl, Iff.mpr (actions_inherited_iff quietSys (only ⟨1, .dup2 2⟩) stdio () rfl
    (show _ = some (3, 4, stdioPiped) from rfl)) ⟨⟨by decide, by simp⟩, trivial⟩⟩

/-- `open` at 5 leaves the number 3 open as well. -/
theorem actions_inherited_temporary : wp (do
        beforeActions quietSys (only ⟨5, .open 0 0 []⟩) 3
        forM [⟨5, .open 0 0 []⟩] (round quietSys))
        (fun _ s => s.fds.inherited 3 = some (.user ())) (fun _ _ => False)
        (start stdioPiped 4 ()) ∧
      (applyActions quietSys [⟨5, .open 0 0 []⟩] (stdio.map File.user) ()).map
        (fun r => r.1.inherited 3) = some none := ⟨rfl, rfl⟩

end Darling.PosixSpawn
