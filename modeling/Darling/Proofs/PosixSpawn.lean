import Darling.PosixSpawn
import Darling.Proofs.FdTable
import Darling.Proofs.Kernel

/-!
# The status pipe of `posix_spawn`

As long as no action names the number of `pipe[1]`, a single close-on-exec descriptor refers to the
writing end (`Guarded`): the new program does not inherit the pipe, and the parent reads the end of
the file, or the code of the failure.  An action that names it moves the pipe to a copy that is not
close-on-exec.
-/

namespace Darling.PosixSpawn

section Rules

variable {φ σ β : Type} {s : Child φ σ}
  {E : ℤ → Child φ σ → Prop} {bad : Prop} {ret : ℤ} {cleanup : Spawn φ σ Unit}
   {I : Child φ σ → Prop}

@[simp] theorem wp_call {Q : ℤ → Child φ σ → Prop} (f : Table (File φ) → ℤ × Table (File φ)) :
    wp (call f) Q E = fun s =>
      Q (f s.fds).1 { s with fds := (f s.fds).2, trace := s.trace ++ [(f s.fds).2] } := rfl

@[simp] theorem wp_outside {Q : β → Child φ σ → Prop} (f : σ → β × σ) :
    wp (outside f) Q E = fun s => Q (f s.world).1 { s with world := (f s.world).2 } := rfl

@[simp] theorem wp_failIf {Q : Unit → Child φ σ → Prop} [Decidable bad] :
    wp (failIf bad ret cleanup) Q E s ↔
      if bad then wp cleanup (fun _ => E ret) E s else Q () s := by
  simp [failIf]

@[simp] theorem wp_nothing {Q : Unit → Child φ σ → Prop} : wp nothing Q E = Q () := rfl

section Open

variable {Q : ℤ → Child φ σ → Prop} {E : ℤ → Child φ σ → Prop} {sys : Sys φ σ} {path : Bytes}
  {oflag : BitVec 32} {mode : ℕ} {w : σ}

theorem wp_sysOpen_error {e : ℕ+} (h : sys.openat s.world path oflag mode = (.error e, w)) :
    wp (sysOpen sys path oflag mode) Q E s ↔
      Q (fail e) { s with world := w, trace := s.trace ++ [s.fds] } := by
  simp [sysOpen, wp_bind, wp_outside, wp_call, h]

section

variable {f : φ} (h : sys.openat s.world path oflag mode = (.ok f, w))

include h

theorem wp_sysOpen_full (hlow : s.fds.lowest = none) : wp (sysOpen sys path oflag mode) Q E s ↔
      Q (-emfile) { s with world := w, trace := s.trace ++ [s.fds] } := by
  simp [sysOpen, wp_bind, wp_outside, wp_call, h, Table.alloc, hlow]

theorem wp_sysOpen_ok {n : ℕ} (hlow : s.fds.lowest = some n) :
    wp (sysOpen sys path oflag mode) Q E s ↔
      Q n ⟨s.fds.set n ⟨.user f, oCloexec oflag⟩, s.pipe, w,
        s.trace ++ [s.fds.set n ⟨.user f, oCloexec oflag⟩]⟩ := by
  simp [sysOpen, wp_bind, wp_outside, wp_call, h, Table.alloc, hlow]

end

end Open

theorem keeps_failIf [Decidable bad] (h : bad → Keeps I cleanup fun _ => True) :
    Keeps I (failIf bad ret cleanup) fun _ => ¬ bad :=
  Keeps.ite (fun hb => (h hb).bind fun _ _ => Keeps.throw ret) fun hb => Keeps.pure hb

theorem keeps_nothing : Keeps I (nothing : Spawn φ σ Unit) fun _ => True := Keeps.pure trivial

theorem keeps_onFlag {flag : Bool} {m : Spawn φ σ Unit}
    (h : flag = true → Keeps I m fun _ => True) : Keeps I (onFlag flag m) fun _ => True :=
  Keeps.ite h fun _ => Keeps.pure trivial

theorem keeps_failIf_nothing [Decidable bad] :
    Keeps I (failIf bad ret nothing : Spawn φ σ Unit) fun _ => True :=
  (keeps_failIf fun _ => keeps_nothing).mono fun _ _ => trivial

theorem keeps_setFlags {fd : ℤ} {f : BitVec 32 → BitVec 32} (hc : Keeps I cleanup fun _ => True)
    (hget : Keeps I (call fun t => (t.getfd fd, t)) fun _ => True)
    (hset : ∀ b, Keeps I (call (·.setfd fd (f b))) fun _ => True) :
    Keeps I (setFlags fd f cleanup) fun _ => True := by
  refine hget.bind fun ret _ => ?_
  refine (keeps_failIf fun _ => hc).bind fun _ _ => (hset _).bind fun ret _ => ?_
  exact (keeps_failIf fun _ => hc).mono fun _ _ => trivial

theorem keeps_perform {R : ℤ → Prop} (sys : Sys φ σ) (act : Action)
    (hout : ∀ f : σ → ℤ × σ, Keeps I (outside f) fun _ => True)
    (hclose : Keeps I (closeInternal act.filedes) fun _ => True)
    (hdup2 : ∀ newfiledes, act.kind = .dup2 newfiledes →
      Keeps I (sysDup2 act.filedes newfiledes) fun _ => True)
    (hopen : ∀ path oflag mode, Keeps I (sysOpen sys path oflag mode) R)
    (hplace : ∀ fd, R fd → Keeps I (sysDup2 fd act.filedes) fun _ => True)
    (hundo : ∀ fd, R fd → Keeps I (closeInternal fd) fun _ => True)
    (hflags : Keeps I (setFlags act.filedes (· &&& ~~~fdCloexec) nothing) fun _ => True) :
    Keeps I (perform sys act) fun _ => True := by
  unfold perform
  cases hkind : act.kind with
  | «open» oflag mode path =>
    refine (hopen path oflag mode).bind fun fd hfd => ?_
    refine keeps_failIf_nothing.bind fun _ _ => Keeps.ite (fun _ => ?_) fun _ => Keeps.pure trivial
    refine (hplace fd hfd).bind fun ret _ => ?_
    refine (keeps_failIf fun _ => ?_).mono fun _ _ => trivial
    exact (hundo fd hfd).bind fun _ _ => Keeps.pure trivial
  | close => exact hclose.bind fun _ _ => keeps_failIf_nothing
  | dup2 newfiledes => exact (hdup2 newfiledes hkind).bind fun _ _ => keeps_failIf_nothing
  | inherit => exact hflags
  | chdir path => exact (hout _).bind fun _ _ => keeps_failIf_nothing
  | fchdir => exact Keeps.get.bind fun _ _ => (hout _).bind fun _ _ => keeps_failIf_nothing
  | other type => exact Keeps.pure trivial

theorem keeps_attributes (sys : Sys φ σ) (attr : Attr)
    (hout : ∀ {β : Type} (f : σ → β × σ), Keeps I (outside f) fun _ => True)
    (hcloexec : attr.cloexecDefault = true → Keeps I (cloexecDefault sys) fun _ => True) :
    Keeps I (attributes sys attr) fun _ => True := by
  have hcheck : ∀ f : σ → ℤ × σ, Keeps I
      (do let ret ← outside f; failIf (ret ≠ 0) ret nothing : Spawn φ σ Unit) fun _ => True :=
    fun f => (hout f).bind fun _ _ => keeps_failIf_nothing
  refine (keeps_onFlag fun _ => hout _).bind fun _ _ => ?_
  refine (keeps_onFlag fun _ => hcheck _).bind fun _ _ => ?_
  refine (keeps_onFlag fun _ => hcheck _).bind fun _ _ => ?_
  refine (keeps_onFlag fun _ => hout _).bind fun _ _ => ?_
  refine (keeps_onFlag fun _ => hout _).bind fun _ _ => ?_
  exact keeps_onFlag hcloexec

end Rules

section Guarded

variable {φ σ : Type}

/-- The descriptor `p` is `pipe[1]` and the only one of the writing end, and it is close-on-exec;
and one descriptor has been so in every table so far. -/
structure Guarded (p : ℤ) (s : Child φ σ) : Prop where
  pipe : s.pipe = p
  sole : s.fds.Sole File.isPipeWrite p
  trace : ∀ t ∈ s.trace, ∃ q, t.Sole File.isPipeWrite q

variable {p : ℤ} {s : Child φ σ}

theorem Guarded.call (h : Guarded p s) {t : Table (File φ)} (ht : t.Sole File.isPipeWrite p) :
    Guarded p { s with fds := t, trace := s.trace ++ [t] } := by
  refine ⟨h.pipe, ht, fun t' ht' => ?_⟩
  rcases List.mem_append.1 ht' with hmem | hmem
  · exact h.trace t' hmem
  · rw [List.mem_singleton.1 hmem]
    exact ⟨p, ht⟩

theorem guarded_call {f : Table (File φ) → ℤ × Table (File φ)}
    (h : ∀ t, t.Sole File.isPipeWrite p → (f t).2.Sole File.isPipeWrite p) :
    Keeps (Guarded p) (call f : Spawn φ σ ℤ) fun _ => True :=
  fun s hs => ⟨hs.call (h s.fds hs.sole), trivial⟩

theorem guarded_outside {β : Type} (f : σ → β × σ) :
    Keeps (Guarded p) (outside f : Spawn φ σ β) fun _ => True :=
  fun _ hs => ⟨⟨hs.pipe, hs.sole, hs.trace⟩, trivial⟩

variable {fd : ℤ}

theorem guarded_closeInternal (h : fd ≠ p) :
    Keeps (Guarded p) (closeInternal fd : Spawn φ σ ℤ) fun _ => True :=
  guarded_call fun _ ht => ht.close h

theorem guarded_sysDup2 {fdTo : ℤ} (h : fd ≠ p) (hto : fdTo ≠ p) :
    Keeps (Guarded p) (sysDup2 fd fdTo : Spawn φ σ ℤ) fun _ => True :=
  guarded_call fun _ ht => ht.dup2 h hto

variable (sys : Sys φ σ)

theorem guarded_sysOpen (path : Bytes) (oflag : BitVec 32) (mode : ℕ) :
    Keeps (Guarded p) (sysOpen sys path oflag mode) (· ≠ p) := by
  refine (guarded_outside _).bind fun opened _ s hs => ?_
  rw [wp_call]
  cases opened with
  | error e =>
    have := hs.sole.nonneg
    have := fail_neg e
    exact ⟨hs.call hs.sole, show fail e ≠ p by omega⟩
  | ok f =>
    obtain ⟨hne, halloc⟩ := hs.sole.alloc (d := ⟨.user f, oCloexec oflag⟩) rfl
    exact ⟨hs.call halloc, hne⟩

theorem guarded_setFlags {f : BitVec 32 → BitVec 32} {cleanup : Spawn φ σ Unit}
    (hc : Keeps (Guarded p) cleanup fun _ => True) (hf : fd = p → ∀ b, (f b).getLsbD 0 = true) :
    Keeps (Guarded p) (setFlags fd f cleanup) fun _ => True :=
  keeps_setFlags hc (guarded_call fun _ ht => ht)
    fun b => guarded_call fun _ ht => ht.setfd fun h => hf h b

theorem guarded_perform {act : Action} (h : ¬ Names p act) :
    Keeps (Guarded p) (perform sys act) fun _ => True := by
  obtain ⟨hfd, hto⟩ := not_or.1 h
  refine keeps_perform sys act guarded_outside (guarded_closeInternal hfd)
    (fun newfiledes hkind => guarded_sysDup2 hfd fun heq => hto (heq ▸ hkind))
    (guarded_sysOpen sys) (fun _ hne => guarded_sysDup2 hne hfd)
    (fun _ hne => guarded_closeInternal hne) ?_
  exact guarded_setFlags keeps_nothing fun heq => absurd heq hfd

/-- The action names the pipe only where no descriptor is free. -/
def Apart (s : Child φ σ) (act : Action) : Prop := Names s.pipe act → s.fds.lowest = none

theorem guarded_round (s : Child φ σ) (act : Action) (hs : Guarded p s)
    (h : Apart s act) : wp (round sys act) (fun _ => Guarded p) (fun _ => Guarded p) s := by
  obtain rfl := hs.pipe
  rw [round, wp_bind, movePipe]
  simp only [wp_bind, wp_get, wp_ite, wp_pure]
  split_ifs with hnames
  · obtain ⟨f, hf, -⟩ := hs.sole.held
    simp only [sysDup, wp_call, wp_failIf, Table.dup, hf, Table.alloc, h hnames]
    rw [if_pos (by decide)]
    exact hs.call hs.sole
  · exact wp_mono (guarded_perform sys hnames s hs) (fun _ _ h => h.1) fun _ _ => id

theorem guarded_cloexecDefault : Keeps (Guarded p) (cloexecDefault sys) fun _ => True := by
  refine (guarded_sysOpen sys procSelfFd 0 0).bind fun dir hdir => ?_
  have hclose : Keeps (Guarded p) (closeInternal dir : Spawn φ σ ℤ) fun _ => True :=
    guarded_closeInternal hdir
  refine keeps_failIf_nothing.bind fun _ _ => Keeps.get.bind fun s _ => ?_
  refine (Keeps.forM _ fun fd _ => Keeps.ite (fun _ => Keeps.pure trivial) fun _ => ?_).bind
    fun _ _ => hclose.bind fun _ _ => ?_
  · refine guarded_setFlags (hclose.bind fun _ _ => Keeps.pure trivial) fun _ b => ?_
    simp [fdCloexec]
  · split
    · exact Keeps.pure trivial
    · exact Keeps.throw _

theorem guarded_prepare (desc : Desc) : Keeps (Guarded p) (prepare sys desc) fun _ => True := by
  unfold prepare
  cases desc.attrp with
  | none => exact Keeps.pure trivial
  | some attr => exact keeps_attributes sys attr guarded_outside fun _ => guarded_cloexecDefault sys

end Guarded

section Exposed

variable {φ σ : Type} {t : Table (File φ)}

theorem mem_call (f : Table (File φ) → ℤ × Table (File φ)) :
    Keeps (fun s => t ∈ s.trace) (call f : Spawn φ σ ℤ) fun _ => True :=
  fun _ hs => ⟨List.mem_append_left _ hs, trivial⟩

theorem mem_outside {β : Type} (f : σ → β × σ) :
    Keeps (fun s => t ∈ s.trace) (outside f : Spawn φ σ β) fun _ => True :=
  fun _ hs => ⟨hs, trivial⟩

variable (sys : Sys φ σ)

theorem mem_perform (act : Action) :
    Keeps (fun s => t ∈ s.trace) (perform sys act) fun _ => True := by
  refine keeps_perform (R := fun _ => True) sys act mem_outside (mem_call _)
    (fun _ _ => mem_call _) (fun _ _ _ => ?_) (fun _ _ => mem_call _) (fun _ _ => mem_call _) ?_
  · exact (mem_outside _).bind fun _ _ => mem_call _
  · exact keeps_setFlags keeps_nothing (mem_call _) fun _ => mem_call _

theorem mem_round (act : Action) : Keeps (fun s => t ∈ s.trace) (round sys act) fun _ => True := by
  have hmove : Keeps (fun s => t ∈ s.trace) (movePipe act : Spawn φ σ Unit) fun _ => True := by
    refine Keeps.get.bind fun s _ => Keeps.ite (fun _ => ?_) fun _ => Keeps.pure trivial
    refine (mem_call _).bind fun _ _ => keeps_failIf_nothing.bind fun _ _ => ?_
    exact (mem_call _).bind fun _ _ => fun _ hs => ⟨hs, trivial⟩
  exact hmove.bind fun _ _ => mem_perform sys act

theorem exposed_round {p : ℤ} {s : Child φ σ} {act : Action} {n : ℕ} (hs : Guarded p s)
    (hnames : Names s.pipe act) (hfree : s.fds.lowest = some n) :
    ∃ t, (∀ q, ¬ t.Sole File.isPipeWrite q) ∧
      wp (round sys act) (fun _ s' => t ∈ s'.trace) (fun _ s' => t ∈ s'.trace) s := by
  obtain ⟨f, hf, hw⟩ := hs.sole.held
  rw [← hs.pipe] at hf
  refine ⟨s.fds.set n ⟨f, false⟩, Table.not_sole_set hw, ?_⟩
  rw [round, wp_bind, movePipe]
  simp only [wp_bind, wp_get, wp_ite]
  rw [if_pos hnames]
  simp only [sysDup, wp_call, wp_failIf, Table.dup, hf, Table.alloc, hfree]
  rw [if_neg (by omega)]
  simp only [closeInternal, wp_call, wp_modify]
  refine wp_mono (mem_perform sys act _ ?_) (fun _ _ h => h.1) fun _ _ => id
  simp

theorem along_of_trace (sys : Sys φ σ) {p : ℤ} : ∀ (acts : List Action) (s : Child φ σ),
    Guarded p s →
      wp (forM acts (round sys)) (fun _ s' => ∀ t ∈ s'.trace, ∃ q, t.Sole File.isPipeWrite q)
        (fun _ s' => ∀ t ∈ s'.trace, ∃ q, t.Sole File.isPipeWrite q) s →
      Along Apart (round sys) acts s
  | [], _, _, _ => trivial
  | act :: acts, s, hs, h => by
    rw [List.forM_cons, wp_bind] at h
    have hapart : Apart s act := by
      intro hnames
      by_contra hfree
      obtain ⟨n, hn⟩ := Option.ne_none_iff_exists'.1 hfree
      obtain ⟨t, ht, hround⟩ := exposed_round sys hs hnames hn
      refine not_wp_false (wp_mono (wp_and h hround) ?_ ?_)
      · rintro _ s' ⟨hloop, hmem⟩
        refine not_wp_false (wp_mono (wp_and hloop
          (Keeps.forM acts (fun act _ => mem_round sys act) s' hmem)) ?_ ?_)
        · exact fun _ _ h' => (h'.1 t h'.2.1).elim ht
        · exact fun _ _ h' => (h'.1 t h'.2).elim ht
      · exact fun _ _ h' => (h'.1 t h'.2).elim ht
    refine ⟨hapart, wp_mono (wp_and h (guarded_round sys s act hs hapart)) ?_ fun _ _ _ => trivial⟩
    exact fun _ s' h' => along_of_trace sys acts s' h'.2 h'.1

end Exposed

section Parent

variable {φ σ : Type} {sys : Sys φ σ} {desc : Desc}

def beforeActions (sys : Sys φ σ) (desc : Desc) (pipe0 : ℤ) : Spawn φ σ Unit := do
  let _ ← closeInternal pipe0
  prepare sys desc

theorem wp_execve {Q : Child φ σ → Prop} : wp (execve sys) (fun _ => Q) (fun _ => Q) = Q := by
  funext s
  rw [execve, wp_bind, wp_get]
  simp only
  split <;> rfl

variable {s : Child φ σ} {p : ℤ}

theorem wp_child {Q : Child φ σ → Prop} {pipe0 : ℤ} :
    wp (child sys desc pipe0) (fun _ => Q) (fun _ => Q) s ↔
      wp (beforeActions sys desc pipe0)
        (fun _ => wp (forM desc.actions (round sys)) (fun _ => Q) fun _ => Q) (fun _ => Q) s := by
  simp [child, spawn, beforeActions, wp_bind, wp_execve]

theorem guarded_beforeActions (sys : Sys φ σ) (desc : Desc) {pipe0 : ℤ} (h : pipe0 ≠ p) :
    Keeps (Guarded p) (beforeActions sys desc pipe0) fun _ => True :=
  (guarded_closeInternal h).bind fun _ _ => guarded_prepare sys desc

theorem parentReads_ok (h : Guarded p s) : parentReads (.ok () s) = some 0 := by
  rw [parentReads, h.sole.inheritsAny]
  rfl

theorem parentReads_error {ret : ℤ} (h : Guarded p s) : parentReads (.error ret s) = some ret := by
  obtain ⟨f, hf, hw⟩ := h.sole.held
  rw [parentReads, h.pipe, hf]
  simp [hw]

theorem sysPosixSpawn_fork {errno : ℕ → ℕ} {fds fds' : Table (File φ)} {world : σ}
    {pipe0 pipe1 pid : ℕ} (hfork : sys.fork world = .ok pid) (hexec : desc.setexec = false)
    (hpipe : fds.pipe2 .pipeRead .pipeWrite = some (pipe0, pipe1, fds')) :
    (sysPosixSpawn sys errno desc fds world).1
      = parentReads (child sys desc pipe0 (start fds' pipe1 world)) := by
  rw [sysPosixSpawn, if_neg (by simp [hexec])]
  simp only [hpipe, hfork]
  split <;> rename_i h <;> exact h.symm

/-- In every state of the child one close-on-exec descriptor, and no other, refers to the writing
end of the status pipe, the call returns 0 when the new program runs, and the code of the failure
otherwise: exactly if no action that is reached names the number of the pipe while there is another
one to move it to. -/
theorem sysPosixSpawn_pipe_iff (sys : Sys φ σ) (errno : ℕ → ℕ) (desc : Desc) (fds : Table φ)
    (world : σ) {fds' : Table (File φ)} {pipe0 pipe1 pid : ℕ} (hexec : desc.setexec = false)
    (hpipe : (fds.map File.user).pipe2 .pipeRead .pipeWrite = some (pipe0, pipe1, fds'))
    (hfork : sys.fork world = .ok pid) :
    wp (child sys desc pipe0)
        (fun _ s => (∀ t ∈ s.trace, ∃ p, t.Sole File.isPipeWrite p) ∧
          (sysPosixSpawn sys errno desc (fds.map File.user) world).1 = some 0)
        (fun ret s => (∀ t ∈ s.trace, ∃ p, t.Sole File.isPipeWrite p) ∧
          (sysPosixSpawn sys errno desc (fds.map File.user) world).1 = some ret)
        (start fds' pipe1 world) ↔
      wp (beforeActions sys desc pipe0) (fun _ => Along Apart (round sys) desc.actions)
        (fun _ _ => True) (start fds' pipe1 world) := by
  have hsole : fds'.Sole File.isPipeWrite pipe1 :=
    Table.Sole.of_pipe2 hpipe (fun i d hd => by
      obtain ⟨e, -, rfl⟩ := Option.map_eq_some_iff.1 hd
      rfl) rfl rfl
  have hstart : Guarded pipe1 (start fds' pipe1 world) :=
    ⟨rfl, hsole, fun t ht => ⟨pipe1, by rwa [List.mem_singleton.1 ht]⟩⟩
  have hne : (pipe0 : ℤ) ≠ pipe1 := by
    have := (Table.pipe2_spec hpipe).2.2.1
    omega
  have hbefore := guarded_beforeActions sys desc hne _ hstart
  rw [sysPosixSpawn_fork hfork hexec hpipe]
  constructor
  · intro h
    have hall := wp_child.1 (wp_mono h (fun _ _ h' => h'.1) fun _ _ h' => h'.1)
    refine wp_mono (wp_and hbefore hall) (fun _ s h' => ?_) fun _ _ _ => trivial
    exact along_of_trace sys desc.actions s h'.1.1 h'.2
  · intro h
    have hall := wp_child.2 (wp_mono (wp_and hbefore h) (fun _ s h' =>
      wp_forM_of_along (guarded_round sys) desc.actions s h'.1.1 h'.2) fun _ _ h' => h'.1)
    unfold wp at hall ⊢
    cases hrun : child sys desc pipe0 (start fds' pipe1 world) with
    | ok b s =>
      rw [hrun] at hall
      exact ⟨hall.trace, parentReads_ok hall⟩
    | error ret s =>
      rw [hrun] at hall
      exact ⟨hall.trace, parentReads_error hall⟩

end Parent

section Samples

def quietSys : Sys Unit Unit where
  openat _ _ _ _ := (.ok (), ())
  chdir _ _ := (0, ())
  fchdir _ _ := (0, ())
  setids := id
  setpgid _ _ := (0, ())
  sigprocmask _ _ := (0, ())
  personality := id
  stopAfterExec := id
  getdents _ := none
  execve _ := none
  fork _ := .ok 7

def stdio : Table Unit where
  limit := 8
  size := 3
  get fd := if 0 ≤ fd ∧ fd < 3 then some ⟨(), false⟩ else none
  get_neg fd h := if_neg (by omega)
  get_size fd h := if_neg (by omega)

def stdioPiped : Table (File Unit) :=
  ((stdio.map File.user).set 3 ⟨.pipeRead, true⟩).set 4 ⟨.pipeWrite, true⟩

def only (act : Action) : Desc := ⟨none, some [act]⟩

theorem sysPosixSpawn_pipe_dup2 : (only ⟨1, .dup2 2⟩).setexec = false ∧
      (sysPosixSpawn quietSys id (only ⟨1, .dup2 2⟩) (stdio.map File.user) ()).1 = some 0 :=
  ⟨rfl, And.right ((sysPosixSpawn_pipe_iff quietSys id (only ⟨1, .dup2 2⟩) stdio () rfl
    (show _ = some (3, 4, stdioPiped) from rfl) rfl).2 ⟨fun h => absurd h (by decide), trivial⟩)⟩

/-- An action that wants the number of the pipe: the new program runs and holds the writing end, and
the call does not return. -/
theorem sysPosixSpawn_pipe_inherited :
    wp (child quietSys (only ⟨1, .dup2 4⟩) 3) (fun _ s => s.fds.inherited 3 = some .pipeWrite)
        (fun _ _ => False) (start stdioPiped 4 ()) ∧
      (sysPosixSpawn quietSys id (only ⟨1, .dup2 4⟩) (stdio.map File.user) ()).1 = none :=
  ⟨rfl, rfl⟩

end Samples

end Darling.PosixSpawn
