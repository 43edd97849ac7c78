import Darling.XtraceLock

/-!
# The lock and the once of xtrace

A thread that sleeps on the lock fell asleep while the word said that it is contended.  Whoever
takes that away wakes a thread, and a thread that is awake marks the lock again before it owns it or
sleeps (`run_live`).  The word of a once-object only grows: one thread runs the callback, and nobody
returns before it is `completed` (`run_sound`).
-/

namespace Darling

open Futex
open Thread (awake)

namespace XtraceLock

variable {ι : Type}

/-- The thread has found the lock taken and has still to mark it as contended. -/
def Pc.InLoop : Pc → Bool
  | contend | wait | retry => true
  | _ => false

/-- A thread is about to wake another, or is awake in the loop. -/
def Pending (s : State ι) : Prop :=
  (∃ u, s.thread u = .awake .wake) ∨ ∃ u p, s.thread u = .awake p ∧ p.InLoop

/-- The threads exclude each other, and no wake-up is lost. -/
structure Live [DecidableEq ι] [Fintype ι] (s : State ι) : Prop where
  mutex : ∀ t u, s.thread t = .awake .critical → s.thread u = .awake .critical → t = u
  woken : ∀ t q i, s.thread t = .asleep q i → s.mem = .lockedContended ∨ Pending s
  /-- A thread in the loop owns the lock or sleeps only with the lock marked as contended. -/
  marks : ∀ u p a, s.thread u = .awake p → p.InLoop →
    (∃ p', (lock.step s a).thread u = .awake p' ∧ p'.InLoop) ∨
      (lock.step s a).mem = .lockedContended
  /-- The lock is not free with all its lockers asleep and no wake-up coming. -/
  progress : s.mem = .unlocked → ∀ t q i, s.thread t = .asleep q i → Pending s

/-- What every step of the lock keeps. -/
structure Inv (s : State ι) : Prop where
  mutex : ∀ t u, s.thread t = .awake .critical → s.thread u = .awake .critical → t = u
  held : ∀ t, s.thread t = .awake .critical → s.mem ≠ .unlocked
  resumes : ∀ t q i, s.thread t = .asleep q i → q = .retry
  woken : ∀ t q i, s.thread t = .asleep q i → s.mem = .lockedContended ∨ Pending s

variable [DecidableEq ι] {s s' : State ι} {t : ι} {p p' : Pc} {m : LockState}

theorem Pending.of_loop (hp : p'.InLoop) : Pending (s.set t (.awake p')) :=
  .inr ⟨t, p', set_thread_self, hp⟩

/-- A step keeps what is pending, unless it was the thread itself. -/
theorem Pending.set (h : Pending s) (hp : s.thread t = .awake p)
    (hp' : p = .wake ∨ p.InLoop → p' = .wake ∨ p'.InLoop) :
    Pending ({ s with mem := m }.set t (.awake p')) := by
  have hself : (State.set { s with mem := m } t (.awake p')).thread t = .awake p' :=
    set_thread_self
  have hown : p = .wake ∨ p.InLoop → Pending ({ s with mem := m }.set t (.awake p')) := fun h =>
    (hp' h).elim (fun he => .inl ⟨t, he ▸ hself⟩) fun he => .inr ⟨t, p', hself, he⟩
  rcases h with ⟨u, hu⟩ | ⟨u, q, hu, hq⟩
  · by_cases ht : u = t
    · rw [ht, hp] at hu
      exact hown (.inl (awake.inj hu))
    · exact .inl ⟨u, set_thread_iff.2 (.inr ⟨ht, hu⟩)⟩
  · by_cases ht : u = t
    · rw [ht, hp] at hu
      exact hown (.inr (awake.inj hu ▸ hq))
    · exact .inr ⟨u, q, set_thread_iff.2 (.inr ⟨ht, hu⟩), hq⟩

/-- An access to the word that does not give the lock away twice. -/
theorem Inv.atomic (h : Inv s) (hp : s.thread t = .awake p)
    (hcritical : p' = .critical → s.mem = .unlocked ∧ m ≠ .unlocked)
    (hunlock : m = .unlocked → p = .critical ∨ s.mem = .unlocked)
    (hmem : s.mem = .lockedContended → m = .lockedContended ∨ p' = .wake)
    (hloop : p = .wake ∨ p.InLoop → p'.InLoop ∨ m = .lockedContended) :
    Inv ({ s with mem := m }.set t (.awake p')) := by
  have hnone : s.mem = .unlocked → ∀ u, s.thread u ≠ .awake .critical :=
    fun hfree u hu => h.held u hu hfree
  refine ⟨fun u v hu hv => ?_, fun u hu => ?_,
    fun u q i hu => h.resumes u q i (thread_of_set hu (by simp)), fun u q i hu => ?_⟩
  · rcases set_thread_iff.1 hu with ⟨hut, he⟩ | ⟨-, hu'⟩ <;>
      rcases set_thread_iff.1 hv with ⟨hvt, he'⟩ | ⟨-, hv'⟩
    · rw [hut, hvt]
    · exact absurd hv' (hnone (hcritical (awake.inj he)).1 v)
    · exact absurd hu' (hnone (hcritical (awake.inj he')).1 u)
    · exact h.mutex u v hu' hv'
  · change m ≠ .unlocked
    rcases set_thread_iff.1 hu with ⟨rfl, he⟩ | ⟨hut, hu⟩
    · exact (hcritical (awake.inj he)).2
    · intro hm
      rcases hunlock hm with hcrit | hfree
      · exact hut (h.mutex u t hu (hp.trans (congrArg _ hcrit)))
      · exact hnone hfree u hu
  · replace hu := thread_of_set hu (by simp)
    by_cases hm : m = .lockedContended
    · exact .inl hm
    right
    rcases h.woken u q i hu with hcont | hpend
    · exact .inl ⟨t, set_thread_iff.2 (.inl ⟨rfl, by rw [(hmem hcont).resolve_left hm]⟩)⟩
    · exact hpend.set hp fun hpl => .inr ((hloop hpl).resolve_right hm)

theorem Inv.awaken (h : Inv s) : Inv (s.set t (.awake .retry)) := by
  have hcritical : ∀ u, (s.set t (.awake .retry)).thread u = .awake .critical →
      s.thread u = .awake .critical := fun u hu =>
    thread_of_set hu (by simp)
  refine ⟨fun u v hu hv => h.mutex u v (hcritical u hu) (hcritical v hv),
    fun u hu => h.held u (hcritical u hu),
    fun u q i hu => h.resumes u q i (thread_of_set hu (by simp)),
    fun _ _ _ _ => .inr (.of_loop rfl)⟩

theorem Inv.sleep (h : Inv s) (hmem : s.mem = .lockedContended) :
    Inv (s.set t (.asleep .retry false)) := by
  have hcritical : ∀ u, (s.set t (.asleep .retry false)).thread u = .awake .critical →
      s.thread u = .awake .critical := fun u hu =>
    thread_of_set hu (by simp)
  refine ⟨fun u v hu hv => h.mutex u v (hcritical u hu) (hcritical v hv),
    fun u hu => h.held u (hcritical u hu), fun u q i hu => ?_, fun _ _ _ _ => .inl hmem⟩
  rcases set_thread_iff.1 hu with ⟨-, he⟩ | ⟨-, hu⟩
  · exact (Thread.asleep.inj he).1.symm
  · exact h.resumes u q i hu

variable [Fintype ι]

theorem Inv.wake (h : Inv s) (hp : s.thread t = .awake .wake) {woken : Finset ι}
    (hwoken : woken ⊆ s.sleepers) (hcard : woken.card = min 1 s.sleepers.card) :
    Inv ((s.wakeUp woken).set t (.awake .outside)) := by
  have hcritical : ∀ u, ((s.wakeUp woken).set t (.awake .outside)).thread u = .awake .critical →
      s.thread u = .awake .critical := by
    intro u hu
    replace hu := thread_of_set hu (by simp)
    refine (wakeUp_eq_awake hu).resolve_right ?_
    rintro ⟨i, hi⟩
    exact nomatch h.resumes u _ i hi
  have hasleep : ∀ u q i, ((s.wakeUp woken).set t (.awake .outside)).thread u = .asleep q i →
      ∃ i', s.thread u = .asleep q i' := fun u q i hu =>
    (wakeUp_eq_asleep (thread_of_set hu (by simp))).2
  refine ⟨fun u v hu hv => h.mutex u v (hcritical u hu) (hcritical v hv),
    fun u hu => h.held u (hcritical u hu), fun u q i hu => ?_, fun u q i hu => .inr (.inr ?_)⟩
  · obtain ⟨i', hi'⟩ := hasleep u q i hu
    exact h.resumes u q i' hi'
  · obtain ⟨i', hi'⟩ := hasleep u q i hu
    obtain ⟨v, hv⟩ := exists_woken one_pos (mem_sleepers.2 ⟨q, i', hi'⟩) hcard
    obtain ⟨r, j, hr⟩ := mem_sleepers.1 (hwoken hv)
    have hvt : v ≠ t := by
      rintro rfl
      rw [hp] at hr
      cases hr
    refine ⟨v, .retry, set_thread_iff.2 (.inr ⟨hvt, ?_⟩), rfl⟩
    rw [wakeUp_of_mem hr hv, h.resumes v r j hr]

theorem Inv.moves (h : Inv s) (hm : lock.Moves s s') : Inv s' := by
  cases hm with
  | @atomic t p f hp hop =>
    cases p with
    | outside | contend | retry | critical =>
      obtain rfl := Op.atomic.inj hop
      rcases hs : s.mem <;> refine h.atomic hp ?_ ?_ ?_ ?_ <;> simp [cmpxchg, body, hs, Pc.InLoop]
    | wait | wake => cases hop
  | @sleep t p q hp hop =>
    cases p with
    | wait =>
      obtain ⟨hword, rfl⟩ := Op.wait.inj hop
      exact h.sleep hword.symm
    | _ => cases hop
  | @refused t p q expected hp hop hword =>
    cases p with
    | wait =>
      obtain ⟨rfl, rfl⟩ := Op.wait.inj hop
      exact h.awaken
    | _ => cases hop
  | @wake t p q count woken hp hop hwoken hcard =>
    cases p with
    | wake =>
      obtain ⟨rfl, rfl⟩ := Op.wake.inj hop
      exact h.wake hp hwoken hcard
    | _ => cases hop
  | @spurious t q issued hp =>
    obtain rfl := h.resumes t q issued hp
    exact h.awaken

/-- A thread leaves the loop only with the word marked as contended. -/
theorem loop_moves (hm : lock.Moves s s') {u : ι} (hu : s.thread u = .awake p) (hp : p.InLoop) :
    (∃ p', s'.thread u = .awake p' ∧ p'.InLoop) ∨ s'.mem = .lockedContended := by
  have hother : ∀ {s₁ : State ι} {t th}, s₁.thread u = .awake p → u ≠ t →
      ∃ p', (s₁.set t th).thread u = .awake p' ∧ p'.InLoop := fun h₁ hut =>
    ⟨p, set_thread_iff.2 (.inr ⟨hut, h₁⟩), hp⟩
  cases hm with
  | @atomic t q f hq hop =>
    by_cases hut : u = t
    · subst hut
      obtain rfl : q = p := awake.inj (hq.symm.trans hu)
      cases q with
      | contend =>
        obtain rfl := Op.atomic.inj hop
        refine .inl ⟨_, set_thread_self, ?_⟩
        dsimp only
        split_ifs <;> rfl
      | retry =>
        obtain rfl := Op.atomic.inj hop
        rcases hs : s.mem
        · exact .inr rfl
        · exact .inl ⟨_, set_thread_self, rfl⟩
        · exact .inl ⟨_, set_thread_self, rfl⟩
      | wait => cases hop
      | _ => cases hp
    · exact .inl (hother hu hut)
  | @sleep t q r hq hop =>
    cases q with
    | wait => exact .inr (Op.wait.inj hop).1.symm
    | _ => cases hop
  | @refused t q r expected hq hop hword =>
    by_cases hut : u = t
    · cases q with
      | wait =>
        obtain ⟨-, rfl⟩ := Op.wait.inj hop
        exact .inl ⟨_, set_thread_iff.2 (.inl ⟨hut, rfl⟩), rfl⟩
      | _ => cases hop
    · exact .inl (hother hu hut)
  | @wake t q r count woken hq hop hwoken hcard =>
    refine .inl (hother (wakeUp_of_awake hu) ?_)
    rintro rfl
    obtain rfl : q = p := awake.inj (hq.symm.trans hu)
    cases q with
    | wake => cases hp
    | _ => cases hop
  | @spurious t q issued hq =>
    refine .inl (hother hu ?_)
    rintro rfl
    rw [hu] at hq
    cases hq

theorem Inv.live (h : Inv s) : Live s where
  mutex := h.mutex
  woken := h.woken
  marks u p a hu hp := by
    rcases lock.step_moves s a with he | hm
    · exact .inl ⟨p, he.symm ▸ hu, hp⟩
    · exact loop_moves hm hu hp
  progress hfree t q i ht := by
    refine (h.woken t q i ht).resolve_left ?_
    rw [hfree]
    nofun

omit [DecidableEq ι] [Fintype ι] in
theorem inv_start : Inv (start : State ι) := ⟨nofun, nofun, nofun, nofun⟩

/-- Any number of threads that lock and unlock in any order exclude each other and lose no
wake-up. -/
theorem run_live (as : List (Action ι)) : EachState lock.step Live (start : State ι) as :=
  lock.eachState_of_moves (fun _ _ h hm => h.moves hm) (fun _ h => h.live) inv_start as

end XtraceLock

namespace XtraceOnce

variable {ι : Type}

/-- The callback has run at most once, and before any call has returned. -/
structure Sound (s : State ι) : Prop where
  started : s.mem.started ≤ 1
  /-- A call returns only after the callback has run, once. -/
  returned : ∀ t, s.thread t = .awake .returned → s.mem.started = 1 ∧ s.mem.finished = 1
  woken : s.mem.state = .completed → ∀ t q i, s.thread t = .asleep q i →
    (∃ u, s.thread u = .awake .wake) ∨ i = true

/-- The thread was chosen to run the callback. -/
def Pc.Runner : Pc → Bool
  | call | callback | publish => true
  | _ => false

/-- The callback has been started, or is about to be. -/
def OnceState.Triggered : OnceState → Bool
  | triggeredUncontended | triggeredContended => true
  | _ => false

/-- What the place of a thread says about the once-object. -/
def Knows (m : Memory) : Pc → Prop
  | .call => m.state.Triggered ∧ m.started = 0 ∧ m.finished = 0
  | .callback => m.state.Triggered ∧ m.started = 1 ∧ m.finished = 0
  | .publish => m.state.Triggered ∧ m.started = 1 ∧ m.finished = 1
  | .wake | .returned => m.state = .completed
  | _ => True

/-- The callback runs between `triggered` and `completed`. -/
structure Memory.Ok (m : Memory) : Prop where
  started : m.started ≤ 1
  untriggered : m.state = .untriggered → m.started = 0 ∧ m.finished = 0
  completed : m.state = .completed → m.started = 1 ∧ m.finished = 1

/-- What every step of the once-object keeps. -/
structure Inv (s : State ι) : Prop where
  mem : s.mem.Ok
  knows : ∀ t p, s.thread t = .awake p → Knows s.mem p
  runner : ∀ t u p q, s.thread t = .awake p → s.thread u = .awake q → p.Runner → q.Runner → t = u
  resumes : ∀ t q i, s.thread t = .asleep q i → q = .load
  woken : ∀ t q, s.thread t = .asleep q false →
    s.mem.state = .triggeredContended ∨ ∃ u, s.thread u = .awake .wake

theorem Knows.triggered {m : Memory} {p : Pc} (h : Knows m p) (hp : p.Runner) :
    m.state.Triggered := by
  cases p with
  | call | callback | publish => exact h.1
  | _ => cases hp

theorem Inv.sound {s : State ι} (h : Inv s) : Sound s where
  started := h.mem.started
  returned t ht := h.mem.completed (h.knows t _ ht)
  woken hs t q i ht := by
    cases i with
    | true => exact .inr rfl
    | false =>
      refine .inl ((h.woken t q ht).resolve_left ?_)
      rw [hs]
      nofun

variable [DecidableEq ι] {s s' : State ι} {t : ι} {p p' : Pc} {m : Memory}

theorem Inv.atomic (h : Inv s) (hp : s.thread t = .awake p) (hne : p ≠ .wake) (hmem : m.Ok)
    (hself : Knows m p') (hother : ∀ q, (q.Runner → ¬ p.Runner) → Knows s.mem q → Knows m q)
    (hrunner : p'.Runner → p.Runner ∨ s.mem.state = .untriggered)
    (hwoken : s.mem.state = .triggeredContended → m.state = .triggeredContended ∨ p' = .wake) :
    Inv ({ s with mem := m }.set t (.awake p')) := by
  have hsole : ∀ u q, u ≠ t → s.thread u = .awake q → q.Runner → ¬ p.Runner :=
    fun u q hut hu hq hpr => hut (h.runner u t q p hu hp hq hpr)
  have hnew : ∀ u q, u ≠ t → s.thread u = .awake q → q.Runner → ¬ p'.Runner := by
    intro u q hut hu hq hpr
    rcases hrunner hpr with hpr | hfree
    · exact hsole u q hut hu hq hpr
    · have htrig := (h.knows u q hu).triggered hq
      rw [hfree] at htrig
      cases htrig
  refine ⟨hmem, fun u q hu => ?_, fun u v q r hu hv hq hr => ?_,
    fun u q i hu => h.resumes u q i (thread_of_set hu (by simp)), fun u q hu => ?_⟩
  · rcases set_thread_iff.1 hu with ⟨-, he⟩ | ⟨hut, hu⟩
    · exact awake.inj he ▸ hself
    · exact hother q (hsole u q hut hu) (h.knows u q hu)
  · rcases set_thread_iff.1 hu with ⟨hut, he⟩ | ⟨hut, hu'⟩ <;>
      rcases set_thread_iff.1 hv with ⟨hvt, he'⟩ | ⟨hvt, hv'⟩
    · rw [hut, hvt]
    · exact absurd (awake.inj he ▸ hq) (hnew v r hvt hv' hr)
    · exact absurd (awake.inj he' ▸ hr) (hnew u q hut hu' hq)
    · exact h.runner u v q r hu' hv' hq hr
  · replace hu := thread_of_set hu (by simp)
    rcases h.woken u q hu with hcont | ⟨v, hv⟩
    · exact (hwoken hcont).imp id fun he => ⟨t, set_thread_iff.2 (.inl ⟨rfl, by rw [he]⟩)⟩
    · refine .inr ⟨v, set_thread_iff.2 (.inr ⟨?_, hv⟩)⟩
      rintro rfl
      exact hne (awake.inj (hp.symm.trans hv))

theorem Inv.awaken (h : Inv s) (hp : s.thread t ≠ .awake .wake) : Inv (s.set t (.awake .load)) := by
  have hawake : ∀ u q, (s.set t (.awake .load)).thread u = .awake q → q ≠ .load →
      s.thread u = .awake q := fun u q hu hq =>
    thread_of_set hu fun he => hq (awake.inj he).symm
  refine ⟨h.mem, fun u q hu => ?_, fun u v q r hu hv hq hr => ?_,
    fun u q i hu => h.resumes u q i (thread_of_set hu (by simp)), fun u q hu => ?_⟩
  · by_cases hq : q = .load
    · rw [hq]
      trivial
    · exact h.knows u q (hawake u q hu hq)
  · refine h.runner u v q r (hawake u q hu ?_) (hawake v r hv ?_) hq hr
    · rintro rfl
      cases hq
    · rintro rfl
      cases hr
  · replace hu := thread_of_set hu (by simp)
    refine (h.woken u q hu).imp_right ?_
    rintro ⟨v, hv⟩
    refine ⟨v, set_thread_iff.2 (.inr ⟨?_, hv⟩)⟩
    rintro rfl
    exact hp hv

theorem Inv.sleep (h : Inv s) (hmem : s.mem.state = .triggeredContended) :
    Inv (s.set t (.asleep .load false)) := by
  have hawake : ∀ u q, (s.set t (.asleep .load false)).thread u = .awake q →
      s.thread u = .awake q := fun u q hu =>
    thread_of_set hu (by simp)
  refine ⟨h.mem, fun u q hu => h.knows u q (hawake u q hu), fun u v q r hu hv =>
    h.runner u v q r (hawake u q hu) (hawake v r hv), fun u q i hu => ?_, fun _ _ _ => .inl hmem⟩
  rcases set_thread_iff.1 hu with ⟨-, he⟩ | ⟨-, hu⟩
  · exact (Thread.asleep.inj he).1.symm
  · exact h.resumes u q i hu

theorem Inv.wake (h : Inv s) (hp : s.thread t = .awake .wake) (woken : Finset ι) :
    Inv ((s.wakeUp woken).set t (.awake .returned)) := by
  have hawake : ∀ u q, ((s.wakeUp woken).set t (.awake .returned)).thread u = .awake q →
      (q = .returned ∨ q = .load) ∨ s.thread u = .awake q := by
    intro u q hu
    rcases set_thread_iff.1 hu with ⟨-, he⟩ | ⟨-, hu⟩
    · exact .inl (.inl (awake.inj he).symm)
    · rcases wakeUp_eq_awake hu with hu | ⟨i, hu⟩
      · exact .inr hu
      · exact .inl (.inr (h.resumes u q i hu))
  refine ⟨h.mem, fun u q hu => ?_, fun u v q r hu hv hq hr => ?_, fun u q i hu => ?_,
    fun u q hu => ?_⟩
  · rcases hawake u q hu with (rfl | rfl) | hu
    · exact show s.mem.state = .completed from h.knows t .wake hp
    · trivial
    · exact h.knows u q hu
  · refine h.runner u v q r ((hawake u q hu).resolve_left ?_)
      ((hawake v r hv).resolve_left ?_) hq hr
    · rintro (rfl | rfl) <;> cases hq
    · rintro (rfl | rfl) <;> cases hr
  · replace hu := thread_of_set hu (by simp)
    obtain ⟨-, i', hu⟩ := wakeUp_eq_asleep hu
    exact h.resumes u q i' hu
  · replace hu := thread_of_set hu (by simp)
    exact nomatch (wakeUp_eq_asleep hu).1

theorem Inv.stay (h : Inv s) (hp : s.thread t = .awake p) (hne : p ≠ .wake) (hself : Knows s.mem p')
    (hrunner : p'.Runner = false) : Inv (s.set t (.awake p')) :=
  h.atomic hp hne h.mem hself (fun _ _ => id) (by simp [hrunner]) .inl

theorem knows_evaluate (m : Memory) : Knows m (evaluate m.state) := by
  rcases hs : m.state <;> trivial

theorem evaluate_not_runner (prev : OnceState) : (evaluate prev).Runner = false := by
  cases prev <;> rfl

theorem Memory.Ok.of_triggered (htrig : m.state.Triggered) (hstarted : m.started ≤ 1) : m.Ok := by
  refine ⟨hstarted, fun hs => ?_, fun hs => ?_⟩ <;> rw [hs] at htrig <;> cases htrig

/-- While one thread runs the callback, no other knows anything that could change. -/
theorem knows_of_runner {m' : Memory} {q : Pc} (hp : Knows m p) (hpr : p.Runner)
    (hq : q.Runner → ¬ p.Runner) (hqs : Knows m q) : Knows m' q := by
  have htrig := hp.triggered hpr
  cases q with
  | call | callback | publish => exact absurd hpr (hq rfl)
  | wake | returned =>
    rw [show m.state = .completed from hqs] at htrig
    cases htrig
  | _ => trivial

theorem Inv.outside (h : Inv s) (hp : s.thread t = .awake .outside)
    (hs : s.mem.state = .untriggered) :
    Inv ({ s with mem := { s.mem with state := .triggeredUncontended } }.set t (.awake .call)) := by
  obtain ⟨hstarted, hfinished⟩ := h.mem.untriggered hs
  refine h.atomic hp nofun (.of_triggered rfl h.mem.started) ⟨rfl, hstarted, hfinished⟩
    (fun q _ hq => ?_) (fun _ => .inr hs) (by rw [hs]; nofun)
  cases q with
  | call | callback | publish =>
    have htrig := hq.1
    rw [hs] at htrig
    cases htrig
  | wake | returned => exact nomatch hs.symm.trans hq
  | _ => trivial

theorem Inv.contend (h : Inv s) (hp : s.thread t = .awake .contend)
    (hs : s.mem.state = .triggeredUncontended) :
    Inv ({ s with mem := { s.mem with state := .triggeredContended } }.set t (.awake .wait)) := by
  refine h.atomic hp nofun (.of_triggered rfl h.mem.started) trivial (fun q _ hq => ?_) nofun
    (fun _ => .inl rfl)
  cases q with
  | call | callback | publish => exact ⟨rfl, hq.2⟩
  | wake | returned => exact nomatch hs.symm.trans hq
  | _ => trivial

theorem Inv.runAtomic (h : Inv s) (hp : s.thread t = .awake p) {f : Memory → Memory × Pc}
    (hop : op p = .atomic f) : Inv ({ s with mem := (f s.mem).1 }.set t (.awake (f s.mem).2)) := by
  have hk := h.knows t p hp
  cases p with
  | outside =>
    obtain rfl := Op.atomic.inj hop
    by_cases hs : s.mem.state = .untriggered
    · simpa [cmpxchg, hs] using h.outside hp hs
    · simpa [cmpxchg, hs] using h.stay hp nofun (knows_evaluate s.mem) (evaluate_not_runner _)
  | call =>
    obtain rfl := Op.atomic.inj hop
    have hstarted : s.mem.started + 1 = 1 := by rw [hk.2.1]
    exact h.atomic hp nofun (.of_triggered hk.1 hstarted.le) ⟨hk.1, hstarted, hk.2.2⟩
      (fun _ => knows_of_runner hk rfl) (fun _ => .inl rfl) .inl
  | callback =>
    obtain rfl := Op.atomic.inj hop
    have hfinished : s.mem.finished + 1 = 1 := by rw [hk.2.2]
    exact h.atomic hp nofun (.of_triggered hk.1 h.mem.started) ⟨hk.1, hk.2.1, hfinished⟩
      (fun _ => knows_of_runner hk rfl) (fun _ => .inl rfl) .inl
  | publish =>
    obtain rfl := Op.atomic.inj hop
    refine h.atomic hp nofun ⟨h.mem.started, nofun, fun _ => hk.2⟩ ?_
      (fun _ => knows_of_runner hk rfl) ?_ fun hs => .inr (if_pos hs)
    · dsimp only
      split_ifs <;> rfl
    · dsimp only
      split_ifs <;> nofun
  | contend =>
    obtain rfl := Op.atomic.inj hop
    by_cases hs : s.mem.state = .triggeredUncontended
    · simpa [cmpxchg, hs] using h.contend hp hs
    · simpa [cmpxchg, hs] using h.stay hp nofun (knows_evaluate s.mem) (evaluate_not_runner _)
  | load =>
    obtain rfl := Op.atomic.inj hop
    exact h.stay hp nofun (knows_evaluate s.mem) (evaluate_not_runner _)
  | spin | returned =>
    obtain rfl := Op.atomic.inj hop
    exact h.stay hp nofun trivial rfl
  | wait | wake => cases hop

variable [Fintype ι]

theorem Inv.moves (h : Inv s) (hm : once.Moves s s') : Inv s' := by
  cases hm with
  | atomic hp hop => exact h.runAtomic hp hop
  | @sleep t p q hp hop =>
    cases p with
    | wait =>
      obtain ⟨hword, rfl⟩ := Op.wait.inj hop
      exact h.sleep hword.symm
    | _ => cases hop
  | @refused t p q expected hp hop hword =>
    cases p with
    | wait =>
      obtain ⟨rfl, rfl⟩ := Op.wait.inj hop
      exact h.awaken (by rw [hp]; nofun)
    | _ => cases hop
  | @wake t p q count woken hp hop hwoken hcard =>
    cases p with
    | wake =>
      obtain ⟨rfl, rfl⟩ := Op.wake.inj hop
      exact h.wake hp woken
    | _ => cases hop
  | @spurious t q issued hp =>
    obtain rfl := h.resumes t q issued hp
    exact h.awaken (by rw [hp]; nofun)

omit [DecidableEq ι] [Fintype ι] in
theorem inv_start : Inv (start : State ι) where
  mem := ⟨Nat.zero_le 1, fun _ => ⟨rfl, rfl⟩, nofun⟩
  knows t p ht := by
    obtain rfl := awake.inj ht
    trivial
  runner t u p q ht hu hp hq := by
    obtain rfl := awake.inj ht
    cases hp
  resumes := nofun
  woken := nofun

/-- The callback runs once, however many threads ask for it, and no call returns before its end. -/
theorem run_sound (as : List (Action ι)) : EachState once.step Sound (start : State ι) as :=
  once.eachState_of_moves (fun _ _ h hm => h.moves hm) (fun _ h => h.sound) inv_start as

end XtraceOnce

end Darling
