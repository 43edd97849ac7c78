import Darling.Runs
import Mathlib.Data.Fintype.Basic
import Mathlib.Data.Finset.Card

/-!
# Threads on a futex

Threads share a memory, one word of which is a futex.  A program says for each place in its code
what a thread does there next.  The steps of the threads interleave in any order, and a thread that
sleeps may wake up by itself.  An invariant is shown for each of the moves that a step can make
(`eachState_of_moves`).
-/

namespace Darling.Futex

variable {ι σ ω π : Type}

/-- The next operation of a thread and where it goes on.  `wake` wakes up to `count` threads. -/
inductive Op (σ ω π : Type) where
  | atomic (f : σ → σ × π)
  | wait (expected : ω) (next : π)
  | wake (count : ℕ) (next : π)

structure Program (σ ω π : Type) where
  word : σ → ω
  op : π → Op σ ω π

/-- A thread that sleeps knows where it goes on; `issued` records a `FUTEX_WAKE` since it fell
asleep. -/
inductive Thread (π : Type) where
  | awake (place : π)
  | asleep (next : π) (issued : Bool)
deriving DecidableEq, Repr

structure State (ι σ π : Type) where
  mem : σ
  thread : ι → Thread π

/-- A step of a thread, where `woken` are those that its `FUTEX_WAKE` wakes, or a spurious
wake-up. -/
inductive Action (ι : Type) where
  | run (t : ι) (woken : Finset ι)
  | spurious (t : ι)

def Thread.IsAsleep : Thread π → Bool
  | awake _ => false
  | asleep _ _ => true

variable [DecidableEq ι]

def State.set (s : State ι σ π) (t : ι) (th : Thread π) : State ι σ π :=
  { s with thread := Function.update s.thread t th }

def State.wakeUp (s : State ι σ π) (woken : Finset ι) : State ι σ π :=
  { s with thread := fun u =>
      match s.thread u with
      | .awake p => .awake p
      | .asleep q _ => if u ∈ woken then .awake q else .asleep q true }

variable [Fintype ι]

def State.sleepers (s : State ι σ π) : Finset ι := Finset.univ.filter fun u => (s.thread u).IsAsleep

/-- What cannot be done does nothing. -/
def Program.step [DecidableEq ω] (P : Program σ ω π) (s : State ι σ π) : Action ι → State ι σ π
  | .run t woken =>
    match s.thread t with
    | .asleep _ _ => s
    | .awake p =>
      match P.op p with
      | .atomic f => { s with mem := (f s.mem).1 }.set t (.awake (f s.mem).2)
      | .wait expected q => s.set t (if P.word s.mem = expected then .asleep q false else .awake q)
      | .wake count q =>
        if woken ⊆ s.sleepers ∧ woken.card = min count s.sleepers.card then
          (s.wakeUp woken).set t (.awake q)
        else s
  | .spurious t =>
    match s.thread t with
    | .asleep q _ => s.set t (.awake q)
    | .awake _ => s

inductive Program.Moves (P : Program σ ω π) (s : State ι σ π) : State ι σ π → Prop
  | atomic {t : ι} {p : π} {f : σ → σ × π} (hp : s.thread t = .awake p) (hop : P.op p = .atomic f) :
    P.Moves s ({ s with mem := (f s.mem).1 }.set t (.awake (f s.mem).2))
  | sleep {t : ι} {p q : π} (hp : s.thread t = .awake p) (hop : P.op p = .wait (P.word s.mem) q) :
    P.Moves s (s.set t (.asleep q false))
  | refused {t : ι} {p q : π} {expected : ω} (hp : s.thread t = .awake p)
    (hop : P.op p = .wait expected q) (hword : P.word s.mem ≠ expected) :
    P.Moves s (s.set t (.awake q))
  | wake {t : ι} {p q : π} {count : ℕ} {woken : Finset ι} (hp : s.thread t = .awake p)
    (hop : P.op p = .wake count q) (hwoken : woken ⊆ s.sleepers)
    (hcard : woken.card = min count s.sleepers.card) :
    P.Moves s ((s.wakeUp woken).set t (.awake q))
  | spurious {t : ι} {q : π} {issued : Bool} (hp : s.thread t = .asleep q issued) :
    P.Moves s (s.set t (.awake q))

theorem Program.step_moves [DecidableEq ω] (P : Program σ ω π) (s : State ι σ π) (a : Action ι) :
    P.step s a = s ∨ P.Moves s (P.step s a) := by
  cases a with
  | run t woken =>
    rcases hp : s.thread t with p | ⟨q, issued⟩
    · rcases hop : P.op p with f | ⟨expected, q⟩ | ⟨count, q⟩
      · right
        simp only [step, hp, hop]
        exact .atomic hp hop
      · right
        simp only [step, hp, hop]
        split_ifs with hword
        · exact .sleep hp (hword ▸ hop)
        · exact .refused hp hop hword
      · simp only [step, hp, hop]
        split_ifs with hw
        · exact .inr (.wake hp hop hw.1 hw.2)
        · exact .inl rfl
    · left
      simp [step, hp]
  | spurious t =>
    rcases hp : s.thread t with p | ⟨q, issued⟩
    · left
      simp [step, hp]
    · right
      simp only [step, hp]
      exact .spurious hp

theorem Program.eachState_of_moves [DecidableEq ω] (P : Program σ ω π) {I Q : State ι σ π → Prop}
    (hmoves : ∀ s s', I s → P.Moves s s' → I s') (hQ : ∀ s, I s → Q s) {s : State ι σ π} (hs : I s)
    (as : List (Action ι)) : EachState P.step Q s as :=
  eachState_of_invariant (fun s a h => (P.step_moves s a).elim (fun he => he.symm ▸ h)
    (hmoves s _ h)) hQ hs as

section Threads

variable {s : State ι σ π} {t u : ι} {th : Thread π} {woken : Finset ι}

omit [Fintype ι] in
@[simp] theorem set_thread_self : (s.set t th).thread t = th := Function.update_self _ _ _

omit [Fintype ι] in
theorem set_thread_of_ne (h : u ≠ t) : (s.set t th).thread u = s.thread u :=
  Function.update_of_ne h _ _

omit [Fintype ι] in
theorem set_thread_iff {th' : Thread π} :
    (s.set t th).thread u = th' ↔ u = t ∧ th = th' ∨ u ≠ t ∧ s.thread u = th' := by
  by_cases hu : u = t
  · simp [hu]
  · simp [hu, set_thread_of_ne hu]

omit [Fintype ι] in
theorem thread_of_set {th' : Thread π} (hu : (s.set t th).thread u = th') (hne : th ≠ th') :
    s.thread u = th' := ((set_thread_iff.1 hu).resolve_left fun he => hne he.2).2

omit [DecidableEq ι] in
theorem mem_sleepers : u ∈ s.sleepers ↔ ∃ q i, s.thread u = .asleep q i := by
  rw [State.sleepers, Finset.mem_filter, and_iff_right (Finset.mem_univ u)]
  rcases h : s.thread u with p | ⟨q, i⟩ <;> simp [Thread.IsAsleep]

omit [Fintype ι] in
theorem wakeUp_of_awake {p : π} (h : s.thread u = .awake p) :
    (s.wakeUp woken).thread u = .awake p := by
  simp [State.wakeUp, h]

omit [Fintype ι] in
theorem wakeUp_of_mem {q : π} {i : Bool} (h : s.thread u = .asleep q i) (hu : u ∈ woken) :
    (s.wakeUp woken).thread u = .awake q := by
  simp [State.wakeUp, h, if_pos hu]

omit [Fintype ι] in
theorem wakeUp_eq_awake {p : π} (h : (s.wakeUp woken).thread u = .awake p) :
    s.thread u = .awake p ∨ ∃ i, s.thread u = .asleep p i := by
  simp only [State.wakeUp] at h
  split at h
  · next hu => exact .inl (hu.trans h)
  · next q i hu =>
    split_ifs at h
    exact .inr ⟨i, hu.trans (by rw [Thread.awake.inj h])⟩

omit [Fintype ι] in
theorem wakeUp_eq_asleep {q : π} {i : Bool} (h : (s.wakeUp woken).thread u = .asleep q i) :
    i = true ∧ ∃ i', s.thread u = .asleep q i' := by
  simp only [State.wakeUp] at h
  split at h
  · cases h
  · next q' i' hu =>
    split_ifs at h
    obtain ⟨rfl, rfl⟩ := Thread.asleep.inj h
    exact ⟨rfl, i', hu⟩

omit [DecidableEq ι] in
theorem exists_woken {count : ℕ} (hcount : 0 < count) (hu : u ∈ s.sleepers)
    (hcard : woken.card = min count s.sleepers.card) : ∃ w, w ∈ woken := by
  have hpos : 0 < s.sleepers.card := Finset.card_pos.2 ⟨u, hu⟩
  exact Finset.card_pos.1 (by omega)

end Threads

end Darling.Futex
