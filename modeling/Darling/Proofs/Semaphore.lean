import Darling.Runs
import Darling.Semaphore

/-!
# Permits

A permit is in `sem`, was handed out, is about to be stored by a `sem_up`, or was lost: by a store
that did not know of it, or by an addition that left `sem` negative.
-/

namespace Darling.Semaphore

/-- Permits are handed out, in `sem`, on their way or lost. -/
def Balanced (k : ℕ) (s : State) : Prop :=
  k + (s.upStore + s.upWake + s.ups) = s.ones + s.sem.toNat + s.upStore + s.lost

theorem balanced_start (k : ℕ) : Balanced k (start k) := by
  simp [Balanced, start]

theorem balanced_step {k : ℕ} {s : State} (h : Balanced k s) (a : Action) :
    Balanced k (step s a) := by
  unfold Balanced at h ⊢
  cases a with
  | callDown | callUp => exact h
  | dec | storeDown | wait | inc | storeUp | wake | interrupt | spurious =>
    simp only [step]
    split_ifs <;> first | exact h | (dsimp only; omega)

/-- No more calls have returned 1 than there were permits, and where calls are left asleep, as many
as there were permits have returned. -/
def Conserves (k : ℕ) (s : State) : Prop :=
  s.ones ≤ k + s.upsStarted ∧ (s.Waits → k + s.ups ≤ s.ones + s.zeros)

theorem Balanced.ones_le {k : ℕ} {s : State} (h : Balanced k s) : s.ones ≤ k + s.upsStarted := by
  unfold Balanced at h
  unfold State.upsStarted
  omega

/-- A store does not overwrite a permit, and an addition leaves one in `sem`, or a wake-up: it is
not made below -1, and from 0 on, where it wakes nobody, only if as many calls as there will be
permits are at their decrement or about to be woken, or none is asleep. -/
def Harmless (s : State) : Action → Prop
  | .storeDown => 0 < s.downStore → s.sem ≤ 0
  | .storeUp => 0 < s.upStore → s.sem ≤ 0
  | .inc => 0 < s.upInc →
    -1 ≤ s.sem ∧ (0 ≤ s.sem → 0 < s.downAsleep → s.sem + 1 ≤ s.downDec + s.upWake)
  | _ => True

/-- No permit is lost, and where a call sleeps, each permit in `sem` has a call on its way to it or
one that has given up. -/
structure Sound (k : ℕ) (s : State) : Prop where
  balanced : Balanced k s
  lost : s.lost = 0
  claimed : 0 < s.downAsleep → s.sem ≤ s.zeros + s.downDec + s.upWake

theorem sound_start (k : ℕ) : Sound k (start k) :=
  ⟨balanced_start k, rfl, fun h => absurd h (Nat.lt_irrefl 0)⟩

theorem sound_step {k : ℕ} {s : State} {a : Action} (h : Sound k s) (ha : Harmless s a) :
    Sound k (step s a) := by
  obtain ⟨hb, hlost, hclaimed⟩ := h
  refine ⟨balanced_step hb a, ?_, ?_⟩
  all_goals
    cases a <;> simp only [step, Harmless] at ha ⊢ <;> (try split_ifs) <;> (try dsimp only) <;>
      omega

theorem Sound.conserves {k : ℕ} {s : State} (h : Sound k s) : Conserves k s := by
  obtain ⟨hb, hlost, hclaimed⟩ := h
  refine ⟨hb.ones_le, ?_⟩
  rintro ⟨-, hstore, hwake, hdec, -, -, hasleep⟩
  have := hclaimed hasleep
  unfold Balanced at hb
  omega

/-- No more calls return 1 than there are permits, and no call is left asleep in spite of a permit
if every step is harmless. -/
theorem run_conserves (k : ℕ) (as : List Action) :
    EachState step (fun s => s.ones ≤ k + s.upsStarted) (start k) as ∧
      (EachStep step Harmless (start k) as → EachState step (Conserves k) (start k) as) := by
  have hb : EachState step (fun s => s.ones ≤ k + s.upsStarted) (start k) as :=
    eachState_of_invariant (I := Balanced k) (fun _ a h => balanced_step h a)
      (fun _ => Balanced.ones_le) (balanced_start k) as
  refine ⟨hb, fun h => ?_⟩
  exact h.eachState (fun _ _ => sound_step) (fun _ => Sound.conserves) (sound_start k)

/-- The `sem_down` sleeps before the `sem_up` comes, which wakes it. -/
theorem run_conserves_woken : EachState step (Conserves 0) (start 0)
    [.callDown, .dec, .storeDown, .wait, .callUp, .inc, .storeUp, .wake, .dec] :=
  (run_conserves 0 _).2 (by simp [EachStep, Harmless, step, start])

/-- The store of the `sem_down` overwrites the permit that the `sem_up` has stored. -/
theorem run_loses_permit : ¬ EachState step (Conserves 0) (start 0)
    [.callDown, .dec, .callUp, .inc, .storeUp, .wake, .storeDown, .wait] := by
  simp [EachState, Conserves, State.Waits, State.upsStarted, step, start]

end Darling.Semaphore
