import Mathlib.Data.List.Basic

/-!
# Runs of a state machine

What holds at each step of a run, what holds in each of its states, and the rule that ties the two
together: where a step from a good state ends well exactly if it meets a condition, all states of a
run are good exactly if all its steps meet it.
-/

namespace Darling

variable {σ α : Type*} (step : σ → α → σ)

/-- Every step of the run meets the condition in the state that it is made in. -/
def EachStep (C : σ → α → Prop) : σ → List α → Prop
  | _, [] => True
  | s, a :: as => C s a ∧ EachStep C (step s a) as

/-- Every state of the run has the property, the first and the last one as well. -/
def EachState (P : σ → Prop) : σ → List α → Prop
  | s, [] => P s
  | s, a :: as => P s ∧ EachState P (step s a) as

variable {step} {P I : σ → Prop} {A C : σ → α → Prop}

theorem eachStep_true : ∀ (s : σ) (as : List α), EachStep step (fun _ _ => True) s as
  | _, [] => trivial
  | _, _ :: as => ⟨trivial, eachStep_true _ as⟩

theorem eachStep_append : ∀ {s : σ} {as bs : List α}, EachStep step C s (as ++ bs) ↔
    EachStep step C s as ∧ EachStep step C (as.foldl step s) bs
  | s, [], bs => by rw [List.nil_append, EachStep, true_and, List.foldl_nil]
  | s, a :: as, bs => by
    rw [List.cons_append, EachStep, EachStep, eachStep_append, List.foldl_cons, and_assoc]

theorem EachStep.mono (hstep : ∀ s a, I s → C s a → I (step s a)) (h : ∀ s a, I s → C s a → A s a) :
    ∀ {s : σ} {as : List α}, EachStep step C s as → I s → EachStep step A s as
  | _, [], _, _ => trivial
  | s, a :: _, hc, hs => ⟨h s a hs hc.1, hc.2.mono hstep h (hstep s a hs hc.1)⟩

/-- Where `I` holds, a step is good exactly if it meets the condition, and then `I` is kept. -/
theorem eachStep_iff (hgood : ∀ s a, I s → C s a → I (step s a))
    (h : ∀ s a, I s → (A s a ↔ C s a)) : ∀ {s : σ} {as : List α}, I s →
      (EachStep step A s as ↔ EachStep step C s as)
  | _, [], _ => Iff.rfl
  | s, a :: as, hs => by
    rw [EachStep, EachStep, h s a hs]
    exact and_congr_right fun hc => eachStep_iff hgood h (hgood s a hs hc)

theorem EachState.head {s : σ} : ∀ {as : List α}, EachState step P s as → P s
  | [], h => h
  | _ :: _, h => h.1

theorem eachState_iff_foldl : ∀ {s : σ} {as : List α}, EachState step P s as ↔
    ∀ bs, bs <+: as → P (bs.foldl step s)
  | s, [] => by simp [EachState]
  | s, a :: as => by
    simp only [EachState, eachState_iff_foldl]
    constructor
    · rintro ⟨hs, h⟩ bs hbs
      cases bs with
      | nil => exact hs
      | cons b bs =>
        obtain ⟨rfl, hbs'⟩ := List.cons_prefix_cons.1 hbs
        exact h bs hbs'
    · exact fun h => ⟨h [] ⟨_, rfl⟩, fun bs hbs => h (a :: bs)
        (List.cons_prefix_cons.2 ⟨rfl, hbs⟩)⟩

theorem EachStep.eachState (hstep : ∀ s a, I s → C s a → I (step s a)) (hP : ∀ s, I s → P s) :
    ∀ {s : σ} {as : List α}, EachStep step C s as → I s → EachState step P s as
  | s, [], _, hs => hP s hs
  | s, a :: _, h, hs => ⟨hP s hs, h.2.eachState hstep hP (hstep s a hs h.1)⟩

theorem eachState_of_invariant (hstep : ∀ s a, I s → I (step s a)) (hP : ∀ s, I s → P s) {s : σ}
    (hs : I s) (as : List α) : EachState step P s as :=
  (eachStep_true s as).eachState (fun s a h _ => hstep s a h) hP hs

theorem eachState_iff (hP : ∀ s, I s → P s) (hgood : ∀ s a, I s → A s a → C s a → I (step s a))
    (hbad : ∀ s a, I s → A s a → ¬ C s a → ¬ P (step s a)) :
    ∀ {s : σ} {as : List α}, I s → EachStep step A s as →
      (EachState step P s as ↔ EachStep step C s as)
  | s, [], hs, _ => ⟨fun _ => trivial, fun _ => hP s hs⟩
  | s, a :: as, hs, ⟨ha, has⟩ => by
    by_cases hc : C s a
    · have ih := eachState_iff hP hgood hbad (hgood s a hs ha hc) has
      simp [EachState, EachStep, ih, hP s hs, hc]
    · exact ⟨fun h => absurd h.2.head (hbad s a hs ha hc), fun h => absurd h.1 hc⟩

end Darling
