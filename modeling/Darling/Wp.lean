import Mathlib.Tactic.Common

/-!
# Programs with a state and an error

`wp m Q E s`: run from `s`, the program `m` ends in `Q` if it returns and in `E` if it throws.  The
rules rewrite it along the program, so that `simp` turns a program without loops into the condition
on its first state.
-/

namespace Darling

section

universe u

variable {ε σ α β : Type u}

def wp (m : EStateM ε σ α) (Q : α → σ → Prop) (E : ε → σ → Prop) (s : σ) : Prop :=
  match m s with
  | .ok a s' => Q a s'
  | .error e s' => E e s'

variable {Q : β → σ → Prop} {E : ε → σ → Prop} {s : σ}

@[simp] theorem wp_pure (b : β) : wp (pure b : EStateM ε σ β) Q E = Q b := rfl

@[simp] theorem wp_throw (e : ε) : wp (throw e : EStateM ε σ β) Q E = E e := rfl

@[simp] theorem wp_bind (m : EStateM ε σ α) (f : α → EStateM ε σ β) :
    wp (m >>= f) Q E = wp m (fun a => wp (f a) Q E) E := by
  funext s
  show (match EStateM.bind m f s with | .ok b s' => Q b s' | .error e s' => E e s') = _
  unfold EStateM.bind wp
  cases m s <;> rfl

@[simp] theorem wp_get {R : σ → σ → Prop} : wp (get : EStateM ε σ σ) R E = fun s => R s s := rfl

@[simp] theorem wp_modify {R : PUnit → σ → Prop} (f : σ → σ) :
    wp (modify f : EStateM ε σ PUnit) R E = fun s => R ⟨⟩ (f s) := rfl

@[simp] theorem wp_ite (c : Prop) [Decidable c] (m n : EStateM ε σ β) :
    wp (if c then m else n) Q E s ↔ if c then wp m Q E s else wp n Q E s := by
  split_ifs <;> rfl

variable {m : EStateM ε σ β}

theorem wp_mono {Q' : β → σ → Prop} {E' : ε → σ → Prop} (h : wp m Q E s)
    (hQ : ∀ b s', Q b s' → Q' b s') (hE : ∀ e s', E e s' → E' e s') : wp m Q' E' s := by
  unfold wp at h ⊢
  cases hm : m s with
  | ok b s' => rw [hm] at h; exact hQ b s' h
  | error e s' => rw [hm] at h; exact hE e s' h

theorem wp_and {Q' : β → σ → Prop} {E' : ε → σ → Prop} (h : wp m Q E s) (h' : wp m Q' E' s) :
    wp m (fun b s' => Q b s' ∧ Q' b s') (fun e s' => E e s' ∧ E' e s') s := by
  unfold wp at *
  cases hm : m s with
  | ok b s' => rw [hm] at h h'; exact ⟨h, h'⟩
  | error e s' => rw [hm] at h h'; exact ⟨h, h'⟩

theorem wp_forall {ι : Sort*} {Q : ι → β → σ → Prop} (h : ∀ i, wp m (Q i) (fun _ _ => True) s) :
    wp m (fun b s' => ∀ i, Q i b s') (fun _ _ => True) s := by
  unfold wp at *
  cases hm : m s with
  | ok b s' => exact fun i => by have := h i; rwa [hm] at this
  | error e s' => trivial

theorem not_wp_false : ¬ wp m (fun _ _ => False) (fun _ _ => False) s := by
  unfold wp
  cases m s <;> exact id

/-- `m` keeps `I`, whether it returns or throws, and returns a value of `R`. -/
def Keeps (I : σ → Prop) (m : EStateM ε σ β) (R : β → Prop) : Prop :=
  ∀ s, I s → wp m (fun b s' => I s' ∧ R b) (fun _ => I) s

namespace Keeps

variable {I : σ → Prop} {m n : EStateM ε σ β} {R : β → Prop}

theorem pure {b : β} (h : R b) : Keeps I (Pure.pure b : EStateM ε σ β) R := fun _ hs => ⟨hs, h⟩

theorem throw (e : ε) : Keeps I (throw e : EStateM ε σ β) R := fun _ hs => hs

theorem get : Keeps I (MonadState.get : EStateM ε σ σ) fun _ => True := fun _ hs => ⟨hs, trivial⟩

theorem bind {l : EStateM ε σ α} {f : α → EStateM ε σ β} {R' : α → Prop} (hl : Keeps I l R')
    (hf : ∀ a, R' a → Keeps I (f a) R) : Keeps I (l >>= f) R := by
  intro s hs
  rw [wp_bind]
  exact wp_mono (hl s hs) (fun a s' h => hf a h.2 s' h.1) fun _ _ h => h

theorem ite {c : Prop} [Decidable c] (hm : c → Keeps I m R) (hn : ¬ c → Keeps I n R) :
    Keeps I (if c then m else n) R := by
  split_ifs with h
  · exact hm h
  · exact hn h

theorem mono {R' : β → Prop} (h : Keeps I m R') (hR : ∀ b, R' b → R b) : Keeps I m R :=
  fun s hs => wp_mono (h s hs) (fun b _ hb => ⟨hb.1, hR b hb.2⟩) fun _ _ => id

theorem forM {f : α → EStateM ε σ PUnit} : ∀ (as : List α),
    (∀ a ∈ as, Keeps I (f a) fun _ => True) → Keeps I (forM as f) fun _ => True
  | [], _ => Keeps.pure trivial
  | a :: as, hf => by
    rw [List.forM_cons]
    exact (hf a (by simp)).bind fun _ _ => Keeps.forM as fun b hb => hf b (by simp [hb])

end Keeps

/-- `C` holds of the state and the element at the start of every round of the loop. -/
def Along (C : σ → α → Prop) (f : α → EStateM ε σ PUnit) : List α → σ → Prop
  | [], _ => True
  | a :: as, s => C s a ∧ wp (f a) (fun _ => Along C f as) (fun _ _ => True) s

def IfReturns (C : σ → α → Prop) (f : α → EStateM ε σ PUnit) (s : σ) (a : α) : Prop :=
  wp (f a) (fun _ _ => C s a) (fun _ _ => True) s

/-- Loop rule: what every round that meets `C` keeps, a loop of such rounds keeps. -/
theorem wp_forM_of_along {I : σ → Prop} {C : σ → α → Prop} {f : α → EStateM ε σ PUnit}
    (hf : ∀ s a, I s → C s a → wp (f a) (fun _ => I) (fun _ => I) s) :
    ∀ (as : List α) (s : σ), I s → Along C f as s → wp (forM as f) (fun _ => I) (fun _ => I) s
  | [], _, hs, _ => hs
  | a :: as, s, hs, h => by
    rw [List.forM_cons, wp_bind]
    refine wp_mono (wp_and (hf s a hs h.1) h.2) (fun _ s' h' => ?_) fun _ _ h' => h'.1
    exact wp_forM_of_along hf as s' h'.1 h'.2

end

end Darling
