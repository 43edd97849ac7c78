import Mathlib.Data.List.Induction
import Mathlib.Order.BoundedOrder.Lattice

/-!
# The last of the greatest

Among the elements of a list that are eligible, the last one of those with the greatest measure: it
is what a loop ends up with that takes each eligible element not smaller than the one before.
-/

namespace Darling

open List

variable {α β γ : Type*} [LinearOrder β]

def IsLastMax (p : α → Prop) (f : α → β) (l : List α) (m : α) : Prop :=
  ∃ pre post, l = pre ++ m :: post ∧ p m ∧ (∀ x ∈ pre, p x → f x ≤ f m) ∧
    ∀ x ∈ post, p x → f x < f m

namespace IsLastMax

variable {p p' : α → Prop} {f : α → β} {l : List α} {m m' : α}

section

variable (h : IsLastMax p f l m)

include h

theorem mem : m ∈ l := by
  obtain ⟨pre, post, rfl, -⟩ := h
  simp

theorem eligible : p m := by
  obtain ⟨pre, post, -, hm, -⟩ := h
  exact hm

theorem le {x : α} (hx : x ∈ l) (hpx : p x) : f x ≤ f m := by
  obtain ⟨pre, post, rfl, -, hpre, hpost⟩ := h
  rcases mem_append.1 hx with hx | hx
  · exact hpre x hx hpx
  · rcases mem_cons.1 hx with rfl | hx
    · exact le_rfl
    · exact (hpost x hx hpx).le

theorem concat_of_lt {a : α} (ha : p a → f a < f m) : IsLastMax p f (l ++ [a]) m := by
  obtain ⟨pre, post, rfl, hm, hpre, hpost⟩ := h
  refine ⟨pre, post ++ [a], by simp, hm, hpre, fun x hx => ?_⟩
  rcases mem_append.1 hx with hx | hx
  · exact hpost x hx
  · exact mem_singleton.1 hx ▸ ha

end

theorem concat_self {a : α} (ha : p a) (hl : ∀ x ∈ l, p x → f x ≤ f a) :
    IsLastMax p f (l ++ [a]) a := ⟨l, [], rfl, ha, hl, by simp⟩

theorem of_eligible (h : IsLastMax p f l m) (hm : p' m) (hle : ∀ x ∈ l, p' x → f x ≤ f m)
    (heq : ∀ x, p' x → f x = f m → p x) : IsLastMax p' f l m := by
  obtain ⟨pre, post, rfl, -, -, hpost⟩ := h
  refine ⟨pre, post, rfl, hm, fun x hx => hle x (by simp [hx]), fun x hx hpx => ?_⟩
  have hx' := hle x (by simp [hx]) hpx
  exact lt_of_le_of_ne hx' fun he => (hpost x hx (heq x hpx he)).ne he

theorem unique (h : IsLastMax p f l m) (h' : IsLastMax p f l m') : m = m' := by
  have hle := h.le h'.mem h'.eligible
  have hle' := h'.le h.mem h.eligible
  obtain ⟨pre, post, rfl, hm, -, hpost⟩ := h
  obtain ⟨pre', post', heq, hm', -, hpost'⟩ := h'
  rcases append_eq_append_iff.1 heq with ⟨mid, -, hmid⟩ | ⟨mid, -, hmid⟩
  · rcases mid with _ | ⟨x, mid⟩
    · exact (cons_eq_cons.1 hmid).1
    · obtain ⟨-, rfl⟩ := cons_eq_cons.1 hmid
      exact absurd (hpost m' (by simp) hm') hle'.not_gt
  · rcases mid with _ | ⟨x, mid⟩
    · exact (cons_eq_cons.1 hmid).1.symm
    · obtain ⟨-, rfl⟩ := cons_eq_cons.1 hmid
      exact absurd (hpost' m (by simp) hm) hle.not_gt

end IsLastMax

variable [OrderBot β]

theorem foldl_lastMax {p : α → Prop} [DecidablePred p] {f : α → β} {g : γ → β} {h : α → γ}
    {init : γ} (hg : ∀ a, g (h a) = f a) (hinit : g init = ⊥) (l : List α) :
    (∃ m, IsLastMax p f l m ∧
      l.foldl (fun c a => if p a ∧ g c ≤ f a then h a else c) init = h m) ∨
    (∀ a ∈ l, ¬ p a) ∧ l.foldl (fun c a => if p a ∧ g c ≤ f a then h a else c) init = init := by
  induction l using reverseRecOn with
  | nil => exact .inr ⟨by simp, rfl⟩
  | append_singleton l a ih =>
    rw [foldl_append, foldl_cons, foldl_nil]
    rcases ih with ⟨m, hm, heq⟩ | ⟨hnone, heq⟩
    · left
      rw [heq, hg]
      by_cases ha : p a ∧ f m ≤ f a
      · refine ⟨a, .concat_self ha.1 fun x hx hpx => (hm.le hx hpx).trans ha.2, ?_⟩
        rw [if_pos ha]
      · refine ⟨m, hm.concat_of_lt fun hpa => lt_of_not_ge fun hle => ha ⟨hpa, hle⟩, ?_⟩
        rw [if_neg ha]
    · rw [heq, hinit]
      by_cases ha : p a
      · refine .inl ⟨a, .concat_self ha fun x hx hpx => absurd hpx (hnone x hx), ?_⟩
        rw [if_pos ⟨ha, bot_le⟩]
      · refine .inr ⟨fun x hx => ?_, if_neg fun h => ha h.1⟩
        rcases mem_append.1 hx with hx | hx
        · exact hnone x hx
        · exact mem_singleton.1 hx ▸ ha

theorem IsLastMax.exists_of_mem {p : α → Prop} {l : List α} {m : α} (f : α → β) (hm : m ∈ l)
    (hp : p m) : ∃ m, IsLastMax p f l m := by
  classical
  rcases foldl_lastMax (p := p) (g := fun o : Option α => o.elim ⊥ f) (h := some)
    (fun _ => rfl) (show none.elim ⊥ f = ⊥ from rfl) l with ⟨m, hlast, -⟩ | ⟨hnone, -⟩
  · exact ⟨m, hlast⟩
  · exact absurd hp (hnone m hm)

end Darling
