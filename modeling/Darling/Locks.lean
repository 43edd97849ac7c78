import Mathlib.Data.Set.Insert

/-!
# Threads and recursive mutexes

A call of a thread locks mutexes in the order of a path, and unlocks them in the opposite one.
Where threads wait for each other, one wants a mutex with another one locked that a second thread
wants the other way round or for a third one (`Invariant.exists_wants`).
-/

namespace Darling.Locks

open Function (update update_self update_of_ne)

variable {ι μ : Type}

/-- The mutexes that a thread has locked, the last one first, and those that its call has still to
lock. -/
structure Thread (μ : Type) where
  held : List μ
  next : List μ

def idle : ι → Thread μ := fun _ => ⟨[], []⟩

/-- `paths t` are those of the calls that `t` makes.  A mutex can be locked unless another thread
has it. -/
inductive Step [DecidableEq ι] (paths : ι → Set (List μ)) (s : ι → Thread μ) : (ι → Thread μ) → Prop
  | call {t : ι} {path : List μ} : s t = ⟨[], []⟩ → path ∈ paths t →
      Step paths s (Function.update s t ⟨[], path⟩)
  | lock {t : ι} {m : μ} {held next : List μ} : s t = ⟨held, m :: next⟩ →
      (∀ u, u ≠ t → m ∉ (s u).held) → Step paths s (Function.update s t ⟨m :: held, next⟩)
  | unlock {t : ι} {m : μ} {held : List μ} : s t = ⟨m :: held, []⟩ →
      Step paths s (Function.update s t ⟨held, []⟩)

def Reachable [DecidableEq ι] (paths : ι → Set (List μ)) : (ι → Thread μ) → Prop :=
  Relation.ReflTransGen (Step paths) idle

def Deadlock (s : ι → Thread μ) : Prop :=
  ∃ S : Set ι, S.Nonempty ∧ ∀ t ∈ S, ∃ m next, (s t).next = m :: next ∧
    ∃ u ∈ S, u ≠ t ∧ m ∈ (s u).held

/-- On the path `m'` is locked, not for the second time, with `m` locked before. -/
def Wants (path : List μ) (m m' : μ) : Prop :=
  ∃ held next, path = held ++ m' :: next ∧ m ∈ held ∧ m' ∉ held

variable {paths : ι → Set (List μ)} {s s' : ι → Thread μ}

structure Invariant (paths : ι → Set (List μ)) (s : ι → Thread μ) : Prop where
  exclusive : ∀ t u m, m ∈ (s t).held → m ∈ (s u).held → t = u
  path : ∀ t, (s t).next ≠ [] → (s t).held.reverse ++ (s t).next ∈ paths t

theorem invariant_idle : Invariant paths (idle : ι → Thread μ) :=
  ⟨fun _ _ _ h => by simp [idle] at h, fun _ h => absurd rfl h⟩

theorem Invariant.others (h : Invariant paths s) {t : ι} {m : μ} (hm : m ∈ (s t).held) (u : ι)
    (hu : u ≠ t) : m ∉ (s u).held := fun hm' => hu (h.exclusive u t m hm' hm)

theorem Invariant.exists_wants (h : Invariant paths s) (hd : Deadlock s) : ∃ t u, t ≠ u ∧
    ∃ p ∈ paths t, ∃ q ∈ paths u, ∃ m m' m'', Wants p m m' ∧ Wants q m' m'' := by
  obtain ⟨S, ⟨t₀, h₀⟩, hS⟩ := hd
  have hwants (t) (ht : t ∈ S) (m) (hm : m ∈ (s t).held) : ∃ p ∈ paths t, ∃ m', Wants p m m' ∧
      ∃ u ∈ S, u ≠ t ∧ m' ∈ (s u).held := by
    obtain ⟨m', next, hnext, u, hu, hut, hm'⟩ := hS t ht
    refine ⟨_, h.path t (by simp [hnext]), m', ⟨(s t).held.reverse, next, by rw [hnext], ?_, ?_⟩,
      u, hu, hut, hm'⟩
    · simpa using hm
    · simpa using h.others hm' t hut.symm
  obtain ⟨m, -, -, t, ht, -, hm⟩ := hS t₀ h₀
  obtain ⟨p, hp, m', hpm, u, hu, hut, hm'⟩ := hwants t ht m hm
  obtain ⟨q, hq, m'', hqm, -⟩ := hwants u hu m' hm'
  exact ⟨t, u, hut.symm, p, hp, q, hq, m, m', m'', hpm, hqm⟩

variable [DecidableEq ι]

theorem Invariant.update (h : Invariant paths s) {t : ι} {th : Thread μ}
    (hheld : ∀ m ∈ th.held, ∀ u, u ≠ t → m ∉ (s u).held)
    (hpath : th.next ≠ [] → th.held.reverse ++ th.next ∈ paths t) :
    Invariant paths (update s t th) := by
  refine ⟨fun u v m hu hv => ?_, fun u hu => ?_⟩
  · by_cases hut : u = t <;> by_cases hvt : v = t <;>
      simp only [hut, hvt, update_self, update_of_ne, ne_eq, not_false_eq_true]
        at hu hv ⊢
    · exact absurd hv (hheld m hu v hvt)
    · exact absurd hu (hheld m hv u hut)
    · exact h.exclusive u v m hu hv
  · by_cases hut : u = t
    · subst hut
      simp only [update_self] at hu ⊢
      exact hpath hu
    · simp only [update_of_ne hut] at hu ⊢
      exact h.path u hu

theorem Invariant.step (h : Invariant paths s) (hs : Step paths s s') : Invariant paths s' := by
  cases hs with
  | call ht hpath => exact h.update (by simp) fun _ => by simpa using hpath
  | @lock t m held next ht hfree =>
    have hpath := h.path t (by simp [ht])
    refine h.update (fun m' hm' => ?_) fun _ => by simpa [ht] using hpath
    rcases List.mem_cons.1 hm' with rfl | hm'
    · exact hfree
    · exact h.others (by simpa [ht] using hm')
  | @unlock t m held ht =>
    exact h.update (fun m' hm' => h.others (by simp [ht, hm'])) fun hne => absurd rfl hne

theorem Reachable.invariant (h : Reachable paths s) : Invariant paths s := by
  induction h with
  | refl => exact invariant_idle
  | tail _ hs ih => exact ih.step hs

theorem exists_deadlock {t u : ι} (htu : t ≠ u) {a b : μ} (hab : a ≠ b) (ht : [a, b] ∈ paths t)
    (hu : [b, a] ∈ paths u) : ∃ s, Reachable paths s ∧ Deadlock s := by
  have hcall : Reachable paths (update idle t ⟨[], [a, b]⟩) := .single (.call rfl ht)
  have hlock : Reachable paths (update (update idle t ⟨[], [a, b]⟩) t
      ⟨[a], [b]⟩) := hcall.tail (.lock (by simp) fun v hv => by simp [hv, idle])
  rw [Function.update_idem] at hlock
  have hcall' := hlock.tail (.call (by simp [htu.symm, idle]) hu)
  have hlock' : Reachable paths (update (update (update idle t
      ⟨[a], [b]⟩) u ⟨[], [b, a]⟩) u ⟨[b], [a]⟩) :=
    hcall'.tail (.lock (by simp) fun v hv => by
      by_cases hvt : v = t
      · subst hvt
        simp [htu, hab.symm]
      · simp [hv, hvt, idle])
  refine ⟨_, hlock', {t, u}, ⟨t, by simp⟩, ?_⟩
  rintro v (rfl | rfl)
  · exact ⟨b, [], by simp [htu], u, by simp, htu.symm, by simp⟩
  · exact ⟨a, [], by simp, t, by simp, htu, by simp [htu]⟩

end Darling.Locks
