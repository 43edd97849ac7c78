import Darling.AudioComponentLocks

/-!
# Where `instantiate` and `dispose` can wait for each other
-/

namespace Darling.AudioComponentLocks

open Locks

theorem wants_iff {call : Call} {path : List Mutex} (hp : path ∈ call.paths) {m m' : Mutex}
    (h : Wants path m m') : (call = .instantiate ∧ m = .components ∧ m' = .instances) ∨
      (call = .dispose ∧ m = .instances ∧ m' = .components) := by
  obtain ⟨held, next, rfl, hm, hm'⟩ := h
  cases held with
  | nil => cases hm
  | cons a held =>
    cases call <;> cases m <;> cases m' <;> cases a <;> simp_all [Call.paths]

variable {ι : Type} [DecidableEq ι]

theorem no_deadlock {calls : ι → Set Call}
    (h : ∀ t u, t ≠ u → .instantiate ∈ calls t → .dispose ∉ calls u) {s : ι → Thread Mutex}
    (hs : Reachable (paths calls) s) : ¬ Deadlock s := by
  intro hd
  obtain ⟨t, u, htu, p, ⟨c, hc, hp⟩, q, ⟨d, hd, hq⟩, m, m', m'', hpm, hqm⟩ :=
    hs.invariant.exists_wants hd
  rcases wants_iff hp hpm with ⟨rfl, -, rfl⟩ | ⟨rfl, -, rfl⟩ <;>
    rcases wants_iff hq hqm with ⟨rfl, hm, -⟩ | ⟨rfl, hm, -⟩
  · cases hm
  · exact h t u htu hc hd
  · exact h u t htu.symm hd hc
  · cases hm

/-- Threads cannot wait for each other exactly if no thread disposes of an instance while another
one can make one. -/
theorem deadlock_free_iff (calls : ι → Set Call) : (∀ s, Reachable (paths calls) s → ¬ Deadlock s) ↔
      ∀ t u, t ≠ u → .instantiate ∈ calls t → .dispose ∉ calls u := by
  refine ⟨fun h t u htu ht hu => ?_, fun h s hs => no_deadlock h hs⟩
  have ht' : [.components, .instances] ∈ paths calls t := ⟨_, ht, by decide⟩
  obtain ⟨s, hs, hd⟩ := exists_deadlock htu (by decide) ht' ⟨_, hu, by decide⟩
  exact h s hs hd

/-- One thread makes an instance, the other one disposes of one. -/
theorem deadlock_two : ∃ s : Bool → Thread Mutex,
    Reachable (paths fun t => {if t then .dispose else .instantiate}) s ∧ Deadlock s :=
  exists_deadlock (t := false) (u := true) (a := .components) (b := .instances) (by decide)
    (by decide) ⟨_, rfl, by decide⟩ ⟨_, rfl, by decide⟩

end Darling.AudioComponentLocks
