import Darling.Plist

/-!
# Reading a property list after an object of it was put in place

An object that is put at a position is read there, and what lies apart from the position is read as
before.
-/

namespace Darling.Plist

open List

section Entries

variable {k k' : Bytes} {v : Plist} {entries : List (Bytes × Plist)}

theorem lookup_modifyValue_self (f : Plist → Plist) : ∀ entries : List (Bytes × Plist),
      (modifyValue k f entries).lookup k = (entries.lookup k).map f
  | [] => rfl
  | (a, x) :: entries => by
    have ih := lookup_modifyValue_self f entries
    rw [modifyValue] at ih ⊢
    rw [map_cons]
    by_cases h : a = k
    · simp [h]
    · rw [if_neg h, lookup_cons, lookup_cons, ih, beq_false_of_ne (Ne.symm h)]

theorem lookup_modifyValue_of_ne (h : k' ≠ k) (f : Plist → Plist) :
    ∀ entries : List (Bytes × Plist),
      (modifyValue k f entries).lookup k' = entries.lookup k'
  | [] => rfl
  | (a, x) :: entries => by
    have ih := lookup_modifyValue_of_ne h f entries
    rw [modifyValue] at ih ⊢
    rw [map_cons]
    by_cases ha : a = k
    · rw [if_pos ha, lookup_cons, lookup_cons, ih, ha, beq_false_of_ne h]
    · rw [if_neg ha, lookup_cons, lookup_cons, ih]

theorem lookup_addValue_self (h : entries.lookup k = none) :
    (addValue k v entries).lookup k = some v := by
  rw [addValue, h, if_neg (by simp), lookup_append, h]
  simp

theorem lookup_addValue_of_ne (h : k' ≠ k) :
    (addValue k v entries).lookup k' = entries.lookup k' := by
  rw [addValue]
  split_ifs
  · rfl
  · rw [lookup_append, lookup_cons, beq_false_of_ne h]
    simp

theorem lookup_removeValue_self : ∀ entries : List (Bytes × Plist),
    (removeValue k entries).lookup k = none
  | [] => rfl
  | (a, x) :: entries => by
    have ih := lookup_removeValue_self entries
    rw [removeValue] at ih ⊢
    rw [filter_cons]
    split_ifs with h
    · rw [lookup_cons, ih, beq_false_of_ne (Ne.symm (by simpa using h))]
    · exact ih

theorem lookup_removeValue_of_ne (h : k' ≠ k) : ∀ entries : List (Bytes × Plist),
    (removeValue k entries).lookup k' = entries.lookup k'
  | [] => rfl
  | (a, x) :: entries => by
    have ih := lookup_removeValue_of_ne h entries
    rw [removeValue] at ih ⊢
    rw [filter_cons]
    split_ifs with ha
    · rw [lookup_cons, lookup_cons, ih]
    · rw [lookup_cons, ih, show a = k by simpa using ha, beq_false_of_ne h]

end Entries

variable {p q r : Position} {s s' : Step} {t c v : Plist}

@[simp] theorem at?_nil : t.at? [] = some t := rfl

theorem at?_cons : t.at? (s :: p) = (t.child s).bind (at? p) := rfl

theorem at?_append : ∀ (p : Position) (t : Plist), t.at? (p ++ q) = (t.at? p).bind (at? q)
  | [], _ => rfl
  | s :: p, t => by
    rw [cons_append, at?_cons, at?_cons, Option.bind_assoc]
    exact Option.bind_congr fun c _ => at?_append p c

theorem child_put_self : (put v (s :: p) t).child s = (t.child s).map (put v p) := by
  rcases s with k | i <;> rcases t with _ | _ | _ | _ | _ | _ | _ | items | entries <;> try rfl
  · exact lookup_modifyValue_self _ entries
  · exact getElem?_modify_eq _ _ items

theorem child_put_of_ne (h : s' ≠ s) : (put v (s :: p) t).child s' = t.child s' := by
  rcases s with k | i <;> rcases t with _ | _ | _ | _ | _ | _ | _ | items | entries <;>
    rcases s' with k' | i' <;> try rfl
  · exact lookup_modifyValue_of_ne (fun he => h (congrArg _ he)) _ entries
  · exact getElem?_modify_ne _ _ fun he => h (congrArg _ he.symm)

theorem at?_put_along : ∀ (p : Position) (t : Plist),
    (put v (p ++ q) t).at? p = (t.at? p).map (put v q)
  | [], _ => rfl
  | s :: p, t => by
    rw [cons_append, at?_cons, at?_cons, child_put_self, Option.bind_map, Option.map_bind]
    exact Option.bind_congr fun c _ => at?_put_along p c

theorem at?_put_self (h : t.at? p = some c) : (put v p t).at? p = some v := by
  have := at?_put_along (v := v) (q := []) p t
  rwa [append_nil, h] at this

theorem at?_put (h : t.at? p = some c) : (put v p t).at? (p ++ q) = v.at? q := by
  rw [at?_append, at?_put_self h, Option.bind_some]

theorem sameKind_put (h : t.child s = some c) : SameKind t (put v (s :: p) t) := by
  rcases s with k | i <;> rcases t with _ | _ | _ | _ | _ | _ | _ | items | entries <;>
    trivial

theorem SameKind.trans {u : Plist} (h : SameKind t c) (h' : SameKind c u) : SameKind t u := by
  cases t <;> cases c <;> cases u <;> trivial

theorem not_apart_nil : ¬ Apart [] q := fun h => h.1 (List.nil_prefix)

theorem apart_cons_iff : Apart (s :: p) (s :: q) ↔ Apart p q := by
  rw [Apart, Apart, List.prefix_cons_inj, List.prefix_cons_inj]

theorem at?_put_of_apart : ∀ {p q : Position} {t : Plist}, Apart p q → (put v p t).at? q = t.at? q
  | [], _, _, h => absurd h not_apart_nil
  | s :: p, [], _, h => absurd List.nil_prefix h.2
  | s :: p, s' :: q, t, h => by
    rw [at?_cons, at?_cons]
    by_cases hs : s' = s
    · subst hs
      rw [child_put_self, Option.bind_map]
      exact Option.bind_congr fun c _ => at?_put_of_apart (apart_cons_iff.1 h)
    · rw [child_put_of_ne hs]

theorem Apart.parent (h : Apart (p ++ [s]) q) : Apart p q ∨ ∃ s' r, s' ≠ s ∧ q = p ++ s' :: r := by
  by_cases hp : p <+: q
  · obtain ⟨r, rfl⟩ := hp
    rcases r with _ | ⟨s', r⟩
    · exact absurd (by simp) h.2
    · refine Or.inr ⟨s', r, fun he => h.1 ?_, rfl⟩
      rw [he]
      exact (List.prefix_append_right_inj p).2 ⟨r, rfl⟩
  · exact Or.inl ⟨hp, fun hq => h.2 (hq.trans (List.prefix_append p [s]))⟩

end Darling.Plist
