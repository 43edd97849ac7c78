import Darling.UnorderedMap

/-!
# Maps that index a list

A map from keys to elements of a list, where each element carries a key and several may carry the
same.  The map is right if it leads from each key that is carried to an element that carries it, and
nowhere else.  What is said here is when it stays right under the edits of the list and of the keys.
-/

namespace Darling

open Option (some.inj)
open AList (mem_erase lookup_erase_ne lookup_erase lookup_isSome)
open UnorderedMap (mem_emplace lookup_emplace emplace)

variable {α κ : Type*} [DecidableEq κ]

structure Indexes (key : α → Option κ) (m : UnorderedMap κ α) (l : List α) : Prop where
  carried : ∀ a ∈ l, ∀ k, key a = some k → ∃ b ∈ l, m.lookup k = some b ∧ key b = some k
  sound : ∀ k b, m.lookup k = some b → b ∈ l ∧ key b = some k

namespace Indexes

variable {key key' : α → Option κ} {m : UnorderedMap κ α} {l : List α} {a : α} {k old new : κ}

theorem of_mem (hcarried : ∀ a ∈ l, ∀ k, key a = some k → k ∈ m)
    (hsound : ∀ k b, m.lookup k = some b → b ∈ l ∧ key b = some k) : Indexes key m l := by
  refine ⟨fun a ha k hk => ?_, hsound⟩
  obtain ⟨b, hb⟩ := Option.isSome_iff_exists.1 (lookup_isSome.2 (hcarried a ha k hk))
  exact ⟨b, (hsound k b hb).1, hb, (hsound k b hb).2⟩

section

variable (h : Indexes key m l)

include h

theorem mem (ha : a ∈ l) (hk : key a = some k) : k ∈ m := by
  obtain ⟨b, -, hb, -⟩ := h.carried a ha k hk
  exact lookup_isSome.1 (Option.isSome_iff_exists.2 ⟨b, hb⟩)

theorem exists_of_mem (hk : k ∈ m) : ∃ b ∈ l, m.lookup k = some b ∧ key b = some k := by
  obtain ⟨b, hb⟩ := Option.isSome_iff_exists.1 (lookup_isSome.2 hk)
  exact ⟨b, (h.sound k b hb).1, hb, (h.sound k b hb).2⟩

theorem congr (hkey : ∀ a ∈ l, key' a = key a) : Indexes key' m l := by
  refine ⟨fun a ha k hk => ?_, fun k b hb => ?_⟩
  · obtain ⟨b, hb, hm, hbk⟩ := h.carried a ha k ((hkey a ha).symm.trans hk)
    exact ⟨b, hb, hm, (hkey b hb).trans hbk⟩
  · obtain ⟨hl, hbk⟩ := h.sound k b hb
    exact ⟨hl, (hkey b hl).trans hbk⟩

theorem push (hk : key a = some k) : Indexes key (m.emplace k a) (l ++ [a]) := by
  refine of_mem (fun b hb j hj => ?_) fun j b hb => ?_
  · refine mem_emplace.2 ?_
    rcases List.mem_append.1 hb with hb | hb
    · exact .inr (h.mem hb hj)
    · rw [List.mem_singleton.1 hb, hk] at hj
      exact .inl (some.inj hj).symm
  · rw [lookup_emplace] at hb
    rcases Option.or_eq_some_iff.1 hb with hold | ⟨-, hnew⟩
    · obtain ⟨hl, hkey⟩ := h.sound j b hold
      exact ⟨List.mem_append_left _ hl, hkey⟩
    · split_ifs at hnew with he
      obtain rfl := some.inj hnew
      exact ⟨List.mem_append_right _ (List.mem_singleton_self _), he ▸ hk⟩

theorem erase_iff [DecidableEq α] (hl : l.Nodup) (hk : key a = some k)
    (hkey : ∀ b, b ≠ a → key' b = key b) :
    Indexes key' (m.erase k) (l.erase a) ↔ ∀ b ∈ l, b ≠ a → key b ≠ some k := by
  constructor
  · intro h' b hb hne hbk
    have hmem := h'.mem (hl.mem_erase_iff.2 ⟨hne, hb⟩) ((hkey b hne).trans hbk)
    exact (mem_erase.1 hmem).1 rfl
  · intro hother
    refine of_mem (fun b hb j hj => ?_) fun j b hb => ?_
    · obtain ⟨hne, hb⟩ := hl.mem_erase_iff.1 hb
      rw [hkey b hne] at hj
      refine mem_erase.2 ⟨?_, h.mem hb hj⟩
      rintro rfl
      exact hother b hb hne hj
    · have hjk : j ≠ k := by
        rintro rfl
        rw [lookup_erase] at hb
        cases hb
      rw [lookup_erase_ne hjk] at hb
      obtain ⟨hbl, hbj⟩ := h.sound j b hb
      have hne : b ≠ a := by
        rintro rfl
        exact hjk (some.inj (hbj.symm.trans hk))
      exact ⟨hl.mem_erase_iff.2 ⟨hne, hbl⟩, (hkey b hne).trans hbj⟩

end

section Rekey

variable (hne : old ≠ new)

include hne

section

variable (h : Indexes key m l) (ha : a ∈ l) (hold : key a = some old) (hnew : key' a = some new)
  (hkey : ∀ b, b ≠ a → key' b = key b)

include h ha hold hnew hkey

theorem rekey_iff : Indexes key' (emplace new a (m.erase old)) l ↔
      ∀ b ∈ l, b ≠ a → key b ≠ some old := by
  constructor
  · intro h' b hb hba hbk
    have hmem := h'.mem hb ((hkey b hba).trans hbk)
    rcases mem_emplace.1 hmem with he | he
    · exact hne he
    · exact (mem_erase.1 he).1 rfl
  · intro hother
    refine of_mem (fun b hb j hj => mem_emplace.2 ?_) fun j b hb => ?_
    · by_cases hba : b = a
      · rw [hba, hnew] at hj
        exact .inl (some.inj hj).symm
      · rw [hkey b hba] at hj
        refine .inr (mem_erase.2 ⟨?_, h.mem hb hj⟩)
        rintro rfl
        exact hother b hb hba hj
    · rw [lookup_emplace] at hb
      rcases Option.or_eq_some_iff.1 hb with hb | ⟨-, hb⟩
      · have hjo : j ≠ old := by
          rintro rfl
          rw [lookup_erase] at hb
          cases hb
        rw [lookup_erase_ne hjo] at hb
        obtain ⟨hbl, hbj⟩ := h.sound j b hb
        have hba : b ≠ a := by
          rintro rfl
          exact hjo (some.inj (hbj.symm.trans hold))
        exact ⟨hbl, (hkey b hba).trans hbj⟩
      · split_ifs at hb with he
        obtain rfl := some.inj hb
        exact ⟨ha, he ▸ hnew⟩

theorem unchanged_iff : Indexes key' m l ↔ m.lookup old ≠ some a ∧ new ∈ m := by
  constructor
  · intro h'
    refine ⟨fun hlookup => hne ?_, h'.mem ha hnew⟩
    exact some.inj ((h'.sound old a hlookup).2.symm.trans hnew)
  · rintro ⟨hlookup, hmem⟩
    refine of_mem (fun b hb j hj => ?_) fun j b hb => ?_
    · by_cases hba : b = a
      · rw [hba, hnew] at hj
        exact some.inj hj ▸ hmem
      · exact h.mem hb ((hkey b hba).symm.trans hj)
    · obtain ⟨hbl, hbj⟩ := h.sound j b hb
      have hba : b ≠ a := by
        rintro rfl
        rw [hold] at hbj
        exact hlookup (some.inj hbj ▸ hb)
      exact ⟨hbl, (hkey b hba).trans hbj⟩

end

theorem foreign_iff (h : Indexes key m l) (ha : a ∉ l) :
    Indexes key (emplace new a (m.erase old)) l ↔ new ∈ m ∧ old ∉ m := by
  constructor
  · intro h'
    refine ⟨by_contra fun hmem => ha ?_, fun hmem => ?_⟩
    · refine (h'.sound new a ?_).1
      rw [lookup_emplace, lookup_erase_ne hne.symm, AList.lookup_eq_none.2 hmem,
        Option.none_or, if_pos rfl]
    · obtain ⟨b, hb, -, hbk⟩ := h.exists_of_mem hmem
      rcases mem_emplace.1 (h'.mem hb hbk) with he | he
      · exact hne he
      · exact (mem_erase.1 he).1 rfl
  · rintro ⟨hmem, hmem'⟩
    have hsame : emplace new a (m.erase old) = m.erase old :=
      if_pos (mem_erase.2 ⟨hne.symm, hmem⟩)
    rw [hsame]
    refine of_mem (fun b hb j hj => mem_erase.2 ⟨?_, h.mem hb hj⟩) fun j b hb => ?_
    · rintro rfl
      exact hmem' (h.mem hb hj)
    · have hjo : j ≠ old := by
        rintro rfl
        rw [lookup_erase] at hb
        cases hb
      rw [lookup_erase_ne hjo] at hb
      exact h.sound j b hb

end Rekey

end Indexes

end Darling
