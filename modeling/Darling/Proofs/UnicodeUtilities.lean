import Darling.UnicodeUtilities

/-!
# What is compared of collation keys
-/

namespace Darling.UnicodeUtilities

open CArray List

theorem keySize_le (a : Bytes) : keySize a ≤ a.length := by
  unfold keySize
  omega

theorem report_inj {o o' : Ordering} : report o = report o' ↔ o = o' := by
  cases o <;> cases o' <;> decide

theorem compareTo_take : ∀ {a b : Bytes} {i j : ℕ}, i ≤ a.length → j ≤ b.length →
    compareTo (a.take i) (b.take j) =
      if a.take (min i j) = b.take (min i j) then compare i j else compareTo a b
  | a, b, 0, 0, _, _ => by simp [compareTo]
  | a, y :: b, 0, j + 1, _, _ => by simp [compareTo]; rfl
  | x :: a, b, i + 1, 0, _, _ => by simp [compareTo]; rfl
  | x :: a, y :: b, i + 1, j + 1, hi, hj => by
    have ih := compareTo_take (Nat.le_of_succ_le_succ hi) (Nat.le_of_succ_le_succ hj)
    by_cases hxy : x = y
    · subst hxy
      simp [compareTo, ih, compare, compareOfLessAndEq]
    · have hne : compare x y ≠ .eq := fun h => hxy (Std.LawfulEqOrd.eq_of_compare h)
      cases h : compare x y <;> simp_all [compareTo]

theorem ucGetCollationKey_eq (c : Collator) (text : List UInt16) {n : ℕ} {buf : Bytes}
    (hkey : (c.key text).length ≤ 4 * n) (hbuf : 4 * n ≤ buf.length) :
    ∃ r, ucGetCollationKey c text n buf = some (0, keySize (c.key text), c.key text ++ r) := by
  have hsize := keySize_le (c.key text)
  have hfront {b t : Bytes} (h : t.length ≤ b.length) :
      blit b 0 t = some (t ++ b.drop t.length) := by
    simp [blit, h]
  exact ⟨_, by rw [ucGetCollationKey, if_neg (by omega), hfront (by simp; omega), some_bind,
    hfront (by simp; omega), some_bind]⟩

theorem slice_key (a r : Bytes) : slice (a ++ r) 0 (keySize a) = some (a.take (keySize a)) := by
  have hsize := keySize_le a
  rw [slice, if_pos (by simp; omega), drop_zero, take_append_of_le_length hsize]

/-- The keys compare as the texts do exactly if they differ in the bytes that are looked at, or if
their sizes happen to compare so. -/
theorem keys_agree_iff (c : Collator) (s t : List UInt16) (m n : ℕ) (buf buf' : Bytes)
    (hs : (c.key s).length ≤ 4 * m) (hm : 4 * m ≤ buf.length) (ht : (c.key t).length ≤ 4 * n)
    (hn : 4 * n ≤ buf'.length) :
    ∃ k k', ucGetCollationKey c s m buf = some (0, keySize (c.key s), k) ∧
      ucGetCollationKey c t n buf' = some (0, keySize (c.key t), k') ∧
      (ucCompareCollationKeys k (keySize (c.key s)) k' (keySize (c.key t)) =
          some (ucCompareText c s t) ↔
        (c.key s).take (min (keySize (c.key s)) (keySize (c.key t))) ≠
            (c.key t).take (min (keySize (c.key s)) (keySize (c.key t))) ∨
          compare (keySize (c.key s)) (keySize (c.key t)) = c.compare s t) := by
  obtain ⟨r, hr⟩ := ucGetCollationKey_eq c s hs hm
  obtain ⟨r', hr'⟩ := ucGetCollationKey_eq c t ht hn
  refine ⟨_, _, hr, hr', ?_⟩
  rw [ucCompareCollationKeys, slice_key, some_bind, slice_key, some_bind, Option.some.injEq,
    ucCompareText, report_inj, c.compare_eq, compareTo_take (keySize_le _) (keySize_le _)]
  split_ifs with h <;> simp [h]

/-- The order of the code units: a key has the high byte of each unit before its low byte. -/
def unitOrder : Collator :=
  ⟨List.flatMap fun u => [(u >>> 8).toUInt8, u.toUInt8], _, fun _ _ => rfl⟩

theorem keys_agree_high_byte :
    ∃ k k', ucGetCollationKey unitOrder [0x61] 1 [0, 0, 0, 0] = some (0, 1, k) ∧
      ucGetCollationKey unitOrder [0x3b1] 1 [0, 0, 0, 0] = some (0, 1, k') ∧
      ucCompareCollationKeys k 1 k' 1 = some (ucCompareText unitOrder [0x61] [0x3b1]) := by
  obtain ⟨k, k', hk, hk', h⟩ := keys_agree_iff unitOrder [0x61] [0x3b1] 1 1
    [0, 0, 0, 0] [0, 0, 0, 0] (by decide) (by decide) (by decide) (by decide)
  exact ⟨k, k', hk, hk', h.2 (.inl (by decide))⟩

/-- Keys that differ in the second of two bytes. -/
theorem keys_second_byte :
    ucGetCollationKey unitOrder [0x61] 1 [0, 0, 0, 0] = some (0, 1, [0, 0x61, 0, 0]) ∧
      ucGetCollationKey unitOrder [0x62] 1 [0, 0, 0, 0] = some (0, 1, [0, 0x62, 0, 0]) ∧
      ucCompareCollationKeys [0, 0x61, 0, 0] 1 [0, 0x62, 0, 0] 1 = some (true, 0) ∧
      ucCompareText unitOrder [0x61] [0x62] = (false, -1) := by
  decide

end Darling.UnicodeUtilities
