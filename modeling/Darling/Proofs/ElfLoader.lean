import Darling.ElfLoader
import Darling.Proofs.CArray

/-!
# `HOME`, and the stack of an ELF program

The block for the name of the link has no room for its terminator, so `HOME` is never processed
without a store outside of it.  What is made of the text of the link is right unless it goes on
behind the root with another letter than a slash, or does not fit the buffer.  The stack has room
for 2021 environment strings.
-/

namespace Darling.ElfLoader

open CArray List

/-- `HOME` as it should be, by the text of the link. -/
def expected (var : Bytes) : Option Bytes → Bytes
  | none => var
  | some text =>
    if text.length < 512 ∧ (text = systemRoot ∨ systemRoot ++ [slash] <+: text) then
      homeVar ++ text.drop systemRoot.length
    else var

theorem symlinkPath_outside {block h : Bytes} (hz : 0 ∉ h) (hlen : block.length = h.length + 10) :
    symlinkPath block h = none := by
  obtain ⟨b, hb, hspells, hblen⟩ := strcpy_zero hz (show h.length < block.length by omega)
  have hout : strcat 0 b linuxHome = none :=
    hspells.strcat_outside (by rw [hblen, hlen]; rfl)
  simp [symlinkPath, hb, hout]

theorem move_home {c t : Bytes} (h : Spells 0 c t) (hle : systemRoot.length ≤ t.length) :
    ∃ b d, strcpy 0 c 0 homeVar = some b ∧
      move b 5 systemRoot.length (t.length + 2 - (systemRoot.length + 1)) = some d ∧
        str 0 d 0 = some (homeVar ++ t.drop systemRoot.length) := by
  have hroot : systemRoot.length = 19 := rfl
  have hlt := h.length_lt
  have hnum : t.length + 2 - (19 + 1) = t.length - 19 + 1 := by omega
  have hdrop : (homeVar ++ 0 :: c.drop 6).drop 19 = c.drop 19 := by simp [homeVar, ascii]
  have hmoved : ((homeVar ++ 0 :: c.drop 6).drop 19).take (t.length - 19 + 1) = t.drop 19 ++ [0] :=
    hdrop ▸ h.take_drop hle
  have hroom : (t.drop 19 ++ [0]).length ≤ ((0 : Byte) :: c.drop 6).length := by simp; omega
  have hz : 0 ∉ homeVar ++ t.drop 19 := by
    simp only [mem_append, not_or]
    exact ⟨by decide, fun hmem => h.1 (mem_of_mem_drop hmem)⟩
  have hmove : move (homeVar ++ 0 :: c.drop 6) 5 19 (t.length - 19 + 1) =
      some (homeVar ++ (t.drop 19 ++ [0] ++ drop (t.drop 19 ++ [0]).length (0 :: c.drop 6))) := by
    rw [move, if_pos (by simp [homeVar, ascii]; omega), hmoved]
    exact blit_room (u := homeVar) hroom
  rw [hroot, hnum]
  refine ⟨_, _, ?_, hmove, ?_⟩
  · rw [strcpy, blit, if_pos (by change 6 ≤ _; omega)]
    rfl
  · simpa only [nil_append, append_assoc, singleton_append, length_nil] using
      str_split hz [] (drop (t.drop 19 ++ [0]).length (0 :: c.drop 6))

theorem rewriteHome_eq {home var text : Bytes} (hlen : home.length = 512) (hz : 0 ∉ text) :
    rewriteHome home var (some text) =
      some (if systemRoot <+: text then homeVar ++ (text.take 511).drop systemRoot.length
        else var) := by
  have htake : text.take (min text.length 511) = text.take 511 := by
    rw [take_eq_take_iff]
    omega
  have hlen' : (text.take 511).length = min text.length 511 := by
    rw [length_take, Nat.min_comm]
  obtain ⟨b, c, hb, hc, hspells, -⟩ := blit_terminate (a := home)
    (fun h => hz (mem_of_mem_take h)) (show (text.take 511).length < home.length by omega)
  have hpre : c.take systemRoot.length = systemRoot ↔ systemRoot <+: text := by
    obtain ⟨-, rest, rfl⟩ := hspells
    rw [eq_comm, ← prefix_iff_eq_take, prefix_append_terminator (by decide), prefix_take_iff]
    exact and_iff_left (by decide)
  rw [hlen'] at hc
  simp only [rewriteHome, htake, hb, some_bind, hc, hpre, Nat.reduceSub]
  split_ifs with hroot
  · have hle : systemRoot.length ≤ (text.take 511).length := by
      have : 19 ≤ text.length := hroot.length_le
      change 19 ≤ _
      omega
    obtain ⟨b, d, hcpy, hmove, hstr⟩ := move_home hspells hle
    rw [← hlen', hcpy, some_bind, hmove, some_bind, hstr]
  · rfl

theorem rewriteHome_right_iff {home var : Bytes} (hlen : home.length = 512) {text : Bytes}
    (hz : 0 ∉ text) : rewriteHome home var (some text) = some (expected var (some text)) ↔
      (systemRoot <+: text → text.length < 512 ∧
        (text = systemRoot ∨ systemRoot ++ [slash] <+: text) ∨
          homeVar ++ (text.take 511).drop systemRoot.length = var) := by
  rw [rewriteHome_eq hlen hz, expected, Option.some.injEq]
  by_cases hcond : text.length < 512 ∧ (text = systemRoot ∨ systemRoot ++ [slash] <+: text)
  · have hroot : systemRoot <+: text := hcond.2.elim (fun h => h ▸ prefix_rfl)
      ((prefix_append _ _).trans ·)
    rw [if_pos hcond, if_pos hroot, take_of_length_le (by omega)]
    exact iff_of_true rfl fun _ => .inl hcond
  · rw [if_neg hcond]
    split_ifs with hroot <;> simp [hroot, hcond]

/-- Strings without a NUL, as C has them. -/
abbrev CString := { s : Bytes // 0 ∉ s }

theorem processEnvVariable_right_iff (malloc : (n : ℕ) → { b : Bytes // b.length = n })
    (readlink : Bytes → Option CString) (var : CString) :
    (processEnvVariable malloc (fun p => (readlink p).map Subtype.val) var =
        some (if homeVar <+: var.1 then
          expected var ((readlink (var.1.drop 5 ++ linuxHome)).map Subtype.val) else var) ↔
      ¬ homeVar <+: var.1) ∧
    ∀ text : CString, rewriteHome (malloc 512) var (some text) =
        some (expected var (some text)) ↔
      (systemRoot <+: text.1 → text.1.length < 512 ∧
        (text = systemRoot ∨ systemRoot ++ [slash] <+: text.1) ∨
          homeVar ++ (text.1.take 511).drop systemRoot.length = var) := by
  refine ⟨?_, fun text => rewriteHome_right_iff (malloc 512).2 text.2⟩
  rw [processEnvVariable]
  split_ifs with hhome
  · have hz : 0 ∉ var.1.drop 5 := fun h => var.2 (mem_of_mem_drop h)
    simp [symlinkPath_outside hz (malloc _).2, hhome]
  · exact iff_of_true rfl hhome

theorem processEnvVariable_overflow :
    processEnvVariable (fun n => ⟨replicate n 0, length_replicate⟩) (fun _ => none) homeVar =
      none := by
  decide

variable (p : Image) (process : ℕ → ℕ) (envp : List ℕ)

theorem push_inside {stack : ℤ} : ∀ {xs : List ℕ} {pos : ℕ} {u v w : List ℕ},
    stack + pos = u.length → xs.length = v.length →
      push stack xs pos (u ++ (v ++ w)) = some (u ++ (xs ++ w))
  | [], _, u, [], w, _, _ => rfl
  | x :: xs, pos, u, y :: v, w, hu, hv => by
    have hstore := store_split u (v ++ w) y x
    have hrest : push stack xs (pos + 1) (u ++ [x] ++ (v ++ w)) = some (u ++ [x] ++ (xs ++ w)) :=
      push_inside (by simp; omega) (by simpa using hv)
    rw [push, if_pos (by omega), hu, Int.toNat_natCast, cons_append, hstore]
    simpa using hrest

theorem length_words : (p.words process envp).length = envp.length + 24 := by
  simp [Image.words, Image.auxv]

/-- The words stand from the stack pointer upwards, which is aligned to 16 bytes, and the rest of
the mapping is as before. -/
def Laid (base : ℕ) (envp stackmem : List ℕ) : Prop :=
  ∃ stack : ℕ, run p process envp stackmem = some ((stack : ℤ), stackmem.take stack ++
      (p.words process envp ++ stackmem.drop (stack + (p.words process envp).length))) ∧
    16 ∣ base + 8 * stack

theorem ptrcount_bounds : ptrcount envp % 2 = 1 ∧
    envp.length + 26 ≤ ptrcount envp ∧ ptrcount envp ≤ envp.length + 27 := by
  unfold ptrcount
  dsimp only
  split_ifs <;> omega

variable {p process envp} in
theorem Laid.length_le {base : ℕ} {stackmem : List ℕ} (h : Laid p process base envp stackmem) :
    envp.length ≤ 2021 := by
  obtain ⟨stack, hrun, -⟩ := h
  have := ptrcount_bounds envp
  simp only [run, Option.map_eq_some_iff, Prod.mk.injEq, exists_eq_right_right] at hrun
  omega

theorem laid_iff (page : ℕ) (stackmem : { m : List ℕ // m.length = 2048 }) :
    Laid p process (4096 * page) envp stackmem ↔ envp.length ≤ 2021 := by
  refine ⟨Laid.length_le, fun hshort => ?_⟩
  obtain ⟨hodd, hge, hle⟩ := ptrcount_bounds envp
  have hwords := length_words p process envp
  obtain ⟨k, hk⟩ : ∃ k : ℕ, (2048 - 1 - ptrcount envp : ℤ) = k := ⟨2047 - ptrcount envp, by omega⟩
  obtain ⟨u, v, w, hmem, hu, hv⟩ := exists_piece (a := stackmem.1) (i := k)
    (n := (p.words process envp).length) (by rw [stackmem.2]; omega)
  refine ⟨k, ?_, by omega⟩
  rw [run, hk, hmem, push_inside (by simp [hu]) hv.symm]
  subst hu
  simp [← hv]

theorem not_laid_2022 :
    ¬ Laid ⟨0, 0, 0, 0, 0, 0, 0, 0, 0⟩ id 4096 (replicate 2022 1) (replicate 2048 0) := by
  intro h
  have := h.length_le
  rw [length_replicate] at this
  omega

end Darling.ElfLoader
