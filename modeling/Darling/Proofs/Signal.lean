import Darling.Proofs.Kernel
import Darling.Signal

/-!
# Signal sets and masks

A loop of tests and `|=` sets a bit exactly if a test for it succeeds (`getLsbD_foldl_or`), so a
translated set has the translations of its signals.  Translated there and back, a set loses
`SIGINFO`, which `signum_linux_to_bsd` does not know.
-/

namespace Darling

theorem getLsbD_foldl_or {ι : Type*} {w : ℕ} (c : ι → Prop) [DecidablePred c] (b : ι → BitVec w)
    (j : ℕ) : ∀ (l : List ι) (init : BitVec w),
      (l.foldl (fun out x => if c x then out ||| b x else out) init).getLsbD j = true ↔
        init.getLsbD j = true ∨ ∃ x ∈ l, c x ∧ (b x).getLsbD j = true
  | [], init => by simp
  | x :: l, init => by
    rw [List.foldl_cons, getLsbD_foldl_or c b j l]
    by_cases hx : c x
    · simp [hx, or_assoc]
    · simp [hx]

namespace Signal

section Sets

variable {w : ℕ} {s t : BitVec w} {n m : ℕ}

theorem ext_has (h : ∀ n, Has s n ↔ Has t n) : s = t := by
  refine BitVec.eq_of_getLsbD_eq fun i _ => Bool.eq_iff_iff.2 ?_
  simpa [Has] using h (i + 1)

theorem Has.le (h : Has s n) : n ≤ w := by
  by_contra hn
  obtain ⟨-, h⟩ := h
  rw [BitVec.getLsbD_of_ge _ _ (by omega)] at h
  cases h

@[simp] theorem has_or : Has (s ||| t) n ↔ Has s n ∨ Has t n := by
  simp [Has, and_or_left]

@[simp] theorem has_and : Has (s &&& t) n ↔ Has s n ∧ Has t n := by
  simp only [Has, BitVec.getLsbD_and, Bool.and_eq_true]
  tauto

@[simp] theorem has_and_not : Has (s &&& ~~~t) n ↔ Has s n ∧ ¬ Has t n := by
  rw [has_and]
  refine and_congr_right fun hs => ?_
  have := hs.le
  have := hs.1
  simp [Has, show n - 1 < w by omega, hs.1]

@[simp] theorem not_has_zero : ¬ Has (0 : BitVec w) n := by
  simp [Has]

theorem getLsbD_bit {j : ℕ} (hj : j < w) : (1#w <<< m).getLsbD j = true ↔ j = m := by
  rw [← BitVec.twoPow_eq, BitVec.getLsbD_twoPow]
  simp
  omega

theorem has_bit (hm : 0 < m) (hmw : m ≤ w) : Has (1#w <<< (m - 1)) n ↔ n = m := by
  constructor
  · intro h
    have hle := h.le
    obtain ⟨hn, h⟩ := h
    rw [getLsbD_bit (by omega)] at h
    omega
  · rintro rfl
    exact ⟨hm, (getLsbD_bit (by omega)).2 rfl⟩

theorem getLsbD_signExtend_bit {v j : ℕ} (hm : m < 31) (hj : j < v) :
    ((1#32 <<< m).signExtend v).getLsbD j = true ↔ j = m := by
  have hmsb : (1#32 <<< m).msb = false := by
    rw [BitVec.msb_eq_getLsbD_last, ← Bool.not_eq_true, getLsbD_bit (by omega)]
    omega
  rw [BitVec.getLsbD_signExtend]
  by_cases hj32 : j < 32
  · simp only [hj, hj32, decide_true, if_true, Bool.true_and, getLsbD_bit hj32]
  · simp only [hj, hj32, hmsb, decide_true, if_false, Bool.and_false, Bool.false_eq_true, false_iff]
    omega

theorem has_sigsetLoop {signum : ℕ → ℕ} (hle : ∀ n, signum n ≤ 31) {v : ℕ} (hv : 32 ≤ v)
    (hw : w ≤ 64) {set : BitVec w} :
    Has (sigsetLoop signum v set) m ↔ 0 < m ∧ ∃ n, Has set n ∧ signum n = m := by
  refine and_congr_right fun hm => ?_
  unfold sigsetLoop
  rw [getLsbD_foldl_or]
  simp only [BitVec.ofNat_eq_ofNat, BitVec.getLsbD_zero, Bool.false_eq_true, false_or,
    List.mem_range]
  constructor
  · rintro ⟨i, hi, ⟨hset, hnum⟩, hbit⟩
    have := hle (i + 1)
    have hmv : m - 1 < v := by
      by_contra hge
      rw [BitVec.getLsbD_of_ge _ _ (by omega)] at hbit
      cases hbit
    rw [getLsbD_signExtend_bit (by omega) hmv] at hbit
    exact ⟨i + 1, ⟨by omega, hset⟩, by omega⟩
  · rintro ⟨n, hn, rfl⟩
    have := hn.le
    have := hn.1
    have := hle n
    have hn1 : n - 1 + 1 = n := by omega
    refine ⟨n - 1, by omega, ⟨hn.2, by rw [hn1]; omega⟩, ?_⟩
    rw [hn1, getLsbD_signExtend_bit (by omega) (by omega)]

end Sets

variable {m : ℕ}

section Numbers

variable {n : ℕ}

theorem signumBsdToLinux_of_ge (hn : 32 ≤ n) : signumBsdToLinux n = 0 := by
  unfold signumBsdToLinux
  split <;> first | rfl | omega

theorem signumLinuxToBsd_of_ge (hn : 32 ≤ n) : signumLinuxToBsd n = 0 := by
  unfold signumLinuxToBsd
  split <;> first | rfl | omega

theorem signumBsdToLinux_le (n : ℕ) : signumBsdToLinux n ≤ 31 := by
  by_cases hn : n < 32
  · revert n
    decide
  · rw [signumBsdToLinux_of_ge (by omega)]
    omega

theorem signumLinuxToBsd_le (n : ℕ) : signumLinuxToBsd n ≤ 31 := by
  by_cases hn : n < 32
  · revert n
    decide
  · rw [signumLinuxToBsd_of_ge (by omega)]
    omega

theorem signumLinuxToBsd_bsdToLinux (hn : signumBsdToLinux n ≠ 0) :
    signumLinuxToBsd (signumBsdToLinux n) = if n = siginfo then 0 else n := by
  by_cases hlt : n < 32
  · have key : ∀ n < 32, signumBsdToLinux n ≠ 0 →
        signumLinuxToBsd (signumBsdToLinux n) = if n = siginfo then 0 else n := by decide
    exact key n hlt hn
  · exact absurd (signumBsdToLinux_of_ge (by omega)) hn

theorem signumBsdToLinux_inj (hn : signumBsdToLinux n ≠ 0)
    (h : signumBsdToLinux m = signumBsdToLinux n) : m = n := by
  have hm : signumBsdToLinux m ≠ 0 := h ▸ hn
  have hmn := (signumLinuxToBsd_bsdToLinux hm).symm.trans
    ((congrArg signumLinuxToBsd h).trans (signumLinuxToBsd_bsdToLinux hn))
  have hm0 : m ≠ 0 := by rintro rfl; exact hm rfl
  have hn0 : n ≠ 0 := by rintro rfl; exact hn rfl
  split_ifs at hmn with h1 h2
  · rw [h1, h2]
  all_goals omega

end Numbers

theorem has_sigsetBsdToLinux {set : BitVec 32} :
    Has (sigsetBsdToLinux set) m ↔ 0 < m ∧ ∃ n, Has set n ∧ signumBsdToLinux n = m :=
  has_sigsetLoop signumBsdToLinux_le (by omega) (by omega)

theorem has_sigsetLinuxToBsd {set : BitVec 64} :
    Has (sigsetLinuxToBsd set) m ↔ 0 < m ∧ ∃ n, Has set n ∧ signumLinuxToBsd n = m :=
  has_sigsetLoop signumLinuxToBsd_le (by omega) (by omega)

theorem has_linuxUnmaskable {n : ℕ} :
    Has linuxUnmaskable n ↔ n = linuxSigkill ∨ n = linuxSigstop := by
  unfold linuxUnmaskable
  rw [has_or, has_bit (by decide) (by decide), has_bit (by decide) (by decide)]

section Sigprocmask

structure MaskCall where
  how : ℤ
  set : Option (BitVec 32)

/-- Linux can block every signal of the set. -/
def Maskable (set : BitVec 32) : Prop :=
  ∀ n, Has set n → signumBsdToLinux n ≠ 0 ∧ n ≠ sigkill ∧ n ≠ sigstop

/-- The mask as BSD changes it. -/
def bsdMask (mask : BitVec 32) (c : MaskCall) : BitVec 32 :=
  match c.set with
  | none => mask
  | some set =>
    if c.how = 1 then mask ||| set
    else if c.how = 2 then mask &&& ~~~set
    else if c.how = 3 then set
    else mask

def MaskCall.Valid (c : MaskCall) : Prop := c.set = none ∨ c.how = 1 ∨ c.how = 2 ∨ c.how = 3

variable (table : ℕ → ℕ)

/-- The mask as it is changed. -/
def linuxMask (mask : BitVec 64) (c : MaskCall) : BitVec 64 :=
  (sysSigprocmask table c.how c.set mask).2.2

structure Masks (bsd : BitVec 32) (linux : BitVec 64) : Prop where
  maskable : Maskable bsd
  eq : linux = sigsetBsdToLinux bsd

variable {set : BitVec 32}

theorem Maskable.not_unmaskable (h : Maskable set)
    (hm : Has (sigsetBsdToLinux set) m) : ¬ Has linuxUnmaskable m := by
  obtain ⟨-, n, hn, rfl⟩ := has_sigsetBsdToLinux.1 hm
  obtain ⟨hmapped, hkill, -⟩ := h n hn
  have key : ∀ n < 32, n ≠ sigkill → signumBsdToLinux n ≠ linuxSigkill ∧
      signumBsdToLinux n ≠ linuxSigstop := by decide
  have hlt : n < 32 := by
    by_contra hge
    exact hmapped (signumBsdToLinux_of_ge (by omega))
  rw [has_linuxUnmaskable]
  have := key n hlt hkill
  tauto

theorem sigsetBsdToLinux_or (s t : BitVec 32) :
    sigsetBsdToLinux (s ||| t) = sigsetBsdToLinux s ||| sigsetBsdToLinux t := by
  refine ext_has fun m => ?_
  simp only [has_or, has_sigsetBsdToLinux]
  constructor
  · rintro ⟨hm, n, hs | ht, hn⟩
    · exact Or.inl ⟨hm, n, hs, hn⟩
    · exact Or.inr ⟨hm, n, ht, hn⟩
  · rintro (⟨hm, n, hs, hn⟩ | ⟨hm, n, ht, hn⟩)
    · exact ⟨hm, n, Or.inl hs, hn⟩
    · exact ⟨hm, n, Or.inr ht, hn⟩

theorem sigsetBsdToLinux_and_not (s t : BitVec 32) :
    sigsetBsdToLinux (s &&& ~~~t) = sigsetBsdToLinux s &&& ~~~sigsetBsdToLinux t := by
  refine ext_has fun m => ?_
  simp only [has_and_not, has_sigsetBsdToLinux]
  constructor
  · rintro ⟨hm, n, ⟨hs, ht⟩, rfl⟩
    refine ⟨⟨hm, n, hs, rfl⟩, ?_⟩
    rintro ⟨-, n', hn', heq⟩
    rw [signumBsdToLinux_inj (by omega) heq] at hn'
    exact ht hn'
  · rintro ⟨⟨hm, n, hs, rfl⟩, ht⟩
    exact ⟨hm, n, ⟨hs, fun h => ht ⟨hm, n, h, rfl⟩⟩, rfl⟩

theorem sigsetBsdToLinux_maskable (h : Maskable set) :
    sigsetBsdToLinux set &&& ~~~linuxUnmaskable = sigsetBsdToLinux set := by
  refine ext_has fun m => ?_
  simp only [has_and_not]
  exact ⟨fun hm => hm.1, fun hm => ⟨hm, h.not_unmaskable hm⟩⟩

theorem maskable_of_le (h : ∀ n ≤ 32, Has set n →
    signumBsdToLinux n ≠ 0 ∧ n ≠ sigkill ∧ n ≠ sigstop) : Maskable set :=
  fun n hn => h n hn.le hn

theorem Maskable.or {s t : BitVec 32} (hs : Maskable s) (ht : Maskable t) : Maskable (s ||| t) := by
  intro n hn
  rcases has_or.1 hn with hn | hn
  · exact hs n hn
  · exact ht n hn

theorem Maskable.and_not {s : BitVec 32} (hs : Maskable s) (t : BitVec 32) :
    Maskable (s &&& ~~~t) :=
  fun n hn => hs n (has_and_not.1 hn).1

theorem linuxMask_none (mask : BitVec 64) (how : ℤ) : linuxMask table mask ⟨how, none⟩ = mask := rfl

theorem linuxMask_eq (mask : BitVec 64) (how : ℤ) (set : BitVec 32) :
    linuxMask table mask ⟨how, some set⟩ =
      if how = 1 then (mask ||| sigsetBsdToLinux set) &&& ~~~linuxUnmaskable
      else if how = 2 then mask &&& ~~~sigsetBsdToLinux set
      else if how = 3 then sigsetBsdToLinux set &&& ~~~linuxUnmaskable
      else mask := by
  have h1 : how - 1 = 0 ↔ how = 1 := by omega
  have h2 : how - 1 = 1 ↔ how = 2 := by omega
  have h3 : how - 1 = 2 ↔ how = 3 := by omega
  simp only [linuxMask, sysSigprocmask, rtSigprocmask, spchowBsdToLinux, Option.map_some, h1, h2,
    h3]
  split_ifs <;> rfl

theorem Masks.step {bsd : BitVec 32} {linux : BitVec 64} (h : Masks bsd linux) {c : MaskCall}
    (hc : ∀ set, c.set = some set → Maskable set) :
    Masks (bsdMask bsd c) (linuxMask table linux c) := by
  obtain ⟨how, set⟩ := c
  obtain ⟨hbsd, rfl⟩ := h
  rcases set with _ | set
  · rw [linuxMask_none]
    exact ⟨hbsd, rfl⟩
  · have hset := hc set rfl
    have hor := hbsd.or hset
    simp only [bsdMask, linuxMask_eq]
    split_ifs
    · exact ⟨hor, by rw [← sigsetBsdToLinux_or, sigsetBsdToLinux_maskable hor]⟩
    · exact ⟨hbsd.and_not set, (sigsetBsdToLinux_and_not bsd set).symm⟩
    · exact ⟨hset, sigsetBsdToLinux_maskable hset⟩
    · exact ⟨hbsd, rfl⟩

theorem masks_run {calls : List MaskCall} :
    ∀ {bsd : BitVec 32} {linux : BitVec 64}, Masks bsd linux →
      (∀ c ∈ calls, ∀ set, c.set = some set → Maskable set) →
      Masks (calls.foldl bsdMask bsd) (calls.foldl (linuxMask table) linux) := by
  induction calls with
  | nil => exact fun h _ => h
  | cons c calls ih =>
    intro bsd linux h hcalls
    exact ih (h.step table (hcalls c List.mem_cons_self))
      fun d hd => hcalls d (List.mem_cons_of_mem c hd)

theorem has_roundtrip (h : Maskable set) {n : ℕ} :
    Has (sigsetLinuxToBsd (sigsetBsdToLinux set)) n ↔ Has set n ∧ n ≠ siginfo := by
  rw [has_sigsetLinuxToBsd]
  constructor
  · rintro ⟨hn, m, hm, rfl⟩
    obtain ⟨-, k, hk, rfl⟩ := has_sigsetBsdToLinux.1 hm
    have hback := signumLinuxToBsd_bsdToLinux (h k hk).1
    split_ifs at hback with hinfo
    · omega
    · rw [hback]
      exact ⟨hk, hinfo⟩
  · rintro ⟨hn, hinfo⟩
    have hmapped := (h n hn).1
    refine ⟨hn.1, signumBsdToLinux n, has_sigsetBsdToLinux.2 ⟨by omega, n, hn, rfl⟩, ?_⟩
    rw [signumLinuxToBsd_bsdToLinux hmapped, if_neg hinfo]

theorem roundtrip_eq_iff (h : Maskable set) :
    sigsetLinuxToBsd (sigsetBsdToLinux set) = set ↔ ¬ Has set siginfo := by
  constructor
  · intro heq hinfo
    rw [← heq, has_roundtrip h] at hinfo
    exact hinfo.2 rfl
  · intro hinfo
    refine ext_has fun n => ?_
    rw [has_roundtrip h, and_iff_left_iff_imp]
    rintro hn rfl
    exact hinfo hn

theorem sysSigprocmask_valid {c : MaskCall} (hc : c.Valid) (mask : BitVec 64) :
    (sysSigprocmask table c.how c.set mask).1 = 0 ∧
      (sysSigprocmask table c.how c.set mask).2.1 = some (sigsetLinuxToBsd mask) := by
  obtain ⟨how, set⟩ := c
  rcases set with _ | set
  · exact ⟨rfl, rfl⟩
  · rcases hc with hc | rfl | rfl | rfl
    · cases hc
    all_goals exact ⟨rfl, rfl⟩

/-- After any calls, a call that succeeds reports the mask that the calls make of BSD sets exactly
if `SIGINFO` is not in it. -/
theorem sysSigprocmask_old_iff (calls : List MaskCall) (c : MaskCall)
    (hcalls : ∀ c ∈ calls, ∀ set, c.set = some set → Maskable set) (hc : c.Valid) :
    (sysSigprocmask table c.how c.set (calls.foldl (linuxMask table) 0)).2.1 =
        some (calls.foldl bsdMask 0) ↔ ¬ Has (calls.foldl bsdMask 0) siginfo := by
  have hempty : Masks 0 0 := ⟨fun n hn => absurd hn not_has_zero, by decide⟩
  obtain ⟨hmaskable, hlinux⟩ := masks_run table hempty hcalls
  rw [(sysSigprocmask_valid table hc _).2, hlinux, Option.some_inj, roundtrip_eq_iff hmaskable]

theorem sysSigprocmask_old_usr2 :
    (∀ c ∈ [MaskCall.mk 1 (some 0x40000000#32)], ∀ set, c.set = some set → Maskable set) ∧
      ((sysSigprocmask id 1 none (linuxMask id 0 ⟨1, some 0x40000000#32⟩)).2.1 =
          some (bsdMask 0 ⟨1, some 0x40000000#32⟩) ↔
        ¬ Has (bsdMask 0 ⟨1, some 0x40000000#32⟩) siginfo) := by
  have hcalls : ∀ c ∈ [MaskCall.mk 1 (some 0x40000000#32)], ∀ set, c.set = some set →
      Maskable set := by
    intro c hc set hset
    cases List.mem_singleton.1 hc
    cases hset
    exact maskable_of_le (by decide)
  exact ⟨hcalls, sysSigprocmask_old_iff id [⟨1, some 0x40000000#32⟩] ⟨1, none⟩ hcalls (Or.inl rfl)⟩

theorem sysSigprocmask_old_siginfo :
    Maskable 0x10000000#32 ∧ bsdMask 0 ⟨1, some 0x10000000#32⟩ = 0x10000000#32 ∧
      (sysSigprocmask id 1 none (linuxMask id 0 ⟨1, some 0x10000000#32⟩)).2.1 = some 0 :=
  ⟨maskable_of_le (by decide), by decide, by decide⟩

end Sigprocmask

end Signal

end Darling
