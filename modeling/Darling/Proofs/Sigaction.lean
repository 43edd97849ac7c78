import Darling.Proofs.Signal

/-!
# Actions and handlers

The tables have the action of each signal as it was installed last (`saved_run`).  For `SIGCHLD` and
`SIGTTOU` a new installation reports what Linux has instead, in translation, and `sigexc_handler`
takes the mask and the flags of the tables, which are BSD's, for Linux's.
-/

namespace Darling.Signal

structure ActionCall where
  signum : ℕ
  nsa : Option BsdSigaction

def State.call (s : State) (c : ActionCall) : State := (sysSigaction s c.signum c.nsa).1

/-- The action of the signal that was installed last. -/
def lastInstalled (signum : ℕ) (calls : List ActionCall) : Option BsdSigaction :=
  calls.foldl (fun last c => if c.signum = signum then c.nsa.or last else last) none

def AtLinux (linuxSignum : ℕ) : Prop := linuxSignum = linuxSigchld ∨ linuxSignum = linuxSigttou

structure Saved (s : State) (linuxSignum : ℕ) (a : BsdSigaction) : Prop where
  handler : s.sigHandlers linuxSignum = a.saSigaction
  flags : s.sigFlags linuxSignum = a.saFlags
  mask : s.sigMasks linuxSignum = a.saMask
  kernel : AtLinux linuxSignum → s.kernel linuxSignum = rtSigaction (linuxSigaction a)

variable {n : ℕ}

section Saved

variable {s : State} {signum : ℕ} {a : BsdSigaction}

theorem call_saved {nsa : BsdSigaction} (h : signumBsdToLinux signum ≠ 0) :
    Saved (s.call ⟨signum, some nsa⟩) (signumBsdToLinux signum) nsa := by
  simp only [State.call, sysSigaction, if_neg h]
  split_ifs with hlinux
  · exact ⟨by simp, by simp, by simp, fun _ => by simp⟩
  · exact ⟨by simp, by simp, by simp, fun h => absurd h hlinux⟩

theorem Saved.call {c : ActionCall} (h : Saved s n a)
    (hc : c.nsa = none ∨ signumBsdToLinux c.signum ≠ n) : Saved (s.call c) n a := by
  obtain ⟨signum, _ | nsa⟩ := c
  · simp only [State.call, sysSigaction]
    split_ifs <;> exact h
  · have hne : n ≠ signumBsdToLinux signum := (hc.resolve_left (by simp)).symm
    simp only [State.call, sysSigaction]
    split_ifs
    · exact h
    all_goals
      refine ⟨?_, ?_, ?_, ?_⟩
      · simpa [Function.update_of_ne hne] using h.handler
      · simpa [Function.update_of_ne hne] using h.flags
      · simpa [Function.update_of_ne hne] using h.mask
      · simpa [Function.update_of_ne hne] using h.kernel

theorem saved_run (h : signumBsdToLinux signum ≠ 0) (calls : List ActionCall)
    (ha : lastInstalled signum calls = some a) :
    Saved (calls.foldl State.call initial) (signumBsdToLinux signum) a := by
  induction calls using List.reverseRecOn generalizing a with
  | nil => cases ha
  | append_singleton calls c ih =>
    simp only [lastInstalled, List.foldl_append, List.foldl_cons, List.foldl_nil] at ha ⊢
    split_ifs at ha with hc
    · obtain ⟨signum', nsa⟩ := c
      subst hc
      rcases nsa with _ | nsa
      · exact (ih ha).call (Or.inl rfl)
      · cases ha
        exact call_saved h
    · exact (ih ha).call (Or.inr fun heq => hc (signumBsdToLinux_inj h heq))

end Saved

section Restore

theorem sigflagsLoop_and {pairs : List (BitVec 32 × BitVec 32)} {m : BitVec 32}
    (hm : ∀ p ∈ pairs, m &&& p.1 = p.1) (init flags : BitVec 32) :
    sigflagsLoop pairs init (flags &&& m) = sigflagsLoop pairs init flags := by
  refine List.foldl_ext _ _ init fun out p hp => ?_
  rw [BitVec.and_assoc, hm p hp]

theorem sigflags_roundtrip (flags : BitVec 32) :
    sigflagsLinuxToBsd (sigflagsBsdToLinux flags ||| linuxSaRestorer) = flags &&& 0x3f#32 := by
  have hsix : ∀ six : BitVec 6, sigflagsLinuxToBsd
      (sigflagsBsdToLinux (six.setWidth 32) ||| linuxSaRestorer) = six.setWidth 32 := by decide
  have hlow : flags &&& 0x3f#32 = (flags.setWidth 6).setWidth 32 := by
    refine BitVec.eq_of_toNat_eq ?_
    simp only [BitVec.toNat_and, BitVec.toNat_setWidth, BitVec.toNat_ofNat]
    rw [show 63 % 2 ^ 32 = 2 ^ 6 - 1 from rfl, Nat.and_two_pow_sub_one_eq_mod]
    omega
  have hmask : sigflagsBsdToLinux (flags &&& 0x3f#32) = sigflagsBsdToLinux flags :=
    sigflagsLoop_and (by simp [sigflags, bsdSaNodefer]) _ _
  rw [← hmask, hlow]
  exact hsix _

/-- The signal is the same there and back. -/
def Restored (n : ℕ) : Prop := signumBsdToLinux n ≠ 0 ∧ n ≠ siginfo ∧ n ≠ sigkill

theorem signumBsdToLinux_unmaskable : Has linuxUnmaskable (signumBsdToLinux n) ↔ n = sigkill := by
  rw [has_linuxUnmaskable]
  by_cases hlt : n < 32
  · revert n
    decide
  · rw [signumBsdToLinux_of_ge (by omega)]
    have hne : n ≠ sigkill := by rintro rfl; exact hlt (by decide)
    simp [hne]

theorem has_mask_roundtrip {set : BitVec 32} :
    Has (sigsetLinuxToBsd (sigsetBsdToLinux set &&& ~~~linuxUnmaskable)) n ↔
      Has set n ∧ Restored n := by
  rw [has_sigsetLinuxToBsd]
  constructor
  · rintro ⟨hn, m, hm, rfl⟩
    obtain ⟨hm, hkill⟩ := has_and_not.1 hm
    obtain ⟨hpos, k, hk, rfl⟩ := has_sigsetBsdToLinux.1 hm
    have hback := signumLinuxToBsd_bsdToLinux (n := k) (by omega)
    split_ifs at hback with hinfo
    · omega
    · rw [hback]
      exact ⟨hk, by omega, hinfo, fun h => hkill (signumBsdToLinux_unmaskable.2 h)⟩
  · rintro ⟨hn, hmapped, hinfo, hkill⟩
    refine ⟨hn.1, signumBsdToLinux n, has_and_not.2 ⟨?_, ?_⟩, ?_⟩
    · exact has_sigsetBsdToLinux.2 ⟨by omega, n, hn, rfl⟩
    · rwa [signumBsdToLinux_unmaskable]
    · rw [signumLinuxToBsd_bsdToLinux hmapped, if_neg hinfo]

theorem mask_roundtrip_iff {set : BitVec 32} :
    sigsetLinuxToBsd (sigsetBsdToLinux set &&& ~~~linuxUnmaskable) = set ↔
      ∀ n, Has set n → Restored n := by
  constructor
  · intro heq n hn
    rw [← heq, has_mask_roundtrip] at hn
    exact hn.2
  · intro h
    refine ext_has fun n => ?_
    rw [has_mask_roundtrip, and_iff_left_iff_imp]
    exact h n

/-- The action is the same there and back. -/
def Survives (a : BsdSigaction) : Prop :=
  (∀ n, Has a.saMask n → Restored n) ∧ a.saFlags &&& 0x3f#32 = a.saFlags

theorem roundtrip_iff (a : BsdSigaction) : (⟨match (rtSigaction (linuxSigaction a)).saSigaction with
        | .handlerLinuxToBsd => a.saSigaction
        | .cast handler => handler,
      sigsetLinuxToBsd (rtSigaction (linuxSigaction a)).saMask,
      sigflagsLinuxToBsd (rtSigaction (linuxSigaction a)).saFlags⟩ : BsdSigaction) = a ↔
      Survives a := by
  obtain ⟨handler, mask, flags⟩ := a
  simp only [rtSigaction, linuxSigaction, sigflags_roundtrip, BsdSigaction.mk.injEq, Survives,
    mask_roundtrip_iff, and_iff_right_iff_imp]
  rintro -
  cases handler <;> simp

theorem Saved.old_iff {s : State} {signum : ℕ} {a : BsdSigaction}
    (h : Saved s (signumBsdToLinux signum) a) (hmapped : signumBsdToLinux signum ≠ 0)
    (nsa : Option BsdSigaction) : (sysSigaction s signum nsa).2 = a ↔
      (nsa ≠ none → AtLinux (signumBsdToLinux signum) → Survives a) := by
  have htable : (⟨s.sigHandlers (signumBsdToLinux signum), s.sigMasks (signumBsdToLinux signum),
      s.sigFlags (signumBsdToLinux signum)⟩ : BsdSigaction) = a := by
    rw [h.handler, h.mask, h.flags]
  rcases nsa with _ | nsa
  · simp [sysSigaction, hmapped, htable]
  · by_cases hlinux : AtLinux (signumBsdToLinux signum)
    · have hkernel := h.kernel hlinux
      simp only [sysSigaction, if_neg hmapped, if_pos (show _ ∨ _ from hlinux), hkernel, h.handler,
        ne_eq, reduceCtorEq, not_false_eq_true, true_imp_iff, hlinux]
      exact roundtrip_iff a
    · simp only [sysSigaction, if_neg hmapped, if_neg (show ¬ (_ ∨ _) from hlinux), htable]
      simp [hlinux]

theorem atLinux_iff {signum : ℕ} :
    AtLinux (signumBsdToLinux signum) ↔ signum = sigchld ∨ signum = sigttou := by
  unfold AtLinux
  by_cases hlt : signum < 32
  · revert signum
    decide
  · rw [signumBsdToLinux_of_ge (by omega)]
    have hne : ∀ n < 32, signum ≠ n := by omega
    simp [hne sigchld (by decide), hne sigttou (by decide)]

/-- After any calls, the old action that a call reports is the one installed last, except where a
new action for `SIGCHLD` or `SIGTTOU` reports an action that does not survive. -/
theorem sysSigaction_old_iff (calls : List ActionCall) (signum : ℕ) (nsa : Option BsdSigaction)
    (a : BsdSigaction) (hmapped : signumBsdToLinux signum ≠ 0)
    (ha : lastInstalled signum calls = some a) :
    (sysSigaction (calls.foldl State.call initial) signum nsa).2 = a ↔
      (nsa ≠ none → signum = sigchld ∨ signum = sigttou → Survives a) := by
  rw [(saved_run hmapped calls ha).old_iff hmapped nsa, atLinux_iff]

/-- A handler for `SIGCHLD` with `SA_RESTART` and `SIGHUP` in its mask. -/
theorem sysSigaction_old_restart :
    lastInstalled sigchld [⟨sigchld, some ⟨.function 4096, 1#32, 2#32⟩⟩] =
        some ⟨.function 4096, 1#32, 2#32⟩ ∧
      ((sysSigaction (initial.call ⟨sigchld, some ⟨.function 4096, 1#32, 2#32⟩⟩) sigchld
          (some ⟨.dfl, 0, 0⟩)).2 = ⟨.function 4096, 1#32, 2#32⟩ ↔
        ((some ⟨.dfl, 0, 0⟩ : Option BsdSigaction) ≠ none → sigchld = sigchld ∨ sigchld = sigttou →
          Survives ⟨.function 4096, 1#32, 2#32⟩)) :=
  ⟨rfl, sysSigaction_old_iff [⟨sigchld, some ⟨.function 4096, 1#32, 2#32⟩⟩] sigchld
    (some ⟨.dfl, 0, 0⟩) _ (by decide) rfl⟩

/-- A handler for `SIGCHLD` with `SA_SIGINFO`: the flag is not in the old action. -/
theorem sysSigaction_old_siginfo :
    lastInstalled sigchld [⟨sigchld, some ⟨.function 4096, 0#32, 0x40#32⟩⟩] =
        some ⟨.function 4096, 0#32, 0x40#32⟩ ∧
      (sysSigaction (initial.call ⟨sigchld, some ⟨.function 4096, 0#32, 0x40#32⟩⟩) sigchld
          (some ⟨.dfl, 0, 0⟩)).2 = ⟨.function 4096, 0#32, 0#32⟩ := by
  decide

end Restore

section Handlers

/-- The calls of handlers, each with the mask that the thread has then. -/
def handlerCalls (mask : BitVec 64) : List Effect → List (BitVec 64 × Handler × ℕ)
  | [] => []
  | .setmask set :: es => handlerCalls (rtSigprocmask 2 (some set) mask).2.2 es
  | .handler h signum :: es => (mask, h, signum) :: handlerCalls mask es
  | .kill _ :: es => handlerCalls mask es
  | .sigDfl _ :: es => handlerCalls mask es

/-- What is to be blocked while the handler of the action runs, as far as it can be: what was
blocked, what the action asks for, and the signal itself. -/
def handlerMask (before : BitVec 64) (a : BsdSigaction) (linuxSignum : ℕ) : BitVec 64 :=
  (before ||| sigsetBsdToLinux a.saMask |||
    if a.saFlags &&& bsdSaNodefer = 0 then 1#64 <<< (linuxSignum - 1) else 0) &&& ~~~linuxUnmaskable

/-- The mask of an action survives that its numbers are taken for Linux's. -/
structure Coincides (before : BitVec 64) (a : BsdSigaction) (linuxSignum : ℕ) : Prop where
  /-- it has the numbers of what was blocked -/
  blocked : ∀ n, Has before n → ¬ Has linuxUnmaskable n → n ≠ linuxSignum → Has a.saMask n
  /-- with a signal that Linux has at another number, it has that number -/
  renumbered : ∀ k, Has a.saMask k → signumBsdToLinux k ≠ k → signumBsdToLinux k ≠ 0 →
    signumBsdToLinux k = linuxSignum ∨ Has a.saMask (signumBsdToLinux k)
  /-- and what Linux has at the number of such a signal is to be blocked, or cannot be -/
  number : ∀ k, Has a.saMask k → signumBsdToLinux k ≠ k →
    k = linuxSignum ∨ k = linuxSigstop ∨ Has before k ∨ ∃ j, Has a.saMask j ∧ signumBsdToLinux j = k
  /-- the flags have the same meaning in both encodings, where it depends on them -/
  itself : (Has a.saMask linuxSignum ∨ a.saFlags &&& linuxSaNodefer = 0) ↔
    (Has before linuxSignum ∨ ∃ j, Has a.saMask j ∧ signumBsdToLinux j = linuxSignum) ∨
      a.saFlags &&& bsdSaNodefer = 0

theorem has_setWidth {w v : ℕ} (h : w ≤ v) {set : BitVec w} :
    Has (set.setWidth v) n ↔ Has set n := by
  simp only [Has, BitVec.getLsbD_setWidth, Bool.and_eq_true, decide_eq_true_eq]
  refine and_congr_right fun hn => ⟨fun hs => hs.2, fun hs => ⟨?_, hs⟩⟩
  have := Has.le ⟨hn, hs⟩
  omega

theorem has_ite_bit {c : Prop} [Decidable c] {m : ℕ} (hm : 0 < m) (hm64 : m ≤ 64) :
    Has (if c then 1#64 <<< (m - 1) else 0) n ↔ n = m ∧ c := by
  split_ifs with hc
  · simp [has_bit hm hm64, hc]
  · simp only [hc, and_false, iff_false]
    exact not_has_zero

def sigexcMask (a : BsdSigaction) (linuxSignum : ℕ) : BitVec 64 :=
  if a.saFlags &&& linuxSaNodefer = 0 then a.saMask.setWidth 64 ||| 1#64 <<< (linuxSignum - 1)
  else a.saMask.setWidth 64

section Coincides

variable {before : BitVec 64} {a : BsdSigaction} {m : ℕ}

theorem has_sigexcMask (hm : 0 < m) (hm64 : m ≤ 64) :
    Has (sigexcMask a m) n ↔ Has a.saMask n ∨ n = m ∧ a.saFlags &&& linuxSaNodefer = 0 := by
  unfold sigexcMask
  split_ifs with hc
  · rw [has_or, has_setWidth (by omega), has_bit hm hm64]
    simp [hc]
  · simp only [has_setWidth (show 32 ≤ 64 by omega), hc, and_false, or_false]

theorem has_handlerMask (hm : 0 < m) (hm64 : m ≤ 64) : Has (handlerMask before a m) n ↔
    ((Has before n ∨ 0 < n ∧ ∃ k, Has a.saMask k ∧ signumBsdToLinux k = n) ∨
      n = m ∧ a.saFlags &&& bsdSaNodefer = 0) ∧ ¬ Has linuxUnmaskable n := by
  unfold handlerMask
  rw [has_and_not, has_or, has_or, has_ite_bit hm hm64, has_sigsetBsdToLinux]

theorem not_unmaskable_of_renumbered {k : ℕ} (h : signumBsdToLinux k ≠ k) :
    ¬ Has linuxUnmaskable (signumBsdToLinux k) := by
  rw [signumBsdToLinux_unmaskable]
  rintro rfl
  exact h rfl

theorem sigexcMask_eq_iff (hm : 0 < m) (hm64 : m ≤ 64) (hmask : ¬ Has linuxUnmaskable m) :
    sigexcMask a m &&& ~~~linuxUnmaskable = handlerMask before a m ↔ Coincides before a m := by
  have hbits : sigexcMask a m &&& ~~~linuxUnmaskable = handlerMask before a m ↔
      ∀ n, ¬ Has linuxUnmaskable n →
        (Has a.saMask n ∨ n = m ∧ a.saFlags &&& linuxSaNodefer = 0 ↔
          (Has before n ∨ 0 < n ∧ ∃ k, Has a.saMask k ∧ signumBsdToLinux k = n) ∨
            n = m ∧ a.saFlags &&& bsdSaNodefer = 0) := by
    simp only [← has_sigexcMask hm hm64, ← and_congr_left_iff, ← has_handlerMask hm hm64,
      ← has_and_not]
    exact ⟨fun h n => by rw [h], ext_has⟩
  rw [hbits]
  constructor
  · intro h
    refine ⟨fun n hn hmaskable hne => ?_, fun k hk hother hmapped => ?_, fun k hk hother => ?_, ?_⟩
    · simpa [hne] using (h n hmaskable).2 (.inl (.inl hn))
    · refine or_iff_not_imp_left.2 fun hne => ?_
      have := (h _ (not_unmaskable_of_renumbered hother)).2 (.inl (.inr ⟨by omega, k, hk, rfl⟩))
      simpa [hne] using this
    · refine or_iff_not_imp_left.2 fun hne => or_iff_not_imp_left.2 fun hstop => ?_
      have hkill : k ≠ linuxSigkill := by
        rintro rfl
        exact hother rfl
      have := (h k (by simp [has_linuxUnmaskable, hkill, hstop])).1 (.inl hk)
      simpa [hne, hk.1] using this
    · simpa [hm] using h m hmask
  · rintro ⟨hblocked, hrenumbered, hnumber, hself⟩ n hn
    by_cases hnm : n = m
    · subst hnm
      simpa [hm] using hself
    simp only [hnm, false_and, or_false]
    constructor
    · intro hk
      by_cases hother : signumBsdToLinux n = n
      · exact .inr ⟨hk.1, n, hk, hother⟩
      · obtain h | h | h | h := hnumber n hk hother
        · exact absurd h hnm
        · exact absurd (has_linuxUnmaskable.2 (.inr h)) hn
        · exact .inl h
        · exact .inr ⟨hk.1, h⟩
    · rintro (h | ⟨hpos, k, hk, rfl⟩)
      · exact hblocked n h hn hnm
      · by_cases hother : signumBsdToLinux k = k
        · rwa [hother]
        · exact (hrenumbered k hk hother (by omega)).resolve_left hnm

end Coincides

/-- After any calls, for a signal with a guest handler: the mask of the thread while it runs. -/
theorem sigexcHandler_mask_iff (calls : List ActionCall) (linuxSignum : ℕ) (sigprocess : ℕ → ℕ)
    (before : BitVec 64) (a : BsdSigaction) (address : ℕ) (hcont : linuxSignum ≠ linuxSigcont)
    (hmapped : signumLinuxToBsd linuxSignum ≠ 0)
    (hsignum : signumBsdToLinux (sigprocess (signumLinuxToBsd linuxSignum)) ≠ 0)
    (hkill : sigprocess (signumLinuxToBsd linuxSignum) ≠ sigkill)
    (ha : lastInstalled (sigprocess (signumLinuxToBsd linuxSignum)) calls = some a)
    (hhandler : a.saSigaction = .function address) :
    handlerCalls before
        (sigexcHandler (calls.foldl State.call initial) linuxSignum sigprocess).2 =
      [(handlerMask before a (signumBsdToLinux (sigprocess (signumLinuxToBsd linuxSignum))),
        .function address,
        signumLinuxToBsd (signumBsdToLinux (sigprocess (signumLinuxToBsd linuxSignum))))] ↔
      Coincides before a (signumBsdToLinux (sigprocess (signumLinuxToBsd linuxSignum))) := by
  have hsaved := saved_run hsignum calls ha
  have hle := signumBsdToLinux_le (sigprocess (signumLinuxToBsd linuxSignum))
  have hne : sigprocess (signumLinuxToBsd linuxSignum) ≠ 0 := by
    intro h
    rw [h] at hsignum
    exact hsignum rfl
  rw [← sigexcMask_eq_iff (by omega) (by omega) (by rwa [signumBsdToLinux_unmaskable])]
  simp only [sigexcHandler, if_neg hcont, if_neg hmapped, if_neg hne, hsaved.handler, hhandler,
    handlerLinuxToBsd, hsaved.flags, hsaved.mask]
  simp [handlerCalls, rtSigprocmask, sigexcMask]

/-- A handler for `SIGINT` with all signals of the chain of renumberings in its mask. -/
theorem sigexcHandler_mask_sigint :
    handlerCalls 0 (sigexcHandler (initial.call ⟨sigint, some ⟨.function 4096, 0x304f8240#32,
        0#32⟩⟩) linuxSigint id).2 =
      [(handlerMask 0 ⟨.function 4096, 0x304f8240#32, 0#32⟩ linuxSigint, .function 4096, sigint)] :=
  (sigexcHandler_mask_iff [⟨sigint, some ⟨.function 4096, 0x304f8240#32, 0#32⟩⟩] linuxSigint id 0 _
    4096 (by decide) (by decide) (by decide) (by decide) rfl rfl).2 <| by
    have key : ∀ k ≤ 32, Has 0x304f8240#32 k → signumBsdToLinux k ≠ k →
        (signumBsdToLinux k ≠ 0 → Has 0x304f8240#32 (signumBsdToLinux k)) ∧
          (k = linuxSigstop ∨ ∃ j ≤ 32, Has 0x304f8240#32 j ∧ signumBsdToLinux j = k) := by decide
    refine ⟨fun n hn => absurd hn not_has_zero, fun k hk hother hmapped => ?_,
      fun k hk hother => ?_, iff_of_true (.inr rfl) (.inr rfl)⟩
    · exact .inr ((key k hk.le hk hother).1 hmapped)
    · obtain h | ⟨j, -, hj⟩ := (key k hk.le hk hother).2
      · exact .inr (.inl h)
      · exact .inr (.inr (.inr ⟨j, hj⟩))

/-- A handler for `SIGUSR1` with `SIGUSR2` in its mask: Linux blocks `SIGSYS`, which has the number
of `SIGUSR2`. -/
theorem sigexcHandler_mask_sigusr2 :
    handlerCalls 0 (sigexcHandler (initial.call ⟨sigusr1, some ⟨.function 4096, 0x40000000#32,
        0#32⟩⟩) linuxSigusr1 id).2 = [(0x40000200#64, .function 4096, sigusr1)] ∧
      handlerMask 0 ⟨.function 4096, 0x40000000#32, 0#32⟩ linuxSigusr1 = 0xa00#64 := by
  decide

end Handlers

section Deliveries

def bsdSaResethand : BitVec 32 := 0x0004#32

def bsdSaFlags : BitVec 32 := 0x007f#32

/-- A call of `sys_sigaction`, or a signal that comes to `sigexc_handler`. -/
inductive Event where
  | call (c : ActionCall)
  | deliver (linuxSignum : ℕ) (sigprocess : ℕ → ℕ)

def State.event (s : State) : Event → State × List Effect
  | .call c => (s.call c, [])
  | .deliver linuxSignum sigprocess => sigexcHandler s linuxSignum sigprocess

/-- The signal whose handler a delivery should call. -/
def Event.target : Event → Option ℕ
  | .call _ => none
  | .deliver linuxSignum sigprocess =>
    let signum := sigprocess (signumLinuxToBsd linuxSignum)
    if linuxSignum = linuxSigcont ∨ signumLinuxToBsd linuxSignum = 0 ∨ signum = 0 then none
    else some (signumBsdToLinux signum)

/-- The event installs an action for the signal. -/
def Event.Installs (n : ℕ) : Event → Prop
  | .call c => c.nsa ≠ none ∧ signumBsdToLinux c.signum = n
  | .deliver _ _ => False

def Effect.called : Effect → Option Handler
  | .handler h _ => some h
  | _ => none

/-- The handlers that are called for the signal. -/
def invocations (n : ℕ) : State → List Event → List Handler
  | _, [] => []
  | s, e :: es =>
    (if e.target = some n then (s.event e).2.filterMap Effect.called else []) ++
      invocations n (s.event e).1 es

/-- A handler that is to be reset is called once, and another one stays. -/
def Serves (n : ℕ) (a : BsdSigaction) (s : State) (es : List Event) : Prop :=
  if a.saFlags &&& bsdSaResethand ≠ 0 then (invocations n s es).length ≤ 1
  else ∀ pre, pre <+: es → (pre.foldl (fun s e => (s.event e).1) s).sigHandlers n = a.saSigaction

variable {s : State} {n : ℕ} {a : BsdSigaction} {e : Event}

theorem resethand_of_bsd (h : a.saFlags &&& ~~~bsdSaFlags = 0) :
    a.saFlags &&& linuxSaResethand = 0 := by
  have hsub : ~~~bsdSaFlags &&& linuxSaResethand = linuxSaResethand := by decide
  rw [← hsub, ← BitVec.and_assoc, h]
  rfl

theorem event_of_target_none {linuxSignum : ℕ} {sigprocess : ℕ → ℕ}
    (h : (Event.deliver linuxSignum sigprocess).target = none) :
    s.event (.deliver linuxSignum sigprocess) = (s, []) := by
  simp only [Event.target, ite_eq_left_iff, reduceCtorEq, imp_false, not_not] at h
  rcases h with hcont | hmapped | hdropped
  · simp [State.event, sigexcHandler, hcont]
  · simp [State.event, sigexcHandler, hmapped]
  · simp [State.event, sigexcHandler, hdropped]

theorem event_of_target {linuxSignum : ℕ} {sigprocess : ℕ → ℕ} {k : ℕ}
    (h : (Event.deliver linuxSignum sigprocess).target = some k) :
    (s.sigHandlers k = .ign ∨ s.sigHandlers k = .dfl) ∧
        (s.event (.deliver linuxSignum sigprocess)).1 = s ∨
      (s.event (.deliver linuxSignum sigprocess)).1 = (handlerLinuxToBsd s k).1 ∧
        (s.event (.deliver linuxSignum sigprocess)).2.filterMap Effect.called =
          [s.sigHandlers k] := by
  simp only [Event.target] at h
  split_ifs at h with hdropped
  cases h
  push Not at hdropped
  simp only [State.event, sigexcHandler, if_neg hdropped.1, if_neg hdropped.2.1,
    if_neg hdropped.2.2]
  rcases hh : s.sigHandlers (signumBsdToLinux (sigprocess (signumLinuxToBsd linuxSignum)))
    with _ | _ | _ | address
  · refine .inl ⟨.inr rfl, ?_⟩
    split_ifs <;> rfl
  · exact .inl ⟨.inl rfl, rfl⟩
  · exact .inr ⟨rfl, by simp only [handlerLinuxToBsd, hh]; rfl⟩
  · exact .inr ⟨rfl, by simp only [handlerLinuxToBsd, hh]; rfl⟩

section

variable (h : Saved s n a) (hreset : a.saFlags &&& linuxSaResethand = 0)

include h hreset

theorem Saved.handlerLinuxToBsd (k : ℕ) : Saved (handlerLinuxToBsd s k).1 n a := by
  rw [Signal.handlerLinuxToBsd]
  by_cases hk : s.sigFlags k &&& linuxSaResethand ≠ 0
  · rw [if_pos hk]
    have hne : n ≠ k := by
      rintro rfl
      exact hk (h.flags ▸ hreset)
    exact ⟨by rw [← h.handler]; exact Function.update_of_ne hne _ _, h.flags, h.mask, h.kernel⟩
  · rwa [if_neg hk]

theorem Saved.event (he : ¬ e.Installs n) : Saved (s.event e).1 n a := by
  rcases e with c | ⟨linuxSignum, sigprocess⟩
  · exact h.call (by simpa [Event.Installs, or_iff_not_imp_left] using he)
  · rcases hk : (Event.deliver linuxSignum sigprocess).target with _ | k
    · rw [event_of_target_none hk]
      exact h
    · rcases event_of_target hk with ⟨-, hs⟩ | ⟨hs, -⟩
      · rwa [hs]
      · rw [hs]
        exact h.handlerLinuxToBsd hreset k

end

theorem Saved.called (h : Saved s n a) (hign : a.saSigaction ≠ .ign) (hdfl : a.saSigaction ≠ .dfl)
    (he : e.target = some n) : (s.event e).2.filterMap Effect.called = [a.saSigaction] := by
  rcases e with c | ⟨linuxSignum, sigprocess⟩
  · cases he
  · rw [← h.handler] at hign hdfl ⊢
    rcases event_of_target he with ⟨hh | hh, -⟩ | ⟨-, hcalled⟩
    · exact absurd hh hign
    · exact absurd hh hdfl
    · exact hcalled

theorem Saved.events (hreset : a.saFlags &&& linuxSaResethand = 0) :
    ∀ {es : List Event} {s : State}, Saved s n a → (∀ e ∈ es, ¬ e.Installs n) →
    Saved (es.foldl (fun s e => (s.event e).1) s) n a
  | [], _, h, _ => h
  | e :: es, s, h, hes => by
    obtain ⟨he, hes⟩ := List.forall_mem_cons.1 hes
    have ih := Saved.events hreset (h.event hreset he) hes
    exact ih

theorem Saved.invocations (hreset : a.saFlags &&& linuxSaResethand = 0)
    (hign : a.saSigaction ≠ .ign) (hdfl : a.saSigaction ≠ .dfl) :
    ∀ {es : List Event} {s : State}, Saved s n a → (∀ e ∈ es, ¬ e.Installs n) →
    (invocations n s es).length = es.countP (·.target = some n)
  | [], _, _, _ => rfl
  | e :: es, s, h, hes => by
    obtain ⟨he, hes⟩ := List.forall_mem_cons.1 hes
    have ih := Saved.invocations hreset hign hdfl (h.event hreset he) hes
    rw [Signal.invocations, List.length_append, ih, List.countP_cons, Nat.add_comm]
    by_cases ht : e.target = some n
    · simp [ht, h.called hign hdfl ht]
    · simp [ht]

/-- After an installation, as long as there is no other one for the signal: a handler without
`SA_RESETHAND` stays, and one with it is called once exactly if the signal is delivered once. -/
theorem resethand_iff (s : State) (signum : ℕ) (a : BsdSigaction) (es : List Event)
    (hmapped : signumBsdToLinux signum ≠ 0) (hflags : a.saFlags &&& ~~~bsdSaFlags = 0)
    (hign : a.saSigaction ≠ .ign) (hdfl : a.saSigaction ≠ .dfl)
    (hes : ∀ e ∈ es, ¬ e.Installs (signumBsdToLinux signum)) :
    Serves (signumBsdToLinux signum) a (s.call ⟨signum, some a⟩) es ↔
      (a.saFlags &&& bsdSaResethand ≠ 0 →
        es.countP (·.target = some (signumBsdToLinux signum)) ≤ 1) := by
  have hreset := resethand_of_bsd hflags
  have hsaved : Saved (s.call ⟨signum, some a⟩) (signumBsdToLinux signum) a := call_saved hmapped
  rw [Serves]
  split_ifs with h
  · rw [Saved.invocations hreset hign hdfl hsaved hes]
    exact ⟨fun hle _ => hle, fun himp => himp h⟩
  · refine iff_of_true (fun pre hpre => ?_) fun h' => absurd h' h
    exact (Saved.events hreset hsaved fun e he => hes e (hpre.subset he)).handler

theorem resethand_delivered : Serves (signumBsdToLinux sigusr1) ⟨.function 4096, 0, bsdSaResethand⟩
      (initial.call ⟨sigusr1, some ⟨.function 4096, 0, bsdSaResethand⟩⟩)
      [.deliver linuxSigusr1 id] :=
  (resethand_iff initial sigusr1 _ _ (by decide) (by decide) (by decide) (by decide)
    (by simp [Event.Installs])).2 (by decide)

/-- The second `SIGUSR1` calls the handler again. -/
theorem resethand_twice :
    invocations linuxSigusr1 (initial.call ⟨sigusr1, some ⟨.function 4096, 0, bsdSaResethand⟩⟩)
      [.deliver linuxSigusr1 id, .deliver linuxSigusr1 id] = [.function 4096, .function 4096] := by
  decide

end Deliveries

end Darling.Signal
