import Darling.Proofs.StatLine
import Mathlib.Data.List.GetD

/-!
# Unique identifiers of processes

`_proc_pidonfo_uniqinfo` puts the identifier of a process together from its start time and the low
16 bits of its number, and that of its parent from the parent's line in the same way, by two paths
that count the fields on their own.
-/

namespace Darling.SysctlProc

/-- These are the processes, and `/proc` has their lines. -/
structure Alive (env : Env) (ps : Set StatLine) : Prop where
  stat : ∀ p ∈ ps, env.stat (decimal p.pid) = some p.text
  line : ∀ name text, env.stat name = some text → ∃ p ∈ ps, text = p.text

section UniqInfo

variable {env : Env} {ps : Set StatLine} {p q : StatLine}

def StatLine.startElem (p : StatLine) : Bytes := (elements 22 (some p.text)).getD 21 []

variable {ι : Type}

theorem skipStatElems_eq : ∀ {n m : ℕ} {buf : Option Bytes}, CanRead (n + m) buf →
    ∃ buf', (skipStatElems n buf : Except (Exit ι) _) = .ok buf' ∧ CanRead m buf' ∧
      elements (n + m) buf = elements n buf ++ elements m buf'
  | 0, m, buf, h => ⟨buf, rfl, by simpa using h, by simp [elements]⟩
  | n + 1, m, buf, h => by
    rw [Nat.add_right_comm] at h
    obtain ⟨elem, buf₁, hnext, hrest⟩ := h
    obtain ⟨buf', hskip, hcan, helems⟩ := skipStatElems_eq hrest
    refine ⟨buf', by rw [skipStatElems_succ hnext, hskip], hcan, ?_⟩
    rw [Nat.add_right_comm, elements_succ hnext, elements_succ hnext, helems, List.cons_append]

theorem elemOr_skipStatElems (info : ι) {n m : ℕ} {buf : Option Bytes}
    (h : CanRead (n + (m + 1)) buf) : ∃ buf' buf'',
      (skipStatElems n buf : Except (Exit ι) _) = .ok buf' ∧
      elemOr info buf' = .ok ((elements (n + (m + 1)) buf).getD n [], buf'') ∧ CanRead m buf'' ∧
      elements (n + (m + 1)) buf =
        elements n buf ++ (elements (n + (m + 1)) buf).getD n [] :: elements m buf'' := by
  obtain ⟨buf', hskip, ⟨elem, buf'', hnext, hcan⟩, helems⟩ := skipStatElems_eq h
  have hlen : (elements n buf).length = n := (h.mono (Nat.le_add_right _ _)).length
  rw [elements_succ hnext] at helems
  have hget : (elements (n + (m + 1)) buf).getD n [] = elem := by
    rw [helems, List.getD_append_right _ _ _ _ hlen.le, hlen, Nat.sub_self]
    rfl
  rw [hget]
  exact ⟨buf', buf'', hskip, elemOr_eq hnext, hcan, helems⟩

def StatLine.ppidElem (p : StatLine) : Bytes := (elements 22 (some p.text)).getD 3 []

theorem statOr_eq {info : ι} {pid : ℤ}
    (h : env.stat (decimalInt pid) = some p.text) : statOr env pid info = .ok p.text := by
  rw [statOr, readString_text p h]

theorem decimalInt_natCast (n : ℕ) : decimalInt n = decimal n := by
  rw [decimalInt, if_neg (by omega), Int.natAbs_natCast]

theorem read_own (info : ι) (p : StatLine) : ∃ b₁ b₂ b₃ b₄,
    (skipStatElems 3 (some p.text) : Except (Exit ι) _) = .ok b₁ ∧
    elemOr info b₁ = .ok (p.ppidElem, b₂) ∧
    (skipStatElems 17 b₂ : Except (Exit ι) _) = .ok b₃ ∧
    elemOr info b₃ = .ok (p.startElem, b₄) := by
  have h22 : CanRead (3 + (18 + 1)) (some p.text) := canRead_statLine p
  obtain ⟨b₁, b₂, hskip, helem, hcan, heq⟩ := elemOr_skipStatElems info h22
  obtain ⟨b₃, b₄, hskip', helem', -, -⟩ :=
    elemOr_skipStatElems info (show CanRead (17 + (0 + 1)) b₂ from hcan)
  refine ⟨b₁, b₂, b₃, b₄, hskip, helem, hskip', ?_⟩
  have hlen : (elements 3 (some p.text)).length = 3 := (h22.mono (Nat.le_add_right _ _)).length
  have hstart : p.startElem = (elements (17 + (0 + 1)) b₂).getD 17 [] := by
    rw [StatLine.startElem, show elements 22 (some p.text) = _ from heq,
      List.getD_append_right _ _ _ _ (by omega), hlen]
    rfl
  rw [hstart]
  exact helem'

theorem read_parent (info : ι) (q : StatLine) : ∃ b₁ b₂,
    (skipStatElems 21 (some q.text) : Except (Exit ι) _) = .ok b₁ ∧
      elemOr info b₁ = .ok (q.startElem, b₂) := by
  obtain ⟨b₁, b₂, hskip, helem, -, -⟩ :=
    elemOr_skipStatElems info (show CanRead (21 + (0 + 1)) (some q.text) from canRead_statLine q)
  exact ⟨b₁, b₂, hskip, helem⟩

theorem uniqinfo_eq (halive : Alive env ps) (hp : p ∈ ps) {bufsize : ℤ}
    (hsize : uniqInfoSize ≤ bufsize)
    (before : UniqInfo) : ∃ code info, procPidonfoUniqinfo env p.pid bufsize before = some
      (code, info) ∧
      info.uniqueid = uniqueId (atoi p.startElem) p.pid ∧
      ∀ q : StatLine, env.stat (decimalInt (int32 (atoi p.ppidElem))) = some q.text →
        info.puniqueid = uniqueId (atoi q.startElem) (int32 (atoi p.ppidElem)) := by
  obtain ⟨b₁, b₂, b₃, b₄, h₁, h₂, h₃, h₄⟩ := read_own (⟨0, 0⟩ : UniqInfo) p
  have hown : statOr env p.pid (⟨0, 0⟩ : UniqInfo) = .ok p.text :=
    statOr_eq (by rw [decimalInt_natCast]; exact halive.stat p hp)
  let info : UniqInfo := ⟨uniqueId (atoi p.startElem) p.pid, 0⟩
  rw [procPidonfoUniqinfo, clearBuffer_eq (by decide) hsize]
  simp only [hown, h₁, h₂, h₃, h₄, ok_bind]
  rcases hstat : env.stat (decimalInt (int32 (atoi p.ppidElem))) with _ | text
  · refine ⟨fail esrch, info, ?_, rfl, fun q h => nomatch h⟩
    rw [statOr, readString, hstat]
    rfl
  · obtain ⟨q, -, rfl⟩ := halive.line _ _ hstat
    obtain ⟨b₅, b₆, h₅, h₆⟩ := read_parent info q
    refine ⟨1, { info with puniqueid := uniqueId (atoi q.startElem) (int32 (atoi p.ppidElem)) }, ?_,
      rfl, fun q' h => ?_⟩
    · rw [statOr_eq hstat]
      simp only [info] at h₅ h₆
      simp only [ok_bind, h₅, h₆]
      rfl
    · have htext : q.text = q'.text := Option.some.inj h
      simp [StatLine.startElem, htext]

theorem uint32_natCast {n : ℕ} (h : n < 2 ^ 31) : uint32 n = n := by
  unfold uint32
  omega

theorem uniqueId_eq {start pid : ℕ} (hstart : start < 2 ^ 48) (hpid : pid < 2 ^ 31) :
    uniqueId start pid = 2 ^ 16 * start + pid % 2 ^ 16 := by
  have hshift : start <<< 16 % 2 ^ 64 = 2 ^ 16 * start := by
    rw [Nat.shiftLeft_eq]
    omega
  rw [uniqueId, uint32_natCast hpid, hshift, ← Nat.two_pow_add_eq_or_of_lt
    (Nat.mod_lt _ (by decide))]

theorem uniqueId_inj {start start' pid pid' : ℕ} (hstart : start < 2 ^ 48)
    (hstart' : start' < 2 ^ 48) (hpid : pid < 2 ^ 31) (hpid' : pid' < 2 ^ 31) :
    uniqueId start pid = uniqueId start' pid' ↔
      start = start' ∧ pid % 2 ^ 16 = pid' % 2 ^ 16 := by
  rw [uniqueId_eq hstart hpid, uniqueId_eq hstart' hpid']
  omega

theorem uniqueId_mod (start : ℕ) {pid : ℕ} (hpid : pid < 2 ^ 31) :
    uniqueId start pid % 2 ^ 16 = pid % 2 ^ 16 := by
  have hshift : start <<< 16 % 2 ^ 64 % 2 ^ 16 = 0 := by
    rw [Nat.shiftLeft_eq]
    omega
  rw [uniqueId, uint32_natCast hpid, Nat.or_mod_two_pow, hshift, Nat.zero_or, Nat.mod_mod]

theorem startElem_eq (hcomm : 41 ∉ p.comm) : p.startElem = decimal p.start := by
  rw [StatLine.startElem, (reads_statLine p hcomm).elements_take (by simp [StatFields.words])]
  rfl

theorem ppidElem_eq (hcomm : 41 ∉ p.comm) : p.ppidElem = decimal p.ppid := by
  rw [StatLine.ppidElem, (reads_statLine p hcomm).elements_take (by simp [StatFields.words])]
  rfl

/-- The identifiers of the process and of its parent. -/
def identifiers (env : Env) (p : StatLine) : Option (ℕ × ℕ) :=
  (procPidonfoUniqinfo env p.pid uniqInfoSize ⟨0, 0⟩).map fun r => (r.2.uniqueid, r.2.puniqueid)

theorem identifiers_fst (halive : Alive env ps) (hp : p ∈ ps) :
    (identifiers env p).map Prod.fst = some (uniqueId (atoi p.startElem) p.pid) := by
  obtain ⟨code, info, hcall, hid, -⟩ := uniqinfo_eq halive hp le_rfl ⟨0, 0⟩
  rw [identifiers, hcall, Option.map_some, Option.map_some, hid]

theorem identifiers_fst_of_comm (halive : Alive env ps) (hp : p ∈ ps) (hcomm : 41 ∉ p.comm) :
    (identifiers env p).map Prod.fst = some (uniqueId p.start p.pid) := by
  rw [identifiers_fst halive hp, startElem_eq hcomm, atoi_decimal p.start_lt]

/-- Processes whose numbers differ in the low bits have distinct identifiers, whatever their names;
among those whose names have no closing parenthesis the identifiers are distinct exactly if no two
that started at one time have numbers with the same low bits.  The identifier that such a process
has for its parent is the parent's own, whatever the name of that. -/
theorem identifiers_distinct (halive : Alive env ps) (hstart : ∀ p ∈ ps, p.start < 2 ^ 48) :
    (∀ p ∈ ps, ∀ q ∈ ps, p.pid % 2 ^ 16 ≠ q.pid % 2 ^ 16 →
      (identifiers env p).map Prod.fst ≠ (identifiers env q).map Prod.fst) ∧
    ((∀ p ∈ ps, 41 ∉ p.comm) →
      ((∀ p ∈ ps, ∀ q ∈ ps, p.pid ≠ q.pid →
          (identifiers env p).map Prod.fst ≠ (identifiers env q).map Prod.fst) ↔
        ∀ p ∈ ps, ∀ q ∈ ps, p.pid ≠ q.pid → p.start = q.start →
          p.pid % 2 ^ 16 ≠ q.pid % 2 ^ 16)) ∧
    ∀ p ∈ ps, ∀ q ∈ ps, 41 ∉ p.comm → p.ppid = q.pid →
      (identifiers env p).map Prod.snd = (identifiers env q).map Prod.fst := by
  refine ⟨fun p hp q hq hne heq => ?_, fun hcomm => forall₂_congr fun p hp =>
    forall₂_congr fun q hq => forall_congr' fun hne => ?_, ?_⟩
  · rw [identifiers_fst halive hp, identifiers_fst halive hq, Option.some.injEq] at heq
    have hmod := congrArg (· % 2 ^ 16) heq
    simp only [uniqueId_mod _ p.pid_lt, uniqueId_mod _ q.pid_lt] at hmod
    exact hne hmod
  · rw [identifiers_fst_of_comm halive hp (hcomm p hp),
      identifiers_fst_of_comm halive hq (hcomm q hq),
      Ne, Option.some.injEq, uniqueId_inj (hstart p hp) (hstart q hq) p.pid_lt q.pid_lt, not_and]
  · intro p hp q hq hcomm hparent
    obtain ⟨code, info, hcall, -, hid⟩ := uniqinfo_eq halive hp le_rfl ⟨0, 0⟩
    rw [ppidElem_eq hcomm, int32_atoi_decimal p.ppid_lt, hparent] at hid
    have hq' := hid q (by rw [decimalInt_natCast]; exact halive.stat q hq)
    rw [identifiers_fst halive hq, identifiers, hcall, Option.map_some, Option.map_some, hq']

end UniqInfo

def twoProcesses (p q : StatLine) : Env :=
  ⟨fun name => if name = decimal p.pid then some p.text
    else if name = decimal q.pid then some q.text else none, fun _ => true, 501, 20⟩

theorem twoProcesses_alive {p q : StatLine} (h : decimal q.pid ≠ decimal p.pid) :
    Alive (twoProcesses p q) {p, q} := by
  refine ⟨?_, fun name text hstat => ?_⟩
  · rintro r (rfl | rfl)
    · exact if_pos rfl
    · exact (if_neg h).trans (if_pos rfl)
  · simp only [twoProcesses] at hstat
    split_ifs at hstat
    · exact ⟨p, by simp, (Option.some.inj hstat).symm⟩
    · exact ⟨q, by simp, (Option.some.inj hstat).symm⟩

def parent : StatLine := (sampleFields 1 0 20).line (by decide)

def double : StatLine := (sampleFields 65543 1 20).line (by decide)

theorem identifiers_distinct_parent :
    (identifiers (twoProcesses foreground parent) foreground).map Prod.fst ≠
      (identifiers (twoProcesses foreground parent) parent).map Prod.fst ∧
    (identifiers (twoProcesses foreground parent) foreground).map Prod.snd =
      (identifiers (twoProcesses foreground parent) parent).map Prod.fst := by
  have halive := twoProcesses_alive (p := foreground) (q := parent) (by decide)
  have h := identifiers_distinct halive (by rintro r (rfl | rfl) <;> decide)
  exact ⟨h.1 foreground (by simp) parent (by simp) (by decide),
    h.2.2 foreground (by simp) parent (by simp) (by decide) rfl⟩

/-- The numbers 7 and 65543, and one start time. -/
theorem identifiers_double : foreground.pid ≠ double.pid ∧
    (identifiers (twoProcesses foreground double) foreground).map Prod.fst =
      (identifiers (twoProcesses foreground double) double).map Prod.fst := by
  have halive := twoProcesses_alive (p := foreground) (q := double) (by decide)
  refine ⟨by decide, ?_⟩
  rw [identifiers_fst_of_comm halive (by simp) (by decide),
    identifiers_fst_of_comm halive (by simp) (by decide)]
  rfl

end Darling.SysctlProc
