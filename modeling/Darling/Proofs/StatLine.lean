import Darling.ProcInfo
import Darling.Proofs.LoadProc
import Darling.StatLine

/-!
# What is read of a line of `/proc/<pid>/stat`

`next_stat_elem` stays in front of the terminator exactly in texts that are elements with their
separators behind them.  Of a line `load_proc` and `_proc_pidinfo_shortbsdinfo` read the first
elements, which are the fields if the name has no closing parenthesis.  The priority and the nice
value are read ten fields too early.
-/

namespace Darling.SysctlProc

open CArray List

variable {n : ℕ} {c : Byte}

section Tokens

/-- The calls of `next_stat_elem`, one after the other. -/
def nthCall : ℕ → Option Bytes → Except Halt (Option Bytes × Option Bytes)
  | 0, buf => nextStatElem buf
  | n + 1, buf => do
    let r ← nextStatElem buf
    nthCall n r.2

/-- Elements one after the other: a name in parentheses and the byte behind it, or a word and the
blank behind it. -/
inductive Tokens : Bytes → Prop
  | nil : Tokens []
  | paren (a : Bytes) (x : Byte) {s : Bytes} (h : 41 ∉ a) (hs : Tokens s) :
      Tokens (40 :: (a ++ 41 :: x :: s))
  | word (a : Bytes) {s : Bytes} (h : 32 ∉ a) (hhead : a.head? ≠ some 40) (hs : Tokens s) :
      Tokens (a ++ 32 :: s)

theorem nthCall_nil : ∀ n : ℕ, nthCall n (some []) = .ok (none, some [])
  | 0 => rfl
  | n + 1 => by
    rw [nthCall, nextStatElem, ok_bind]
    exact nthCall_nil n

theorem nthCall_succ {buf buf' elem : Option Bytes}
    (h : nextStatElem buf = .ok (elem, buf')) : nthCall (n + 1) buf = nthCall n buf' := by
  rw [nthCall, h, ok_bind]

/-- The calls return elements, then nothing, and stay inside the text. -/
def Exhausts (s : Bytes) : Prop :=
  ∃ N, (∀ n < N, ∃ elem buf, nthCall n (some s) = .ok (some elem, buf)) ∧
    ∀ n, N ≤ n → nthCall n (some s) = .ok (none, some [])

variable {s t : Bytes}

theorem Exhausts.cons {elem : Bytes} (hnext : nextStatElem (some s) = .ok (some elem, some t))
    (h : Exhausts t) : Exhausts s := by
  obtain ⟨N, hlt, hge⟩ := h
  refine ⟨N + 1, fun n hn => ?_, fun n hn => ?_⟩
  · cases n with
    | zero => exact ⟨_, _, hnext⟩
    | succ n =>
      rw [nthCall_succ hnext]
      exact hlt n (by omega)
  · obtain ⟨m, rfl⟩ := Nat.exists_eq_add_of_le' (Nat.one_le_of_lt hn)
    rw [nthCall_succ hnext]
    exact hge m (by omega)

theorem nextStatElem_closed {a : Bytes} (x : Byte) (s : Bytes) (h : 41 ∉ a) :
    nextStatElem (some (40 :: (a ++ 41 :: x :: s))) = .ok (some a, some s) := by
  rw [nextStatElem_paren _ h]
  simp [advance]

theorem Tokens.exhausts (h : Tokens s) : Exhausts s := by
  induction h with
  | nil => exact ⟨0, fun n hn => absurd hn (Nat.not_lt_zero n), fun n _ => nthCall_nil n⟩
  | paren a x h _ ih => exact ih.cons (nextStatElem_closed x _ h)
  | word a h hhead _ ih => exact ih.cons (nextStatElem_word _ h hhead)

theorem Exhausts.ok (h : Exhausts s) (n : ℕ) : ∃ r, nthCall n (some s) = .ok r := by
  obtain ⟨N, hlt, hge⟩ := h
  rcases Nat.lt_or_ge n N with hn | hn
  · obtain ⟨elem, buf, h⟩ := hlt n hn
    exact ⟨_, h⟩
  · exact ⟨_, hge n hn⟩

theorem nthCall_one_of_end {elem : Option Bytes}
    (h : nextStatElem (some s) = .ok (elem, none)) : nthCall 1 (some s) = .error .outside := by
  rw [nthCall_succ h]
  rfl

theorem nextStatElem_open (h : 41 ∉ t) : nextStatElem (some (40 :: t)) = .ok (some t, none) := by
  have hall : ∀ c ∈ t, decide (c ≠ 41) = true := fun c hc => decide_eq_true fun e => h (e ▸ hc)
  rw [nextStatElem, if_pos rfl, takeWhile_eq_self_iff.2 hall, dropWhile_eq_nil_iff.2 hall]
  rfl

theorem nextStatElem_last (hc : c ≠ 40) (h : 32 ∉ c :: t) :
    nextStatElem (some (c :: t)) = .ok (some (c :: t), none) := by
  have hall : ∀ b ∈ c :: t, decide (b ≠ 32) = true := fun b hb => decide_eq_true fun e => h (e ▸ hb)
  rw [nextStatElem, if_neg hc, takeWhile_eq_self_iff.2 hall, dropWhile_eq_nil_iff.2 hall]
  rfl

theorem tokens_of_calls : ∀ (k : ℕ) {s : Bytes}, s.length ≤ k →
    (∀ n, ∃ r, nthCall n (some s) = .ok r) → Tokens s
  | _, [], _, _ => .nil
  | k + 1, c :: t, hk, h => by
    have hlast {elem : Option Bytes} (hnext : nextStatElem (some (c :: t)) = .ok (elem, none)) :
        False := by
      obtain ⟨r, hr⟩ := h 1
      rw [nthCall_one_of_end hnext] at hr
      cases hr
    have hrest {elem : Option Bytes} {s : Bytes} (hs : s.length ≤ k)
        (hnext : nextStatElem (some (c :: t)) = .ok (elem, some s)) : Tokens s :=
      tokens_of_calls k hs fun n => by
        rw [← nthCall_succ hnext]
        exact h (n + 1)
    by_cases hc : c = 40
    · subst hc
      by_cases ht : (41 : Byte) ∈ t
      · obtain ⟨a, b, rfl, ha⟩ := eq_append_cons_of_mem ht
        cases b with
        | nil => exact (hlast (nextStatElem_paren [] ha)).elim
        | cons x s =>
          refine .paren a x ha (hrest ?_ (nextStatElem_closed x s ha))
          simp only [length_cons, length_append] at hk
          omega
      · exact (hlast (nextStatElem_open ht)).elim
    · by_cases ht : (32 : Byte) ∈ c :: t
      · obtain ⟨a, s, hsplit, ha⟩ := eq_append_cons_of_mem ht
        have hhead : a.head? ≠ some 40 := by
          cases a with
          | nil => simp
          | cons d a =>
            obtain rfl : c = d := (List.cons.inj hsplit).1
            simpa using hc
        have hlen := congrArg List.length hsplit
        simp only [length_cons, length_append] at hlen hk
        rw [hsplit] at hrest ⊢
        exact .word a ha hhead (hrest (by omega) (nextStatElem_word s ha hhead))
      · exact (hlast (nextStatElem_last hc ht)).elim

end Tokens

section Line

variable (p : StatLine)

theorem notMem_statWords (h : isdigit c = false) (h45 : c ≠ 45) (hstate : p.state ≠ c) :
    ∀ w ∈ p.words, c ∉ w := by
  intro w hw
  simp only [StatFields.words, mem_append, mem_cons, not_mem_nil, or_false, mem_ofFn] at hw
  rcases hw with (rfl | rfl | rfl | rfl | rfl | rfl | rfl) | ⟨i, rfl⟩ | rfl | rfl | rfl | rfl | rfl
  · simpa using hstate.symm
  all_goals first
    | exact not_mem_decimal _ h
    | exact not_mem_decimalInt _ h h45

theorem reads_statWords : Reads p.words (some (p.words.flatMap (· ++ [32]) ++ p.more)) :=
  reads_words _ fun w hw => ⟨notMem_statWords p (by decide) (by decide) p.state_ok.2.1 w hw,
    notMem_statWords p (by decide) (by decide) p.state_ok.2.2 w hw⟩

theorem zero_notMem_text : 0 ∉ p.text := by
  have hwords := notMem_statWords p (by decide) (by decide) p.state_ok.1
  simp only [StatFields.text, mem_append, mem_cons, mem_flatMap, not_or, not_exists, not_and]
  exact ⟨not_mem_decimal _ (by decide), by decide, by decide, p.comm_nul, by decide, by decide,
    fun w hw => ⟨hwords w hw, by decide, not_mem_nil⟩, p.more_nul⟩

theorem readString_text {env : Env} {name : Bytes} (h : env.stat name = some p.text) :
    readString env name = .ok p.text := by
  have hlen := p.length_lt
  have hall : ∀ c ∈ p.text, decide (c ≠ 0) = true := fun c hc =>
    decide_eq_true fun h0 => zero_notMem_text p (h0 ▸ hc)
  rw [readString, h]
  simp only [take_of_length_le (show p.text.length ≤ 1023 by omega), takeWhile_eq_self_iff.2 hall]

theorem canRead_statLine : CanRead 22 (some p.text) := canRead_text (reads_statWords p).canRead

theorem reads_statLine (hcomm : 41 ∉ p.comm) :
    Reads (decimal p.pid :: p.comm :: p.words) (some p.text) := reads_text hcomm (reads_statWords p)

end Line

theorem CanRead.mono : ∀ {m n : ℕ} {buf : Option Bytes}, m ≤ n → CanRead n buf → CanRead m buf
  | 0, _, _, _, _ => trivial
  | _ + 1, _ + 1, _, h, ⟨elem, buf', hnext, hn⟩ => ⟨elem, buf', hnext, hn.mono (by omega)⟩

theorem Reads.elements_take :
    ∀ {n : ℕ} {elems : List Bytes} {buf : Option Bytes}, n ≤ elems.length →
    Reads elems buf → elements n buf = elems.take n
  | 0, _, _, _, _ => rfl
  | n + 1, elem :: elems, _, h, ⟨buf', hnext, hr⟩ => by
    rw [elements_succ hnext, take_succ_cons, hr.elements_take (by simpa using h)]

theorem takeWhile_append_cons : ∀ (a b : Bytes),
    (a ++ c :: b).takeWhile (· ≠ c) = a.takeWhile (· ≠ c)
  | [], b => by simp
  | x :: a, b => by
    simp only [cons_append, takeWhile_cons]
    rw [takeWhile_append_cons a b]

theorem elements_comm (p : StatLine) (n : ℕ) :
    (elements (n + 2) (some p.text)).getD 1 [] = p.comm.takeWhile (· ≠ 41) := by
  have hname (t : Bytes) : nextStatElem (some (40 :: t)) =
      .ok (some (t.takeWhile (· ≠ 41)), advance 2 (t.dropWhile (· ≠ 41))) := by
    rw [nextStatElem, if_pos rfl]
  rw [StatFields.text, elements_succ (nextStatElem_pid _ _), elements_succ (hname _),
    takeWhile_append_cons]
  rfl

theorem atoi_decimalInt {n : ℤ} (h : n < 2 ^ 64) : atoi (decimalInt n) = n.toNat := by
  unfold decimalInt
  split_ifs with hneg
  · rw [Int.toNat_of_nonpos hneg.le]
    rfl
  · rw [atoi_decimal (by omega)]
    omega

theorem int32_of_lt (h : n < 2 ^ 31) : int32 n = n := bmod_of_lt h

section Load

variable {env : Env} {p : StatLine}

abbrev StatLine.elems (p : StatLine) : List Bytes := elements 9 (some p.text)

section

variable (hstat : env.stat (decimal p.pid) = some p.text) (flag : ℤ)

include hstat flag

theorem loadProc_all : loadProc env (decimal p.pid) (.select .all) flag =
      .ok (kinfoOf env (decimal p.pid) p.elems) := by
  rw [loadProc_of_canRead _ _ (readString_text p hstat) ((canRead_statLine p).mono (by decide)),
    if_pos]
  simp [Rejects]

theorem loadProc_session : (∃ k, loadProc env (decimal p.pid) (.select .session) flag = .ok k) ↔
      flag = int32 (atoi (p.elems.getD 5 [])) := by
  rw [loadProc_of_canRead _ _ (readString_text p hstat) ((canRead_statLine p).mono (by decide))]
  split_ifs with h
  · simp only [true_and, not_not, Rejects, not_false_eq_true, and_true] at h
    exact iff_of_true ⟨_, rfl⟩ h.symm
  · simp only [true_and, not_not, Rejects, not_false_eq_true, and_true] at h
    exact iff_of_false (by rintro ⟨k, hk⟩; cases hk) (Ne.symm h)

end

theorem elems_eq (hcomm : 41 ∉ p.comm) : p.elems =
    [decimal p.pid, p.comm, [p.state], decimal p.ppid, decimal p.pgrp, decimal p.session,
      decimalInt p.tty, decimalInt p.tpgid, decimal p.flags] := by
  rw [StatLine.elems, (reads_statLine p hcomm).elements_take (by simp [StatFields.words])]
  rfl

/-- `load_proc` extracts the fields that proc(5) has at their positions; the session shows in what
is selected by it. -/
structure Extracts (env : Env) (p : StatLine) : Prop where
  loads : ∃ k, loadProc env (decimal p.pid) (.select .all) 0 = .ok k ∧ k.comm = p.comm.take 17 ∧
    k.stat = procStat [p.state] ∧ k.ppid = p.ppid ∧ k.pgid = p.pgrp ∧ k.tdev = p.tty ∧
    (k.priority : ℤ) = p.priority % 2 ^ 8 ∧ k.nice = p.nice.bmod (2 ^ 8)
  session : ∀ flag, (∃ k, loadProc env (decimal p.pid) (.select .session) flag = .ok k) ↔
    flag = p.session

/-- The lines for which it does: the fields 8 and 9 are taken for the priority and the nice
value. -/
def StatLine.Readable (p : StatLine) : Prop :=
  41 ∉ p.comm ∧ 0 ≤ p.tty ∧ (p.tpgid.toNat : ℤ) % 2 ^ 8 = p.priority % 2 ^ 8 ∧
    (p.flags : ℤ) % 2 ^ 8 = p.nice % 2 ^ 8

theorem int32_tty (p : StatLine) : int32 (atoi (decimalInt p.tty)) = p.tty ↔ 0 ≤ p.tty := by
  have hlt := p.tty_lt
  rw [atoi_decimalInt (by omega), int32_of_lt (by omega)]
  omega

theorem emod_tpgid (p : StatLine) :
    ((atoi (decimalInt p.tpgid) % 2 ^ 8 : ℕ) : ℤ) = (p.tpgid.toNat : ℤ) % 2 ^ 8 := by
  have hlt := p.tpgid_lt
  rw [atoi_decimalInt (by omega)]
  rfl

theorem bmod_eq_iff {a b : ℤ} : a.bmod n = b.bmod n ↔ a % n = b % n := by
  constructor
  · intro h
    rw [← Int.bmod_emod, h, Int.bmod_emod]
  · intro h
    rw [← Int.emod_bmod, h, Int.emod_bmod]

theorem bmod_flags (p : StatLine) :
    Int.bmod (atoi (decimal p.flags)) (2 ^ 8) = p.nice.bmod (2 ^ 8) ↔
    (p.flags : ℤ) % 2 ^ 8 = p.nice % 2 ^ 8 := by
  have hlt := p.flags_lt
  rw [atoi_decimal (by omega)]
  exact bmod_eq_iff

theorem extracts_iff_of_comm (hstat : env.stat (decimal p.pid) = some p.text)
    (hcomm : 41 ∉ p.comm) : Extracts env p ↔ p.Readable := by
  have hload := loadProc_all hstat 0
  have hsession := loadProc_session hstat
  simp only [kinfoOf, elems_eq hcomm, getD_cons_succ, getD_cons_zero,
    int32_atoi_decimal p.ppid_lt, int32_atoi_decimal p.pgrp_lt, int32_atoi_decimal p.session_lt]
    at hload hsession
  constructor
  · rintro ⟨⟨k, hk, -, -, -, -, htdev, hprio, hnice⟩, -⟩
    rw [hload] at hk
    obtain rfl := Except.ok.inj hk
    dsimp only at htdev hprio hnice
    rw [emod_tpgid] at hprio
    exact ⟨hcomm, (int32_tty p).1 htdev, hprio, (bmod_flags p).1 hnice⟩
  · rintro ⟨-, hpos, hprio, hnice⟩
    refine ⟨⟨_, hload, rfl, rfl, rfl, rfl, ?_, ?_, ?_⟩, hsession⟩
    · dsimp only
      exact (int32_tty p).2 hpos
    · dsimp only
      rw [emod_tpgid]
      exact hprio
    · dsimp only
      exact (bmod_flags p).2 hnice

theorem comm_of_extracts (hstat : env.stat (decimal p.pid) = some p.text)
    (hfar : 41 ∈ p.comm → 41 ∈ p.comm.take 17) (h : Extracts env p) : 41 ∉ p.comm := by
  intro hmem
  obtain ⟨k, hk, hcomm, -⟩ := h.loads
  rw [loadProc_all hstat] at hk
  obtain rfl := Except.ok.inj hk
  have hname : (p.comm.takeWhile (· ≠ 41)).take 17 = p.comm.take 17 := by
    rw [← elements_comm p 7]
    exact hcomm
  have h41 := hfar hmem
  rw [← hname] at h41
  have := mem_takeWhile_imp (mem_of_mem_take h41)
  simp at this

end Load

section ShortBsdInfo

theorem clearBuffer_eq {ι : Type} {before : ι} {bufsize size : ℤ} (h : 0 ≤ size)
    (hsize : size ≤ bufsize) : clearBuffer bufsize size before = .ok () := by
  rw [clearBuffer, if_neg (by omega), if_neg (by omega)]

theorem elemOr_eq {ι : Type} {info : ι} {buf buf' : Option Bytes} {elem : Bytes}
    (h : nextStatElem buf = .ok (some elem, buf')) : elemOr info buf = .ok (elem, buf') := by
  rw [elemOr, h]

theorem skipStatElems_succ {ι : Type} {buf buf' elem : Option Bytes}
    (h : nextStatElem buf = .ok (elem, buf')) :
    (skipStatElems (n + 1) buf : Except (Exit ι) _) = skipStatElems n buf' := by
  rw [skipStatElems, h]

theorem toNat_bmod_emod (n : ℕ) : (Int.bmod n (2 ^ 32) % 2 ^ 32).toNat = n % 2 ^ 32 := by
  simp only [Int.bmod]
  split_ifs <;> omega

theorem uint32_int32 (n : ℕ) : uint32 (int32 n) = n % 2 ^ 32 := toNat_bmod_emod n

/-- The fields that both structures have are the same. -/
structure SharedFields (k : KinfoProc) (i : BsdShortInfo) : Prop where
  pid : i.pid = uint32 k.pid
  comm : i.comm = k.comm.take 16
  status : i.status = some k.stat
  ppid : i.ppid = uint32 k.ppid
  pgid : i.pgid = uint32 k.pgid
  lp64 : i.lp64 = k.lp64
  uid : i.uid = k.uid
  gid : i.gid = k.gid

theorem shortbsdinfo_shared {env : Env} {p : StatLine} {bufsize : ℤ} (before : BsdShortInfo)
    (hstat : env.stat (decimal p.pid) = some p.text) (hsize : shortInfoSize ≤ bufsize) :
    ∃ i, procPidinfoShortbsdinfo env p.pid bufsize before = some (1, i) ∧
      SharedFields (kinfoOf env (decimal p.pid) p.elems) i := by
  obtain ⟨e0, b1, h0, e1, b2, h1, e2, b3, h2, e3, b4, h3, e4, b5, h4, hmore⟩ :=
    (canRead_statLine p).mono (show 9 ≤ 22 by decide)
  have hes : p.elems = e0 :: e1 :: e2 :: e3 :: e4 :: elements 4 b5 := by
    rw [StatLine.elems, elements_succ h0, elements_succ h1, elements_succ h2, elements_succ h3,
      elements_succ h4]
  have hname : decimalInt p.pid = decimal p.pid := by
    rw [decimalInt, if_neg (by omega), Int.natAbs_natCast]
  have hread : (statOr env p.pid BsdShortInfo.zero : Except (Exit BsdShortInfo) _) =
    .ok p.text := by
    rw [statOr, hname, readString_text p hstat]
  have hskip : (skipStatElems 1 (some p.text) : Except (Exit BsdShortInfo) _) = .ok b1 := by
    rw [skipStatElems_succ h0, skipStatElems]
  rw [procPidinfoShortbsdinfo, clearBuffer_eq (by decide) hsize]
  simp only [hread, hskip, elemOr_eq h1, elemOr_eq h2, elemOr_eq h3, elemOr_eq h4, ok_bind, leave,
    pure, Except.pure]
  refine ⟨_, rfl, ?_⟩
  rw [hes]
  constructor
  all_goals simp only [kinfoOf, getD_cons_succ, getD_cons_zero, uint32_int32,
    int32_atoi_decimal p.pid_lt]
  · rw [take_take]
    rfl

end ShortBsdInfo

/-- `load_proc` extracts the fields of the lines that are readable, and of no others unless the
first closing parenthesis of the name is behind its 17th byte; the two records agree on every line;
and a text is read to its end and no further exactly if it is made of elements. -/
theorem statLine_read {env : Env} {p : StatLine} (hstat : env.stat (decimal p.pid) = some p.text) :
    (p.Readable → Extracts env p) ∧
    ((41 ∈ p.comm → 41 ∈ p.comm.take 17) → Extracts env p → p.Readable) ∧
    (∀ bufsize before, shortInfoSize ≤ bufsize → ∃ k i,
      loadProc env (decimal p.pid) (.select .all) 0 = .ok k ∧
      procPidinfoShortbsdinfo env p.pid bufsize before = some (1, i) ∧ SharedFields k i) ∧
    ∀ s : Bytes, ((∀ n, ∃ r, nthCall n (some s) = .ok r) ↔ Tokens s) ∧ (Tokens s → Exhausts s) := by
  refine ⟨fun h => (extracts_iff_of_comm hstat h.1).2 h, fun hfar h => ?_,
    fun bufsize before hsize => ?_,
    fun s => ⟨⟨tokens_of_calls _ le_rfl, fun h => h.exhausts.ok⟩, Tokens.exhausts⟩⟩
  · exact (extracts_iff_of_comm hstat (comm_of_extracts hstat hfar h)).1 h
  · obtain ⟨i, hi, hshared⟩ := shortbsdinfo_shared before hstat hsize
    exact ⟨_, i, loadProc_all hstat 0, hi, hshared⟩

def sampleFields (pid ppid : ℕ) (tpgid : ℤ) : StatFields where
  pid := pid
  comm := [97]
  state := 83
  ppid := ppid
  pgrp := pid
  session := pid
  tty := 0
  tpgid := tpgid
  flags := 256
  faults _ := 0
  priority := 20
  nice := 0
  threads := 1
  itreal := 0
  start := 5
  more := [10]

def foreground : StatLine := (sampleFields 7 1 20).line (by decide)

def background : StatLine := (sampleFields 7 1 (-1)).line (by decide)

def oneProcess (p : StatLine) : Env := ⟨fun _ => some p.text, fun _ => true, 501, 20⟩

theorem statLine_read_foreground :
    Extracts (oneProcess foreground) foreground ∧ Exhausts [49, 32] := by
  have hstat : (oneProcess foreground).stat (decimal foreground.pid) = some foreground.text := rfl
  have h := statLine_read hstat
  refine ⟨h.1 ⟨by decide, by decide, by decide, by decide⟩, (h.2.2.2 [49, 32]).2 ?_⟩
  exact .word [49] (by decide) (by decide) .nil

/-- Without a foreground process the priority is read as 0; the second call on `1` reads behind
it. -/
theorem loadProc_priority :
    (loadProc (oneProcess background) (decimal 7) (.select .all) 0).toOption.map (·.priority) =
      some 0 ∧ background.priority = 20 ∧ nthCall 1 (some [49]) = .error .outside := ⟨rfl, rfl, rfl⟩

end Darling.SysctlProc
