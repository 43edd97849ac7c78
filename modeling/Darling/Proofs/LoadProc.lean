import Darling.Procfs
import Darling.Reader

/-!
# What `load_proc` reads of a process

The name of a process ends, for `next_stat_elem`, at its first closing parenthesis, and what is left
of it is taken for fields.  Whatever the name, there are fields enough to read; where it has no such
parenthesis they are those of the process.
-/

namespace Darling.SysctlProc

open CArray Getdirentries List

variable {n : ℕ}

section Elements

section

variable {c : Byte} {a : Bytes} (b : Bytes) (h : c ∉ a)

include h

theorem all_ne : ∀ x ∈ a, decide (x ≠ c) = true := fun _ hx => decide_eq_true fun e => h (e ▸ hx)

theorem takeWhile_ne : (a ++ c :: b).takeWhile (· ≠ c) = a := by
  rw [takeWhile_append_of_pos (all_ne h)]
  simp

theorem dropWhile_ne : (a ++ c :: b).dropWhile (· ≠ c) = c :: b := by
  rw [dropWhile_append_of_pos (all_ne h)]
  simp

end

theorem nextStatElem_word {w : Bytes} (rest : Bytes) (hspace : 32 ∉ w)
    (hparen : w.head? ≠ some 40) :
    nextStatElem (some (w ++ 32 :: rest)) = .ok (some w, some rest) := by
  have hcons : ∃ c s, w ++ 32 :: rest = c :: s ∧ c ≠ 40 := by
    cases w with
    | nil => exact ⟨32, rest, rfl, by decide⟩
    | cons c w => exact ⟨c, w ++ 32 :: rest, rfl, fun h => hparen (by rw [h]; rfl)⟩
  obtain ⟨c, s, hcs, hc⟩ := hcons
  have htake := takeWhile_ne rest hspace
  have hdrop := dropWhile_ne rest hspace
  rw [hcs] at htake hdrop ⊢
  rw [nextStatElem, if_neg hc, htake, hdrop]
  rfl

theorem nextStatElem_paren {a : Bytes} (rest : Bytes) (h : 41 ∉ a) :
    nextStatElem (some (40 :: (a ++ 41 :: rest))) = .ok (some a, advance 2 (41 :: rest)) := by
  rw [nextStatElem, if_pos rfl, takeWhile_ne rest h, dropWhile_ne rest h]

def CanRead : ℕ → Option Bytes → Prop
  | 0, _ => True
  | n + 1, buf => ∃ elem buf', nextStatElem buf = .ok (some elem, buf') ∧ CanRead n buf'

theorem CanRead.pred : ∀ {n : ℕ} {buf : Option Bytes}, CanRead (n + 1) buf → CanRead n buf
  | 0, _, _ => trivial
  | _ + 1, _, ⟨elem, buf', h, hn⟩ => ⟨elem, buf', h, hn.pred⟩

theorem CanRead.space {v : Bytes} (h : CanRead n (some v)) : CanRead n (some (32 :: v)) := by
  cases n with
  | zero => trivial
  | succ n => exact ⟨[], some v, nextStatElem_word (w := []) v (by simp) (by simp), h.pred⟩

theorem CanRead.behind : ∀ (k : ℕ) {n : ℕ} {u v : Bytes}, u.length ≤ k → CanRead n (some v) →
    CanRead n (some (u ++ 41 :: 32 :: v))
  | _, 0, _, _, _, _ => trivial
  | _, n + 1, [], v, _, h => by
    exact ⟨[41], some v, nextStatElem_word (w := [41]) v (by decide) (by decide), h.pred⟩
  | k + 1, n + 1, c :: u, v, hk, h => by
    by_cases hc : c = 40
    · subst hc
      by_cases hu : (41 : Byte) ∈ u
      · obtain ⟨a, b, rfl, ha⟩ := eq_append_cons_of_mem hu
        rw [cons_append, append_assoc, cons_append]
        refine ⟨a, _, nextStatElem_paren _ ha, ?_⟩
        rw [advance, if_pos (by simp; omega)]
        cases b with
        | nil => exact h.pred.space
        | cons d b =>
          refine CanRead.behind k ?_ h.pred
          simp only [length_cons, length_append] at hk
          omega
      · rw [cons_append]
        exact ⟨u, some v, nextStatElem_paren (32 :: v) hu, h.pred⟩
    · have hhead (w : Bytes) : (c :: w).head? ≠ some 40 := fun he => hc (Option.some.inj he)
      by_cases hu : (32 : Byte) ∈ c :: u
      · obtain ⟨a, b, hab, ha⟩ := eq_append_cons_of_mem hu
        rw [hab, append_assoc, cons_append]
        refine ⟨a, _, nextStatElem_word _ ha ?_, CanRead.behind k ?_ h.pred⟩
        · cases a with
          | nil => simp
          | cons d a =>
            obtain rfl : c = d := (List.cons.inj hab).1
            exact hhead a
        · have := congrArg List.length hab
          simp only [length_cons, length_append] at this hk
          omega
      · have hsplit : c :: u ++ 41 :: 32 :: v = (c :: (u ++ [41])) ++ 32 :: v := by simp
        rw [hsplit]
        refine ⟨_, some v, nextStatElem_word v ?_ (hhead _), h.pred⟩
        simp only [mem_cons, mem_append, not_or] at hu ⊢
        exact ⟨hu.1, hu.2, by decide, by simp⟩

/-- What the first calls of `next_stat_elem` return. -/
def elements : ℕ → Option Bytes → List Bytes
  | 0, _ => []
  | n + 1, buf =>
    match nextStatElem buf with
    | .ok (some elem, buf') => elem :: elements n buf'
    | _ => []

theorem elements_succ {buf buf' : Option Bytes} {elem : Bytes}
    (h : nextStatElem buf = .ok (some elem, buf')) :
    elements (n + 1) buf = elem :: elements n buf' := by
  rw [elements, h]

def Reads : List Bytes → Option Bytes → Prop
  | [], _ => True
  | elem :: elems, buf => ∃ buf', nextStatElem buf = .ok (some elem, buf') ∧ Reads elems buf'

theorem Reads.canRead : ∀ {elems : List Bytes} {buf : Option Bytes}, Reads elems buf →
    CanRead elems.length buf
  | [], _, _ => trivial
  | elem :: _, _, ⟨buf', h, hr⟩ => ⟨elem, buf', h, hr.canRead⟩

theorem Reads.elements_eq : ∀ {elems : List Bytes} {buf : Option Bytes}, Reads elems buf →
    elements elems.length buf = elems
  | [], _, _ => rfl
  | _ :: _, _, ⟨_, h, hr⟩ => by rw [length_cons, elements_succ h, hr.elements_eq]

theorem CanRead.length : ∀ {n : ℕ} {buf : Option Bytes}, CanRead n buf → (elements n buf).length = n
  | 0, _, _ => rfl
  | n + 1, _, ⟨elem, buf', h, hn⟩ => by rw [elements_succ h, length_cons, hn.length]

theorem reads_words : ∀ {ws : List Bytes} (rest : Bytes), (∀ w ∈ ws, 32 ∉ w ∧ 40 ∉ w) →
    Reads ws (some (ws.flatMap (· ++ [32]) ++ rest))
  | [], _, _ => trivial
  | w :: ws, rest, h => by
    obtain ⟨hspace, hparen⟩ := h w mem_cons_self
    have hhead : w.head? ≠ some 40 := fun he => hparen (mem_of_mem_head? he)
    have hsplit : (w :: ws).flatMap (· ++ [32]) ++ rest =
        w ++ 32 :: (ws.flatMap (· ++ [32]) ++ rest) := by simp
    rw [hsplit]
    exact ⟨_, nextStatElem_word _ hspace hhead,
      reads_words rest fun w' hw => h w' (mem_cons_of_mem _ hw)⟩

theorem nextStatElem_pid (pid : ℕ) (rest : Bytes) :
    nextStatElem (some (decimal pid ++ 32 :: rest)) = .ok (some (decimal pid), some rest) :=
  nextStatElem_word rest (not_mem_decimal _ (by decide)) fun h =>
    not_mem_decimal _ (by decide) (mem_of_mem_head? h)

variable {comm rest : Bytes}

theorem canRead_name (h : CanRead n (some rest)) :
    CanRead (n + 1) (some (40 :: (comm ++ 41 :: 32 :: rest))) := by
  by_cases hcomm : (41 : Byte) ∈ comm
  · obtain ⟨a, b, rfl, ha⟩ := eq_append_cons_of_mem hcomm
    rw [append_assoc, cons_append]
    refine ⟨a, _, nextStatElem_paren _ ha, ?_⟩
    rw [advance, if_pos (by simp; omega)]
    cases b with
    | nil => exact h.space
    | cons d b => exact h.behind _ le_rfl
  · exact ⟨_, _, nextStatElem_paren _ hcomm, h⟩

theorem canRead_text {n pid : ℕ} (h : CanRead n (some rest)) :
    CanRead (n + 2) (some (decimal pid ++ 32 :: 40 :: (comm ++ 41 :: 32 :: rest))) :=
  ⟨_, _, nextStatElem_pid pid _, canRead_name h⟩

theorem reads_text {pid : ℕ} {ws : List Bytes} (hcomm : 41 ∉ comm)
    (h : Reads ws (some rest)) : Reads (decimal pid :: comm :: ws)
      (some (decimal pid ++ 32 :: 40 :: (comm ++ 41 :: 32 :: rest))) :=
  ⟨_, nextStatElem_pid pid _, _, nextStatElem_paren _ hcomm, h⟩

end Elements

section Line

variable (p : Process)

def Process.line : Bytes := (p.stat.take 1023).takeWhile (· ≠ 0)

/-- The line as far as `load_proc` reads it. -/
def Process.front : Bytes :=
  decimal p.pid ++ 32 :: 40 :: (p.comm ++ 41 :: 32 :: p.words.flatMap (· ++ [32]))

theorem not_mem_words {c : Byte} (h : isdigit c = false) (h45 : c ≠ 45) (hstate : p.state ≠ c) :
    ∀ w ∈ p.words, c ∉ w := by
  simp only [Process.words, forall_mem_cons, mem_singleton, forall_eq]
  exact ⟨hstate.symm, not_mem_decimal _ h, not_mem_decimal _ h, not_mem_decimal _ h,
    not_mem_decimalInt _ h h45, not_mem_decimalInt _ h h45, not_mem_decimal _ h⟩

theorem zero_notMem_front : 0 ∉ p.front := by
  have hwords := not_mem_words p (by decide) (by decide) p.state_ok.1
  simp only [Process.front, mem_append, mem_cons, mem_flatMap, not_or, not_exists, not_and]
  exact ⟨not_mem_decimal _ (by decide), by decide, by decide, p.comm_nul, by decide, by decide,
    fun w hw => ⟨hwords w hw, by decide, not_mem_nil⟩⟩

theorem length_decimalInt {n : ℤ} (h : n.natAbs ≤ 2 ^ 31) : (decimalInt n).length ≤ 11 := by
  have hlen : (decimal n.natAbs).length ≤ 10 := length_decimal (h.trans_lt (by decide))
  unfold decimalInt
  split_ifs
  · rw [length_cons]
    omega
  · omega

theorem length_front_le : p.front.length ≤ 1023 := by
  have h1 := length_decimal_pid p.pid_lt
  have h2 := p.comm_le
  have h3 := length_decimal_pid p.ppid_lt
  have h4 := length_decimal_pid p.pgrp_lt
  have h5 := length_decimal_pid p.session_lt
  have h6 := length_decimalInt p.tty_lt
  have h7 := length_decimalInt p.tpgid_lt
  have h8 : (decimal p.flags).length ≤ 10 := length_decimal (p.flags_lt.trans (by decide))
  simp only [Process.front, Process.words, flatMap_cons, flatMap_nil, length_append,
    length_cons, length_nil]
  omega

theorem exists_line : ∃ rest, p.line = decimal p.pid ++ 32 :: 40 :: (p.comm ++ 41 :: 32 :: rest) ∧
    Reads p.words (some rest) := by
  have hstat : p.stat = p.front ++ p.more := by
    simp [Process.stat, Process.front]
  have hfront : ∀ c ∈ p.front, decide (c ≠ 0) = true := fun c hc =>
    decide_eq_true fun h0 => zero_notMem_front p (h0 ▸ hc)
  have hline : p.line = p.front ++ (p.more.take (1023 - p.front.length)).takeWhile (· ≠ 0) := by
    rw [Process.line, hstat, take_append, take_of_length_le (length_front_le p),
      takeWhile_append_of_pos hfront]
  refine ⟨p.words.flatMap (· ++ [32]) ++ (p.more.take (1023 - p.front.length)).takeWhile (· ≠ 0),
    ?_, ?_⟩
  · rw [hline, Process.front]
    simp
  · exact reads_words _ fun w hw => ⟨not_mem_words p (by decide) (by decide) p.state_ok.2.1 w hw,
      not_mem_words p (by decide) (by decide) p.state_ok.2.2 w hw⟩

theorem canRead_line : CanRead 9 (some p.line) := by
  obtain ⟨rest, hline, hwords⟩ := exists_line p
  rw [hline]
  exact canRead_text hwords.canRead

theorem elements_line (hcomm : 41 ∉ p.comm) :
    elements 9 (some p.line) = decimal p.pid :: p.comm :: p.words := by
  obtain ⟨rest, hline, hwords⟩ := exists_line p
  rw [hline]
  exact (reads_text hcomm hwords).elements_eq

end Line

section Load

/-- A field as `load_proc` reads it. -/
def Process.field (p : Process) (i : ℕ) : ℤ := int32 (atoi ((elements 9 (some p.line)).getD i []))

/-- What `load_proc` takes for a process that is asked for: the number in the line, and for a user
the one who asks. -/
def Selected (uid flag : ℤ) (p : Process) : Selector → Prop
  | .all => True
  | .pid => flag = p.pid
  | .pgrp => flag = p.field 4
  | .session => flag = p.field 5
  | .tty => flag = p.field 6
  | .uid => flag = uid
  | .ruid => flag = uid

instance (uid flag : ℤ) (p : Process) (w : Selector) : Decidable (Selected uid flag p w) := by
  unfold Selected
  split <;> infer_instance

theorem int32_atoi_decimal (h : n < 2 ^ 31) : int32 (atoi (decimal n)) = n := by
  have h64 : n < 2 ^ 64 := by omega
  rw [atoi_decimal h64]
  exact bmod_of_lt h

theorem readElem_eq {buf buf' : Option Bytes} {elem : Bytes}
    (h : nextStatElem buf = .ok (some elem, buf')) : readElem buf = .ok (elem, buf') := by
  rw [readElem, h]

theorem reject_reject {c d : Prop} [Decidable c] [Decidable d] (kinfo : KinfoProc) :
    (do rejectIf c; rejectIf d; return kinfo) =
      if ¬ c ∧ ¬ d then Except.ok kinfo else .error .null := by
  by_cases hc : c
  · rw [rejectIf, if_pos hc, if_neg fun h => h.1 hc]
    rfl
  · rw [rejectIf, if_neg hc, ok_bind, rejectIf]
    by_cases hd : d
    · rw [if_pos hd, if_neg fun h => h.2 hd]
      rfl
    · rw [if_neg hd, if_pos ⟨hc, hd⟩]
      rfl

def Process.kinfo (p : Process) (env : Env) : KinfoProc where
  pid := p.pid
  lp64 := env.lp64 p.pid
  comm := ((elements 9 (some p.line)).getD 1 []).take 17
  stat := procStat ((elements 9 (some p.line)).getD 2 [])
  ppid := p.field 3
  pgid := p.field 4
  tdev := p.field 6
  controlt := p.field 6 ≠ 0
  priority := atoi ((elements 9 (some p.line)).getD 7 []) % 2 ^ 8
  nice := Int.bmod (atoi ((elements 9 (some p.line)).getD 8 [])) (2 ^ 8)
  uid := env.uid
  gid := env.gid

def kinfoOf (env : Env) (name : Bytes) (es : List Bytes) : KinfoProc where
  pid := int32 (atoi name)
  lp64 := env.lp64 (int32 (atoi name))
  comm := (es.getD 1 []).take 17
  stat := procStat (es.getD 2 [])
  ppid := int32 (atoi (es.getD 3 []))
  pgid := int32 (atoi (es.getD 4 []))
  tdev := int32 (atoi (es.getD 6 []))
  controlt := int32 (atoi (es.getD 6 [])) ≠ 0
  priority := atoi (es.getD 7 []) % 2 ^ 8
  nice := Int.bmod (atoi (es.getD 8 [])) (2 ^ 8)
  uid := env.uid
  gid := env.gid

theorem loadProc_of_canRead {env : Env} {name line : Bytes} (what : What) (flag : ℤ)
    (hread : readString env name = .ok line) (hcan : CanRead 9 (some line)) :
    loadProc env name what flag =
      if ¬ (what = .select .session ∧
          int32 (atoi ((elements 9 (some line)).getD 5 [])) ≠ flag) ∧
        ¬ Rejects flag (kinfoOf env name (elements 9 (some line))) what
      then .ok (kinfoOf env name (elements 9 (some line))) else .error .null := by
  obtain ⟨e0, b1, h0, e1, b2, h1, e2, b3, h2, e3, b4, h3, e4, b5, h4, e5, b6, h5, e6, b7, h6,
    e7, b8, h7, e8, b9, h8, -⟩ := hcan
  have hes : elements 9 (some line) = [e0, e1, e2, e3, e4, e5, e6, e7, e8] := by
    rw [elements_succ h0, elements_succ h1, elements_succ h2, elements_succ h3, elements_succ h4,
      elements_succ h5, elements_succ h6, elements_succ h7, elements_succ h8]
    rfl
  rw [loadProc, hread, hes]
  simp only [ok_bind, h0, readElem_eq h1, readElem_eq h2, readElem_eq h3, readElem_eq h4,
    readElem_eq h5, readElem_eq h6, readElem_eq h7, readElem_eq h8]
  exact reject_reject _

theorem loadProc_eq {env : Env} {p : Process} (w : Selector) (flag : ℤ)
    (hstat : env.stat (decimal p.pid) = some p.stat) :
    loadProc env (decimal p.pid) (.select w) flag =
      if Selected env.uid flag p w then .ok (p.kinfo env) else .error .null := by
  have hread : readString env (decimal p.pid) = .ok p.line := by
    rw [readString, hstat]
    rfl
  have hkinfo : kinfoOf env (decimal p.pid) (elements 9 (some p.line)) = p.kinfo env := by
    rw [kinfoOf, int32_atoi_decimal p.pid_lt]
    rfl
  rw [loadProc_of_canRead _ _ hread (canRead_line p), hkinfo]
  refine if_congr ?_ rfl rfl
  cases w <;> simp [Rejects, Selected, Process.kinfo, Process.field, eq_comm]

theorem selected_iff_matches {uid flag : ℤ} {p : Process} (w : Selector) (hcomm : 41 ∉ p.comm)
    (htty : 0 ≤ p.tty ∧ p.tty < 2 ^ 31) (huid : p.uid = uid) (hruid : p.ruid = uid) :
    Selected uid flag p w ↔ Matches flag p w := by
  have hwords := elements_line p hcomm
  have htext : decimalInt p.tty = decimal p.tty.natAbs := by
    rw [decimalInt, if_neg (by omega)]
  have hnat : (p.tty.natAbs : ℤ) = p.tty := Int.natAbs_of_nonneg htty.1
  have h4 : p.field 4 = p.pgrp := by
    rw [Process.field, hwords]
    exact int32_atoi_decimal p.pgrp_lt
  have h5 : p.field 5 = p.session := by
    rw [Process.field, hwords]
    exact int32_atoi_decimal p.session_lt
  have h6 : p.field 6 = p.tty := by
    rw [Process.field, hwords, ← hnat]
    refine Eq.trans ?_ (int32_atoi_decimal (by omega))
    rw [← htext]
    rfl
  cases w <;> simp [Selected, Matches, h4, h5, h6, huid, hruid]

end Load

end Darling.SysctlProc
