import Darling.Proofs.CArray
import Darling.SysctlProcargs

/-!
# What `_sysctl_procargs` hands out

The scan stops at the first double NUL.  It counts the arguments in front of it and both bytes of
it, so the count is one too many unless an empty last argument makes the second byte.
-/

namespace Darling.SysctlProc

open CArray List

def argsText (args : List Bytes) : Bytes := args.flatMap (· ++ [0])

theorem argsText_cons (a : Bytes) (as : List Bytes) :
    argsText (a :: as) = a ++ 0 :: argsText as := by
  simp [argsText]

theorem argsText_append (as bs : List Bytes) :
    argsText (as ++ bs) = argsText as ++ argsText bs := flatMap_append

section Scan

variable {cmd : Bytes} {fuel argc l : ℕ}

theorem scanArgs_letters : ∀ {b u r : Bytes}, cmd = u ++ (b ++ r) → 0 ∉ b →
    scanArgs cmd (b.length + fuel) u.length argc l =
      scanArgs cmd fuel (u.length + b.length) argc l
  | [], u, r, _, _ => by simp
  | x :: b, u, r, hcmd, hb => by
    rw [mem_cons, not_or] at hb
    have hget : cmd[u.length]? = some x := by simp [hcmd]
    have hnext : cmd = (u ++ [x]) ++ (b ++ r) := by simp [hcmd]
    have ih : scanArgs cmd (b.length + fuel) (u ++ [x]).length argc l = _ :=
      scanArgs_letters hnext hb.2
    rw [length_append, length_singleton] at ih
    rw [length_cons, Nat.add_right_comm, scanArgs, hget]
    simp only [some_bind, Ne.symm hb.1, false_and, and_false, if_false]
    rw [ih, Nat.add_assoc, Nat.add_comm 1]

theorem scanArgs_arg {a u r : Bytes} (hcmd : cmd = u ++ (a ++ 0 :: r)) (ha : 0 ∉ a)
    (hne : a ≠ [] ∨ u = []) :
    scanArgs cmd (a.length + (fuel + 1)) u.length argc l =
      scanArgs cmd fuel (u.length + a.length + 1) (argc + 1)
        (if argc = 0 then u.length + a.length else l) := by
  have hget : cmd[u.length + a.length]? = some 0 := by
    rw [hcmd, getElem?_append_right (by omega), Nat.add_sub_cancel_left]
    simp
  have hbefore : ¬ (0 < u.length + a.length ∧ cmd[u.length + a.length - 1]? = some 0 ∧ True) := by
    rintro ⟨hpos, hprev, -⟩
    rcases eq_nil_or_concat a with rfl | ⟨b, x, rfl⟩
    · rcases hne with h | rfl
      · exact h rfl
      · simp at hpos
    · have hx : cmd[u.length + (b ++ [x]).length - 1]? = some x := by
        rw [hcmd, length_append, length_singleton, ← Nat.add_assoc, Nat.add_sub_cancel,
          getElem?_append_right (by omega), Nat.add_sub_cancel_left]
        simp
      rw [concat_eq_append] at hprev ha
      rw [hx] at hprev
      exact ha (by simp [Option.some.inj hprev])
  rw [scanArgs_letters hcmd ha, scanArgs, hget]
  simp only [some_bind, true_and, if_true, if_neg hbefore]

theorem scanArgs_args :
    ∀ {as : List Bytes} {u r : Bytes} {argc : ℕ}, cmd = u ++ (argsText as ++ r) →
    (∀ a ∈ as, 0 ∉ a ∧ a ≠ []) → argc ≠ 0 →
    scanArgs cmd ((argsText as).length + fuel) u.length argc l =
      scanArgs cmd fuel (u.length + (argsText as).length) (argc + as.length) l
  | [], u, r, argc, _, _, _ => by simp [argsText]
  | a :: as, u, r, argc, hcmd, has, hargc => by
    obtain ⟨ha, hne⟩ := has a mem_cons_self
    rw [argsText_cons] at hcmd
    have hfirst : cmd = u ++ (a ++ 0 :: (argsText as ++ r)) := by simp [hcmd]
    have hnext : cmd = (u ++ (a ++ [0])) ++ (argsText as ++ r) := by simp [hcmd]
    have hrest : scanArgs cmd ((argsText as).length + fuel) (u ++ (a ++ [0])).length
      (argc + 1) l = _ :=
      scanArgs_args hnext (fun b hb => has b (mem_cons_of_mem _ hb)) (by omega)
    have hlen : (argsText (a :: as)).length + fuel =
        a.length + ((argsText as).length + fuel + 1) := by
      rw [argsText_cons, length_append, length_cons]
      omega
    rw [hlen, scanArgs_arg hfirst ha (.inl hne), if_neg hargc]
    have hu : (u ++ (a ++ [0])).length = u.length + a.length + 1 := by simp [Nat.add_assoc]
    rw [hu] at hrest
    rw [hrest, argsText_cons, length_append, length_cons, length_cons]
    congr 1 <;> omega

theorem scanArgs_end {u r : Bytes} (hcmd : cmd = u ++ (0 :: 0 :: r)) (hargc : argc ≠ 0) :
    scanArgs cmd (fuel + 1) (u.length + 1) argc l = some (argc + 1, l, u.length + 1) := by
  have hget : cmd[u.length + 1]? = some 0 := by simp [hcmd]
  have hprev : cmd[u.length + 1 - 1]? = some 0 := by simp [hcmd]
  rw [scanArgs, hget, hprev]
  simp [hargc]

theorem argsText_snoc (a : Bytes) (as : List Bytes) : ∃ u, argsText (a :: as) = u ++ [0] := by
  rcases eq_nil_or_concat (a :: as) with h | ⟨bs, b, h⟩
  · cases h
  · rw [h, concat_eq_append, argsText_append]
    exact ⟨argsText bs ++ b, by simp [argsText]⟩

theorem scanArgs_eq {a r : Bytes} {as : List Bytes} (hcmd : cmd = argsText (a :: as) ++ 0 :: r)
    (ha : 0 ∉ a) (has : ∀ b ∈ as, 0 ∉ b ∧ b ≠ []) (hfuel : (argsText (a :: as)).length < fuel) :
    scanArgs cmd fuel 0 0 0 =
      some (as.length + 2, a.length, (argsText (a :: as)).length) := by
  have hfirst : cmd = [] ++ (a ++ 0 :: (argsText as ++ 0 :: r)) := by
    simp [hcmd, argsText_cons]
  have hnext : cmd = (a ++ [0]) ++ (argsText as ++ 0 :: r) := by simp [hcmd, argsText_cons]
  have hlen : (argsText (a :: as)).length = a.length + 1 + (argsText as).length := by
    rw [argsText_cons, length_append, length_cons]
    omega
  obtain ⟨k, rfl⟩ : ∃ k, fuel = a.length + ((argsText as).length + (k + 1) + 1) :=
    ⟨fuel - (a.length + 1 + (argsText as).length) - 1, by omega⟩
  have h₁ : scanArgs cmd (a.length + ((argsText as).length + (k + 1) + 1)) 0 0 0 = _ :=
    scanArgs_arg hfirst ha (.inr rfl)
  have h₂ : scanArgs cmd ((argsText as).length + (k + 1)) (a ++ [0]).length 1 a.length = _ :=
    scanArgs_args hnext has one_ne_zero
  rw [length_nil, Nat.zero_add, if_pos rfl] at h₁
  rw [length_append, length_singleton, ← hlen] at h₂
  obtain ⟨u, hu⟩ := argsText_snoc a as
  have hend : cmd = u ++ (0 :: 0 :: r) := by rw [hcmd, hu, append_assoc]; rfl
  have hul : (argsText (a :: as)).length = u.length + 1 := by simp [hu]
  rw [h₁, h₂, hul, scanArgs_end hend (by omega), Nat.add_comm 1]

end Scan

/-- The arguments, the path and the name of a process. -/
structure CommandLine where
  first : Bytes
  rest : List Bytes
  exe : Bytes
  comm : Bytes
  args_nul : ∀ a ∈ first :: rest, 0 ∉ a
  args_fit : (argsText (first :: rest)).length ≤ 2046
  exe_nul : 0 ∉ exe
  exe_ne : exe ≠ []
  comm_nul : 0 ∉ comm
  comm_fit : comm.length ≤ 64

namespace CommandLine

variable (c : CommandLine)

def args : List Bytes := c.first :: c.rest

def files : ProcFiles := ⟨some (argsText c.args), some (c.comm ++ [10])⟩

/-- What is handed out as the path. -/
def head : Bytes := if c.first = [] then c.comm else c.first

/-- The arguments in front of the double NUL. -/
def tail : List Bytes := if c.first = [] then [] else c.rest.takeWhile (· ≠ [])

/-- What the scan goes over. -/
def scanned : Bytes := argsText (c.head :: c.tail)

def total : ℕ := 4 + c.head.length + 2 + c.scanned.length + 1

end CommandLine

theorem readStringInto_eq {dst content : Bytes} (h : content.length < dst.length) :
    ∃ w, readStringInto dst content = some (content ++ 0 :: w) ∧
      content.length + 1 + w.length = dst.length := by
  obtain ⟨m, x, w, hm, hdst⟩ := exists_split (u := []) rfl h
  rw [nil_append] at hdst
  have htake : content.take (dst.length - 1) = content := take_of_length_le (by omega)
  have hblit : blit (m ++ x :: w) 0 content = some (content ++ x :: w) := blit_split hm.symm [] _
  refine ⟨w, ?_, by simp [hdst, hm]; omega⟩
  unfold readStringInto
  rw [htake, hdst]
  simp [hblit, store_split]

theorem takeWhile_stop (rest : List Bytes) : rest.takeWhile (· ≠ []) = rest ∨
    ∃ t, rest = rest.takeWhile (· ≠ []) ++ [] :: t := by
  have hsplit := @takeWhile_append_dropWhile _ (fun a : Bytes => decide (a ≠ [])) rest
  rcases hdrop : rest.dropWhile (· ≠ []) with _ | ⟨a, t⟩
  · rw [hdrop, append_nil] at hsplit
    exact .inl hsplit
  · have hne : rest.dropWhile (· ≠ []) ≠ [] := by rw [hdrop]; exact cons_ne_nil a t
    have hhead := head_dropWhile_not _ hne
    simp only [hdrop, head_cons] at hhead
    have ha : a = [] := by simpa using hhead
    rw [hdrop, ha] at hsplit
    exact .inr ⟨t, hsplit.symm⟩

theorem argsText_stop (rest : List Bytes) (w : Bytes) :
    ∃ r, argsText rest ++ 0 :: w = argsText (rest.takeWhile (· ≠ [])) ++ 0 :: r := by
  rcases takeWhile_stop rest with h | ⟨t, h⟩
  · exact ⟨w, by rw [h]⟩
  · refine ⟨argsText t ++ 0 :: w, ?_⟩
    conv_lhs => rw [h, argsText_append, argsText_cons]
    simp

theorem writes_layout {buf n path args : Bytes} (hn : n.length = 4) (hargs : args ≠ [])
    (hbuf : buf.length = 4 + path.length + 2 + args.length) :
    ∃ a₁ a₂ a₃ a₄, blit buf 0 n = some a₁ ∧ strcpy 0 a₁ 4 path = some a₂ ∧
      store a₂ (4 + path.length + 1) 0 = some a₃ ∧ store a₃ (4 + path.length + 2) 0 = some a₄ ∧
      blit a₄ (4 + path.length + 2) args = some (n ++ (path ++ 0 :: 0 :: args)) := by
  obtain ⟨u, v, w, rfl, hu, hv⟩ := @exists_piece _ buf 4 (path.length + 1) (by omega)
  have hpos := length_pos_of_ne_nil hargs
  rw [length_append, length_append] at hbuf
  obtain ⟨x, y, w, rfl⟩ : ∃ x y t, w = x :: y :: t := by
    rcases w with _ | ⟨x, _ | ⟨y, t⟩⟩
    · rw [length_nil] at hbuf; omega
    · rw [length_singleton] at hbuf; omega
    · exact ⟨x, y, t, rfl⟩
  have h₁ : 4 + path.length + 1 = (n ++ (path ++ [0])).length := by simp [hn]; omega
  have h₂ : 4 + path.length + 2 = (n ++ (path ++ [0]) ++ [0]).length := by simp [hn]; omega
  refine ⟨n ++ (v ++ x :: y :: w), n ++ (path ++ [0] ++ x :: y :: w),
    n ++ (path ++ [0]) ++ 0 :: y :: w, n ++ (path ++ [0]) ++ [0] ++ 0 :: w, ?_, ?_, ?_, ?_, ?_⟩
  · exact blit_split (hn.trans hu.symm) [] _
  · rw [← hn]
    exact blit_split (by simp [hv]) n _
  · rw [h₁, ← append_assoc]
    exact store_split _ _ _ _
  · rw [h₂, append_cons]
    exact store_split _ _ _ _
  · rw [h₂]
    have hlen : args.length = (0 :: w).length := by
      simp only [length_cons] at hbuf ⊢
      omega
    have := blit_split hlen (n ++ (path ++ [0]) ++ [0]) []
    rw [append_nil, append_nil] at this
    rw [this]
    simp

namespace CommandLine

variable (c : CommandLine)

theorem head_nul : 0 ∉ c.head := by
  rw [head]
  split_ifs
  · exact c.comm_nul
  · exact c.args_nul _ mem_cons_self

theorem tail_nul : ∀ a ∈ c.tail, 0 ∉ a ∧ a ≠ [] := by
  intro a ha
  rw [tail] at ha
  split_ifs at ha
  · cases ha
  · have hne := mem_takeWhile_imp ha
    have hmem := (takeWhile_subset _) ha
    exact ⟨c.args_nul a (mem_cons_of_mem _ hmem), by simpa using hne⟩

variable {stack : Bytes}

theorem fillCmdline_comm (h : c.first = []) (hstack : stack.length = 2048) :
    ∃ r, fillCmdline c.files stack = some (some (c.scanned ++ 0 :: r)) := by
  obtain ⟨w, hread, hw⟩ := @readStringInto_eq stack (argsText c.args)
    (hstack ▸ lt_of_le_of_lt c.args_fit (by decide))
  have hzero : (argsText c.args ++ 0 :: w)[0]? = some 0 := by
    rw [args, h, argsText_cons]
    rfl
  have hcomm : (c.comm ++ [10]).length < (argsText c.args ++ 0 :: w).length := by
    have := c.comm_fit
    simp only [length_append, length_cons, length_nil]
    omega
  obtain ⟨r, hread', -⟩ := readStringInto_eq hcomm
  have hnul : (0 : Byte) ∉ c.comm ++ [10] := by simp [c.comm_nul]
  have hstr : str 0 (c.comm ++ [10] ++ 0 :: r) 0 = some (c.comm ++ [10]) := str_split hnul [] r
  have hstore : store (c.comm ++ [10] ++ 0 :: r) c.comm.length 0 = some
    (c.comm ++ 0 :: 0 :: r) := by
    rw [append_assoc]
    exact store_split _ _ _ _
  refine ⟨r, ?_⟩
  unfold fillCmdline
  simp only [files, hread, hread', hzero, hstr, some_bind, ne_eq,
    not_true_eq_false, if_false, length_append, length_singleton, Nat.add_eq_zero_iff,
    one_ne_zero, and_false, Nat.add_sub_cancel, hstore]
  simp [scanned, head, tail, h, argsText]

theorem fillCmdline_args (h : c.first ≠ []) (hstack : stack.length = 2048) :
    ∃ r, fillCmdline c.files stack = some (some (c.scanned ++ 0 :: r)) := by
  obtain ⟨w, hread, hw⟩ := @readStringInto_eq stack (argsText c.args)
    (hstack ▸ lt_of_le_of_lt c.args_fit (by decide))
  obtain ⟨x, b, hx⟩ := exists_cons_of_ne_nil h
  have hget : (argsText c.args ++ 0 :: w)[0]? = some x := by
    rw [args, argsText_cons, hx]
    rfl
  have hne : x ≠ 0 := by
    rintro rfl
    exact c.args_nul c.first mem_cons_self (by rw [hx]; exact mem_cons_self)
  obtain ⟨r, hr⟩ := argsText_stop c.rest w
  have htext : argsText c.args ++ 0 :: w = c.scanned ++ 0 :: r := by
    rw [args, scanned, head, tail, if_neg h, if_neg h, argsText_cons, argsText_cons,
      append_assoc, cons_append, hr, append_assoc, cons_append]
  rw [htext] at hget hread
  refine ⟨r, ?_⟩
  unfold fillCmdline
  simp only [files, hread, hget, some_bind]
  exact if_pos hne

theorem fillCmdline_eq (hstack : stack.length = 2048) :
    ∃ r, fillCmdline c.files stack = some (some (c.scanned ++ 0 :: r)) := by
  by_cases h : c.first = []
  · exact c.fillCmdline_comm h hstack
  · exact c.fillCmdline_args h hstack

theorem scanned_length : c.scanned.length < 2047 := by
  by_cases h : c.first = []
  · have := c.comm_fit
    simp [scanned, head, tail, h, argsText]
    omega
  · have hfit := c.args_fit
    obtain ⟨r, hr⟩ := argsText_stop c.rest []
    have hlen := congrArg length hr
    simp only [length_append, length_cons, length_nil] at hlen
    rw [argsText_cons, length_append, length_cons] at hfit
    rw [scanned, head, tail, if_neg h, if_neg h, argsText_cons, length_append, length_cons]
    omega

theorem scanArgs_scanned (r : Bytes) : scanArgs (c.scanned ++ 0 :: r) 2047 0 0 0 =
    some (c.tail.length + 2, c.head.length, c.scanned.length) :=
  scanArgs_eq rfl c.head_nul c.tail_nul c.scanned_length

def output : Bytes := le 4 (c.tail.length + 2) ++ (c.head ++ 0 :: 0 :: (c.scanned ++ [0]))

theorem sysctlProcargs_query (hstack : stack.length = 2048) :
    sysctlProcargs c.files stack none 0 = some (0, none, c.total) := by
  obtain ⟨r, hfill⟩ := c.fillCmdline_eq hstack
  have hpos : 0 < c.total := by rw [total]; omega
  unfold sysctlProcargs
  simp only [hfill, c.scanArgs_scanned, some_bind]
  exact if_pos hpos

theorem sysctlProcargs_call {stack buf : Bytes} (hstack : stack.length = 2048)
    (hbuf : buf.length = c.total) :
    sysctlProcargs c.files stack (some buf) c.total = some (0, some c.output, c.total) := by
  obtain ⟨r, hfill⟩ := c.fillCmdline_eq hstack
  have hstr : str 0 (c.scanned ++ 0 :: r) 0 = some c.head := by
    rw [scanned, argsText_cons, append_assoc, cons_append]
    exact str_split c.head_nul [] _
  have hslice : slice (c.scanned ++ 0 :: r) 0 (c.scanned.length + 1) = some (c.scanned ++ [0]) := by
    have := slice_split [] (c.scanned ++ [0]) r
    rwa [length_append, append_assoc] at this
  obtain ⟨a₁, a₂, a₃, a₄, h₁, h₂, h₃, h₄, h₅⟩ :=
    @writes_layout buf (le 4 (c.tail.length + 2)) c.head (c.scanned ++ [0]) (le_length 4 _)
      (by simp)
      (by rw [hbuf, total, length_append]; rfl)
  have hfits : ¬ c.total < 4 + c.head.length + 2 + c.scanned.length + 1 := lt_irrefl _
  unfold sysctlProcargs
  simp only [hfill, c.scanArgs_scanned, some_bind, if_neg hfits, hstr, hslice, h₁, h₂, h₃, h₄, h₅]
  rfl

/-- The layout that `KERN_PROCARGS2` should have. -/
def Laid (bs : Bytes) : Prop :=
  ∃ pad rest, bs = le 4 c.args.length ++
    (c.exe ++ (List.replicate (pad + 1) 0 ++ (argsText c.args ++ rest)))

/-- A query for the size and a call with a buffer of that size report the argument vector. -/
def Reports : Prop :=
  ∀ stack stack' : Bytes, stack.length = 2048 → stack'.length = 2048 →
    ∃ total, sysctlProcargs c.files stack none 0 = some (0, none, total) ∧
      ∀ buf : Bytes, buf.length = total → ∃ bs, c.Laid bs ∧
        sysctlProcargs c.files stack' (some buf) total = some (0, some bs, total)

theorem reports_iff_laid : c.Reports ↔ c.Laid c.output := by
  constructor
  · intro h
    have hlen : (replicate 2048 (0 : Byte)).length = 2048 := length_replicate
    obtain ⟨total, hquery, hcall⟩ := h _ _ hlen hlen
    rw [c.sysctlProcargs_query hlen] at hquery
    obtain rfl : c.total = total := congrArg (·.2.2) (Option.some.inj hquery)
    have hbuf : (replicate c.total (0 : Byte)).length = c.total := length_replicate
    obtain ⟨bs, hbs, hout⟩ := hcall _ hbuf
    rw [c.sysctlProcargs_call hlen hbuf] at hout
    obtain rfl : c.output = bs := Option.some.inj (congrArg (·.2.1) (Option.some.inj hout))
    exact hbs
  · intro h stack stack' hstack hstack'
    exact ⟨c.total, c.sysctlProcargs_query hstack,
      fun buf hbuf => ⟨c.output, h, c.sysctlProcargs_call hstack' hbuf⟩⟩

theorem length_le_argsText : ∀ as : List Bytes, as.length ≤ (argsText as).length
  | [] => Nat.zero_le _
  | a :: as => by
    have := length_le_argsText as
    rw [argsText_cons, length_cons, length_append, length_cons]
    omega

theorem laid_output : c.Laid c.output ↔
    c.args.length = c.tail.length + 2 ∧ c.exe = c.head ∧
      ∃ pad rest, 0 :: (c.scanned ++ [0]) = replicate pad 0 ++ (argsText c.args ++ rest) := by
  have hargs : c.args.length ≤ 2046 := (length_le_argsText c.args).trans c.args_fit
  have htail : (c.head :: c.tail).length < 2047 :=
    (length_le_argsText _).trans_lt c.scanned_length
  rw [length_cons] at htail
  constructor
  · rintro ⟨pad, rest, h⟩
    obtain ⟨hcount, hpath⟩ := append_inj h (by simp)
    rw [le_inj] at hcount
    rw [replicate_succ, cons_append] at hpath
    have hexe : c.exe = c.head :=
      Spells.unique ⟨c.exe_nul, _, hpath⟩ ⟨c.head_nul, _, rfl⟩
    rw [hexe] at hpath
    refine ⟨by omega, hexe, pad, rest, ?_⟩
    exact (cons.inj (append_cancel_left hpath)).2
  · rintro ⟨hcount, hexe, pad, rest, h⟩
    refine ⟨pad, rest, ?_⟩
    rw [output, hcount, hexe, h, replicate_succ, cons_append]

theorem laid_of_first (h : c.first ≠ []) : c.Laid c.output ↔
    ∃ mid, (∀ a ∈ mid, a ≠ []) ∧ c.args = c.exe :: (mid ++ [[]]) := by
  have hhead : c.head = c.first := if_neg h
  have htail : c.tail = c.rest.takeWhile (· ≠ []) := if_neg h
  rw [laid_output]
  constructor
  · rintro ⟨hcount, hexe, -⟩
    refine ⟨c.tail, fun a ha => (c.tail_nul a ha).2, ?_⟩
    rw [args, length_cons] at hcount
    rw [args, hexe, hhead]
    rcases takeWhile_stop c.rest with hstop | ⟨t, hstop⟩
    · rw [htail, hstop] at hcount
      omega
    · rw [← htail] at hstop
      have hlen := congrArg length hstop
      rw [length_append, length_cons] at hlen
      have ht : t = [] := length_eq_zero_iff.1 (by omega)
      rw [ht] at hstop
      rw [← hstop]
  · rintro ⟨mid, hmid, hargs⟩
    obtain ⟨hfirst, hrest⟩ := cons.inj hargs
    have hmid' : c.tail = mid := by
      rw [htail, hrest, takeWhile_append_of_pos (by simpa using hmid)]
      simp
    refine ⟨by rw [hargs, hmid']; simp, by rw [hhead, hfirst], 1, [], ?_⟩
    rw [scanned, hhead, hmid', hfirst, hargs]
    simp [argsText]

theorem laid_of_first_empty (h : c.first = []) : c.Laid c.output ↔
    c.args = [[], c.exe] ∧ c.comm = c.exe := by
  have hhead : c.head = c.comm := if_pos h
  have htail : c.tail = [] := if_pos h
  rw [laid_output, scanned, hhead, htail]
  constructor
  · rintro ⟨hcount, hexe, pad, rest, hrest⟩
    rw [args, length_cons, length_nil] at hcount
    obtain ⟨x, hx⟩ := length_eq_one_iff.1 (Nat.succ_inj.1 hcount)
    have hnul : 0 ∉ x := c.args_nul x (by simp [hx])
    obtain ⟨y, b, hy⟩ := exists_cons_of_ne_nil c.exe_ne
    have hy0 : y ≠ 0 := by
      rintro rfl
      exact c.exe_nul (by rw [hy]; exact mem_cons_self)
    have htext : argsText c.args = 0 :: (x ++ [0]) := by rw [args, h, hx]; simp [argsText]
    rw [htext, ← hexe] at hrest
    rcases pad with _ | pad
    · have hxe : c.exe = x := by
        refine Spells.unique (a := c.exe ++ 0 :: [0]) ⟨c.exe_nul, _, rfl⟩ ⟨hnul, rest, ?_⟩
        simpa [argsText] using hrest
      exact ⟨by rw [args, h, hx, hxe], hexe.symm⟩
    · exfalso
      rcases pad with _ | pad
      · simp [argsText, hy, hy0] at hrest
      · simp [argsText, hy, hy0, replicate_succ] at hrest
  · rintro ⟨hargs, hcomm⟩
    refine ⟨by rw [hargs]; rfl, hcomm.symm, 0, [0], ?_⟩
    rw [hargs, hcomm]
    simp [argsText]

end CommandLine

/-- The argument vector is reported exactly for a path that is the first argument, followed by an
empty argument at the end, which the count of the double NUL makes up for, or for an empty first
argument in front of the name of the process. -/
theorem reports_iff (c : CommandLine) : c.Reports ↔
    (∃ mid, (∀ a ∈ mid, a ≠ []) ∧ c.args = c.exe :: (mid ++ [[]])) ∨
      c.args = [[], c.exe] ∧ c.comm = c.exe := by
  rw [c.reports_iff_laid]
  by_cases h : c.first = []
  · rw [c.laid_of_first_empty h]
    refine ⟨.inr, ?_⟩
    rintro (⟨mid, -, hargs⟩ | h')
    · exact absurd ((List.cons.inj hargs).1.symm.trans h) c.exe_ne
    · exact h'
  · rw [c.laid_of_first h]
    refine ⟨.inl, ?_⟩
    rintro (h' | ⟨hargs, -⟩)
    · exact h'
    · exact absurd (List.cons.inj hargs).1 h

def soleArgument : CommandLine where
  first := [97]
  rest := []
  exe := [97]
  comm := [97]
  args_nul := by decide
  args_fit := by decide
  exe_nul := by decide
  exe_ne := by decide
  comm_nul := by decide
  comm_fit := by decide

/-- One argument is reported as two. -/
theorem sysctlProcargs_two : soleArgument.args = [[97]] ∧
    (∀ stack : Bytes, stack.length = 2048 →
      sysctlProcargs soleArgument.files stack none 0 = some (0, none, 10) ∧
      sysctlProcargs soleArgument.files stack (some (List.replicate 10 0)) 10 =
        some (0, some [2, 0, 0, 0, 97, 0, 0, 97, 0, 0], 10)) ∧
    ¬ soleArgument.Reports := by
  refine ⟨rfl, fun stack hstack => ⟨?_, ?_⟩, ?_⟩
  · exact soleArgument.sysctlProcargs_query hstack
  · exact soleArgument.sysctlProcargs_call hstack length_replicate
  · rw [soleArgument.reports_iff_laid, soleArgument.laid_output]
    rintro ⟨hcount, -⟩
    revert hcount
    decide

end Darling.SysctlProc
