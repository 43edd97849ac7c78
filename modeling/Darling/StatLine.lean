import Darling.Decimal

/-!
# The line of `/proc/<pid>/stat`

The fields as proc(5) numbers them, up to the start time, and what comes behind it.
-/

namespace Darling.SysctlProc

/-- `faults` are the eight fields from `minflt` to `cstime`. -/
structure StatFields where
  pid : ℕ
  comm : Bytes
  state : Byte
  ppid : ℕ
  pgrp : ℕ
  session : ℕ
  tty : ℤ
  tpgid : ℤ
  flags : ℕ
  faults : Fin 8 → ℕ
  priority : ℤ
  nice : ℤ
  threads : ℕ
  itreal : ℕ
  start : ℕ
  more : Bytes

def StatFields.words (p : StatFields) : List Bytes :=
  [[p.state], decimal p.ppid, decimal p.pgrp, decimal p.session, decimalInt p.tty,
    decimalInt p.tpgid, decimal p.flags] ++ ((List.ofFn fun i => decimal (p.faults i)) ++
      [decimalInt p.priority, decimalInt p.nice, decimal p.threads, decimal p.itreal,
        decimal p.start])

def StatFields.text (p : StatFields) : Bytes :=
  decimal p.pid ++ 32 :: 40 :: (p.comm ++ 41 :: 32 :: (p.words.flatMap (· ++ [32]) ++ p.more))

structure StatLine extends StatFields where
  pid_lt : pid < 2 ^ 31
  comm_nul : 0 ∉ comm
  state_ok : state ≠ 0 ∧ state ≠ 32 ∧ state ≠ 40
  ppid_lt : ppid < 2 ^ 31
  pgrp_lt : pgrp < 2 ^ 31
  session_lt : session < 2 ^ 31
  tty_lt : -2 ^ 31 ≤ tty ∧ tty < 2 ^ 31
  tpgid_lt : -2 ^ 31 ≤ tpgid ∧ tpgid < 2 ^ 31
  flags_lt : flags < 2 ^ 32
  start_lt : start < 2 ^ 64
  more_nul : 0 ∉ more
  length_lt : toStatFields.text.length < 1024

def StatFields.line (p : StatFields)
    (h : (p.pid < 2 ^ 31 ∧ 0 ∉ p.comm ∧ p.state ≠ 0 ∧ p.state ≠ 32 ∧ p.state ≠ 40 ∧
      p.ppid < 2 ^ 31 ∧
      p.pgrp < 2 ^ 31 ∧ p.session < 2 ^ 31) ∧ (-2 ^ 31 ≤ p.tty ∧ p.tty < 2 ^ 31) ∧
      (-2 ^ 31 ≤ p.tpgid ∧ p.tpgid < 2 ^ 31) ∧ p.flags < 2 ^ 32 ∧ p.start < 2 ^ 64 ∧ 0 ∉ p.more ∧
      p.text.length < 1024) : StatLine :=
  ⟨p, h.1.1, h.1.2.1, ⟨h.1.2.2.1, h.1.2.2.2.1, h.1.2.2.2.2.1⟩, h.1.2.2.2.2.2.1, h.1.2.2.2.2.2.2.1,
    h.1.2.2.2.2.2.2.2, h.2.1, h.2.2.1, h.2.2.2.1, h.2.2.2.2.1, h.2.2.2.2.2.1, h.2.2.2.2.2.2⟩

end Darling.SysctlProc
