import Darling.SysctlProc

/-!
# `/proc`

The processes, the lines that the kernel prints for them and the directory that lists them among
other entries.
-/

namespace Darling.SysctlProc

open Getdirentries

structure Process where
  pid : ℕ
  comm : Bytes
  state : Byte
  ppid : ℕ
  pgrp : ℕ
  session : ℕ
  tty : ℤ
  tpgid : ℤ
  flags : ℕ
  more : Bytes
  uid : ℤ
  ruid : ℤ
  ino : ℕ
  pid_lt : pid < 2 ^ 31
  comm_nul : 0 ∉ comm
  comm_le : comm.length ≤ 64
  state_ok : state ≠ 0 ∧ state ≠ 32 ∧ state ≠ 40
  ppid_lt : ppid < 2 ^ 31
  pgrp_lt : pgrp < 2 ^ 31
  session_lt : session < 2 ^ 31
  tty_lt : tty.natAbs ≤ 2 ^ 31
  tpgid_lt : tpgid.natAbs ≤ 2 ^ 31
  flags_lt : flags < 2 ^ 32

def Process.words (p : Process) : List Bytes :=
  [[p.state], decimal p.ppid, decimal p.pgrp, decimal p.session, decimalInt p.tty,
    decimalInt p.tpgid, decimal p.flags]

def Process.stat (p : Process) : Bytes :=
  decimal p.pid ++ 32 :: 40 :: (p.comm ++ 41 :: 32 :: (p.words.flatMap (· ++ [32]) ++ p.more))

theorem length_decimal_pid {n : ℕ} (h : n < 2 ^ 31) : (decimal n).length ≤ 10 :=
  length_decimal (h.trans (by decide))

def Process.entry (p : Process) : Entry where
  ino := p.ino
  type := 4
  name := decimal p.pid
  name_nul h := by simpa [isdigit] using isdigit_decimal p.pid 0 h
  name_ne := decimal_ne_nil p.pid
  name_le := (length_decimal_pid p.pid_lt).trans (by decide)

/-- An entry of `/proc`: no directory but those of the processes has a name that starts with a
digit. -/
inductive ProcNode
  | process (p : Process)
  | other (e : Entry) (h : ¬ (e.type % 256 = 4 ∧ isdigit (e.name.headD 0)))

def ProcNode.entry : ProcNode → Entry
  | .process p => p.entry
  | .other e _ => e

def ProcNode.process? : ProcNode → Option Process
  | .process p => some p
  | .other .. => none

structure Procfs where
  nodes : List ProcNode
  nodup : ((nodes.filterMap ProcNode.process?).map Process.pid).Nodup
  lp64 : ℤ → Bool
  uid : ℤ
  gid : ℤ

def Procfs.processes (fs : Procfs) : List Process := fs.nodes.filterMap ProcNode.process?

def Procfs.env (fs : Procfs) : Env where
  stat name := (fs.processes.find? (decimal ·.pid = name)).map Process.stat
  lp64 := fs.lp64
  uid := fs.uid
  gid := fs.gid

def Matches (flag : ℤ) (p : Process) : Selector → Prop
  | .all => True
  | .pid => flag = p.pid
  | .pgrp => flag = p.pgrp
  | .session => flag = p.session
  | .tty => flag = p.tty
  | .uid => flag = p.uid
  | .ruid => flag = p.ruid

instance (flag : ℤ) (p : Process) (w : Selector) : Decidable (Matches flag p w) := by
  unfold Matches
  split <;> infer_instance

/-- Called without a buffer, `_sysctl_proc` returns 0 and a size, and called with a buffer of that
size it returns 0, reports the size and fills the buffer with one record for each process that the
caller asks for. -/
def TwoCalls (fs : Procfs) (table : ℕ → ℕ) (w : Selector) (flag : ℤ) : Prop :=
  ∃ s, (∀ dents : Bytes, dents.length = 256 →
      sysctlProc fs.env table dents (fs.nodes.map ProcNode.entry) (.select w) flag none 0 =
        some (0, s, none)) ∧
    ∀ (dents : Bytes) (out : List KinfoProc), dents.length = 256 → out.length * kinfoSize = s →
      ∃ out', sysctlProc fs.env table dents (fs.nodes.map ProcNode.entry) (.select w) flag
          (some out) s = some (0, s, some out') ∧
        (out'.map KinfoProc.pid).Perm
          ((fs.processes.filter (Matches flag · w)).map fun p => (p.pid : ℤ))

end Darling.SysctlProc
