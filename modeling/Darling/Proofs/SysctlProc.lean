import Darling.Proofs.Getdirentries
import Darling.Proofs.LoadProc

/-!
# The list of processes in two calls

Both calls see the same entries of `/proc`, so they agree with each other.  They agree with `/proc`
exactly if every process asked for is among the entries that its window of 256 bytes has room for,
and is taken for one.
-/

namespace Darling.SysctlProc

open CArray Getdirentries List
open ProcNode (entry)

variable {dents : Bytes}

section Window

def visitEntry (visit : Found → Bytes → Option Found) (found : Found) (e : Entry) : Option Found :=
  if e.type % 256 ≠ 4 ∨ ¬ isdigit (e.name.headD 0) then some found else visit found e.name

theorem load_type_record (e : Entry) (u w : Bytes) :
    load 1 (u ++ (bsdDirent.record e ++ w)) (u.length + typeOff) = some (e.type % 256) := by
  refine load_record u w ?_
  have h := load_field (u := le 4 e.ino ++ le 2 (bsdDirent.reclen e)) (w := le 1 e.name.length)
    (le_length 1 e.type)
  rw [unle_le, append_assoc] at h
  exact h

theorem walkDents_chain (visit : Found → Bytes → Option Found) :
    ∀ {es : List Entry} {pos fuel : ℕ} (found : Found), Chain bsdDirent dents es pos →
      es.length ≤ fuel →
        walkDents visit dents (pos + (es.map bsdDirent.reclen).sum) fuel pos found =
          es.foldlM (visitEntry visit) found
  | [], pos, fuel, found, _, _ => by
    cases fuel <;> simp [walkDents]
  | e :: es, pos, fuel, found, ⟨⟨u, w, hbuf, hu⟩, hchain⟩, hfuel => by
    obtain ⟨fuel, rfl⟩ : ∃ k, fuel = k + 1 := ⟨fuel - 1, by simp at hfuel; omega⟩
    have ih := fun found => walkDents_chain visit found hchain (Nat.le_of_succ_le_succ hfuel)
    have hreclen := (reclen_spec (L := bsdDirent) e).1
    subst hbuf hu
    rw [map_cons, sum_cons, ← Nat.add_assoc, walkDents, if_pos (by omega)]
    simp only [load_type_record, str_record, load_reclen_record, some_bind, foldlM_cons, ih]
    rw [visitEntry]
    split_ifs <;> rfl

end Window

section Listing

variable {visit : Found → Bytes → Option Found} {table : ℕ → ℕ}

def deliveredFrom : ℕ → List ProcNode → List ProcNode
  | 0, _ => []
  | n + 1, nodes =>
    if seen bsdDirent 256 (nodes.map ProcNode.entry) = [] then []
    else nodes.take (seen bsdDirent 256 (nodes.map ProcNode.entry)).length ++
      deliveredFrom n (nodes.drop (run (bsdDirent.bufSize 256) (nodes.map ProcNode.entry)).length)

def visitNode (visit : Found → Bytes → Option Found) (found : Found) (node : ProcNode) :
    Option Found :=
  match node.process? with
  | some p => visit found (decimal p.pid)
  | none => some found

theorem visitEntry_entry (found : Found) (node : ProcNode) :
    visitEntry visit found node.entry = visitNode visit found node := by
  cases node with
  | process p =>
    have hdigit : isdigit ((decimal p.pid).headD 0) = true := by
      obtain ⟨c, s, hcs⟩ := exists_cons_of_ne_nil (decimal_ne_nil p.pid)
      have hc := isdigit_decimal p.pid c (hcs ▸ mem_cons_self)
      rw [hcs]
      exact hc
    exact if_neg (not_or.2 ⟨not_not.2 rfl, not_not.2 hdigit⟩)
  | other e h => exact if_pos (not_and_or.1 h)

theorem run_ne_nil {dir : List Entry} (h : dir ≠ []) : run (bsdDirent.bufSize 256) dir ≠ [] := by
  obtain ⟨e, es, rfl⟩ := exists_cons_of_ne_nil h
  have hle : e.linuxReclen ≤ bsdDirent.bufSize 256 := by
    have hname := e.name_le
    have hsize : bsdDirent.bufSize 256 = 640 := by decide
    rw [hsize, Entry.linuxReclen]
    omega
  rw [run, if_pos hle]
  exact cons_ne_nil _ _

theorem seen_eq_map (nodes : List ProcNode) : seen bsdDirent 256 (nodes.map entry) =
      (nodes.take (seen bsdDirent 256 (nodes.map entry)).length).map entry := by
  rw [map_take]
  exact List.prefix_iff_eq_take.1 ((emitted_front _ _).trans (run_front _ _))

theorem foldlM_seen (nodes : List ProcNode) (found : Found) :
    (seen bsdDirent 256 (nodes.map entry)).foldlM (visitEntry visit) found =
      (nodes.take (seen bsdDirent 256 (nodes.map entry)).length).foldlM
        (visitNode visit) found := by
  have hvisit : (fun f node => visitEntry visit f (entry node)) = visitNode visit :=
    funext fun f => funext fun node => visitEntry_entry f node
  conv_lhs => rw [seen_eq_map, foldlM_map, hvisit]

theorem readProc_eq {n : ℕ} {nodes : List ProcNode} {found : Found}
    (hlen : dents.length = 256) (hn : nodes.length ≤ n) :
    readProc visit table (n + 1) dents (nodes.map entry) found =
      ((deliveredFrom n nodes).foldlM (visitNode visit) found).map fun f => (0, f) := by
  induction n generalizing nodes dents found with
  | zero =>
    obtain rfl := length_eq_zero_iff.1 (Nat.le_zero.1 hn)
    rfl
  | succ n ih =>
    obtain ⟨r, hr, hdir, hbuf, hchain, hsum, hret⟩ := @getdirentries_spec bsdDirent table
      (fail einval) dents (some 0) (nodes.map entry) (by decide)
    rw [hlen] at hdir hchain hsum hret hbuf
    have hzero : r.ret = 0 ↔ seen bsdDirent 256 (nodes.map entry) = [] := by
      rw [hret]
      exact ⟨fun h => h.1, fun h =>
        ⟨h, fun hrun => .inl (not_not.1 fun hne => run_ne_nil hne hrun)⟩⟩
    rw [readProc, sysGetdirentries, hr, some_bind, deliveredFrom]
    by_cases hseen : seen bsdDirent 256 (nodes.map entry) = []
    · rw [if_pos hseen, if_pos (hzero.2 hseen).le, hzero.2 hseen]
      rfl
    · have hpos : 0 < (seen bsdDirent 256 (nodes.map entry)).length :=
        length_pos_iff.2 hseen
      have hsome : (seen bsdDirent 256 (nodes.map entry)).length ≤ r.ret.toNat := by
        rw [hsum]
        exact length_emitted_le _ _ _
      have hbatch := seen_length_le (L := bsdDirent) 256 (nodes.map entry)
      have hwalk := walkDents_chain visit found hchain hsome
      rw [Nat.zero_add, ← hsum] at hwalk
      rw [if_neg hseen, if_neg (by omega), hwalk, foldlM_seen, hdir, ← map_drop, foldlM_append]
      rcases (nodes.take _).foldlM (visitNode visit) found with _ | f
      · rfl
      · exact ih hbuf (by rw [length_drop]; omega)

end Listing

theorem deliveredFrom_sublist : ∀ (n : ℕ) (nodes : List ProcNode),
    (deliveredFrom n nodes).Sublist nodes
  | 0, nodes => nil_sublist nodes
  | n + 1, nodes => by
    rw [deliveredFrom]
    split_ifs
    · exact nil_sublist nodes
    · have hle := seen_length_le (L := bsdDirent) 256 (nodes.map entry)
      conv_rhs => rw [← take_append_drop (run (bsdDirent.bufSize 256)
        (nodes.map entry)).length nodes]
      exact (take_sublist_take_left hle).append (deliveredFrom_sublist n _)

section Calls

variable (fs : Procfs) (table : ℕ → ℕ) (w : Selector) (flag : ℤ)

/-- The processes that the windows of 256 bytes have room for. -/
def Procfs.delivered : List Process :=
  (deliveredFrom fs.nodes.length fs.nodes).filterMap ProcNode.process?

def Procfs.selected : List Process := fs.delivered.filter (Selected fs.uid flag · w)

theorem delivered_sublist : fs.delivered.Sublist fs.processes :=
  (deliveredFrom_sublist _ _).filterMap _

variable {fs}

theorem eq_of_pid {p q : Process} (hp : p ∈ fs.processes) (hq : q ∈ fs.processes)
    (h : p.pid = q.pid) : p = q := inj_on_of_nodup_map fs.nodup hp hq h

theorem decimal_inj {n m : ℕ} (hn : n < 2 ^ 31) (hm : m < 2 ^ 31) (h : decimal n = decimal m) :
    n = m := by
  have := congrArg (fun s => int32 (atoi s)) h
  simp only [int32_atoi_decimal hn, int32_atoi_decimal hm] at this
  exact Int.ofNat_inj.1 this

theorem env_stat {p : Process} (hp : p ∈ fs.processes) :
    fs.env.stat (decimal p.pid) = some p.stat := by
  unfold Procfs.env
  simp only [Option.map_eq_some_iff]
  rcases hfind : fs.processes.find? (decimal ·.pid = decimal p.pid) with _ | q
  · have := find?_eq_none.1 hfind p hp
    simp at this
  · have hq : decimal q.pid = decimal p.pid := by simpa using find?_some hfind
    obtain rfl := eq_of_pid (mem_of_find?_eq_some hfind) hp
      (decimal_inj q.pid_lt p.pid_lt hq)
    exact ⟨q, hfind, rfl⟩

theorem foldlM_count : ∀ (l : List Process) (found : Found),
    l.foldlM (fun f p => visit fs.env (.select .all) flag 0 f (decimal p.pid)) found =
      some { found with nproc := found.nproc + l.length }
  | [], found => rfl
  | p :: l, found => by
    rw [foldlM_cons, visit, if_neg (by simp)]
    simp only [some_bind]
    rw [foldlM_count l, length_cons, Nat.add_assoc, Nat.add_comm 1]

theorem foldlM_load {buflen : ℕ} (hload : w ≠ .all ∨ 0 < buflen) : ∀ (l : List Process)
    (found : Found), (∀ p ∈ l, p ∈ fs.processes) →
      l.foldlM (fun f p => visit fs.env (.select w) flag buflen f (decimal p.pid)) found =
        some { nproc := found.nproc + (l.filter (Selected fs.uid flag · w)).length
               chain := found.chain ++
                 (l.filter (Selected fs.uid flag · w)).map (·.kinfo fs.env) }
  | [], found, _ => by simp
  | p :: l, found, hl => by
    have hw : What.select w ≠ .select .all ∨ 0 < buflen :=
      hload.imp_left fun h he => h (What.select.inj he)
    have ih := fun found => foldlM_load hload l found fun q hq => hl q (mem_cons_of_mem _ hq)
    rw [foldlM_cons, visit, if_pos hw, loadProc_eq w flag (env_stat (hl p mem_cons_self))]
    by_cases hp : Selected fs.uid flag p w
    · have hp' : Selected fs.env.uid flag p w := hp
      simp only [if_pos hp', some_bind, ih]
      rw [filter_cons_of_pos (by simpa using hp)]
      simp [Nat.add_assoc, Nat.add_comm]
    · have hp' : ¬ Selected fs.env.uid flag p w := hp
      simp only [if_neg hp', some_bind, ih]
      rw [filter_cons_of_neg (by simpa using hp)]

theorem foldlM_visitNode (visit : Found → Bytes → Option Found) (nodes : List ProcNode)
    (found : Found) : nodes.foldlM (visitNode visit) found =
      (nodes.filterMap ProcNode.process?).foldlM (fun f p => visit f (decimal p.pid)) found := by
  rw [foldlM_filterMap]
  congr 1
  funext f node
  cases node <;> rfl

theorem readProc_found (hlen : dents.length = 256) (buflen : ℕ) :
    ∃ chain, readProc (visit fs.env (.select w) flag buflen) table (fs.nodes.length + 1) dents
        (fs.nodes.map entry) ⟨0, []⟩ =
          some (0, ⟨(fs.selected w flag).length, chain⟩) ∧
      (chain = (fs.selected w flag).map (·.kinfo fs.env) ∨ buflen = 0 ∧ chain = []) := by
  rw [readProc_eq hlen le_rfl, foldlM_visitNode, ← Procfs.delivered]
  by_cases hload : w ≠ .all ∨ 0 < buflen
  · rw [foldlM_load w flag hload _ _ fun p hp => (delivered_sublist fs).subset hp]
    exact ⟨_, by rw [Option.map_some, Nat.zero_add]; rfl, .inl rfl⟩
  · obtain ⟨rfl, rfl⟩ : w = .all ∧ buflen = 0 := by simpa using hload
    have hall : fs.selected .all flag = fs.delivered :=
      filter_eq_self.2 fun p _ => decide_eq_true trivial
    rw [foldlM_count, hall]
    exact ⟨[], by simp, .inr ⟨rfl, rfl⟩⟩

theorem copyOut_eq : ∀ (chain u v : List KinfoProc), v.length = chain.length →
    copyOut chain u.length (u ++ v) = some (u ++ chain)
  | [], u, v, h => by rw [length_eq_zero_iff.1 h, copyOut]
  | kinfo :: chain, u, [], h => nomatch h
  | kinfo :: chain, u, x :: v, h => by
    have ih := copyOut_eq chain (u ++ [kinfo]) v (Nat.succ.inj h)
    rw [length_append, append_assoc, append_assoc] at ih
    rw [copyOut, store_split, some_bind]
    exact ih

theorem sysctlProc_size (hlen : dents.length = 256) :
    sysctlProc fs.env table dents (fs.nodes.map entry) (.select w) flag none 0 =
      some (0, (fs.selected w flag).length * kinfoSize, none) := by
  obtain ⟨chain, hread, hchain⟩ := readProc_found table w flag hlen 0
  rw [sysctlProc, if_neg (by simp), length_map, hread, some_bind]
  rw [Option.isSome_none, if_neg Bool.false_ne_true]
  split_ifs with hsize hnil
  · rfl
  · rfl
  · have hlen : (fs.selected w flag).length = 0 := by simpa [kinfoSize] using hsize
    rw [length_eq_zero_iff.1 hlen, map_nil] at hchain
    exact absurd (hchain.elim id And.right) hnil

theorem sysctlProc_fill (hlen : dents.length = 256) {out : List KinfoProc}
    (hout : out.length = (fs.selected w flag).length) :
    sysctlProc fs.env table dents (fs.nodes.map entry) (.select w) flag (some out)
        ((fs.selected w flag).length * kinfoSize) =
      some (0, (fs.selected w flag).length * kinfoSize,
        some ((fs.selected w flag).map (·.kinfo fs.env))) := by
  obtain ⟨chain, hread, hchain⟩ := readProc_found table w flag hlen
    ((fs.selected w flag).length * kinfoSize)
  obtain rfl : chain = (fs.selected w flag).map (·.kinfo fs.env) := by
    rcases hchain with h | ⟨hzero, h⟩
    · exact h
    · have : (fs.selected w flag).length = 0 := by simpa [kinfoSize] using hzero
      rw [h, length_eq_zero_iff.1 this, map_nil]
  have hcopy := copyOut_eq ((fs.selected w flag).map (·.kinfo fs.env)) [] out
    (by rw [hout, length_map])
  rw [sysctlProc, if_neg (by simp), length_map, hread, some_bind, if_neg (lt_irrefl _)]
  simp only [length_nil, nil_append] at hcopy
  simp [hcopy]

end Calls

theorem map_pid_kinfo (env : Env) (l : List Process) :
    (l.map (·.kinfo env)).map KinfoProc.pid = l.map fun p => (p.pid : ℤ) := by
  rw [map_map]
  rfl

variable {fs : Procfs}

theorem nodup_pids {l : List Process} (h : l.Sublist fs.processes) :
    (l.map fun p => (p.pid : ℤ)).Nodup := by
  have hnat : (l.map Process.pid).Nodup := fs.nodup.sublist (h.map _)
  have := hnat.map (f := fun n : ℕ => (n : ℤ)) Nat.cast_injective
  rwa [map_map] at this

theorem perm_pids_iff {l m : List Process} (hl : l.Sublist fs.processes)
    (hm : m.Sublist fs.processes) : (l.map fun p => (p.pid : ℤ)).Perm (m.map fun p => (p.pid : ℤ)) ↔
      ∀ p ∈ fs.processes, p ∈ l ↔ p ∈ m := by
  rw [perm_ext_iff_of_nodup (nodup_pids hl) (nodup_pids hm)]
  have hmem : ∀ {k : List Process}, k.Sublist fs.processes → ∀ p ∈ fs.processes,
      (p.pid : ℤ) ∈ k.map (fun p => (p.pid : ℤ)) ↔ p ∈ k := by
    intro k hk p hp
    refine ⟨fun h => ?_, fun h => mem_map_of_mem h⟩
    obtain ⟨q, hq, hpid⟩ := mem_map.1 h
    rwa [← eq_of_pid (hk.subset hq) hp (Int.ofNat_inj.1 hpid)]
  refine ⟨fun h p hp => ?_, fun h n => ?_⟩
  · rw [← hmem hl p hp, ← hmem hm p hp]
    exact h _
  · simp only [mem_map]
    refine exists_congr fun p => and_congr_left fun _ => ⟨fun hp => ?_, fun hp => ?_⟩
    · exact (h p (hl.subset hp)).1 hp
    · exact (h p (hm.subset hp)).2 hp

theorem twoCalls_iff_perm {table : ℕ → ℕ} {w : Selector} {flag : ℤ} :
    TwoCalls fs table w flag ↔ ((fs.selected w flag).map fun p => (p.pid : ℤ)).Perm
      ((fs.processes.filter (Matches flag · w)).map fun p => (p.pid : ℤ)) := by
  have hsize : ∀ k : ℕ, k * kinfoSize = (fs.selected w flag).length * kinfoSize ↔
      k = (fs.selected w flag).length := fun k => Nat.mul_left_inj (by decide)
  constructor
  · rintro ⟨s, hcount, hfill⟩
    have hlen : (replicate 256 (0 : Byte)).length = 256 := length_replicate
    have hs := hcount _ hlen
    rw [sysctlProc_size table w flag hlen] at hs
    obtain rfl : (fs.selected w flag).length * kinfoSize = s := by simpa using hs
    obtain ⟨out', hcall, h⟩ := hfill _ ((fs.selected w flag).map (·.kinfo fs.env)) hlen
      (by rw [length_map])
    rw [sysctlProc_fill table w flag hlen (length_map _)] at hcall
    obtain rfl : (fs.selected w flag).map (·.kinfo fs.env) = out' := by simpa using hcall
    rwa [map_pid_kinfo] at h
  · intro h
    refine ⟨_, fun dents hlen => sysctlProc_size table w flag hlen, fun dents out hlen hout => ?_⟩
    refine ⟨_, sysctlProc_fill table w flag hlen ((hsize _).1 hout), ?_⟩
    rwa [map_pid_kinfo]

/-- The two calls list the processes asked for exactly if these are the ones that come by in the
windows and whose line, cut at the first closing parenthesis, has the number asked for. -/
theorem sysctlProc_twoCalls_iff (fs : Procfs) (table : ℕ → ℕ) (w : Selector) (flag : ℤ) :
    TwoCalls fs table w flag ↔
      ∀ p ∈ fs.processes, (p ∈ fs.delivered ∧ Selected fs.uid flag p w) ↔ Matches flag p w := by
  rw [twoCalls_iff_perm, Procfs.selected, perm_pids_iff
    (filter_sublist.trans (delivered_sublist fs)) filter_sublist]
  refine forall₂_congr fun p hp => iff_congr ?_ ?_
  · simp
  · simp [hp]

/-- Where all processes are the caller's and no name has a parenthesis, a size is reported, and a
buffer of that size comes back with processes that match, each at most once. -/
theorem sysctlProc_reports {table : ℕ → ℕ} {w : Selector} {flag : ℤ}
    (h : ∀ p ∈ fs.processes, 41 ∉ p.comm ∧ (0 ≤ p.tty ∧ p.tty < 2 ^ 31) ∧ p.uid = fs.uid ∧
      p.ruid = fs.uid) (hlen : dents.length = 256) :
    ∃ n, sysctlProc fs.env table dents (fs.nodes.map entry) (.select w) flag none 0 =
        some (0, n * kinfoSize, none) ∧
      ∀ out : List KinfoProc, out.length = n → ∃ out',
        sysctlProc fs.env table dents (fs.nodes.map entry) (.select w) flag (some out)
          (n * kinfoSize) = some (0, n * kinfoSize, some out') ∧
        (out'.map KinfoProc.pid).Sublist
          ((fs.processes.filter (Matches flag · w)).map fun p => (p.pid : ℤ)) := by
  have hsel : fs.selected w flag = fs.delivered.filter (Matches flag · w) :=
    filter_congr fun p hp => by
      obtain ⟨hcomm, htty, huid, hruid⟩ := h p ((delivered_sublist fs).subset hp)
      exact decide_eq_decide.2 (selected_iff_matches w hcomm htty huid hruid)
  refine ⟨_, sysctlProc_size table w flag hlen, fun out hout =>
    ⟨_, sysctlProc_fill table w flag hlen hout, ?_⟩⟩
  rw [map_pid_kinfo, hsel]
  exact ((delivered_sublist fs).filter _).map _

def shell (i : Fin 17) : Process where
  pid := 1000 + i
  comm := [115, 104]
  state := 83
  ppid := 1
  pgrp := 1000 + i
  session := 1000 + i
  tty := 0
  tpgid := -1
  flags := 0
  more := []
  uid := 0
  ruid := 0
  ino := 1
  pid_lt := by omega
  comm_nul := by decide
  comm_le := by decide
  state_ok := by decide
  ppid_lt := by decide
  pgrp_lt := by omega
  session_lt := by omega
  tty_lt := by decide
  tpgid_lt := by decide
  flags_lt := by decide

/-- Linux puts the seventeen entries into one batch, and the window has room for sixteen records. -/
def shells : Procfs where
  nodes := (List.finRange 17).map fun i => .process (shell i)
  nodup := by
    have hmap : (List.map Process.pid (((List.finRange 17).map fun i =>
        ProcNode.process (shell i)).filterMap ProcNode.process?)) =
          (List.finRange 17).map fun i : Fin 17 => 1000 + (i : ℕ) := rfl
    rw [hmap]
    exact (nodup_finRange 17).map fun i j h => Fin.ext (Nat.add_left_cancel h)
  lp64 := fun _ => true
  uid := 0
  gid := 0

theorem sysctlProc_reports_sixteen :
    ∃ n, sysctlProc shells.env id (replicate 256 0) (shells.nodes.map entry) (.select .all) 0 none
        0 = some (0, n * kinfoSize, none) ∧
      ∀ out : List KinfoProc, out.length = n → ∃ out', sysctlProc shells.env id (replicate 256 0)
        (shells.nodes.map entry) (.select .all) 0 (some out) (n * kinfoSize) =
          some (0, n * kinfoSize, some out') ∧
        (out'.map KinfoProc.pid).Sublist
          ((shells.processes.filter (Matches 0 · .all)).map fun p => (p.pid : ℤ)) :=
  sysctlProc_reports (by decide +kernel) length_replicate

theorem sysctlProc_seventeen : ¬ TwoCalls shells id .all 0 := by
  intro h
  have hlen := (twoCalls_iff_perm.1 h).length_eq
  have hselected : (shells.selected .all 0).length = 16 := by decide +kernel
  rw [length_map, length_map, hselected] at hlen
  exact absurd hlen (by decide +kernel)

end Darling.SysctlProc
