import Darling.Proofs.Endian
import Darling.Shellspawn

/-!
# What the server decodes

`readCommand` takes a command off the stream as it was pushed if both calls get all the bytes they
ask for and the length of the data fits its field.  Otherwise the server gives up, or the data it
leaves behind are read as the next commands.
-/

namespace Darling.Shellspawn

open List

section Read

variable {most : ℕ → ℕ} {i : ℕ} {c : Command} {rest : Bytes} {control : Option ℕ}

/-- Where the descriptors are after `n` more bytes. -/
def after (control : Option ℕ) (n : ℕ) : Option ℕ := (control.filter (n ≤ ·)).map (· - n)

theorem recv_all {s : Socket} {m count : ℕ} (hpos : 0 < count) (h : count ≤ max 1 m) :
    s.recv m count = (s.pending.take count, s.control.any (· < count),
      ⟨s.pending.drop count, after s.control count⟩) := by
  have hn : max 1 (min m count) = count := by omega
  simp [Socket.recv, hn, after]

theorem recv_length_lt {m count : ℕ} (h : max 1 m < count) (s : Socket) :
    (s.recv m count).1.length < count := by
  simp only [Socket.recv, length_take]
  omega

theorem readCommand_short (h : most i < 4) (s : Socket) : readCommand most i s = none := by
  have := recv_length_lt (show max 1 (most i) < 4 by omega) s
  simp only [readCommand]
  rw [if_pos (by omega)]

theorem push_take : (pushShellspawnCommandData c ++ rest).take 4 =
    le 2 c.cmd.toNat ++ le 2 c.data.length := by
  unfold pushShellspawnCommandData
  rw [← append_assoc, append_assoc, take_left' (by simp)]

theorem push_drop : (pushShellspawnCommandData c ++ rest).drop 4 = c.data ++ rest := by
  unfold pushShellspawnCommandData
  rw [← append_assoc, append_assoc, drop_left' (by simp)]

theorem readCommand_push (h : 4 ≤ most i) :
    readCommand most i ⟨pushShellspawnCommandData c ++ rest, control⟩ =
      let dataLength := c.data.length % 65536
      let s : Socket := ⟨c.data ++ rest, after control 4⟩
      if dataLength ≠ 0 then
        let (param, _, s) := s.recv (most (i + 1)) dataLength
        if param.length ≠ dataLength then none
        else some (⟨c.cmd, param⟩, control.any (· < 4), i + 2, s)
      else some (⟨c.cmd, []⟩, control.any (· < 4), i + 1, s) := by
  have hcmd : UInt16.ofNat (unle (le 2 c.cmd.toNat)) = c.cmd := by
    rw [unle_le_of_lt (by have := c.cmd.toNat_lt; simpa using this)]
    simp
  have hlen : unle (le 2 c.data.length) = c.data.length % 65536 := unle_le 2 _
  simp only [readCommand, recv_all (show 0 < 4 by omega) (show 4 ≤ max 1 (most i) by omega),
    push_take, push_drop]
  rw [if_neg (by simp)]
  simp [hcmd, hlen]

theorem readCommand_front {r : Command × Bool × ℕ × Socket} (h : 4 ≤ most i)
    (hr : readCommand most i ⟨pushShellspawnCommandData c ++ rest, control⟩ = some r) :
    r.1.cmd = c.cmd ∧ r.1.data.length = c.data.length % 65536 := by
  rw [readCommand_push h] at hr
  simp only at hr
  split_ifs at hr with hlen hparam
  · cases hr
    exact ⟨rfl, not_not.1 hparam⟩
  · cases hr
    exact ⟨rfl, by simpa using (not_not.1 hlen).symm⟩

def Command.calls (c : Command) : ℕ := if c.data = [] then 1 else 2

theorem readCommand_whole (h : 4 ≤ most i) (hlen : c.data.length < 65536)
    (hdata : c.data.length ≤ max 1 (most (i + 1))) :
    readCommand most i ⟨pushShellspawnCommandData c ++ rest, control⟩ =
      some (c, control.any (· < 4), i + c.calls,
        ⟨rest, if c.data = [] then after control 4 else after
          (after control 4) c.data.length⟩) := by
  rw [readCommand_push h, Nat.mod_eq_of_lt hlen]
  obtain ⟨cmd, data⟩ := c
  by_cases hne : data = []
  · simp [hne, Command.calls]
  · have hpos := length_pos_iff.2 hne
    simp [recv_all hpos hdata, hne, Command.calls]

theorem readCommand_cut (h : 4 ≤ most i) (hlen : c.data.length < 65536)
    (hdata : max 1 (most (i + 1)) < c.data.length) :
    readCommand most i ⟨pushShellspawnCommandData c ++ rest, control⟩ = none := by
  have hshort := recv_length_lt hdata ⟨c.data ++ rest, after control 4⟩
  simp only [readCommand_push h, Nat.mod_eq_of_lt hlen]
  rw [if_pos (by omega), if_pos (by omega)]

end Read

section Server

variable {most : ℕ → ℕ}

theorem client_cons (c : Command) (cmds : List Command) :
    client (c :: cmds) = ⟨pushShellspawnCommandData c ++ (client cmds).pending,
      some ((pushShellspawnCommandData c).length +
        (cmds.flatMap pushShellspawnCommandData).length)⟩ := by
  simp [client]

theorem push_length (c : Command) : (pushShellspawnCommandData c).length = 4 + c.data.length := by
  simp [pushShellspawnCommandData]
  omega

theorem after_add (n m : ℕ) : after (some (n + m)) n = some m := by
  simp [after]

/-- Each call gets all the bytes it asks for. -/
def Whole (most : ℕ → ℕ) : ℕ → List Command → Prop
  | i, [] => 4 ≤ most i
  | i, c :: cmds =>
    4 ≤ most i ∧ c.data.length ≤ max 1 (most (i + 1)) ∧ Whole most (i + c.calls) cmds

def Framed (c : Command) : Prop := c.data.length < 65536 ∧ c.cmd ≠ cmdGo

variable {fuel i : ℕ}

theorem spawnShell_cons {c : Command} {cmds : List Command} (hc : Framed c)
    (h : 4 ≤ most i) (hdata : c.data.length ≤ max 1 (most (i + 1))) :
    spawnShell most (fuel + 1) i (client (c :: cmds)) =
      (spawnShell most fuel (i + c.calls) (client cmds)).map (c :: ·) := by
  have hcontrol : (if c.data = [] then after (some ((pushShellspawnCommandData c).length +
      (cmds.flatMap pushShellspawnCommandData).length)) 4
      else after (after (some ((pushShellspawnCommandData c).length +
        (cmds.flatMap pushShellspawnCommandData).length)) 4) c.data.length) =
      (client cmds).control := by
    rw [push_length, Nat.add_assoc, after_add]
    split_ifs with hne
    · simp [hne, client]
    · rw [after_add]
      rfl
  rw [spawnShell, client_cons, readCommand_whole h hc.1 hdata]
  simp only [hcontrol, if_neg hc.2]

theorem spawnShell_nil (h : 4 ≤ most i) :
    spawnShell most (fuel + 1) i (client []) = some [⟨cmdGo, []⟩] := by
  have hclient : client [] = ⟨pushShellspawnCommandData ⟨cmdGo, []⟩ ++ [], some 0⟩ := by
    simp [client]
  rw [spawnShell, hclient, readCommand_whole h (by simp) (by simp)]
  simp

theorem framed_of_decoded {c : Command} {cmds l : List Command} (hcmds : l ≠ [])
    (h : spawnShell most fuel i (client (c :: cmds)) = some (c :: l)) :
    Framed c ∧ 4 ≤ most i ∧ c.data.length ≤ max 1 (most (i + 1)) := by
  rcases fuel with _ | fuel
  · cases h
  · have h4 : 4 ≤ most i := by
      by_contra hlt
      rw [spawnShell, readCommand_short (by omega)] at h
      cases h
    rw [spawnShell, client_cons] at h
    rcases hr : readCommand most i ⟨pushShellspawnCommandData c ++ (client cmds).pending, _⟩ with
      _ | ⟨c', control, j, s⟩
    · rw [hr] at h
      cases h
    · obtain ⟨-, hlen⟩ := readCommand_front h4 hr
      simp only [hr] at h
      split_ifs at h with hgo hcontrol
      · simp only [Option.some.injEq, cons.injEq] at h
        exact absurd h.2.symm hcmds
      · obtain ⟨l', -, hl'⟩ := Option.map_eq_some_iff.1 h
        obtain ⟨rfl, -⟩ := cons.inj hl'
        have hframed : c'.data.length < 65536 := by
          simp only at hlen
          omega
        refine ⟨⟨hframed, hgo⟩, h4, ?_⟩
        by_contra hcut
        rw [readCommand_cut h4 hframed (by omega)] at hr
        cases hr

theorem spawnShell_iff_whole : ∀ (cmds : List Command) (i : ℕ),
    (∃ fuel, spawnShell most fuel i (client cmds) = some (cmds ++ [⟨cmdGo, []⟩])) ↔
      (∀ c ∈ cmds, Framed c) ∧ Whole most i cmds
  | [], i => by
    constructor
    · rintro ⟨fuel, h⟩
      refine ⟨by simp, ?_⟩
      by_contra hlt
      rcases fuel with _ | fuel
      · cases h
      · rw [spawnShell, readCommand_short (by simpa [Whole] using hlt)] at h
        cases h
    · rintro ⟨-, h⟩
      exact ⟨1, spawnShell_nil h⟩
  | c :: cmds, i => by
    have ih := spawnShell_iff_whole cmds (i + c.calls)
    constructor
    · rintro ⟨fuel, h⟩
      obtain ⟨hc, h4, hdata⟩ := framed_of_decoded (by simp) h
      rcases fuel with _ | fuel
      · cases h
      · rw [spawnShell_cons hc h4 hdata] at h
        obtain ⟨l, hl, heq⟩ := Option.map_eq_some_iff.1 h
        obtain ⟨hall, hwhole⟩ := ih.1 ⟨fuel, by rw [hl, (cons.inj heq).2]; rfl⟩
        exact ⟨forall_mem_cons.2 ⟨hc, hall⟩, h4, hdata, hwhole⟩
    · rintro ⟨hall, h4, hdata, hwhole⟩
      obtain ⟨hc, hall⟩ := forall_mem_cons.1 hall
      obtain ⟨fuel, h⟩ := ih.2 ⟨hall, hwhole⟩
      exact ⟨fuel + 1, by rw [spawnShell_cons hc h4 hdata, h]; rfl⟩

end Server

/-- For every way in which the socket cuts the stream, the server decodes the commands that were
pushed, and `GO`, exactly if the length of each one's data fits its field, none of them is a `GO`,
and each call gets all the bytes it asks for. -/
theorem spawnShell_decodes_iff (most : ℕ → ℕ) (cmds : List Command) :
    (∃ fuel, spawnShell most fuel 0 (client cmds) = some (cmds ++ [⟨cmdGo, []⟩])) ↔
      (∀ c ∈ cmds, c.data.length < 65536 ∧ c.cmd ≠ cmdGo) ∧ Whole most 0 cmds :=
  spawnShell_iff_whole cmds 0

/-- An argument `a`, of whose header one byte arrives first. -/
theorem spawnShell_one_byte : ¬ ∃ fuel, spawnShell (fun _ => 1) fuel 0 (client [⟨1, [97, 0]⟩]) =
      some [⟨1, [97, 0]⟩, ⟨cmdGo, []⟩] := by
  rintro ⟨_ | fuel, h⟩
  · cases h
  · rw [spawnShell, readCommand_short (by omega)] at h
    cases h

end Darling.Shellspawn
