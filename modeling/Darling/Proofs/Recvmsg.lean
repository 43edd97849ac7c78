import Darling.Proofs.Cmsg

/-!
# Room for control messages

`recvmsg` gives Linux a buffer that is 4 bytes larger than the caller's, rounded up to 8.  Every
message is at least 4 bytes shorter in BSD, so the caller's buffer holds them all if nothing was
rounded; else one that fills the Linux buffer is too long (`recvmsg_contained_iff`).
-/

namespace Darling.Cmsg

open CArray List

/-- Whatever Linux places in its buffer, the loop stays in a buffer of `room` bytes and reports what
it wrote. -/
def Contained (room : ℕ) : Prop :=
  ∀ (ms : List Message) (lbuf control : Bytes), Laid 8 ms lbuf →
    lbuf.length ≤ recvmsgRoom room → control.length = room →
      (∃ fuel control', recvmsgControl fuel lbuf control = some (control', total 4 ms)) ∧
        total 4 ms ≤ room

theorem total_cons (word : ℕ) (m : Message) (ms : List Message) :
    total word (m :: ms) = cmsgSpace word m.data.length + total word ms := rfl

theorem total_four_add_le (ms : List Message) : total 4 ms + 4 * ms.length ≤ total 8 ms := by
  induction ms with
  | nil => exact le_rfl
  | cons m ms ih =>
    have hspace : cmsgSpace 4 m.data.length + 4 ≤ cmsgSpace 8 m.data.length := by
      unfold cmsgSpace align
      omega
    rw [total_cons, total_cons, length_cons]
    omega

theorem laid_eight_length {ms : List Message} {buf : Bytes} (h : Laid 8 ms buf) :
    buf.length = total 8 ms := laid_length (by decide) (by decide) h

theorem near_of_total :
    ∀ (ms : List Message) (pos : ℕ), pos + total 8 ms < 2 ^ 31 + 16 → Near ms pos
  | [], _, _ => trivial
  | m :: ms, pos, h => by
    have hspace : 16 ≤ cmsgSpace 8 m.data.length := Nat.le_add_right _ _
    rw [total_cons] at h
    exact ⟨by omega, near_of_total ms _ (by omega)⟩

variable {room : ℕ}

theorem contained_of_exact (h : room % 8 = 4) (hlt : room < 2 ^ 31 + 12) : Contained room := by
  intro ms lbuf control hlaid hlen hroom
  have hsize : recvmsgRoom room = room + 4 := by
    unfold recvmsgRoom align
    omega
  have htotal := laid_eight_length hlaid
  have hfour : total 4 ms ≤ room := by
    have hle := total_four_add_le ms
    rcases ms with _ | ⟨m, ms⟩
    · exact Nat.zero_le _
    · rw [length_cons] at hle
      omega
  obtain ⟨control', hrun, -⟩ := recvmsgControl_laid hlaid
    (near_of_total ms 0 (by omega)) (by omega) (hroom ▸ hfour)
  exact ⟨⟨_, control', hrun⟩, hfour⟩

theorem contained_of_small (h : room ≤ 4) : Contained room := by
  intro ms lbuf control hlaid hlen _
  have hsize : recvmsgRoom room ≤ 8 := by
    unfold recvmsgRoom align
    omega
  have htotal := laid_eight_length hlaid
  rcases ms with _ | ⟨m, ms⟩
  · obtain rfl : lbuf = [] := hlaid
    exact ⟨⟨1, control, rfl⟩, Nat.zero_le _⟩
  · have hspace : 16 ≤ cmsgSpace 8 m.data.length := Nat.le_add_right _ _
    rw [total_cons] at htotal
    omega

def filler (len : ℕ) : Message := ⟨1, 1, List.replicate len 0⟩

theorem filler_length (len : ℕ) : (filler len).data.length = len := length_replicate

theorem laid_filler (len : ℕ) (hlen : len % 8 = 0) {ms : List Message} {rest : Bytes}
    (h : Laid 8 ms rest) :
    Laid 8 (filler len :: ms) (header 8 (filler len) ++ ((filler len).data ++ rest)) := by
  refine ⟨[], rest, by rw [nil_append], ?_, h⟩
  rw [filler_length, length_nil]
  unfold align
  omega

theorem not_contained_of_rounded (hroom : 4 < room) (h : room % 8 ≠ 4) : ¬ Contained room := by
  intro hcontained
  have hlaid := laid_filler (recvmsgRoom room - 16) (by unfold recvmsgRoom align; omega)
    (show Laid 8 [] [] from rfl)
  have hfits : (header 8 (filler (recvmsgRoom room - 16)) ++
      ((filler (recvmsgRoom room - 16)).data ++ [])).length ≤ recvmsgRoom room := by
    rw [laid_eight_length hlaid, total_cons, filler_length, cmsgSpace_eight]
    unfold recvmsgRoom align total
    simp only [map_nil, sum_nil]
    omega
  have hle := (hcontained _ _ (replicate room 0) hlaid hfits length_replicate).2
  rw [total_cons, filler_length, cmsgSpace_four] at hle
  unfold recvmsgRoom align total at hle
  omega

theorem recvmsgControl_stops {m : Message} {rest : Bytes} (control : Bytes)
    (hlong : 16 + m.data.length = 2 ^ 31) (hlen : (header 8 m ++ (m.data ++ rest)).length < 2 ^ 32)
    (hroom : 12 + m.data.length ≤ control.length) :
    ∃ control', recvmsgControl 2 (header 8 m ++ (m.data ++ rest)) control
      = some (control', (header 8 m ++ (m.data ++ rest)).length - 4) := by
  have hstep := convert_step m [] rest [] control 1
    ((header 8 m ++ (m.data ++ rest)).length % 2 ^ 32) (by decide) (by omega) hroom
  have hspace : cmsgSpace 8 m.data.length - cmsgSpace 4 m.data.length = 4 := by
    unfold cmsgSpace align
    omega
  have hge : 16 ≤ (header 8 m ++ (m.data ++ rest)).length := by
    rw [length_append, header_length]
    omega
  have hend : ¬ ((Int.bmod ((([] : Bytes).length : ℤ) + align (16 + m.data.length) 8) (2 ^ 32) %
      2 ^ 64).toNat < ([] ++ (header 8 m ++ (m.data ++ rest))).length) := by
    rw [nil_append]
    simp only [align, Int.bmod, length_nil]
    split_ifs <;> omega
  rw [hspace, Nat.mod_eq_of_lt hlen, wsub_of_le (by omega) (by omega), convert_past hend] at hstep
  rw [recvmsgControl, Nat.mod_eq_of_lt hlen]
  exact ⟨_, hstep⟩

theorem not_contained_of_wrapped (hroom : 2 ^ 31 + 12 ≤ room) (h : room % 8 = 4) :
    ¬ Contained room := by
  intro hcontained
  obtain ⟨len, hlong⟩ : ∃ len, 16 + len = 2 ^ 31 := ⟨2 ^ 31 - 16, by decide⟩
  have hlaid := laid_filler len (by omega)
    (laid_filler 0 (by decide) (show Laid 8 [] [] from rfl))
  have hlength := laid_eight_length hlaid
  rw [total_cons, total_cons, filler_length, filler_length] at hlength
  obtain ⟨control', hstops⟩ := recvmsgControl_stops
    (replicate room 0) (by rw [filler_length]; exact hlong)
    (hlength.trans_lt (by unfold cmsgSpace align total; simp; omega))
    (by rw [filler_length, length_replicate]; omega)
  obtain ⟨⟨fuel, control'', hrun⟩, -⟩ := hcontained _ _ (replicate room 0) hlaid
    (hlength.trans_le (by unfold cmsgSpace recvmsgRoom align total; simp; omega))
    length_replicate
  have heq := congrArg Prod.snd (recvmsgControl_unique hstops hrun)
  simp only [hlength, total_cons, filler_length] at heq
  unfold cmsgSpace align total at heq
  simp only [map_nil, sum_nil] at heq
  omega

theorem recvmsgControl_overrun {m : Message} (rest : Bytes) {control : Bytes}
    (hlen : 16 + m.data.length < 2 ^ 32) (hroom : control.length < 12 + m.data.length) (fuel : ℕ) :
    recvmsgControl fuel (header 8 m ++ (m.data ++ rest)) control = none := by
  cases fuel with
  | zero => rfl
  | succ fuel =>
    have hround := convert_message m [] rest control fuel 0
      ((header 8 m ++ (m.data ++ rest)).length % 2 ^ 32) (by decide) (by omega)
    refine hround.trans ?_
    by_cases hhead : 12 ≤ control.length
    · have hblit : blit control 0 (header 4 m.toBsd)
          = some (header 4 m.toBsd ++ control.drop 12) := by
        have h := blit_room (u := []) (v := control) (t := header 4 m.toBsd)
          (by rwa [header_length])
        rwa [header_length] at h
      rw [hblit, Option.bind_some, blit_outside, Option.bind_none]
      rw [length_append, header_length, length_drop]
      omega
    · rw [blit_outside (by rw [header_length]; omega), Option.bind_none]

/-- A message with two descriptors that Linux fits into the 24 bytes for a buffer of 16. -/
theorem recvmsg_two_descriptors : Laid 8 [⟨1, 1, [5, 0, 0, 0, 6, 0, 0, 0]⟩]
        (header 8 ⟨1, 1, [5, 0, 0, 0, 6, 0, 0, 0]⟩ ++ [5, 0, 0, 0, 6, 0, 0, 0]) ∧
      recvmsgRoom 16 = 24 ∧
      (header 8 ⟨1, 1, [5, 0, 0, 0, 6, 0, 0, 0]⟩ ++ [5, 0, 0, 0, 6, 0, 0, 0]).length = 24 ∧
      (∀ fuel, recvmsgControl fuel
        (header 8 ⟨1, 1, [5, 0, 0, 0, 6, 0, 0, 0]⟩ ++ [5, 0, 0, 0, 6, 0, 0, 0])
        (List.replicate 16 0) = none) ∧
      ¬ Contained 16 :=
  ⟨⟨[], [], rfl, rfl, rfl⟩, by decide, by decide,
    recvmsgControl_overrun [] (by decide) (by decide),
    not_contained_of_rounded (by decide) (by decide)⟩

/-- Linux is given a buffer whose content fits exactly if the caller's ends with half a word. -/
theorem recvmsg_contained_iff (room : UInt32) : Contained room.toNat ↔
      room.toNat ≤ 4 ∨ room.toNat % 8 = 4 ∧ room.toNat < 2 ^ 31 + 12 := by
  constructor
  · intro h
    by_contra hno
    by_cases hrounded : room.toNat % 8 = 4
    · exact not_contained_of_wrapped (by omega) hrounded h
    · exact not_contained_of_rounded (by omega) hrounded h
  · rintro (hsmall | ⟨hexact, hfar⟩)
    · exact contained_of_small hsmall
    · exact contained_of_exact hexact hfar

end Darling.Cmsg
