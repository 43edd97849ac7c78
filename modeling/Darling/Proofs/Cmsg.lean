import Darling.Cmsg
import Darling.Proofs.CArray
import Darling.Proofs.Endian

/-!
# Control messages there and back

The loop of `recvmsg` turns every buffer of Linux messages into the BSD one (`convert_laid`), but
`sendmsg` builds the first message only, so the way there and back is the identity for at most one
message, whose level is not the number that means `SOL_SOCKET` in Linux (`control_roundtrip_iff`).
-/

namespace Darling.Cmsg

open CArray List Option

/-- The message as Linux should get it. -/
def Message.toLinux (m : Message) : Message := { m with level := socketLevelBsdToLinux m.level }

def Message.toBsd (m : Message) : Message := { m with level := socketLevelLinuxToBsd m.level }

section Layout

variable (word : ℕ) {m : Message}

@[simp] theorem header_length : (header word m).length = word + 8 := by
  simp [header]

theorem load_len (h : word + 8 + m.data.length < 256 ^ word) :
    load word (header word m) 0 = some (word + 8 + m.data.length) :=
  (load_field (u := []) (le_length word _)).trans (congrArg some (unle_le_of_lt h))

theorem load_level : load 4 (header word m) word = some m.level.toNat := by
  have h := load_field (u := le word (word + 8 + m.data.length)) (w := le 4 m.type.toNat)
    (le_length 4 m.level.toNat)
  rwa [le_length, unle_le_of_lt m.level.toNat_lt] at h

theorem load_type : load 4 (header word m) (word + 4) = some m.type.toNat := by
  have h := load_field (w := [])
    (u := le word (word + 8 + m.data.length) ++ le 4 m.level.toNat) (le_length 4 m.type.toNat)
  rwa [length_append, le_length, le_length, unle_le_of_lt m.type.toNat_lt, append_nil,
    append_assoc] at h

theorem le_align {n : ℕ} (hw : 0 < word) : n ≤ align n word := by
  have hdiv := Nat.div_add_mod (n + (word - 1)) word
  have hmod := Nat.mod_lt (n + (word - 1)) hw
  rw [Nat.mul_comm] at hdiv
  unfold align
  omega

/-- The length of the messages in a Linux buffer. -/
def total (ms : List Message) : ℕ := (ms.map fun m => cmsgSpace word m.data.length).sum

theorem laid_length {word : ℕ} (hw : align (word + 8) word = word + 8) (hpos : 0 < word) :
    ∀ {ms : List Message} {buf : Bytes}, Laid word ms buf → buf.length = total word ms
  | [], _, h => by rw [h]; rfl
  | m :: ms, _, ⟨pad, rest, rfl, hpad, h⟩ => by
    have hle := le_align word (n := m.data.length) hpos
    rw [total, map_cons, sum_cons, ← total, ← laid_length hw hpos h, cmsgSpace, hw]
    simp only [length_append, header_length]
    omega

end Layout

variable {fuel controllen : ℕ} {ms : List Message} {lbuf room control lbuf : Bytes}

section Receive

theorem convert_message (m : Message) (u rest control : Bytes) (fuel bpos controllen : ℕ)
    (hu : u.length < 2 ^ 31) (hlen : 12 + m.data.length < 2 ^ 32) :
    convert (u ++ (header 8 m ++ (m.data ++ rest))) (fuel + 1) u.length bpos control controllen
      = (blit control bpos (header 4 m.toBsd)).bind fun control =>
        (blit control (bpos + 12) m.data).bind fun control =>
        convert (u ++ (header 8 m ++ (m.data ++ rest))) fuel
          (Int.bmod (u.length + align (16 + m.data.length) 8) (2 ^ 32))
          (Int.bmod (bpos + align (12 + m.data.length) 4) (2 ^ 32)) control
          (wsub 32 controllen (cmsgSpace 8 m.data.length - cmsgSpace 4 m.data.length)) := by
  have hlbuf : load 8 (u ++ (header 8 m ++ (m.data ++ rest))) u.length
      = some (16 + m.data.length) :=
    load_append u _ (load_len 8 (by omega))
  have hlevel := load_append u (m.data ++ rest) (load_level (m := m) 8)
  have htype := load_append u (m.data ++ rest) (load_type (m := m) 8)
  have hdata : slice (u ++ (header 8 m ++ (m.data ++ rest))) (u.length + 16) m.data.length
      = some m.data := by
    have h := slice_split (u ++ header 8 m) m.data rest
    rwa [length_append, header_length, append_assoc] at h
  have hblen : wsub 32 (16 + m.data.length) (16 - 12) = 12 + m.data.length := by
    unfold wsub
    omega
  have hsize : wsub 64 (16 + m.data.length) 16 = m.data.length := by
    rw [wsub_of_le (by omega) (by omega)]
    omega
  have hin : ((u.length : ℤ) % 2 ^ 64).toNat < (u ++ (header 8 m ++ (m.data ++ rest))).length := by
    simp only [length_append, header_length]
    omega
  have hfields : le 4 (12 + m.data.length) ++ (le 4 (socketLevelLinuxToBsd m.level).toNat ++
      le 4 m.type.toNat) = header 4 m.toBsd := rfl
  rw [convert, if_pos hin]
  simp only [Int.toNat_natCast, hlbuf, hlevel, htype, hblen, hsize, bind_eq_bind,
    bind_some, UInt32.ofNat_toNat, hdata]
  rw [if_neg (by omega), hfields]

theorem convert_step (m : Message) (u rest bu room : Bytes) (fuel controllen : ℕ)
    (hu : u.length < 2 ^ 31) (hlen : 12 + m.data.length < 2 ^ 32)
    (hroom : 12 + m.data.length ≤ room.length) :
    convert (u ++ (header 8 m ++ (m.data ++ rest))) (fuel + 1) u.length bu.length (bu ++ room)
        controllen
      = convert (u ++ (header 8 m ++ (m.data ++ rest))) fuel
        (Int.bmod (u.length + align (16 + m.data.length) 8) (2 ^ 32))
        (Int.bmod (bu.length + align (12 + m.data.length) 4) (2 ^ 32))
        (bu ++ (header 4 m.toBsd ++ (m.data ++ room.drop (12 + m.data.length))))
        (wsub 32 controllen (cmsgSpace 8 m.data.length - cmsgSpace 4 m.data.length)) := by
  have hhead : blit (bu ++ room) bu.length (header 4 m.toBsd)
      = some (bu ++ (header 4 m.toBsd ++ room.drop 12)) :=
    blit_room (by rw [header_length]; omega)
  have hbody : blit (bu ++ (header 4 m.toBsd ++ room.drop 12)) (bu.length + 12) m.data
      = some (bu ++ (header 4 m.toBsd ++ (m.data ++ room.drop (12 + m.data.length)))) := by
    have h := blit_room (u := bu ++ header 4 m.toBsd) (v := room.drop 12) (t := m.data)
      (by rw [length_drop]; omega)
    rwa [length_append, header_length, append_assoc, append_assoc,
      drop_drop] at h
  rw [convert_message m u rest _ fuel _ controllen hu hlen, hhead, bind_some, hbody, bind_some]

def Near : List Message → ℕ → Prop
  | [], _ => True
  | m :: ms, pos => pos < 2 ^ 31 ∧ Near ms (pos + cmsgSpace 8 m.data.length)

theorem convert_past {lpos bpos : ℤ} (h : ¬ (lpos % 2 ^ 64).toNat < lbuf.length) :
    convert lbuf (fuel + 1) lpos bpos control controllen = some (control, controllen) := by
  rw [convert, if_neg h]

theorem convert_end {bpos : ℤ} (h : lbuf.length < 2 ^ 32) :
    convert lbuf (fuel + 1) (Int.bmod lbuf.length (2 ^ 32)) bpos control controllen
      = some (control, controllen) := by
  apply convert_past
  simp only [Int.bmod]
  split_ifs <;> omega

theorem cmsgSpace_four (n : ℕ) : cmsgSpace 4 n = align (12 + n) 4 := by
  unfold cmsgSpace align
  omega

theorem cmsgSpace_eight (n : ℕ) : cmsgSpace 8 n = align (16 + n) 8 := by
  unfold cmsgSpace align
  omega

theorem convert_laid : ∀ (ms : List Message) (u rest bu room : Bytes) (k : ℕ), Laid 8 ms rest →
    Near ms u.length → u.length + rest.length < 2 ^ 32 → k + rest.length < 2 ^ 32 →
    bu.length ≤ u.length → total 4 ms ≤ room.length →
    ∃ room', convert (u ++ rest) (ms.length + 1) (Int.bmod u.length (2 ^ 32))
        (Int.bmod bu.length (2 ^ 32)) (bu ++ room) (k + rest.length)
        = some (bu ++ room', k + total 4 ms) ∧
          Laid 4 (ms.map Message.toBsd) (room'.take (total 4 ms))
  | [], u, rest, bu, room, k, h, _, hlen, _, _, _ => by
    obtain rfl : rest = [] := h
    refine ⟨room, ?_, rfl⟩
    rw [append_nil] at *
    exact convert_end hlen
  | m :: ms, u, _, bu, room, k, ⟨pad, rest, rfl, hpad, h⟩, hnear, hlen, hk, hle, hroom => by
    have h₈ := le_align 8 (n := m.data.length) (by decide)
    have h₄ := le_align 4 (n := m.data.length) (by decide)
    have hs₈ : cmsgSpace 8 m.data.length = 16 + align m.data.length 8 := rfl
    have hs₄ : cmsgSpace 4 m.data.length = 12 + align m.data.length 4 := rfl
    have hs : cmsgSpace 4 m.data.length ≤ cmsgSpace 8 m.data.length := by
      unfold cmsgSpace align
      omega
    have htotal : total 4 (m :: ms) = cmsgSpace 4 m.data.length + total 4 ms := rfl
    simp only [length_append, header_length] at hlen hk
    obtain ⟨pad', room', hsplit, hpad'⟩ : ∃ pad' room', room.drop (12 + m.data.length)
        = pad' ++ room' ∧ pad'.length = align m.data.length 4 - m.data.length := by
      refine ⟨_, _, (take_append_drop (align m.data.length 4 - m.data.length) _).symm, ?_⟩
      rw [length_take, length_drop]
      omega
    have hroom' : total 4 ms ≤ room'.length := by
      have := congrArg List.length hsplit
      rw [length_drop, length_append] at this
      omega
    have hu : (u ++ (header 8 m ++ (m.data ++ pad))).length
        = u.length + align (16 + m.data.length) 8 := by
      simp only [length_append, header_length, ← cmsgSpace_eight]
      omega
    have hbu : (bu ++ (header 4 m.toBsd ++ (m.data ++ pad'))).length
        = bu.length + align (12 + m.data.length) 4 := by
      simp only [length_append, header_length, ← cmsgSpace_four]
      omega
    have hcontrollen : wsub 32 (k + (8 + 8 + (m.data.length + (pad.length + rest.length))))
        (cmsgSpace 8 m.data.length - cmsgSpace 4 m.data.length)
          = k + cmsgSpace 4 m.data.length + rest.length := by
      rw [wsub_of_le (by omega) (by omega)]
      omega
    obtain ⟨room₁, hrun, hlaid⟩ := convert_laid ms (u ++ (header 8 m ++ (m.data ++ pad))) rest
      (bu ++ (header 4 m.toBsd ++ (m.data ++ pad'))) room' (k + cmsgSpace 4 m.data.length) h
      (by rw [hu, ← cmsgSpace_eight]; exact hnear.2) (by rw [hu, ← cmsgSpace_eight]; omega)
      (by omega) (by rw [hu, hbu, ← cmsgSpace_four, ← cmsgSpace_eight]; omega) hroom'
    refine ⟨header 4 m.toBsd ++ (m.data ++ (pad' ++ room₁)), ?_, ?_⟩
    · rw [bmod_of_lt hnear.1, bmod_of_lt (lt_of_le_of_lt hle hnear.1), length_cons,
        convert_step m u (pad ++ rest) bu room _ _ hnear.1 (by omega)
          (by omega), hsplit, ← Nat.cast_add, ← hu, ← Nat.cast_add,
        ← hbu]
      simp only [length_append, header_length, hcontrollen]
      simp only [append_assoc, length_append, header_length] at hrun ⊢
      rw [hrun, htotal, Nat.add_assoc]
    · refine ⟨pad', room₁.take (total 4 ms), ?_, hpad', hlaid⟩
      have hlength : total 4 (m :: ms) = (header 4 m.toBsd ++ (m.data ++ pad')).length
          + total 4 ms := by
        simp only [length_append, header_length]
        omega
      rw [hlength, show header 4 m.toBsd ++ (m.data ++ (pad' ++ room₁))
        = header 4 m.toBsd ++ (m.data ++ pad') ++ room₁ by simp, take_length_add_append]
      simp only [append_assoc]
      rfl

theorem recvmsgControl_laid (h : Laid 8 ms lbuf)
    (hnear : Near ms 0) (hlen : lbuf.length < 2 ^ 32) (hroom : total 4 ms ≤ room.length) :
    ∃ room', recvmsgControl (ms.length + 1) lbuf room = some (room', total 4 ms) ∧
      Laid 4 (ms.map Message.toBsd) (room'.take (total 4 ms)) := by
  obtain ⟨room', hrun, hlaid⟩ := convert_laid ms [] lbuf [] room 0 h hnear (by simpa using hlen)
    (by simpa using hlen) le_rfl hroom
  refine ⟨room', ?_, hlaid⟩
  rw [Nat.zero_add, Nat.zero_add] at hrun
  rw [recvmsgControl, Nat.mod_eq_of_lt hlen]
  exact hrun

theorem convert_fuel : ∀ {fuel : ℕ} {lpos bpos : ℤ} {control : Bytes}
    {controllen : ℕ} {r : Bytes × ℕ}, convert lbuf fuel lpos bpos control controllen = some r →
    ∀ fuel', fuel ≤ fuel' → convert lbuf fuel' lpos bpos control controllen = some r
  | fuel + 1, lpos, bpos, control, controllen, r, h, 0, hle => by omega
  | fuel + 1, lpos, bpos, control, controllen, r, h, fuel' + 1, hle => by
    rw [convert] at h ⊢
    by_cases hin : (lpos % 2 ^ 64).toNat < lbuf.length
    · rw [if_pos hin] at h ⊢
      simp only [bind_eq_bind, bind_eq_some_iff] at h ⊢
      obtain ⟨len, hlen, level, hlevel, type, htype, h⟩ := h
      refine ⟨len, hlen, level, hlevel, type, htype, ?_⟩
      by_cases hneg : bpos < 0
      · rw [if_pos hneg] at h
        cases h
      · rw [if_neg hneg] at h ⊢
        simp only [bind_eq_some_iff] at h ⊢
        obtain ⟨b, hb, data, hdata, b', hb', h⟩ := h
        exact ⟨b, hb, data, hdata, b', hb', convert_fuel h fuel' (by omega)⟩
    · rw [if_neg hin] at h ⊢
      exact h

theorem recvmsgControl_unique {fuel fuel' : ℕ} {r r' : Bytes × ℕ}
    (h : recvmsgControl fuel lbuf room = some r) (h' : recvmsgControl fuel' lbuf room = some r') :
    r = r' := by
  have hmax := convert_fuel h (max fuel fuel') (le_max_left _ _)
  rw [convert_fuel h' _ (le_max_right _ _)] at hmax
  exact (some.inj hmax).symm

end Receive

section Send

variable {m : Message} {ms : List Message} {control : Bytes}

theorem sendmsgControl_cons (h : Laid 4 (m :: ms) control) (hlen : control.length < 2 ^ 32)
    (junk : ℕ → Byte) :
    sendmsgControl junk control = some (header 8 m.toLinux ++ (m.data ++
      ((range (align (control.length + 4) 8)).map junk).drop (16 + m.data.length))) := by
  obtain ⟨pad, rest, rfl, hpad, -⟩ := h
  simp only [length_append, header_length] at hlen
  have hload : load 4 (header 4 m ++ (m.data ++ (pad ++ rest))) 0 = some (12 + m.data.length) :=
    load_append [] _ (load_len 4 (by omega))
  have hlevel := load_append [] (m.data ++ (pad ++ rest)) (load_level (m := m) 4)
  have htype := load_append [] (m.data ++ (pad ++ rest)) (load_type (m := m) 4)
  have hdata : slice (header 4 m ++ (m.data ++ (pad ++ rest))) 12 m.data.length = some m.data :=
    slice_split (header 4 m) m.data (pad ++ rest)
  have hsize : wsub 64 (12 + m.data.length) 12 = m.data.length := by
    rw [wsub_of_le (by omega) (by omega)]
    omega
  have hfields : le 8 (12 + m.data.length + 4) ++ (le 4 (socketLevelBsdToLinux m.level).toNat ++
      le 4 m.type.toNat) = header 8 m.toLinux := by
    rw [Nat.add_right_comm]
    rfl
  rw [sendmsgControl, if_pos (by simp only [length_append, header_length]; omega)]
  generalize hlchdr : (range (align ((header 4 m ++ (m.data ++ (pad ++ rest))).length
    + 4) 8)).map junk = lchdr
  have hroom : 16 + m.data.length ≤ lchdr.length := by
    rw [← hlchdr, length_map, length_range]
    simp only [length_append, header_length, align]
    omega
  have hhead : blit lchdr 0 (header 8 m.toLinux) = some (header 8 m.toLinux ++ lchdr.drop 16) :=
    blit_room (u := []) (by rw [header_length]; omega)
  have hbody : blit (header 8 m.toLinux ++ lchdr.drop 16) 16 m.data
      = some (header 8 m.toLinux ++ (m.data ++ lchdr.drop (16 + m.data.length))) := by
    have h := blit_room (u := header 8 m.toLinux) (v := lchdr.drop 16) (t := m.data)
      (by rw [length_drop]; omega)
    rwa [header_length, drop_drop] at h
  simp only [nil_append, length_nil, Nat.zero_add] at hlevel htype
  simp [hload, hlevel, htype, hsize, hdata, UInt32.ofNat_toNat, hfields, hhead, hbody]

theorem sendmsgControl_single (h : Laid 4 [m] control) (hlen : control.length < 2 ^ 32)
    (junk : ℕ → Byte) : ∃ lbuf, sendmsgControl junk control = some lbuf ∧
      Laid 8 [m.toLinux] lbuf ∧ lbuf.length = 16 + align m.data.length 8 := by
  have hcontrol : control.length = 12 + align m.data.length 4 :=
    laid_length (by decide) (by decide) h
  refine ⟨_, sendmsgControl_cons h hlen junk, ?_⟩
  generalize htail : ((range (align (control.length + 4) 8)).map junk).drop
    (16 + m.data.length) = tail
  have hle := le_align 8 (n := m.data.length) (by decide)
  have hpad : tail.length = align m.data.length 8 - m.data.length := by
    rw [← htail, length_drop, length_map, length_range, hcontrol]
    unfold align
    omega
  refine ⟨⟨tail, [], by rw [append_nil]; rfl, hpad, rfl⟩, ?_⟩
  simp only [length_append, header_length]
  omega

theorem level_roundtrip (level : UInt32) :
    socketLevelLinuxToBsd (socketLevelBsdToLinux level) = level ↔ level ≠ 1 := by
  unfold socketLevelLinuxToBsd socketLevelBsdToLinux
  split_ifs with h₁ h₂ h₂
  · rw [h₁]
    decide
  · exact absurd rfl h₂
  · rw [h₂]
    decide
  · simp [h₂]

theorem laid_level {word : ℕ} {m' : Message} {ms' : List Message} {buf : Bytes}
    (h : Laid word (m :: ms) buf) (h' : Laid word (m' :: ms') buf) : m.level = m'.level := by
  obtain ⟨pad, rest, rfl, -, -⟩ := h
  obtain ⟨pad', rest', heq, -, -⟩ := h'
  have hload := load_append [] (m.data ++ (pad ++ rest)) (load_level (m := m) word)
  rw [heq, load_append [] (m'.data ++ (pad' ++ rest')) (load_level word)] at hload
  exact UInt32.toNat_inj.1 (some.inj hload).symm

theorem convert_neg {buf : Bytes} {lpos bpos : ℤ}
    (hin : (lpos % 2 ^ 64).toNat < lbuf.length) (hneg : bpos < 0) :
    convert lbuf fuel lpos bpos buf controllen = none := by
  cases fuel with
  | zero => rfl
  | succ fuel =>
    rw [convert, if_pos hin]
    simp [hneg]

/-- A message whose end is `2 ^ 32` bytes behind the start: `lpos` wraps to 0 and `bpos` to a number
below 0. -/
theorem recvmsgControl_wrapped (h : Laid 8 [m] lbuf)
    (hlen : 12 + m.data.length < 2 ^ 32) (hwrap : 16 + align m.data.length 8 = 2 ^ 32)
    (hroom : 12 + m.data.length ≤ room.length) (fuel : ℕ) :
    recvmsgControl fuel lbuf room = none := by
  obtain ⟨pad, rest, rfl, -, -⟩ := h
  cases fuel with
  | zero => rfl
  | succ fuel =>
    have hstep := convert_step m [] (pad ++ rest) [] room fuel
      ((header 8 m ++ (m.data ++ (pad ++ rest))).length % 2 ^ 32) (by decide) hlen hroom
    refine hstep.trans (convert_neg ?_ ?_)
    · rw [← cmsgSpace_eight, show cmsgSpace 8 m.data.length = 2 ^ 32 from hwrap]
      simp only [nil_append, length_append, header_length]
      exact Nat.lt_of_lt_of_le (by decide : 0 < 16) (Nat.le_add_right _ _)
    · simp only [align, Int.bmod, length_nil] at hwrap ⊢
      split_ifs <;> omega

end Send

theorem unle_zero : ∀ {bs : Bytes}, (∀ b ∈ bs, b = 0) → unle bs = 0
  | [], _ => rfl
  | b :: bs, h => by
    rw [unle, h b (by simp), unle_zero fun b hb => h b (by simp [hb])]
    rfl

theorem not_laid_second {m m' : Message} {tail : Bytes}
    (hlen : 16 + m'.data.length < 2 ^ 64) (htail : ∀ b ∈ tail, b = 0) :
    ¬ Laid 8 (m :: m' :: ms) (header 8 m ++ (m.data ++ tail)) := by
  rintro ⟨pad, rest, heq, -, pad', rest', rfl, -, -⟩
  rw [append_cancel_left_eq, append_cancel_left_eq] at heq
  have hzero : unle (le 8 (8 + 8 + m'.data.length)) = 0 := by
    refine unle_zero fun b hb => htail b ?_
    rw [heq, header]
    simp [hb]
  rw [unle_le_of_lt (by omega)] at hzero
  omega

/-- There and back: the Linux buffer holds the messages, and receiving it gives back the buffer that
was sent, up to padding, and its length. -/
def RoundTrip (ms : List Message) (control : Bytes) : Prop :=
  ∀ (junk : ℕ → Byte) (room : Bytes), control.length ≤ room.length →
    ∃ lbuf, sendmsgControl junk control = some lbuf ∧ Laid 8 (ms.map Message.toLinux) lbuf ∧
      ∃ fuel room', recvmsgControl fuel lbuf room = some (room', control.length) ∧
        Laid 4 ms (room'.take control.length)

theorem roundTrip_single {m : Message} (h : Laid 4 [m] control) (hlen : control.length < 2 ^ 32) :
    RoundTrip [m] control ↔ m.level ≠ 1 ∧ 16 + align m.data.length 8 < 2 ^ 32 := by
  have hcontrol : control.length = 12 + align m.data.length 4 :=
    laid_length (by decide) (by decide) h
  have hle := le_align 4 (n := m.data.length) (by decide)
  constructor
  · intro hrt
    obtain ⟨lbuf, hsend, -, fuel, room, hrecv, hback⟩ := hrt (fun _ => 0) control le_rfl
    obtain ⟨lbuf', hsend', hlaid, hlbuf⟩ := sendmsgControl_single h hlen fun _ => 0
    rw [hsend] at hsend'
    obtain rfl := some.inj hsend'
    have hfit : 16 + align m.data.length 8 < 2 ^ 32 := by
      by_contra hbig
      have hwrap : 16 + align m.toLinux.data.length 8 = 2 ^ 32 := by
        simp only [Message.toLinux, align] at hbig hcontrol ⊢
        omega
      rw [recvmsgControl_wrapped hlaid (show 12 + m.data.length < 2 ^ 32 by omega) hwrap
        (show 12 + m.data.length ≤ control.length by omega)] at hrecv
      cases hrecv
    obtain ⟨room', hrecv', hback'⟩ := recvmsgControl_laid hlaid ⟨by decide, trivial⟩
      (by rwa [hlbuf]) (show total 4 [m] ≤ control.length from hcontrol.ge)
    obtain ⟨rfl, -⟩ := Prod.mk.inj (recvmsgControl_unique hrecv hrecv')
    rw [hcontrol] at hback
    exact ⟨(level_roundtrip m.level).1 (laid_level hback' hback), hfit⟩
  · rintro ⟨hlevel, hfit⟩ junk room hroom
    obtain ⟨lbuf, hsend, hlaid, hlbuf⟩ := sendmsgControl_single h hlen junk
    obtain ⟨room', hrecv, hback⟩ := recvmsgControl_laid hlaid ⟨by decide, trivial⟩
      (by rwa [hlbuf]) (show total 4 [m] ≤ room.length from hcontrol.ge.trans hroom)
    have hm : m.toLinux.toBsd = m := by
      rw [Message.toBsd, Message.toLinux, (level_roundtrip m.level).2 hlevel]
    rw [map_singleton, hm] at hback
    rw [hcontrol] at *
    exact ⟨lbuf, hsend, hlaid, 2, room', hrecv, hback⟩

theorem not_roundTrip_two {m m' : Message}
    (h : Laid 4 (m :: m' :: ms) control) (hlen : control.length < 2 ^ 32) :
    ¬ RoundTrip (m :: m' :: ms) control := by
  intro hrt
  obtain ⟨lbuf, hsend, hlaid, -⟩ := hrt (fun _ => 0) control le_rfl
  rw [sendmsgControl_cons h hlen] at hsend
  obtain rfl := some.inj hsend
  have hshort : m'.data.length < 2 ^ 32 := by
    obtain ⟨pad, rest, rfl, -, pad', rest', rfl, -, -⟩ := h
    simp only [length_append, header_length] at hlen
    omega
  have hbound : 16 + m'.toLinux.data.length < 2 ^ 64 := by
    show 16 + m'.data.length < 2 ^ 64
    omega
  refine not_laid_second hbound (fun b hb => ?_) hlaid
  obtain ⟨i, -, rfl⟩ := mem_map.1 (mem_of_mem_drop hb)
  rfl

/-- The way there and back is the identity exactly for no message, and for one whose level is not 1
and that is not so long that `lpos` wraps. -/
theorem control_roundtrip_iff {ms : List Message} {control : Bytes} (h : Laid 4 ms control)
    (hlen : control.length < 2 ^ 32) :
    RoundTrip ms control ↔ ms = [] ∨
      ∃ m, ms = [m] ∧ m.level ≠ 1 ∧ 16 + align m.data.length 8 < 2 ^ 32 := by
  match ms, h with
  | [], h =>
    obtain rfl : control = [] := h
    exact ⟨fun _ => .inl rfl, fun _ _ room _ => ⟨[], rfl, rfl, 1, room, rfl, rfl⟩⟩
  | [m], h => simp [roundTrip_single h hlen]
  | m :: m' :: ms, h => simp [not_roundTrip_two h hlen]

def rights : Message := ⟨0xffff, 1, [5, 0, 0, 0]⟩

theorem control_roundtrip_rights : Laid 4 [rights] (header 4 rights ++ rights.data) ∧
      RoundTrip [rights] (header 4 rights ++ rights.data) :=
  have h : Laid 4 [rights] (header 4 rights ++ rights.data) := ⟨[], [], rfl, rfl, rfl⟩
  ⟨h, (control_roundtrip_iff h (by decide)).2 (.inr ⟨rights, rfl, by decide, by decide⟩)⟩

/-- Of two descriptors passed the second is lost: the length of its message is whatever `malloc` has
left there. -/
theorem control_roundtrip_two_rights :
    Laid 4 [rights, rights] ((header 4 rights ++ rights.data) ++ (header 4 rights ++ rights.data)) ∧
      (sendmsgControl (fun _ => 0) ((header 4 rights ++ rights.data) ++
        (header 4 rights ++ rights.data))).bind (load 8 · 24) = some 0 ∧
      ¬ RoundTrip [rights, rights]
        ((header 4 rights ++ rights.data) ++ (header 4 rights ++ rights.data)) :=
  have h : Laid 4 [rights, rights]
      ((header 4 rights ++ rights.data) ++ (header 4 rights ++ rights.data)) :=
    ⟨[], _, rfl, rfl, [], [], rfl, rfl, rfl⟩
  ⟨h, by decide, not_roundTrip_two h (by decide)⟩

end Darling.Cmsg
