import Darling.Runs
import Darling.TextEncodingConverter

/-!
# When text conversion does not depend on chunking

Along the loop of `TECConvertText`, what was written and what is still to come stay the conversion
of the whole input, but for the units that a pass leaves in the buffer: it moves them to the front
by half their size.
-/

namespace Darling.Tec

open Transducer List

variable {σ₁ σ₂ : Type*} {T₁ : Transducer σ₁ Byte UChar} {T₂ : Transducer σ₂ UChar Byte}
  {t : Object σ₁ σ₂} {input more : Bytes} {room : ℕ}

structure Object.Valid (t : Object σ₁ σ₂) : Prop where
  length : t.buffer.length = bufferSize
  used_le : t.bufferUsed ≤ bufferSize

theorem Object.Valid.length_carry (h : t.Valid) : t.carry.length = t.bufferUsed := by
  rw [carry, length_take, h.length]
  exact Nat.min_eq_left h.used_le

theorem Object.Valid.carry_ne_nil (h : t.Valid) (hused : 0 < t.bufferUsed) : t.carry ≠ [] :=
  ne_nil_of_length_pos (h.length_carry ▸ hused)

theorem length_bytesOf : ∀ units : List UChar, (bytesOf units).length = 2 * units.length
  | [] => rfl
  | c :: units => by
    have := length_bytesOf units
    rw [bytesOf, flatMap_cons, length_append, ← bytesOf, this, length_cons]
    simp only [length_cons, length_nil]
    omega

theorem length_ofBytes : ∀ {n : ℕ} {bytes : Bytes}, bytes.length = 2 * n →
    (ofBytes bytes).length = n
  | 0, [], _ => rfl
  | n + 1, lo :: hi :: bytes, h => by
    rw [ofBytes, length_cons, length_ofBytes]
    simp only [length_cons] at h
    omega
  | n + 1, [], h => by simp at h
  | n + 1, [_], h => by
    simp only [length_cons, length_nil] at h
    omega

theorem length_memmove {buffer : List UChar} {inputUsed n : ℕ}
    (h : 2 * inputUsed + n ≤ 2 * buffer.length) :
    (memmove buffer inputUsed n).length = buffer.length := by
  refine length_ofBytes ?_
  rw [length_append, length_take, length_drop, length_drop, length_bytesOf]
  omega

theorem exists_toUnicode (T₁ : Transducer σ₁ Byte UChar) (t : Object σ₁ σ₂) (input : Bytes) :
    ∃ used, T₁.Pumps (bufferSize - t.bufferUsed) t.inputState t.inputHeld input used
      (t.toUnicode T₁ input) := exists_pumps _ _ _ _

theorem exists_fromUnicode (T₂ : Transducer σ₂ UChar Byte) (t : Object σ₁ σ₂) (room : ℕ) :
    ∃ used, T₂.Pumps room t.outputState t.outputHeld t.carry used (t.fromUnicode T₂ room) :=
  exists_pumps _ _ _ _

theorem Object.Valid.flush (h : t.Valid) (room : ℕ) : (t.flush T₂ room).Valid := by
  have hle := h.used_le
  refine ⟨?_, ?_⟩
  · simp only [Object.flush]
    split_ifs with hu
    · rw [length_memmove, h.length]
      rw [h.length]
      omega
    · exact h.length
  · simp only [Object.flush]
    omega

theorem bufferUsed_flush (hr : (t.fromUnicode T₂ room).rest = []) :
    (t.flush T₂ room).bufferUsed = 0 := by
  simp only [Object.flush, hr, length_nil]
  omega

theorem Object.Valid.toUnicode_le (h : t.Valid) (T₁ : Transducer σ₁ Byte UChar) (input : Bytes) :
    t.bufferUsed + (t.toUnicode T₁ input).written.length ≤ bufferSize := by
  obtain ⟨_, hp⟩ := exists_toUnicode T₁ t input
  have := h.used_le
  have := hp.le
  omega

theorem Object.Valid.consume (h : t.Valid) (input : Bytes) : (t.consume T₁ input).Valid := by
  have hle := h.toUnicode_le T₁ input
  refine ⟨?_, hle⟩
  simp only [Object.consume, length_append, length_drop, h.length_carry, h.length]
  omega

theorem carry_consume (h : t.Valid) (input : Bytes) :
    (t.consume T₁ input).carry = t.carry ++ (t.toUnicode T₁ input).written := by
  rw [Object.carry, Object.consume]
  refine take_left' ?_
  rw [length_append, h.length_carry]

theorem toCome_flush (room : ℕ) (rest : Bytes) :
    t.toCome T₁ T₂ t.carry rest = (t.fromUnicode T₂ room).written ++
      (t.flush T₂ room).toCome T₁ T₂ (t.fromUnicode T₂ room).rest rest :=
  pump_full room t.outputState t.outputHeld t.carry _

theorem toCome_consume (h : t.Valid) : (t.consume T₁ input).toCome T₁ T₂ (t.consume T₁ input).carry
      ((t.toUnicode T₁ input).rest ++ more) = t.toCome T₁ T₂ t.carry (input ++ more) := by
  have hp := pump_full (T := T₁) (bufferSize - t.bufferUsed) t.inputState t.inputHeld input more
  rw [carry_consume h, Object.toCome, Object.toCome, hp, append_assoc]
  rfl

/-- What a call does: it reads some of its input, and what it writes and what is then to come are
what was to come. -/
structure Keeps (T₁ : Transducer σ₁ Byte UChar) (T₂ : Transducer σ₂ UChar Byte)
    (t : Object σ₁ σ₂) (input more : Bytes) (r : Result σ₁ σ₂) : Prop where
  valid : r.object.Valid
  reads : ∃ used, input = used ++ r.input
  toCome : r.written ++ r.object.toCome T₁ T₂ r.units (r.input ++ more) =
    t.toCome T₁ T₂ t.carry (input ++ more)

theorem Keeps.stop (h : t.Valid) : Keeps T₁ T₂ t input more ⟨t, input, [], t.carry⟩ :=
  ⟨h, ⟨[], rfl⟩, rfl⟩

theorem Keeps.next (h : t.Valid) {room : ℕ}
    {loop : Object σ₁ σ₂ → Bytes → ℕ → Option (Result σ₁ σ₂)} {r : Result σ₁ σ₂}
    (hloop : ∀ t input room r, t.Valid → loop t input room = some r →
      Keeps T₁ T₂ t input more r) (hr : t.next T₁ input room loop = some r) :
    Keeps T₁ T₂ t input more r := by
  rw [Object.next] at hr
  split_ifs at hr with hi
  · exact Option.some.inj hr ▸ Keeps.stop h
  · obtain ⟨hv, ⟨used', hused'⟩, hc⟩ := hloop (t.consume T₁ input) (t.toUnicode T₁ input).rest room
      r (h.consume input) hr
    obtain ⟨used, hp⟩ := exists_toUnicode T₁ t input
    exact ⟨hv, ⟨used ++ used', by rw [append_assoc, ← hused', ← hp.src]⟩,
      hc.trans (toCome_consume h)⟩

theorem overflow_eq_false {r : Pumped σ₂ UChar Byte} (h : ¬ r.overflow = true) :
    r.rest = [] ∧ r.held = [] := by
  simpa [Pumped.overflow] using h

theorem Keeps.convertLoop : ∀ (fuel : ℕ) (t : Object σ₁ σ₂) (input : Bytes) (room : ℕ)
    (r : Result σ₁ σ₂), t.Valid → Tec.convertLoop T₁ T₂ fuel t input room = some r →
    Keeps T₁ T₂ t input more r
  | 0, _, _, _, _, _, hr => nomatch hr
  | fuel + 1, t, input, room, r, h, hr => by
    rw [Tec.convertLoop] at hr
    split_ifs at hr with hroom hused hov
    · exact Option.some.inj hr ▸ Keeps.stop h
    · rw [← Option.some.inj hr]
      refine ⟨h.flush room, ⟨[], rfl⟩, ?_⟩
      rw [toCome_flush room]
      simp [Result.written]
    · obtain ⟨hrest, -⟩ := overflow_eq_false hov
      obtain ⟨r', hr', rfl⟩ := Option.map_eq_some_iff.1 hr
      have hk : Keeps T₁ T₂ (t.flush T₂ room) input more r' :=
        Keeps.next (h.flush room) (Keeps.convertLoop fuel) hr'
      refine ⟨hk.valid, hk.reads, ?_⟩
      have hcarry : (t.flush T₂ room).carry = [] := by
        rw [Object.carry, bufferUsed_flush hrest, take_zero]
      rw [toCome_flush room, hrest, ← hcarry, ← hk.toCome, Result.written, Result.after,
        flatten_cons, append_assoc]
      rfl
    · exact Keeps.next h (Keeps.convertLoop fuel) hr

theorem enoughFuel_consume (T₁ : Transducer σ₁ Byte UChar) (hused : t.bufferUsed = 0)
    (hi : input ≠ []) :
    enoughFuel T₁ (t.consume T₁ input) (t.toUnicode T₁ input).rest < enoughFuel T₁ t input := by
  obtain ⟨used, hp⟩ := exists_toUnicode T₁ t input
  have hrun := run_append (T := T₁) t.inputState used (t.toUnicode T₁ input).rest
  rw [← hp.src, ← hp.state] at hrun
  have hlen := congrArg List.length hp.out
  have hlen' := congrArg List.length hp.src
  have hlen'' := congrArg (fun r => r.2.length) hrun
  simp only [length_append] at hlen hlen' hlen''
  have hpos : 0 < used.length + (t.toUnicode T₁ input).written.length := by
    rcases used with _ | ⟨a, used⟩
    · rw [hp.full (.inl fun hnil => hi (by rw [hp.src, hnil]; rfl)), hused]
      decide
    · rw [length_cons]
      omega
  change _ + (t.toUnicode T₁ input).held.length +
    (T₁.run (t.toUnicode T₁ input).state (t.toUnicode T₁ input).rest).2.length + 1 < _
  rw [enoughFuel]
  omega

theorem convertLoop_enough (T₁ : Transducer σ₁ Byte UChar) (T₂ : Transducer σ₂ UChar Byte)
    (more : ℕ) : ∀ (fuel : ℕ) (t : Object σ₁ σ₂) (input : Bytes) (room : ℕ), t.Valid →
    enoughFuel T₁ t input ≤ fuel → ∃ r, convertLoop T₁ T₂ fuel t input room = some r ∧
      convertLoop T₁ T₂ (fuel + more) t input room = some r
  | 0, _, _, _, _, hf => by
    rw [enoughFuel] at hf
    omega
  | fuel + 1, t, input, room, h, hf => by
    have hnext : ∀ (t' : Object σ₁ σ₂) (room' : ℕ), t'.Valid → t'.bufferUsed = 0 →
        enoughFuel T₁ t' input ≤ fuel + 1 →
        ∃ r, t'.next T₁ input room' (convertLoop T₁ T₂ fuel) = some r ∧
          t'.next T₁ input room' (convertLoop T₁ T₂ (fuel + more)) = some r := by
      intro t' room' hv hu hf'
      rw [Object.next, Object.next]
      split_ifs with hi
      · exact ⟨_, rfl, rfl⟩
      · have := enoughFuel_consume T₁ hu hi
        exact convertLoop_enough T₁ T₂ more fuel _ _ _ (hv.consume input) (by omega)
    rw [Nat.add_right_comm, convertLoop, convertLoop]
    split_ifs with hroom hused hov
    · exact ⟨_, rfl, rfl⟩
    · exact ⟨_, rfl, rfl⟩
    · obtain ⟨r, hr, hr'⟩ := hnext _ (room - (t.fromUnicode T₂ room).written.length) (h.flush room)
        (bufferUsed_flush (overflow_eq_false hov).1) hf
      rw [hr, hr']
      exact ⟨_, rfl, rfl⟩
    · exact hnext t room h (by omega) hf

/-- The loop of `TECConvertText` comes to its end in so many rounds, and a larger bound on them
changes nothing. -/
theorem convertLoop_stops (T₁ : Transducer σ₁ Byte UChar) (T₂ : Transducer σ₂ UChar Byte)
    (h : t.Valid) (input : Bytes) (room : ℕ) : ∃ r, ∀ fuel, enoughFuel T₁ t input ≤ fuel →
      convertLoop T₁ T₂ fuel t input room = some r := by
  obtain ⟨r, hr, -⟩ := convertLoop_enough T₁ T₂ 0 _ t input room h le_rfl
  refine ⟨r, fun fuel hle => ?_⟩
  obtain ⟨more, rfl⟩ := Nat.exists_eq_add_of_le hle
  obtain ⟨r', hr', hmore⟩ := convertLoop_enough T₁ T₂ more _ t input room h le_rfl
  rw [hmore, ← hr', hr]

variable (T₁ T₂)

theorem convertLoop_eq (h : t.Valid) (input : Bytes) (n : ℕ) :
    convertLoop T₁ T₂ (enoughFuel T₁ t input) t input n = some (convertText T₁ T₂ t input n) := by
  obtain ⟨r, hr, -⟩ := convertLoop_enough T₁ T₂ 0 _ t input n h le_rfl
  rw [convertText, hr, Option.getD_some]

theorem Keeps.convertText (h : t.Valid) (input more : Bytes) (n : ℕ) :
    Keeps T₁ T₂ t input more (Tec.convertText T₁ T₂ t input n) :=
  Keeps.convertLoop _ t input n _ h (convertLoop_eq T₁ T₂ h input n)

variable {s : Client σ₁ σ₂} {call : Call}

theorem rest_convert {length : ℕ} {n : ℕ+} (h : s.object.Valid) :
    s.rest.drop ((Call.convert length n).actualInputLength T₁ T₂ s) =
      ((Call.convert length n).result T₁ T₂ s).input ++ s.rest.drop length := by
  obtain ⟨used, hused⟩ :=
    (Keeps.convertText T₁ T₂ h (s.rest.take length) [] n).reads
  change s.rest.drop ((s.rest.take length).length -
    (Tec.convertText T₁ T₂ s.object (s.rest.take length) n).input.length) = _
  have hlen := congrArg List.length hused
  rw [length_append] at hlen
  rw [hlen, Nat.add_sub_cancel]
  nth_rewrite 1 [← take_append_drop length s.rest]
  rw [hused, append_assoc, drop_left]
  rfl

theorem call_toCome (call : Call) (h : s.object.Valid) : (call.result T₁ T₂ s).object.Valid ∧
      (call.result T₁ T₂ s).written ++ (call.result T₁ T₂ s).object.toCome T₁ T₂
        (call.result T₁ T₂ s).units (s.rest.drop (call.actualInputLength T₁ T₂ s)) =
        s.object.toCome T₁ T₂ s.object.carry s.rest := by
  rcases call with ⟨length, n⟩ | ⟨n⟩
  · have hk := Keeps.convertText T₁ T₂ h (s.rest.take length)
      (s.rest.drop length) n
    refine ⟨hk.valid, ?_⟩
    rw [rest_convert T₁ T₂ h]
    refine hk.toCome.trans ?_
    rw [take_append_drop]
  · have hk := Keeps.convertText T₁ T₂ h [] s.rest n
    refine ⟨hk.valid, ?_⟩
    obtain ⟨used, hused⟩ := hk.reads
    have hin : (Tec.convertText T₁ T₂ s.object [] n).input = [] :=
      (append_eq_nil_iff.1 hused.symm).2
    have := hk.toCome
    rw [hin] at this
    exact this

variable {T₁ T₂}

theorem actualOutputLength_eq {r : Result σ₁ σ₂} (h : r.passes.dropLast.flatten = []) :
    r.actualOutputLength = r.written.length := by
  rw [Result.actualOutputLength, Result.written]
  rcases eq_nil_or_concat r.passes with hp | ⟨l, p, hp⟩
  · simp [hp]
  · rw [hp, concat_eq_append, dropLast_concat] at h
    rw [hp, concat_eq_append, getLast?_concat, flatten_append, h]
    simp

theorem ofBytes_bytesOf : ∀ units : List UChar, ofBytes (bytesOf units) = units
  | [] => rfl
  | c :: units => congrArg (c :: ·) (ofBytes_bytesOf units)

theorem memmove_zero (buffer : List UChar) (n : ℕ) : memmove buffer 0 n = buffer := by
  rw [memmove, Nat.mul_zero, drop_zero, take_append_drop, ofBytes_bytesOf]

/-- Where the bytes of all units but the last leave room, the last is taken as well. -/
theorem pump_rest_eq_nil {room : ℕ} {state : σ₂} {held : Bytes} {units : List UChar}
    (h : (given T₂ state held units.dropLast).length < room) :
    (T₂.pump room state held units).rest = [] := by
  obtain ⟨used, hp⟩ := exists_pumps (T := T₂) room state held units
  by_contra hne
  have hlen := congrArg length hp.out
  have hfull := hp.full (.inl hne)
  obtain ⟨mid, hmid⟩ : ∃ mid, units.dropLast = used ++ mid :=
    ⟨_, by rw [hp.src, dropLast_append_of_ne_nil hne]⟩
  rw [given, hmid, run_append] at h
  simp only [length_append] at h hlen
  omega

theorem carry_flush (h : t.Valid) (hne : t.carry ≠ [])
    (hwhole : t.outputHeld.length < room →
      (given T₂ t.outputState t.outputHeld t.carry.dropLast).length < room) :
    (t.flush T₂ room).carry = (t.fromUnicode T₂ room).rest := by
  by_cases hheld : t.outputHeld.length < room
  · have hrest : (t.fromUnicode T₂ room).rest = [] := pump_rest_eq_nil (hwhole hheld)
    rw [hrest, Object.carry, bufferUsed_flush hrest, take_zero]
  · -- no unit is read, and the buffer is moved onto itself
    have hrest : (t.fromUnicode T₂ room).rest = t.carry := by
      obtain ⟨c, cs, hc⟩ := exists_cons_of_ne_nil hne
      rw [Object.fromUnicode, hc, pump, if_pos (by omega)]
    have hlen : (t.fromUnicode T₂ room).rest.length = t.bufferUsed := hrest ▸ h.length_carry
    rw [hrest]
    simp only [Object.carry, Object.flush, hlen, Nat.sub_self, memmove_zero, ite_self, Nat.sub_zero]

theorem clean_nil {room : ℕ} {state : σ₂} {held : Bytes} : Clean T₂ room state held [] where
  alone _ _ h hne := absurd (append_eq_nil_iff.1 h.symm).1 hne
  whole _ _ _ h := absurd h.symm (by simp)

theorem clean_singleton {room : ℕ} {state : σ₂} {held : Bytes} {block : List UChar}
    (h : (given T₂ state held block.dropLast).length < room) :
    Clean T₂ room state held [block] where
  alone pre post hb hne _ _ := by
    rcases pre with _ | ⟨b, pre⟩
    · exact absurd rfl hne
    · exact (append_eq_nil_iff.1 (cons.inj hb).2.symm).2
  whole pre b post hb _ := by
    rcases pre with _ | ⟨b', pre⟩
    · obtain ⟨rfl, -⟩ := cons.inj hb
      exact h
    · exact absurd (cons.inj hb).2.symm (by simp)

theorem given_append {state : σ₂} {held : Bytes} (us vs : List UChar) :
    given T₂ state held (us ++ vs) =
      given T₂ state held us ++ given T₂ (T₂.run state us).1 [] vs := by
  rw [given, given, given, run_append, nil_append, append_assoc]

/-- Behind the first block, in the room that its bytes leave. -/
theorem Clean.tail {room : ℕ} {state : σ₂} {held : Bytes} {block : List UChar}
    {blocks : List (List UChar)} (h : Clean T₂ room state held (block :: blocks)) :
    Clean T₂ (room - (given T₂ state held block).length) (T₂.run state block).1 [] blocks := by
  by_cases hnone : blocks = []
  · exact hnone ▸ clean_nil
  have hfull : given T₂ state held block = [] ∨ room ≤ (given T₂ state held block).length := by
    by_contra hnot
    rw [not_or, Nat.not_le] at hnot
    refine hnone (h.alone [block] blocks rfl (cons_ne_nil _ _) ?_ ?_)
    · rw [flatten_singleton]
      exact hnot.1
    · rw [flatten_singleton]
      exact hnot.2
  rcases hfull with hnil | hfull
  · have hgiven : ∀ us, given T₂ (T₂.run state block).1 [] us =
        given T₂ state held (block ++ us) := fun us => by rw [given_append, hnil, nil_append]
    rw [hnil, length_nil, Nat.sub_zero]
    refine ⟨fun pre post hb hne => ?_, fun pre b post hb => ?_⟩
    · rw [hgiven]
      exact h.alone (block :: pre) post (congrArg (block :: ·) hb) (cons_ne_nil _ _)
    · rw [hgiven, hgiven, ← append_assoc]
      exact h.whole (block :: pre) b post (congrArg (block :: ·) hb)
  · rw [Nat.sub_eq_zero_of_le hfull]
    exact ⟨fun _ _ _ _ _ hlt => absurd hlt (Nat.not_lt_zero _),
      fun _ _ _ _ hlt => absurd hlt (Nat.not_lt_zero _)⟩

/-- A pass that goes through all units. -/
theorem fromUnicode_eq (hrest : (t.fromUnicode T₂ room).rest = [])
    (hheld : (t.fromUnicode T₂ room).held = []) :
    (t.fromUnicode T₂ room).state = (T₂.run t.outputState t.carry).1 ∧
      (t.fromUnicode T₂ room).written = given T₂ t.outputState t.outputHeld t.carry := by
  obtain ⟨used, hp⟩ := exists_fromUnicode T₂ t room
  obtain rfl : t.carry = used := by rw [hp.src, hrest, append_nil]
  exact ⟨hp.state, by rw [given, hp.out, hheld, append_nil]⟩

theorem carry_eq_nil (h : t.bufferUsed = 0) : t.carry = [] := by
  rw [Object.carry, h, take_zero]

theorem blocks_consume (h : t.Valid) (hused : t.bufferUsed = 0) (hi : input ≠ []) (fuel : ℕ) :
    t.blocks T₁ (fuel + 1) input =
      (t.consume T₁ input).blocks T₁ fuel (t.toUnicode T₁ input).rest := by
  have hwritten : (t.consume T₁ input).carry = (t.toUnicode T₁ input).written := by
    rw [carry_consume h, carry_eq_nil hused, nil_append]
  have hpump : T₁.pump bufferSize t.inputState t.inputHeld input = t.toUnicode T₁ input := by
    rw [Object.toUnicode, hused, Nat.sub_zero]
  rw [Object.blocks, Object.blocks, carry_eq_nil hused, filter_cons_of_neg (by simp), hwritten]
  simp only [inputBlocks, if_neg hi, hpump]
  rfl

/-- Only the last pass of the loop writes, the units that it leaves are in the buffer, and without a
block or without room it makes no pass. -/
structure Tidy (blocks : List (List UChar)) (room : ℕ) (r : Result σ₁ σ₂) : Prop where
  passes : r.passes.dropLast.flatten = []
  carry : r.object.carry = r.units
  idle : blocks = [] ∨ room = 0 → r.passes = []

theorem Tidy.next {fuel : ℕ} {r : Result σ₁ σ₂} (h : t.Valid) (hused : t.bufferUsed = 0)
    (hloop : ∀ t input r, t.Valid →
      Clean T₂ room t.outputState t.outputHeld (t.blocks T₁ fuel input) →
      convertLoop T₁ T₂ fuel t input room = some r → Tidy (t.blocks T₁ fuel input) room r)
    (hc : Clean T₂ room t.outputState t.outputHeld (t.blocks T₁ (fuel + 1) input))
    (hr : t.next T₁ input room (convertLoop T₁ T₂ fuel) = some r) :
    Tidy (t.blocks T₁ (fuel + 1) input) room r := by
  rw [Object.next] at hr
  split_ifs at hr with hi
  · rw [← Option.some.inj hr]
    exact ⟨rfl, rfl, fun _ => rfl⟩
  · rw [blocks_consume h hused hi] at hc ⊢
    exact hloop _ _ r (h.consume input) hc hr

theorem Tidy.after {block : List UChar} {blocks : List (List UChar)} {state : σ₂} {held : Bytes}
    {r : Result σ₁ σ₂} (hc : Clean T₂ room state held (block :: blocks)) (hroom : room ≠ 0)
    (h : Tidy blocks (room - (given T₂ state held block).length) r) :
    Tidy (block :: blocks) room (r.after (given T₂ state held block)) := by
  refine ⟨?_, h.carry, fun hnone => absurd hnone (by simp [hroom])⟩
  rw [Result.after]
  by_cases hp : r.passes = []
  · rw [hp]
    rfl
  · rw [dropLast_cons_of_ne_nil hp, flatten_cons, h.passes, append_nil]
    by_contra hne
    refine hp (h.idle ?_)
    by_cases hlt : (given T₂ state held block).length < room
    · refine .inl (hc.alone [block] blocks rfl (cons_ne_nil _ _) ?_ ?_)
      · rwa [flatten_singleton]
      · rwa [flatten_singleton]
    · exact .inr (by omega)

theorem convertLoop_tidy : ∀ {fuel : ℕ} {t : Object σ₁ σ₂} {input : Bytes} {room : ℕ}
    {r : Result σ₁ σ₂}, t.Valid →
    Clean T₂ room t.outputState t.outputHeld (t.blocks T₁ fuel input) →
    convertLoop T₁ T₂ fuel t input room = some r → Tidy (t.blocks T₁ fuel input) room r
  | 0, _, _, _, _, _, _, hr => nomatch hr
  | fuel + 1, t, input, room, r, h, hc, hr => by
    rw [convertLoop] at hr
    split_ifs at hr with hroom hused hov
    · rw [← Option.some.inj hr]
      exact ⟨rfl, rfl, fun _ => rfl⟩
    · have hne := h.carry_ne_nil hused
      have hblocks : t.blocks T₁ (fuel + 1) input = t.carry :: _ := filter_cons_of_pos (by simpa)
      rw [← Option.some.inj hr]
      refine ⟨rfl, carry_flush h hne fun hlt => ?_, ?_⟩
      · have := hc.whole [] t.carry _ hblocks
        rw [flatten_nil, nil_append] at this
        exact this (by simpa [given, run] using hlt)
      · rw [hblocks]
        exact fun hnone => absurd hnone (by simp [hroom])
    · have hne := h.carry_ne_nil hused
      obtain ⟨r', hr', rfl⟩ := Option.map_eq_some_iff.1 hr
      obtain ⟨hrest, hheld⟩ := overflow_eq_false hov
      have hflush := bufferUsed_flush hrest
      have hblocks : t.blocks T₁ (fuel + 1) input =
          t.carry :: (t.flush T₂ room).blocks T₁ (fuel + 1) input := by
        rw [Object.blocks, Object.blocks, filter_cons_of_pos (by simpa), carry_eq_nil hflush,
          filter_cons_of_neg (by simp)]
        rfl
      obtain ⟨hstate, hout⟩ := fromUnicode_eq hrest hheld
      rw [hout] at hr' ⊢
      rw [hblocks] at hc ⊢
      refine Tidy.after hc hroom (Tidy.next (h.flush room) hflush (fun _ _ _ => convertLoop_tidy)
        ?_ hr')
      have hheld' : (t.flush T₂ room).outputHeld = [] := hheld
      have hstate' : (t.flush T₂ room).outputState = _ := hstate
      rw [hstate', hheld']
      exact hc.tail
    · have hused : t.bufferUsed = 0 := by omega
      exact Tidy.next h hused (fun _ _ _ => convertLoop_tidy) hc hr

theorem written_flushText (T₁ : Transducer σ₁ Byte UChar) (T₂ : Transducer σ₂ UChar Byte)
    (h : t.Valid) (n : ℕ+) : (flushText T₁ T₂ t n).written = [] ↔
    t.carry = [] ∨ t.outputHeld = [] ∧ (T₂.run t.outputState t.carry).2 = [] := by
  have hn : (n : ℕ) ≠ 0 := n.ne_zero
  rw [flushText, convertText, enoughFuel, convertLoop, if_neg hn]
  by_cases hused : 0 < t.bufferUsed
  · have hcarry := h.carry_ne_nil hused
    rw [if_pos hused]
    by_cases hov : (t.fromUnicode T₂ n).overflow = true
    · rw [if_pos hov, Option.getD_some]
      obtain ⟨used, hp⟩ := exists_fromUnicode T₂ t n
      have hne : (t.fromUnicode T₂ n).written ≠ [] := ne_nil_of_length_pos (by
        rw [hp.full (by simpa [Pumped.overflow] using hov)]
        exact n.pos)
      refine iff_of_false ?_ ?_
      · rw [Result.written, flatten_singleton]
        exact hne
      · rintro (hc | ⟨hheld, hrun⟩)
        · exact hcarry hc
        · rw [hp.src, run_append] at hrun
          have hout := hp.out
          rw [hheld, (append_eq_nil_iff.1 hrun).1] at hout
          exact hne (append_eq_nil_iff.1 hout.symm).1
    · rw [if_neg hov, Object.next, if_pos rfl, Option.map_some, Option.getD_some]
      obtain ⟨hrest, hheld⟩ := overflow_eq_false hov
      rw [Result.after, Result.written, flatten_singleton, (fromUnicode_eq hrest hheld).2, given,
        append_eq_nil_iff]
      exact (or_iff_right hcarry).symm
  · rw [if_neg hused, Object.next, if_pos rfl, Option.getD_some]
    have hcarry : t.carry = [] := eq_nil_of_length_eq_zero (by rw [h.length_carry]; omega)
    exact iff_of_true rfl (Or.inl hcarry)

theorem Client.written_flush {n : ℕ+} (h : ((Call.flush n).result T₁ T₂ s).written = []) :
    (s.step T₁ T₂ (.flush n)).written = s.written := by
  rw [Client.step, h, append_nil]

theorem Call.clean_result (hv : s.object.Valid) {call : Call} (hc : s.Condition T₁ T₂ call) :
    (call.result T₁ T₂ s).passes.dropLast.flatten = [] ∧
      (call.result T₁ T₂ s).object.carry = (call.result T₁ T₂ s).units := by
  rcases call with ⟨length, n⟩ | ⟨n⟩
  · have := convertLoop_tidy hv hc.clean (convertLoop_eq T₁ T₂ hv _ n)
    exact ⟨this.passes, this.carry⟩
  · have := convertLoop_tidy hv hc.clean (convertLoop_eq T₁ T₂ hv [] n)
    exact ⟨this.passes, this.carry⟩

theorem Client.faithful_step (hv : s.object.Valid) (hs : s.Faithful T₁ T₂ input)
    (hc : s.Condition T₁ T₂ call) : (s.step T₁ T₂ call).Faithful T₁ T₂ input := by
  obtain ⟨hpasses, hcarry⟩ := call.clean_result hv hc
  refine ⟨actualOutputLength_eq hpasses, ?_, fun hrest hquiet => ?_⟩
  · rw [← hs.toCome, ← (call_toCome T₁ T₂ call hv).2, ← hcarry, ← append_assoc]
    rfl
  · rcases call with ⟨length, n⟩ | ⟨n⟩
    · cases hquiet
    · have hrest : s.rest = [] := hrest
      have hnothing := of_decide_eq_true hquiet
      have htoCome := hc.drained n rfl hrest ((written_flushText T₁ T₂ hv n).1 hnothing)
      rw [written_flush hnothing, ← hs.toCome, hrest, htoCome, append_nil]

/-- In every state of a run the calls have reported what they wrote and the account is right, and it
is complete after a flush that wrote nothing, if every call meets the condition. -/
theorem run_faithful (T₁ : Transducer σ₁ Byte UChar) (T₂ : Transducer σ₂ UChar Byte)
    (garbage : {b : List UChar // b.length = bufferSize}) (input : Bytes) (calls : List Call)
    (h : EachStep (Client.step T₁ T₂) (Client.Condition T₁ T₂)
      (Client.init T₁ T₂ garbage.1 input) calls) :
    EachState (Client.step T₁ T₂) (Client.Faithful T₁ T₂ input)
      (Client.init T₁ T₂ garbage.1 input) calls :=
  h.eachState (I := fun s : Client σ₁ σ₂ => s.object.Valid ∧ s.Faithful T₁ T₂ input)
    (fun _ call hs hc => ⟨(call_toCome T₁ T₂ call hs.1).1, Client.faithful_step hs.1 hs.2 hc⟩)
    (fun _ hs => hs.2) ⟨⟨garbage.2, Nat.zero_le _⟩, rfl, rfl, nofun⟩

def utf16leIn : Transducer (Option Byte) Byte UChar where
  init := none
  step
    | none, b => (some b, [])
    | some lo, hi => (none, [(lo, hi)])
  finish
    | none => []
    | some _ => [(0xFD, 0xFF)]

def utf16leOut : Transducer Unit UChar Byte where
  init := ()
  step _ c := ((), [c.1, c.2])
  finish _ := []

theorem convertLoop_stops_letter : ∃ r, ∀ fuel, 4 ≤ fuel →
    convertLoop utf16leIn utf16leOut fuel ⟨none, [], (), [], replicate bufferSize (0, 0), 0⟩
      [65, 0] 2 = some r :=
  let t : Object (Option Byte) Unit := ⟨none, [], (), [], replicate bufferSize (0, 0), 0⟩
  have hvalid : t.Valid := ⟨length_replicate, Nat.zero_le _⟩
  convertLoop_stops utf16leIn utf16leOut hvalid [65, 0] 2

/-- The letter A, into an output buffer of two bytes. -/
theorem run_faithful_letter :
    EachState (Client.step utf16leIn utf16leOut) (Client.Faithful utf16leIn utf16leOut [65, 0])
      (Client.init utf16leIn utf16leOut (List.replicate bufferSize (0, 0)) [65, 0])
      [.convert 2 2, .flush 1] := by
  refine run_faithful utf16leIn utf16leOut ⟨List.replicate bufferSize (0, 0), List.length_replicate⟩
    [65, 0] _ ⟨⟨?_, nofun⟩, ⟨?_, fun _ _ _ _ => by decide⟩, trivial⟩
  · have : Clean utf16leOut 2 () [] [[(65, 0)]] := clean_singleton (by decide)
    exact this
  · exact clean_nil

/-- The letter A, into output buffers of one byte: its second byte stays in the converter. -/
theorem run_half_lost :
    ¬ EachState (Client.step utf16leIn utf16leOut) (Client.Faithful utf16leIn utf16leOut [65, 0])
      (Client.init utf16leIn utf16leOut (List.replicate bufferSize (0, 0)) [65, 0])
      [.convert 2 1, .flush 1] := by
  rw [eachState_iff_foldl]
  intro h
  have hc := (h _ List.prefix_rfl).complete rfl (by decide)
  exact absurd hc (by decide)

end Darling.Tec
