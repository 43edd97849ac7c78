import Darling.Getdirentries
import Darling.Proofs.CArray
import Darling.Proofs.Kernel

/-!
# Which directory entries a caller gets to see

The loop writes the longest run of records that fits the caller's buffer (`emit_spec`).  The
position of the directory has moved past the whole batch by then, so the names read up to a call
that returns 0 are the directory's exactly if every batch fits the buffer it is written to, and none
comes back empty before the end (`listing_iff`).
-/

namespace Darling.Getdirentries

open CArray List

variable {len : ℕ}

section Loop

variable {L : Layout}

theorem roundTo4_spec {r : ℕ} (h : r + 3 < 2 ^ 16) : r ≤ roundTo4 r ∧ roundTo4 r < 2 ^ 16 := by
  unfold roundTo4
  split_ifs
  · rw [Nat.mod_eq_of_lt h]
    omega
  · omega

theorem reclen_spec (e : Entry) : L.sizeof + e.name.length + 1 ≤ L.reclen e ∧ L.reclen e < 2 ^ 16 :=
  roundTo4_spec (by have := L.sizeof_le; have := e.name_le; omega)

theorem record_length (e : Entry) : (L.record e).length = L.nameOff + (e.name.length + 1) := by
  simp [Layout.record, L.header_length]

/-- The entries that the loop writes, from a position on. -/
def emitted (L : Layout) (len : ℕ) : List Entry → ℕ → List Entry
  | [], _ => []
  | e :: es, opos =>
    if opos + (L.sizeof + e.name.length + 1) ≤ len then e :: emitted L len es (opos + L.reclen e)
    else []

/-- The loop writes them all. -/
def Fits (L : Layout) (len : ℕ) : List Entry → ℕ → Prop
  | [], _ => True
  | e :: es, opos => opos + (L.sizeof + e.name.length + 1) ≤ len ∧ Fits L len es (opos + L.reclen e)

theorem emitted_front : ∀ (es : List Entry) (opos : ℕ), emitted L len es opos <+: es
  | [], _ => prefix_refl _
  | e :: es, opos => by
    rw [emitted]
    split_ifs
    · exact (prefix_cons_inj e).2 (emitted_front es _)
    · exact nil_prefix

theorem emitted_eq_iff : ∀ (es : List Entry) (opos : ℕ),
    emitted L len es opos = es ↔ Fits L len es opos
  | [], _ => by simp [emitted, Fits]
  | e :: es, opos => by
    rw [emitted, Fits]
    split_ifs with h
    · simp [h, emitted_eq_iff es]
    · simp [h]

theorem str_record (e : Entry) (u w : Bytes) :
    str 0 (u ++ (L.record e ++ w)) (u.length + L.nameOff) = some e.name := by
  have := str_split e.name_nul (u ++ L.header e (L.reclen e)) w
  simpa [Layout.record, L.header_length] using this

theorem load_record {e : Entry} {n i x : ℕ} (u w : Bytes)
    (h : load n (L.header e (L.reclen e)) i = some x) :
    load n (u ++ (L.record e ++ w)) (u.length + i) = some x := by
  have hrec := load_append [] (e.name ++ [0]) h
  rw [nil_append, length_nil, Nat.zero_add] at hrec
  exact load_append u w hrec

theorem load_reclen_record (e : Entry) (u w : Bytes) :
    load 2 (u ++ (L.record e ++ w)) (u.length + L.reclenOff) = some (L.reclen e) :=
  load_record u w (L.load_reclen e (L.reclen e) (reclen_spec e).2)

theorem decode_record {e : Entry} {u w : Bytes} {ret fuel : ℕ} (hret : u.length < ret) :
    decode L (u ++ (L.record e ++ w)) ret (fuel + 1) u.length =
      (decode L (u ++ (L.record e ++ w)) ret fuel (u.length + L.reclen e)).map (e.name :: ·) := by
  rw [decode, if_pos hret]
  simp only [str_record, load_reclen_record, some_bind, Option.pure_def, Option.map_eq_bind]
  rfl

theorem decode_end {ibuf : Bytes} {ret fuel : ℕ} : decode L ibuf ret fuel ret = some [] := by
  cases fuel <;> simp [decode]

theorem length_emitted_le (len : ℕ) (es : List Entry) (opos : ℕ) :
    (emitted L len es opos).length ≤ ((emitted L len es opos).map L.reclen).sum := by
  have h := length_le_sum_of_one_le ((emitted L len es opos).map L.reclen) (by
    intro r hr
    obtain ⟨e, -, rfl⟩ := mem_map.1 hr
    have := (reclen_spec (L := L) e).1
    omega)
  rwa [length_map] at h

/-- The records of the entries stand in the buffer from `pos` on, each `d_reclen` behind the one
before it. -/
def Chain (L : Layout) (ibuf : Bytes) : List Entry → ℕ → Prop
  | [], _ => True
  | e :: es, pos =>
    (∃ u w, ibuf = u ++ (L.record e ++ w) ∧ u.length = pos) ∧ Chain L ibuf es (pos + L.reclen e)

theorem emit_spec : ∀ (es : List Entry) (opos : ℕ) (ibuf : Bytes), ∃ ibuf',
    emit L es opos ibuf
        = some (opos + ((emitted L ibuf.length es opos).map L.reclen).sum, ibuf') ∧
      ibuf'.length = ibuf.length ∧ ibuf'.take opos = ibuf.take opos ∧
      Chain L ibuf' (emitted L ibuf.length es opos) opos
  | [], opos, ibuf => ⟨ibuf, rfl, rfl, rfl, trivial⟩
  | e :: es, opos, ibuf => by
    by_cases hfit : opos + (L.sizeof + e.name.length + 1) ≤ ibuf.length
    · -- The record replaces the bytes `v` behind the first `opos`.
      have hle : (L.record e).length ≤ L.sizeof + e.name.length + 1 := by
        have := L.nameOff_le
        rw [record_length]
        omega
      obtain ⟨u, v, w, rfl, rfl, hv⟩ :=
        exists_piece (show opos + (L.record e).length ≤ ibuf.length by omega)
      have hreclen := (reclen_spec (L := L) e).1
      have hstore := blit_split hv.symm u w
      obtain ⟨ibuf', hemit, hlen, htake, hchain⟩ :=
        emit_spec es (u.length + L.reclen e) (u ++ (L.record e ++ w))
      have hsame : (u ++ (L.record e ++ w)).length = (u ++ (v ++ w)).length := by
        simp [hv]
      rw [hsame] at hemit hlen hchain
      obtain ⟨w', rfl⟩ : ∃ w', ibuf' = u ++ (L.record e ++ w') := by
        have h : u ++ L.record e <+: ibuf' := by
          refine List.IsPrefix.trans ?_ (List.take_prefix (u.length + L.reclen e) ibuf')
          rw [htake, ← append_assoc, prefix_take_iff, length_append]
          exact ⟨prefix_append _ _, by omega⟩
        obtain ⟨w', hw'⟩ := h
        exact ⟨w', by rw [← hw', append_assoc]⟩
      refine ⟨_, ?_, hlen, by simp, ?_⟩
      · rw [emit, if_pos (by omega), if_neg (by omega), hstore, emitted, if_pos hfit, map_cons,
          sum_cons, ← Nat.add_assoc]
        exact hemit
      · rw [emitted, if_pos hfit]
        exact ⟨⟨u, w', rfl, rfl⟩, hchain⟩
    · refine ⟨ibuf, ?_, rfl, rfl, ?_⟩
      · rw [emit, emitted, if_neg hfit]
        split_ifs <;> first | rfl | omega
      · rw [emitted, if_neg hfit]
        trivial

theorem decode_chain {ibuf : Bytes} : ∀ {es : List Entry} {pos fuel : ℕ}, Chain L ibuf es pos →
    es.length ≤ fuel →
      decode L ibuf (pos + (es.map L.reclen).sum) fuel pos = some (es.map Entry.name)
  | [], _, _, _, _ => decode_end
  | e :: es, pos, fuel, ⟨⟨u, w, hbuf, hu⟩, hchain⟩, hfuel => by
    obtain ⟨fuel, rfl⟩ : ∃ k, fuel = k + 1 := ⟨fuel - 1, by simp at hfuel; omega⟩
    have ih := decode_chain hchain (Nat.le_of_succ_le_succ hfuel)
    have hreclen := (reclen_spec (L := L) e).1
    subst hbuf hu
    rw [map_cons, sum_cons, decode_record (by omega), ← Nat.add_assoc, ih]
    rfl

end Loop

section Calls

variable {L : Layout} {table : ℕ → ℕ} {stuck : ℤ}

theorem run_front : ∀ (size : ℕ) (dir : List Entry), run size dir <+: dir
  | _, [] => prefix_refl _
  | size, e :: es => by
    rw [run]
    split_ifs
    · exact (prefix_cons_inj e).2 (run_front _ es)
    · exact nil_prefix

/-- The entries that one call hands out. -/
def seen (L : Layout) (len : ℕ) (dir : List Entry) : List Entry :=
  emitted L len (run (L.bufSize len) dir) 0

theorem getdirentries_spec (ibuf : Bytes) (basep : Option ℤ) (dir : List Entry)
    (hstuck : stuck ≤ 0) : ∃ r, getdirentries L table stuck ibuf basep dir = some r ∧
      r.dir = dir.drop (run (L.bufSize ibuf.length) dir).length ∧
      r.ibuf.length = ibuf.length ∧ Chain L r.ibuf (seen L ibuf.length dir) 0 ∧
      r.ret.toNat = ((seen L ibuf.length dir).map L.reclen).sum ∧
      (r.ret = 0 ↔ seen L ibuf.length dir = [] ∧
        (run (L.bufSize ibuf.length) dir = [] → dir = [] ∨ stuck = 0)) := by
  set batch := run (L.bufSize ibuf.length) dir with hbatch
  by_cases hneg : (batch = [] ∧ dir ≠ []) ∧ stuck < 0
  · obtain ⟨⟨hnil, hdir⟩, hlt⟩ := hneg
    have hret : errnoLinuxToBsd table stuck < 0 := errnoLinuxToBsd_neg hlt
    have hseen : seen L ibuf.length dir = [] := by
      rw [seen, ← hbatch, hnil]
      rfl
    refine ⟨⟨errnoLinuxToBsd table stuck, ibuf, basep.map fun _ => 0, dir.drop batch.length⟩,
      ?_, rfl, rfl, ?_, ?_, ?_⟩
    · rw [getdirentries, getdents64, ← hbatch]
      simp [if_pos (And.intro hnil hdir), if_pos hlt]
    · rw [hseen]
      trivial
    · rw [hseen]
      exact Int.toNat_of_nonpos hret.le
    · simp only [hnil, hdir, false_or, true_imp_iff]
      constructor
      · exact fun h => absurd h hret.ne
      · exact fun h => absurd h.2 hlt.ne
  · obtain ⟨ibuf', hemit, hlen, -, hchain⟩ := emit_spec batch 0 ibuf
    rw [Nat.zero_add] at hemit
    refine ⟨⟨((emitted L ibuf.length batch 0).map L.reclen).sum, ibuf', basep.map fun _ => 0,
      dir.drop batch.length⟩, ?_, rfl, hlen, hchain, Int.toNat_natCast _, ?_⟩
    · rw [getdirentries, getdents64, ← hbatch]
      simp only
      rw [if_neg, hemit]
      · rfl
      · split_ifs with h
        · exact fun hlt => hneg ⟨h, hlt⟩
        · omega
    · rw [seen, ← hbatch, Int.natCast_eq_zero]
      have hsum := length_emitted_le (L := L) ibuf.length batch 0
      constructor
      · intro h
        refine ⟨length_eq_zero_iff.1 (by omega), fun hnil => ?_⟩
        by_contra hcon
        push Not at hcon
        exact hneg ⟨⟨hnil, hcon.1⟩, by omega⟩
      · rintro ⟨h, -⟩
        rw [h, map_nil, sum_nil]

/-- Every record of the batch that a call gets fits the caller's buffer, and a batch without records
is told apart from the end of the directory. -/
def Delivers (L : Layout) (stuck : ℤ) (len : ℕ) (dir : List Entry) : Prop :=
  Fits L len (run (L.bufSize len) dir) 0 ∧
    (run (L.bufSize len) dir = [] → dir = [] ∨ stuck ≠ 0)

/-- Every call up to the end of the directory delivers its batch. -/
def Complete (L : Layout) (stuck : ℤ) : List ℕ → List Entry → Prop
  | [], _ => True
  | len :: lens, dir => dir ≠ [] →
    Delivers L stuck len dir ∧ Complete L stuck lens (dir.drop (run (L.bufSize len) dir).length)

theorem seen_eq_iff {dir : List Entry} :
    seen L len dir = run (L.bufSize len) dir ↔ Fits L len (run (L.bufSize len) dir) 0 :=
  emitted_eq_iff _ _

theorem seen_length_le (len : ℕ) (dir : List Entry) :
    (seen L len dir).length ≤ (run (L.bufSize len) dir).length := (emitted_front _ _).length_le

/-- A caller never reads more names than there are, and reads all of them exactly if every call
delivers its batch. -/
theorem listing_iff (hstuck : stuck ≤ 0) : ∀ (ibufs : List Bytes) (dir : List Entry)
    (names : List Bytes), listing L (getdirentries L table stuck) ibufs dir = some names →
      names.length ≤ dir.length ∧
        (names = dir.map Entry.name ↔ Complete L stuck (ibufs.map length) dir)
  | [], _, _, h => by cases h
  | ibuf :: ibufs, dir, names, h => by
    obtain ⟨r, hr, hdir, -, hchain, hsum, hret⟩ :=
      @getdirentries_spec L table stuck ibuf none dir hstuck
    have hdecode := decode_chain hchain (show _ ≤ r.ret.toNat by
      rw [hsum]
      exact length_emitted_le _ _ _)
    rw [Nat.zero_add, ← hsum] at hdecode
    rw [listing, hr] at h
    simp only [some_bind, hdecode] at h
    rw [map_cons, Complete]
    split_ifs at h with hzero
    · -- The call returns 0: the names are read off only if nothing is left.
      obtain ⟨hseen, hend⟩ := hret.1 hzero
      obtain rfl : [] = names := Option.some.inj h
      refine ⟨Nat.zero_le _, ?_⟩
      rw [eq_comm, map_eq_nil_iff]
      constructor
      · exact fun h hne => absurd h hne
      · intro hcomplete
        by_contra hne
        obtain ⟨⟨hfits, hstop⟩, -⟩ := hcomplete hne
        have hnil : run (L.bufSize ibuf.length) dir = [] := (seen_eq_iff.2 hfits).symm.trans hseen
        exact (hstop hnil).elim hne fun hs => (hend hnil).elim hne hs
    · obtain ⟨more, hmore, hnames⟩ := Option.bind_eq_some_iff.1 h
      obtain rfl := Option.some.inj hnames
      rw [hdir] at hmore
      obtain ⟨hle, hiff⟩ := listing_iff hstuck ibufs _ more hmore
      have hsplit := prefix_iff_eq_append.1 (run_front (L.bufSize ibuf.length) dir)
      have hcount := congrArg length hsplit
      rw [length_append] at hcount
      have hseen := seen_length_le (L := L) ibuf.length dir
      have hne : dir ≠ [] := by
        rintro rfl
        exact hzero (hret.2 ⟨rfl, fun _ => .inl rfl⟩)
      refine ⟨by rw [length_append, length_map]; omega, ?_⟩
      by_cases hfits : Fits L ibuf.length (run (L.bufSize ibuf.length) dir) 0
      · have hall := seen_eq_iff.2 hfits
        conv_lhs => rhs; rw [← hsplit, map_append]
        rw [hall, append_cancel_left_eq, hiff]
        refine ⟨fun hrest _ => ⟨⟨hfits, fun hnil => ?_⟩, hrest⟩, fun hcomplete => (hcomplete hne).2⟩
        by_contra hcon
        push Not at hcon
        exact hzero (hret.2 ⟨hall.trans hnil, fun _ => .inr hcon.2⟩)
      · -- A record is missing, and with it a name.
        have hshort : (seen L ibuf.length dir).length < (run (L.bufSize ibuf.length) dir).length :=
          lt_of_le_of_ne hseen fun h => hfits (seen_eq_iff.1 ((emitted_front _ _).eq_of_length h))
        constructor
        · intro heq
          have := congrArg length heq
          rw [length_append, length_map, length_map] at this
          omega
        · exact fun hcomplete => absurd (hcomplete hne).1.1 hfits

/-- The names that a caller reads with either call, up to the one that returns 0, are those of the
directory exactly if every batch fits the buffer it is written to. -/
theorem listing_complete_iff (hstuck : stuck ≤ 0) (ibufs : List Bytes) (dir : List Entry)
    (names : List Bytes) :
    (listing bsdDirent64 (sysGetdirentries64 table stuck) ibufs dir = some names →
      (names = dir.map Entry.name ↔ Complete bsdDirent64 stuck (ibufs.map length) dir)) ∧
    (listing bsdDirent (sysGetdirentries table stuck) ibufs dir = some names →
      (names = dir.map Entry.name ↔ Complete bsdDirent stuck (ibufs.map length) dir)) :=
  ⟨fun h => (listing_iff hstuck ibufs dir names h).2,
    fun h => (listing_iff hstuck ibufs dir names h).2⟩

end Calls

def letter (b : Byte) (h : b ≠ 0) : Entry :=
  ⟨b.toNat, 8, [b], by simpa using h.symm, by simp, by simp⟩

def letters : List Entry :=
  [letter 97 (by decide), letter 98 (by decide), letter 99 (by decide), letter 100 (by decide)]

def buffer (n : ℕ) : Bytes := replicate n 0

theorem listing_letters :
    listing bsdDirent64 (sysGetdirentries64 id (-22)) [buffer 84, buffer 84] (letters.take 3)
      = some [[97], [98], [99]] ∧
      Complete bsdDirent64 (-22) [84, 84] (letters.take 3) :=
  have h : listing bsdDirent64 (sysGetdirentries64 id (-22)) [buffer 84, buffer 84]
      (letters.take 3) = some [[97], [98], [99]] := by decide
  ⟨h, ((listing_complete_iff (by decide) [buffer 84, buffer 84] (letters.take 3) _).1 h).1
    (by decide)⟩

/-- With 84 bytes the batch has four records, of which three fit. -/
theorem listing_letters_lost :
    listing bsdDirent64 (sysGetdirentries64 id (-22)) [buffer 84, buffer 84] letters
      = some [[97], [98], [99]] ∧
    listing bsdDirent (sysGetdirentries id (-22)) [buffer 36, buffer 36] letters
      = some [[97], [98], [99]] ∧
    letters.map Entry.name = [[97], [98], [99], [100]] := by
  decide

end Darling.Getdirentries
