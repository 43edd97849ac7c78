import Darling.Proofs.Getdirentries

/-!
# The caller's buffer of `getdirentries`

A record is tested for room before its size is rounded up to 4, so the position can end up to three
bytes behind the buffer.  It does for some directory exactly if the length is not a multiple of 4
and the batch that the intermediate buffer holds can fill the caller's buffer (`contained_iff`).
-/

namespace Darling.Getdirentries

open CArray List

/-- Stepping by `d_reclen` from a position comes to `ret`, past records that end behind the
terminator of their name. -/
inductive Walks (L : Layout) (ibuf : Bytes) (ret : ℕ) : ℕ → Prop
  | done : Walks L ibuf ret ret
  | step {pos reclen : ℕ} {name : Bytes} : pos < ret →
      str 0 ibuf (pos + L.nameOff) = some name → load 2 ibuf (pos + L.reclenOff) = some reclen →
      L.nameOff + name.length + 1 ≤ reclen → Walks L ibuf ret (pos + reclen) → Walks L ibuf ret pos

/-- For every directory a call stays inside its buffer, returns no more than its length, and leaves
records that can be walked up to the value returned. -/
def Contained (L : Layout) (len : ℕ) (call : Bytes → Option ℤ → List Entry → Option Result) :
    Prop :=
  ∀ ibuf basep dir, ibuf.length = len → ∃ r, call ibuf basep dir = some r ∧
    r.ibuf.length = len ∧ r.ret ≤ len ∧ (0 ≤ r.ret → Walks L r.ibuf r.ret.toNat 0)

variable {len : ℕ}

section Walk

variable {L : Layout}

theorem Chain.walks {ibuf : Bytes} : ∀ {es : List Entry} {pos : ℕ}, Chain L ibuf es pos →
    Walks L ibuf (pos + (es.map L.reclen).sum) pos
  | [], pos, _ => .done
  | e :: es, pos, ⟨⟨u, w, hbuf, hu⟩, hchain⟩ => by
    have ih := hchain.walks
    have hreclen := (reclen_spec (L := L) e).1
    have hoff := L.nameOff_le
    subst hbuf hu
    rw [map_cons, sum_cons, ← Nat.add_assoc]
    exact .step (by omega) (str_record e u w) (load_reclen_record e u w) (by omega) ih

theorem reclen_eq (e : Entry) : L.reclen e = (L.sizeof + e.name.length + 4) / 4 * 4 := by
  have := L.sizeof_le
  have := e.name_le
  rw [Layout.reclen, roundTo4]
  split_ifs
  · rw [Nat.mod_eq_of_lt (by omega)]
  · omega

theorem contained_iff_seen {table : ℕ → ℕ} {stuck : ℤ} (hstuck : stuck ≤ 0) :
    Contained L len (getdirentries L table stuck) ↔
      ∀ dir, ((seen L len dir).map L.reclen).sum ≤ len := by
  constructor
  · intro h dir
    obtain ⟨r, hr, -, hret, -⟩ := h (buffer len) none dir length_replicate
    obtain ⟨r', hr', -, -, -, hsum, -⟩ := @getdirentries_spec L table stuck (buffer len) none
      dir hstuck
    rw [hr, Option.some.injEq] at hr'
    subst hr'
    rw [buffer, length_replicate] at hsum
    omega
  · rintro h ibuf basep dir rfl
    obtain ⟨r, hr, -, hlen, hchain, hsum, -⟩ := @getdirentries_spec L table stuck ibuf basep dir
      hstuck
    refine ⟨r, hr, hlen, ?_, fun _ => ?_⟩
    · have := h dir
      omega
    · have := hchain.walks
      rwa [Nat.zero_add, ← hsum] at this

theorem emitted_sum_le (hlen : len % 4 = 0) : ∀ (es : List Entry) (opos : ℕ),
    opos % 4 = 0 → opos ≤ len → opos + ((emitted L len es opos).map L.reclen).sum ≤ len
  | [], opos, _, hle => by simpa [emitted] using hle
  | e :: es, opos, hopos, hle => by
    rw [emitted]
    split_ifs with hfit
    · have hrec := reclen_eq (L := L) e
      have ih := emitted_sum_le hlen es (opos + L.reclen e) (by omega) (by omega)
      rw [map_cons, sum_cons]
      omega
    · simpa using hle

theorem run_sum_le : ∀ (size : ℕ) (dir : List Entry),
    ((run size dir).map Entry.linuxReclen).sum ≤ size
  | _, [] => by simp [run]
  | size, e :: es => by
    rw [run]
    split_ifs with h
    · have := run_sum_le (size - e.linuxReclen) es
      rw [map_cons, sum_cons]
      omega
    · simp

theorem seen_linux_sum_le (len : ℕ) (dir : List Entry) :
    ((seen L len dir).map Entry.linuxReclen).sum ≤ L.bufSize len :=
  (((emitted_front _ _).map _).sublist.sum_le_sum (fun _ _ => Nat.zero_le _)).trans
    (run_sum_le _ dir)

end Walk

section Bounds

theorem sum_reclen_le : ∀ es : List Entry,
    (es.map bsdDirent.reclen).sum + 8 * es.length ≤ (es.map Entry.linuxReclen).sum ∧
      (es.map bsdDirent.reclen).sum ≤ 264 * es.length
  | [] => by simp
  | e :: es => by
    obtain ⟨ih, ih'⟩ := sum_reclen_le es
    have hrec : bsdDirent.reclen e = (8 + e.name.length + 4) / 4 * 4 := reclen_eq e
    have hlin : e.linuxReclen = (19 + e.name.length + 1 + 7) / 8 * 8 := rfl
    have hname := e.name_le
    simp only [map_cons, sum_cons, length_cons]
    constructor <;> omega

theorem sum_reclen64_le : ∀ es : List Entry,
    (es.map bsdDirent64.reclen).sum ≤ (es.map Entry.linuxReclen).sum + 8 * es.length ∧
      24 * es.length ≤ (es.map Entry.linuxReclen).sum
  | [] => by simp
  | e :: es => by
    obtain ⟨ih, ih'⟩ := sum_reclen64_le es
    have hrec : bsdDirent64.reclen e = (24 + e.name.length + 4) / 4 * 4 := reclen_eq e
    have hlin : e.linuxReclen = (19 + e.name.length + 1 + 7) / 8 * 8 := rfl
    simp only [map_cons, sum_cons, length_cons]
    constructor <;> omega

end Bounds

section Overrun

variable {L : Layout}

theorem run_eq : ∀ {size : ℕ} {es : List Entry}, (es.map Entry.linuxReclen).sum ≤ size →
    run size es = es
  | _, [], _ => rfl
  | size, e :: es, h => by
    rw [map_cons, sum_cons] at h
    rw [run, if_pos (by omega), run_eq (by omega)]

theorem fits_concat {e : Entry} : ∀ {es : List Entry} {opos : ℕ},
    opos + (es.map L.reclen).sum + (L.sizeof + e.name.length + 1) ≤ len →
      Fits L len (es ++ [e]) opos
  | [], opos, h => ⟨by simpa using h, trivial⟩
  | d :: es, opos, h => by
    have hrec := (reclen_spec (L := L) d).1
    rw [map_cons, sum_cons] at h
    exact ⟨by omega, fits_concat (by omega)⟩

def padded (n : ℕ) : Entry where
  ino := 1
  type := 8
  name := List.replicate (min n 254 + 1) 97
  name_nul h := absurd (eq_of_mem_replicate h) (by decide)
  name_ne := by simp
  name_le := by
    rw [length_replicate]
    omega

theorem padded_length (n : ℕ) : (padded n).name.length = min n 254 + 1 := length_replicate

theorem seen_padded {q a b : ℕ}
    (hlinux : q * (padded a).linuxReclen + (padded b).linuxReclen ≤ L.bufSize len)
    (hfit : q * L.reclen (padded a) + (L.sizeof + (padded b).name.length + 1) ≤ len) :
    ((seen L len (replicate q (padded a) ++ [padded b])).map L.reclen).sum =
      q * L.reclen (padded a) + L.reclen (padded b) := by
  have hrun : run (L.bufSize len) (replicate q (padded a) ++ [padded b]) =
      replicate q (padded a) ++ [padded b] := run_eq (by simpa using hlinux)
  rw [seen_eq_iff.2, hrun]
  · simp
  · rw [hrun]
    exact fits_concat (by simpa using hfit)

/-- `q` entries and one that ends at the next multiple of four behind the buffer. -/
theorem exists_overrun (len a q : ℕ) (hmod : len % 4 ≠ 0) (hs : L.sizeof % 4 = 0)
    (hlow : q * L.reclen (padded a) + L.sizeof + 4 ≤ len)
    (hhigh : len < q * L.reclen (padded a) + L.sizeof + 256) (hroom : q * (padded a).linuxReclen +
      (len / 4 * 4 + 4 - q * L.reclen (padded a) - L.sizeof + 23) / 8 * 8 ≤ L.bufSize len) :
    ∃ dir, len < ((seen L len dir).map L.reclen).sum := by
  set r := len / 4 * 4 + 4 - q * L.reclen (padded a) with hr
  have hq : 4 ∣ q * L.reclen (padded a) := by
    rw [reclen_eq]
    exact (Dvd.intro_left _ rfl).mul_left q
  have hb : L.reclen (padded (r - L.sizeof - 5)) = r := by
    rw [reclen_eq, padded_length]
    omega
  have hlb : (padded (r - L.sizeof - 5)).linuxReclen = (r - L.sizeof + 23) / 8 * 8 := by
    rw [Entry.linuxReclen, padded_length]
    omega
  refine ⟨replicate q (padded a) ++ [padded (r - L.sizeof - 5)], ?_⟩
  rw [seen_padded, hb]
  · omega
  · rwa [hlb]
  · rw [padded_length]
    omega

end Overrun

theorem contained_iff (table : ℕ → ℕ) {stuck : ℤ} (hstuck : stuck ≤ 0) (len : ℕ) :
    (Contained bsdDirent len (sysGetdirentries table stuck) ↔
      len % 4 = 0 ∨ len < 12 ∨ 616 < len) ∧
    (Contained bsdDirent64 len (sysGetdirentries64 table stuck) ↔
      len % 4 = 0 ∨ len < 28 ∨ (40 < len ∧ len < 56) ∨ (80 < len ∧ len < 84) ∨ 848 < len) := by
  rw [sysGetdirentries, sysGetdirentries64, contained_iff_seen hstuck, contained_iff_seen hstuck]
  refine ⟨⟨fun h => ?_, fun h dir => ?_⟩, ⟨fun h => ?_, fun h dir => ?_⟩⟩
  · by_contra hcon
    have ha : bsdDirent.reclen (padded 235) = 248 := by rw [reclen_eq, padded_length]; rfl
    have hl : (padded 235).linuxReclen = 256 := by rw [Entry.linuxReclen, padded_length]; rfl
    have hs : bsdDirent.sizeof = 8 := rfl
    obtain ⟨dir, hdir⟩ := exists_overrun (L := bsdDirent) len 235 ((len / 4 * 4 - 12) / 248)
      (by omega) rfl (by rw [ha, hs]; omega) (by rw [ha, hs]; omega) (by
        rw [ha, hl, hs, Layout.bufSize, show bsdDirent.minSize = 12 from rfl,
          show linuxMinSize = 32 from rfl]
        omega)
    have := h dir
    omega
  · by_cases hmod : len % 4 = 0
    · have := emitted_sum_le (L := bsdDirent) hmod (run (bsdDirent.bufSize len) dir) 0 rfl
        (Nat.zero_le _)
      rwa [Nat.zero_add] at this
    · have hsize := seen_linux_sum_le (L := bsdDirent) len dir
      have hsum := sum_reclen_le (seen bsdDirent len dir)
      rw [Layout.bufSize, show bsdDirent.minSize = 12 from rfl, show linuxMinSize = 32 from rfl]
        at hsize
      omega
  · by_contra hcon
    have ha : bsdDirent64.reclen (padded 3) = 32 := by rw [reclen_eq, padded_length]; rfl
    have hl : (padded 3).linuxReclen = 24 := by rw [Entry.linuxReclen, padded_length]; rfl
    have hs : bsdDirent64.sizeof = 24 := rfl
    obtain ⟨dir, hdir⟩ := exists_overrun (L := bsdDirent64) len 3 ((len / 4 * 4 - 28) / 32)
      (by omega) rfl (by rw [ha, hs]; omega) (by rw [ha, hs]; omega) (by
        rw [ha, hl, hs, Layout.bufSize, show bsdDirent64.minSize = 28 from rfl,
          show linuxMinSize = 32 from rfl]
        omega)
    have := h dir
    omega
  · by_cases hmod : len % 4 = 0
    · have := emitted_sum_le (L := bsdDirent64) hmod (run (bsdDirent64.bufSize len) dir) 0 rfl
        (Nat.zero_le _)
      rwa [Nat.zero_add] at this
    · have hsize := seen_linux_sum_le (L := bsdDirent64) len dir
      have hsum := sum_reclen64_le (seen bsdDirent64 len dir)
      rw [Layout.bufSize, show bsdDirent64.minSize = 28 from rfl,
        show linuxMinSize = 32 from rfl] at hsize
      omega

theorem contained_sixty : Contained bsdDirent 60 (sysGetdirentries id (-22)) ∧
    Contained bsdDirent64 60 (sysGetdirentries64 id (-22)) :=
  ⟨(contained_iff id (by decide) 60).1.2 (by decide),
    (contained_iff id (by decide) 60).2.2 (by decide)⟩

/-- A record of 29 bytes is written to a buffer of 29, and 32 is returned. -/
theorem getdirentries_past_end :
    (sysGetdirentries64 id (-22) (buffer 29) none [padded 3]).map Result.ret = some 32 ∧
    (sysGetdirentries id (-22) (buffer 13) none [padded 3]).map Result.ret = some 16 := by
  decide

end Darling.Getdirentries
