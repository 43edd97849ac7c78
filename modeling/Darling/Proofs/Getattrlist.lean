import Darling.Getattrlist
import Darling.Proofs.FdTable
import Darling.Proofs.Getdirentries

/-!
# What `fgetattrlist` and `getattrlistat` report

The count of the entries first: what the loop over `getdents64` adds up, and where it leaves the
position that the caller's descriptor shares.  Then the record: the attributes are stored one behind
the other, and each store fills a piece of `ourBuffer`.
-/

namespace Darling.Getattrlist

open CArray Getdirentries List Option

variable {ι : Type}

namespace World

variable {w : World ι} {fd : ℤ} {i : ℕ} {x y : Description ι}

theorem desc_eq_some : w.desc fd = some (i, x) ↔
    ∃ d, w.table.get fd = some d ∧ d.file = i ∧ w.descs[i]? = some x := by
  unfold desc
  rcases w.table.get fd with _ | d
  · simp
  · rcases hx : w.descs[d.file]? with _ | y
    · simp only [bind_eq_bind, bind_some, bind_none, hx, reduceCtorEq,
        some.injEq, false_iff, not_exists, not_and]
      rintro _ rfl rfl h
      rw [hx] at h
      cases h
    · simp only [bind_eq_bind, bind_some, hx, Option.pure_def, some.injEq,
        Prod.mk.injEq, exists_eq_left']
      constructor
      · rintro ⟨rfl, rfl⟩
        exact ⟨rfl, hx⟩
      · rintro ⟨rfl, h⟩
        rw [hx] at h
        exact ⟨rfl, some.inj h⟩

theorem desc_put (h : w.desc fd = some (i, x)) : (w.put i y).desc fd = some (i, y) := by
  obtain ⟨d, hd, rfl, hx⟩ := desc_eq_some.1 h
  refine desc_eq_some.2 ⟨d, hd, rfl, ?_⟩
  have hi := (List.getElem?_eq_some_iff.1 hx).1
  simp [put, hi]

@[simp] theorem put_put : (w.put i x).put i y = w.put i y := by
  simp [put]

end World

theorem linuxReclen_le (e : Entry) : e.linuxReclen ≤ 280 := by
  have := e.name_le
  unfold Entry.linuxReclen
  omega

theorem linuxReclen_pos (e : Entry) : 0 < e.linuxReclen := by
  unfold Entry.linuxReclen
  omega

theorem run_eq_nil {dir : List Entry} : run 1024 dir = [] ↔ dir = [] := by
  cases dir with
  | nil => simp [run]
  | cons e es =>
    have := linuxReclen_le e
    simp [run, show e.linuxReclen ≤ 1024 by omega]

theorem getdents64_le (dir : List Entry) :
    (getdents64 (fail einval) 1024 dir).1 ≤ 0 ↔ dir = [] := by
  cases dir with
  | nil => simp [getdents64, run]
  | cons e es =>
    have hle := linuxReclen_le e
    have hpos := linuxReclen_pos e
    simp only [getdents64, reduceCtorEq, false_and, if_false, run,
      if_pos (show e.linuxReclen ≤ 1024 by omega), map_cons, sum_cons, iff_false]
    omega

section Count

variable {w : World ι} {fd : ℤ} {i : ℕ} {es : List Entry} {x : Description ι}

theorem getdents_eq (hd : w.desc fd = some (i, x))
    (he : w.entries x.file = some es) : w.getdents fd 1024 =
      (((getdents64 (fail einval) 1024 (es.drop x.pos)).1, run 1024 (es.drop x.pos)),
        w.put i { x with pos := x.pos + (run 1024 (es.drop x.pos)).length }) := by
  simp [World.getdents, hd, he, getdents64]

theorem countLoop_spec : ∀ {fuel : ℕ} {w : World ι} {x : Description ι} {count : ℕ},
    w.desc fd = some (i, x) → w.entries x.file = some es → es.length - x.pos < fuel →
    count < 2 ^ 32 → countLoop fd fuel w count =
      some ((count + (es.length - x.pos)) % 2 ^ 32, w.put i { x with pos := max x.pos es.length })
  | 0, _, _, _, _, _, hfuel, _ => absurd hfuel (Nat.not_lt_zero _)
  | fuel + 1, w, x, count, hd, he, hfuel, hcount => by
    rw [countLoop, getdents_eq hd he]
    by_cases hnil : es.drop x.pos = []
    · have hle : es.length ≤ x.pos := drop_eq_nil_iff.1 hnil
      rw [if_pos ((getdents64_le _).2 hnil), hnil]
      rw [Nat.sub_eq_zero_of_le hle, max_eq_left hle, Nat.add_zero, Nat.mod_eq_of_lt hcount]
      rfl
    · have hlen : (run 1024 (es.drop x.pos)).length ≤ es.length - x.pos := by
        simpa using (run_front 1024 (es.drop x.pos)).length_le
      have hpos : 0 < (run 1024 (es.drop x.pos)).length :=
        length_pos_iff.2 fun h => hnil (run_eq_nil.1 h)
      rw [if_neg (mt (getdents64_le _).1 hnil)]
      have hput := World.desc_put
        (y := { x with pos := x.pos + (run 1024 (es.drop x.pos)).length }) hd
      refine (countLoop_spec hput he (by rw [Nat.sub_add_eq]; omega)
        (Nat.mod_lt _ (by decide))).trans ?_
      simp only [World.put_put, Nat.mod_add_mod, some.injEq, Prod.mk.injEq]
      refine ⟨by congr 1; omega, ?_⟩
      congr 2
      omega

theorem countLoop_total (w : World ι) (fd : ℤ) :
    ∃ r, countLoop fd (countFuel w fd) w 0 = some r := by
  rcases hd : w.desc fd with _ | ⟨i, x⟩
  · exact ⟨(0, w), by simp [countFuel, countLoop, World.getdents, hd, ebadf]⟩
  · rcases he : w.entries x.file with _ | es
    · exact ⟨(0, w), by simp [countFuel, countLoop, World.getdents, hd, he, fail]⟩
    · refine ⟨_, countLoop_spec hd he ?_ (by decide)⟩
      simp only [countFuel, hd, he, getD_some]
      omega

theorem countEntries_total (w : World ι) (src : Source) : ∃ r, countEntries w src = some r := by
  unfold countEntries
  simp only
  split_ifs
  · exact ⟨_, rfl⟩
  · obtain ⟨r, hr⟩ := countLoop_total (src.tmpFd w).2 (src.tmpFd w).1
    exact ⟨_, by rw [hr]; rfl⟩

theorem dup_eq (hd : w.desc fd = some (i, x)) : w.dup fd = match w.table.lowest with
    | none => (-emfile, w)
    | some n => (n, { w with table := w.table.set n ⟨i, false⟩ }) := by
  obtain ⟨d, hget, rfl, -⟩ := World.desc_eq_some.1 hd
  simp only [World.dup, Table.dup, hget, Table.alloc]
  rcases w.table.lowest with _ | n <;> rfl

theorem countEntries_fd (hd : w.desc fd = some (i, x))
    (he : w.entries x.file = some es) : ∃ w', countEntries w (.fd fd) =
        some (if w.table.lowest = none then 0 else (es.length - x.pos) % 2 ^ 32, w') ∧
      w'.desc fd = some (i, if w.table.lowest = none then x
        else { x with pos := max x.pos es.length }) := by
  rcases hlow : w.table.lowest with _ | n
  · refine ⟨w, ?_, by simpa using hd⟩
    simp [countEntries, Source.tmpFd, dup_eq hd, hlow, emfile]
  · obtain ⟨d, hget, hfile, hx⟩ := World.desc_eq_some.1 hd
    have hne : fd ≠ n := by
      rintro rfl
      rw [(Table.lowest_free hlow).1] at hget
      cases hget
    let w₁ : World ι := { w with table := w.table.set n ⟨i, false⟩ }
    have hdup : w₁.desc n = some (i, x) :=
      World.desc_eq_some.2 ⟨⟨i, false⟩, by simp [w₁], rfl, hx⟩
    have hcount : countLoop (n : ℤ) (countFuel w₁ n) w₁ 0 = _ := countLoop_spec hdup he
      (by simp only [countFuel, hdup]; simp only [w₁, he, getD_some]; omega) (by decide)
    refine ⟨(w₁.put i { x with pos := max x.pos es.length }).close n, ?_, ?_⟩
    · simp only [countEntries, Source.tmpFd, dup_eq hd, hlow]
      rw [if_neg (by omega)]
      simp [hcount, w₁]
    · have hi := (List.getElem?_eq_some_iff.1 hx).1
      refine World.desc_eq_some.2 ⟨d, ?_, hfile, ?_⟩
      · simp [World.close, Table.close, World.put, w₁, hne, hget]
      · simp [World.close, World.put, w₁, hi]

end Count

/-- The step fills the next `n` bytes, and what it puts there depends on them only. -/
structure Stage (f : Cursor → Option Cursor) (n : ℕ) (t : Bytes → Bytes) : Prop where
  length : ∀ v : Bytes, v.length = n → (t v).length = n
  eq : ∀ u v r : Bytes, v.length = n →
    f (u ++ (v ++ r), u.length) = some (u ++ (t v ++ r), u.length + n)

namespace Stage

variable {f : Cursor → Option Cursor} {n : ℕ} {t : Bytes → Bytes}

theorem ite (h : Stage f n t) (b : Bool) : Stage (ifSelected b f) (if b then n else 0)
      (fun v => if b then t v else []) := by
  cases b with
  | true => exact ⟨by simpa using h.length, by simpa [ifSelected] using h.eq⟩
  | false =>
    refine ⟨by simp, fun u v r hv => ?_⟩
    have hnil : v = [] := length_eq_zero_iff.1 (by simpa using hv)
    simp [ifSelected, hnil]

theorem bind {g : Cursor → Option Cursor} {m : ℕ} {s : Bytes → Bytes} (hf : Stage f n t)
    (hg : Stage g m s) :
    Stage (fun c => (f c).bind g) (n + m) (fun v => t (v.take n) ++ s (v.drop n)) := by
  have hn (v : Bytes) (hv : v.length = n + m) : (v.take n).length = n := by simp [hv]
  have hm (v : Bytes) (hv : v.length = n + m) : (v.drop n).length = m := by simp [hv]
  refine ⟨fun v hv => ?_, fun u v r hv => ?_⟩
  · rw [length_append, hf.length _ (hn v hv), hg.length _ (hm v hv)]
  · have hfirst := hf.eq u (v.take n) (v.drop n ++ r) (hn v hv)
    have hnext := hg.eq (u ++ t (v.take n)) (v.drop n) r (hm v hv)
    rw [← append_assoc (v.take n), take_append_drop] at hfirst
    rw [length_append, hf.length _ (hn v hv), append_assoc] at hnext
    rw [hfirst, bind_some, hnext]
    simp [Nat.add_assoc]

end Stage

theorem storeWord_stage (x : ℕ) : Stage (storeWord x) 4 (fun _ => le 4 x) where
  length _ _ := le_length 4 x
  eq u v r hv := by
    simp [storeWord, blit_split (v := v) (t := le 4 x) (by simp [hv])]

theorem storeRsrclength_stage (g : ℕ → Xattr.Answer) : Stage (storeRsrclength g) 4
    (fun _ => le 4 (if (g 0).ret < 0 then 0 else (g 0).ret.toNat)) where
  length _ _ := le_length 4 _
  eq u v r hv := by
    simp only [storeRsrclength]
    rw [blit_split (by simp [hv])]
    rfl

/-- What stands in the place of the Finder info. -/
def finderBytes (found : Option Bytes) (v : Bytes) : Bytes :=
  match found with
  | none => noFinderInfo
  | some o => if o.length ≤ 32 then o ++ v.drop o.length else noFinderInfo

def finderInfoOf (w : World ι) (src : Source) : Option Bytes := (src.file w).bind w.finderInfo

theorem storeFndrinfo_stage (w : World ι) (src : Source) :
    Stage (storeFndrinfo (src.getxattr w)) 32 (finderBytes (finderInfoOf w src)) := by
  have hmissing : src.missing < 0 := by cases src <;> simp [Source.missing, ebadf, fail]
  have hfail (e : ℕ+) : fail e < 0 := by simp [fail]
  refine ⟨fun v hv => ?_, fun u v r hv => ?_⟩
  · unfold finderBytes
    split
    · rfl
    · split_ifs
      · simp only [length_append, length_drop]
        omega
      · rfl
  · have hzero : blit (u ++ (v ++ r)) u.length (noFinderInfo) =
        some (u ++ (noFinderInfo ++ r)) :=
      blit_split (by rw [hv]; rfl) u r
    unfold storeFndrinfo Source.getxattr finderInfoOf
    rcases src.file w with _ | f
    · simp [hmissing, hzero, finderBytes]
    · rcases hv' : w.finderInfo f with _ | o
      · simp [hv', hfail, hzero, finderBytes]
      · simp only [hv', Xattr.copyOut, bind_some, finderBytes]
        by_cases ho : o.length ≤ 32
        · have hmax : ¬ Xattr.sizeMax < o.length := by simp only [Xattr.sizeMax]; omega
          have hput : blit (u ++ (v ++ r)) u.length o =
              some (u ++ (o ++ (v.drop o.length ++ r))) := by
            rw [blit_room (by simp; omega), drop_append_of_le_length (by omega)]
          simp [hmax, ho, hput, show ¬ 32 < o.length by omega]
        · by_cases hmax : Xattr.sizeMax < o.length
          · simp [hmax, ho, hfail, hzero]
          · simp [hmax, ho, hfail, hzero, show 32 < o.length by omega]

def rsrcStored (w : World ι) (src : Source) : ℕ :=
  if (src.getxattr w 0).ret < 0 then 0 else (src.getxattr w 0).ret.toNat

/-- The attributes as the code stores them, in the bytes `v` that it finds behind the length
word. -/
def stored (a : AttrList) (found : Option Bytes) (rsrc count : ℕ) (v : Bytes) : Bytes :=
  (if a.fndrinfo then finderBytes found (v.take 32) else []) ++
    ((if a.rsrclength then le 4 rsrc else []) ++
      ((if a.objtag then le 4 vtHfs else []) ++ (if a.entrycount then le 4 count else [])))

def storedSize (a : AttrList) : ℕ :=
  (if a.fndrinfo then 32 else 0) +
    ((if a.rsrclength then 4 else 0) + ((if a.objtag then 4 else 0) +
      (if a.entrycount then 4 else 0)))

theorem spaceNeeded_eq (a : AttrList) :
    a.spaceNeeded = 4 + storedSize a + (if a.rsrclength then 4 else 0) := by
  unfold AttrList.spaceNeeded storedSize
  split_ifs <;> rfl

variable (w : World ι) (src : Source) (a : AttrList) {h : Bytes} {n : ℕ}

theorem storeAttributes_eq (count : ℕ) {v r : Bytes} (hh : h.length = 4)
    (hv : v.length = storedSize a) :
    (stored a (finderInfoOf w src) (rsrcStored w src) count v).length = storedSize a ∧
      storeAttributes a (src.getxattr w) count (h ++ (v ++ r)) =
        some (h ++ (stored a (finderInfoOf w src) (rsrcStored w src) count v ++ r)) := by
  have hstage := ((storeFndrinfo_stage w src).ite a.fndrinfo).bind
    (((storeRsrclength_stage (src.getxattr w)).ite a.rsrclength).bind
      (((storeWord_stage vtHfs).ite a.objtag).bind ((storeWord_stage count).ite a.entrycount)))
  have htake : (if a.fndrinfo = true then finderBytes (finderInfoOf w src)
      (v.take (if a.fndrinfo = true then 32 else 0)) else []) =
      if a.fndrinfo = true then finderBytes (finderInfoOf w src) (v.take 32) else [] := by
    split_ifs <;> rfl
  have hlen := hstage.length v hv
  have heq := hstage.eq h v r hv
  simp only [htake] at hlen heq
  refine ⟨hlen, ?_⟩
  rw [hh] at heq
  refine Eq.trans ?_ (congrArg (Option.map Prod.fst) heq)
  simp [storeAttributes, map_eq_bind, bind_assoc]

theorem copyAttributes_eq {t buf : Bytes} (hh : h.length = 4) (hn : 4 + t.length = n)
    (options : ℕ) : copyAttributes n (h ++ t) buf buf.length options =
      if ¬ reportFullsize options ∧ buf.length < n then none
      else some ((le 4 buf.length ++ t).take buf.length ++ buf.drop n) := by
  have hput (x : ℕ) : blit (h ++ t) 0 (le 4 x) = some (le 4 x ++ t) := by
    have := blit_split (v := h) (t := le 4 x) (by simp [hh]) [] t
    simpa using this
  have hlen (x : ℕ) : (le 4 x ++ t).length = n := by simp [hn]
  unfold copyAttributes
  simp only
  split_ifs with hsize
  · rw [hput, bind_eq_bind, bind_some, min_self, slice, if_pos (by simp [hlen]),
      bind_some, blit_outside]
    simp only [drop_zero, length_take, hlen]
    omega
  · rw [hput, bind_eq_bind, bind_some, slice, if_pos (by rw [hlen]; omega), bind_some, blit]
    have htake : ((le 4 buf.length ++ t).take (min buf.length n)).length = min buf.length n := by
      rw [length_take, hlen]
      omega
    rw [drop_zero, htake, if_pos (by omega), take_zero, nil_append, Nat.zero_add]
    rcases le_total buf.length n with hle | hle
    · rw [min_eq_left hle, drop_length, drop_eq_nil_of_le hle]
    · rw [min_eq_right hle, take_of_length_le (hlen _).le,
        take_of_length_le (by rw [hlen]; exact hle)]

theorem selectedCount_total : ∃ r, selectedCount w src a = some r ∧
    (a.entrycount → countEntries w src = some r) := by
  unfold selectedCount
  split_ifs with hentry
  · obtain ⟨r, hr⟩ := countEntries_total w src
    exact ⟨r, hr, fun _ => hr⟩
  · exact ⟨_, rfl, fun h => absurd h hentry⟩

theorem getattrlist_eq {a : AttrList} (ha : a.Supported) (buf : Bytes) (options : ℕ) :
    ∃ count w', (a.entrycount → countEntries w src = some (count, w')) ∧
      ∀ stack h v r, (range a.spaceNeeded).map stack = h ++ (v ++ r) → h.length = 4 →
        v.length = storedSize a →
        (stored a (finderInfoOf w src) (rsrcStored w src) count v).length = storedSize a ∧
        getattrlist w src stack (some a) buf buf.length options =
          if ¬ reportFullsize options ∧ buf.length < a.spaceNeeded then none
          else some (0, (le 4 buf.length ++ (stored a (finderInfoOf w src)
            (rsrcStored w src) count v
            ++ r)).take buf.length ++ buf.drop a.spaceNeeded, w') := by
  obtain ⟨⟨count, w'⟩, hcount, hentry⟩ := selectedCount_total w src a
  refine ⟨count, w', hentry, fun stack h v r hsplit hh hv => ?_⟩
  obtain ⟨hlen, hstore⟩ := storeAttributes_eq w src a count (r := r) hh hv
  have hspace : 4 + (stored a (finderInfoOf w src) (rsrcStored w src) count v ++ r).length =
      a.spaceNeeded := by
    have := congrArg length hsplit
    simp only [length_map, length_range, length_append] at this ⊢
    omega
  refine ⟨hlen, ?_⟩
  simp only [getattrlist, ha, not_true_eq_false, if_false, hcount, bind_eq_bind,
    bind_some, hsplit, hstore, copyAttributes_eq hh hspace]
  split_ifs <;> rfl

/-- What a caller may find for the Finder info: the attribute, if it has its 32 bytes, and zeros if
there is none. -/
structure FinderInfo (found : Option Bytes) (f : Bytes) : Prop where
  length : f.length = 32
  absent : found = none → f = noFinderInfo
  present : ∀ v, found = some v → v.length = 32 → f = v

/-- The attributes in the documented order: common attributes by their bits, directory attributes,
file attributes. -/
def attributes (a : AttrList) (f : Bytes) (count rsrc : ℕ) : Bytes :=
  (if a.objtag then le 4 vtHfs else []) ++ ((if a.fndrinfo then f else []) ++
    ((if a.entrycount then le 4 count else []) ++ (if a.rsrclength then le 8 rsrc else [])))

/-- The record with the attributes given. -/
def record (options size : ℕ) (attrs : Bytes) : Bytes :=
  le 4 (if reportFullsize options then 4 + attrs.length else min size (4 + attrs.length)) ++ attrs

def rsrcLength (w : World ι) (src : Source) : ℕ :=
  (((src.file w).bind w.resourceFork).map length).getD 0

/-- A call puts the record into the buffer, cut off at its end, whatever the stack held. -/
def Packs (call : (ℕ → Byte) → Option AttrList → Bytes → ℕ → ℕ → Option (ℤ × Bytes × World ι))
    (buf : Bytes) (options : ℕ) : Prop :=
  ∃ f count, FinderInfo (finderInfoOf w src) f ∧ ∀ stack, ∃ w',
    call stack (some a) buf buf.length options = some (0,
      (record options buf.length (attributes a f count (rsrcLength w src))).take buf.length ++
        buf.drop (record options buf.length (attributes a f count (rsrcLength w src))).length, w')

/-- When it does. -/
def Packable (size options : ℕ) : Prop :=
  (size = 0 ∧ reportFullsize options) ∨
  (a.spaceNeeded ≤ size ∧ size % 2 ^ 32 = a.spaceNeeded ∧ ¬ a.rsrclength ∧
    (a.fndrinfo → ∀ v, finderInfoOf w src = some v → 32 ≤ v.length) ∧
    (a.fndrinfo → a.objtag → finderInfoOf w src = some (replicate 8 (le 4 vtHfs)).flatten))

section Record

variable {a : AttrList} {w : World ι} {src : Source} {f : Bytes} {count rsrc : ℕ}

theorem attributes_length (hf : f.length = 32) :
    4 + (attributes a f count rsrc).length = a.spaceNeeded := by
  unfold attributes AttrList.spaceNeeded
  split_ifs <;> simp [hf]

theorem spaceNeeded_le (a : AttrList) : 4 ≤ a.spaceNeeded ∧ a.spaceNeeded ≤ 52 := by
  unfold AttrList.spaceNeeded
  split_ifs <;> omega

def finderShown (found : Option Bytes) : Bytes := finderBytes found noFinderInfo

variable {found : Option Bytes} {v : Bytes} {options : ℕ}

theorem finderBytes_of_long (h : ∀ v, found = some v → 32 ≤ v.length) (hv : v.length = 32) :
    finderBytes found v = finderShown found := by
  rcases found with _ | o
  · rfl
  · have ho := h o rfl
    have hz : noFinderInfo.length ≤ o.length := ho
    simp [finderBytes, finderShown, drop_eq_nil_of_le (hv.trans_le ho), drop_eq_nil_of_le hz]

theorem finderInfo_shown (found : Option Bytes) : FinderInfo found (finderShown found) := by
  refine ⟨?_, fun h => by rw [h]; rfl, fun v hv h => ?_⟩
  · rcases found with _ | o
    · rfl
    · simp only [finderShown, finderBytes]
      split_ifs with ho
      · have : noFinderInfo.length = 32 := rfl
        simp only [length_append, length_drop, this]
        omega
      · rfl
  · have hz : noFinderInfo.length ≤ v.length := h.ge
    rw [hv]
    simp [finderShown, finderBytes, if_pos h.le, drop_eq_nil_of_le hz]

theorem eq_replicate_flatten {α : Type} {t : List α} : ∀ {n : ℕ} {v : List α},
    v.length = n * t.length → v ++ t = t ++ v → v = (replicate n t).flatten
  | 0, v, hv, _ => length_eq_zero_iff.1 (by simpa using hv)
  | n + 1, v, hv, h => by
    have hle : t.length ≤ v.length := by
      rw [hv]
      exact Nat.le_mul_of_pos_left _ (Nat.succ_pos n)
    obtain ⟨v', rfl⟩ : ∃ v', v = t ++ v' :=
      ⟨v.drop t.length, by
        have := congrArg (take t.length) h
        rw [take_append_of_le_length hle, take_left] at this
        nth_rewrite 1 [← this]
        exact (take_append_drop _ _).symm⟩
    rw [append_assoc, append_cancel_left_eq] at h
    rw [eq_replicate_flatten (n := n) (by simp [Nat.succ_mul] at hv; omega) h]
    rfl

theorem record_length (options size : ℕ) (hf : f.length = 32) :
    (record options size (attributes a f count rsrc)).length = a.spaceNeeded := by
  rw [record, length_append, le_length, attributes_length hf]

theorem record_of_le {size : ℕ} (hf : f.length = 32) (hsize : a.spaceNeeded ≤ size) :
    record options size (attributes a f count rsrc) =
      le 4 a.spaceNeeded ++ attributes a f count rsrc := by
  rw [record, attributes_length hf, min_eq_right hsize, ite_self]

def storedOn (a : AttrList) (found : Option Bytes) (rsrc count : ℕ) (b : Byte) : Bytes :=
  stored a found rsrc count (replicate (storedSize a) b) ++
    replicate (if a.rsrclength then 4 else 0) b

variable (w src) in
theorem getattrlist_const (ha : a.Supported) (buf : Bytes) (options : ℕ) :
    ∃ count, ∀ b : Byte, ∃ w',
      (stored a (finderInfoOf w src) (rsrcStored w src) count
        (replicate (storedSize a) b)).length = storedSize a ∧
      getattrlist w src (fun _ => b) (some a) buf buf.length options =
        if ¬ reportFullsize options ∧ buf.length < a.spaceNeeded then none
        else some (0, (le 4 buf.length ++
          storedOn a (finderInfoOf w src) (rsrcStored w src) count b).take buf.length ++
            buf.drop a.spaceNeeded, w') := by
  obtain ⟨count, w', -, hcall⟩ := getattrlist_eq w src ha buf options
  refine ⟨count, fun b => ⟨w', hcall _ (replicate 4 b) _ _ ?_ (by simp) (by simp)⟩⟩
  rw [map_const', length_range, ← replicate_add, ← replicate_add, spaceNeeded_eq, Nat.add_assoc]

theorem stored_eq_attributes {rsrc' : ℕ} (hv : v.length = storedSize a) (hrsrc : ¬ a.rsrclength)
    (hlong : a.fndrinfo → ∀ v, found = some v → 32 ≤ v.length)
    (htags : a.fndrinfo → a.objtag → found = some (replicate 8 (le 4 vtHfs)).flatten) :
    stored a found rsrc count v = attributes a (finderShown found) count rsrc' := by
  simp only [stored, attributes, if_neg hrsrc, nil_append, append_nil]
  by_cases hfinder : a.fndrinfo
  · have hlen : (v.take 32).length = 32 := by
      simp only [storedSize, if_pos hfinder] at hv
      simp [hv]
    simp only [if_pos hfinder, finderBytes_of_long (hlong hfinder) hlen]
    by_cases htag : a.objtag
    · simp only [if_pos htag, htags hfinder htag, ← append_assoc]
      rfl
    · simp [if_neg htag]
  · simp [if_neg hfinder]

theorem packs_of_packable (ha : a.Supported) {buf : Bytes}
    (h : Packable w src a buf.length options) : Packs w src a (getattrlist w src) buf options := by
  obtain ⟨count, w', -, hcall⟩ := getattrlist_eq w src ha buf options
  have hshown := finderInfo_shown (finderInfoOf w src)
  refine ⟨_, count, hshown, fun stack => ⟨w', ?_⟩⟩
  have hlen : ((range a.spaceNeeded).map stack).length = 4 + (storedSize a +
      (if a.rsrclength then 4 else 0)) := by
    rw [length_map, length_range, spaceNeeded_eq, Nat.add_assoc]
  obtain ⟨u, v, r, hsplit, hu, hv⟩ := @exists_piece _ ((range a.spaceNeeded).map stack) 4
    (storedSize a) (by omega)
  obtain ⟨-, hcall⟩ := hcall stack u v r hsplit hu hv
  rw [hcall, record_length _ _ hshown.length]
  rcases h with ⟨hzero, hfull⟩ | ⟨hsize, hmod, hrsrc, hlong, htags⟩
  · rw [if_neg (by simp [hfull]), hzero, take_zero, take_zero]
  · have hr : r = [] := by
      rw [hsplit, if_neg hrsrc] at hlen
      simp only [length_append] at hlen
      exact length_eq_zero_iff.1 (by omega)
    have hword : le 4 buf.length = le 4 a.spaceNeeded := by
      have := spaceNeeded_le a
      refine le_inj.2 (hmod.trans (Nat.mod_eq_of_lt ?_).symm)
      omega
    have hbody : stored a (finderInfoOf w src) (rsrcStored w src) count v =
        attributes a (finderShown (finderInfoOf w src)) count (rsrcLength w src) :=
      stored_eq_attributes hv hrsrc hlong htags
    rw [if_neg (by omega), record_of_le hshown.length hsize, hr, append_nil, hword, hbody]

theorem stored_finder {b : Byte} (h : a.fndrinfo) :
    stored a found rsrc count (replicate (storedSize a) b) =
      finderBytes found (replicate 32 b) ++ ((if a.rsrclength then le 4 rsrc else []) ++
        ((if a.objtag then le 4 vtHfs else []) ++ (if a.entrycount then le 4 count else []))) := by
  have hle : 32 ≤ storedSize a := by
    simp only [storedSize, if_pos h]
    omega
  rw [stored, if_pos h, take_replicate, min_eq_left hle]

theorem long_of_finderBytes
    (h : finderBytes found (replicate 32 0) = finderBytes found (replicate 32 1))
    (hv : found = some v) : 32 ≤ v.length := by
  by_contra hlt
  rw [hv] at h
  simp only [finderBytes, if_pos (show v.length ≤ 32 by omega), drop_replicate,
    append_cancel_left_eq, replicate_inj] at h
  exact absurd h.2 (by simp; omega)

theorem tags_of_append (hf : FinderInfo found f) (hlong : ∀ v, found = some v → 32 ≤ v.length)
    (hv : v.length = 32) (h : finderBytes found v ++ le 4 vtHfs = le 4 vtHfs ++ f) :
    found = some (replicate 8 (le 4 vtHfs)).flatten := by
  have hzero : noFinderInfo ++ le 4 vtHfs ≠ le 4 vtHfs ++ f := by
    intro h
    cases congrArg head? h
  rcases found with _ | o
  · exact absurd h hzero
  · rw [finderBytes] at h
    split_ifs at h with ho
    · have hlen : o.length = 32 := le_antisymm ho (hlong o rfl)
      rw [drop_eq_nil_of_le (by omega), append_nil, hf.present o rfl hlen] at h
      rw [eq_replicate_flatten (n := 8) hlen h]
    · exact absurd h hzero

theorem mod_eq_of_take {n x y : ℕ} {s t : Bytes} (hn : n ≠ 0)
    (h : (le 4 x ++ s).take n = (le 4 y ++ t).take n) : x % 256 = y % 256 := by
  obtain ⟨n, rfl⟩ := Nat.exists_eq_succ_of_ne_zero hn
  have hhead : UInt8.ofNat x = UInt8.ofNat y := (cons_eq_cons.1 h).1
  have := congrArg UInt8.toNat hhead
  rwa [UInt8.toNat_ofNat', UInt8.toNat_ofNat'] at this

theorem limits_of_storedOn
    (hlen : ∀ b, (stored a found rsrc count (replicate (storedSize a) b)).length =
      storedSize a) (h : storedOn a found rsrc count 0 = storedOn a found rsrc count 1) :
    ¬ a.rsrclength ∧ (a.fndrinfo → ∀ v, found = some v → 32 ≤ v.length) := by
  obtain ⟨hstored, hrest⟩ := append_inj h ((hlen 0).trans (hlen 1).symm)
  refine ⟨fun hrsrc => ?_, fun hfinder v => ?_⟩
  · simp [hrsrc] at hrest
  · simp only [stored_finder hfinder, append_cancel_right_eq] at hstored
    exact long_of_finderBytes hstored

theorem tags_of_storedOn (hf : FinderInfo (finderInfoOf w src) f) (hrsrc : ¬ a.rsrclength)
    (hlong : ∀ v, finderInfoOf w src = some v → 32 ≤ v.length) (hfinder : a.fndrinfo)
    (htag : a.objtag) {count' rsrc' : ℕ} (h : storedOn a (finderInfoOf w src) rsrc count 0 =
      attributes a f count' rsrc') :
    finderInfoOf w src = some (replicate 8 (le 4 vtHfs)).flatten := by
  simp only [storedOn, stored_finder hfinder, attributes, if_neg hrsrc, if_pos htag,
    if_pos hfinder, nil_append, replicate_zero, append_nil] at h
  rw [← append_assoc, ← append_assoc] at h
  refine tags_of_append hf hlong length_replicate (append_inj h ?_).1
  have hlen := (storeFndrinfo_stage w src).length (replicate 32 0) length_replicate
  simp only [length_append, hlen, hf.length, le_length]

theorem packable_of_packs (ha : a.Supported) {buf : Bytes}
    (h : Packs w src a (getattrlist w src) buf options) : Packable w src a buf.length options := by
  obtain ⟨f, count', hf, hall⟩ := h
  obtain ⟨count, hcall⟩ := getattrlist_const w src ha buf options
  have hlen (b : Byte) := (hcall b).choose_spec.1
  have hbytes (b : Byte) : ¬ (¬ reportFullsize options ∧ buf.length < a.spaceNeeded) ∧
      (le 4 buf.length ++ storedOn a (finderInfoOf w src) (rsrcStored w src) count b).take
          buf.length =
        (record options buf.length (attributes a f count' (rsrcLength w src))).take
          buf.length := by
    obtain ⟨w', -, hw'⟩ := hcall b
    obtain ⟨w'', hw''⟩ := hall fun _ => b
    rw [hw', record_length _ _ hf.length] at hw''
    by_cases hcond : ¬ reportFullsize options ∧ buf.length < a.spaceNeeded
    · rw [if_pos hcond] at hw''
      cases hw''
    · rw [if_neg hcond] at hw''
      exact ⟨hcond, append_cancel_right (congrArg (·.2.1) (some.inj hw''))⟩
  have hspace := spaceNeeded_le a
  by_cases hsize : a.spaceNeeded ≤ buf.length
  · right
    have hattrs (b : Byte) : le 4 buf.length = le 4 a.spaceNeeded ∧
        storedOn a (finderInfoOf w src) (rsrcStored w src) count b =
          attributes a f count' (rsrcLength w src) := by
      have hn := spaceNeeded_eq a
      have h := (hbytes b).2
      rw [take_of_length_le (by
          simp only [storedOn, length_append, le_length, hlen, length_replicate]
          omega),
        take_of_length_le (by rw [record_length _ _ hf.length]; exact hsize),
        record_of_le hf.length hsize] at h
      exact append_inj h (by simp)
    obtain ⟨hrsrc, hlong⟩ := limits_of_storedOn hlen ((hattrs 0).2.trans (hattrs 1).2.symm)
    refine ⟨hsize, ?_, hrsrc, hlong, fun hfinder htag =>
      tags_of_storedOn hf hrsrc (hlong hfinder) hfinder htag (hattrs 0).2⟩
    have := le_inj.1 (hattrs 0).1
    rwa [Nat.mod_eq_of_lt (show a.spaceNeeded < 256 ^ 4 by omega)] at this
  · left
    have hfull : reportFullsize options := by
      by_contra h
      exact (hbytes 0).1 ⟨h, by omega⟩
    refine ⟨?_, hfull⟩
    by_contra hpos
    have h := (hbytes 0).2
    rw [record, if_pos hfull, attributes_length hf.length] at h
    have := mod_eq_of_take hpos h
    omega

theorem packs_getattrlist (ha : a.Supported) (buf : Bytes) (options : ℕ) :
    Packs w src a (getattrlist w src) buf options ↔ Packable w src a buf.length options :=
  ⟨packable_of_packs ha, packs_of_packable ha⟩

end Record

/-- Both calls put the documented record into the buffer exactly if it is packable. -/
theorem packs_iff (w : World ι) {a : AttrList} (ha : a.Supported) (buf : Bytes) (options : ℕ) :
    (∀ fd, Packs w (.fd fd) a (sysFgetattrlist w fd) buf options ↔
      Packable w (.fd fd) a buf.length options) ∧
    ∀ expand path rv host, expand (options &&& 1 = 0) path = some (rv, host) → 0 ≤ rv →
      (Packs w (.path host) a (sysGetattrlistat w expand (some path)) buf options ↔
        Packable w (.path host) a buf.length options) := by
  refine ⟨fun fd => packs_getattrlist ha buf options, fun expand path rv host hexp hrv => ?_⟩
  rw [← packs_getattrlist ha buf options]
  simp only [Packs, sysGetattrlistat, hexp, bind_eq_bind, bind_some,
    if_neg (not_lt.2 hrv), isNone_some, Bool.false_eq_true, if_false]

def oneFile (finderInfo : Option Bytes) (entries : Option (List Entry)) (pos : ℕ) : World Unit where
  table := { limit := 4, size := 1, get fd := if fd = 0 then some ⟨0, false⟩ else none,
             get_neg fd h := if_neg (by omega), get_size fd h := if_neg (by omega) }
  descs := [⟨(), pos⟩]
  entries _ := entries
  finderInfo _ := finderInfo
  resourceFork _ := some (replicate 300 1)
  lookup _ := none

def tagOnly : AttrList := ⟨5, attrCmnObjtag, 0, 0, 0, 0⟩

theorem packs_tag :
    Packs (oneFile none none 0) (.fd 0) tagOnly (sysFgetattrlist (oneFile none none 0) 0)
    (replicate 8 0) 0 :=
  ((packs_iff (oneFile none none 0) (by decide) (replicate 8 0) 0).1 0).2
    (.inr ⟨by decide, by decide, by decide, by decide, by decide⟩)

/-- With 4 bytes of space 8 are written; with 12 the length word is 12, not 8; the length of the
resource fork is 4 bytes, of the Finder info, and 4 bytes of the stack. -/
theorem sysFgetattrlist_unpacked :
    sysFgetattrlist (oneFile none none 0) 0 (fun _ => 0) (some tagOnly) (replicate 4 0) 4 0
      = none ∧
    (sysFgetattrlist (oneFile none none 0) 0 (fun _ => 0) (some tagOnly) (replicate 12 0) 12
      0).map (·.2.1) = some [12, 0, 0, 0, 16, 0, 0, 0, 0, 0, 0, 0] ∧
    (sysFgetattrlist (oneFile (some [1, 2, 3]) none 0) 0 (fun _ => 7)
      (some ⟨5, 0, 0, 0, attrFileRsrclength, 0⟩) (replicate 12 0) 12 0).map (·.2.1) =
        some [12, 0, 0, 0, 3, 0, 0, 0, 7, 7, 7, 7] := by
  decide

/-- Where the count of entries stands in a record. -/
def countOffset (a : AttrList) : ℕ :=
  4 + (if a.fndrinfo then 32 else 0) + (if a.rsrclength then 4 else 0) + (if a.objtag then 4 else 0)

theorem load_count {a : AttrList} {found : Option Bytes} {rsrc count : ℕ} {v r : Bytes}
    (hh : h.length = 4) (ha : a.entrycount) (hcount : count < 2 ^ 32)
    (hv : (stored a found rsrc count v).length = storedSize a) :
    load 4 (h ++ (stored a found rsrc count v ++ r)) (countOffset a) = some count := by
  simp only [stored, storedSize, if_pos ha] at hv ⊢
  generalize (if a.fndrinfo then finderBytes found (v.take 32) else []) = x at hv ⊢
  generalize (if a.rsrclength then le 4 rsrc else []) = y at hv ⊢
  generalize (if a.objtag then le 4 vtHfs else []) = z at hv ⊢
  have hoff : countOffset a = (h ++ (x ++ (y ++ z))).length := by
    simp only [length_append, le_length] at hv ⊢
    unfold countOffset
    omega
  have hload := load_field (u := h ++ (x ++ (y ++ z))) (w := r) (le_length 4 count)
  rw [unle_le_of_lt hcount, ← hoff] at hload
  simpa only [append_assoc] using hload

theorem count_eq_iff {p : Prop} [Decidable p] {k : ℕ} :
    (if p then 0 else (n - k) % 2 ^ 32) = n ↔ n = 0 ∨ ¬ p ∧ k = 0 ∧ n < 2 ^ 32 := by
  split_ifs with hp
  · simp only [hp, not_true_eq_false, false_and, or_false]
    exact eq_comm
  · simp only [hp, not_false_eq_true, true_and]
    omega

theorem moved_eq_iff {p : Prop} [Decidable p] {x : Description ι} :
    (if p then x else { x with pos := max x.pos n }) = x ↔ p ∨ n ≤ x.pos := by
  split_ifs with hp
  · simp [hp]
  · simp only [hp, false_or]
    constructor
    · intro h
      exact max_eq_left_iff.1 (congrArg Description.pos h)
    · intro h
      rw [max_eq_left h]

/-- What a caller sees: the number in the buffer, and the description behind the descriptor.  The
number is right if the directory is empty, or is read from its start through a second descriptor;
the position stays if there is no second descriptor or nothing left to read. -/
theorem entrycount_iff {w : World ι} {fd : ℤ} {i : ℕ} {x : Description ι} {es : List Entry}
    {a : AttrList} (hd : w.desc fd = some (i, x)) (he : w.entries x.file = some es)
    (ha : a.Supported) (hentry : a.entrycount) (stack : ℕ → Byte) (buf : Bytes) (options : ℕ)
    (hbuf : a.spaceNeeded ≤ buf.length) : ∃ out w' x',
      sysFgetattrlist w fd stack (some a) buf buf.length options = some (0, out, w') ∧
      w'.desc fd = some (i, x') ∧
      (load 4 out (countOffset a) = some es.length ↔
        es = [] ∨ w.table.lowest ≠ none ∧ x.pos = 0 ∧ es.length < 2 ^ 32) ∧
      (x' = x ↔ w.table.lowest = none ∨ es.length ≤ x.pos) ∧
      ((load 4 out (countOffset a) = some es.length ∧ x' = x) ↔ es = []) := by
  obtain ⟨count, w', hcount, hcall⟩ := getattrlist_eq w (.fd fd) ha buf options
  obtain ⟨w'', hfound, hdesc⟩ := countEntries_fd hd he
  obtain ⟨rfl, rfl⟩ := Prod.mk.inj (some.inj ((hcount hentry).symm.trans hfound))
  have hspace := spaceNeeded_eq a
  obtain ⟨u, v, r, hsplit, hu, hv⟩ := @exists_piece _ ((range a.spaceNeeded).map stack) 4
    (storedSize a) (by rw [length_map, length_range]; omega)
  obtain ⟨hlen, hcall⟩ := hcall stack u v r hsplit hu hv
  have htotal := congrArg length hsplit
  simp only [length_map, length_range, length_append] at htotal
  rw [if_neg (by omega), take_of_length_le (by
    simp only [length_append, le_length]; omega)] at hcall
  have hlt : (if w.table.lowest = none then 0 else (es.length - x.pos) % 2 ^ 32) < 2 ^ 32 := by
    split_ifs
    · decide
    · exact Nat.mod_lt _ (by decide)
  refine ⟨_, w', _, hcall, hdesc, ?_⟩
  rw [append_assoc, append_assoc, load_count (le_length 4 _) hentry hlt hlen,
    some.injEq, count_eq_iff, moved_eq_iff, length_eq_zero_iff]
  refine ⟨Iff.rfl, Iff.rfl, ?_, fun h => ⟨.inl h, .inr (by simp [h])⟩⟩
  rintro ⟨h | ⟨hlow, hpos, -⟩, h' | h'⟩
  · exact h
  · exact h
  · exact absurd h' hlow
  · exact length_eq_zero_iff.1 (by omega)

def countOnly : AttrList := ⟨5, 0, 0, attrDirEntrycount, 0, 0⟩

theorem entrycount_letters : ∃ out w' x',
    sysFgetattrlist (oneFile none (some (letters.take 3)) 1) 0 (fun _ => 0) (some countOnly)
      (replicate 8 0) 8 0 = some (0, out, w') ∧ w'.desc 0 = some (0, x') ∧
    ¬ (load 4 out (countOffset countOnly) = some 3 ∧ x' = ⟨(), 1⟩) := by
  have hdesc : (oneFile none (some (letters.take 3)) 1).desc 0 = some (0, ⟨(), 1⟩) := rfl
  have ha : countOnly.Supported := by decide
  obtain ⟨out, w', x', hcall, hdesc, -, -, h⟩ :=
    entrycount_iff hdesc rfl ha (by decide) (fun _ => 0)
    (replicate 8 0) 0 (by decide)
  exact ⟨out, w', x', hcall, hdesc, fun hboth => cons_ne_nil _ _ (h.1 hboth)⟩

/-- One of three entries has been read: two are counted, and none is left. -/
theorem sysFgetattrlist_letters :
    (sysFgetattrlist (oneFile none (some (letters.take 3)) 1) 0 (fun _ => 0) (some countOnly)
      (replicate 8 0) 8 0).map (fun r => (r.2.1, (r.2.2.desc 0).map (·.2.pos),
        (r.2.2.getdents 0 1024).1.1)) = some ([8, 0, 0, 0, 2, 0, 0, 0], some 3, 0) := by
  decide

end Darling.Getattrlist
