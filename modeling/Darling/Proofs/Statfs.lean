import Darling.LastMax
import Darling.Proofs.SimpleReadline
import Darling.Proofs.VchrootGuest
import Darling.Proofs.Xattr
import Darling.Statfs

/-!
# The mount that is reported

The loop over the mount table keeps the last one of the longest lines that the path begins with.
This is the mount that the place is on, unless the path begins with the letters of a longer mount
point that is not above it.  `fstatfs` searches with the guest path.
-/

namespace Darling.Statfs

open CArray Vchroot Readline SimpleReadline List Option

section Arrays

variable {n : ℕ}

theorem spells_strlcpy (dst : Chars (n + 1)) {src : Bytes} (h : 0 ∉ src) :
    Spells 0 (dst.strlcpy src).val (src.take n) := ⟨fun hm => h (mem_of_mem_take hm), _, rfl⟩

theorem spells_clear : ∀ dst : Chars (n + 1), Spells 0 dst.clear.val []
  | ⟨_ :: rest, _⟩ => ⟨not_mem_nil, rest, rfl⟩

end Arrays

section Tokens

variable {a s : Bytes}

/-- What `strtok_r` has still to read. -/
def Left (a : Bytes) (n : ℕ) : Option ℕ → Bytes → Prop
  | none, s => s = []
  | some i, s => n ≤ i ∧ Spells 0 (a.drop i) s

/-- `strtok_r` returns the word `w` and leaves `r`. -/
structure Token (a : Bytes) (n j : ℕ) (a' : Bytes) (saveptr : Option ℕ) (w r : Bytes) : Prop where
  length : a'.length = a.length
  place : n ≤ j
  token : Spells 0 (a'.drop j) w
  left : Left a' (j + w.length + 1) saveptr r
  frame : ∀ i s, i + s.length < n → Spells 0 (a.drop i) s → Spells 0 (a'.drop i) s

variable {u t w : Bytes}

theorem takeWhile_dropWhile {p : Byte → Bool} (hu : ∀ c ∈ u, p c)
    (ht : ∀ c ∈ t.head?, p c = false) : (u ++ t).takeWhile p = u ∧ (u ++ t).dropWhile p = t := by
  rw [takeWhile_append_of_pos hu, dropWhile_append_of_pos hu]
  rcases t with _ | ⟨c, t⟩
  · exact ⟨append_nil _, rfl⟩
  · have hc := ht c rfl
    simp [hc]

theorem skip_blanks {blanks : Bytes} (hb : ∀ c ∈ blanks, c = 32) (ht : t.head? ≠ some 32) :
    (blanks ++ t).takeWhile (· = 32) = blanks ∧ (blanks ++ t).dropWhile (· = 32) = t :=
  takeWhile_dropWhile (fun c hc => decide_eq_true (hb c hc))
    fun _ hc => decide_eq_false fun h => ht (h ▸ hc)

theorem take_word (hw : 32 ∉ w) (ht : t = [] ∨ t.head? = some 32) :
    (w ++ t).takeWhile (· ≠ 32) = w ∧ (w ++ t).dropWhile (· ≠ 32) = t := by
  refine takeWhile_dropWhile (fun c hc => decide_eq_true fun h => hw (h ▸ hc)) fun c hc => ?_
  rcases ht with rfl | ht
  · cases hc
  · cases ht.symm.trans hc
    rfl

theorem head?_word (hw : 32 ∉ w) (hne : w ≠ []) (t : Bytes) : (w ++ t).head? ≠ some 32 := by
  obtain ⟨c, w, rfl⟩ := exists_cons_of_ne_nil hne
  rw [cons_append, head?_cons]
  exact fun h => hw (some.inj h ▸ mem_cons_self)

theorem word_blank (h : ∀ c ∈ s, c = 32) : word s = none := by
  have := (skip_blanks (t := []) h (by simp)).2
  rw [append_nil] at this
  rw [word, this]
  rfl

theorem word_eq {blanks : Bytes} (hb : ∀ c ∈ blanks, c = 32) (hw : 32 ∉ w) (hne : w ≠ [])
    (ht : t = [] ∨ t.head? = some 32) : word (blanks ++ (w ++ t)) = some (w, t.tail) := by
  rw [word, (skip_blanks hb (head?_word hw hne t)).2, (take_word hw ht).1, (take_word hw ht).2]
  exact if_neg (by simp [hne])

theorem word_front (hw : 32 ∉ w) (hne : w ≠ []) (t : Bytes) : word (w ++ 32 :: t) = some (w, t) :=
  word_eq (forall_mem_nil _) hw hne (.inr rfl)

theorem word_cons_blank (s : Bytes) : word (32 :: s) = word s := rfl

theorem word_cases : ∀ s : Bytes, (∀ c ∈ s, c = 32) ∨
    ∃ blanks w t, s = blanks ++ (w ++ t) ∧ (∀ c ∈ blanks, c = 32) ∧ 32 ∉ w ∧ w ≠ [] ∧
      (t = [] ∨ t.head? = some 32)
  | [] => .inl (by simp)
  | c :: s => by
    by_cases hc : c = 32
    · rcases word_cases s with h | ⟨blanks, w, t, rfl, hb, hw⟩
      · exact .inl (forall_mem_cons.2 ⟨hc, h⟩)
      · exact .inr ⟨c :: blanks, w, t, rfl, forall_mem_cons.2 ⟨hc, hb⟩, hw⟩
    · by_cases hs : 32 ∈ s
      · obtain ⟨w, t, rfl, hw⟩ := eq_append_cons_of_mem hs
        exact .inr ⟨[], c :: w, 32 :: t, rfl, by simp, by simp [hw, Ne.symm hc], by simp, .inr rfl⟩
      · exact .inr ⟨[], c :: s, [], by simp, by simp, by simp [hs, Ne.symm hc], by simp, .inl rfl⟩

theorem spells_append (h : Spells 0 u s) : Spells 0 (u ++ t) s := by
  obtain ⟨hs, rest, rfl⟩ := h
  exact ⟨hs, rest ++ t, by rw [append_assoc, cons_append]⟩

theorem spells_of_append (h : Spells 0 (u ++ t) s) (hlen : s.length < u.length) : Spells 0 u s := by
  obtain ⟨hs, rest, heq⟩ := h
  have hwhole : s ++ [0] <+: u ++ t :=
    ⟨rest, by rw [heq, append_assoc, singleton_append]⟩
  have hpre : s ++ [0] <+: u := List.prefix_of_prefix_length_le hwhole (List.prefix_append u t)
    (by rw [length_append, length_singleton]; omega)
  obtain ⟨rest', rfl⟩ := hpre
  exact ⟨hs, rest', by rw [append_assoc, singleton_append]⟩

theorem frame_front {v v' : Bytes} {i : ℕ} (hlen : i + s.length < u.length)
    (h : Spells 0 ((u ++ v).drop i) s) : Spells 0 ((u ++ v').drop i) s := by
  rw [drop_append_of_le_length (by omega)] at h ⊢
  exact spells_append (spells_of_append h (by rw [length_drop]; omega))

theorem strtokR_spec {n : ℕ} {saveptr : Option ℕ} (h : Left a n saveptr s) : match word s with
    | none => strtokR a saveptr = some none
    | some (w, r) => ∃ j a' saveptr', strtokR a saveptr = some (some (j, a', saveptr')) ∧
        Token a n j a' saveptr' w r := by
  rcases saveptr with _ | i
  · obtain rfl : s = [] := h
    rfl
  obtain ⟨hn, hs⟩ := h
  have hstr : str 0 a i = some s := hs.str_zero
  have hi : i ≤ a.length := by
    have := hs.length_lt
    rw [length_drop] at this
    omega
  obtain ⟨u, v, rfl, rfl⟩ : ∃ u v, a = u ++ v ∧ u.length = i :=
    ⟨a.take i, a.drop i, (take_append_drop i a).symm, length_take_of_le hi⟩
  rw [drop_left] at hs
  obtain ⟨hz, rest, rfl⟩ := hs
  rcases word_cases s with hblank | ⟨blanks, w, t, rfl, hb, hw, hne, ht⟩
  · have := skip_blanks (t := []) hblank (by simp)
    rw [append_nil] at this
    rw [word_blank hblank]
    simp [strtokR, hstr, this.2]
  · have hskip := skip_blanks hb (head?_word hw hne t)
    have hlen : u.length + blanks.length = (u ++ blanks).length := length_append.symm
    have hzw : 0 ∉ w := fun h => hz (by simp [h])
    simp only [word_eq hb hw hne ht, strtokR, hstr, bind_eq_bind, bind_some, hskip.1,
      hskip.2, (take_word hw ht).1, if_neg hne, Option.pure_def]
    rcases ht with rfl | ht
    · rw [if_pos (by simp)]
      refine ⟨_, _, _, rfl, rfl, by omega, ?_, rfl, fun _ _ _ h => h⟩
      rw [hlen, append_nil, append_assoc, ← append_assoc u, drop_left]
      exact ⟨hzw, rest, rfl⟩
    · obtain ⟨r, rfl⟩ : ∃ r, t = 32 :: r := by
        rcases t with _ | ⟨c, r⟩
        · cases ht
        · exact ⟨r, by rw [some.inj ht]⟩
      have hstore := store_split (u ++ (blanks ++ w)) (r ++ 0 :: rest) 32 0
      have hsplit : u ++ (blanks ++ (w ++ 32 :: r) ++ 0 :: rest) =
          u ++ (blanks ++ w) ++ 32 :: (r ++ 0 :: rest) := by simp
      have hstop : u.length + blanks.length + w.length = (u ++ (blanks ++ w)).length := by
        simp only [length_append]
        omega
      rw [if_neg (by simp only [length_append, length_cons]; omega), hstop, hsplit,
        hstore, bind_some]
      refine ⟨_, _, _, rfl, by simp, by omega, ?_, ⟨?_, ?_⟩, fun i s hlen h => ?_⟩
      · rw [hlen, ← append_assoc u, append_assoc (u ++ blanks), drop_left]
        exact ⟨hzw, r ++ 0 :: rest, rfl⟩
      · rw [← hstop]
      · rw [← drop_drop, drop_left, drop_one, tail_cons]
        exact ⟨fun h => hz (by simp [show 0 ∈ r from h]), rest, rfl⟩
      · rw [append_assoc] at h ⊢
        exact frame_front (by omega) h

end Tokens

section Scan

structure Scanned (s : Scan) (c : Names) (io : BitVec 32) : Prop where
  len : s.maxLen = c.mnton.length
  shows : s.buf.Shows c.shown
  iosize : s.buf.fIosize = io

theorem scanLine_spec (path : Bytes) {l : Bytes} {s : Scan} {c : Names} {io : BitVec 32}
    (hline : Spells 0 s.line l) (hs : Scanned s c io) :
    ∃ s', scanLine path s = some s' ∧ s'.line.length = s.line.length ∧ s'.rbuf = s.rbuf ∧
      s'.file = s.file ∧ Scanned s' ((entry l).elim c (c.see path)) io := by
  have hstart : Left s.line 0 (some 0) l := ⟨le_rfl, by rwa [drop_zero]⟩
  have first := strtokR_spec hstart
  rcases hfirst : word l with _ | ⟨mntfrom, r⟩
  · rw [hfirst] at first
    exact ⟨s, by simp [scanLine, first], rfl, rfl, rfl, by simpa [entry, hfirst] using hs⟩
  rw [hfirst] at first
  obtain ⟨i, a, saveptr, heq, hfrom⟩ := first
  have second := strtokR_spec hfrom.left
  rcases hsecond : word r with _ | ⟨mnton, r'⟩
  · rw [hsecond] at second
    refine ⟨{ s with line := a }, by simp [scanLine, heq, second], hfrom.length, rfl, rfl, ?_⟩
    simpa [entry, hfirst, hsecond] using ⟨hs.len, hs.shows, hs.iosize⟩
  rw [hsecond] at second
  obtain ⟨j, a', saveptr', heq', hon⟩ := second
  have hstr : str 0 a' j = some mnton := hon.token.str_zero
  have hentry : entry l = some ⟨mntfrom, mnton, (word r').map Prod.fst⟩ := by
    simp [entry, hfirst, hsecond]
  have htest : (¬ path.take mnton.length = mnton ∨ mnton.length < s.maxLen) ↔
      ¬ (mnton <+: path ∧ c.mnton.length ≤ mnton.length) := by
    rw [hs.len, not_and_or, not_le, List.prefix_iff_eq_take, eq_comm]
  rw [hentry, elim_some, Names.see]
  by_cases hskip : mnton <+: path ∧ c.mnton.length ≤ mnton.length
  · have hshown := spells_strlcpy s.buf.fMntonname hon.token.1
    rw [if_pos hskip]
    have third := strtokR_spec hon.left
    rcases hthird : word r' with _ | ⟨fstype, r''⟩
    · rw [hthird] at third
      refine ⟨{ s with line := a', maxLen := mnton.length,
                       buf := { s.buf with fMntonname := s.buf.fMntonname.strlcpy mnton } }, ?_,
        hon.length.trans hfrom.length, rfl, rfl, rfl,
        ⟨hshown, hs.shows.fstype, hs.shows.mntfrom⟩, hs.iosize⟩
      simp [scanLine, heq, heq', hstr, htest, hskip, third]
    · rw [hthird] at third
      obtain ⟨k, a'', saveptr'', heq'', htype⟩ := third
      have hstr' : str 0 a'' k = some fstype := htype.token.str_zero
      have hsource : Spells 0 (a''.drop i) mntfrom :=
        htype.frame _ _ (by have := hon.place; omega)
          (hon.frame _ _ (Nat.lt_succ_self _) hfrom.token)
      have hstr'' : str 0 a'' i = some mntfrom := hsource.str_zero
      refine ⟨{ s with line := a'', maxLen := mnton.length, buf := { s.buf with
                         fMntonname := s.buf.fMntonname.strlcpy mnton
                         fFstypename := s.buf.fFstypename.strlcpy fstype
                         fMntfromname := s.buf.fMntfromname.strlcpy mntfrom } }, ?_,
        htype.length.trans (hon.length.trans hfrom.length), rfl, rfl, rfl,
        ⟨hshown, spells_strlcpy _ htype.token.1, spells_strlcpy _ hfrom.token.1⟩, hs.iosize⟩
      simp [scanLine, heq, heq', heq'', hstr, hstr', hstr'', htest, hskip]
  · rw [if_neg hskip]
    refine ⟨{ s with line := a' }, ?_, hon.length.trans hfrom.length, rfl, rfl, hs.len, hs.shows,
      hs.iosize⟩
    simp [scanLine, heq, heq', hstr, htest, hskip]

theorem scanLoop_spec (path : Bytes) {io : BitVec 32} : ∀ {n : ℕ} {t : Bytes} {s : Scan}
    {c : Names}, Holds s.rbuf s.file t → s.file.Delivers → s.line.length = 512 → Scanned s c io →
    t.length < n → ∃ buf, scanLoop path n s = some buf ∧ buf.fIosize = io ∧
      buf.Shows (((pieces n t).filterMap (entry ∘ Node.cText)).foldl (Names.see path) c).shown
  | n + 1, t, s, c, ht, hf, hlen, hs, hn => by
    obtain ⟨r, ⟨rbuf, file⟩, hcall, hf', hif⟩ :=
      call_text (s := (s.rbuf, s.file)) (fits_of_le hlen.ge t) ht hf
    rw [scanLoop, hcall, pieces]
    by_cases hzero : t.idxOf 10 = 0
    · rw [if_pos hzero] at hif ⊢
      obtain ⟨rfl, -⟩ := hif
      exact ⟨s.buf, rfl, hs.iosize, hs.shows⟩
    · rw [if_neg hzero, hlen] at hif
      rw [if_neg hzero]
      have hpiece : min (512 - 1) (min 512 (t.idxOf 10)) = min 511 (t.idxOf 10) := by omega
      have hdrop : min 512 (t.idxOf 10 + 1) = min 511 (t.idxOf 10) + 1 := by omega
      rw [hpiece, hdrop] at hif
      obtain ⟨rfl, hholds⟩ := hif
      have hidx : t.idxOf 10 ≤ t.length := idxOf_le_length
      set line := t.take (min 511 (t.idxOf 10)) ++ 0 :: s.line.drop (min 511 (t.idxOf 10) + 1)
      have hline : line.length = 512 := by
        simp only [line, length_append, length_take, length_cons, length_drop]
        omega
      have hspells : Spells 0 line (Node.cText (t.take (min 511 (t.idxOf 10)))) :=
        spells_takeWhile _ _
      obtain ⟨s', hscan, hlen', hrbuf, hfile, hs'⟩ :=
        scanLine_spec path (s := { s with line := line, rbuf := rbuf, file := file })
          hspells ⟨hs.len, hs.shows, hs.iosize⟩
      obtain ⟨buf, hloop, hio, hshows⟩ := scanLoop_spec path (n := n)
        (by rw [hrbuf, hfile]; exact hholds) (by rw [hfile]; exact hf') (hlen'.trans hline) hs'
        (by rw [length_drop]; omega)
      refine ⟨buf, ?_, hio, ?_⟩
      · simp [hscan, hloop]
      · rw [filterMap_cons, Function.comp_apply]
        rcases hentry : entry (Node.cText (t.take (min 511 (t.idxOf 10)))) with _ | e <;>
          rwa [hentry] at hshows

theorem findMount_spec {file : Input} (hf : file.Delivers) (fr : Frame) (path : Bytes)
    (clear : BsdStatfs64 → BsdStatfs64) (buf : BsdStatfs64)
    (hclear : (clear buf).Shows ⟨[], [], []⟩) :
    ∃ buf', findMount (.ok file) fr path clear buf = some (0, buf') ∧
      buf'.fIosize = (clear buf).fIosize ∧ buf'.Shows (chosen path (entries file.text)).shown := by
  obtain ⟨buf', hloop, hio, hshows⟩ := scanLoop_spec path
    (s := ⟨fr.line.val, simpleReadlineInit fr.rbuf.val, file, 0, clear buf⟩) (c := ⟨[], [], []⟩)
    (holds_init fr.rbuf.property file) hf fr.line.property ⟨rfl, hclear, rfl⟩ (Nat.lt_succ_self _)
  exact ⟨buf', by simp [findMount, hloop], hio, hshows⟩

theorem shows_clearNames (buf : BsdStatfs64) : buf.clearNames.Shows ⟨[], [], []⟩ :=
  ⟨spells_clear _, spells_clear _, spells_clear _⟩

end Scan

section Calls

variable {ι : Type*} {w : Xattr.System ι} {h : Host} {file : Input} {lbuf : LinuxStatfs64}

/-- What a relative path starts from. -/
def base (w : Xattr.System ι) : ProcLink := if w.wd ≠ -100 then .fd w.wd else .cwd

theorem sysStatfs64_shows {path : Xattr.GuestPath} {q : Bytes}
    (hq : Text.expand w.config w.kernel (base w) false path.bytes = some (0, q))
    (hstat : h.statfs q = .ok lbuf) (hmounts : h.mounts = .ok file) (hf : file.Delivers)
    (st : Xattr.Stack) (fr : Frame) (buf : BsdStatfs64) :
    ∃ buf', sysStatfs64 w h st fr path.bytes buf = some (0, buf') ∧
      buf'.fIosize = buf.fIosize ∧ buf'.Shows (chosen q (entries file.text)).shown := by
  have hrel := Xattr.expand_rel w st path true
  rw [Bool.not_true, ← base, hq] at hrel
  obtain ⟨⟨_, out⟩, hout, rfl, hsp⟩ := exists_of_rel' hrel
  obtain ⟨buf', hfind, hio, hshows⟩ :=
    findMount_spec hf fr q _ _ (shows_clearNames (statfsLinuxToBsd64 lbuf buf))
  refine ⟨buf', ?_, hio, hshows⟩
  simp [sysStatfs64, hout, hsp.str_zero, hstat, hmounts, hfind]

theorem fdpath_too_long (st : Xattr.Stack) {args : FdpathArgs} {V : Config} {k : Kernel} {t : Bytes}
    (hlink : k.procLink (.fd args.fd) = .ok t) (hlen : t.length < pathMax)
    (hmax : args.maxlen = 1024) (hlong : 1024 ≤ (Text.guestPath V t).length) :
    vchrootFdpath V k st.junk args = some (fail enametoolong, args.path) := by
  have hroom : args.room = 1023 := by rw [FdpathArgs.room, hmax]; decide
  rw [vchrootFdpath_eq st.junk_length hlink hlen, hroom, hmax]
  unfold Text.guestPath at hlong
  by_cases hpre : V.prefixPath <+: t
  · rw [if_pos hpre] at hlong ⊢
    split_ifs at hlong with hnil
    · exact absurd hlong (by decide)
    · rw [length_drop] at hlong
      rw [if_pos (by omega)]
  · rw [if_neg hpre, length_append] at hlong
    rw [if_neg hpre, if_pos (by omega)]

theorem sysFstatfs64_shows {fd : ℤ} {t : Bytes} (hstat : h.fstatfs fd = .ok lbuf)
    (hlink : w.kernel.procLink (.fd fd) = .ok t) (hlen : t.length < pathMax)
    (hmounts : h.mounts = .ok file) (hf : file.Delivers) (st : Xattr.Stack) (fr : Frame)
    (buf : BsdStatfs64) :
    if (Text.guestPath w.config t).length < 1024 then
      ∃ buf', sysFstatfs64 w h st fr fd buf = some (0, buf') ∧ buf'.fIosize = 512 ∧
        buf'.Shows (chosen (Text.guestPath w.config t) (entries file.text)).shown
    else ∃ buf', sysFstatfs64 w h st fr fd buf = some (fail enametoolong, buf') := by
  have hlink' : w.kernel.procLink (.fd (FdpathArgs.mk fd fr.path.val 1024).fd) = .ok t := hlink
  by_cases hfit : (Text.guestPath w.config t).length < 1024
  · rw [if_pos hfit]
    obtain ⟨out, hfd, hsp⟩ := vchrootFdpath_spec st.junk_length hlink' hlen hfit
      fr.path.property.ge (show 1024 < 2 ^ 64 by decide)
    obtain ⟨buf', hfind, hio, hshows⟩ := findMount_spec hf fr (Text.guestPath w.config t)
      (fun buf => { buf.clearNames with fIosize := 512 }) (statfsLinuxToBsd64 lbuf buf)
      ⟨spells_clear _, spells_clear _, spells_clear _⟩
    refine ⟨buf', ?_, hio, hshows⟩
    simp only [sysFstatfs64, hstat, hfd, bind_eq_bind, bind_some, lt_irrefl, if_false,
      hsp.str_zero, hmounts, hfind]
  · rw [if_neg hfit]
    have hfd := fdpath_too_long st hlink' hlen rfl (not_lt.1 hfit)
    have hneg : fail enametoolong < 0 := by decide
    refine ⟨statfsLinuxToBsd64 lbuf buf, ?_⟩
    simp only [sysFstatfs64, hstat, hfd, bind_eq_bind, bind_some, if_pos hneg, Option.pure_def]

end Calls

section Table

variable {ms : List Mount} {m m' : Mount} {cs : List Bytes} {q : Bytes}

theorem plain_absolute (h : ∀ c ∈ cs, Plain c) : Plain (absolute cs) := by
  have hrender : ∀ x ∈ render cs, x ≠ slash → ∃ c ∈ cs, x ∈ c := by
    intro x hx hne
    obtain ⟨c, hc, hxc⟩ := mem_flatMap.1 hx
    exact ⟨c, hc, (mem_cons.1 hxc).resolve_left hne⟩
  by_cases hnil : cs = []
  · subst hnil
    exact ⟨by decide, by decide, by decide⟩
  · rw [absolute_of_ne_nil hnil]
    refine ⟨fun hx => ?_, fun hx => ?_, fun hx => ?_⟩ <;>
      obtain ⟨c, hc, hxc⟩ := hrender _ hx (by decide)
    · exact (h c hc).1 hxc
    · exact (h c hc).2.1 hxc
    · exact (h c hc).2.2 hxc

theorem absolute_ne_nil (cs : List Bytes) : absolute cs ≠ [] := fun h => by
  simpa [h] using absolute_head? cs

theorem line_plain (m : Mount) : 10 ∉ m.line ∧ 0 ∉ m.line := by
  have hpoint := plain_absolute m.point_plain
  have hsource := m.source_plain
  have hfstype := m.fstype_plain
  have hrest := m.rest_plain
  simp only [Plain] at hpoint hsource hfstype
  simp [Mount.line, hpoint, hsource, hfstype, hrest]

theorem line_ne_nil (m : Mount) : m.line ≠ [] := by simp [Mount.line]

theorem pieces_table : ∀ {ms : List Mount} {n : ℕ}, (∀ m ∈ ms, m.line.length ≤ 511) →
    ms.length ≤ n → pieces n (tableText ms) = ms.map Mount.line
  | [], 0, _, _ => rfl
  | [], n + 1, _, _ => by simp [pieces, tableText]
  | m :: ms, n + 1, hlen, hn => by
    obtain ⟨hm, hms⟩ := forall_mem_cons.1 hlen
    have htext : tableText (m :: ms) = m.line ++ 10 :: tableText ms := by
      rw [tableText, flatMap_cons, append_assoc, singleton_append, ← tableText]
    have hidx : (tableText (m :: ms)).idxOf 10 = m.line.length := by
      rw [htext, idxOf_append_of_notMem (line_plain m).1, idxOf_cons_self, Nat.add_zero]
    rw [pieces, hidx, if_neg (by simpa using line_ne_nil m), min_eq_right hm, htext, take_left,
      ← drop_drop, drop_left, drop_one, tail_cons,
      pieces_table hms (Nat.le_of_succ_le_succ hn), map_cons]

theorem entry_line (m : Mount) : entry m.line =
    some (if m.source = [] then ⟨absolute m.point, m.fstype, (word m.rest).map Prod.fst⟩
      else ⟨m.source, absolute m.point, some m.fstype⟩) := by
  have hpoint (t : Bytes) :=
    word_front (plain_absolute m.point_plain).1 (absolute_ne_nil m.point) t
  have hfstype (t : Bytes) := word_front m.fstype_plain.1 m.fstype_ne t
  by_cases hsource : m.source = []
  · simp [entry, Mount.line, hsource, word_cons_blank, hpoint, hfstype]
  · simp [entry, Mount.line, hsource, word_front m.source_plain.1 hsource, hpoint, hfstype]

def Mount.full (m : Mount) : Names := ⟨absolute m.point, m.fstype, m.source⟩

theorem see_line (hq : q.head? = some slash) (c : Names) (m : Mount) :
    (entry m.line).elim c (c.see q) = if (m.source ≠ [] ∧ absolute m.point <+: q) ∧
      c.mnton.length ≤ (absolute m.point).length then m.full else c := by
  rw [entry_line, elim_some, Names.see]
  by_cases hsource : m.source = []
  · have hnot : ¬ m.fstype <+: q := by
      rintro ⟨r, rfl⟩
      rw [head?_append_of_ne_nil _ m.fstype_ne] at hq
      exact m.fstype_head hq
    rw [if_pos hsource, if_neg fun h => hnot h.1, if_neg fun h => h.1.1 hsource]
  · rw [if_neg hsource]
    exact if_congr (by simp [hsource]) rfl rfl

theorem length_le_tableText : ∀ ms : List Mount, ms.length ≤ (tableText ms).length
  | [] => le_rfl
  | m :: ms => by
    have := length_le_tableText ms
    simp only [tableText, flatMap_cons, length_append, length_cons] at this ⊢
    omega

theorem entries_table (hlen : ∀ m ∈ ms, m.line.length ≤ 511) :
    entries (tableText ms) = ms.filterMap (entry ∘ Mount.line) := by
  have hc (m : Mount) : Node.cText m.line = m.line := takeWhile_eq_self_iff.2 fun c hc =>
    decide_eq_true fun h => (line_plain m).2 (h ▸ hc)
  rw [entries, pieces_table hlen ((length_le_tableText ms).trans (Nat.le_succ _)), filterMap_map]
  exact filterMap_congr fun m _ => by rw [Function.comp_apply, Function.comp_apply, hc]; rfl

theorem chosen_table (hq : q.head? = some slash) (hlen : ∀ m ∈ ms, m.line.length ≤ 511) :
    (∃ m, IsLastMax (fun m : Mount => m.source ≠ [] ∧ absolute m.point <+: q)
      (fun m => (absolute m.point).length) ms m ∧
      chosen q (entries (tableText ms)) = m.full) ∨
    (∀ m ∈ ms, ¬ (m.source ≠ [] ∧ absolute m.point <+: q)) ∧
      chosen q (entries (tableText ms)) = ⟨[], [], []⟩ := by
  have hfold : chosen q (entries (tableText ms)) =
      ms.foldl (fun c m => if (m.source ≠ [] ∧ absolute m.point <+: q) ∧
        c.mnton.length ≤ (absolute m.point).length then m.full else c) ⟨[], [], []⟩ := by
    rw [entries_table hlen, chosen, foldl_filterMap]
    congr 1
    funext c m
    rw [← see_line hq c m, Function.comp_apply]
    rcases entry m.line with _ | e <;> rfl
  rw [hfold]
  refine foldl_lastMax (g := fun c : Names => c.mnton.length) (h := Mount.full) (fun _ => rfl) ?_ ms
  rfl

theorem full_shown (hlen : m.line.length ≤ 511) : m.full.shown = m.names := by
  simp only [Mount.line, length_append, length_cons] at hlen
  have hpoint : (absolute m.point).take 1023 = absolute m.point :=
    take_of_length_le (by omega)
  have hsource : m.source.take 1023 = m.source := take_of_length_le (by omega)
  simp [Names.shown, Mount.names, Mount.full, hpoint, hsource]

theorem BsdStatfs64.Shows.unique {buf : BsdStatfs64} {c c' : Names} (h : buf.Shows c)
    (h' : buf.Shows c') : c = c' :=
  Names.ext (h.mnton.unique h'.mnton) (h.fstype.unique h'.fstype) (h.mntfrom.unique h'.mntfrom)

theorem components_absolute (h : ∀ c ∈ cs, c ≠ [] ∧ slash ∉ c) : components (absolute cs) = cs := by
  by_cases hnil : cs = []
  · subst hnil
    decide
  · rw [absolute_of_ne_nil hnil, components_render h]

theorem absolute_prefix {ds : List Bytes} (h : cs <+: ds) : absolute cs <+: absolute ds := by
  obtain ⟨es, rfl⟩ := h
  by_cases hnil : cs = []
  · subst hnil
    rcases es with _ | ⟨e, es⟩
    · exact ⟨[], rfl⟩
    · exact ⟨_, rfl⟩
  · rw [absolute_of_ne_nil hnil, absolute_of_ne_nil (by simp [hnil]), render_append]
    exact List.prefix_append _ _

theorem point_eq (h : absolute m.point <+: q) (h' : absolute m'.point <+: q)
    (hlen : (absolute m.point).length = (absolute m'.point).length) : m.point = m'.point := by
  have heq := (List.prefix_of_prefix_length_le h h' hlen.le).eq_of_length hlen
  rw [← components_absolute m.point_names, heq, components_absolute m'.point_names]

end Table

section Chosen

variable {path path' : Bytes} {es : List Entry} {c : Names} {e : Entry}

theorem foldl_see_of_lt : ∀ {es : List Entry}, (∀ x ∈ es, x.mnton <+: path →
    x.mnton.length < c.mnton.length) → es.foldl (Names.see path) c = c
  | [], _ => rfl
  | e :: es, h => by
    obtain ⟨he, hes⟩ := forall_mem_cons.1 h
    rw [foldl_cons, Names.see, if_neg fun hx => (he hx.1).not_ge hx.2, foldl_see_of_lt hes]

theorem see_mnton (path : Bytes) (c : Names) (e : Entry) : (c.see path e).mnton =
    if e.mnton <+: path ∧ c.mnton.length ≤ e.mnton.length then e.mnton else c.mnton := by
  rw [Names.see]
  split_ifs
  · cases e.fstype <;> rfl
  · rfl

/-- What the loop keeps is a mount point the path begins with, no longer than the longest. -/
theorem foldl_see_bound {n : ℕ} : ∀ {es : List Entry} {c : Names}, c.mnton <+: path →
    c.mnton.length ≤ n → (∀ x ∈ es, x.mnton <+: path → x.mnton.length ≤ n) →
    (es.foldl (Names.see path) c).mnton <+: path ∧
      (es.foldl (Names.see path) c).mnton.length ≤ n
  | [], _, hc, hn, _ => ⟨hc, hn⟩
  | e :: es, c, hc, hn, h => by
    obtain ⟨he, hes⟩ := forall_mem_cons.1 h
    rw [foldl_cons]
    refine foldl_see_bound ?_ ?_ hes <;> rw [see_mnton] <;> split_ifs with hx
    · exact hx.1
    · exact hc
    · exact he hx.1
    · exact hn

/-- The last one of the longest lines that the path begins with. -/
def Longest (path : Bytes) (es : List Entry) (e : Entry) : Prop :=
  IsLastMax (fun e : Entry => e.mnton <+: path) (fun e => e.mnton.length) es e

theorem chosen_mnton_prefix (path : Bytes) (es : List Entry) : (chosen path es).mnton <+: path :=
  (foldl_see_bound List.nil_prefix (Nat.zero_le _) fun _ _ h => h.length_le).1

theorem chosen_longest (h : Longest path es e) : (chosen path es).mnton = e.mnton ∧
    ∀ fstype, e.fstype = some fstype → chosen path es = ⟨e.mnton, fstype, e.mntfrom⟩ := by
  obtain ⟨pre, post, rfl, he, hpre, hpost⟩ := h
  have hbound := (foldl_see_bound (c := ⟨[], [], []⟩) List.nil_prefix (Nat.zero_le _) hpre).2
  have hsee := see_mnton path (pre.foldl (Names.see path) ⟨[], [], []⟩) e
  rw [if_pos ⟨he, hbound⟩] at hsee
  rw [chosen, foldl_append, foldl_cons, foldl_see_of_lt (by rwa [hsee])]
  refine ⟨hsee, fun fstype htype => ?_⟩
  rw [Names.see, if_pos ⟨he, hbound⟩, htype]

theorem exists_longest (he : e ∈ es) (hp : e.mnton <+: path) : ∃ m, Longest path es m :=
  IsLastMax.exists_of_mem (fun e : Entry => e.mnton.length) he hp

theorem covered_of_mnton_eq (h : (chosen path es).mnton = (chosen path' es).mnton) :
    Covered es path path' := by
  intro e he hp hp'
  obtain ⟨m, hm⟩ := exists_longest he hp
  have hcommon : m.mnton <+: path' := by
    rw [← (chosen_longest hm).1, h]
    exact chosen_mnton_prefix path' es
  refine ⟨m, hm.mem, hm.eligible, hcommon, lt_of_le_of_ne (hm.le he hp) fun hlen => hp' ?_⟩
  rw [(List.prefix_of_prefix_length_le hp hm.eligible hlen.le).eq_of_length hlen]
  exact hcommon

theorem Longest.of_covered (hm : Longest path es e) (h : Covered es path path')
    (h' : Covered es path' path) : e.mnton <+: path' ∧ Longest path' es e := by
  have he : e.mnton <+: path' := by
    by_contra hne
    obtain ⟨e', he', hp, -, hlt⟩ := h e hm.mem hm.eligible hne
    exact absurd hlt (hm.le he' hp).not_gt
  refine ⟨he, hm.of_eligible he (fun x hx hp' => ?_) fun x hp' hlen => ?_⟩
  · by_cases hp : x.mnton <+: path
    · exact hm.le hx hp
    · obtain ⟨e', he', -, hp, hlt⟩ := h' x hx hp' hp
      exact hlt.le.trans (hm.le he' hp)
  · rw [(List.prefix_of_prefix_length_le hp' he hlen.le).eq_of_length hlen]
    exact hm.eligible

theorem chosen_eq_of_covered (h : Covered es path path') (h' : Covered es path' path)
    (htyped : ∀ e, Longest path es e → Longest path' es e → e.fstype ≠ none) :
    chosen path es = chosen path' es := by
  by_cases hnone : ∀ e ∈ es, ¬ e.mnton <+: path
  · have hnone' : ∀ e ∈ es, ¬ e.mnton <+: path' := fun e he hp' => by
      obtain ⟨e', he', -, hp, -⟩ := h' e he hp' (hnone e he)
      exact hnone e' he' hp
    rw [chosen, chosen, foldl_see_of_lt fun x hx hp => absurd hp (hnone x hx),
      foldl_see_of_lt fun x hx hp => absurd hp (hnone' x hx)]
  · simp only [not_forall, not_not] at hnone
    obtain ⟨e, he, hp⟩ := hnone
    obtain ⟨m, hm⟩ := exists_longest he hp
    have hm' := (hm.of_covered h h').2
    obtain ⟨fstype, htype⟩ := ne_none_iff_exists'.1 (htyped m hm hm')
    rw [(chosen_longest hm).2 fstype htype, (chosen_longest hm').2 fstype htype]

theorem word_length {s w r : Bytes} (h : word s = some (w, r)) :
    w.length ≤ s.length ∧ r.length ≤ s.length := by
  simp only [word] at h
  split_ifs at h
  obtain ⟨rfl, rfl⟩ := Prod.mk.inj (some.inj h)
  have hdrop := (List.dropWhile_suffix (fun c : Byte => decide (c = 32)) (l := s)).length_le
  refine ⟨(List.takeWhile_prefix _).length_le.trans hdrop, ?_⟩
  exact ((List.tail_suffix _).trans (List.dropWhile_suffix _)).length_le.trans hdrop

theorem mem_pieces {l : Bytes} : ∀ {n : ℕ} {t : Bytes}, l ∈ pieces n t → l.length ≤ 511
  | n + 1, t, h => by
    rw [pieces] at h
    split_ifs at h
    · cases h
    rcases mem_cons.1 h with rfl | h
    · rw [length_take]
      omega
    · exact mem_pieces h

theorem mnton_length {text : Bytes} (he : e ∈ entries text) : e.mnton.length ≤ 511 := by
  obtain ⟨l, hl, hentry⟩ := mem_filterMap.1 he
  have hlen : (Node.cText l).length ≤ 511 :=
    (List.takeWhile_prefix _).length_le.trans (mem_pieces hl)
  unfold entry at hentry
  obtain ⟨⟨w, r⟩, hw, hentry⟩ := bind_eq_some_iff.1 hentry
  obtain ⟨⟨w', r'⟩, hw', hentry⟩ := bind_eq_some_iff.1 hentry
  obtain rfl := some.inj hentry
  exact (word_length hw').1.trans ((word_length hw).2.trans hlen)

theorem shown_mnton (path text : Bytes) : (chosen path (entries text)).shown.mnton =
    (chosen path (entries text)).mnton := by
  have hlen : (chosen path (entries text)).mnton.length ≤ 511 :=
    (foldl_see_bound List.nil_prefix (Nat.zero_le 511) fun x hx _ => mnton_length hx).2
  exact take_of_length_le (hlen.trans (by decide))

end Chosen

section Main

variable {ι : Type*} {w : Xattr.System ι} {fs : Node} {P : List Bytes} {h : Host}

/-- The names that are reported are those of the mount that the place is on, the last one of those
with the longest mount point, exactly if that mount has a source and no other mount with one has a
longer path that the host path begins with, as a text. -/
theorem statfs_mount_iff (hP : PrefixDir w.config fs P) {path : Xattr.GuestPath}
    (hbase : path.bytes.head? ≠ some slash → BaseDir w.kernel fs (base w)) {q : Bytes}
    (hq : Text.expand w.config w.kernel (base w) false path.bytes = some (0, q))
    {lbuf : LinuxStatfs64} (hstat : h.statfs q = .ok lbuf) {file : Input}
    (hmounts : h.mounts = .ok file) (hf : file.Delivers) {root : Mount} {ms : List Mount}
    (hroot : root.point = []) (htext : file.text = tableText (root :: ms))
    (hlen : ∀ m ∈ root :: ms, m.line.length ≤ 510) (st : Xattr.Stack) (fr : Frame)
    (buf : BsdStatfs64) :
    ∃ m buf', IsLastMax (fun m : Mount => m.point <+: components q)
        (fun m => (absolute m.point).length) (root :: ms) m ∧
      sysStatfs64 w h st fr path.bytes buf = some (0, buf') ∧
      (buf'.Shows m.names ↔ m.source ≠ [] ∧ ∀ m' ∈ root :: ms, m'.source ≠ [] →
        absolute m'.point <+: q → (absolute m'.point).length ≤ (absolute m.point).length) := by
  obtain ⟨buf', hret, -, hshows⟩ := sysStatfs64_shows hq hstat hmounts hf st fr buf
  obtain ⟨ds, hds, rfl⟩ := Text.expand_rendered hP hbase path.nul_notMem hq
  have hlen' : ∀ m ∈ root :: ms, m.line.length ≤ 511 := fun m hm => (hlen m hm).trans (by decide)
  rw [htext] at hshows
  rw [components_absolute (IsName.text hds)]
  obtain ⟨m, hm⟩ := IsLastMax.exists_of_mem (p := fun m : Mount => m.point <+: ds)
    (fun m : Mount => (absolute m.point).length) (mem_cons_self)
    (hroot ▸ List.nil_prefix)
  have hprefix := absolute_prefix hm.eligible
  refine ⟨m, buf', hm, hret, ?_⟩
  rcases chosen_table (absolute_head? ds) hlen' with ⟨m₁, hm₁, hchosen⟩ | ⟨hnone, hchosen⟩
  · rw [hchosen, full_shown (hlen' m₁ hm₁.mem)] at hshows
    constructor
    · intro hnames
      have heq := hnames.unique hshows
      have hsource : m.source = m₁.source := congrArg Names.mntfrom heq
      have hpoint : absolute m.point = absolute m₁.point := congrArg Names.mnton heq
      rw [hsource, hpoint]
      exact ⟨hm₁.eligible.1, fun m' hm' hs hp => hm₁.le hm' ⟨hs, hp⟩⟩
    · rintro ⟨hsource, hlongest⟩
      have hlast : IsLastMax (fun m : Mount => m.source ≠ [] ∧ absolute m.point <+: absolute ds)
          (fun m => (absolute m.point).length) (root :: ms) m :=
        hm.of_eligible ⟨hsource, hprefix⟩ (fun m' hm' hp => hlongest m' hm' hp.1 hp.2)
          fun m' hp heq => point_eq hp.2 hprefix heq ▸ hm.eligible
      rw [hlast.unique hm₁]
      exact hshows
  · rw [hchosen] at hshows
    refine iff_of_false (fun hnames => ?_) fun hcond => hnone m hm.mem ⟨hcond.1, hprefix⟩
    exact absolute_ne_nil m.point (congrArg Names.mnton (hnames.unique hshows))

/-- The two report the same exactly if the caller of `statfs` had put 512 into `f_iosize`, the guest
path of the descriptor fits its array, and every mount point that only one of the two paths begins
with is shorter than one that both begin with; the line that is then reported has a type. -/
theorem statfs_fstatfs_iff {path : Xattr.GuestPath} {q : Bytes}
    (hq : Text.expand w.config w.kernel (base w) false path.bytes = some (0, q)) {h h' : Host}
    {lbuf lbuf' : LinuxStatfs64} (hstat : h.statfs q = .ok lbuf) {fd : ℤ}
    (hfstat : h'.fstatfs fd = .ok lbuf') {t : Bytes} (hlink : w.kernel.procLink (.fd fd) = .ok t)
    (hlen : t.length < pathMax) {file file' : Input} (hmounts : h.mounts = .ok file)
    (hmounts' : h'.mounts = .ok file') (hf : file.Delivers) (hf' : file'.Delivers)
    (htext : file.text = file'.text)
    (htyped : ∀ e, Longest q (entries file.text) e →
      Longest (Text.guestPath w.config t) (entries file.text) e → e.fstype ≠ none)
    (st st' : Xattr.Stack) (fr fr' : Frame) (buf buf' : BsdStatfs64) :
    SameReport (sysStatfs64 w h st fr path.bytes buf) (sysFstatfs64 w h' st' fr' fd buf') ↔
      buf.fIosize = 512 ∧ (Text.guestPath w.config t).length < 1024 ∧
        Covered (entries file.text) q (Text.guestPath w.config t) ∧
        Covered (entries file.text) (Text.guestPath w.config t) q := by
  obtain ⟨b, hret, hio, hshows⟩ := sysStatfs64_shows hq hstat hmounts hf st fr buf
  have hguest := sysFstatfs64_shows hfstat hlink hlen hmounts' hf' st' fr' buf'
  by_cases hfit : (Text.guestPath w.config t).length < 1024
  · rw [if_pos hfit, ← htext] at hguest
    obtain ⟨b', hret', hio', hshows'⟩ := hguest
    constructor
    · rintro ⟨b₁, b₁', c, h₁, h₁', hsame, hc, hc'⟩
      cases hret.symm.trans h₁
      cases hret'.symm.trans h₁'
      have hmnton := congrArg Names.mnton ((hshows.unique hc).trans (hc'.unique hshows'))
      rw [shown_mnton, shown_mnton] at hmnton
      exact ⟨by rw [← hio, hsame, hio'], hfit, covered_of_mnton_eq hmnton,
        covered_of_mnton_eq hmnton.symm⟩
    · rintro ⟨hiosize, -, hcov, hcov'⟩
      have hsame := chosen_eq_of_covered hcov hcov' htyped
      exact ⟨b, b', _, hret, hret', by rw [hio, hio', hiosize], hshows, hsame ▸ hshows'⟩
  · rw [if_neg hfit] at hguest
    obtain ⟨b', hret'⟩ := hguest
    refine iff_of_false ?_ fun hcond => hfit hcond.2.1
    rintro ⟨b₁, b₁', c, -, h₁', -⟩
    cases hret'.symm.trans h₁'

end Main

section Sample

def sampleSystem : Xattr.System Unit where
  config := sampleConfig
  kernel := (Node.dir [([112], .dir [([97, 98], .file)])]).kernel fun _ => .ok [47, 112, 47, 97, 98]
  wd := -100
  lookup _ _ := .ok ()
  errnos := id

def samplePath : Xattr.GuestPath := ⟨[47, 97, 98], by decide, by decide⟩

def sampleStack : Xattr.Stack := ⟨zeros, zeros, zeros_length, zeros_length⟩

def blank (n : ℕ) : Chars n := ⟨List.replicate n 0, length_replicate⟩

def sampleFrame : Frame := ⟨blank 512, blank 512, blank 1024⟩

def sampleStat : LinuxStatfs64 := ⟨0, 0, 0, 0, 0, 0, 0, 0, 0⟩

def sampleBuf : BsdStatfs64 :=
  ⟨0, 512, 0, 0, 0, 0, 0, 0, 0, 0, blank 16, blank 1024, blank 1024⟩

def sampleMount (point : List Bytes) (hnames : ∀ c ∈ point, c ≠ [] ∧ slash ∉ c)
    (hplain : ∀ c ∈ point, Plain c) : Mount where
  source := [120]
  point := point
  fstype := [116]
  rest := []
  source_plain := by decide
  point_names := hnames
  point_plain := hplain
  fstype_plain := by decide
  fstype_ne := by decide
  fstype_head := by decide
  rest_plain := by decide

def sampleRoot : Mount := sampleMount [] (by simp) (by simp)

def sampleBeside : Mount := sampleMount [[112], [97]] (by decide) (by decide)

def samplePrefix : Mount := sampleMount [[112]] (by decide) (by decide)

def sampleHost (ms : List Mount) : Host where
  statfs _ := .ok sampleStat
  fstatfs _ := .ok sampleStat
  mounts := .ok ⟨tableText ms, []⟩

theorem samplePath_expand : Text.expand sampleSystem.config sampleSystem.kernel (base sampleSystem)
    false samplePath.bytes = some (0, [47, 112, 47, 97, 98]) := by
  decide

theorem samplePrefixDir : PrefixDir sampleSystem.config
    (.dir [([112], .dir [([97, 98], .file)])]) [[112]] := ⟨by decide, rfl, _, rfl⟩

theorem statfs_mount_prefix : ∃ m buf', IsLastMax
      (fun m : Mount => m.point <+: components [47, 112, 47, 97, 98])
      (fun m => (absolute m.point).length) [sampleRoot, samplePrefix] m ∧
    sysStatfs64 sampleSystem (sampleHost [sampleRoot, samplePrefix]) sampleStack sampleFrame
      samplePath.bytes sampleBuf = some (0, buf') ∧
    (buf'.Shows m.names ↔ m.source ≠ [] ∧ ∀ m' ∈ [sampleRoot, samplePrefix], m'.source ≠ [] →
      absolute m'.point <+: [47, 112, 47, 97, 98] →
        (absolute m'.point).length ≤ (absolute m.point).length) :=
  statfs_mount_iff samplePrefixDir (fun h => absurd rfl h) samplePath_expand rfl rfl
    (fun _ => not_mem_nil) rfl rfl (by decide) sampleStack sampleFrame sampleBuf

/-- The mount at `/p/a` is reported for `/p/ab`, which is on the root. -/
theorem statfs_mount_beside : IsLastMax
      (fun m : Mount => m.point <+: components [47, 112, 47, 97, 98])
      (fun m => (absolute m.point).length) [sampleRoot, sampleBeside] sampleRoot ∧
    ¬ ∃ buf', sysStatfs64 sampleSystem (sampleHost [sampleRoot, sampleBeside]) sampleStack
      sampleFrame samplePath.bytes sampleBuf = some (0, buf') ∧ buf'.Shows sampleRoot.names := by
  constructor
  · refine ⟨[], [sampleBeside], rfl, List.nil_prefix, by simp, fun m hm hp => ?_⟩
    obtain rfl := mem_singleton.1 hm
    exact absurd hp (by decide)
  · rintro ⟨buf', hret, hnames⟩
    obtain ⟨b, hret', -, hshows⟩ := sysStatfs64_shows
      (h := sampleHost [sampleRoot, sampleBeside]) samplePath_expand rfl rfl
      (fun _ => not_mem_nil) sampleStack sampleFrame sampleBuf
    cases hret.symm.trans hret'
    exact absurd (hshows.unique hnames) (by decide)

theorem statfs_fstatfs_root :
    SameReport (sysStatfs64 sampleSystem (sampleHost [sampleRoot]) sampleStack sampleFrame
        samplePath.bytes sampleBuf)
      (sysFstatfs64 sampleSystem (sampleHost [sampleRoot]) sampleStack sampleFrame 3 sampleBuf) :=
  have htyped : ∀ e ∈ entries (tableText [sampleRoot]), e.fstype ≠ none := by decide
  have hmounts : (sampleHost [sampleRoot]).mounts = .ok ⟨tableText [sampleRoot], []⟩ := rfl
  (statfs_fstatfs_iff samplePath_expand rfl rfl rfl (by decide) hmounts hmounts
    (fun _ => not_mem_nil) (fun _ => not_mem_nil) rfl (fun e he _ => htyped e he.mem) sampleStack
    sampleStack sampleFrame sampleFrame sampleBuf sampleBuf).2
    ⟨rfl, by decide, by unfold Covered; decide, by unfold Covered; decide⟩

/-- With a file system mounted at the prefix, which the guest path `/ab` does not begin with. -/
theorem statfs_fstatfs_prefix :
    ¬ SameReport (sysStatfs64 sampleSystem (sampleHost [sampleRoot, samplePrefix]) sampleStack
        sampleFrame samplePath.bytes sampleBuf)
      (sysFstatfs64 sampleSystem (sampleHost [sampleRoot, samplePrefix]) sampleStack sampleFrame 3
        sampleBuf) := by
  rintro ⟨b, b', c, hret, hret', -, hc, hc'⟩
  obtain ⟨b₁, h₁, -, hshows⟩ := sysStatfs64_shows
    (h := sampleHost [sampleRoot, samplePrefix]) samplePath_expand rfl rfl
    (fun _ => not_mem_nil) sampleStack sampleFrame sampleBuf
  have hlink : sampleSystem.kernel.procLink (.fd 3) = .ok [47, 112, 47, 97, 98] := rfl
  obtain ⟨b₂, h₂, -, hshows'⟩ := sysFstatfs64_shows
    (h := sampleHost [sampleRoot, samplePrefix]) rfl hlink (by decide) rfl
    (fun _ => not_mem_nil) sampleStack sampleFrame sampleBuf
  cases hret.symm.trans h₁
  cases hret'.symm.trans h₂
  exact absurd ((hshows.unique hc).trans (hc'.unique hshows')) (by decide)

end Sample

end Darling.Statfs
