import Darling.Duct
import Darling.Proofs.Cells
import Darling.Proofs.Endian
import Darling.Proofs.VchrootGuest
import Darling.Proofs.Xattr

/-!
# Addresses in and out of the vchroot
-/

namespace Darling.Duct

open CArray Cells Vchroot List Option
open Text (guestPath)
open Xattr (sampleStack sampleSystem)

def sunPath (p : Bytes) : Bytes := p.take 103 ++ (List.replicate (103 - p.length) 0 ++ [0])

theorem exists_sunPath_eq (p : Bytes) : ∃ r : Bytes, sunPath p = p.take 103 ++ 0 :: r := by
  rcases h : 103 - p.length with _ | n
  · exact ⟨[], by simp [sunPath, h]⟩
  · exact ⟨replicate n 0 ++ [0], by simp [sunPath, h, replicate_succ]⟩

variable {p : Bytes}

theorem readStr_sunPath (hp : 0 ∉ p) {h w : List (Option Byte)} (hh : h.length = 2) :
    readStr 0 (h ++ ((sunPath p).map some ++ w)) 2 = some (p.take 103) := by
  have hz : 0 ∉ p.take 103 := fun hm => hp (mem_of_mem_take hm)
  obtain ⟨r, hr⟩ := exists_sunPath_eq p
  have := readStr_split hz h (r.map some ++ w)
  rw [hh] at this
  rw [hr]
  simpa using this

theorem store_sunPath (p : Bytes) {h v w : List (Option Byte)} (hh : h.length = 2)
    (hv : v.length = 104) : ∃ out, writeStrn 0 (h ++ (v ++ w)) 2 p (sunPathSize - 1) = some out ∧
      writeAt out (2 + sunPathSize - 1) [0] = some (h ++ ((sunPath p).map some ++ w)) := by
  let q := p.take 103 ++ replicate (103 - p.length) (0 : Byte)
  have hq : q.length = 103 := by
    simp only [q, length_append, length_take, length_replicate]
    omega
  have hsplit : v = v.take 103 ++ v.drop 103 := (take_append_drop 103 v).symm
  have htake : (v.take 103).length = 103 := by rw [length_take, hv]; rfl
  have hdrop : (v.drop 103).length = 1 := by rw [length_drop, hv]
  have h₁ := writeAt_split (by rw [hq, htake]) h (v.drop 103 ++ w)
  have h₂ := writeAt_split (s := [(0 : Byte)]) (by rw [hdrop]; rfl)
    (h ++ q.map some) w
  rw [← append_assoc (v.take 103), ← hsplit, hh] at h₁
  refine ⟨_, h₁, ?_⟩
  rw [append_assoc, length_append, hh, length_map, hq] at h₂
  refine h₂.trans ?_
  simp [sunPath, q, append_assoc]

theorem store_sunPath_outside (p : Bytes) {a out : List (Option Byte)} (ha : a.length < 106)
    (h : writeStrn 0 a 2 p (sunPathSize - 1) = some out) :
    writeAt out (2 + sunPathSize - 1) [0] = none := by
  refine writeAt_outside ?_
  rw [writeAt_length h]
  exact ha

variable {rest : Bytes}

section FromBsd

variable {ι : Type} (w : Xattr.System ι)

/-- What `vchroot_expand` makes of the path of a socket. -/
def expansion (path : Bytes) : Option (ℤ × Bytes) :=
  Text.expand w.config w.kernel (if w.wd ≠ -100 then .fd w.wd else .cwd) true path

def converted (n : ℕ) (f : Byte) (rest : Bytes) : List (Option Byte) :=
  (le 2 (sfamilyBsdToLinux f.toNat) ++ rest).map some ++ List.replicate (n - (2 + rest.length)) none

variable {a f : Byte}

theorem fixup_eq (st : Xattr.Stack) {n : ℕ} (h : 2 + rest.length ≤ n) :
    sockaddrFixupFromBsd w st (replicate n none) (a :: f :: rest) (2 + rest.length) =
      if sfamilyBsdToLinux f.toNat = 1 then expandSunPath w st (converted n f rest)
      else some ((2 + rest.length : ℕ), converted n f rest) := by
  have hlen : (a :: f :: rest).length = 2 + rest.length := by
    simp only [length_cons]
    omega
  have hslice : slice (a :: f :: rest) 0 (2 + rest.length) = some (a :: f :: rest) := by
    have := slice_split [] (a :: f :: rest) []
    rwa [hlen, append_nil] at this
  have hcopy : writeAt (replicate n none) 0 (a :: f :: rest) =
      some ((a :: f :: rest).map some ++ replicate (n - (2 + rest.length)) none) := by
    rw [writeAt_fresh (by omega), hlen]
  have hfamily : readAt ((a :: f :: rest).map some ++
      replicate (n - (2 + rest.length)) none) 1 1 = some [f] :=
    readAt_split [some a] (rest.map some ++ replicate (n - (2 + rest.length)) none) [f]
  have hput : writeAt ((a :: f :: rest).map some ++ replicate (n - (2 + rest.length)) none) 0
      (le 2 (sfamilyBsdToLinux f.toNat)) = some (converted n f rest) := by
    have := writeAt_split (v := [some a, some f]) (s := le 2 (sfamilyBsdToLinux f.toNat))
      (by simp) []
      (rest.map some ++ replicate (n - (2 + rest.length)) none)
    rw [converted, map_append, append_assoc]
    exact this
  have hunle : unle [f] = f.toNat := by simp [unle]
  simp only [sockaddrFixupFromBsd, hslice, hcopy, hfamily, hunle, hput, bind_eq_bind,
    bind_some, Option.pure_def]

theorem expandSunPath_eq (st : Xattr.Stack) {path r : Bytes} (hz : 0 ∉ path)
    (hrest : rest = path ++ 0 :: r) (hlen : rest.length ≤ 104) :
    expandSunPath w st (converted fixupSize 1 rest) =
      (expansion w path).map fun e =>
        if e.1 < 0 then (errnoLinuxToBsd w.errnos e.1, converted fixupSize 1 rest)
        else (2 + (e.2.take 103).length, (le 2 1 ++ sunPath e.2).map some) := by
  have hsplit : converted fixupSize 1 rest = (le 2 1).map some ++
      (path.map some ++ some 0 :: (r.map some ++ replicate (104 - rest.length) none)) := by
    have hn : fixupSize - (2 + rest.length) = 104 - rest.length := by
      simp only [fixupSize]
      omega
    rw [converted, hn, hrest]
    simp [sfamilyBsdToLinux, append_assoc]
  have hlength : (path.map some ++ some 0 :: (r.map some ++
      replicate (104 - rest.length) (none : Option Byte))).length = 104 := by
    rw [hrest] at hlen ⊢
    simp only [length_append, length_map, length_cons, length_replicate] at hlen ⊢
    omega
  have hread : readStr 0 (converted fixupSize 1 rest) 2 = some path := by
    rw [hsplit]
    exact readStr_split hz ((le 2 1).map some) _
  have hfit : path.length < pathMax := by
    rw [hrest, length_append, length_cons] at hlen
    exact lt_of_lt_of_le (by omega) (show 104 ≤ pathMax by decide)
  have hrel := Xattr.expand_rel w st ⟨path, hz, hfit⟩ false
  simp only [expandSunPath, hread, bind_eq_bind, bind_some, Option.pure_def]
  rw [map_eq_bind]
  refine bind_eq_of_rel hrel fun x y hxy => ?_
  obtain ⟨hcode, hspell⟩ := hxy
  simp only [hcode, Function.comp_apply]
  split_ifs with hneg
  · rfl
  · have hp := hspell.1
    obtain ⟨out, h₁, h₂⟩ := store_sunPath y.2 (h := (le 2 1).map some) rfl hlength
    rw [append_nil, ← hsplit] at h₁
    have h₃ := readStr_sunPath (w := []) hp (h := (le 2 1).map some) rfl
    simp only [hspell.str_zero, h₁, h₂, h₃, bind_some]
    simp

theorem sfamilyBsdToLinux_eq_one {f : Byte} : sfamilyBsdToLinux f.toNat = 1 ↔ f = 1 := by
  constructor
  · intro h
    unfold sfamilyBsdToLinux at h
    split at h
    · exact UInt8.toNat_inj.1 (by assumption)
    · cases h
    · cases h
    · cases h
    · exact UInt8.toNat_inj.1 h
  · rintro rfl
    rfl

theorem length_two_add (a f : Byte) (rest : Bytes) : (a :: f :: rest).length = 2 + rest.length := by
  simp only [length_cons]
  omega

theorem size_eq {len : ℕ} :
    sockaddrFixupSizeFromBsd (a :: f :: rest) len = some (if f = 1 then fixupSize else len) := by
  have : f.toNat = 1 ↔ f = 1 := ⟨fun h => UInt8.toNat_inj.1 h, by rintro rfl; rfl⟩
  simp [sockaddrFixupSizeFromBsd, this]

variable (st : Xattr.Stack)

theorem sysBind_short {name : Bytes} (h : name.length < 2) :
    sysBind w st name name.length = none := by
  have hget : name[1]? = none := getElem?_eq_none (by omega)
  simp [sysBind, sockaddrFixupSizeFromBsd, hget, show ¬ 512 < name.length by omega]

theorem sysBind_other (hf : f ≠ 1) (hlen : 2 + rest.length ≤ 512) :
    sysBind w st (a :: f :: rest) (a :: f :: rest).length =
      some (.call (le 2 (sfamilyBsdToLinux f.toNat) ++ rest) w.finish) := by
  have hread : readAt (converted (2 + rest.length) f rest) 0 (2 + rest.length) =
      some (le 2 (sfamilyBsdToLinux f.toNat) ++ rest) := by
    have := readAt_split [] (replicate (2 + rest.length - (2 + rest.length)) none)
      (le 2 (sfamilyBsdToLinux f.toNat) ++ rest)
    rwa [length_append, le_length, nil_append] at this
  rw [sysBind, length_two_add, if_neg (by omega), size_eq, if_neg hf]
  simp only [bind_eq_bind, bind_some]
  rw [fixup_eq w st le_rfl, if_neg (mt sfamilyBsdToLinux_eq_one.1 hf)]
  simp only [bind_some, Int.toNat_natCast, hread, Option.pure_def,
    if_neg (not_lt.2 (Int.natCast_nonneg _))]

variable {a : Byte}

theorem sysBind_long (hlen : 104 < rest.length) (hle : 2 + rest.length ≤ 512) :
    sysBind w st (a :: 1 :: rest) (a :: 1 :: rest).length = none := by
  have hslice : slice (a :: 1 :: rest) 0 (2 + rest.length) = some (a :: 1 :: rest) := by
    have := slice_split [] (a :: 1 :: rest) []
    rwa [length_two_add, append_nil] at this
  have hwrite : writeAt (replicate fixupSize none) 0 (a :: 1 :: rest) = none := by
    refine writeAt_outside ?_
    rw [length_replicate, length_two_add, fixupSize]
    omega
  rw [sysBind, length_two_add, if_neg (by omega), size_eq, if_pos rfl]
  simp [sockaddrFixupFromBsd, hslice, hwrite]

theorem sysBind_open (hlen : rest.length ≤ 104) (hz : 0 ∉ rest) :
    sysBind w st (a :: 1 :: rest) (a :: 1 :: rest).length = none := by
  have hread : readStr 0 (converted fixupSize 1 rest) 2 = none := by
    refine readStr_of_notMem ?_
    rw [converted, map_append, append_assoc, drop_left' (by simp)]
    simpa using hz
  rw [sysBind, length_two_add, if_neg (by omega), size_eq, if_pos rfl]
  simp only [bind_eq_bind, bind_some]
  rw [fixup_eq w st (by simp only [fixupSize]; omega),
    if_pos (sfamilyBsdToLinux_eq_one.2 rfl), expandSunPath, hread]
  rfl

theorem sysBind_local {path r : Bytes} (hz : 0 ∉ path)
    (hrest : rest = path ++ 0 :: r) (hlen : rest.length ≤ 104) :
    sysBind w st (a :: 1 :: rest) (a :: 1 :: rest).length = (expansion w path).map fun e =>
      if e.1 < 0 then .ret (errnoLinuxToBsd w.errnos e.1)
      else .call (le 2 1 ++ e.2.take 103) w.finish := by
  rw [sysBind, length_two_add, if_neg (by omega), size_eq, if_pos rfl]
  simp only [bind_eq_bind, bind_some]
  rw [fixup_eq w st (by simp only [fixupSize]; omega),
    if_pos (sfamilyBsdToLinux_eq_one.2 rfl), expandSunPath_eq w st hz hrest hlen]
  rcases expansion w path with _ | ⟨rv, p⟩
  · rfl
  · simp only [map_some, bind_some]
    by_cases hneg : rv < 0
    · simp [if_pos hneg, if_pos (errnoLinuxToBsd_neg hneg)]
    · have hread := readAt_split [] ((replicate (103 - p.length) (0 : Byte) ++ [0]).map some)
        (le 2 1 ++ p.take 103)
      rw [← map_append, nil_append, append_assoc, length_append, le_length, length_nil] at hread
      simp only [if_neg hneg, Option.pure_def,
        if_neg (show ¬ (2 + ((p.take 103).length : ℤ)) < 0 by omega)]
      rw [show (2 + ((p.take 103).length : ℤ)).toNat = 2 + (p.take 103).length by omega]
      rw [sunPath, hread]
      rfl

/-- The file that a Linux address names. -/
def namedFile : Bytes → Option Bytes
  | 1 :: 0 :: c :: path => if c = 0 then none else some ((c :: path).takeWhile (· ≠ 0))
  | _ => none

/-- The path in an address of the caller. -/
def unixPath (name : Bytes) : Bytes := (name.drop 2).takeWhile (· ≠ 0)

/-- Linux is called with the expansion of the path, or the call fails and there is none that fits;
an address of another family is passed on with the family replaced. -/
def Passes (name : Bytes) : Request → Prop
  | .ret rv => rv < 0 ∧ name[1]? = some 1 ∧ ∀ ret vc p, w.expand st (unixPath name) false =
      some (ret, vc) → 0 ≤ ret → Spells 0 vc p → sunPathSize ≤ p.length
  | .call addr finish => finish = w.finish ∧
      if name[1]? = some 1 then ∃ ret vc p, w.expand st (unixPath name) false = some (ret, vc) ∧
        0 ≤ ret ∧ Spells 0 vc p ∧ namedFile addr = some p
      else ∃ f rest, name.drop 1 = f :: rest ∧ addr = le 2 (sfamilyBsdToLinux f.toNat) ++ rest

/-- The address is whole, and the expanded path fits. -/
def Bindable (name : Bytes) : Prop :=
  2 ≤ name.length ∧ (name[1]? = some 1 → name.length ≤ fixupSize ∧ 0 ∈ name.drop 2 ∧
    ∃ ret p, expansion w (unixPath name) = some (ret, p) ∧ (0 ≤ ret → p.length < sunPathSize))

section Passes

variable {w}

theorem expand_ne_nil {V : Config} {k : Kernel} {base : ProcLink} {follow : Bool} {path : Bytes}
    {rv : ℤ} (h : Text.expand V k base follow path = some (rv, p)) (hrv : 0 ≤ rv) : p ≠ [] := by
  unfold Text.expand at h
  split_ifs at h with hnil
  · obtain ⟨rfl, -⟩ := Prod.mk.inj (some.inj h)
    simp [fail, enoent] at hrv
  · split at h
    · obtain ⟨rfl, -⟩ := Prod.mk.inj (some.inj h)
      simp [fail] at hrv
    · obtain ⟨⟨rv', s⟩, -, h⟩ := bind_eq_some_iff.1 h
      obtain ⟨-, rfl⟩ := Prod.mk.inj (some.inj h)
      split_ifs with hs
      · simp
      · exact hs

theorem expand_of_expansion {path : Bytes} (hz : 0 ∉ path) (hlen : path.length < pathMax) {ret : ℤ}
    (h : expansion w path = some (ret, p)) :
    ∃ vc, w.expand st path false = some (ret, vc) ∧ Spells 0 vc p := by
  have hrel := Xattr.expand_rel w st ⟨path, hz, hlen⟩ false
  rw [show Text.expand w.config w.kernel (if w.wd ≠ -100 then .fd w.wd else .cwd) (!false) path =
    some (ret, p) from h] at hrel
  obtain ⟨⟨_, vc⟩, hvc, rfl, hsp⟩ := exists_of_rel' hrel
  exact ⟨vc, hvc, hsp⟩

theorem namedFile_append (hne : p ≠ []) (hz : 0 ∉ p) : namedFile (le 2 1 ++ p) = some p := by
  obtain ⟨c, p, rfl⟩ := exists_cons_of_ne_nil hne
  have hc : c ≠ 0 := fun h => hz (by simp [h])
  have htake : (c :: p).takeWhile (· ≠ 0) = c :: p := by
    rw [takeWhile_eq_self_iff]
    intro x hx
    exact decide_eq_true fun h => hz (h ▸ hx)
  simpa [namedFile, le, hc] using htake

theorem unixPath_eq {path r : Bytes} (hz : 0 ∉ path) :
    unixPath (a :: f :: (path ++ 0 :: r)) = path := by
  have hall : ∀ x ∈ path, decide (x ≠ 0) = true := fun x hx => decide_eq_true fun h => hz (h ▸ hx)
  rw [unixPath, drop_succ_cons, drop_succ_cons, drop_zero, takeWhile_append_of_pos hall]
  simp

theorem passes_local {path r : Bytes} (hz : 0 ∉ path) (hlen : (path ++ 0 :: r).length ≤ 104) :
    (∃ q, sysBind w st (a :: 1 :: (path ++ 0 :: r)) (a :: 1 :: (path ++ 0 :: r)).length = some q ∧
        Passes w st (a :: 1 :: (path ++ 0 :: r)) q) ↔
      ∃ ret p, expansion w path = some (ret, p) ∧ (0 ≤ ret → p.length < sunPathSize) := by
  have hfit : path.length < pathMax := by
    rw [length_append] at hlen
    exact lt_of_le_of_lt (by omega) (show 104 < pathMax by decide)
  have hpath := unixPath_eq (a := a) (f := 1) (r := r) hz
  rw [sysBind_local w st hz rfl hlen]
  rcases he : expansion w path with _ | ⟨ret, p⟩
  · simp
  obtain ⟨vc, hvc, hsp⟩ := expand_of_expansion st hz hfit he
  simp only [map_some, some.injEq, exists_eq_left', Prod.mk.injEq]
  by_cases hneg : ret < 0
  · rw [if_pos hneg]
    refine ⟨fun _ => ⟨ret, p, ⟨rfl, rfl⟩, fun h => absurd h (by omega)⟩, fun _ => ?_⟩
    refine ⟨errnoLinuxToBsd_neg hneg, rfl, fun ret' vc' p' h hret' => ?_⟩
    rw [hpath, hvc] at h
    obtain ⟨rfl, -⟩ := Prod.mk.inj (some.inj h)
    omega
  · have hne := expand_ne_nil he (by omega)
    have htake : p.take 103 ≠ [] := by
      obtain ⟨c, t, rfl⟩ := exists_cons_of_ne_nil hne
      simp
    have hname : namedFile (le 2 1 ++ p.take 103) = some (p.take 103) :=
      namedFile_append htake fun hm => hsp.1 (mem_of_mem_take hm)
    rw [if_neg hneg]
    simp only [Passes, hpath, hvc, hname, true_and, some.injEq, Prod.mk.injEq]
    rw [if_pos (show (a :: 1 :: (path ++ 0 :: r))[1]? = some 1 from rfl)]
    constructor
    · rintro ⟨ret', vc', p', ⟨rfl, rfl⟩, -, hsp', rfl⟩
      refine ⟨ret, p, ⟨rfl, rfl⟩, fun _ => ?_⟩
      have := congrArg length (hsp.unique hsp')
      rw [length_take] at this
      simp only [sunPathSize]
      omega
    · rintro ⟨ret', p', ⟨rfl, rfl⟩, hshort⟩
      refine ⟨ret, vc, p, ⟨rfl, rfl⟩, by omega, hsp, ?_⟩
      have := hshort (by omega)
      simp only [sunPathSize] at this
      exact take_of_length_le (by omega)

end Passes

theorem not_passes {name : Bytes} (h : ∀ st, sysBind w st name name.length = none) :
    ¬ ∀ st, ∃ q, sysBind w st name name.length = some q ∧ Passes w st name q := by
  intro hall
  obtain ⟨q, hq, -⟩ := hall sampleStack
  rw [h sampleStack] at hq
  cases hq

theorem passes_local_iff (hle : 2 + rest.length ≤ 512) :
    (∀ st, ∃ q, sysBind w st (a :: 1 :: rest) (a :: 1 :: rest).length = some q ∧
      Passes w st (a :: 1 :: rest) q) ↔ Bindable w (a :: 1 :: rest) := by
  by_cases hlong : 104 < rest.length
  · refine iff_of_false (not_passes w fun st => sysBind_long w st hlong hle) fun hb => ?_
    have := (hb.2 rfl).1
    rw [length_two_add, fixupSize] at this
    omega
  by_cases hz : 0 ∈ rest
  · obtain ⟨path, r, rfl, hz'⟩ := eq_append_cons_of_mem hz
    have hiff (st : Xattr.Stack) :=
      @passes_local ι w st a path r hz' (not_lt.1 hlong)
    have hpath := unixPath_eq (a := a) (f := 1) (r := r) hz'
    constructor
    · intro hall
      refine ⟨by simp, fun _ => ⟨?_, hz, ?_⟩⟩
      · rw [length_two_add, fixupSize]
        omega
      · rw [hpath]
        exact (hiff sampleStack).1 (hall sampleStack)
    · intro hb st
      refine (hiff st).2 ?_
      rw [← hpath]
      exact (hb.2 rfl).2.2
  · exact iff_of_false (not_passes w fun st => sysBind_open w st (not_lt.1 hlong) hz)
      fun hb => hz (hb.2 rfl).2.1

/-- The addresses that `sys_bind` passes on, whatever the stack held. -/
theorem passes_iff {name : Bytes} (h : name.length ≤ 512) :
    (∀ st, ∃ q, sysBind w st name name.length = some q ∧ Passes w st name q) ↔ Bindable w name := by
  rcases name with _ | ⟨a, _ | ⟨f, rest⟩⟩
  · exact iff_of_false (not_passes w fun st => sysBind_short w st (by decide))
      fun hb => absurd hb.1 (by decide)
  · exact iff_of_false (not_passes w fun st => sysBind_short w st (by simp))
      fun hb => absurd hb.1 (by simp)
  rw [length_two_add] at h
  by_cases hf : f = 1
  · subst hf
    exact passes_local_iff w h
  · have hget : (a :: f :: rest)[1]? ≠ some 1 := fun h1 => hf (some.inj h1)
    refine iff_of_true (fun st => ⟨_, sysBind_other w st hf h, rfl, ?_⟩)
      ⟨by simp, fun h1 => absurd h1 hget⟩
    rw [if_neg hget]
    exact ⟨f, rest, rfl, rfl⟩

def letterName (n : ℕ) : Bytes := 0 :: 1 :: (slash :: List.replicate n 120 ++ [0])

theorem passes_letter : ∃ q,
    sysBind Xattr.sampleSystem Xattr.sampleStack (letterName 1) (letterName 1).length = some q ∧
      Passes Xattr.sampleSystem Xattr.sampleStack (letterName 1) q :=
  (@passes_iff _ sampleSystem (letterName 1) (by decide)).2
    ⟨by decide, fun _ => ⟨by decide, by decide, 0, ascii ['/', 'p', '/', 'x'], rfl,
      fun _ => by decide⟩⟩
    sampleStack

/-- The path of the address goes up to its end and beyond; the expansion of a path of 101 letters is
cut off after 100. -/
theorem sysBind_misnamed :
    sysBind Xattr.sampleSystem Xattr.sampleStack (0 :: 1 :: List.replicate 104 120) 106 = none ∧
    expansion Xattr.sampleSystem (slash :: List.replicate 101 120) =
      some (0, ascii ['/', 'p', '/'] ++ List.replicate 101 120) ∧
    sysBind Xattr.sampleSystem Xattr.sampleStack (letterName 101) 105 =
      some (.call (le 2 1 ++ (ascii ['/', 'p', '/'] ++ List.replicate 100 120))
        Xattr.sampleSystem.finish) := by
  have hexp : expansion sampleSystem (slash :: List.replicate 101 120) =
      some (0, ascii ['/', 'p', '/'] ++ List.replicate 101 120) := rfl
  refine ⟨sysBind_open sampleSystem sampleStack (by decide) (by decide), hexp, ?_⟩
  refine (sysBind_local sampleSystem sampleStack (by decide) rfl
    (by decide)).trans ?_
  rw [hexp]
  rfl

end FromBsd

section FromLinux

/-- The addresses that Linux returns. -/
inductive Address where
  | unnamed
  | abstract (name : Bytes) (length_le : name.length ≤ 107)
  | pathname (path : Bytes) (ne_nil : path ≠ []) (nul_notMem : 0 ∉ path)
      (length_le : path.length ≤ 108)
  | inet (rest : Bytes) (length_eq : rest.length = 14)
  | inet6 (rest : Bytes) (length_eq : rest.length = 26)

/-- A path has a terminator behind it that counts as part of the address. -/
def Address.bytes : Address → Bytes
  | unnamed => le 2 1
  | abstract name _ => le 2 1 ++ 0 :: name
  | pathname path _ _ _ => le 2 1 ++ (path ++ [0])
  | inet rest _ => le 2 2 ++ rest
  | inet6 rest _ => le 2 10 ++ rest

/-- The buffers that the conversion respects. -/
def Address.Respected (L : ℕ) (a : Address) : Prop :=
  a.bytes.length ≤ L ∧
    match a with
    | unnamed => False
    | abstract _ _ => fixupSize ≤ L
    | pathname _ _ _ _ => fixupSize ≤ L
    | inet _ _ => True
    | inet6 _ _ => True

/-- A path as the caller should get it. -/
def bsdAddress (path : Bytes) : Bytes := UInt8.ofNat (2 + path.length + 1) :: 1 :: (path ++ [0])

/-- A call that stays in the buffer, reads there what Linux has stored, and for a pathname whose
guest path fits leaves its BSD address. -/
def Returns (V : Config) (call : Bytes → ℕ → ℤ → Bytes → Option Outcome) (code : ℤ → ℤ) (L : ℕ)
    (a : Address) : Prop :=
  ∀ vc rv, vc.length = pathMax → 0 ≤ rv → ∃ o, call vc L rv a.bytes = some o ∧
    ∀ path, (∃ h₁ h₂ h₃, a = .pathname path h₁ h₂ h₃) →
      (Text.guestPath V path).length < sunPathSize →
      o.ret = code rv ∧ o.socklen = (bsdAddress (Text.guestPath V path)).length ∧
        (bsdAddress (Text.guestPath V path)).map some <+: o.buf

variable {V : Config} {vc : Bytes} {L : ℕ}

theorem kernelStores_of_le {addr : Bytes} (h : addr.length ≤ L) :
    kernelStores L addr = addr.map some ++ replicate (L - addr.length) none := by
  rw [kernelStores, take_of_length_le h]

theorem fixupFromLinux_outside {addr : Bytes} (h : L < addr.length) :
    sockaddrFixupFromLinux V vc (kernelStores L addr) addr.length = none := by
  have hread : readAt (kernelStores L addr) 0 addr.length = none := by
    refine readAt_outside ?_
    simp only [kernelStores, length_append, length_map, length_take, length_replicate]
    omega
  simp [sockaddrFixupFromLinux, hread]

/-- The block after Linux has stored its address in it. -/
def returned (L f : ℕ) (rest : Bytes) : List (Option Byte) :=
  [some (UInt8.ofNat f), some (UInt8.ofNat (sfamilyLinuxToBsd f))] ++
    (rest.map some ++ List.replicate (L - (2 + rest.length)) none)

theorem fixupFromLinux_eq {L f : ℕ} (hf : f < 2 ^ 16) (h : 2 + rest.length ≤ L) :
    sockaddrFixupFromLinux V vc (kernelStores L (le 2 f ++ rest)) (le 2 f ++ rest).length =
      (if (UInt8.ofNat (sfamilyLinuxToBsd f)).toNat =
        1 then unexpandSunPath V vc (returned L f rest)
        else some (2 + rest.length, returned L f rest)).bind fun r =>
        (writeAt r.2 0 [UInt8.ofNat r.1]).map fun out => ((r.1 : ℤ), out) := by
  have hlen : (le 2 f ++ rest).length = 2 + rest.length := by simp
  have hstored : kernelStores L (le 2 f ++ rest) =
      (le 2 f ++ rest).map some ++ replicate (L - (2 + rest.length)) none := by
    rw [kernelStores_of_le (by omega), hlen]
  have hread := readAt_split [] (replicate (L - (2 + rest.length)) none) (le 2 f ++ rest)
  have hwrite := writeAt_split (v := (le 2 f ++ rest).map some) (s := le 2 f ++ rest)
    (by rw [length_map]) [] (replicate (L - (2 + rest.length)) none)
  have hfamily := readAt_split []
    (rest.map some ++ replicate (L - (2 + rest.length)) none) (le 2 f)
  have hput := writeAt_split (v := [some (UInt8.ofNat (f / 256))])
    (s := [UInt8.ofNat (sfamilyLinuxToBsd f)]) rfl [some (UInt8.ofNat f)]
    (rest.map some ++ replicate (L - (2 + rest.length)) none)
  have hunle : unle (le 2 f) = f := unle_le_of_lt hf
  simp only [nil_append, length_nil] at hread hwrite hfamily
  rw [← append_assoc, ← map_append, le_length] at hfamily
  rw [hstored]
  simp only [sockaddrFixupFromLinux, hread, hwrite, hfamily, hunle, bind_eq_bind,
    bind_some, Option.pure_def, map_eq_bind, Function.comp_def]
  rw [show writeAt ((le 2 f ++ rest).map some ++ replicate (L - (2 + rest.length)) none) 1
    [UInt8.ofNat (sfamilyLinuxToBsd f)] = some
      (returned L f rest) from hput, bind_some, hlen]

theorem unexpandSunPath_eq (hvc : vc.length = pathMax) {path r : Bytes} (hz : 0 ∉ path)
    (hpath : path.length ≤ 108) (hlen : 2 + (path ++ 0 :: r).length ≤ L) :
    unexpandSunPath V vc (returned L 1 (path ++ 0 :: r)) =
      if fixupSize ≤ L then
        some (2 + ((guestPath V path).take 103).length + 1,
          [some 1, some 1] ++ ((sunPath (guestPath V path)).map some ++
            (returned L 1 (path ++ 0 :: r)).drop fixupSize))
      else none := by
  have hread : readStr 0 (returned L 1 (path ++ 0 :: r)) 2 = some path := by
    have := readStr_split hz [some (1 : Byte), some 1]
      (r.map some ++ replicate (L - (2 + (path ++ 0 :: r).length)) none)
    simpa [returned, sfamilyLinuxToBsd] using this
  have hfit : exitPath.length + path.length < pathMax :=
    lt_of_le_of_lt (Nat.add_le_add_left hpath _) (by decide)
  obtain ⟨buf, hbuf, hsp, hblen⟩ := strcpy_zero hz (by rw [hvc]; omega)
  obtain ⟨out, hout, -, hguest⟩ := vchrootUnexpand_spec (V := V) (hblen.trans hvc) hsp hfit
  have hL : (returned L 1 (path ++ 0 :: r)).length = L := by
    simp only [returned, length_append, length_cons, length_map, length_nil,
      length_replicate] at hlen ⊢
    omega
  set b := returned L 1 (path ++ 0 :: r)
  simp only [unexpandSunPath, hread, hbuf, hout, hguest.str_zero, bind_eq_bind,
    bind_some, Option.pure_def]
  split_ifs with h
  · have hsplit : b = [some 1, some 1] ++ ((b.drop 2).take 104 ++ b.drop fixupSize) := by
      have hdrop : b.drop fixupSize = (b.drop 2).drop 104 := by
        rw [drop_drop]
        rfl
      rw [hdrop, take_append_drop]
      rfl
    have hv : ((b.drop 2).take 104).length = 104 := by
      rw [length_take, length_drop, hL]
      simp only [fixupSize] at h
      omega
    obtain ⟨out', h₁, h₂⟩ := store_sunPath (guestPath V path) (h := [some 1, some 1]) rfl hv
    have h₃ := readStr_sunPath (h := [some 1, some 1]) (w := b.drop fixupSize) hguest.1 rfl
    rw [← hsplit] at h₁
    simp only [h₁, h₂, h₃, bind_some]
  · rcases hw : writeStrn 0 b 2 (guestPath V path) (sunPathSize - 1) with _ | out'
    · rfl
    · rw [bind_some, store_sunPath_outside _ (by rw [hL]; exact not_le.1 h) hw, bind_none]

theorem unexpandSunPath_unnamed : unexpandSunPath V vc (returned L 1 []) = none := by
  have hread : readStr 0 (returned L 1 []) 2 = none := by
    refine readStr_of_notMem ?_
    simp [returned]
  simp [unexpandSunPath, hread]

theorem fixupFromLinux_local (hvc : vc.length = pathMax) {path r : Bytes} (hz : 0 ∉ path)
    (hpath : path.length ≤ 108) (hlen : 2 + (path ++ 0 :: r).length ≤ L) {n : ℕ}
    (hn : n = 2 + ((guestPath V path).take 103).length + 1) :
    sockaddrFixupFromLinux V vc (kernelStores L (le 2 1 ++ (path ++ 0 :: r)))
        (le 2 1 ++ (path ++ 0 :: r)).length =
      if fixupSize ≤ L then
        some ((n : ℤ), [some (UInt8.ofNat n)] ++ ([some 1] ++
          ((sunPath (guestPath V path)).map some ++
            (returned L 1 (path ++ 0 :: r)).drop fixupSize)))
      else none := by
  have hfamily : (UInt8.ofNat (sfamilyLinuxToBsd 1)).toNat = 1 := rfl
  rw [fixupFromLinux_eq (by decide) hlen, if_pos hfamily, unexpandSunPath_eq hvc hz hpath hlen,
    ← hn]
  split_ifs with h
  · have hwrite := writeAt_split (v := [some (1 : Byte)]) (s := [UInt8.ofNat n]) rfl []
      ([some 1] ++ ((sunPath (guestPath V path)).map some ++
        (returned L 1 (path ++ 0 :: r)).drop fixupSize))
    rw [bind_some]
    exact congrArg (Option.map _) hwrite
  · rfl

theorem fixupFromLinux_other {L f : ℕ} (hf : f < 2 ^ 16)
    (hother : (UInt8.ofNat (sfamilyLinuxToBsd f)).toNat ≠ 1) (h : 2 + rest.length ≤ L) :
    (sockaddrFixupFromLinux V vc (kernelStores L (le 2 f ++ rest))
      (le 2 f ++ rest).length).isSome := by
  have hwrite := writeAt_split (v := [some (UInt8.ofNat f)])
    (s := [UInt8.ofNat (2 + rest.length)]) rfl
    [] ([some (UInt8.ofNat (sfamilyLinuxToBsd f))] ++
      (rest.map some ++ replicate (L - (2 + rest.length)) none))
  rw [fixupFromLinux_eq hf h, if_neg hother, bind_some]
  exact (congrArg isSome (congrArg (Option.map _) hwrite)).trans rfl

theorem fixupFromLinux_isSome (hvc : vc.length = pathMax) (L : ℕ) (a : Address) :
    (sockaddrFixupFromLinux V vc (kernelStores L a.bytes) a.bytes.length).isSome ↔
      a.Respected L := by
  by_cases hle : a.bytes.length ≤ L
  swap
  · rw [fixupFromLinux_outside (not_le.1 hle)]
    exact iff_of_false (by simp) fun h => hle h.1
  cases a with
  | unnamed =>
    have hfamily : (UInt8.ofNat (sfamilyLinuxToBsd 1)).toNat = 1 := rfl
    refine iff_of_false ?_ fun hr => hr.2
    rw [show (Address.unnamed).bytes = le 2 1 ++ [] from rfl, fixupFromLinux_eq (by decide) hle,
      if_pos hfamily, unexpandSunPath_unnamed, bind_none]
    simp
  | abstract name _ =>
    have hlen : 2 + ([] ++ 0 :: name : Bytes).length ≤ L := by simpa [Address.bytes] using hle
    have h := fixupFromLinux_local (V := V) hvc (by simp) (by simp) hlen rfl
    rw [show (Address.abstract name ‹_›).bytes = le 2 1 ++ ([] ++ 0 :: name) from rfl, h]
    split_ifs with hsize
    · exact iff_of_true rfl ⟨hle, hsize⟩
    · exact iff_of_false (by simp) fun hr => hsize hr.2
  | pathname path _ hz hpath =>
    have hlen : 2 + (path ++ 0 :: []).length ≤ L := by simpa [Address.bytes] using hle
    have h := fixupFromLinux_local (V := V) hvc hz hpath hlen rfl
    rw [show (Address.pathname path ‹_› hz hpath).bytes = le 2 1 ++ (path ++ 0 :: []) from rfl, h]
    split_ifs with hsize
    · exact iff_of_true rfl ⟨hle, hsize⟩
    · exact iff_of_false (by simp) fun hr => hsize hr.2
  | inet rest hrest | inet6 rest hrest =>
    refine iff_of_true (fixupFromLinux_other (by decide) (by decide) ?_) ⟨hle, trivial⟩
    simpa [Address.bytes] using hle

theorem fixupFromLinux_pathname (hvc : vc.length = pathMax) {path : Bytes} {hne : path ≠ []}
    {hz : 0 ∉ path} {hpath : path.length ≤ 108}
      (hr : (Address.pathname path hne hz hpath).Respected L)
    (hguest : (guestPath V path).length < sunPathSize) :
    ∃ buf, sockaddrFixupFromLinux V vc (kernelStores L (Address.pathname path hne hz hpath).bytes)
        (Address.pathname path hne hz hpath).bytes.length =
          some (((bsdAddress (guestPath V path)).length : ℤ), buf) ∧
      (bsdAddress (guestPath V path)).map some <+: buf := by
  obtain ⟨hle, hsize⟩ := hr
  have htake : (guestPath V path).take 103 = guestPath V path :=
    take_of_length_le (Nat.le_of_lt_succ hguest)
  have hlen : 2 + (path ++ 0 :: []).length ≤ L := by simpa [Address.bytes] using hle
  have hn : (bsdAddress (guestPath V path)).length =
      2 + ((guestPath V path).take 103).length + 1 := by
    rw [htake]
    simp only [bsdAddress, length_cons, length_append, length_nil]
    omega
  refine ⟨_, (fixupFromLinux_local hvc hz hpath hlen hn).trans (if_pos hsize), ?_⟩
  obtain ⟨r, hr⟩ := exists_sunPath_eq (guestPath V path)
  rw [hn, hr, htake]
  refine ⟨r.map some ++ (returned L 1 (path ++ 0 :: [])).drop fixupSize, ?_⟩
  simp [bsdAddress, append_assoc]

theorem returns_iff_of_bind (finish : ℤ → ℤ × List (Option Byte) → Outcome)
    {call : Bytes → ℕ → ℤ → Bytes → Option Outcome} {code : ℤ → ℤ} {a : Address}
    (hcall : ∀ vc rv, 0 ≤ rv → call vc L rv a.bytes =
      (sockaddrFixupFromLinux V vc (kernelStores L a.bytes) a.bytes.length).map (finish rv))
    (hfinish : ∀ (rv : ℤ) (n : ℕ) buf, 0 < n → (finish rv (n, buf)).ret = code rv ∧
      (finish rv (n, buf)).socklen = n ∧ (finish rv (n, buf)).buf = buf) :
    Returns V call code L a ↔ a.Respected L := by
  constructor
  · intro h
    have hvc : (replicate pathMax (0 : Byte)).length = pathMax := length_replicate
    obtain ⟨o, ho, -⟩ := h _ 0 hvc le_rfl
    rw [hcall _ 0 le_rfl] at ho
    obtain ⟨x, hx, -⟩ := map_eq_some_iff.1 ho
    exact (fixupFromLinux_isSome hvc L a).1 (by rw [hx]; rfl)
  · intro hr vc rv hvc hrv
    obtain ⟨x, hx⟩ := isSome_iff_exists.1 ((fixupFromLinux_isSome hvc L a).2 hr)
    refine ⟨finish rv x, by rw [hcall vc rv hrv, hx, map_some], ?_⟩
    rintro path ⟨hne, hz, hpath, rfl⟩ hguest
    obtain ⟨buf, hbuf, hpre⟩ := fixupFromLinux_pathname hvc hr hguest
    obtain rfl := some.inj (hx.symm.trans hbuf)
    obtain ⟨h₁, h₂, h₃⟩ := hfinish rv (bsdAddress (guestPath V path)).length buf
      (Nat.succ_pos _)
    exact ⟨h₁, h₂, by rw [h₃]; exact hpre⟩

/-- Both calls respect the caller's buffer exactly if it takes the whole address, which is not that
of an unnamed socket, and for a local one `struct sockaddr_fixup`. -/
theorem returns_iff (V : Config) (errnos : ℕ → ℕ) (L : ℕ) (a : Address) :
    (Returns V (sysGetsockname V errnos) (fun _ => 0) L a ↔ a.Respected L) ∧
      (Returns V (sysRecvfromNocancel V errnos) id L a ↔ a.Respected L) := by
  constructor
  · refine returns_iff_of_bind (fun _ x => ⟨if 0 < x.1 then 0 else x.1, x.2, x.1⟩)
      (fun vc rv hrv => ?_) ?_
    · rw [sysGetsockname, if_neg (not_lt.2 hrv), map_eq_bind]
      rfl
    · intro rv n buf hn
      exact ⟨if_pos (Int.natCast_pos.2 hn), rfl, rfl⟩
  · refine returns_iff_of_bind (fun rv x => ⟨if x.1 < 0 then x.1 else rv, x.2, x.1⟩)
      (fun vc rv hrv => ?_) ?_
    · rw [sysRecvfromNocancel, if_neg (not_lt.2 hrv), map_eq_bind]
      rfl
    · intro rv n buf hn
      exact ⟨by simp, rfl, rfl⟩

def socketPath :
    Address := .pathname (ascii ['/', 'p', '/', 'x']) (by decide) (by decide) (by decide)

/-- The address has 7 bytes, and 16 are not enough; for an unnamed socket 106 are not. -/
theorem sysGetsockname_outside : sysGetsockname sampleConfig id zeros 16 0 socketPath.bytes = none ∧
      sysGetsockname sampleConfig id zeros 106 0 Address.unnamed.bytes = none := by
  have hnone {L : ℕ} {a : Address} (h : ¬ a.Respected L) :
      sysGetsockname sampleConfig id zeros L 0 a.bytes = none := by
    have hfix := mt (fixupFromLinux_isSome (V := sampleConfig) zeros_length L a).1 h
    rw [sysGetsockname, if_neg (by decide), not_isSome_iff_eq_none.1 hfix]
    rfl
  exact ⟨hnone fun h => absurd (show fixupSize ≤ 16 from h.2) (by decide), hnone fun h => h.2⟩

end FromLinux

end Darling.Duct
