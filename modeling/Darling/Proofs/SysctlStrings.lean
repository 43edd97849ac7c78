import Darling.Proofs.Sysctl
import Darling.SysctlStrings

/-!
# Strings and the room for them
-/

namespace Darling.Sysctl

open CArray Catalog List

section Serves

variable {ω : Type} {w : ω} {s : Bytes}

theorem strlcpy_eq {out : Bytes} {m : ℕ} (hm : m ≤ out.length) (hpos : m ≠ 0) : strlcpy out s m =
      some (s.take (m - 1) ++ 0 :: out.drop ((s.take (m - 1)).length + 1)) := by
  have hroom := blit_room (u := []) (v := out) (t := s.take (m - 1) ++ [0]) (by
    rw [length_append, length_take, length_singleton]
    omega)
  rw [strlcpy, if_neg hpos]
  simpa using hroom

theorem copyoutString_serves (h : 0 ∉ s) : Serves (copyoutString s) s w := by
  refine ⟨fun len => rfl, fun out m hm => ?_⟩
  by_cases hpos : m = 0
  · subst hpos
    refine ⟨out, rfl, rfl, rfl, iff_of_false ?_ (by omega)⟩
    rintro ⟨-, rest, heq⟩
    cases s <;> cases heq
  obtain ⟨t, ht⟩ : ∃ t, t = s.take (m - 1) := ⟨_, rfl⟩
  obtain ⟨k, rfl⟩ : ∃ k, m = t.length + 1 + k := Nat.exists_eq_add_of_le (by
    rw [ht, length_take]
    omega)
  have hwrite := strlcpy_eq (s := s) hm hpos
  rw [← ht] at hwrite
  refine ⟨t ++ 0 :: out.drop (t.length + 1), ?_, ?_, ?_, ?_⟩
  · simp only [copyoutString, buffer, hwrite, ok_bind]
    rfl
  · rw [length_append, length_cons, length_drop]
    omega
  · rw [Nat.add_assoc, drop_length_add_append, Nat.add_comm 1 k, drop_succ_cons,
      drop_drop, Nat.add_assoc, Nat.add_comm 1 k]
  · have hspells : Spells 0 ((t ++ 0 :: out.drop (t.length + 1)).take (t.length + 1 + k)) t := by
      rw [Nat.add_assoc, take_length_add_append, Nat.add_comm 1 k, take_succ_cons]
      exact ⟨fun hz => h (mem_of_mem_take (ht ▸ hz)), _, rfl⟩
    constructor
    · intro hs
      have := congrArg List.length (hs.unique hspells)
      omega
    · intro hlt
      rw [take_of_length_le (by omega)] at ht
      exact ht ▸ hspells

theorem handleHostName_serves (src : Source ω) (set : Bytes → ℕ → ω → ℤ × ω) (h : 0 ∉ s) :
    Serves (handleHostName src s set) s w := by
  have hcall (a : Args) (ha : a.new = none) (w : ω) :
      handleHostName src s set a w = copyoutString s a w := by
    rw [handleHostName, ha]
    rcases copyoutString s a w with e | out <;> rfl
  obtain ⟨hquery, hcopy⟩ := copyoutString_serves h
  refine ⟨fun len => ?_, fun out m hm => ?_⟩
  · rw [hcall _ rfl]
    exact hquery len
  · rw [hcall _ rfl]
    exact hcopy out m hm

theorem stringHandler_serves (src : Source ω) {h : Plain} {run : Call ω}
    (hh : stringHandler src h = some (some s, run)) : Serves run s w := by
  cases h with
  | ostype | osrelease | version | osversion | osproductversion =>
    cases hh
    exact copyoutString_serves (by decide)
  | hostname =>
    cases hh
    exact handleHostName_serves src _ src.nodename_nul
  | domainname =>
    cases hh
    exact handleHostName_serves src _ src.domainname_nul
  | machine =>
    cases hh
    exact copyoutString_serves src.machine_nul
  | vendor =>
    cases hh
    exact copyoutString_serves src.vendor_nul
  | brandString =>
    obtain ⟨hbrand, rfl⟩ : src.brandString = some s ∧ handleBrandString src = run := by
      simpa [stringHandler] using hh
    have hcall : handleBrandString src = copyoutString s := by
      funext a w
      rw [handleBrandString, hbrand]
    rw [hcall]
    exact copyoutString_serves (src.brandString_nul s hbrand)
  | maxBasic | family | model | stepping =>
    simp only [stringHandler, Option.some.injEq, Prod.mk.injEq] at hh
    obtain ⟨rfl, rfl⟩ := hh
    exact copyoutString_serves (not_mem_decimalInt _ (by decide) (by decide))
  | _ => cases hh

theorem Serves.toOption {call : Call ω} (h : Serves call s w) :
    Serves (fun a w => buffer (call a w).toOption) s w := by
  obtain ⟨hquery, hcopy⟩ := h
  refine ⟨fun len => by simp only [hquery]; rfl, fun out m hm => ?_⟩
  obtain ⟨out', hcall, hout⟩ := hcopy out m hm
  exact ⟨out', by simp only [hcall]; rfl, hout⟩

theorem finish_serves (src : Source ω) (m : Machine ω) {current : KnownSysctl} {h : Plain}
    {run : Call ω} (hcurrent : current.data.handler = some (.plain h))
    (hh : stringHandler src h = some (some s, run)) (name : Option (List UInt32)) (nlen : ℤ) :
    Serves (fun a w => finish (src.install m) name nlen a w current) s w := by
  have hcall : (fun a w => finish (src.install m) name nlen a w current) =
      fun a w => buffer (run a w).toOption := by
    funext a w
    simp [finish, hcurrent, Handler.run, Source.install, hh]
  rw [hcall]
  exact (stringHandler_serves src hh).toOption

end Serves

variable {vec : List UInt32}

section OidToName

/-- The names of the entries below take at most `room` bytes on every way, each with one more
byte. -/
def NamesFit : ℕ → ℕ → KnownSysctl → Prop
  | 0, _, e => e.entries.isEmpty
  | n + 1, room, e => ∀ e' ∈ e.entries, e'.name ≠ [] ∧ 0 ∉ e'.name ∧ e'.name.length < room ∧
      NamesFit n (room - (e'.name.length + 1)) e'

def decideNamesFit : ∀ (n room : ℕ) (e : KnownSysctl), Decidable (NamesFit n room e)
  | 0, _, e => inferInstanceAs (Decidable (e.entries.isEmpty = true))
  | n + 1, room, e =>
    have (e' : KnownSysctl) : Decidable (NamesFit n (room - (e'.name.length + 1)) e') :=
      decideNamesFit n _ e'
    inferInstanceAs (Decidable (∀ e' ∈ e.entries, e'.name ≠ [] ∧ 0 ∉ e'.name ∧
      e'.name.length < room ∧ NamesFit n (room - (e'.name.length + 1)) e'))

instance (n room : ℕ) (e : KnownSysctl) : Decidable (NamesFit n room e) := decideNamesFit n room e

theorem sysctlsRoot_namesFit : NamesFit 4 64 sysctlsRoot := by decide

def spell (sname name : Bytes) : Bytes := (if sname = [] then sname else sname ++ [dot]) ++ name

def taken (sname : Bytes) : ℕ := if sname = [] then 0 else sname.length + 1

theorem length_spell (sname name : Bytes) :
    (spell sname name).length = taken sname + name.length := by
  rw [spell, taken, length_append]
  split_ifs with h
  · rw [h]
    rfl
  · simp

theorem taken_spell {name : Bytes} (h : name ≠ []) (sname : Bytes) :
    taken (spell sname name) = taken sname + name.length + 1 := by
  have hne : spell sname name ≠ [] := fun heq => h (append_eq_nil_iff.1 heq).2
  rw [taken, if_neg hne, length_spell]

theorem NamesFit.of_mem {d room : ℕ} {e e' : KnownSysctl} (h : NamesFit d room e)
    (hmem : e' ∈ e.entries) : ∃ k, d = k + 1 ∧ e'.name ≠ [] ∧ 0 ∉ e'.name ∧
      e'.name.length < room ∧ NamesFit k (room - (e'.name.length + 1)) e' := by
  cases d with
  | zero =>
    rw [isEmpty_iff.1 h] at hmem
    cases hmem
  | succ d => exact ⟨d, rfl, h e' hmem⟩

variable {ts : List Bytes}

theorem namesOf_cons {e : KnownSysctl} {x : UInt32}
    (h : namesOf e (x :: vec) = some ts) : ∃ e' ts', e.entries.find? (·.number = x) = some e' ∧
      namesOf e' vec = some ts' ∧ ts = e'.name :: ts' := by
  rw [namesOf] at h
  rcases hfind : e.entries.find? (·.number = x) with _ | e'
  · rw [hfind] at h
    cases h
  · rw [hfind] at h
    obtain ⟨ts', hts', rfl⟩ := Option.map_eq_some_iff.1 h
    exact ⟨e', ts', hfind, hts', rfl⟩

theorem NamesFit.of_namesOf : ∀ {vec : List UInt32} {ts : List Bytes} {d room : ℕ}
    {e : KnownSysctl}, NamesFit d room e → namesOf e vec = some ts →
    vec.length ≤ d ∧ ∀ t ∈ ts, t ≠ [] ∧ 0 ∉ t
  | [], ts, _, _, _, _, hts => by
    cases hts
    exact ⟨Nat.zero_le _, by simp⟩
  | x :: vec, ts, d, room, e, hfit, hts => by
    obtain ⟨e', ts', hfind, hts', rfl⟩ := namesOf_cons hts
    obtain ⟨k, rfl, hname, hnul, -, hbelow⟩ := hfit.of_mem (mem_of_find?_eq_some hfind)
    obtain ⟨hlen, hnames⟩ := hbelow.of_namesOf hts'
    exact ⟨Nat.succ_le_succ hlen, forall_mem_cons.2 ⟨⟨hname, hnul⟩, hnames⟩⟩

theorem dotted_append (s t : Bytes) (ts : List Bytes) :
    dotted ((s ++ t) :: ts) = s ++ dotted (t :: ts) := by
  cases ts with
  | nil => rw [dotted, dotted, intercalate_singleton, intercalate_singleton]
  | cons t' ts =>
    rw [dotted, dotted, intercalate_cons_cons, intercalate_cons_cons]
    simp

theorem foldl_spell : ∀ {ts : List Bytes} {sname : Bytes}, sname ≠ [] →
    ts.foldl spell sname = dotted (sname :: ts)
  | [], sname, _ => intercalate_singleton.symm
  | t :: ts, sname, h => by
    have hspell : spell sname t = sname ++ [dot] ++ t := by rw [spell, if_neg h]
    rw [foldl_cons, hspell, foldl_spell (by simp), dotted_append, dotted, dotted,
      intercalate_cons_cons]

theorem foldl_spell_nil (h : ∀ t ∈ ts, t ≠ []) : ts.foldl spell [] = dotted ts := by
  cases ts with
  | nil => rfl
  | cons t ts => exact foldl_spell (h t mem_cons_self)

theorem not_mem_dotted : ∀ {ts : List Bytes}, (∀ t ∈ ts, 0 ∉ t) → 0 ∉ dotted ts
  | [], _ => by simp [dotted]
  | [t], h => by
    rw [dotted, intercalate_singleton]
    exact h t mem_cons_self
  | t :: t' :: ts, h => by
    have ih := not_mem_dotted fun u hu => h u (mem_cons_of_mem t hu)
    rw [dotted, intercalate_cons_cons, mem_append, mem_append, not_or, not_or]
    exact ⟨⟨h t mem_cons_self, by decide⟩, ih⟩

variable {read : ℕ → Option UInt32}

theorem oidToNameLoop_inside : ∀ {n i d room : ℕ} {current : KnownSysctl} {sname : Bytes},
    NamesFit d room current → taken sname + room ≤ 64 →
    oidToNameLoop read n i current sname ≠ .error .array
  | 0, _, _, _, _, _, _, _ => nofun
  | n + 1, i, d, room, current, sname, hfit, hroom => by
    rw [oidToNameLoop]
    rcases hread : read i with _ | x
    · exact nofun
    rcases hfind : current.entries.find? (·.number = x) with _ | next
    · simp only [vector, ok_bind, hfind]
      exact nofun
    obtain ⟨k, rfl, hname, -, hlen, hbelow⟩ := hfit.of_mem (mem_of_find?_eq_some hfind)
    have hspell := length_spell sname next.name
    simp only [vector, ok_bind, hfind]
    rw [← spell, if_neg (by omega)]
    split_ifs
    · refine oidToNameLoop_inside hbelow ?_
      rw [taken_spell hname]
      omega
    · exact nofun

theorem oidToNameLoop_names : ∀ {vec : List UInt32} {ts : List Bytes} {i d room : ℕ}
    {current : KnownSysctl} {sname : Bytes}, NamesFit d room current → taken sname + room ≤ 64 →
    namesOf current vec = some ts → (∀ j x, vec[j]? = some x → read (i + j) = some x) →
    oidToNameLoop read vec.length i current sname = .ok (.ok (ts.foldl spell sname))
  | [], ts, i, d, room, current, sname, _, _, hts, _ => by
    cases hts
    rfl
  | x :: vec, ts, i, d, room, current, sname, hfit, hroom, hts, hread => by
    obtain ⟨next, ts', hfind, hts', rfl⟩ := namesOf_cons hts
    obtain ⟨k, rfl, hname, -, hlen, hbelow⟩ := hfit.of_mem (mem_of_find?_eq_some hfind)
    have hspell := length_spell sname next.name
    have hx : read i = some x := hread 0 x rfl
    rw [length_cons, oidToNameLoop, hx]
    simp only [vector, ok_bind, hfind]
    rw [← spell, if_neg (by omega), foldl_cons]
    cases next with
    | leaf =>
      rcases vec with _ | ⟨y, vec⟩
      · cases hts'
        rfl
      · cases hts'
    | node =>
      refine oidToNameLoop_names hbelow ?_ hts' fun j y hj => ?_
      · rw [taken_spell hname]
        omega
      · rw [← hread (j + 1) y hj, Nat.add_right_comm, Nat.add_assoc]

variable {ω : Type} {w : ω}

theorem handleOidToName_inside (name : Option (List UInt32)) (nlen : ℤ) (a : Args) (w : ω) :
    handleOidToName name nlen a w ≠ .error .array := by
  have hloop : oidToNameLoop (fun i => readName name (i + 2)) (nlen - 2).toNat 0 sysctlsRoot [] ≠
      .error .array := oidToNameLoop_inside sysctlsRoot_namesFit (by decide)
  rw [handleOidToName]
  rcases hr : oidToNameLoop (fun i => readName name (i + 2)) (nlen - 2).toNat 0 sysctlsRoot []
    with e | rv | sname
  · exact fun h => hloop (by rw [hr, Except.error.inj h])
  · rintro ⟨⟩
  · intro h
    cases copyoutString_buffered a w sname _ h

theorem oidToName_serves (m : Machine ω) (hts : namesOf sysctlsRoot vec = some ts) :
    Serves (sysSysctl m (some (0 :: 1 :: vec)) (vec.length + 2)) (dotted ts) w := by
  obtain ⟨hlen, hnames⟩ := sysctlsRoot_namesFit.of_namesOf hts
  have hint : ((vec.length + 2 : ℕ) : ℤ).bmod (2 ^ 32) = (vec.length + 2 : ℕ) :=
    Int.bmod_eq_of_le (by omega) (by omega)
  have hloop : oidToNameLoop (fun i => readName (some (0 :: 1 :: vec)) (i + 2)) vec.length 0
      sysctlsRoot [] = .ok (.ok (ts.foldl spell [])) :=
    oidToNameLoop_names sysctlsRoot_namesFit (by decide) hts
      fun j x hj => by rw [Nat.zero_add]; exact hj
  have hcall : sysSysctl m (some (0 :: 1 :: vec)) (vec.length + 2) = copyoutString (dotted ts) := by
    funext a w
    have hrun : handleOidToName (some (0 :: 1 :: vec)) (vec.length + 2 : ℕ) a w =
        copyoutString (dotted ts) a w := by
      have hn : (((vec.length + 2 : ℕ) : ℤ) - 2).toNat = vec.length := by omega
      rw [handleOidToName, hn, hloop, foldl_spell_nil fun t ht => (hnames t ht).1]
      rfl
    rw [← hrun, sysSysctl, hint]
    rfl
  rw [hcall]
  exact copyoutString_serves (not_mem_dotted fun t ht => (hnames t ht).2)

end OidToName

section Served

variable {ω : Type} (src : Source ω) (m : Machine ω) (w : ω) {s : Bytes} {current : KnownSysctl}
  {h : Plain} {run : Call ω}

section

variable (hcurrent : current.data.handler = some (.plain h))
  (hh : stringHandler src h = some (some s, run))

include hcurrent hh

theorem sysSysctl_serves (hvec : entryByOid (some vec) vec.length = some (.ok current)) :
    Serves (sysSysctl (src.install m) (some vec) vec.length) s w := by
  have hcall : sysSysctl (src.install m) (some vec) vec.length = fun a w =>
      finish (src.install m) (some vec) ((vec.length : ℤ).bmod (2 ^ 32)) a w current := by
    funext a w
    rw [sysSysctl, hvec]
    rfl
  rw [hcall]
  exact finish_serves src m hcurrent hh _ _

theorem sysSysctlbyname_serves {name : Bytes} (hname : entryByName name = .ok current) :
    Serves (sysSysctlbyname (src.install m) name) s w := by
  have hremote : name ≠ noremotehang := by
    rintro rfl
    cases hname
  have hcall : sysSysctlbyname (src.install m) name = fun a w =>
      finish (src.install m) none 0 a w current := by
    funext a w
    rw [sysSysctlbyname, if_neg hremote, hname]
  rw [hcall]
  exact finish_serves src m hcurrent hh _ _

end

/-- A string is served by number and by name, and so is the name that a vector of the tables has.
No vector leads out of the array that the name is put together in. -/
theorem strings_served : (∀ current h s run, current.data.handler = some (.plain h) →
      stringHandler src h = some (some s, run) →
      (∀ vec, entryByOid (some vec) vec.length = some (.ok current) →
        Serves (sysSysctl (src.install m) (some vec) vec.length) s w) ∧
      ∀ name, entryByName name = .ok current →
        Serves (sysSysctlbyname (src.install m) name) s w) ∧
    (∀ vec ts, namesOf sysctlsRoot vec = some ts →
      Serves (sysSysctl (src.install m) (some (0 :: 1 :: vec)) (vec.length + 2)) (dotted ts) w) ∧
    ∀ name nlen a, handleOidToName name nlen a w ≠ .error .array := by
  refine ⟨fun current h s run hcurrent hh => ⟨fun vec hvec => ?_, fun name hname => ?_⟩,
    fun vec ts hts => oidToName_serves _ hts, fun name nlen a => handleOidToName_inside _ _ _ _⟩
  · exact sysSysctl_serves src m w hcurrent hh hvec
  · exact sysSysctlbyname_serves src m w hcurrent hh hname

/-- A host that has names, on a processor that does not tell the second of its own. -/
def sampleSource : Source Unit where
  nodename := ascii "host".toList
  domainname := ascii "local".toList
  machine := ascii "x86_64".toList
  vendor := ascii "GenuineIntel".toList
  brandString := none
  maxLeaf := 22
  signature := 0x306c3
  sethostname _ _ w := (0, w)
  setdomainname _ _ w := (0, w)
  errnos := id
  nodename_nul := by decide
  domainname_nul := by decide
  machine_nul := by decide
  vendor_nul := by decide
  brandString_nul := nofun

theorem strings_served_ostype :
    Serves (sysSysctl (sampleSource.install oneCpu) (some [1, 1]) 2) emulatedSysname () ∧
      Serves (sysSysctlbyname (sampleSource.install oneCpu) (ascii "kern.ostype".toList))
        emulatedSysname () ∧
      Serves (sysSysctl (sampleSource.install oneCpu) (some [0, 1, 1, 1]) 4)
        (ascii "kern.ostype".toList) () := by
  obtain ⟨hstring, hoid, -⟩ := strings_served sampleSource oneCpu ()
  obtain ⟨hnumber, hname⟩ := hstring
    (variable_ 1 .string "S" "ostype" (.plain .ostype)) .ostype emulatedSysname handleOstype rfl rfl
  exact ⟨hnumber [1, 1] rfl, hname _ rfl,
    hoid [1, 1] [ascii "kern".toList, ascii "ostype".toList] rfl⟩

/-- The buffer has the size that was reported, and the last letter is lost. -/
theorem ostype_truncated :
    sysSysctl (sampleSource.install oneCpu) (some [1, 1]) 2 ⟨none, some 0, none, 0⟩ () =
      .ok ⟨0, none, some 6, ()⟩ ∧
    sysSysctl (sampleSource.install oneCpu) (some [1, 1]) 2
        ⟨some (List.replicate 6 255), some 6, none, 0⟩ () =
      .ok ⟨0, some (ascii "Darwi".toList ++ [0]), some 6, ()⟩ ∧
    ¬ Spells 0 (ascii "Darwi".toList ++ [0]) emulatedSysname := by
  refine ⟨rfl, rfl, ?_⟩
  rintro ⟨-, rest, heq⟩
  cases heq

end Served

end Darling.Sysctl
