import Darling.Proofs.Readline
import Darling.Proofs.Smaps

/-!
# Looking for the mapping of an address

The two calls find the mapping that has the address in it and no other.  The path they hand out is
the name of the last mapping, up to that one, that has a name, and what the stack held if none has.
-/

namespace Darling.RegionPath

open CArray Fields Readline List
open Mapping (numbers)
open Option (some.inj)

/-- No `read` fails. -/
def Ok (f : Input) : Prop := ∀ e, Answer.fails e ∉ f.answers

theorem Ok.mono {f f' : Input} (h : Ok f) (hsub : f'.answers ⊆ f.answers) : Ok f' :=
  fun e he => h e (hsub he)

section Lines

variable {b : RdlineBuffer} {f : Input} {t l r : Bytes}

theorem readline_line (h : Holds b f t) (hok : Ok f) (hcut : Cut t l r) :
    ∃ b' f' stale, readline b f = some (true, b', f') ∧ b'.buffer = l ++ 0 :: stale ∧
      Holds b' f' r ∧ Ok f' := by
  obtain ⟨res, hres, hout⟩ := readline_outcome h
  cases hout with
  | line hcut' hbuf hholds hans =>
    obtain ⟨rfl, rfl⟩ := hcut'.unique hcut
    exact ⟨_, _, _, hres, hbuf, hholds, hok.mono hans⟩
  | stop hstop =>
    rcases hstop with rfl | ⟨e, he⟩
    · exact absurd hcut.length_lt (Nat.not_lt_zero _)
    · exact absurd he (hok e)

theorem readline_end (h : Holds b f []) : ∃ b' f', readline b f = some (false, b', f') := by
  obtain ⟨res, hres, hout⟩ := readline_outcome h
  cases hout with
  | line hcut _ _ _ => exact absurd hcut.length_lt (Nat.not_lt_zero _)
  | stop _ => exact ⟨_, _, hres⟩

end Lines

/-- Where a call has the address, the size and the path, and that it stores the rest elsewhere. -/
structure Flavor.Laid (k : Flavor) (addr size path : ℕ) : Prop where
  address_eq : k.targets.address = some addr
  size_eq : k.targets.size = some size
  path_eq : k.targets.path = some path
  fits : path + 1024 = k.sizeof
  below : ∀ m : Mapping, ∀ w ∈ m.numbers k.targets, ∀ i ∈ w.1, i + w.2.length ≤ path
  apart : ∀ m : Mapping, (m.numbers k.targets).Pairwise Apart

theorem laid_regionpathinfo : regionpathinfo.Laid 80 88 248 where
  address_eq := rfl
  size_eq := rfl
  path_eq := rfl
  fits := rfl
  below m := by simp [numbers, regionpathinfo]
  apart m := by simp [numbers, regionpathinfo, Apart]

theorem laid_regionpath : regionpath.Laid 0 8 16 where
  address_eq := rfl
  size_eq := rfl
  path_eq := rfl
  fits := rfl
  below m := by simp [numbers, regionpath]
  apart m := by simp [numbers, regionpath, Apart]

theorem Mapping.name_length (m : Mapping) : m.name.length ≤ 1022 := by
  have := m.header_fits
  simp only [MappingFields.header, length_append, length_cons] at this
  omega

theorem Mapping.header_newline (m : Mapping) : 10 ∉ m.header := by
  have hhex : ∀ {w n : ℕ}, 10 ∉ hex w n := not_mem_hex (by decide)
  have hino : 10 ∉ decimal m.ino := fun h => absurd (isdigit_decimal m.ino 10 h) (by decide)
  have hletters : 10 ∉ m.letters := by
    rw [MappingFields.letters]
    cases m.read <;> cases m.write <;> cases m.exec <;> cases m.priv <;> decide
  have hname : 10 ∉ m.name := fun h => (m.name_ok.1 10 h).2 rfl
  simp [MappingFields.header, hhex, hino, hletters, hname]

namespace Flavor.Laid

variable {k : Flavor} {addr size path : ℕ} (hk : k.Laid addr size path) (m : Mapping)

include hk

theorem writes_below : ∀ w ∈ m.writes k.targets, Fits k.sizeof w.1 w.2.length := by
  intro w hw i hi
  have hfits := hk.fits
  rcases mem_append.1 hw with hw | hw
  · have := hk.below m w hw i hi
    omega
  · split_ifs at hw
    · cases hw
    · rw [mem_singleton.1 hw, hk.path_eq] at hi
      obtain rfl := some.inj hi
      have := m.name_length
      rw [mem_singleton.1 hw, length_append, length_singleton]
      omega

theorem writes_apart : (m.writes k.targets).Pairwise Apart := by
  rw [Mapping.writes, pairwise_append]
  refine ⟨hk.apart m, by split_ifs <;> simp, ?_⟩
  intro w hw w' hw' i hi i' hi'
  split_ifs at hw'
  · cases hw'
  · rw [mem_singleton.1 hw', hk.path_eq] at hi'
    obtain rfl := some.inj hi'
    exact .inl (hk.below m w hw i hi)

theorem exists_writes {frame : Bytes} (hframe : frame.length = k.sizeof) :
    ∃ frame', puts frame (m.writes k.targets) = some frame' ∧ frame'.length = k.sizeof := by
  obtain ⟨frame', h⟩ := @exists_puts _ (m.writes k.targets) frame (hframe ▸ hk.writes_below m)
  exact ⟨frame', h, (length_of_puts h).trans hframe⟩

variable {m} {frame frame' : Bytes}

section

variable (h : puts frame (m.writes k.targets) = some frame')

include h

section

variable {i n x : ℕ} (hmem : (some i, le n x) ∈ m.numbers k.targets) (hx : x < 256 ^ n)

include hmem hx

theorem load_number : load n frame' i = some x := by
  have hslice := slice_of_puts h (hk.writes_apart m) (mem_append_left _ hmem)
  rw [le_length] at hslice
  rw [load_of_slice hslice, unle_le_of_lt hx]

theorem load_output (rest : Bytes) : load n (frame' ++ rest) i = some x := by
  have := load_append [] rest (hk.load_number h hmem hx)
  rwa [length_nil, Nat.zero_add] at this

end

theorem inRegion_eq (arg : ℕ) : inRegion k.targets arg frame' = some (decide (m.Contains arg)) := by
  have hstart := m.start_lt
  have hstop := m.stop_lt
  have haddr : load 8 frame' addr = some m.start :=
    hk.load_number h (by simp [numbers, hk.address_eq]) (by omega)
  have hsize : load 8 frame' size = some (m.stop - m.start) :=
    hk.load_number h (by simp [numbers, hk.size_eq]) (by omega)
  have hend : (m.start + (m.stop - m.start)) % 2 ^ 64 = m.stop := by omega
  unfold inRegion
  simp only [hk.address_eq, hk.size_eq, haddr, hsize, some_bind, hend]
  rfl

theorem str_path : str 0 frame' path = if m.name = [] then str 0 frame path else some m.name := by
  rw [Mapping.writes, puts_append, Option.bind_eq_some_iff] at h
  obtain ⟨c, hc, h⟩ := h
  have hdrop := drop_of_puts hc (hk.below m)
  split_ifs at h ⊢ with hname
  · rw [← some.inj h, str, str, hdrop]
  · have hnul : 0 ∉ m.name := fun h0 => (m.name_ok.1 0 h0).1 rfl
    rw [puts_cons, hk.path_eq, Option.bind_eq_some_iff] at h
    obtain ⟨d, hd, h⟩ := h
    rw [← some.inj h]
    exact str_of_slice hnul (slice_of_blit hd)

end

end Flavor.Laid

/-- A line none of whose pieces, as the line reader hands them out, begins with an address range. -/
def PlainLine (l : Bytes) : Prop := ∀ i, Plain ((l.drop (1023 * i)).take 1023)

/-- No attribute line is taken for a first line. -/
def Mapping.PlainAttributes (m : Mapping) : Prop := ∀ l ∈ m.attributes, PlainLine l

def shown (ms : List Mapping) (stack : Option Bytes) : Option Bytes :=
  ms.foldl (fun path m => if m.name = [] then path else some m.name) stack

variable {m : Mapping} {l : Bytes}

section Search

variable {k : Flavor} {addr size path : ℕ} (hk : k.Laid addr size path) {arg : ℕ}

/-- The reader is at this text, with rounds enough for it. -/
structure Ready (k : Flavor) (t : Bytes) (fuel : ℕ) (b : RdlineBuffer) (f : Input) (frame : Bytes) :
    Prop where
  holds : Holds b f t
  ok : Ok f
  fuel_lt : t.length < fuel
  length : frame.length = k.sizeof

/-- The search goes on from `t` to `r`, with the path changed by `g`. -/
def Passes (k : Flavor) (arg path : ℕ) (t r : Bytes) (g : Option Bytes → Option Bytes) : Prop :=
  ∀ ⦃fuel : ℕ⦄ ⦃b : RdlineBuffer⦄ ⦃f : Input⦄ ⦃frame : Bytes⦄, Ready k t fuel b f frame →
    ∃ fuel' b' f' frame', Ready k r fuel' b' f' frame' ∧
      str 0 frame' path = g (str 0 frame path) ∧
      search k.targets k.breaks arg fuel false b f frame =
        search k.targets k.breaks arg fuel' false b' f' frame'

theorem passes_refl (t : Bytes) : Passes k arg path t t id :=
  fun _ _ _ _ h => ⟨_, _, _, _, h, rfl, rfl⟩

variable {t r frame : Bytes} {fuel : ℕ} {b : RdlineBuffer} {f : Input}

theorem Passes.trans {s : Bytes} {g g' : Option Bytes → Option Bytes} (h : Passes k arg path t r g)
    (h' : Passes k arg path r s g') : Passes k arg path t s (g' ∘ g) := by
  intro fuel b f frame hready
  obtain ⟨fuel₁, b₁, f₁, frame₁, hready₁, hpath₁, hsearch₁⟩ := h hready
  obtain ⟨fuel₂, b₂, f₂, frame₂, hready₂, hpath₂, hsearch₂⟩ := h' hready₁
  exact ⟨fuel₂, b₂, f₂, frame₂, hready₂, by rw [hpath₂, hpath₁]; rfl, hsearch₁.trans hsearch₂⟩

theorem search_found : ∀ {fuel : ℕ} {b : RdlineBuffer} {f : Input} {frame t : Bytes},
    Ready k t fuel b f frame →
    search k.targets k.breaks arg fuel true b f frame = some (true, frame)
  | 0, _, _, _, _, h => absurd h.fuel_lt (Nat.not_lt_zero _)
  | fuel + 1, b, f, frame, t, h => by
    obtain ⟨res, hres, hout⟩ := readline_outcome h.holds
    rw [search, hres]
    cases hout with
    | line hcut _ hholds hans =>
      have hlt := h.fuel_lt
      have hshort := hcut.length_lt
      exact search_found ⟨hholds, h.ok.mono hans, by omega, h.length⟩
    | stop _ => rfl

/-- What the search says it has found has the address in it, as far as the structure goes. -/
theorem inRegion_of_search : ∀ {fuel : ℕ} {found : Bool} {b : RdlineBuffer} {f : Input}
    {frame frame' : Bytes},
    search k.targets k.breaks arg fuel found b f frame = some (true, frame') →
    (found = true → inRegion k.targets arg frame = some true) →
    inRegion k.targets arg frame' = some true
  | 0, _, _, _, _, _, h, _ => nomatch h
  | fuel + 1, found, b, f, frame, frame', h, hfound => by
    rw [search] at h
    obtain ⟨⟨more, b', f'⟩, -, h⟩ := Option.bind_eq_some_iff.1 h
    cases more with
    | false =>
      obtain ⟨rfl, rfl⟩ := Prod.mk.inj (some.inj h)
      exact hfound rfl
    | true =>
      cases found with
      | true => exact inRegion_of_search h hfound
      | false =>
        obtain ⟨parsed, -, h⟩ := Option.bind_eq_some_iff.1 h
        cases parsed with
        | none => exact inRegion_of_search h nofun
        | some frame₁ =>
          obtain ⟨inside, hin, h⟩ := Option.bind_eq_some_iff.1 h
          split_ifs at h with hbreak
          · obtain ⟨-, rfl⟩ := Prod.mk.inj (some.inj h)
            rw [hin, ((Bool.and_eq_true _ _).mp hbreak).1]
          · exact inRegion_of_search h fun hi => hi ▸ hin

theorem search_end (h : Ready k [] fuel b f frame) :
    search k.targets k.breaks arg fuel false b f frame = some (false, frame) := by
  obtain ⟨b', f', hend⟩ := readline_end h.holds
  cases fuel with
  | zero => exact absurd h.fuel_lt (Nat.not_lt_zero _)
  | succ fuel => rw [search, hend]; rfl

theorem Ready.next (h : Ready k t fuel b f frame)
    (hcut : Cut t l r) : ∃ fuel' b' f' stale, fuel = fuel' + 1 ∧
      readline b f = some (true, b', f') ∧ b'.buffer = l ++ 0 :: stale ∧
      ∀ {frame' : Bytes}, frame'.length = k.sizeof → Ready k r fuel' b' f' frame' := by
  have hlt := h.fuel_lt
  have hshort := hcut.length_lt
  obtain ⟨b', f', stale, hread, hbuf, hholds, hok⟩ := readline_line h.holds h.ok hcut
  exact ⟨fuel - 1, b', f', stale, by omega, hread, hbuf,
    fun hframe => ⟨hholds, hok, by omega, hframe⟩⟩

theorem passes_piece (hcut : Cut t l r) (hnul : ∀ c ∈ l, c ≠ 0) (hplain : Plain l) :
    Passes k arg path t r id := by
  intro fuel b f frame h
  obtain ⟨fuel', b', f', stale, rfl, hread, hbuf, hready⟩ := h.next hcut
  refine ⟨fuel', b', f', frame, hready h.length, rfl, ?_⟩
  rw [search, hread]
  simp [hbuf, parse_plain hnul hplain]

theorem passes_line (r : Bytes) : ∀ {n : ℕ} {l : Bytes}, l.length ≤ n → (∀ c ∈ l, c ≠ 0 ∧ c ≠ 10) →
    PlainLine l → Passes k arg path (l ++ 10 :: r) r id := by
  intro n
  induction n using Nat.strong_induction_on with
  | _ n ih =>
    intro l hn hl hplain
    have hnewline : 10 ∉ l := fun h => (hl 10 h).2 rfl
    have hfirst := hplain 0
    rw [Nat.mul_zero, drop_zero] at hfirst
    by_cases hlen : l.length ≤ 1022
    · rw [take_of_length_le (by omega)] at hfirst
      exact passes_piece (.newline hnewline hlen) (fun c hc => (hl c hc).1) hfirst
    · have htake : (l.take 1023).length = 1023 := by rw [length_take]; omega
      have hcut : Cut (l ++ 10 :: r) (l.take 1023) (l.drop 1023 ++ 10 :: r) := by
        have := @Cut.full (l.take 1023) (l.drop 1023 ++ 10 :: r)
          (fun h => hnewline (mem_of_mem_take h)) htake
        rwa [← append_assoc, take_append_drop] at this
      have hpiece : Passes k arg path _ _ id :=
        passes_piece hcut (fun c hc => (hl c (mem_of_mem_take hc)).1) hfirst
      have hdrop : (l.drop 1023).length < n := by rw [length_drop]; omega
      have hrest : Passes k arg path (l.drop 1023 ++ 10 :: r) r id := by
        refine ih _ hdrop le_rfl (fun c hc => hl c (mem_of_mem_drop hc)) fun i => ?_
        have := hplain (i + 1)
        rwa [Nat.mul_add, Nat.mul_one, Nat.add_comm, ← drop_drop] at this
      exact hpiece.trans hrest

theorem passes_attributes (r : Bytes) : ∀ {ls : List Bytes}, (∀ l ∈ ls, ∀ c ∈ l, c ≠ 0 ∧ c ≠ 10) →
    (∀ l ∈ ls, PlainLine l) → Passes k arg path (ls.flatMap (· ++ [10]) ++ r) r id
  | [], _, _ => passes_refl r
  | l :: ls, hl, hplain => by
    rw [forall_mem_cons] at hl hplain
    have hfirst : Passes k arg path (l ++ 10 :: (ls.flatMap (· ++ [10]) ++ r)) _ id :=
      passes_line _ le_rfl hl.1 hplain.1
    have := hfirst.trans (passes_attributes r hl.2 hplain.2)
    simpa [flatMap_cons] using this

include hk

theorem search_header (m : Mapping) (h : Ready k (m.header ++ 10 :: r) fuel b f frame) :
    ∃ fuel' b' f' frame', Ready k r fuel' b' f' frame' ∧
      puts frame (m.writes k.targets) = some frame' ∧
      search k.targets k.breaks arg fuel false b f frame =
        if m.Contains arg then some (true, frame')
        else search k.targets k.breaks arg fuel' false b' f' frame' := by
  obtain ⟨fuel', b', f', stale, rfl, hread, hbuf, hready⟩ :=
    h.next (.newline m.header_newline m.header_fits)
  obtain ⟨frame', hframe', hlen⟩ := hk.exists_writes m h.length
  refine ⟨fuel', b', f', frame', hready hlen, hframe', ?_⟩
  rw [search, hread]
  simp only [some_bind, Bool.false_eq_true, if_false, hbuf,
    m.parse_header, hframe', Option.map_some, hk.inRegion_eq hframe']
  by_cases hin : m.Contains arg
  · simp only [hin, decide_true, Bool.true_and, if_true]
    split_ifs
    · rfl
    · exact search_found (hready hlen)
  · simp [hin]

theorem passes_header (hm : ¬ m.Contains arg) (r : Bytes) :
    Passes k arg path (m.header ++ 10 :: r) r (shown [m]) := by
  intro fuel b f frame h
  obtain ⟨fuel', b', f', frame', hready, hwrites, hsearch⟩ := search_header hk m h
  rw [if_neg hm] at hsearch
  exact ⟨fuel', b', f', frame', hready, hk.str_path hwrites, hsearch⟩

theorem passes_mapping (hm : ¬ m.Contains arg) (hplain : m.PlainAttributes) (r : Bytes) :
    Passes k arg path (m.lines.flatMap (· ++ [10]) ++ r) r (shown [m]) := by
  have := (passes_header hk hm _).trans (passes_attributes r m.attributes_ok hplain)
  simpa [Mapping.lines, flatMap_cons] using this

theorem passes_maps (r : Bytes) : ∀ {ms : List Mapping}, (∀ m ∈ ms, ¬ m.Contains arg) →
    (∀ m ∈ ms, m.PlainAttributes) →
    Passes k arg path (ms.flatMap (fun m => m.lines.flatMap (· ++ [10])) ++ r) r (shown ms)
  | [], _, _ => passes_refl r
  | m :: ms, hm, hplain => by
    rw [forall_mem_cons] at hm hplain
    rw [flatMap_cons, append_assoc]
    exact (passes_mapping hk hm.1 hplain.1 _).trans (passes_maps r hm.2 hplain.2)

end Search

/-- How a call is made: what `read` answers, the stack, and the caller's buffer. -/
structure Setting (sizeof : ℕ) where
  answers : List Answer
  frame : Bytes
  stack : Bytes
  buffer : Bytes
  answers_ok : ∀ e, Answer.fails e ∉ answers
  frame_length : frame.length = sizeof
  stack_length : stack.length = 1024
  sizeof_le : sizeof ≤ buffer.length
  buffer_lt : buffer.length < 2 ^ 31

def Setting.run {k : Flavor} (c : Setting k.sizeof) (s : Smaps) (a : ℕ) :
    Option (ℤ × Option Bytes) :=
  k.call (.ok ⟨s.text, c.answers⟩) a (some c.buffer) c.buffer.length c.frame c.stack

section Calls

variable {k : Flavor} {addr size path : ℕ} (hk : k.Laid addr size path) (c : Setting k.sizeof)
  (s : Smaps) (a : ℕ)

theorem Setting.ready : Ready k s.text (s.text.length + 1) (readlineInit c.stack)
    ⟨s.text, c.answers⟩ c.frame where
  holds := holds_init c.stack_length _
  ok := c.answers_ok
  fuel_lt := Nat.lt_succ_self _
  length := c.frame_length

theorem Setting.run_eq_search : c.run s a =
    (search k.targets k.breaks a (s.text.length + 1) false (readlineInit c.stack)
      ⟨s.text, c.answers⟩ c.frame).bind fun res => (blit c.buffer 0 res.2).bind fun out =>
        some (if res.1 then k.hit else k.miss, some out) := by
  have hle := c.sizeof_le
  have hlt := c.buffer_lt
  have hsize : ¬ (c.buffer.length : ℤ) % 2 ^ 64 < k.sizeof := by omega
  unfold Setting.run Flavor.call
  simp only [hsize, if_false]
  rfl

theorem Setting.run_eq {found : Bool} {frame : Bytes} (hlen : frame.length = k.sizeof)
    (h : search k.targets k.breaks a (s.text.length + 1) false (readlineInit c.stack)
      ⟨s.text, c.answers⟩ c.frame = some (found, frame)) :
    c.run s a = some (if found then k.hit else k.miss, some (frame ++ c.buffer.drop k.sizeof)) := by
  have hblit : blit c.buffer 0 frame = some (frame ++ c.buffer.drop k.sizeof) := by
    have := @blit_room _ [] c.buffer frame (hlen.trans_le c.sizeof_le)
    rwa [hlen] at this
  rw [c.run_eq_search, h, Option.bind_some]
  simp only [hblit]
  rfl

include hk

theorem Setting.run_found {pre post : List Mapping} (hs : s.maps = pre ++ m :: post)
    (hpre : ∀ x ∈ pre, ¬ x.Contains a) (hm : m.Contains a) (hplain : ∀ x ∈ pre, x.PlainAttributes) :
    ∃ frame frame', str 0 frame path = shown pre (str 0 c.frame path) ∧
      puts frame (m.writes k.targets) = some frame' ∧
      c.run s a = some (k.hit, some (frame' ++ c.buffer.drop k.sizeof)) := by
  have htext : s.text = pre.flatMap (fun m => m.lines.flatMap (· ++ [10])) ++ (m.header ++
      10 :: (m.attributes.flatMap (· ++ [10]) ++
        post.flatMap fun m => m.lines.flatMap (· ++ [10]))) := by
    rw [Smaps.text, hs]
    simp [Mapping.lines]
  have hready := c.ready s
  rw [htext] at hready
  obtain ⟨fuel, b, f, frame, hready', hpath, hpass⟩ := passes_maps hk _ hpre hplain hready
  obtain ⟨fuel', b', f', frame', hready'', hwrites, hsearch⟩ := search_header hk m hready'
  rw [hsearch, if_pos hm, ← htext] at hpass
  exact ⟨frame, frame', hpath, hwrites, c.run_eq s a hready''.length hpass⟩

variable {c s a} in
theorem Setting.address_le_of_hit (hne : k.hit ≠ k.miss) {out : Bytes} {x : ℕ}
    (h : c.run s a = some (k.hit, some out)) (hx : load 8 out addr = some x) : x ≤ a := by
  rw [c.run_eq_search] at h
  obtain ⟨⟨found, frame⟩, hsearch, h⟩ := Option.bind_eq_some_iff.1 h
  obtain ⟨out', hblit, h⟩ := Option.bind_eq_some_iff.1 h
  obtain ⟨hhit, hout⟩ := Prod.mk.inj (some.inj h)
  obtain rfl := some.inj hout
  have hfound : found = true := by
    by_contra hf
    exact hne (by simpa [hf] using hhit.symm)
  subst hfound
  obtain ⟨y, hy, hya⟩ : ∃ y, load 8 frame addr = some y ∧ y ≤ a := by
    have hin := inRegion_of_search hsearch nofun
    unfold inRegion at hin
    simp only [hk.address_eq, hk.size_eq, some_bind] at hin
    obtain ⟨y, hy, hin⟩ := Option.bind_eq_some_iff.1 hin
    obtain ⟨size, -, hin⟩ := Option.bind_eq_some_iff.1 hin
    exact ⟨y, hy, (of_decide_eq_true (some.inj hin)).1⟩
  have hlen : frame.length ≤ c.buffer.length := by
    by_contra hlen
    exact nomatch hblit.symm.trans (blit_outside (by dsimp only; omega))
  have hroom := hblit.symm.trans (@blit_room _ [] c.buffer frame hlen)
  have hy' := load_append [] (c.buffer.drop frame.length) hy
  rw [← some.inj hroom, length_nil, Nat.zero_add, hx] at hy'
  exact some.inj hy' ▸ hya

theorem Setting.run_missed (hs : ∀ x ∈ s.maps, ¬ x.Contains a)
    (hplain : ∀ x ∈ s.maps, x.PlainAttributes) : ∃ out, c.run s a = some (k.miss, some out) := by
  have hready := c.ready s
  have hpasses := passes_maps hk [] hs hplain
  rw [append_nil] at hpasses
  obtain ⟨fuel, b, f, frame, hready', hpath, hpass⟩ := hpasses hready
  rw [search_end hready'] at hpass
  exact ⟨_, c.run_eq s a hready'.length hpass⟩

end Calls

/-- The structure has the mapping. -/
structure Mapping.Filled (m : Mapping) (out : Bytes) : Prop where
  address : load 8 out 80 = some m.start
  size : load 8 out 88 = some (m.stop - m.start)
  protection : load 4 out 0 = some m.protection
  shareMode : load 4 out 60 = some m.shareMode
  offset : load 8 out 16 = some m.offset
  dev : load 4 out 96 = some m.device
  ino : load 8 out 104 = some m.ino
  path : str 0 out 248 = some m.name

/-- The structure has the place and the path of the mapping. -/
structure Mapping.Located (m : Mapping) (out : Bytes) : Prop where
  address : load 8 out 0 = some m.start
  size : load 8 out 8 = some (m.stop - m.start)
  path : str 0 out 16 = some m.name

namespace Smaps

variable (s : Smaps) (a : ℕ)

/-- `PROC_PIDREGIONPATHINFO` describes the mapping with `a` in it or the next one. -/
def InfoRight : Prop :=
  ∀ c : Setting regionpathinfo.sizeof,
    let res := procPidinfoRegionpathinfo (.ok ⟨s.text, c.answers⟩) a (some c.buffer) c.buffer.length
      c.frame c.stack
    match s.above a with
    | some m => ∃ out, res = some (1, some out) ∧ m.Filled out
    | none => ∃ out, res = some (fail SysctlProc.esrch, some out)

/-- A call for an address in a mapping returns that mapping. -/
def PathRight : Prop :=
  ∀ c : Setting regionpath.sizeof, ∀ m ∈ s.maps, m.Contains a →
    ∃ out, procPidinfoRegionpath (.ok ⟨s.text, c.answers⟩) a (some c.buffer) c.buffer.length
      c.frame c.stack = some (0, some out) ∧ m.Located out

end Smaps

theorem Mapping.device_eq_iff (m : Mapping) : m.major <<< 8 ||| m.minor = m.device ↔
    m.minor < 256 := by
  have hmajor := m.major_lt
  have hminor := m.minor_lt
  rw [device]
  constructor
  · intro h
    have hor : m.major <<< 8 ||| m.minor < 2 ^ 20 :=
      Nat.or_lt_two_pow (by rw [Nat.shiftLeft_eq]; omega) hminor
    by_contra hge
    have : 1 ≤ m.minor / 256 := by omega
    omega
  · intro h
    rw [← Nat.shiftLeft_add_eq_or_of_lt (show m.minor < 2 ^ 8 from h), Nat.shiftLeft_eq]
    omega

theorem Mapping.protection_lt (m : Mapping) : m.protection < 8 := by
  rw [protection]
  cases m.read <;> cases m.write <;> cases m.exec <;> decide

theorem Mapping.shareMode_lt (m : Mapping) : m.shareMode < 8 := by
  rw [shareMode]
  cases m.priv <;> decide

section Descriptions

variable {m : Mapping} {frame frame' name : Bytes}

theorem filled_iff (h : puts frame (m.writes regionpathinfo.targets) = some frame')
    (hpath : str 0 frame' 248 = some name) (rest : Bytes) :
    m.Filled (frame' ++ rest) ↔ name = m.name ∧ m.minor < 256 := by
  have hstart := m.start_lt
  have hstop := m.stop_lt
  have hprot := m.protection_lt
  have hshare := m.shareMode_lt
  have hoffset := m.offset_lt
  have hino := m.ino_lt
  have hdev : m.major <<< 8 ||| m.minor < 2 ^ 20 :=
    Nat.or_lt_two_pow (by have := m.major_lt; rw [Nat.shiftLeft_eq]; omega) m.minor_lt
  have hk := laid_regionpathinfo
  have hstr := str_append_left hpath rest
  have hload : load 4 (frame' ++ rest) 96 = some (m.major <<< 8 ||| m.minor) :=
    hk.load_output h (by simp [numbers, regionpathinfo]) (by omega) rest
  constructor
  · intro hf
    refine ⟨some.inj (hstr.symm.trans hf.path), m.device_eq_iff.1 ?_⟩
    exact some.inj (hload.symm.trans hf.dev)
  · rintro ⟨rfl, hminor⟩
    refine ⟨?_, ?_, ?_, ?_, ?_, by rw [hload, m.device_eq_iff.2 hminor], ?_, hstr⟩
    all_goals exact hk.load_output h (by simp [numbers, regionpathinfo]) (by omega) rest

theorem located_of_name (h : puts frame (m.writes regionpath.targets) = some frame')
    (hpath : str 0 frame' 16 = some m.name) (rest : Bytes) : m.Located (frame' ++ rest) := by
  have hstart := m.start_lt
  have hstop := m.stop_lt
  exact {
    address := laid_regionpath.load_output h (by simp [numbers, regionpath]) (by omega) rest
    size := laid_regionpath.load_output h (by simp [numbers, regionpath]) (by omega) rest
    path := str_append_left hpath rest }

end Descriptions

namespace Smaps

variable {s : Smaps} {a : ℕ} {m : Mapping} {pre post : List Mapping}

theorem stop_le_of_before (hs : s.maps = pre ++ m :: post) : ∀ x ∈ pre, x.stop ≤ m.start := by
  have h := s.ordered
  rw [hs, pairwise_append] at h
  exact fun x hx => h.2.2 x hx m mem_cons_self

theorem plain_before (hplain : ∀ x ∈ s.maps, x.stop ≤ a → x.PlainAttributes)
    (hs : s.maps = pre ++ m :: post) (h : m.start ≤ a) : ∀ x ∈ pre, x.PlainAttributes := by
  intro x hx
  have := stop_le_of_before hs x hx
  exact hplain x (by rw [hs]; exact mem_append_left _ hx) (by omega)

theorem not_contains_before (hs : s.maps = pre ++ m :: post) (h : m.start ≤ a) :
    ∀ x ∈ pre, ¬ x.Contains a := by
  intro x hx hin
  have := stop_le_of_before hs x hx
  exact absurd hin.2 (by omega)

theorem above_of_contains (hm : m ∈ s.maps) (h : m.Contains a) : s.above a = some m := by
  obtain ⟨pre, post, hs⟩ := append_of_mem hm
  rw [above, hs, find?_append, find?_eq_none.2, find?_cons_of_pos]
  · rfl
  · exact decide_eq_true h.2
  · intro x hx
    have := stop_le_of_before hs x hx
    have := h.1
    simp only [decide_eq_true_eq]
    omega

section

variable (hplain : ∀ x ∈ s.maps, x.stop ≤ a → x.PlainAttributes)

include hplain

section

variable (hm : m ∈ s.maps) (h : m.Contains a) (hname : m.name ≠ [])

include hm h hname

theorem infoRight_of_named (hminor : m.minor < 256) : s.InfoRight a := by
  intro c
  obtain ⟨pre, post, hs⟩ := append_of_mem hm
  obtain ⟨frame, frame', -, hwrites, hrun⟩ :=
    c.run_found laid_regionpathinfo s a hs (not_contains_before hs h.1) h
      (plain_before hplain hs h.1)
  have hpath := laid_regionpathinfo.str_path hwrites
  rw [if_neg hname] at hpath
  simp only [above_of_contains hm h]
  exact ⟨_, hrun, (filled_iff hwrites hpath _).2 ⟨rfl, hminor⟩⟩

theorem pathRight_of_named : s.PathRight a := by
  intro c m' hm' h'
  obtain rfl : m = m' :=
    some.inj ((above_of_contains hm h).symm.trans (above_of_contains hm' h'))
  obtain ⟨pre, post, hs⟩ := append_of_mem hm
  obtain ⟨frame, frame', -, hwrites, hrun⟩ :=
    c.run_found laid_regionpath s a hs (not_contains_before hs h.1) h
      (plain_before hplain hs h.1)
  have hpath := laid_regionpath.str_path hwrites
  rw [if_neg hname] at hpath
  exact ⟨_, hrun, located_of_name hwrites hpath _⟩

end

theorem infoRight_of_none (h : ∀ x ∈ s.maps, x.stop ≤ a) : s.InfoRight a := by
  intro c
  have habove : s.above a = none := find?_eq_none.2 fun x hx => by
    have := h x hx
    simp only [decide_eq_true_eq]
    omega
  simp only [habove]
  exact c.run_missed laid_regionpathinfo s a (fun x hx hin => absurd hin.2 (by
    have := h x hx
    omega)) fun x hx => hplain x hx (h x hx)

end

end Smaps

theorem shown_ne : ∀ (ms : List Mapping) {name : Bytes}, name ≠ [] →
    ∃ name', name' ≠ [] ∧ shown ms (some name) = some name'
  | [], name, h => ⟨name, h, rfl⟩
  | m :: ms, name, h => by
    rw [shown, foldl_cons]
    split_ifs with hname
    · exact shown_ne ms h
    · exact shown_ne ms hname

def loud : Setting regionpathinfo.sizeof where
  answers := []
  frame := List.replicate 248 0 ++ (List.replicate 1023 1 ++ [0])
  stack := List.replicate 1024 0
  buffer := List.replicate 1272 0
  answers_ok := fun _ => not_mem_nil
  frame_length := by
    rw [length_append, length_append, length_replicate, length_replicate]
    rfl
  stack_length := length_replicate
  sizeof_le := by rw [length_replicate]; exact le_rfl
  buffer_lt := by rw [length_replicate]; decide

theorem str_loud : str 0 loud.frame 248 = some (replicate 1023 1) := by
  have hnul : (0 : Byte) ∉ replicate 1023 1 := fun h =>
    absurd (eq_of_mem_replicate h) (by decide)
  have := str_split hnul (replicate 248 0) []
  rwa [length_replicate] at this

theorem loud_unnamed {s : Smaps} {a : ℕ} (hplain : ∀ x ∈ s.maps, x.stop ≤ a → x.PlainAttributes)
    (hm : m ∈ s.maps) (h : m.Contains a) : ∃ frame frame' name, name ≠ [] ∧
      puts frame (m.writes regionpathinfo.targets) = some frame' ∧ str 0 frame' 248 = some name ∧
      loud.run s a = some (1, some (frame' ++ loud.buffer.drop 1272)) := by
  obtain ⟨pre, post, hs⟩ := append_of_mem hm
  obtain ⟨frame, frame', hpath, hwrites, hrun⟩ :=
    loud.run_found laid_regionpathinfo s a hs (Smaps.not_contains_before hs h.1) h
      (Smaps.plain_before hplain hs h.1)
  have hpath' := laid_regionpathinfo.str_path hwrites
  by_cases hname : m.name = []
  · obtain ⟨name, hne, hshown⟩ := @shown_ne pre (replicate 1023 1)
      (ne_nil_of_length_pos (by rw [length_replicate]; decide))
    rw [if_pos hname, hpath, str_loud, hshown] at hpath'
    exact ⟨frame, frame', name, hne, hwrites, hpath', hrun⟩
  · rw [if_neg hname] at hpath'
    exact ⟨frame, frame', m.name, hname, hwrites, hpath', hrun⟩

/-- Region lookup is right exactly at an address in a mapping that has a name and a device with a
small minor number, and behind the last mapping, if no attribute line in front of the address looks
like the first line of a mapping. -/
theorem regions_iff (s : Smaps) (a : ℕ)
    (hplain : ∀ m ∈ s.maps, m.stop ≤ a → m.PlainAttributes) :
    s.InfoRight a ∧ s.PathRight a ↔
      (∃ m ∈ s.maps, m.Contains a ∧ m.name ≠ [] ∧ m.minor < 256) ∨ ∀ m ∈ s.maps, m.stop ≤ a := by
  constructor
  · rintro ⟨hinfo, -⟩
    have hloud := hinfo loud
    rcases habove : s.above a with _ | m
    · refine .inr fun m hm => ?_
      simpa using find?_eq_none.1 habove m hm
    · have hm : m ∈ s.maps := mem_of_find?_eq_some habove
      simp only [habove] at hloud
      obtain ⟨out, hout, hfilled⟩ := hloud
      by_cases h : m.Contains a
      · obtain ⟨frame, frame', name, hne, hwrites, hpath, hrun⟩ := loud_unnamed hplain hm h
        obtain rfl : frame' ++ loud.buffer.drop 1272 = out := by
          have := hrun.symm.trans hout
          simpa using this
        obtain ⟨rfl, hminor⟩ := (filled_iff hwrites hpath _).1 hfilled
        exact .inl ⟨m, hm, h, hne, hminor⟩
      · have hstart := loud.address_le_of_hit laid_regionpathinfo (by decide) hout hfilled.address
        have hstop : a < m.stop := by simpa using find?_some habove
        exact absurd ⟨hstart, hstop⟩ h
  · rintro (⟨m, hm, h, hname, hminor⟩ | h)
    · exact ⟨Smaps.infoRight_of_named hplain hm h hname hminor,
        Smaps.pathRight_of_named hplain hm h hname⟩
    · refine ⟨Smaps.infoRight_of_none hplain h, fun c m hm hin => ?_⟩
      have := h m hm
      exact absurd hin.2 (by omega)

theorem plainLine_of_length (h : l.length ≤ 1022) (hl : Plain l) : PlainLine l := by
  intro i
  cases i with
  | zero => rwa [Nat.mul_zero, drop_zero, take_of_length_le (by omega)]
  | succ i =>
    rw [drop_of_length_le (by omega)]
    exact not_mem_nil

def namedMapping : Mapping where
  start := 4096
  stop := 8192
  read := true
  write := false
  exec := false
  priv := true
  offset := 0
  major := 8
  minor := 1
  ino := 5
  pad := 0
  name := [47, 97]
  attributes := [[82, 115, 115, 58]]
  start_lt := by decide
  stop_lt := by decide
  offset_lt := by decide
  major_lt := by decide
  minor_lt := by decide
  ino_lt := by decide
  name_ok := by simp
  header_fits := by decide
  attributes_ok := by simp

def namelessMapping : Mapping where
  start := 8192
  stop := 12288
  read := true
  write := true
  exec := false
  priv := true
  offset := 0
  major := 0
  minor := 0
  ino := 0
  pad := 0
  name := []
  attributes := []
  start_lt := by decide
  stop_lt := by decide
  offset_lt := by decide
  major_lt := by decide
  minor_lt := by decide
  ino_lt := by decide
  name_ok := by simp
  header_fits := by decide
  attributes_ok := by simp

def neighbours : Smaps where
  maps := [namedMapping, namelessMapping]
  ordered := by decide

theorem plain_neighbours : ∀ m ∈ neighbours.maps, m.PlainAttributes := by
  have hrss : PlainLine [82, 115, 115, 58] := plainLine_of_length (by decide) (by decide)
  simp [neighbours, Mapping.PlainAttributes, namedMapping, namelessMapping, hrss]

theorem regions_named : neighbours.InfoRight 4096 ∧ neighbours.PathRight 4096 :=
  (regions_iff neighbours 4096 fun m hm _ => plain_neighbours m hm).2
    (.inl ⟨namedMapping, mem_cons_self, by decide, by decide, by decide⟩)

/-- The name of one mapping is handed out for the next, and below the first mapping there is
none. -/
theorem regions_stale : (neighbours.above 8192 = some namelessMapping ∧ namelessMapping.name = [] ∧
      ∀ c : Setting regionpathinfo.sizeof, ∃ out,
        procPidinfoRegionpathinfo (.ok ⟨neighbours.text, c.answers⟩) 8192 (some c.buffer)
          c.buffer.length c.frame c.stack = some (1, some out) ∧ str 0 out 248 = some [47, 97]) ∧
    neighbours.above 0 = some namedMapping ∧
      ∀ c : Setting regionpathinfo.sizeof, ∃ out,
        procPidinfoRegionpathinfo (.ok ⟨neighbours.text, c.answers⟩) 0 (some c.buffer)
          c.buffer.length c.frame c.stack = some (fail SysctlProc.esrch, some out) := by
  refine ⟨⟨rfl, rfl, fun c => ?_⟩, rfl, fun c => ?_⟩
  · have hs : neighbours.maps = [namedMapping] ++ namelessMapping :: [] := rfl
    obtain ⟨frame, frame', hpath, hwrites, hrun⟩ :=
      c.run_found laid_regionpathinfo neighbours 8192 hs (by decide) (by decide)
        fun m hm => plain_neighbours m (mem_append_left _ hm)
    have hpath' := laid_regionpathinfo.str_path hwrites
    rw [if_pos (show namelessMapping.name = [] from rfl), hpath] at hpath'
    exact ⟨_, hrun, str_append_left hpath' _⟩
  · exact c.run_missed laid_regionpathinfo neighbours 0 (by decide) plain_neighbours

end Darling.RegionPath
