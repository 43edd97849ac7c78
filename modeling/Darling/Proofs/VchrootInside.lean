import Darling.Proofs.VchrootTrace

/-!
# Paths stay inside the prefix

While `current_root` is `prefix_path`, `current_path` is the prefix or below it, at every place a
run passes and through every link it follows (`vchrootExpand_inside`).  The host root is entered
only from `prefix_path + "/Volumes/SystemRoot"`.
-/

namespace Darling.Vchroot

open CArray List

/-- The prefix itself, or a path below it. -/
def Within (V : Config) (p : Bytes) : Prop := p = V.prefixPath ∨ V.prefixPath ++ [slash] <+: p

/-- The exit directory, in any case. -/
def IsExit (V : Config) (p : Bytes) : Prop := ∃ e, p = V.prefixPath ++ e ∧ caseEq e exitPath

namespace Text

variable {V : Config} {k : Kernel}

/-- With the guest root, the path is within the prefix. -/
def Inside (V : Config) (s : State) : Prop := s.root = .guest → Within V s.path

theorem within_append {p : Bytes} (h : Within V p) (d : Bytes) : Within V (p ++ slash :: d) := by
  obtain rfl | h := h
  · exact .inr ⟨d, by simp⟩
  · exact .inr (h.trans (prefix_append _ _))

theorem within_before {p t : Bytes} (h : Within V p) (ht : beforeLast slash p = some t)
    (hlen : V.prefixPath.length ≤ t.length) : Within V t := by
  obtain ⟨u, -, rfl⟩ := beforeLast_eq_some.1 ht
  obtain h | h := h
  · have := congrArg length h
    simp only [length_append, length_cons] at this
    omega
  · rcases hlen.eq_or_lt with heq | hlt
    · left
      have := ((prefix_append _ _).trans h)
      exact ((prefix_of_prefix_length_le this
        (prefix_append _ _) hlen).eq_of_length heq).symm
    · right
      exact prefix_of_prefix_length_le h (prefix_append _ _) (by simp; omega)

theorem atExit_isExit {s : State} (h : AtExit V s) (hr : s.root = .guest) (hw : Within V s.path) :
    IsExit V s.path := by
  have hpre : V.prefixPath <+: s.path := by
    obtain h | h := hw
    · rw [h]
    · exact (prefix_append _ _).trans h
  obtain ⟨e, he⟩ := hpre
  refine ⟨e, he.symm, ?_⟩
  have := h.2.2
  rwa [hr, Root.text, ← he, drop_left] at this

theorem inside_invariant : Invariant V k (fun _ s => Inside V s) (Inside V) fun _ _ => True where
  done h := h
  up {s s₁ s' input} h _ _ happ hd hr := by
    obtain ⟨-, rfl⟩ | ⟨t, ht, hlen, rfl⟩ := up_next happ hd
    · exact .inr ⟨volumesName, by rw [volumes_eq, append_assoc, singleton_append]⟩
    · have hg : s.root = .guest := hr
      rw [hg] at hlen
      exact within_before (h hg) ht hlen
  skip {s s₁ s' input} h _ _ happ hi := by
    obtain ⟨-, rfl⟩ := appendSlash_eq_some.1 happ
    obtain ⟨hroot, -, d, -, hpath⟩ := inspect_skip_frame hi
    have hin : Inside V s' := fun hr => by
      rw [hpath, append_assoc]
      exact within_append (h (hroot ▸ hr)) d
    exact ⟨hin, exitCheck_of nofun hin⟩
  enter h _ happ hi := start_entered happ hi (fun _ => .inl rfl) h
  leave h _ := ⟨h, exitCheck_of nofun h⟩

theorem all_guest : ∀ {ts : List (Point State)}, ts.IsChain (Leaves V) →
    (∀ p ∈ ts.head?, p.val.root = .guest) →
    (∀ p ∈ ts, p.val.root = .guest → ¬ AtExit V p.val) → ∀ p ∈ ts, p.val.root = .guest
  | [], _, _, _ => by simp
  | p :: ts, hc, hf, hn => by
    have hp : p.val.root = .guest := hf p rfl
    have hnext : ∀ q ∈ ts.head?, q.val.root = .guest := fun q hq => by
      rcases hq' : q.val.root
      · rfl
      · obtain ⟨s, rfl, hs⟩ := hc.rel_head? hq hp hq'
        exact absurd hs (hn _ mem_cons_self hp)
    intro q hq
    rcases mem_cons.1 hq with rfl | hq
    · exact hp
    · exact all_guest hc.tail hnext (fun r hr => hn r (mem_cons_of_mem _ hr)) q hq

end Text

/-- At every place a run on an absolute path passes, the path is within the prefix while the root is
the guest's, and from one place to the next the guest root is left only in the exit directory; so an
expansion that returns 0 and never stands in the exit directory returns a path within the prefix. -/
theorem vchrootExpand_inside (V : Config) (k : Kernel) {junk input : Bytes} {args : ExpandArgs}
    (hjunk : junk.length = pathMax) (hsize : args.path.length = pathMax)
    (hin : Spells 0 args.path input) (habs : input.head? = some slash) :
    (∀ p ∈ expandTrace V k junk args, p.val.currentRoot = .guest →
      ∃ s, Spells 0 p.val.currentPath s ∧ p.val.currentPathLen = s.length ∧ Within V s) ∧
    (expandTrace V k junk args).IsChain (fun p q => p.val.currentRoot = .guest →
      q.val.currentRoot = .host → ∃ s, Spells 0 p.val.currentPath s ∧ IsExit V s) ∧
    ∀ out, vchrootExpand V k junk args = some (0, out) →
      (∀ p ∈ expandTrace V k junk args, p.val.currentRoot = .guest →
        ∀ s, Spells 0 p.val.currentPath s → ¬ IsExit V s) →
      ∃ s, Spells 0 out s ∧ Within V s := by
  have hne : input ≠ [] := by
    rintro rfl
    simp at habs
  set s₀ : Text.State := ⟨.guest, [], false, args.follow⟩
  have hopen : Text.openState V k args.base args.follow input = .ok s₀ := by
    rw [Text.openState, if_pos habs]
  have hrel : List.Forall₂ (PointRel V) (expandTrace V k junk args)
      (Text.trace V k (maxSymlinkDepth + 1) input s₀) := by
    have := expandTrace_rel (V := V) (k := k) hjunk hin
    rwa [Text.expandTrace, if_neg hne, hopen] at this
  have hstart : Text.Inside V (Text.start V input s₀).2 := by
    rw [Text.start, if_pos habs]
    exact fun _ => .inl rfl
  obtain ⟨hpts, -⟩ := Text.inside_invariant.run_inv (maxSymlinkDepth + 1) hin.1 hstart
    fun p _ => by cases p <;> simp [Text.PointGood]
  have hinside : ∀ q ∈ Text.trace V k (maxSymlinkDepth + 1) input s₀, Text.Inside V q.val :=
    fun q hq => by
      have := hpts q hq
      cases q <;> exact this
  have hpass := Text.run_passes V k (maxSymlinkDepth + 1) input s₀
  refine ⟨fun p hp hr => ?_, ?_, fun out hout hnever => ?_⟩
  · obtain ⟨q, hq, hpq⟩ := forall₂_exists_mem hrel p hp
    exact ⟨q.val.path, hpq.val.spells, hpq.val.len, hinside q hq (hpq.val.root ▸ hr)⟩
  · refine forall₂_isChain
      (fun a b x y ha hb hxy hga hhb => ?_) (forall₂_and_right hrel hinside) hpass.chain
    obtain ⟨s, rfl, hs⟩ := hxy (ha.1.val.root ▸ hga) (hb.1.val.root ▸ hhb)
    have hg : s.root = .guest := ha.1.val.root ▸ hga
    exact ⟨s.path, ha.1.val.spells, Text.atExit_isExit hs hg (ha.2 hg)⟩
  · obtain ⟨q, hq, hsp⟩ := vchrootExpand_some hjunk hsize hin hout
    obtain ⟨s, s', hs, hr, rfl⟩ := Text.expand_zero hq
    obtain rfl : s₀ = s := Except.ok.inj (hopen.symm.trans hs)
    obtain ⟨i, hlast⟩ := hpass.last s' hr
    have hmem : Point.head i s' ∈ Text.trace V k (maxSymlinkDepth + 1) input s₀ :=
      mem_of_getLast? hlast
    have hguest := Text.all_guest hpass.chain hpass.first (fun q hq hg hex => by
      obtain ⟨p, hp, hpq⟩ := forall₂_exists_mem (List.Forall₂.flip hrel) q hq
      have hrp : p.val.currentRoot = .guest := (PointRel.val hpq).root.trans hg
      exact hnever p hp hrp _ (PointRel.val hpq).spells
        (Text.atExit_isExit hex hg (hinside q hq hg))) _ hmem
    refine ⟨_, hsp, ?_⟩
    have hw : Within V s'.path := hinside _ hmem hguest
    split_ifs with hnil
    · rw [hnil] at hw
      obtain hw | hw := hw
      · exact .inr ⟨[], by simp [← hw]⟩
      · simp at hw
    · exact hw

/-! A prefix `/p` with a directory `d` and an absolute link `l` in it, beside a directory `/p2`. -/

def sampleTree : Node :=
  .dir [(ascii ['p'], .dir [(ascii ['d'], .dir []), (ascii ['l'], .symlink (ascii ['/', 'x']))]),
    (ascii ['p', '2'], .dir [])]

def sampleConfig : Config where
  prefixPath := ascii ['/', 'p']
  icaseEnabled := true
  prefix_nul := by decide
  prefix_lt := by decide

def sampleKernel : Kernel := sampleTree.kernel fun l =>
  .ok (if l = .fd 4 then ascii ['/', 'p', '2'] else ascii ['/', 'p', '/', 'd'])

def zeros : Bytes := ofString 0 pathMax []

def sampleArgs (path : List Char) : ExpandArgs := ⟨ofString 0 pathMax (ascii path), -100, true⟩

theorem zeros_length : zeros.length = pathMax := ofString_length (by decide)

theorem sampleArgs_size (path : List Char) (h : path.length < pathMax) :
    (sampleArgs path).path.length = pathMax := ofString_length (by simpa [ascii] using h.le)

theorem sampleArgs_spells (path : List Char) (h : path.length < pathMax) (hz : 0 ∉ ascii path) :
    Spells 0 (sampleArgs path).path (ascii path) := spells_ofString hz (by simpa [ascii] using h)

def upLink : List Char := ['/', 'd', '/', '.', '.', '/', 'l']

/-- Down to a directory, up again and along a link. -/
theorem vchrootExpand_inside_up_link : Spells 0 (sampleArgs upLink).path (ascii upLink) ∧
      ∀ p ∈ expandTrace sampleConfig sampleKernel zeros (sampleArgs upLink),
        p.val.currentRoot = .guest → ∃ s, Spells 0 p.val.currentPath s ∧
          p.val.currentPathLen = s.length ∧ Within sampleConfig s := by
  have hin := sampleArgs_spells upLink (by decide) (by decide)
  exact ⟨hin, (vchrootExpand_inside sampleConfig sampleKernel zeros_length
    (sampleArgs_size _ (by decide)) hin rfl).1⟩

end Darling.Vchroot
