import Darling.Proofs.AudioComponentManager
import Darling.Proofs.ComponentManager
import Mathlib.Order.Interval.Finset.Nat

/-!
# Listing the audio components

`AudioComponentFindNext` looks for the last component of one manager among those of the other, so it
never gets from the first list to the second.  `AudioComponentCount` takes every Carbon component
for a duplicate, since it finds the component itself.
-/

namespace Darling.AudioComponentManager

open List

open ComponentManager (nextIn)

/-- A component knows the number it is found under. -/
def Keyed (m : UnorderedMap ComponentId RegisteredComponent) : Prop :=
  ∀ c d, m.lookup c = some d → d.id = c

/-- Both managers, as runs leave them, with no number given out by both. -/
structure Registry where
  audio : State
  carbon : ComponentManager.State
  keyed : Keyed audio.components
  consistent : ComponentManager.Invariant carbon
  disjoint : ∀ c ∈ audio.components, c ∉ carbon.componentsMap

/-- Starting behind `prev`, the calls return these components one after the other, then `NULL`. -/
def Visits (next : ComponentId → ComponentId) : ComponentId → List ComponentId → Prop
  | prev, [] => next prev = 0
  | prev, c :: cs => next prev = c ∧ c ≠ 0 ∧ Visits next c cs

namespace Registry

variable (r : Registry) (desc : ComponentDescription)

def audioMatching : List ComponentId := r.audio.findMatching desc

def carbonMatching : List ComponentManager.Node :=
  r.carbon.components.filter (desc.Matches ·.data.cd)

/-- What a walk should visit. -/
def matching : List ComponentId :=
  r.audioMatching desc ++ (r.carbonMatching desc).map (·.data.component)

/-- The Carbon components that an audio component matches as well. -/
def duplicates : ℕ := (r.carbonMatching desc).countP fun n => r.audioMatching n.data.cd ≠ []

/-- Each component that matches is visited once, and the count is the number of them, or less for
the duplicates. -/
def Enumerates : Prop :=
  ∃ visited, Visits (findNext r.audio r.carbon · desc) 0 visited ∧
    visited.Perm (r.matching desc) ∧
      ∃ n, (∀ garbage, count r.audio r.carbon desc garbage = some n) ∧
        ∃ k ≤ r.duplicates desc, n.toNat + k = visited.length

end Registry

section Walk

variable {l u v : List ComponentId} {a : ComponentId}

theorem nextIn_cons (h0 : a ≠ 0) (x : ComponentId) (l : List ComponentId) :
    nextIn (x :: l) a = if x = a then l.head? else nextIn l a := by
  rw [nextIn, if_neg h0, nextIn, if_neg h0, tail_cons]
  cases l with
  | nil => split_ifs <;> rfl
  | cons y l =>
    rw [zip_cons_cons, findSome?_cons]
    split_ifs <;> rfl

theorem nextIn_of_notMem (h0 : a ≠ 0) : ∀ {l : List ComponentId}, a ∉ l → nextIn l a = none
  | [], _ => by
    rw [nextIn, if_neg h0]
    rfl
  | x :: l, h => by
    obtain ⟨hx, hl⟩ := ne_and_not_mem_of_not_mem_cons h
    rw [nextIn_cons h0, if_neg hx.symm, nextIn_of_notMem h0 hl]

/-- Behind an element comes the next one. -/
theorem nextIn_append (h0 : a ≠ 0) : ∀ {u : List ComponentId}, a ∉ u →
    nextIn (u ++ a :: v) a = v.head?
  | [], _ => by rw [nil_append, nextIn_cons h0, if_pos rfl]
  | x :: u, h => by
    obtain ⟨hx, hu⟩ := ne_and_not_mem_of_not_mem_cons h
    rw [cons_append, nextIn_cons h0, if_neg hx.symm, nextIn_append h0 hu]

theorem nextIn_zero : nextIn l 0 = l.head? := if_pos rfl

variable {next : ComponentId → ComponentId}

/-- Calls that lead from each element to the next visit the list. -/
theorem visits_of_next (h0 : 0 ∉ l) (hfirst : next 0 = l.headD 0)
    (hnext : ∀ u a v, l = u ++ a :: v → next a = v.headD 0) : Visits next 0 l := by
  have hrest : ∀ (v u : List ComponentId) (a : ComponentId), l = u ++ a :: v → Visits next a v := by
    intro v
    induction v with
    | nil => exact fun u a hl => hnext u a [] hl
    | cons b v ih =>
      intro u a hl
      refine ⟨hnext u a _ hl, fun hb => h0 ?_, ih (u ++ [a]) b (by rw [hl, append_assoc]; rfl)⟩
      rw [hl, ← hb]
      exact mem_append_right u (mem_cons_of_mem a mem_cons_self)
  cases l with
  | nil => exact hfirst
  | cons b l =>
    exact ⟨hfirst, fun hb => h0 (hb ▸ mem_cons_self), hrest l [] b rfl⟩

theorem Visits.unique : ∀ {l l' : List ComponentId}
    {prev : ComponentId}, Visits next prev l → Visits next prev l' → l = l'
  | [], [], _, _, _ => rfl
  | [], _ :: _, _, h, h' => absurd (h'.1.symm.trans h) h'.2.1
  | _ :: _, [], _, h, h' => absurd (h.1.symm.trans h') h.2.1
  | c :: l, c' :: l', _, h, h' => by
    obtain rfl : c = c' := h.1.symm.trans h'.1
    rw [h.2.2.unique h'.2.2]

theorem Visits.ne_zero : ∀ {l : List ComponentId} {prev : ComponentId}, Visits next prev l → 0 ∉ l
  | [], _, _ => not_mem_nil
  | _ :: _, _, h => fun hm =>
    (mem_cons.1 hm).elim (fun he => h.2.1 he.symm) h.2.2.ne_zero

end Walk

namespace Registry

variable {r : Registry} {desc : ComponentDescription}

theorem carbon_findMatching : r.carbon.findMatching desc =
    (r.carbonMatching desc).map (·.data.component) := rfl

theorem mem_of_mem_audioMatching {c : ComponentId} (h : c ∈ r.audioMatching desc) :
    c ∈ r.audio.components := by
  obtain ⟨d, hd, rfl⟩ := mem_map.1 h
  obtain ⟨⟨k, d⟩, he, rfl⟩ := mem_map.1 (mem_filter.1 hd).1
  have hlookup := mem_dlookup r.audio.components.nodupKeys he
  rw [r.keyed k d hlookup]
  exact AList.lookup_isSome.1 (Option.isSome_iff_exists.2 ⟨d, hlookup⟩)

theorem nodup_audioMatching : (r.audioMatching desc).Nodup := by
  have hids : ((r.audio.components.entries.map (·.2)).map (·.id)) = r.audio.components.keys := by
    rw [map_map]
    exact map_congr_left fun e he =>
      r.keyed e.1 e.2 (mem_dlookup r.audio.components.nodupKeys he)
  have hnodup := r.audio.components.keys_nodup
  rw [← hids] at hnodup
  exact hnodup.sublist (filter_sublist.map _)

theorem nodup_carbonMatching : ((r.carbonMatching desc).map (·.data.component)).Nodup :=
  r.consistent.ids.sublist (filter_sublist.map _)

theorem disjoint_matching {c : ComponentId} (h : c ∈ r.audioMatching desc) :
    c ∉ (r.carbonMatching desc).map (·.data.component) := by
  intro hc
  obtain ⟨n, hn, rfl⟩ := mem_map.1 hc
  refine r.disjoint _ (mem_of_mem_audioMatching h) (AList.lookup_isSome.1 ?_)
  exact Option.isSome_iff_exists.2
    ⟨n.address, (r.consistent.mapped _ _).2 ⟨n, (mem_filter.1 hn).1, rfl, rfl⟩⟩

theorem nodup_matching : (r.matching desc).Nodup :=
  nodup_append'.2 ⟨nodup_audioMatching, nodup_carbonMatching, fun _ => disjoint_matching⟩

theorem length_matching_lt (h0 : 0 ∉ r.matching desc) : (r.matching desc).length < 2 ^ 32 := by
  have hnodup : ((r.matching desc).map BitVec.toNat).Nodup :=
    nodup_matching.map fun _ _ h => BitVec.eq_of_toNat_eq h
  have hsub : ((r.matching desc).map BitVec.toNat).toFinset ⊆ Finset.Ico 1 (2 ^ 32) := by
    intro n hn
    obtain ⟨c, hc, rfl⟩ := mem_map.1 (mem_toFinset.1 hn)
    refine Finset.mem_Ico.2 ⟨Nat.pos_of_ne_zero fun hz => h0 ?_, c.isLt⟩
    have hc0 : c = 0 := BitVec.eq_of_toNat_eq hz
    exact hc0 ▸ hc
  have hcard := Finset.card_le_card hsub
  rw [toFinset_card_of_nodup hnodup, length_map, Nat.card_Ico] at hcard
  omega

section Walks

variable (r desc)

theorem findNext_eq (prev : ComponentId) : findNext r.audio r.carbon prev desc =
    ((nextIn (r.audioMatching desc) prev).or
      (nextIn ((r.carbonMatching desc).map (·.data.component)) prev)).getD 0 := by
  rw [findNext, audioMatching]
  rcases nextIn (r.audio.findMatching desc) prev with _ | c <;> rfl

theorem ne_and_notMem_of_append {l u v : List ComponentId} {a : ComponentId} (h0 : 0 ∉ l)
    (hl : l.Nodup) (he : l = u ++ a :: v) : a ≠ 0 ∧ a ∉ u := by
  subst he
  refine ⟨fun ha => h0 (ha ▸ mem_append_right u mem_cons_self), fun hu => ?_⟩
  exact (nodup_append'.1 hl).2.2 hu mem_cons_self

/-- Without audio components the Carbon ones are visited. -/
theorem visits_carbon (h0 : 0 ∉ r.matching desc) (hA : r.audioMatching desc = []) :
    Visits (findNext r.audio r.carbon · desc) 0
      ((r.carbonMatching desc).map (·.data.component)) := by
  have hnil : ∀ prev, nextIn [] prev = none := fun prev => by
    unfold nextIn
    split_ifs <;> rfl
  have h0' : 0 ∉ (r.carbonMatching desc).map (·.data.component) :=
    fun h => h0 (mem_append_right _ h)
  refine visits_of_next h0' ?_ fun u a v he => ?_
  · rw [findNext_eq, hA, hnil, Option.none_or, nextIn_zero, headD_eq_head?_getD]
  · obtain ⟨ha, hu⟩ := ne_and_notMem_of_append h0' nodup_carbonMatching he
    rw [findNext_eq, hA, hnil, Option.none_or, he, nextIn_append ha hu, headD_eq_head?_getD]

/-- With one audio component, only audio components are visited. -/
theorem visits_audio (h0 : 0 ∉ r.matching desc) (hA : r.audioMatching desc ≠ []) :
    Visits (findNext r.audio r.carbon · desc) 0 (r.audioMatching desc) := by
  have h0' : 0 ∉ r.audioMatching desc := fun h => h0 (mem_append_left _ h)
  refine visits_of_next h0' ?_ fun u a v he => ?_
  · obtain ⟨c, l, hl⟩ := exists_cons_of_ne_nil hA
    rw [findNext_eq, nextIn_zero, hl]
    rfl
  · obtain ⟨ha, hu⟩ := ne_and_notMem_of_append h0' nodup_audioMatching he
    have hmem : a ∈ r.audioMatching desc := he ▸ mem_append_right u mem_cons_self
    have hB := disjoint_matching hmem
    rw [findNext_eq, nextIn_of_notMem ha hB, Option.or_none, he, nextIn_append ha hu,
      headD_eq_head?_getD]

end Walks

section Counting

theorem matches_self (cd : ComponentDescription) : cd.Matches cd := ⟨.inr rfl, .inr rfl, .inr rfl⟩

theorem matches_trans {cd d e : ComponentDescription} (h : cd.Matches d) (h' : d.Matches e) :
    cd.Matches e := by
  have hfield : ∀ {x y z : BitVec 32}, x = 0 ∨ x = y → y = 0 ∨ y = z → x = 0 ∨ x = z := by
    rintro x y z (hx | rfl) hy
    · exact .inl hx
    · exact hy
  exact ⟨hfield h.1 h'.1, hfield h.2.1 h'.2.1, hfield h.2.2 h'.2.2⟩

theorem findNext_full_ne_zero_iff {n : ComponentManager.Node} (h0 : 0 ∉ r.matching desc)
    (hn : n ∈ r.carbonMatching desc) :
    findNext r.audio r.carbon 0 n.data.cd ≠ 0 ↔ (r.audioMatching n.data.cd).head? ≠ some 0 := by
  rw [findNext_eq, nextIn_zero, nextIn_zero]
  rcases (r.audioMatching n.data.cd).head? with _ | c
  · have hself : n ∈ r.carbonMatching n.data.cd :=
      mem_filter.2 ⟨(mem_filter.1 hn).1, decide_eq_true (matches_self _)⟩
    obtain ⟨m, l, hl⟩ := exists_cons_of_ne_nil (ne_nil_of_mem hself)
    have hm : m ∈ r.carbonMatching n.data.cd := hl ▸ mem_cons_self
    obtain ⟨hmem, hmatch⟩ := mem_filter.1 hm
    have hm' : m ∈ r.carbonMatching desc := mem_filter.2 ⟨hmem, decide_eq_true
      (matches_trans (of_decide_eq_true (mem_filter.1 hn).2) (of_decide_eq_true hmatch))⟩
    rw [hl]
    refine iff_of_true (fun hz => h0 ?_) (nomatch ·)
    exact hz ▸ mem_append_right _ (mem_map.2 ⟨m, hm', rfl⟩)
  · simp

theorem getComponentInfo_eq {n : ComponentManager.Node} (hn : n ∈ r.carbonMatching desc)
    (cd : ComponentDescription) :
    r.carbon.getComponentInfo n.data.component cd = some n.data.cd := by
  have hmem := (mem_filter.1 hn).1
  rw [ComponentManager.State.getComponentInfo, (r.consistent.mapped _ _).2 ⟨n, hmem, rfl, rfl⟩]
  simp [r.consistent.deref_eq hmem]

theorem countDuplicates_eq (h0 : 0 ∉ r.matching desc) :
    ∀ {u v : List ComponentManager.Node} {fuel : ℕ} {prev : ComponentId}
      (cd : ComponentDescription), r.carbonMatching desc = u ++ v → v.length < fuel →
        r.carbon.findNextComponent prev desc = (v.map (·.data.component)).headD 0 →
          countDuplicates r.audio r.carbon desc fuel prev cd =
            some (v.countP fun n => findNext r.audio r.carbon 0 n.data.cd ≠ 0)
  | u, [], fuel + 1, prev, cd, _, _, hprev => by
    rw [countDuplicates, hprev]
    exact if_pos rfl
  | u, n :: v, fuel + 1, prev, cd, hmatch, hfuel, hprev => by
    have h0' : 0 ∉ (r.carbonMatching desc).map (·.data.component) :=
      fun h => h0 (mem_append_right _ h)
    have hsplit : (r.carbonMatching desc).map (·.data.component) =
        u.map (·.data.component) ++ n.data.component :: v.map (·.data.component) := by
      rw [hmatch, map_append, map_cons]
    obtain ⟨hne, hu⟩ := ne_and_notMem_of_append h0' nodup_carbonMatching hsplit
    have hnext : r.carbon.findNextComponent n.data.component desc =
        (v.map (·.data.component)).headD 0 := by
      rw [ComponentManager.State.findNextComponent, carbon_findMatching, hsplit,
        nextIn_append hne hu, headD_eq_head?_getD]
    have hmem : n ∈ r.carbonMatching desc := hmatch ▸ mem_append_right u mem_cons_self
    have hinfo := getComponentInfo_eq hmem
    have hrest : r.carbonMatching desc = (u ++ [n]) ++ v := by
      rw [hmatch, append_assoc]
      rfl
    have ih := countDuplicates_eq h0 n.data.cd hrest (Nat.lt_of_succ_lt_succ hfuel) hnext
    rw [countDuplicates, hprev, map_cons, headD_cons]
    simp only [if_neg hne, hinfo, ih, Option.bind_eq_bind, Option.bind_some]
    rw [countP_cons]
    simp

theorem countP_add_countP_not {α : Type*} (p : α → Prop) [DecidablePred p] (l : List α) :
    (l.countP fun a => p a) + (l.countP fun a => ¬ p a) = l.length := by
  rw [length_eq_countP_add_countP (fun a => decide (p a))]
  simp

/-- The Carbon components counted are those whose first audio match is number 0. -/
theorem count_eq (h0 : 0 ∉ r.matching desc) (garbage : ComponentDescription) :
    count r.audio r.carbon desc garbage = some (.ofNat 32 ((r.audioMatching desc).length +
      (r.carbonMatching desc).countP fun n => (r.audioMatching n.data.cd).head? = some 0)) := by
  have hfirst : r.carbon.findNextComponent 0 desc =
      ((r.carbonMatching desc).map (·.data.component)).headD 0 := by
    rw [ComponentManager.State.findNextComponent, nextIn_zero, carbon_findMatching,
      headD_eq_head?_getD]
  have hfuel : (r.carbonMatching desc).length < r.carbon.components.length + 1 :=
    Nat.lt_succ_of_le (length_filter_le _ _)
  have hdup : (r.carbonMatching desc).countP (fun n => findNext r.audio r.carbon 0 n.data.cd ≠ 0) =
      (r.carbonMatching desc).countP fun n => ¬ (r.audioMatching n.data.cd).head? = some 0 :=
    countP_congr fun n hn => by
      simp only [decide_eq_true_eq]
      exact findNext_full_ne_zero_iff h0 hn
  have hloop := countDuplicates_eq h0 garbage
    (nil_append _).symm hfuel hfirst
  have hsum := countP_add_countP_not (fun n : ComponentManager.Node =>
    (r.audioMatching n.data.cd).head? = some 0) (r.carbonMatching desc)
  rw [count, hloop, hdup, ComponentManager.State.countComponents, carbon_findMatching,
    length_map, ← hsum]
  simp only [Option.bind_eq_bind, Option.bind_some, Option.pure_def, Option.some.injEq]
  rw [BitVec.ofNat_add, BitVec.ofNat_add, ← BitVec.add_assoc, BitVec.add_sub_cancel]
  rfl

end Counting

/-- The walk and the count are right exactly if no Carbon component matches, or no audio component
does and the Carbon components that are wrongly taken for duplicates are made up for by as many that
are wrongly not; and `NULL` is not the id of a component that matches. -/
theorem enumerates_iff (r : Registry) (desc : ComponentDescription) : r.Enumerates desc ↔
    0 ∉ r.matching desc ∧ (r.carbonMatching desc = [] ∨ r.audioMatching desc = [] ∧
      (r.carbonMatching desc).countP (fun n => r.audioMatching n.data.cd = []) ≤
        (r.carbonMatching desc).countP fun n => (r.audioMatching n.data.cd).head? = some 0) := by
  have hsum := countP_add_countP_not (fun n : ComponentManager.Node =>
    r.audioMatching n.data.cd = []) (r.carbonMatching desc)
  have hsum' := countP_add_countP_not (fun n : ComponentManager.Node =>
    (r.audioMatching n.data.cd).head? = some 0) (r.carbonMatching desc)
  have hdup : r.duplicates desc =
      (r.carbonMatching desc).countP fun n => ¬ r.audioMatching n.data.cd = [] := rfl
  have hlen : (r.matching desc).length =
      (r.audioMatching desc).length + (r.carbonMatching desc).length := by
    rw [matching, length_append, length_map]
  have hnat : 0 ∉ r.matching desc → (BitVec.ofNat 32 ((r.audioMatching desc).length +
      (r.carbonMatching desc).countP fun n => (r.audioMatching n.data.cd).head? = some 0)).toNat =
        (r.audioMatching desc).length +
          (r.carbonMatching desc).countP fun n => (r.audioMatching n.data.cd).head? = some 0 := by
    intro h0
    have hlt := r.length_matching_lt h0
    rw [BitVec.toNat_ofNat, Nat.mod_eq_of_lt (by omega)]
  constructor
  · rintro ⟨visited, hvisits, hperm, n, hn, k, hk, hsize⟩
    have h0 : 0 ∉ r.matching desc := fun h => hvisits.ne_zero (hperm.mem_iff.2 h)
    refine ⟨h0, ?_⟩
    by_cases hA : r.audioMatching desc = []
    · obtain rfl := hvisits.unique (r.visits_carbon desc h0 hA)
      obtain rfl := Option.some.inj ((hn desc).symm.trans (count_eq h0 desc))
      rw [hnat h0, hA, length_nil, length_map] at hsize
      rw [hdup] at hk
      exact .inr ⟨hA, by omega⟩
    · obtain rfl := hvisits.unique (r.visits_audio desc h0 hA)
      have hvisited := hperm.length_eq
      exact .inl (length_eq_zero_iff.1 (by omega))
  · rintro ⟨h0, hcond⟩
    by_cases hA : r.audioMatching desc = []
    · refine ⟨_, r.visits_carbon desc h0 hA, ?_, _, count_eq h0, ?_⟩
      · rw [matching, hA, nil_append]
      · rw [hnat h0, hdup, hA, length_nil, length_map]
        rcases hcond with hB | ⟨-, hle⟩
        · refine ⟨0, Nat.zero_le _, ?_⟩
          rw [hB]
          rfl
        · obtain ⟨k, hk⟩ := Nat.exists_eq_add_of_le (Nat.le.intro hsum')
          exact ⟨k, by omega, by omega⟩
    · obtain hB : r.carbonMatching desc = [] := hcond.resolve_right fun h => hA h.1
      refine ⟨_, r.visits_audio desc h0 hA, ?_, _, count_eq h0, 0, Nat.zero_le _, ?_⟩
      · rw [matching, hB, map_nil, append_nil]
      · rw [hnat h0, hB]
        rfl

end Registry

section Runs

variable {s : State}

theorem Keyed.modify {m : UnorderedMap ComponentId RegisteredComponent} (h : Keyed m)
    {c : ComponentId} {f : RegisteredComponent → RegisteredComponent}
    (hf : ∀ d, m.lookup c = some d → (f d).id = d.id) : Keyed (m.modify c f) := by
  intro c' d hd
  rw [UnorderedMap.lookup_modify] at hd
  obtain ⟨d', hd', rfl⟩ := Option.map_eq_some_iff.1 hd
  split_ifs with he
  · rw [hf d' (he ▸ hd'), h c' d' hd']
  · exact h c' d' hd'

theorem Keyed.register (h : Keyed s.components) (rc : RegisteredComponent) :
    Keyed (s.register rc).2.components := by
  intro c d hd
  rw [State.register, UnorderedMap.lookup_emplace, Option.or_eq_some_iff] at hd
  rcases hd with hd | ⟨-, hd⟩
  · exact h c d hd
  · split_ifs at hd with hc
    rw [← Option.some.inj hd, hc]

theorem Keyed.dispose (h : Keyed s.components) (w : World) (inst : ComponentId) :
    Keyed (s.dispose w inst).2.components := by
  unfold State.dispose
  split
  · exact h
  · refine h.modify fun d _ => ?_
    rw [release_eq]
    split_ifs <;> rfl

theorem load_id {regd regd' : RegisteredComponent} {w : Bundles} {f : ℕ}
    (h : regd.load w = some (f, regd')) : regd'.id = regd.id := by
  unfold RegisteredComponent.load at h
  split at h
  · rw [← (Prod.mk.inj (Option.some.inj h)).2]
  · obtain ⟨_, -, _, -, he⟩ := by simpa only [Option.bind_eq_bind, Option.bind_eq_some_iff] using h
    rw [← (Prod.mk.inj (Option.some.inj he)).2]

theorem Keyed.instantiate (h : Keyed s.components) (w : World) (c : ComponentId) :
    Keyed (s.instantiate w c).2.2.components := by
  unfold State.instantiate
  rcases hc : s.components.lookup c with _ | regd
  · exact h
  · dsimp only
    rcases hload : regd.load w.toBundles with _ | ⟨f, regd'⟩
    · exact h
    · have hprep : Keyed (s.prepare c regd').components := h.modify fun d hd => by
        rw [← Option.some.inj (hc.symm.trans hd)]
        exact load_id hload
      dsimp only
      split
      · exact hprep
      · split_ifs
        · refine Keyed.dispose ?_ w _
          exact hprep
        · exact hprep.modify fun _ _ => rfl

theorem Keyed.step (h : Keyed s.components) : ∀ a : Call, Keyed (s.step a).components
  | .registerFactory .. => h.register _
  | .registerBundle .. => h.register _
  | .instantiate w c => h.instantiate w c
  | .dispose w inst => h.dispose w inst

end Runs

namespace Registry

/-- The registry after calls of both managers that give out no number which is in use. -/
def ofRuns (calls : List Call) (carbonCalls : List ComponentManager.Call)
    (carbon : ComponentManager.State)
    (hrun : carbonCalls.foldl ComponentManager.step (some .initial) = some carbon)
    (hnum : EachStep ComponentManager.step ComponentManager.Allowed (some .initial) carbonCalls)
    (hdisjoint : ∀ c ∈ (calls.foldl State.step .initial).components, c ∉ carbon.componentsMap) :
    Registry where
  audio := calls.foldl State.step .initial
  carbon := carbon
  keyed := eachState_iff_foldl.1 (eachState_of_invariant
    (I := fun s : State => Keyed s.components) (fun _ a h => h.step a) (fun _ => id)
    (fun _ _ hd => by simp [State.initial] at hd) calls) calls prefix_rfl
  consistent := by
    obtain ⟨s, hs, hinv⟩ := eachState_iff_foldl.1 (hnum.eachState
      (I := fun o => ∃ s, o = some s ∧ ComponentManager.Invariant s) (by
        rintro _ a ⟨s, rfl, hs⟩ ha
        exact hs.call ha) (fun _ => id) ⟨_, rfl, ComponentManager.invariant_initial⟩)
      carbonCalls prefix_rfl
    rwa [← Option.some.inj (hs.symm.trans hrun)]
  disjoint := hdisjoint

def oneEach : Registry :=
  ofRuns [.registerFactory ⟨1, 1, 1, 0, 0⟩ (some 0)]
    [.registerRoutine ⟨2, 2, 2, 0, 0⟩ (some 0) 0 0] _ rfl
    ⟨.inr (AList.notMem_empty _), trivial⟩ fun c hc hc' => by
      have h1 : c = 0x80004000 :=
        (UnorderedMap.mem_emplace.1 hc).resolve_right (AList.notMem_empty _)
      have h2 : c = 0x1000 := (UnorderedMap.mem_emplace.1 hc').resolve_right (AList.notMem_empty _)
      exact absurd (h1.symm.trans h2) (by decide)

/-- The Carbon component is not visited. -/
theorem not_enumerates_oneEach : ¬ oneEach.Enumerates ⟨0, 0, 0, 0, 0⟩ := by
  rintro ⟨visited, hvisits, hperm, -⟩
  have hall : oneEach.matching ⟨0, 0, 0, 0, 0⟩ = [0x80004000, 0x1000] := rfl
  have haudio : oneEach.audioMatching ⟨0, 0, 0, 0, 0⟩ = [0x80004000] := rfl
  have hwalk := oneEach.visits_audio ⟨0, 0, 0, 0, 0⟩ (by rw [hall]; decide)
    (by rw [haudio]; exact cons_ne_nil _ _)
  rw [hvisits.unique hwalk, haudio, hall] at hperm
  exact absurd hperm.length_eq (by decide)

end Registry

end Darling.AudioComponentManager
