import Darling.ComponentManager
import Darling.Runs

/-!
# The lists and maps of the Component Manager

The list, the map into it and the counters agree in every state of a run in which no 32-bit number
is given out that is still in use.  The induction also needs that an instance's id and pointer lead
to the same element, and that an element with instances can be called.
-/

namespace Darling.ComponentManager

open List
open UnorderedMap (tally_pos lookup_emplace tally tally_erase lookup_emplace_self erase_emplace
  tally_emplace)
open Option (some.inj bind_some bind_eq_bind map_some bind_eq_some_iff isSome_iff_exists)

/-- The instances of the element at the address. -/
def State.count (s : State) (p : ℕ) : ℕ := s.componentInstances.tally (·.componentData = p)

/-- The list, the map into it and the instances agree. -/
structure Consistent (s : State) : Prop where
  ids : (s.components.map (·.data.component)).Nodup
  mapped : ∀ c p, s.componentsMap.lookup c = some p ↔
    ∃ n ∈ s.components, n.address = p ∧ n.data.component = c
  counted : ∀ n ∈ s.components, n.data.instances.toNat = s.count n.address
  live : ∀ i cid, s.componentInstances.lookup i = some cid →
    ∃ n ∈ s.components, n.address = cid.componentData
  loaded : ∀ n ∈ s.components, n.data.bundlePath.isSome → 0 < s.count n.address →
    n.data.entryPoint.isSome ∧ n.data.loadedBundle.isSome

/-- `unregisterComponent` succeeds for components that are registered and have no instances. -/
def UnregistersUnused (s : State) (c : ComponentId) : Prop :=
  (∃ s', s.unregisterComponent c = some (noErr, s')) ↔
    ∃ n ∈ s.components, n.data.component = c ∧ s.count n.address = 0

/-- The call ends in a consistent state, and takes no component away that has instances. -/
def Correct (s : State) (a : Call) : Prop :=
  (∃ s', s.call a = some s' ∧ Consistent s') ∧ ∀ c, a = .unregisterComponent c →
    UnregistersUnused s c

/-- The number that a new component or instance gets is free, and an instance that stays is not one
too many for the counter. -/
def Numbered (s : State) : Call → Prop
  | .registerBundle .. => s.nextComponentId ∉ s.componentsMap
  | .registerRoutine cd _ flags _ =>
    (flags &&& registerComponentNoDuplicates ≠ 0 ∧ s.findMatching cd ≠ []) ∨
      s.nextComponentId ∉ s.componentsMap
  | .instantiate w c => ∀ p cd cd' f, s.componentsMap.lookup c = some p → s.deref p = some cd →
      cd.load w.toBundles = some cd' → cd'.entryPoint = some f →
        s.nextInstanceId ∉ s.componentInstances ∧
          (w.entryPoint f kComponentOpenSelect s.nextInstanceId none = noErr →
            s.count p + 1 < 2 ^ 32)
  | _ => True

/-- What the induction over a run needs. -/
structure Invariant (s : State) : Prop where
  addresses : (s.components.map Node.address).Nodup
  ids : (s.components.map (·.data.component)).Nodup
  mapped : ∀ c p, s.componentsMap.lookup c = some p ↔
    ∃ n ∈ s.components, n.address = p ∧ n.data.component = c
  counted : ∀ n ∈ s.components, n.data.instances.toNat = s.count n.address
  owned : ∀ i cid, s.componentInstances.lookup i = some cid →
    ∃ n ∈ s.components, n.address = cid.componentData ∧ n.data.component = cid.component
  callable : ∀ n ∈ s.components, 0 < s.count n.address → n.data.entryPoint.isSome
  bundled : ∀ n ∈ s.components, n.data.bundlePath.isSome → n.data.entryPoint.isSome →
    n.data.loadedBundle.isSome

theorem invariant_initial : Invariant .initial where
  addresses := nodup_nil
  ids := nodup_nil
  mapped c p := by simp [State.initial]
  counted n hn := nomatch hn
  owned i cid h := by simp [State.initial] at h
  callable n hn := nomatch hn
  bundled n hn := nomatch hn

section Elements

variable {s : State} {p : ℕ} {n : Node}

section

variable (h : Invariant s)

include h

theorem Invariant.consistent : Consistent s where
  ids := h.ids
  mapped := h.mapped
  counted := h.counted
  live i cid hi := by
    obtain ⟨n, hn, hp, -⟩ := h.owned i cid hi
    exact ⟨n, hn, hp⟩
  loaded n hn hpath hpos :=
    ⟨h.callable n hn hpos, h.bundled n hn hpath (h.callable n hn hpos)⟩

theorem Invariant.eq_of_address {n m : Node} (hn : n ∈ s.components) (hm : m ∈ s.components)
    (he : n.address = m.address) : n = m := inj_on_of_nodup_map h.addresses hn hm he

theorem Invariant.find?_eq (hn : n ∈ s.components) :
    s.components.find? (·.address = n.address) = some n := by
  rcases hfind : s.components.find? (·.address = n.address) with _ | m
  · have := find?_eq_none.1 hfind n hn
    simp at this
  · have hm : m.address = n.address := by simpa using find?_some hfind
    rw [hfind, h.eq_of_address (mem_of_find?_eq_some hfind) hn hm]

theorem Invariant.deref_eq (hn : n ∈ s.components) : s.deref n.address = some n.data := by
  rw [State.deref, h.find?_eq hn, map_some]

theorem Invariant.perm_eraseP (hn : n ∈ s.components) :
    s.components.Perm (n :: s.components.eraseP (·.address = n.address)) := by
  obtain ⟨m, l₁, l₂, -, hm, hl, he⟩ :=
    exists_of_eraseP (p := fun m : Node => m.address = n.address) hn (by simp)
  obtain rfl : m = n := h.eq_of_address (hl ▸ mem_append_right l₁ mem_cons_self) hn
    (by simpa using hm)
  rw [he]
  exact hl ▸ perm_middle

theorem Invariant.perm {l : List Node} (hl : s.components.Perm l) :
    Invariant { s with components := l } where
  addresses := (hl.map _).nodup_iff.1 h.addresses
  ids := (hl.map _).nodup_iff.1 h.ids
  mapped c p := by
    rw [h.mapped]
    simp [hl.mem_iff]
  counted n hn := h.counted n (hl.mem_iff.2 hn)
  owned i cid hi := by
    obtain ⟨n, hn, hp⟩ := h.owned i cid hi
    exact ⟨n, hl.mem_iff.1 hn, hp⟩
  callable n hn := h.callable n (hl.mem_iff.2 hn)
  bundled n hn := h.bundled n (hl.mem_iff.2 hn)

theorem Invariant.change {f : ComponentData → ComponentData}
    {m : UnorderedMap ComponentId ComponentInstanceData} {next : ComponentId}
    (hother : ∀ q, q ≠ p → m.tally (·.componentData = q) = s.count q)
    (howned : ∀ i cid, m.lookup i = some cid →
      ∃ n ∈ s.components, n.address = cid.componentData ∧ n.data.component = cid.component)
    (hnode : ∀ d, ⟨p, d⟩ ∈ s.components → (f d).component = d.component ∧
      (f d).instances.toNat = m.tally (·.componentData = p) ∧
        (0 < m.tally (·.componentData = p) → (f d).entryPoint.isSome) ∧
          ((f d).bundlePath.isSome → (f d).entryPoint.isSome → (f d).loadedBundle.isSome)) :
    Invariant { s.update p f with componentInstances := m, nextInstanceId := next } := by
  have hid : ∀ n ∈ s.components,
      (if n.address = p then { n with data := f n.data } else n).address = n.address ∧
        (if n.address = p then { n with data := f n.data } else n).data.component =
          n.data.component := by
    intro n hn
    split_ifs with he
    · subst he
      exact ⟨rfl, (hnode n.data hn).1⟩
    · exact ⟨rfl, rfl⟩
  have hmem : ∀ n', n' ∈ (s.update p f).components →
      (∃ d, ⟨p, d⟩ ∈ s.components ∧ n' = ⟨p, f d⟩) ∨ n' ∈ s.components ∧ n'.address ≠ p := by
    intro n' hn'
    obtain ⟨n, hn, rfl⟩ := mem_map.1 hn'
    split_ifs with he
    · subst he
      exact .inl ⟨n.data, hn, rfl⟩
    · exact .inr ⟨hn, he⟩
  have hexists : ∀ {q c}, (∃ n ∈ s.components, n.address = q ∧ n.data.component = c) ↔
      ∃ n ∈ (s.update p f).components, n.address = q ∧ n.data.component = c := by
    intro q c
    constructor
    · rintro ⟨n, hn, hq, hc⟩
      exact ⟨_, mem_map_of_mem hn, (hid n hn).1.trans hq, (hid n hn).2.trans hc⟩
    · rintro ⟨n', hn', hq, hc⟩
      obtain ⟨n, hn, rfl⟩ := mem_map.1 hn'
      exact ⟨n, hn, (hid n hn).1.symm.trans hq, (hid n hn).2.symm.trans hc⟩
  refine ⟨?_, ?_, fun c q => ?_, fun n hn => ?_, fun i cid hi => ?_, fun n hn hpos => ?_,
    fun n hn => ?_⟩
  · have := map_congr_left fun n hn => (hid n hn).1
    simpa [State.update] using this ▸ h.addresses
  · have := map_congr_left fun n hn => (hid n hn).2
    simpa [State.update] using this ▸ h.ids
  · exact (h.mapped c q).trans hexists
  · rcases hmem n hn with ⟨d, hd, rfl⟩ | ⟨hold, hne⟩
    · exact (hnode d hd).2.1
    · exact (h.counted n hold).trans (hother _ hne).symm
  · exact hexists.1 (howned i cid hi)
  · rcases hmem n hn with ⟨d, hd, rfl⟩ | ⟨hold, hne⟩
    · exact (hnode d hd).2.2.1 hpos
    · exact h.callable n hold ((hother _ hne) ▸ hpos)
  · rcases hmem n hn with ⟨d, hd, rfl⟩ | ⟨hold, -⟩
    · exact (hnode d hd).2.2.2
    · exact h.bundled n hold

end

end Elements

section Registration

variable {s : State} {n : Node} {l : List Node}

theorem Invariant.cons (h : Invariant s) (next : ComponentId)
    (haddr : n.address ∉ s.components.map Node.address) (hid : n.data.component ∉ s.componentsMap)
    (hinst : n.data.instances = 0)
    (hbundled : n.data.bundlePath.isSome → n.data.entryPoint = none) :
    Invariant { s with
      components := n :: s.components
      componentsMap := s.componentsMap.emplace n.data.component n.address
      nextComponentId := next } := by
  have hcount : s.count n.address = 0 := by
    by_contra hne
    obtain ⟨i, cid, hi, hp⟩ := tally_pos.1 (Nat.pos_of_ne_zero hne)
    obtain ⟨m, hm, hm', -⟩ := h.owned i cid hi
    exact haddr (mem_map.2 ⟨m, hm, hm'.trans hp⟩)
  have hnew : ∀ m ∈ s.components, m.data.component ≠ n.data.component := by
    intro m hm he
    refine hid (AList.lookup_isSome.1 (isSome_iff_exists.2 ⟨m.address, ?_⟩))
    exact (h.mapped _ _).2 ⟨m, hm, rfl, he⟩
  refine ⟨nodup_cons.2 ⟨haddr, h.addresses⟩, nodup_cons.2 ⟨?_, h.ids⟩, fun c p => ?_,
    fun m hm => ?_, fun i cid hi => ?_, fun m hm hpos => ?_, fun m hm hpath hentry => ?_⟩
  · intro hmem
    obtain ⟨m, hm, he⟩ := mem_map.1 hmem
    exact hnew m hm he
  · rw [lookup_emplace]
    by_cases he : c = n.data.component
    · subst he
      rw [AList.lookup_eq_none.2 hid, Option.none_or, if_pos rfl, Option.some.injEq]
      constructor
      · intro hp
        exact ⟨n, mem_cons_self, hp, rfl⟩
      · rintro ⟨m, hm, hp, hc⟩
        rcases mem_cons.1 hm with rfl | hm
        · exact hp
        · exact absurd hc (hnew m hm)
    · rw [if_neg he, Option.or_none, h.mapped]
      constructor
      · rintro ⟨m, hm, hmp⟩
        exact ⟨m, mem_cons_of_mem _ hm, hmp⟩
      · rintro ⟨m, hm, hmp⟩
        rcases mem_cons.1 hm with rfl | hm
        · exact absurd hmp.2.symm he
        · exact ⟨m, hm, hmp⟩
  · rcases mem_cons.1 hm with rfl | hm
    · rw [hinst]
      exact hcount.symm
    · exact h.counted m hm
  · obtain ⟨m, hm, hmp⟩ := h.owned i cid hi
    exact ⟨m, mem_cons_of_mem _ hm, hmp⟩
  · rcases mem_cons.1 hm with rfl | hm
    · exact absurd hcount (Nat.pos_iff_ne_zero.1 hpos)
    · exact h.callable m hm hpos
  · rcases mem_cons.1 hm with rfl | hm
    · rw [hbundled hpath] at hentry
      cases hentry
    · exact h.bundled m hm hpath hentry

theorem Invariant.tail (h : Invariant s) (hs : s.components = n :: l)
    (hcount : s.count n.address = 0) :
    Invariant { s with
      components := l, componentsMap := s.componentsMap.erase n.data.component } := by
  have haddr := h.addresses
  have hids := h.ids
  rw [hs] at haddr hids
  obtain ⟨hna, haddr⟩ := nodup_cons.1 haddr
  obtain ⟨hni, hids⟩ := nodup_cons.1 hids
  have hmem : ∀ m ∈ l, m ∈ s.components := fun m hm => hs ▸ mem_cons_of_mem n hm
  refine ⟨haddr, hids, fun c p => ?_, fun m hm => h.counted m (hmem m hm), fun i cid hi => ?_,
    fun m hm => h.callable m (hmem m hm), fun m hm => h.bundled m (hmem m hm)⟩
  · by_cases he : c = n.data.component
    · subst he
      rw [AList.lookup_erase]
      refine ⟨nofun, ?_⟩
      rintro ⟨m, hm, -, hc⟩
      exact absurd (mem_map.2 ⟨m, hm, hc⟩) hni
    · rw [AList.lookup_erase_ne he, h.mapped]
      constructor
      · rintro ⟨m, hm, hp, hc⟩
        rw [hs] at hm
        rcases mem_cons.1 hm with rfl | hm
        · exact absurd hc.symm he
        · exact ⟨m, hm, hp, hc⟩
      · rintro ⟨m, hm, hmp⟩
        exact ⟨m, hmem m hm, hmp⟩
  · obtain ⟨m, hm, hp, hc⟩ := h.owned i cid hi
    rw [hs] at hm
    rcases mem_cons.1 hm with rfl | hm
    · have hpos : 0 < s.count m.address := tally_pos.2 ⟨i, cid, hi, hp.symm⟩
      exact absurd hcount (Nat.pos_iff_ne_zero.1 hpos)
    · exact ⟨m, hm, hp, hc⟩

theorem link_components (s : State) (flags : BitVec 16) (place : ℕ) (data : ComponentData) :
    (s.link flags place data).components.Perm
      (⟨allocate place (s.components.map Node.address),
        { data with component := s.nextComponentId }⟩ :: s.components) := by
  unfold State.link
  split_ifs
  · exact perm_append_singleton _ _
  · exact List.Perm.refl _

section

variable (h : Invariant s)

include h

theorem Invariant.link (flags : BitVec 16) (place : ℕ) {data : ComponentData}
    (hfree : s.nextComponentId ∉ s.componentsMap) (hinst : data.instances = 0)
    (hbundled : data.bundlePath.isSome → data.entryPoint = none) :
    Invariant (s.link flags place data) := by
  have hcons := h.cons (s.nextComponentId + 1) (n := ⟨allocate place
    (s.components.map Node.address), { data with component := s.nextComponentId }⟩)
    (allocate_notMem _ _) hfree hinst hbundled
  exact hcons.perm (link_components s flags place data).symm

theorem Invariant.free_of_link {flags : BitVec 16} {place : ℕ} {data : ComponentData}
    (hc : Consistent (s.link flags place data)) : s.nextComponentId ∉ s.componentsMap := by
  intro hmem
  obtain ⟨p, hp⟩ := isSome_iff_exists.1 (AList.lookup_isSome.2 hmem)
  obtain ⟨n, hn, -, hid⟩ := (h.mapped _ _).1 hp
  have hnodup := ((link_components s flags place data).map (·.data.component)).nodup_iff.1 hc.ids
  exact (nodup_cons.1 hnodup).1 (mem_map.2 ⟨n, hn, hid⟩)

theorem Invariant.setDefault (c : ComponentId) : Invariant (s.setDefault c) := by
  unfold State.setDefault
  rcases hc : s.componentsMap.lookup c with _ | p
  · exact h
  obtain ⟨n, hn, rfl, -⟩ := (h.mapped c p).1 hc
  simp only [h.find?_eq hn]
  exact h.perm (h.perm_eraseP hn)

theorem Invariant.unregisterComponent (c : ComponentId) :
    ∃ status s', s.unregisterComponent c = some (status, s') ∧ Invariant s' ∧
      (status = noErr ↔ ∃ n ∈ s.components, n.data.component = c ∧ s.count n.address = 0) := by
  rcases hc : s.componentsMap.lookup c with _ | p
  · refine ⟨_, s, by rw [State.unregisterComponent, hc], h, iff_of_false (by decide) ?_⟩
    rintro ⟨n, hn, hid, -⟩
    have := (h.mapped c n.address).2 ⟨n, hn, rfl, hid⟩
    rw [hc] at this
    cases this
  obtain ⟨n, hn, rfl, hid⟩ := (h.mapped c p).1 hc
  have hcount := h.counted n hn
  have honly : (∃ m ∈ s.components, m.data.component = c ∧ s.count m.address = 0) ↔
      s.count n.address = 0 := by
    constructor
    · rintro ⟨m, hm, hmid, hzero⟩
      rwa [inj_on_of_nodup_map h.ids hn hm (hid.trans hmid.symm)]
    · exact fun hzero => ⟨n, hn, hid, hzero⟩
  rw [honly, State.unregisterComponent, hc]
  simp only [h.deref_eq hn, bind_eq_bind, bind_some]
  by_cases hinst : n.data.instances = 0
  · have hzero : s.count n.address = 0 := by
      rw [← hcount, hinst]
      rfl
    rw [if_neg (not_not.2 hinst)]
    refine ⟨_, _, rfl, ?_, iff_of_true rfl hzero⟩
    subst hid
    exact (h.perm (h.perm_eraseP hn)).tail rfl hzero
  · rw [if_pos hinst]
    refine ⟨_, s, rfl, h, iff_of_false (by decide) fun hzero => hinst ?_⟩
    exact BitVec.eq_of_toNat_eq (hcount.trans hzero)

end

end Registration

section Instances

variable {s : State} {w : World} {c inst : ComponentId} {p : ℕ} {cd cd' : ComponentData} {n : Node}

theorem release_eq (cd : ComponentData) : cd.release =
    if cd.instances - 1 = 0 ∧ cd.loadedBundle.isSome then
      { cd with instances := cd.instances - 1, entryPoint := none, loadedBundle := none }
    else { cd with instances := cd.instances - 1 } := rfl

theorem release_spec (cd : ComponentData) : cd.release.component = cd.component ∧
    cd.release.instances = cd.instances - 1 ∧
    (0 < (cd.instances - 1).toNat → cd.release.entryPoint = cd.entryPoint) ∧
    cd.release.bundlePath = cd.bundlePath ∧
    ((cd.entryPoint.isSome → cd.loadedBundle.isSome) →
      cd.release.entryPoint.isSome → cd.release.loadedBundle.isSome) := by
  rw [release_eq]
  split_ifs with hc
  · refine ⟨rfl, rfl, fun hpos => ?_, rfl, fun _ => id⟩
    rw [hc.1] at hpos
    exact absurd hpos (by decide)
  · exact ⟨rfl, rfl, fun _ => rfl, rfl, id⟩

theorem load_spec (h : cd.load w.toBundles = some cd') : cd'.component = cd.component ∧
    cd'.instances = cd.instances ∧ cd'.bundlePath = cd.bundlePath ∧ cd'.entryPoint.isSome ∧
      (cd'.loadedBundle.isSome ∨ cd' = cd) := by
  unfold ComponentData.load at h
  rcases hf : cd.entryPoint with _ | f
  · rw [hf] at h
    simp only [bind_eq_bind, bind_eq_some_iff, Option.pure_def, Option.some.injEq] at h
    obtain ⟨bundle, -, f, -, rfl⟩ := h
    exact ⟨rfl, rfl, rfl, rfl, .inl rfl⟩
  · rw [hf] at h
    obtain rfl := some.inj h
    exact ⟨rfl, rfl, rfl, by rw [hf]; rfl, .inr rfl⟩

theorem Invariant.dispatch (h : Invariant s) {cid : ComponentInstanceData}
    (hi : s.componentInstances.lookup inst = some cid) (what : ℤ) :
    ∃ status, s.dispatch w what inst = some status := by
  obtain ⟨n, hn, hp, -⟩ := h.owned inst cid hi
  have hpos : 0 < s.count n.address := tally_pos.2 ⟨inst, cid, hi, hp.symm⟩
  obtain ⟨f, hf⟩ := isSome_iff_exists.1 (h.callable n hn hpos)
  rw [State.dispatch, hi]
  simp only [← hp, h.deref_eq hn, bind_eq_bind, bind_some, hf]
  exact ⟨_, rfl⟩

theorem Invariant.dispose (h : Invariant s) (w : World) (inst : ComponentId) :
    ∃ status s', s.dispose w inst = some (status, s') ∧ Invariant s' := by
  rcases hi : s.componentInstances.lookup inst with _ | cid
  · exact ⟨_, s, by rw [State.dispose, hi], h⟩
  obtain ⟨status, hstatus⟩ := h.dispatch (w := w) hi kComponentCloseSelect
  obtain ⟨n, hn, hp, hid⟩ := h.owned inst cid hi
  have hmap := (h.mapped cid.component n.address).2 ⟨n, hn, rfl, hid⟩
  rw [State.dispose, hi]
  simp only [hstatus, hmap, h.deref_eq hn, bind_eq_bind, bind_some, map_some]
  have hcount : ∀ q, s.count q = tally (·.componentData = q)
      (s.componentInstances.erase inst) + if cid.componentData = q then 1 else 0 :=
    fun q => tally_erase hi
  refine ⟨_, _, rfl, h.change (fun q hq => ?_) (fun i cid' hi' => ?_) fun d hd => ?_⟩
  · rw [hcount, if_neg (by rw [← hp]; exact hq.symm)]
    rfl
  · by_cases he : i = inst
    · rw [he, AList.lookup_erase] at hi'
      cases hi'
    · exact h.owned i cid' (by rwa [AList.lookup_erase_ne he] at hi')
  · obtain rfl : d = n.data := congrArg Node.data (h.eq_of_address hd hn rfl)
    obtain ⟨hcomp, hinst, hentry, hpath, hbundle⟩ := release_spec n.data
    have hcnt := hcount n.address
    rw [if_pos hp.symm, ← h.counted n hn] at hcnt
    have hnat : (n.data.instances - 1).toNat = tally (·.componentData = n.address)
        (s.componentInstances.erase inst) := by
      have hone : (1 : BitVec 32).toNat = 1 := rfl
      rw [BitVec.toNat_sub, hone]
      omega
    refine ⟨hcomp, by rw [hinst]; exact hnat, fun hpos => ?_, fun hpath' => ?_⟩
    · rw [hentry (hnat ▸ hpos)]
      exact h.callable n hn (by rw [← h.counted n hn]; omega)
    · exact hbundle (h.bundled n hn (hpath ▸ hpath'))

theorem deref_update (s : State) (p : ℕ) (f : ComponentData → ComponentData) :
    (s.update p f).deref p = (s.deref p).map f := by
  have haddr : ((fun m : Node => decide (m.address = p)) ∘ fun m =>
      if m.address = p then { m with data := f m.data } else m) =
        fun m => decide (m.address = p) := by
    funext m
    dsimp only [Function.comp_apply]
    split_ifs <;> rfl
  rw [State.deref, State.deref, State.update, find?_map, haddr]
  rcases hfind : s.components.find? (·.address = p) with _ | m
  · rw [hfind]
    rfl
  · have hm : m.address = p := by simpa using find?_some hfind
    rw [hfind, map_some, map_some, map_some, map_some, if_pos hm]

theorem update_update (s : State) (p : ℕ) (f g : ComponentData → ComponentData) :
    (s.update p f).update p g = s.update p (g ∘ f) := by
  simp only [State.update, map_map]
  congr 2
  funext m
  dsimp only [Function.comp_apply]
  split_ifs <;> rfl

section New

variable {f : ℕ} (hcd : s.deref p = some cd) (hf : cd'.entryPoint = some f)
  (hfree : s.nextInstanceId ∉ s.componentInstances)

include hfree in
theorem lookup_addInstance : (s.addInstance c p cd').componentInstances.lookup s.nextInstanceId =
    some ⟨c, p, none⟩ := lookup_emplace_self hfree _

include hcd

theorem deref_addInstance : (s.addInstance c p cd').deref p =
    some { cd' with instances := cd'.instances + 1 } := by
  have h := deref_update s p fun _ => { cd' with instances := cd'.instances + 1 }
  rw [hcd] at h
  exact h

include hf hfree

theorem dispatch_addInstance (what : ℤ) : (s.addInstance c p cd').dispatch w what s.nextInstanceId =
      some (w.entryPoint f what s.nextInstanceId none) := by
  rw [State.dispatch, lookup_addInstance hfree]
  simp only [deref_addInstance hcd, bind_eq_bind, bind_some, hf]
  rfl

theorem dispose_addInstance (hmap : s.componentsMap.lookup c = some p) :
    (s.addInstance c p cd').dispose w s.nextInstanceId =
      some (w.entryPoint f kComponentCloseSelect s.nextInstanceId none,
        { s.update p fun _ =>
            ({ cd' with instances := cd'.instances + 1 } : ComponentData).release with
          componentInstances := s.componentInstances
          nextInstanceId := s.nextInstanceId + 1 }) := by
  have hmap' : (s.addInstance c p cd').componentsMap.lookup c = some p := hmap
  rw [State.dispose, lookup_addInstance hfree]
  simp only [dispatch_addInstance hcd hf hfree, hmap', deref_addInstance hcd, bind_eq_bind,
    bind_some, map_some]
  have hinst := erase_emplace (v := (⟨c, p, none⟩ : ComponentInstanceData)) hfree
  have hcomp := congrArg State.components (update_update s p
    (fun _ => { cd' with instances := cd'.instances + 1 }) ComponentData.release)
  exact congrArg some (Prod.ext rfl (State.mk.injEq .. ▸ ⟨hinst, rfl, hcomp, rfl, rfl⟩))

end New

theorem Invariant.instantiate (h : Invariant s) (hnum : Numbered s (.instantiate w c)) :
    ∃ r, s.instantiate w c = some r ∧ Invariant r.2.2 := by
  rcases hmap : s.componentsMap.lookup c with _ | p
  · exact ⟨_, by rw [State.instantiate, hmap], h⟩
  obtain ⟨n, hn, rfl, hid⟩ := (h.mapped c p).1 hmap
  have hcd := h.deref_eq hn
  rcases hload : n.data.load w.toBundles with _ | cd'
  · refine ⟨(invalidComponentID, 0, s), ?_, h⟩
    rw [State.instantiate, hmap]
    simp [hcd, hload]
  obtain ⟨hcomp, hinst, hpath, hentry, hloaded⟩ := load_spec hload
  obtain ⟨f, hf⟩ := isSome_iff_exists.1 hentry
  obtain ⟨hfree, hlt⟩ := hnum n.address n.data cd' f hmap hcd hload hf
  have hbundled : cd'.bundlePath.isSome → cd'.loadedBundle.isSome := by
    rcases hloaded with hl | rfl
    · exact fun _ => hl
    · exact fun hp => h.bundled n hn hp hentry
  have hdata : ∀ d, ⟨n.address, d⟩ ∈ s.components → d = n.data :=
    fun d hd => congrArg Node.data (h.eq_of_address hd hn rfl)
  rw [State.instantiate, hmap]
  simp only [hcd, bind_eq_bind, bind_some, hload, dispatch_addInstance hcd hf hfree]
  by_cases hopen : w.entryPoint f kComponentOpenSelect s.nextInstanceId none = noErr
  · rw [if_neg (not_not.2 hopen)]
    have hcount : ∀ q, tally (·.componentData = q)
        (s.componentInstances.emplace s.nextInstanceId ⟨c, n.address, none⟩) =
          s.count q + if n.address = q then 1 else 0 := fun q => tally_emplace hfree
    refine ⟨_, rfl, h.change (fun q hq => ?_) (fun i cid hi => ?_) fun d hd => ?_⟩
    · rw [hcount, if_neg hq.symm]
      rfl
    · rw [lookup_emplace] at hi
      rcases Option.or_eq_some_iff.1 hi with hold | ⟨-, hnew⟩
      · exact h.owned i cid hold
      · split_ifs at hnew
        obtain rfl := some.inj hnew
        exact ⟨n, hn, rfl, hid⟩
    · rw [hdata d hd, hcount, if_pos rfl, ← h.counted n hn]
      have hnat := hlt hopen
      rw [← h.counted n hn] at hnat
      have hone : (1 : BitVec 32).toNat = 1 := rfl
      refine ⟨hcomp, ?_, fun _ => hentry, fun hp _ => hbundled hp⟩
      rw [hinst, BitVec.toNat_add, hone, Nat.mod_eq_of_lt hnat]
  · rw [if_pos hopen]
    simp only [dispose_addInstance hcd hf hfree hmap, bind_some]
    refine ⟨_, rfl, h.change (fun q hq => rfl) h.owned fun d hd => ?_⟩
    obtain ⟨hcomp', hinst', hentry', hpath', hbundle'⟩ :=
      release_spec { cd' with instances := cd'.instances + 1 }
    have hback : cd'.instances + 1 - 1 = n.data.instances := by
      rw [hinst, BitVec.add_sub_cancel]
    rw [hdata d hd]
    refine ⟨hcomp'.trans hcomp, ?_, fun hpos => ?_, fun hp => hbundle' fun _ => ?_⟩
    · rw [hinst']
      exact hback ▸ h.counted n hn
    · rw [hentry' (by rw [hback, h.counted n hn]; exact hpos)]
      exact hentry
    · exact hbundled (hpath' ▸ hp)

theorem mem_update (hn : n ∈ s.components) (f : ComponentData → ComponentData) :
    ⟨n.address, f n.data⟩ ∈ (s.update n.address f).components := mem_map.2 ⟨n, hn, if_pos rfl⟩

theorem mem_update_of_ne (hn : n ∈ s.components) (hp : n.address ≠ p)
    (f : ComponentData → ComponentData) : n ∈ (s.update p f).components :=
  mem_map.2 ⟨n, hn, if_neg hp⟩

theorem toNat_add_one_ne (x : BitVec 32) : (x + 1).toNat ≠ x.toNat := by
  have hone : (1 : BitVec 32).toNat = 1 := rfl
  rw [BitVec.toNat_add, hone]
  omega

section Taken

variable {cid : ComponentInstanceData} (h : Invariant s) (hn : n ∈ s.components)
  (hinst : cd'.instances = n.data.instances)
  (hcid : s.componentInstances.lookup s.nextInstanceId = some cid)

include hcid in
theorem componentInstances_addInstance :
    (s.addInstance c p cd').componentInstances = s.componentInstances :=
  if_pos (AList.lookup_isSome.1 (isSome_iff_exists.2 ⟨cid, hcid⟩))

include hn in
theorem mem_addInstance : ⟨n.address, { cd' with instances := cd'.instances + 1 }⟩ ∈
    (s.addInstance c n.address cd').components :=
  mem_update hn fun _ => { cd' with instances := cd'.instances + 1 }

include h hn hinst hcid

theorem Invariant.not_consistent_addInstance : ¬ Consistent (s.addInstance c n.address cd') := by
  intro hcons
  have hcnt : (cd'.instances + 1).toNat = _ := hcons.counted _ (mem_addInstance hn)
  rw [State.count, componentInstances_addInstance hcid, hinst] at hcnt
  exact toNat_add_one_ne _ (hcnt.trans (h.counted n hn).symm)

theorem Invariant.not_consistent_dispose {r : ℤ × State}
    (hr : (s.addInstance c n.address cd').dispose w s.nextInstanceId = some r) :
    ¬ Consistent r.2 := by
  intro hcons
  have hnew : ⟨n.address, { cd' with instances := cd'.instances + 1 }⟩ ∈
      (s.addInstance c n.address cd').components := mem_addInstance hn
  have hcnt := h.counted n hn
  obtain ⟨m, hm, hmp, hmid⟩ := h.owned _ cid hcid
  have hmap : (s.addInstance c n.address cd').componentsMap.lookup cid.component =
      some m.address := (h.mapped _ _).2 ⟨m, hm, rfl, hmid⟩
  have hsame : (s.addInstance c n.address cd').componentInstances = s.componentInstances :=
    componentInstances_addInstance hcid
  rw [State.dispose, hsame, hcid] at hr
  simp only [hmap] at hr
  obtain ⟨_, -, hr⟩ := bind_eq_some_iff.1 hr
  obtain ⟨s', hs', hr⟩ := bind_eq_some_iff.1 hr
  obtain ⟨_, -, rfl⟩ := Option.map_eq_some_iff.1 hs'
  obtain rfl := some.inj hr
  change Consistent { (s.addInstance c n.address cd').update m.address ComponentData.release with
    componentInstances := (s.addInstance c n.address cd').componentInstances.erase _ } at hcons
  rw [hsame] at hcons
  have herase : s.count n.address = tally (·.componentData = n.address)
      (s.componentInstances.erase s.nextInstanceId) +
        if cid.componentData = n.address then 1 else 0 := tally_erase hcid
  by_cases hmn : m.address = n.address
  · rw [hmn] at hcons
    have hcnt' := hcons.counted _ (mem_update hnew ComponentData.release)
    rw [(release_spec _).2.1, BitVec.add_sub_cancel, hinst, hcnt, herase,
      if_pos (hmp.symm.trans hmn)] at hcnt'
    exact Nat.succ_ne_self _ hcnt'
  · have hcnt' : (cd'.instances + 1).toNat = _ := hcons.counted _ (mem_update_of_ne hnew
      (Ne.symm hmn) ComponentData.release)
    rw [if_neg (hmp ▸ hmn), Nat.add_zero] at herase
    rw [hinst] at hcnt'
    exact toNat_add_one_ne _ (hcnt'.trans (hcnt.trans herase).symm)

end Taken

theorem Invariant.numbered_of_consistent (h : Invariant s) {r : ℤ × ComponentId × State}
    (hr : s.instantiate w c = some r) (hcons : Consistent r.2.2) :
    Numbered s (.instantiate w c) := by
  intro p cd cd' f hmap hcd hload hf
  obtain ⟨n, hn, rfl, hid⟩ := (h.mapped c p).1 hmap
  obtain rfl : n.data = cd := some.inj ((h.deref_eq hn).symm.trans hcd)
  obtain ⟨hcomp, hinst, hpath, hentry, hloaded⟩ := load_spec hload
  rw [State.instantiate, hmap] at hr
  simp only [hcd, bind_eq_bind, bind_some, hload] at hr
  by_cases hfree : s.nextInstanceId ∈ s.componentInstances
  · exfalso
    obtain ⟨cid, hcid⟩ := isSome_iff_exists.1 (AList.lookup_isSome.2 hfree)
    obtain ⟨status, -, hr⟩ := bind_eq_some_iff.1 hr
    by_cases hopen : status = noErr
    · rw [if_neg (not_not.2 hopen)] at hr
      obtain rfl := some.inj hr
      exact h.not_consistent_addInstance hn hinst hcid hcons
    · rw [if_pos hopen] at hr
      obtain ⟨_, hdispose, hr⟩ := bind_eq_some_iff.1 hr
      obtain rfl := some.inj hr
      exact h.not_consistent_dispose hn hinst hcid hdispose hcons
  · refine ⟨hfree, fun hopen => ?_⟩
    rw [dispatch_addInstance hcd hf hfree, bind_some, hopen, if_neg (not_not.2 rfl)] at hr
    obtain rfl := some.inj hr
    have hcnt : (cd'.instances + 1).toNat = _ := hcons.counted _ (mem_addInstance hn)
    have hmore : (s.addInstance c n.address cd').count n.address = s.count n.address + 1 := by
      refine (tally_emplace hfree).trans ?_
      rw [if_pos rfl]
      rfl
    rw [hmore] at hcnt
    rw [← hcnt]
    exact (cd'.instances + 1).isLt

end Instances

/-- A call in a state is good; there is none after a call that does not return. -/
def Good : Option State → Call → Prop
  | none, _ => False
  | some s, a => Correct s a

/-- The number that the call gives out is not in use. -/
def Allowed : Option State → Call → Prop
  | none, _ => False
  | some s, a => Numbered s a

variable {s : State}

theorem Invariant.call (h : Invariant s) {a : Call} (ha : Numbered s a) :
    ∃ s', s.call a = some s' ∧ Invariant s' := by
  cases a with
  | registerBundle cd flags bundlePath entryPoint place =>
    exact ⟨_, rfl, h.link flags place ha rfl fun _ => rfl⟩
  | registerRoutine cd entryPoint flags place =>
    refine ⟨_, rfl, ?_⟩
    unfold State.registerRoutine
    split_ifs with hdup
    · exact h
    · exact h.link flags place (ha.resolve_left hdup) rfl (nomatch ·)
  | setDefault c => exact ⟨_, rfl, h.setDefault c⟩
  | unregisterComponent c =>
    obtain ⟨status, s', hs', hinv, -⟩ := h.unregisterComponent c
    exact ⟨s', congrArg (Option.map _) hs', hinv⟩
  | instantiate w c =>
    obtain ⟨r, hr, hinv⟩ := h.instantiate ha
    exact ⟨r.2.2, congrArg (Option.map _) hr, hinv⟩
  | dispose w c =>
    obtain ⟨status, s', hs', hinv⟩ := h.dispose w c
    exact ⟨s', congrArg (Option.map _) hs', hinv⟩

theorem Invariant.correct_iff (h : Invariant s) (a : Call) : Correct s a ↔ Numbered s a := by
  refine ⟨?_, fun ha => ⟨?_, ?_⟩⟩
  · rintro ⟨⟨s', hs', hcons⟩, -⟩
    cases a with
    | registerBundle cd flags bundlePath entryPoint place =>
      obtain rfl := some.inj hs'
      exact h.free_of_link hcons
    | registerRoutine cd entryPoint flags place =>
      by_cases hdup : flags &&& registerComponentNoDuplicates ≠ 0 ∧ s.findMatching cd ≠ []
      · exact .inl hdup
      · obtain rfl := some.inj hs'
        rw [State.registerRoutine, if_neg hdup] at hcons
        exact .inr (h.free_of_link hcons)
    | instantiate w c =>
      obtain ⟨r, hr, rfl⟩ := Option.map_eq_some_iff.1 hs'
      exact h.numbered_of_consistent hr hcons
    | _ => trivial
  · obtain ⟨s', hs', hinv⟩ := h.call ha
    exact ⟨s', hs', hinv.consistent⟩
  · rintro c rfl
    obtain ⟨status, s', hs', -, hstatus⟩ := h.unregisterComponent c
    rw [UnregistersUnused, ← hstatus, hs']
    simp

/-- Every call of a run returns, into a consistent state, and `unregisterComponent` does what it
should, exactly if no call gives out a number that is in use. -/
theorem run_consistent_iff (calls : List Call) :
    EachStep step Good (some .initial) calls ↔ EachStep step Allowed (some .initial) calls := by
  refine eachStep_iff (I := fun o => ∃ s, o = some s ∧ Invariant s) ?_ ?_
    ⟨_, rfl, invariant_initial⟩
  · rintro _ a ⟨s, rfl, h⟩ ha
    exact h.call ha
  · rintro _ a ⟨s, rfl, h⟩
    exact h.correct_iff a

section Wrap

def someRoutine (place : ℕ) : Call := .registerRoutine ⟨1, 1, 1, 0, 0⟩ (some 0) 0 place

theorem register_unregister (place : ℕ) (hplace : place ∉ s.components.map Node.address)
    (hfree : s.nextComponentId ∉ s.componentsMap) :
    step (step (some s) (someRoutine place)) (.unregisterComponent s.nextComponentId) =
      some { s with nextComponentId := s.nextComponentId + 1 } := by
  have hat : allocate place (s.components.map Node.address) = place := if_neg hplace
  have hlookup : (s.componentsMap.emplace s.nextComponentId place).lookup s.nextComponentId =
      some place := lookup_emplace_self hfree _
  have hreg : step (some s) (someRoutine place) = some { s with
      components := ⟨place, ⟨s.nextComponentId, ⟨1, 1, 1, 0, 0⟩, some 0, none, [], none, 0⟩⟩ ::
        s.components
      nextComponentId := s.nextComponentId + 1
      componentsMap := s.componentsMap.emplace s.nextComponentId place } := by
    change some (s.link 0 place _) = _
    simp only [State.link, hat]
    rfl
  rw [hreg]
  change Option.map _ (State.unregisterComponent _ _) = _
  rw [State.unregisterComponent, hlookup]
  have hderef : ∀ d m m' i i', State.deref ⟨m, i, ⟨place, d⟩ :: s.components, m', i'⟩ place =
    some d :=
    fun d m m' i i' => by simp [State.deref]
  simp only [hderef, bind_eq_bind, bind_some, erase_emplace hfree,
    eraseP_cons, decide_true, cond_true]
  rfl

def oneComponent (next : ComponentId) : State where
  componentInstances := ∅
  nextInstanceId := 0x2000
  components := [⟨0, ⟨0x1000, ⟨1, 1, 1, 0, 0⟩, some 0, none, [], none, 0⟩⟩]
  componentsMap := UnorderedMap.emplace 0x1000 0 ∅
  nextComponentId := next

def churn : ℕ → List Call
  | 0 => []
  | k + 1 => churn k ++ [someRoutine 1, .unregisterComponent (.ofNat 32 (0x1001 + k))]

theorem foldl_churn : ∀ k : ℕ, k < 2 ^ 32 →
    (churn k).foldl step (some (oneComponent 0x1001)) = some (oneComponent (.ofNat 32 (0x1001 + k)))
  | 0, _ => rfl
  | k + 1, hk => by
    have hfree : BitVec.ofNat 32 (0x1001 + k) ∉ (oneComponent 0).componentsMap := by
      intro hmem
      have he := (UnorderedMap.mem_emplace.1 hmem).resolve_right (AList.notMem_empty _)
      have hnat : (0x1001 + k) % 2 ^ 32 = 0x1000 := congrArg BitVec.toNat he
      omega
    have hone := register_unregister (s := oneComponent (.ofNat 32 (0x1001 + k))) 1
      (by simp [oneComponent]) hfree
    rw [churn, foldl_append, foldl_churn k (by omega)]
    refine hone.trans ?_
    congr 2
    rw [← Nat.add_assoc, BitVec.ofNat_add (0x1001 + k) 1]
    rfl

theorem not_good_of_wrap {k : ℕ} (hk : k < 2 ^ 32)
    (hwrap : BitVec.ofNat 32 (0x1001 + k) = 0x1000) : ¬ EachStep step Good (some .initial)
      (someRoutine 0 :: (churn k ++ [someRoutine 1])) := by
  rintro ⟨-, h⟩
  have hstart : step (some .initial) (someRoutine 0) = some (oneComponent 0x1001) := rfl
  rw [hstart, eachStep_append, foldl_churn k hk, hwrap] at h
  obtain ⟨-, ⟨⟨s', hs', hcons⟩, -⟩, -⟩ := h
  obtain rfl := some.inj hs'
  have hids : [(0x1000 : ComponentId), 0x1000].Nodup := hcons.ids
  exact absurd hids (by decide)

/-- After 2^32 registrations the first id is given out again. -/
theorem run_wraps : ¬ EachStep step Good (some .initial)
    (someRoutine 0 :: (churn (2 ^ 32 - 1) ++ [someRoutine 1])) :=
  not_good_of_wrap (by decide) (by decide)

end Wrap

end Darling.ComponentManager
