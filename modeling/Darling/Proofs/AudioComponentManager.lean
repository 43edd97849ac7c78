import Darling.AudioComponentManager
import Darling.Runs
import Darling.Proofs.Endian
import Mathlib.Data.Int.Cast.Lemmas

/-!
# The instances of an audio component

A component's counter is raised after its instance was opened, but lowered for every entry that is
taken out, also for one that could not be opened.  So the counter is right exactly as long as every
instance that is made can be opened, under a number that is free.
-/

namespace Darling.AudioComponentManager

open UnorderedMap (lookup_emplace lookup_modify tally mem_modify)
open Option (map_some some.inj)

/-- The instances of a component that there are. -/
def State.count (s : State) (c : ComponentId) : ℕ := s.componentInstances.tally (·.component = c)

/-- The counters are right, and a bundle stays loaded as long as it is needed. -/
structure Accounted (s : State) : Prop where
  instances : ∀ c regd, s.components.lookup c = some regd → regd.instances = s.count c
  loaded : ∀ c regd, s.components.lookup c = some regd → regd.bundlePath.isSome →
    0 < s.count c → regd.loadedBundle.isSome

/-- Neither the instances nor a counter have changed. -/
def SameAccounts (s s' : State) : Prop :=
  s'.componentInstances = s.componentInstances ∧ ∀ c,
    (s'.components.lookup c).map (·.instances) = (s.components.lookup c).map (·.instances)

/-- The call leaves the accounts in order, and those of a failed `instantiate` alone. -/
def KeepsAccounts (s : State) (a : Call) : Prop :=
  Accounted (s.step a) ∧ ∀ w c, a = .instantiate w c → (s.instantiate w c).1 ≠ noErr →
    SameAccounts s (s.step a)

/-- An object that the factory makes can be opened, its number is free, and there are not yet
`INT_MAX` instances. -/
def Opens (s : State) : Call → Prop
  | .instantiate w c => ∀ regd factory regd' object, s.components.lookup c = some regd →
      regd.load w.toBundles = some (factory, regd') →
        w.factory factory regd'.desc = some object →
          w.opened object s.nextComponentInstanceId = noErr ∧
            s.nextComponentInstanceId ∉ s.componentInstances ∧ s.count c + 1 < 2 ^ 31
  | _ => True

structure Invariant (s : State) : Prop extends Accounted s where
  registered : ∀ i cid, s.componentInstances.lookup i = some cid → cid.component ∈ s.components
  bundled : ∀ c regd, s.components.lookup c = some regd → regd.bundlePath.isSome →
    regd.factory.isSome → regd.loadedBundle.isSome
  bounded : ∀ c, s.count c < 2 ^ 31

theorem invariant_initial : Invariant .initial where
  instances c regd h := by simp [State.initial] at h
  loaded c regd h := by simp [State.initial] at h
  registered i cid h := by simp [State.initial] at h
  bundled c regd h := by simp [State.initial] at h
  bounded c := show 0 < 2 ^ 31 by decide

section Steps

variable {s : State} {w : World} {c : ComponentId} {regd regd' : RegisteredComponent} {n : ℕ}

theorem Invariant.count_eq_zero (h : Invariant s) (hc : c ∉ s.components) : s.count c = 0 := by
  by_contra hne
  obtain ⟨i, cid, hi, rfl⟩ := UnorderedMap.tally_pos.1 (Nat.pos_of_ne_zero hne)
  exact hc (h.registered i cid hi)

theorem Invariant.register (h : Invariant s) (rc : RegisteredComponent) (hinst : rc.instances = 0)
    (hfactory : rc.bundlePath.isSome → rc.factory = none) : Invariant (s.register rc).2 := by
  have hlookup : ∀ c regd, (s.register rc).2.components.lookup c = some regd →
      s.components.lookup c = some regd ∨ c ∉ s.components ∧
        regd = { rc with id := s.nextComponentId } := by
    intro c regd hc
    simp only [State.register, lookup_emplace] at hc
    rcases hold : s.components.lookup c with _ | old
    · rw [hold, Option.none_or] at hc
      split_ifs at hc
      exact .inr ⟨AList.lookup_eq_none.1 hold, (some.inj hc).symm⟩
    · rw [hold, Option.some_or] at hc
      exact .inl hc
  refine ⟨⟨fun c regd hc => ?_, fun c regd hc hpath hpos => ?_⟩, fun i cid hi => ?_,
    fun c regd hc hpath hfac => ?_, h.bounded⟩
  · rcases hlookup c regd hc with hold | ⟨hnew, rfl⟩
    · exact h.instances c regd hold
    · change rc.instances = (s.count c : ℤ)
      rw [hinst, h.count_eq_zero hnew]
      rfl
  · rcases hlookup c regd hc with hold | ⟨hnew, rfl⟩
    · exact h.loaded c regd hold hpath hpos
    · exact absurd (h.count_eq_zero hnew) (Nat.pos_iff_ne_zero.1 hpos)
  · have hmem := h.registered i cid hi
    exact UnorderedMap.mem_emplace.2 (.inr hmem)
  · rcases hlookup c regd hc with hold | ⟨hnew, rfl⟩
    · exact h.bundled c regd hold hpath hfac
    · rw [hfactory hpath] at hfac
      cases hfac

theorem wrapInt_of_lt {n : ℤ} (h0 : 0 ≤ n) (h : n < 2 ^ 31) : wrapInt n = n := by
  obtain ⟨k, rfl⟩ := Int.eq_ofNat_of_zero_le h0
  exact bmod_of_lt (by omega)

theorem wrapInt_lt (n : ℤ) : wrapInt n < 2 ^ 31 := by
  have := @Int.bmod_lt n (2 ^ 32) (by decide)
  simpa [wrapInt] using this

theorem wrapInt_ne {n m : ℤ} (hm : m = n + 1 ∨ m = n - 1) : wrapInt m ≠ n := by
  intro h
  have := @Int.bmod_emod m (2 ^ 32)
  rw [wrapInt] at h
  rw [h] at this
  omega

theorem release_eq (regd : RegisteredComponent) : regd.release =
    if wrapInt (regd.instances - 1) = 0 ∧ regd.loadedBundle.isSome then
      { regd with
        instances := wrapInt (regd.instances - 1), loadedBundle := none, factory := none }
    else { regd with instances := wrapInt (regd.instances - 1) } := rfl

theorem release_instances (regd : RegisteredComponent) :
    regd.release.instances = wrapInt (regd.instances - 1) := by
  rw [release_eq]
  split_ifs <;> rfl

theorem release_bundlePath (regd : RegisteredComponent) :
    regd.release.bundlePath = regd.bundlePath := by
  rw [release_eq]
  split_ifs <;> rfl

theorem release_bundled (h : regd.factory.isSome → regd.loadedBundle.isSome) :
    regd.release.factory.isSome → regd.release.loadedBundle.isSome := by
  rw [release_eq]
  split_ifs
  · exact id
  · exact h

theorem lookup_modify_eq_some {f : RegisteredComponent → RegisteredComponent} {k : ComponentId}
    {m : UnorderedMap ComponentId RegisteredComponent} (h : (m.modify k f).lookup c = some regd) :
    ∃ old, m.lookup c = some old ∧ regd = if c = k then f old else old := by
  rw [lookup_modify] at h
  obtain ⟨old, hold, rfl⟩ := Option.map_eq_some_iff.1 h
  exact ⟨old, hold, rfl⟩

theorem Invariant.dispose (h : Invariant s) (inst : ComponentId) :
    Invariant (s.dispose w inst).2 := by
  unfold State.dispose
  rcases hi : s.componentInstances.lookup inst with _ | cid
  · exact h
  have hcount : ∀ c, s.count c = tally (·.component = c)
      (s.componentInstances.erase inst) + if cid.component = c then 1 else 0 :=
    fun c => UnorderedMap.tally_erase hi
  have hle : ∀ c, tally (·.component = c) (s.componentInstances.erase inst) ≤
      s.count c := fun c => by
    rw [hcount c]
    exact Nat.le_add_right _ _
  have hrelease : ∀ c old, s.components.lookup c = some old → c = cid.component →
      wrapInt (old.instances - 1) =
        (tally (·.component = c) (s.componentInstances.erase inst) : ℕ) := by
    intro c old hold he
    have hlt := h.bounded c
    have hcnt := hcount c
    rw [if_pos he.symm] at hcnt
    rw [h.instances c old hold, hcnt, Nat.cast_succ, add_sub_cancel_right]
    exact bmod_of_lt (by omega)
  refine ⟨⟨fun c regd hc => ?_, fun c regd hc hpath hpos => ?_⟩, fun i cid' hi' => ?_,
    fun c regd hc hpath hfac => ?_, fun c => ?_⟩
  · obtain ⟨old, hold, rfl⟩ := lookup_modify_eq_some hc
    by_cases he : c = cid.component
    · rw [if_pos he, release_instances]
      exact hrelease c old hold he
    · rw [if_neg he, h.instances c old hold, hcount, if_neg (Ne.symm he)]
      rfl
  · obtain ⟨old, hold, rfl⟩ := lookup_modify_eq_some hc
    by_cases he : c = cid.component
    · rw [if_pos he] at hpath ⊢
      rw [release_bundlePath] at hpath
      have hne : ¬ wrapInt (old.instances - 1) = 0 := by
        rw [hrelease c old hold he]
        exact_mod_cast (Nat.pos_iff_ne_zero.1 hpos)
      rw [release_eq, if_neg fun hand => hne hand.1]
      exact h.loaded c old hold hpath (Nat.lt_of_lt_of_le hpos (hle c))
    · rw [if_neg he] at hpath ⊢
      exact h.loaded c old hold hpath (Nat.lt_of_lt_of_le hpos (hle c))
  · rw [mem_modify]
    have hne : i ≠ inst := by
      rintro rfl
      rw [AList.lookup_erase] at hi'
      cases hi'
    rw [AList.lookup_erase_ne hne] at hi'
    exact h.registered i cid' hi'
  · obtain ⟨old, hold, rfl⟩ := lookup_modify_eq_some hc
    split_ifs at hpath hfac ⊢
    · rw [release_bundlePath] at hpath
      exact release_bundled (h.bundled c old hold hpath) hfac
    · exact h.bundled c old hold hpath hfac
  · exact Nat.lt_of_le_of_lt (hle c) (h.bounded c)

theorem load_spec (h : regd.load w.toBundles = some (n, regd')) : regd'.factory = some n ∧
    regd'.instances = regd.instances ∧ regd'.bundlePath = regd.bundlePath ∧
      (regd.factory = none ∧ regd'.loadedBundle.isSome ∨ regd' = regd) := by
  unfold RegisteredComponent.load at h
  rcases hf : regd.factory with _ | factory
  · rw [hf] at h
    simp only [Option.bind_eq_bind, Option.bind_eq_some_iff, Option.pure_def, Option.some.injEq,
      Prod.mk.injEq] at h
    obtain ⟨bundle, -, factory, -, rfl, rfl⟩ := h
    exact ⟨rfl, rfl, rfl, .inl ⟨rfl, rfl⟩⟩
  · rw [hf] at h
    obtain ⟨rfl, rfl⟩ := Prod.mk.inj (some.inj h)
    exact ⟨hf, rfl, rfl, .inr rfl⟩

theorem lookup_prepare (hc : s.components.lookup c = some regd) (c' : ComponentId) :
    (s.prepare c regd').components.lookup c' =
      if c' = c then some regd' else s.components.lookup c' := by
  rw [State.prepare, lookup_modify]
  split_ifs with he
  · rw [he, hc, map_some]
  · exact Option.map_id'

def State.entered (s : State) (c : ComponentId) (regd : RegisteredComponent) (object : ℕ) : State :=
  { s.prepare c regd with
    componentInstances := s.componentInstances.emplace s.nextComponentInstanceId ⟨c, object⟩ }

def State.counted (s : State) (c : ComponentId) : State :=
  { s with components := s.components.modify c fun regd =>
      { regd with instances := wrapInt (regd.instances + 1) } }

theorem instantiate_cases (s : State) (w : World) (c : ComponentId) :
    ((s.instantiate w c).1 = invalidComponentID ∧ ((s.instantiate w c).2.2 = s ∨
      ∃ regd n regd', s.components.lookup c = some regd ∧
        regd.load w.toBundles = some (n, regd') ∧ (s.instantiate w c).2.2 = s.prepare c regd') ∧
      Opens s (.instantiate w c)) ∨
    ∃ regd n regd' object, s.components.lookup c = some regd ∧
      regd.load w.toBundles = some (n, regd') ∧ w.factory n regd'.desc = some object ∧
      (s.instantiate w c).1 = w.opened object s.nextComponentInstanceId ∧
      (s.instantiate w c).2.2 =
        if w.opened object s.nextComponentInstanceId = noErr then
          (s.entered c regd' object).counted c
        else ((s.entered c regd' object).dispose w s.nextComponentInstanceId).2 := by
  rcases hc : s.components.lookup c with _ | regd
  · have he : s.instantiate w c = (invalidComponentID, 0, s) := by
      rw [State.instantiate, hc]
    rw [he]
    exact .inl ⟨rfl, .inl rfl, fun r f r' o hr => by rw [hc] at hr; cases hr⟩
  rcases hload : regd.load w.toBundles with _ | ⟨n, regd'⟩
  · have he : s.instantiate w c = (invalidComponentID, 0, s) := by
      rw [State.instantiate, hc]
      simp [hload]
    rw [he]
    refine .inl ⟨rfl, .inl rfl, fun r f r' o hr hl => ?_⟩
    obtain rfl := some.inj (hc.symm.trans hr)
    rw [hload] at hl
    cases hl
  rcases hobject : w.factory n regd'.desc with _ | object
  · have he : s.instantiate w c =
        (invalidComponentID, s.nextComponentInstanceId, s.prepare c regd') := by
      rw [State.instantiate, hc]
      simp [hload, hobject]
    rw [he]
    refine .inl ⟨rfl, .inr ⟨regd, n, regd', rfl, hload, rfl⟩, fun r f r' o hr hl ho => ?_⟩
    obtain rfl := some.inj (hc.symm.trans hr)
    obtain ⟨rfl, rfl⟩ := Prod.mk.inj (some.inj (hload.symm.trans hl))
    rw [hobject] at ho
    cases ho
  · refine .inr ⟨regd, n, regd', object, rfl, hload, hobject, ?_⟩
    rw [State.instantiate, hc]
    simp only [hload, hobject]
    by_cases hopen : w.opened object s.nextComponentInstanceId = noErr
    · rw [if_neg (not_not.2 hopen), if_pos hopen]
      exact ⟨hopen.symm, rfl⟩
    · rw [if_pos hopen, if_neg hopen]
      exact ⟨rfl, rfl⟩

theorem count_entered (regd' : RegisteredComponent) (object : ℕ)
    (hfree : s.nextComponentInstanceId ∉ s.componentInstances) (c' : ComponentId) :
    (s.entered c regd' object).count c' = s.count c' + if c = c' then 1 else 0 :=
  UnorderedMap.tally_emplace hfree

section

variable (h : Invariant s) (hc : s.components.lookup c = some regd)
  (hload : regd.load w.toBundles = some (n, regd'))

include hc hload

theorem sameAccounts_prepare : SameAccounts s (s.prepare c regd') := by
  refine ⟨rfl, fun c' => ?_⟩
  rw [lookup_prepare hc]
  split_ifs with he
  · rw [he, hc, map_some, map_some, (load_spec hload).2.1]
  · rfl

include h

theorem Invariant.load_loaded : regd'.bundlePath.isSome → regd'.loadedBundle.isSome := by
  obtain ⟨hfactory, -, hpath, ⟨-, hloaded⟩ | rfl⟩ := load_spec hload
  · exact fun _ => hloaded
  · exact fun hp => h.bundled c _ hc hp (by rw [hfactory]; rfl)

theorem Invariant.prepare : Invariant (s.prepare c regd') := by
  obtain ⟨hfactory, hinst, hpath, -⟩ := load_spec hload
  have hloaded := h.load_loaded hc hload
  have hcases : ∀ {c' r}, (s.prepare c regd').components.lookup c' = some r →
      c' = c ∧ r = regd' ∨ s.components.lookup c' = some r := by
    intro c' r hr
    rw [lookup_prepare hc] at hr
    split_ifs at hr with he
    · exact .inl ⟨he, (some.inj hr).symm⟩
    · exact .inr hr
  refine ⟨⟨fun c' r hr => ?_, fun c' r hr hp hpos => ?_⟩, fun i cid hi => ?_,
    fun c' r hr hp hf => ?_, h.bounded⟩
  · rcases hcases hr with ⟨rfl, rfl⟩ | hold
    · exact hinst.trans (h.instances _ _ hc)
    · exact h.instances c' r hold
  · rcases hcases hr with ⟨rfl, rfl⟩ | hold
    · exact hloaded hp
    · exact h.loaded c' r hold hp hpos
  · exact mem_modify.2 (h.registered i cid hi)
  · rcases hcases hr with ⟨rfl, rfl⟩ | hold
    · exact hloaded hp
    · exact h.bundled c' r hold hp hf

theorem Invariant.counted (object : ℕ)
    (hfree : s.nextComponentInstanceId ∉ s.componentInstances) (hlt : s.count c + 1 < 2 ^ 31) :
    Invariant ((s.entered c regd' object).counted c) := by
  have hp := h.prepare hc hload
  have hcount : ∀ c', ((s.entered c regd' object).counted c).count c' =
      s.count c' + if c = c' then 1 else 0 := count_entered regd' object hfree
  have hcases : ∀ {c' r}, ((s.entered c regd' object).counted c).components.lookup c' = some r →
      ∃ old, (s.prepare c regd').components.lookup c' = some old ∧
        r = if c' = c then { old with instances := wrapInt (old.instances + 1) } else old :=
    fun hr => lookup_modify_eq_some hr
  refine ⟨⟨fun c' r hr => ?_, fun c' r hr hpath hpos => ?_⟩, fun i cid hi => ?_,
    fun c' r hr hpath hf => ?_, fun c' => ?_⟩
  · obtain ⟨old, hold, rfl⟩ := hcases hr
    have hinst : old.instances = s.count c' := hp.instances c' old hold
    rw [hcount]
    by_cases he : c' = c
    · subst he
      rw [if_pos rfl, if_pos rfl, hinst, wrapInt_of_lt (by omega) (by omega)]
      rfl
    · rw [if_neg he, if_neg (Ne.symm he)]
      exact hinst
  · obtain ⟨old, hold, rfl⟩ := hcases hr
    by_cases he : c' = c
    · subst he
      rw [lookup_prepare hc, if_pos rfl] at hold
      obtain rfl := some.inj hold
      have hloaded := h.load_loaded hc hload
      rw [if_pos rfl] at hpath ⊢
      exact hloaded hpath
    · rw [if_neg he] at hpath ⊢
      rw [hcount, if_neg (Ne.symm he)] at hpos
      exact hp.loaded c' old hold hpath hpos
  · have hi' : (s.componentInstances.lookup i).or
        (if i = s.nextComponentInstanceId then some ⟨c, object⟩ else none) = some cid := by
      rw [← lookup_emplace]
      exact hi
    refine mem_modify.2 (mem_modify.2 ?_)
    rcases Option.or_eq_some_iff.1 hi' with hold | ⟨-, hnew⟩
    · exact h.registered i cid hold
    · split_ifs at hnew
      obtain rfl := some.inj hnew
      exact AList.lookup_isSome.1 (Option.isSome_iff_exists.2 ⟨regd, hc⟩)
  · obtain ⟨old, hold, rfl⟩ := hcases hr
    have hb := hp.bundled c' old hold
    by_cases he : c' = c
    · rw [if_pos he] at hpath hf ⊢
      exact hb hpath hf
    · rw [if_neg he] at hpath hf ⊢
      exact hb hpath hf
  · rw [hcount]
    have hb := h.bounded c'
    split_ifs with he
    · rwa [← he]
    · exact hb

end

theorem Invariant.step (h : Invariant s) {a : Call} (ha : Opens s a) : Invariant (s.step a) := by
  cases a with
  | registerFactory desc factory => exact h.register _ rfl (nomatch ·)
  | registerBundle desc bundlePath entryPointName flags => exact h.register _ rfl fun _ => rfl
  | dispose w inst => exact h.dispose inst
  | instantiate w c =>
    change Invariant (s.instantiate w c).2.2
    obtain ⟨-, hs | ⟨regd, n, regd', hc, hload, hs⟩, -⟩ |
      ⟨regd, n, regd', object, hc, hload, hobject, -, hs⟩ := instantiate_cases s w c
    · rwa [hs]
    · rw [hs]
      exact h.prepare hc hload
    · obtain ⟨hopen, hfree, hlt⟩ := ha regd n regd' object hc hload hobject
      rw [hs, if_pos hopen]
      exact h.counted hc hload object hfree hlt

end Steps

section Failures

variable {s : State} {w : World} {c : ComponentId} {regd regd' : RegisteredComponent} {n : ℕ}

theorem lookup_counted (hc : s.components.lookup c = some regd) (object : ℕ) :
    ((s.entered c regd' object).counted c).components.lookup c =
      some { regd' with instances := wrapInt (regd'.instances + 1) } := by
  have hprep := @lookup_prepare s c regd regd' hc c
  rw [if_pos rfl] at hprep
  change ((s.prepare c regd').components.modify c _).lookup c = _
  rw [lookup_modify, hprep, map_some, if_pos rfl]

theorem lookup_entered (object : ℕ) (hfree : s.nextComponentInstanceId ∉ s.componentInstances) :
    (s.entered c regd' object).componentInstances.lookup s.nextComponentInstanceId =
      some ⟨c, object⟩ := UnorderedMap.lookup_emplace_self hfree _

theorem Invariant.opens_of_keepsAccounts (h : Invariant s)
    (hk : KeepsAccounts s (.instantiate w c)) : Opens s (.instantiate w c) := by
  intro regd₀ n₀ regd₀' object₀ hc₀ hload₀ hobject₀
  obtain ⟨-, -, hopens⟩ | ⟨regd, n, regd', object, hc, hload, hobject, hstatus, hs⟩ :=
    instantiate_cases s w c
  · exact hopens regd₀ n₀ regd₀' object₀ hc₀ hload₀ hobject₀
  obtain rfl := some.inj (hc₀.symm.trans hc)
  obtain ⟨rfl, rfl⟩ := Prod.mk.inj (some.inj (hload₀.symm.trans hload))
  obtain rfl := some.inj (hobject₀.symm.trans hobject)
  obtain ⟨haccounted, hframe⟩ := hk
  replace hframe := hframe w c rfl
  change Accounted (s.instantiate w c).2.2 at haccounted
  change _ → SameAccounts s (s.instantiate w c).2.2 at hframe
  have hinst : regd₀'.instances = s.count c :=
    (load_spec hload).2.1.trans (h.instances c regd₀ hc)
  rw [hs] at haccounted hframe
  rw [hstatus] at hframe
  by_cases hopen : w.opened object₀ s.nextComponentInstanceId = noErr
  · refine ⟨hopen, ?_⟩
    rw [if_pos hopen] at haccounted
    have hcnt : wrapInt (regd₀'.instances + 1) = _ :=
      haccounted.instances c _ (lookup_counted hc object₀)
    rw [hinst] at hcnt
    by_cases hfree : s.nextComponentInstanceId ∈ s.componentInstances
    · have hsame : ((s.entered c regd₀' object₀).counted c).count c = s.count c :=
        congrArg (tally _) (if_pos hfree)
      rw [hsame] at hcnt
      exact absurd hcnt (wrapInt_ne (.inl rfl))
    · refine ⟨hfree, ?_⟩
      have hmore : ((s.entered c regd₀' object₀).counted c).count c = s.count c + 1 := by
        have := count_entered (c := c) regd₀' object₀ hfree c
        rwa [if_pos rfl] at this
      rw [hmore] at hcnt
      have := wrapInt_lt (s.count c + 1)
      rw [hcnt] at this
      exact_mod_cast this
  · -- the entry is taken out again, or another one in its place
    rw [if_neg hopen] at hframe haccounted
    obtain ⟨hentries, hcounters⟩ := hframe hopen
    by_cases hfree : s.nextComponentInstanceId ∈ s.componentInstances
    · have hentered : (s.entered c regd₀' object₀).componentInstances = s.componentInstances :=
        if_pos hfree
      obtain ⟨cid, hcid⟩ := Option.isSome_iff_exists.1 (AList.lookup_isSome.2 hfree)
      rw [State.dispose, hentered, hcid] at hentries
      have hgone := congrArg (AList.lookup s.nextComponentInstanceId) hentries
      rw [hcid, AList.lookup_erase] at hgone
      cases hgone
    · have hcounter := hcounters c
      rw [State.dispose, lookup_entered object₀ hfree, hc] at hcounter
      change ((UnorderedMap.modify c _ (s.prepare c regd₀').components).lookup c).map _ = _
        at hcounter
      rw [lookup_modify, lookup_prepare hc, if_pos rfl, map_some,
        map_some, if_pos rfl, map_some, release_instances, hinst,
        h.instances c regd₀ hc] at hcounter
      exact absurd (some.inj hcounter) (wrapInt_ne (.inr rfl))

end Failures

theorem Invariant.keepsAccounts_iff {s : State} (h : Invariant s) (a : Call) :
    KeepsAccounts s a ↔ Opens s a := by
  refine ⟨fun hk => ?_, fun ha => ⟨(h.step ha).toAccounted, ?_⟩⟩
  · cases a with
    | instantiate w c => exact h.opens_of_keepsAccounts hk
    | _ => trivial
  · rintro w c rfl hstatus
    change SameAccounts s (s.instantiate w c).2.2
    obtain ⟨-, hs | ⟨regd, n, regd', hc, hload, hs⟩, -⟩ |
      ⟨regd, n, regd', object, hc, hload, hobject, hopened, hs⟩ := instantiate_cases s w c
    · rw [hs]
      exact ⟨rfl, fun _ => rfl⟩
    · rw [hs]
      exact sameAccounts_prepare hc hload
    · rw [hopened] at hstatus
      exact absurd (ha regd n regd' object hc hload hobject).1 hstatus

/-- The accounts are in order after every call of a run, and left alone by every failed
`instantiate`, exactly if every object that is made can be opened under a number that is free. -/
theorem run_accounted_iff (calls : List Call) : EachStep State.step KeepsAccounts .initial calls ↔
      EachStep State.step Opens .initial calls :=
  eachStep_iff (fun _ _ h ha => h.step ha) (fun _ a h => h.keepsAccounts_iff a)
    invariant_initial

def closedWorld : World where
  bundleFromPath _ := none
  functionPointer _ _ := none
  factory _ _ := some 0
  opened _ _ := 1
  closed _ := 0

/-- After an instance that could not be opened, there are minus one of them. -/
theorem run_open_fails : ¬ EachStep State.step KeepsAccounts .initial
    [.registerFactory ⟨1, 1, 1, 0, 0⟩ (some 0), .instantiate closedWorld 0x80004000] := by
  rintro ⟨-, ⟨haccounted, -⟩, -⟩
  have h := haccounted.instances 0x80004000
    { id := 0x80004000, desc := ⟨1, 1, 1, 0, 0⟩, factory := some 0, flags := 0
      loadedBundle := none, bundlePath := none, entryPointName := [], instances := -1 } (by rfl)
  exact absurd h (by decide)

end Darling.AudioComponentManager
