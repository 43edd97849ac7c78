import Darling.FileHandle
import Darling.Proofs.Xattr

/-!
# When a saved reference keeps denoting its file

The slot of a reference holds the last name saved into it.  The reference is answered with that name
as long as it has its generation, so what matters is which file the name, as it was given, denotes
in the directory in which the reference is used.
-/

namespace Darling.Vchroot.Text

variable {V : Config} {k : Kernel} {p : ProcLink → Except ℕ+ Bytes}
  {hp : ∀ l t, p l = .ok t → 0 ∉ t}

theorem loop_procLink (run : Bytes → State → Option (ℤ × State)) :
    ∀ (n : ℕ) (input : Bytes) (s : State),
      loop V { k with procLink := p, procLink_nul := hp } run n input s = loop V k run n input s
  | 0, _, _ => rfl
  | n + 1, input, s => by
    simp only [loop, loop_procLink run n]
    rfl

/-- The walk reads no link of `/proc`. -/
theorem run_procLink : ∀ (n : ℕ) (input : Bytes) (s : State),
    run V { k with procLink := p, procLink_nul := hp } n input s = run V k n input s
  | 0, _, _ => rfl
  | n + 1, input, s => by rw [run, run, loop_procLink, funext₂ (run_procLink n)]

end Darling.Vchroot.Text

namespace Darling.FileHandle

open Vchroot CArray Option
open Xattr (GuestPath Stack)

section Access

variable {ι δ : Type*} (w : World ι δ) (d : δ)

/-- What `vchroot_expand` makes of a name, from a working directory. -/
def expansion (name : Bytes) (follow : Bool) : Option (ℤ × Bytes) :=
  Text.expand w.config (w.system d).kernel (if w.wd d ≠
    -100 then .fd (w.wd d) else .cwd) follow name

theorem sysAccess_eq (st : Stack) (name : GuestPath) : sysAccess w d st name.bytes =
    (expansion w d name.bytes true).bind fun r =>
      if r.1 < 0 then some (errnoLinuxToBsd w.errnos r.1)
      else match w.lookup true r.2 with
        | .error e => some (errnoLinuxToBsd w.errnos (fail e))
        | .ok _ => some 0 := by
  refine bind_eq_of_rel (Xattr.expand_rel (w.system d) st name false) fun a b hab => ?_
  simp only [some_bind, hab.1, hab.2.str_zero]
  rfl

theorem sysAccess_stack (st : Stack) (name : GuestPath) :
    sysAccess w d st name.bytes = sysAccess w d blank name.bytes := by
  rw [sysAccess_eq, sysAccess_eq]

theorem hostPath_eq (name : GuestPath) (follow : Bool) : hostPath w d name.bytes follow =
    (expansion w d name.bytes follow).bind fun r => if r.1 < 0 then none else some r.2 := by
  have hrel := Xattr.expand_rel (w.system d) blank name (!follow)
  rw [Bool.not_not] at hrel
  refine bind_eq_of_rel hrel fun a b hab => ?_
  simp [hab.1, hab.2.str_zero]

theorem sysNameToHandle_eq (g : Globals) (st st' : Stack) (name : GuestPath) (follow : Bool) :
    sysNameToHandle w d g st st' name.bytes follow =
      (expansion w d name.bytes follow).bind fun r =>
        if r.1 < 0 then some (errnoLinuxToBsd w.errnos r.1, none, g)
        else (sysAccess w d blank name.bytes).bind fun ret =>
          if ret = 0 then
            (store g.savedRefs g.nextSavedRef ⟨some name.bytes, g.nextGen⟩).bind fun savedRefs =>
              some (0, some ⟨g.nextSavedRef, g.nextGen⟩,
                ⟨savedRefs, (g.nextSavedRef + 1) % slots, g.nextGen + 1⟩)
          else some (errnoLinuxToBsd w.errnos (fail eopnotsupp), none, g) := by
  rw [sysNameToHandle]
  have hrel := Xattr.expand_rel (w.system d) st name (!follow)
  rw [Bool.not_not] at hrel
  refine bind_eq_of_rel hrel fun ⟨rv, out⟩ ⟨rv', p⟩ hab => ?_
  obtain ⟨rfl, -⟩ := hab
  rw [sysAccess_stack w d st']
  rfl

end Access

section Directories

variable {ι δ : Type*} {w : World ι δ} {d d' : δ} {name : GuestPath}

theorem expansion_congr (h : name.bytes.head? = some slash ∨ w.link d = w.link d') (follow : Bool) :
    expansion w d name.bytes follow = expansion w d' name.bytes follow := by
  have hlink : ∀ e, (w.system e).kernel.procLink
      (if w.wd e ≠ -100 then .fd (w.wd e) else .cwd) = w.link e := fun _ => rfl
  have hrun : ∀ e n i s, Text.run w.config (w.system e).kernel n i s =
      Text.run w.config w.kernel n i s := fun _ => Text.run_procLink
  simp only [expansion, Text.expand, Text.openState, hlink, hrun]
  rcases h with h | h
  · rw [if_pos h, if_pos h]
  · rw [h]

theorem sysAccess_congr (h : name.bytes.head? = some slash ∨ w.link d = w.link d') :
    sysAccess w d blank name.bytes = sysAccess w d' blank name.bytes := by
  rw [sysAccess_eq, sysAccess_eq, expansion_congr h]

theorem denotes_congr (h : name.bytes.head? = some slash ∨ w.link d = w.link d') (follow : Bool) :
    denotes w d name.bytes follow = denotes w d' name.bytes follow := by
  rw [denotes, denotes, hostPath_eq, hostPath_eq, expansion_congr h]
  rfl

end Directories

theorem sysNameToHandle_saved {ι δ : Type*} {w : World ι δ} {d : δ} {g g' : Globals}
    {st st' : Stack} {name : Bytes} {follow : Bool} {rv : ℤ} {ref : RefData}
    (h : sysNameToHandle w d g st st' name follow = some (rv, some ref, g')) :
    sysAccess w d st' name = some 0 ∧
      ∃ savedRefs, store g.savedRefs g.nextSavedRef ⟨some name, g.nextGen⟩ = some savedRefs ∧
        ref = ⟨g.nextSavedRef, g.nextGen⟩ ∧
        g' = ⟨savedRefs, (g.nextSavedRef + 1) % slots, g.nextGen + 1⟩ := by
  simp only [sysNameToHandle, bind_eq_bind, bind_eq_some_iff] at h
  obtain ⟨⟨rv', out⟩, -, h⟩ := h
  split at h
  · simp at h
  · rw [bind_eq_some_iff] at h
    obtain ⟨ret, haccess, h⟩ := h
    split at h
    · rename_i hret
      rw [bind_eq_some_iff] at h
      obtain ⟨savedRefs, hstore, h⟩ := h
      simp only [pure_def, some.injEq, Prod.mk.injEq] at h
      exact ⟨hret ▸ haccess, savedRefs, hstore, h.2.1.symm, h.2.2.symm⟩
    · simp at h

/-- What is saved for a reference. -/
def Reference.saved {ι δ : Type*} (r : Reference ι δ) : SavedRef := ⟨some r.name.bytes, r.data.gen⟩

/-- The ring holds the names of the references, the newest in place of the oldest. -/
structure Invariant {ι δ : Type*} (w : World ι δ) (s : State ι δ) : Prop where
  ring : Ring.Holds slots (s.references.map Reference.saved) s.globals.savedRefs
    s.globals.nextSavedRef
  gen : s.globals.nextGen = UInt32.ofNat s.references.length
  data : ∀ n (r : Reference ι δ), s.references[n]? = some r → r.data = ⟨n % slots, UInt32.ofNat n⟩
  made : ∀ r ∈ s.references, sysAccess w r.cwd blank r.name.bytes = some 0 ∧
    denotes w r.cwd r.name.bytes r.follow = r.file

namespace Invariant

variable {ι δ : Type*} {w : World ι δ} {s : State ι δ}

theorem initial (w : World ι δ) (d : δ) : Invariant w (.initial d) where
  ring := Ring.holds_nil List.length_replicate
  gen := rfl
  data n r h := by simp [State.initial] at h
  made r h := absurd h List.not_mem_nil

theorem save (h : Invariant w s) {name : GuestPath} (follow : Bool) {savedRefs : List SavedRef}
    (haccess : sysAccess w s.cwd blank name.bytes = some 0)
    (hstore : store s.globals.savedRefs s.globals.nextSavedRef ⟨some name.bytes, s.globals.nextGen⟩
      = some savedRefs) :
    Invariant w ⟨s.cwd, ⟨savedRefs, (s.globals.nextSavedRef + 1) % slots, s.globals.nextGen + 1⟩,
      s.references ++ [⟨⟨s.globals.nextSavedRef, s.globals.nextGen⟩, name, follow, s.cwd,
        denotes w s.cwd name.bytes follow⟩]⟩ where
  ring := by
    rw [store] at hstore
    split at hstore
    · obtain rfl := some.inj hstore
      have hring := h.ring.store (by decide) ⟨some name.bytes, s.globals.nextGen⟩
      rw [List.map_append]
      exact hring
    · cases hstore
  gen := by
    rw [h.gen, List.length_append, List.length_singleton]
    exact (UInt32.ofNat_add _ _).symm
  data n r hn := by
    rcases Nat.lt_or_ge n s.references.length with hlt | hge
    · rw [List.getElem?_append_left hlt] at hn
      exact h.data n r hn
    · rw [List.getElem?_append_right hge, List.getElem?_singleton] at hn
      split at hn
      · obtain rfl := some.inj hn
        obtain rfl : n = s.references.length := by omega
        rw [h.ring.next, h.gen, List.length_map]
      · cases hn
  made r hr := by
    rcases List.mem_append.1 hr with hr | hr
    · exact h.made r hr
    · obtain rfl := List.mem_singleton.1 hr
      exact ⟨haccess, rfl⟩

theorem step (h : Invariant w s) (a : Action δ) : Invariant w (step w s a) := by
  cases a with
  | chdir d => exact ⟨h.ring, h.gen, h.data, h.made⟩
  | handleToName st n => exact h
  | nameToHandle st st' name follow =>
    rw [FileHandle.step]
    split
    · rename_i heq
      obtain ⟨haccess, savedRefs, hstore, rfl, rfl⟩ := sysNameToHandle_saved heq
      exact h.save follow (sysAccess_stack w s.cwd st' name ▸ haccess) hstore
    · exact h

theorem step_saves (h : Invariant w s) (st st' : Stack) {name : GuestPath} {follow : Bool}
    {p : Bytes} (hexp : expansion w s.cwd name.bytes follow = some (0, p))
    (hacc : sysAccess w s.cwd blank name.bytes = some 0) :
    ∃ g, FileHandle.step w s (.nameToHandle st st' name follow) =
      ⟨s.cwd, g, s.references ++ [⟨⟨s.globals.nextSavedRef, s.globals.nextGen⟩, name, follow,
        s.cwd, denotes w s.cwd name.bytes follow⟩]⟩ := by
  have hroom : s.globals.nextSavedRef < s.globals.savedRefs.length := by
    rw [h.ring.next, h.ring.length]
    exact Nat.mod_lt _ (by decide)
  rw [FileHandle.step, sysNameToHandle_eq, hexp, bind_some, if_neg (lt_irrefl 0), hacc,
    bind_some, if_pos rfl, store, if_pos hroom, bind_some]
  exact ⟨_, rfl⟩

/-- The slot is used again with the same generation after `lcm(200, 2 ^ 32)` names. -/
theorem gen_eq_iff {n t : ℕ} : (n + slots * t) % 2 ^ 32 = n % 2 ^ 32 ↔ 2 ^ 29 ∣ t := by
  unfold slots
  omega

variable {n : ℕ} {r r' : Reference ι δ}

theorem sysHandleToName_eq (h : Invariant w s) (st : Stack) (hr : s.references[n]? = some r)
    (hr' : s.references[Ring.last slots s.references.length n]? = some r') :
    sysHandleToName w s.cwd s.globals st r.data =
      if 2 ^ 29 ∣ (s.references.length - 1 - n) / slots then
        (sysAccess w s.cwd blank r'.name.bytes).map fun ret => (ret, some r'.name.bytes)
      else some (fail enoent, none) := by
  have hn : n < s.references.length := (List.getElem?_eq_some_iff.1 hr).1
  have hslot := h.ring.slot n (by rwa [List.length_map])
  rw [List.length_map, List.getElem?_map, hr', map_some] at hslot
  have htake : r'.name.bytes.take (4096 - 1) = r'.name.bytes :=
    List.take_of_length_le (Nat.le_sub_one_of_lt r'.name.length_lt)
  have hgen : r'.data.gen = r.data.gen ↔ 2 ^ 29 ∣ (s.references.length - 1 - n) / slots := by
    rw [h.data _ _ hr, h.data _ _ hr', ← UInt32.toNat_inj, UInt32.toNat_ofNat', UInt32.toNat_ofNat']
    exact gen_eq_iff
  have hindex : r.data.index = n % slots := by rw [h.data _ _ hr]
  simp only [sysHandleToName, hindex, hslot, some_bind, Reference.saved,
    hgen, htake, sysAccess_stack w s.cwd st]
  split_ifs
  · rcases sysAccess w s.cwd blank r'.name.bytes <;> rfl
  · rfl

theorem correct (h : Invariant w s) {a : Action δ} (hcond : Condition w s a) : Correct w s a := by
  rcases a with d | ⟨st, st', name, follow⟩ | ⟨st, n⟩
  · trivial
  · trivial
  intro r hr
  have hn : n < s.references.length := (List.getElem?_eq_some_iff.1 hr).1
  have hcond := hcond r hr
  simp only at hcond
  split_ifs at hcond with hlater
  · -- nothing else was saved in the slot
    have hlast : Ring.last slots s.references.length n = n := Ring.last_eq_self hn (by omega)
    obtain ⟨haccess, hfile⟩ := h.made r (List.mem_of_getElem? hr)
    refine ⟨0, some r.name.bytes, ?_, .inr ⟨rfl, _, rfl, ?_⟩, fun _ => rfl⟩
    · rw [h.sysHandleToName_eq st hr (by rwa [hlast]), Nat.div_eq_of_lt (by omega),
        if_pos (dvd_zero _), sysAccess_congr hcond, haccess, map_some]
    · rw [denotes_congr hcond, hfile]
  · have hr' := List.getElem?_eq_getElem (Ring.last_lt (n := slots) hn)
    refine ⟨fail enoent, none, ?_, .inl rfl, fun hlt => absurd hlt hlater⟩
    rw [h.sysHandleToName_eq st hr hr', Nat.sub_sub, Nat.add_comm 1 n, if_neg hcond]

end Invariant

/-- Every reference is answered with its file, or refused once its slot has been used again, if it
is used with an absolute name or in its own directory, and the generations do not come round. -/
theorem run_denotes {ι δ : Type*} (w : World ι δ) (d : δ) (as : List (Action δ))
    (h : EachStep (step w) (Condition w) (.initial d) as) :
    EachStep (step w) (Correct w) (.initial d) as :=
  h.mono (fun _ a hs _ => hs.step a) (fun _ _ hs => hs.correct) (Invariant.initial w d)

/-! ### A relative name

`f` is saved in `/a` and used in `/b`. -/

def twoDirs : Node :=
  .dir [(ascii ['p'], .dir [(ascii ['a'], .dir [(ascii ['f'], .file)]),
    (ascii ['b'], .dir [(ascii ['f'], .file)])])]

def cwdLink (d : Bool) (_ : ProcLink) : Except ℕ+ Bytes :=
  .ok (ascii (if d then ['/', 'p', '/', 'b'] else ['/', 'p', '/', 'a']))

def sampleWorld : World (List Bytes) Bool where
  config := sampleConfig
  kernel := twoDirs.kernel (cwdLink false)
  procLink := cwdLink
  procLink_nul d l t h := by
    cases d <;> cases h <;> decide
  wd _ := -100
  lookup := (Xattr.treeSystem sampleConfig twoDirs (cwdLink false)).lookup
  errnos n := n

def nameF : GuestPath := ⟨ascii ['f'], by decide, by decide⟩

theorem expansion_f (d : Bool) (follow : Bool) : expansion sampleWorld d nameF.bytes follow =
    some (0, ascii (['/', 'p', '/', if d then 'b' else 'a', '/', 'f'])) := by
  cases d <;> cases follow <;> rfl

theorem sysAccess_f (d : Bool) : sysAccess sampleWorld d blank nameF.bytes = some 0 := by
  rw [sysAccess_eq, expansion_f]
  cases d <;> rfl

theorem denotes_f (d : Bool) : denotes sampleWorld d nameF.bytes true
    = some [ascii ['p'], ascii [if d then 'b' else 'a'], ascii ['f']] := by
  rw [denotes, hostPath_eq, expansion_f]
  cases d <;> rfl

def referenceF : Reference (List Bytes) Bool :=
  ⟨⟨0, 0⟩, nameF, true, false, some [ascii ['p'], ascii ['a'], ascii ['f']]⟩

theorem step_f : ∃ g, step sampleWorld (.initial false) (.nameToHandle blank blank nameF true) =
    ⟨false, g, [referenceF]⟩ := by
  obtain ⟨g, hstep⟩ := (Invariant.initial sampleWorld false).step_saves blank blank
    (expansion_f false true) (sysAccess_f false)
  rw [show (State.initial false : State (List Bytes) Bool).cwd = false from rfl, denotes_f] at hstep
  exact ⟨g, hstep⟩

/-- The reference made of a file in `/a` is answered with its file when the directory is `/a`
again. -/
theorem run_same_directory : EachStep (step sampleWorld) (Correct sampleWorld) (.initial false)
    [.nameToHandle blank blank nameF true, .chdir true, .chdir false, .handleToName blank 0] := by
  obtain ⟨g, hstep⟩ := step_f
  refine run_denotes sampleWorld false _ ⟨trivial, trivial, trivial, fun r hr => ?_, trivial⟩
  rw [hstep] at hr ⊢
  obtain rfl := some.inj hr
  exact .inr rfl

/-- The reference made of a file in `/a` is answered with a name that is another file in `/b`. -/
theorem run_other_directory :
    ((step sampleWorld (.initial false) (.nameToHandle blank blank nameF true)).references.map
        (·.file) = [some [ascii ['p'], ascii ['a'], ascii ['f']]]) ∧
      denotes sampleWorld true nameF.bytes true = some [ascii ['p'], ascii ['b'], ascii ['f']] ∧
      ¬ EachStep (step sampleWorld) (Correct sampleWorld) (.initial false)
        [.nameToHandle blank blank nameF true, .chdir true, .handleToName blank 0] := by
  obtain ⟨g, hstep⟩ := step_f
  refine ⟨by rw [hstep]; rfl, denotes_f true, fun ⟨_, _, hcorrect, _⟩ => ?_⟩
  have hinv : Invariant sampleWorld ⟨true, g, [referenceF]⟩ := by
    have := ((Invariant.initial sampleWorld false).step
      (.nameToHandle blank blank nameF true)).step (.chdir true)
    rwa [hstep] at this
  rw [hstep] at hcorrect
  have hlast : Ring.last slots 1 0 = 0 := by decide
  have hslot : [referenceF][Ring.last slots 1 0]? = some referenceF := by rw [hlast]; rfl
  have hname : sysHandleToName sampleWorld true g blank referenceF.data =
      some (0, some nameF.bytes) := by
    have := hinv.sysHandleToName_eq blank (n := 0) rfl hslot
    dsimp only [List.length_singleton] at this
    rwa [if_pos (by decide), show referenceF.name = nameF from rfl, sysAccess_f] at this
  obtain ⟨ret, name, hret, hfile, -⟩ := hcorrect referenceF rfl
  obtain ⟨rfl, rfl⟩ := Prod.mk.inj (some.inj (hname.symm.trans hret))
  rcases hfile with hfile | ⟨-, p, hp, hfile⟩
  · exact absurd hfile (by decide)
  · rw [← some.inj hp] at hfile
    exact absurd ((denotes_f true).symm.trans hfile) (by decide)

end Darling.FileHandle
