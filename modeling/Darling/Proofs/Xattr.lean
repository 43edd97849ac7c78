import Darling.Proofs.VchrootInside
import Darling.Runs
import Darling.Xattr

/-!
# When the wrappers for extended attributes act as one store

A call is correct exactly if the path as it was given leads Linux to the file that the expanded path
denotes, and if `sys_getxattr`, which returns 0, has read an empty value.
-/

namespace Darling.Xattr

open Vchroot CArray
open Event (actsOn request answer)
open LinuxCall (onFile)
open Option (some.inj)

theorem int_natCast {n : ℕ} (h : n ≤ sizeMax) : int n = n := by
  unfold sizeMax at h
  rw [int, Int.bmod_eq_of_le] <;> omega

theorem int_fail (e : Errno) : int (fail e.1) < 0 := by
  have hneg := fail_neg e.1
  have hge : -4096 < fail e.1 := by
    unfold fail
    omega
  rw [int, Int.bmod_eq_of_le (by omega) (by omega)]
  exact hneg

theorem copyOut_cases (size : ℕ) (text : Bytes) :
    (∃ e : Errno, copyOut size text = ⟨fail e.1, none⟩ ∧
      ¬ (text.length ≤ sizeMax ∧ (size = 0 ∨ text.length ≤ size))) ∨
    copyOut size text = ⟨text.length, if size = 0 then none else some text⟩ ∧
      text.length ≤ sizeMax ∧ (size = 0 ∨ text.length ≤ size) := by
  rw [copyOut]
  by_cases hmax : sizeMax < text.length
  · exact Or.inl ⟨⟨e2big, by decide⟩, if_pos hmax, by omega⟩
  rw [if_neg hmax]
  by_cases hsize : size = 0
  · exact Or.inr ⟨by rw [if_pos hsize, if_pos hsize], by omega, Or.inl hsize⟩
  rw [if_neg hsize, if_neg hsize]
  by_cases hlt : size < text.length
  · exact Or.inl ⟨⟨erange, by decide⟩, if_pos hlt, by omega⟩
  · exact Or.inr ⟨if_neg hlt, by omega, by omega⟩

section Run

variable {ι : Type*} {w : System ι}

theorem finish_fail (e : Errno) : w.finish (fail e.1) < 0 := by
  rw [System.finish, if_pos (int_fail e)]
  exact errnoLinuxToBsd_neg (int_fail e)

theorem finish_natCast {n : ℕ} (h : n ≤ sizeMax) : w.finish n = n := by
  rw [System.finish, int_natCast h, if_neg (by omega)]

theorem getFinish_fail (e : Errno) :
    (if int (fail e.1) < 0 then errnoLinuxToBsd w.errnos (int (fail e.1)) else 0) < 0 := by
  rw [if_pos (int_fail e)]
  exact errnoLinuxToBsd_neg (int_fail e)

theorem getFinish_natCast {n : ℕ} (h : n ≤ sizeMax) :
    (if int n < 0 then errnoLinuxToBsd w.errnos (int n) else 0) = 0 := by
  rw [int_natCast h, if_neg (by omega)]

variable {follow : Bool} {name path : Bytes} {size : ℕ}

theorem find_eq_some {p : Bytes} {f : ι} :
    w.find follow p = some f ↔ w.lookup follow p = .ok f := by
  unfold System.find
  split <;> simp [*]

variable {e : Event}

theorem expand_rel (w : System ι) (st : Stack) (path : GuestPath) (nofollow : Bool) :
    Option.Rel (fun r t : ℤ × Bytes => r.1 = t.1 ∧ Spells 0 r.2 t.2)
      (w.expand st path.bytes nofollow)
      (Text.expand w.config w.kernel (if w.wd ≠ -100 then .fd w.wd else .cwd) (!nofollow)
        path.bytes) := by
  obtain ⟨buf, hbuf, hsp, hlen⟩ := strcpy_zero path.nul_notMem
    (by rw [st.path_length]; exact path.length_lt)
  rw [System.expand, hbuf]
  have hsize : (ExpandArgs.mk buf w.wd !nofollow).path.length = pathMax := hlen.trans st.path_length
  exact vchrootExpand_rel st.junk_length hsize hsp

theorem hostPath_eq : e.hostPath w =
    (Text.expand w.config w.kernel (if w.wd ≠ -100 then .fd w.wd else .cwd) (!e.nofollow)
      e.path.bytes).bind fun r => if r.1 < 0 then none else some r.2 := by
  refine bind_eq_of_rel (expand_rel w e.stack e.path e.nofollow) fun a b hab => ?_
  simp [hab.1, hab.2.str_zero]

/-- The wrapper fails before it has called Linux. -/
def Event.NoCall (e : Event) (w : System ι) : Prop :=
  e.request w = none ∨ ∃ rv, rv < 0 ∧ e.request w = some (.ret rv)

theorem request_get (hc : e.call = .get name size) :
    (∃ p, e.hostPath w = some p ∧ e.request w = some (.call (.getxattr p name size) fun ret =>
      if int ret < 0 then errnoLinuxToBsd w.errnos (int ret) else 0)) ∨
    e.hostPath w = none ∧ e.NoCall w := by
  simp only [Event.NoCall, request, Event.hostPath, hc, sysGetxattr]
  rcases w.expand e.stack e.path.bytes e.nofollow with _ | ⟨rv, out⟩
  · exact Or.inr ⟨rfl, Or.inl rfl⟩
  · by_cases hrv : rv < 0
    · refine Or.inr ⟨if_pos hrv, Or.inr ⟨_, errnoLinuxToBsd_neg hrv, if_pos hrv⟩⟩
    · rcases hs : str 0 out 0 with _ | p
      · exact Or.inr ⟨by simp [hrv, hs], Or.inl (by simp [hrv, hs])⟩
      · exact Or.inl ⟨p, by simp [hrv, hs], by simp [hrv, hs]⟩

theorem request_list (hc : e.call = .list size) :
    ((∃ rv out, w.expand e.stack e.path.bytes e.nofollow = some (rv, out) ∧ 0 ≤ rv) ∧
      e.request w = some (.call (.listxattr (!e.nofollow) e.path.bytes size) w.finish)) ∨
    (¬ ∃ rv out, w.expand e.stack e.path.bytes e.nofollow = some (rv, out) ∧ 0 ≤ rv) ∧
      e.hostPath w = none ∧ e.NoCall w := by
  simp only [Event.NoCall, request, Event.hostPath, hc, sysListxattr]
  rcases w.expand e.stack e.path.bytes e.nofollow with _ | ⟨rv, out⟩
  · exact Or.inr ⟨by simp, rfl, Or.inl rfl⟩
  · by_cases hrv : rv < 0
    · refine Or.inr ⟨?_, if_pos hrv, Or.inr ⟨_, errnoLinuxToBsd_neg hrv, if_pos hrv⟩⟩
      rintro ⟨rv', out', he, hge⟩
      obtain ⟨rfl, rfl⟩ := Prod.mk.inj (some.inj he)
      omega
    · exact Or.inl ⟨⟨rv, out, rfl, by omega⟩, if_neg hrv⟩

theorem denotes_of_hostPath_none (h : e.hostPath w = none) : e.denotes w = none := by
  rw [Event.denotes, h, Option.bind_none]

variable [DecidableEq ι] {s : State ι} {t t' : Store ι} {a : Answer} {f : ι}

theorem mem_names {n : Bytes} : n ∈ names t f ↔ (f, n) ∈ t := by
  rw [names, List.mem_map]
  constructor
  · rintro ⟨⟨f', n'⟩, h, rfl⟩
    obtain ⟨hmem, hf⟩ := List.mem_filter.1 h
    rw [← of_decide_eq_true hf]
    exact AList.mem_keys.1 hmem
  · exact fun h => ⟨(f, n), List.mem_filter.2 ⟨AList.mem_keys.2 h, decide_eq_true rfl⟩, rfl⟩

theorem nodup_names : (names t f).Nodup := by
  refine List.Nodup.map_on ?_ (t.keys_nodup.filter _)
  rintro ⟨f₁, n₁⟩ h₁ ⟨f₂, n₂⟩ h₂ hn
  have hf₁ : f₁ = f := by simpa using (List.mem_filter.1 h₁).2
  have hf₂ : f₂ = f := by simpa using (List.mem_filter.1 h₂).2
  exact Prod.ext (hf₁.trans hf₂.symm) hn

theorem perform_cases (t : Store ι) (refusal : Option Errno) (c : LinuxCall) :
    (∃ e : Errno, w.perform t refusal c = (⟨fail e.1, none⟩, t) ∧
      (w.find c.follow c.path = none ∨ refusal ≠ none)) ∨
    ∃ f, w.find c.follow c.path = some f ∧ refusal = none ∧
      w.perform t refusal c = c.onFile t f := by
  unfold System.perform
  rcases hl : w.lookup c.follow c.path with e | f
  · exact Or.inl ⟨e, rfl, Or.inl (by rw [System.find, hl])⟩
  · rcases refusal with _ | e
    · exact Or.inr ⟨f, find_eq_some.2 hl, rfl, rfl⟩
    · exact Or.inl ⟨e, rfl, Or.inr nofun⟩

theorem no_call (h : e.NoCall w) :
    e.actsOn w = none ∧ ∀ a t', e.answer w t = some (a, t') → a.ret < 0 := by
  rcases h with h | ⟨rv, hrv, h⟩
  · simp [actsOn, answer, h]
  · refine ⟨by simp [actsOn, h], fun a t' ha => ?_⟩
    simp only [answer, h] at ha
    obtain ⟨rfl, -⟩ := Prod.mk.inj (some.inj ha)
    exact hrv

theorem onFile_set_cases (t : Store ι) (f : ι) {value : Bytes} :
    (∃ e : Errno, onFile t f (.setxattr follow path name value) = (⟨fail e.1, none⟩, t)) ∨
      onFile t f (.setxattr follow path name value) =
        (⟨0, none⟩, t.insert (f, name) value) := by
  rw [onFile]
  split_ifs
  · exact Or.inl ⟨⟨e2big, by decide⟩, rfl⟩
  · exact Or.inr rfl

theorem onFile_remove_cases (t : Store ι) (f : ι) :
    (∃ e : Errno, onFile t f (.removexattr follow path name) = (⟨fail e.1, none⟩, t)) ∨
      onFile t f (.removexattr follow path name) = (⟨0, none⟩, t.erase (f, name)) := by
  rw [onFile]
  split_ifs
  · exact Or.inr rfl
  · exact Or.inl ⟨⟨enodata, by decide⟩, rfl⟩

theorem onFile_get_cases (t : Store ι) (f : ι) :
    (∃ e : Errno, onFile t f (.getxattr path name size) = (⟨fail e.1, none⟩, t) ∧
      ∀ value, t.lookup (f, name) = some value →
        ¬ (value.length ≤ sizeMax ∧ (size = 0 ∨ value.length ≤ size))) ∨
      ∃ value, t.lookup (f, name) = some value ∧ value.length ≤ sizeMax ∧
        (size = 0 ∨ value.length ≤ size) ∧ onFile t f (.getxattr path name size) =
          (⟨value.length, if size = 0 then none else some value⟩, t) := by
  rw [onFile]
  rcases t.lookup (f, name) with _ | value
  · exact Or.inl ⟨⟨enodata, by decide⟩, rfl, nofun⟩
  · rcases copyOut_cases size value with ⟨e, he, hno⟩ | ⟨he, hmax, hsize⟩
    · refine Or.inl ⟨e, congrArg (·, t) he, fun value' h => ?_⟩
      rwa [← some.inj h]
    · exact Or.inr ⟨value, rfl, hmax, hsize, congrArg (·, t) he⟩

theorem answer_call {c : LinuxCall} {finish : ℤ → ℤ} (h : e.request w = some (.call c finish)) :
    e.answer w t = some (⟨finish (w.perform t e.refusal c).1.ret,
      (w.perform t e.refusal c).1.out⟩, (w.perform t e.refusal c).2) := by
  rw [answer, h]

theorem forall_answer {Q : Answer → Prop} (h : e.answer w t = some (a, t')) :
    (∀ a t', e.answer w t = some (a, t') → 0 ≤ a.ret → Q a) ↔ (0 ≤ a.ret → Q a) := by
  constructor
  · exact fun hall => hall a t' h
  · intro ha a' t'' h'
    obtain ⟨rfl, -⟩ := Prod.mk.inj (some.inj (h.symm.trans h'))
    exact ha

theorem correct_iff_set {value : Bytes} (hc : e.call = .set name value) :
    Correct w s e ↔ Condition w s e := by
  simp only [Correct, Condition, hc, actsOn, request, sysSetxattr]
  simp [LinuxCall.follow, LinuxCall.path]

theorem correct_iff_remove (hc : e.call = .remove name) : Correct w s e ↔ Condition w s e := by
  simp only [Correct, Condition, hc, actsOn, request, sysRemovexattr]
  simp [LinuxCall.follow, LinuxCall.path]

theorem correct_iff_list (hc : e.call = .list size) (hs : s.linux = s.guest) :
    Correct w s e ↔ Condition w s e := by
  rcases request_list hc with ⟨hex, hr⟩ | ⟨hex, hp, hr⟩
  · have hacts : e.actsOn w = w.find (!e.nofollow) e.path.bytes := by
      rw [actsOn, hr]
      rfl
    simp only [Correct, Condition, hc, hacts, forall_answer (answer_call hr)]
    refine ⟨fun h _ => h.1, fun h => ⟨h hex, fun hret => ?_⟩⟩
    rcases perform_cases s.linux e.refusal (.listxattr (!e.nofollow) e.path.bytes size)
      with ⟨err, hperf, -⟩ | ⟨f, hf, -, hperf⟩
    · rw [hperf] at hret
      exact absurd hret (not_le.2 (finish_fail err))
    · rw [hperf, onFile] at hret ⊢
      rcases copyOut_cases size (namesText (names s.linux f)) with ⟨err, he, -⟩ | ⟨he, hmax, -⟩
      · rw [he] at hret
        exact absurd hret (not_le.2 (finish_fail err))
      · rw [he, finish_natCast hmax]
        exact ⟨f, _, (h hex).symm.trans hf, nodup_names, fun n => hs ▸ mem_names, rfl⟩
  · obtain ⟨hacts, hans⟩ := no_call hr
    simp only [Correct, Condition, hc, hacts, denotes_of_hostPath_none hp]
    exact iff_of_true ⟨trivial, fun a linux ha hret => absurd hret (not_le.2 (hans a linux ha))⟩
      fun h => absurd h hex

theorem correct_iff_get (hc : e.call = .get name size)
    (hs : s.linux = s.guest) : Correct w s e ↔ Condition w s e := by
  rcases request_get hc with ⟨p, hp, hr⟩ | ⟨hp, hr⟩
  · have hacts : e.actsOn w = (e.hostPath w).bind (w.find true) := by
      rw [actsOn, hr, hp]
      rfl
    simp only [Correct, Condition, hc, hacts, forall_answer (answer_call hr)]
    refine and_congr_right fun hfile => ?_
    rw [← hfile, hp, Option.bind_some]
    rcases perform_cases s.linux e.refusal (.getxattr p name size)
      with ⟨err, hperf, hno⟩ | ⟨f, hf, href, hperf⟩
    · rw [hperf]
      refine iff_of_true (fun hret => absurd hret (not_le.2 (getFinish_fail err)))
        fun f value hf _ href => ?_
      rcases hno with hno | hno
      · exact absurd (hno.symm.trans hf) nofun
      · exact absurd href hno
    · rw [hperf]
      rcases onFile_get_cases s.linux f with ⟨err, he, hno⟩ | ⟨value, hval, hmax, hsize, he⟩
      · rw [he]
        refine iff_of_true (fun hret => absurd hret (not_le.2 (getFinish_fail err)))
          fun f' value hf' hval _ hmax hsize => ?_
        obtain rfl := some.inj (hf.symm.trans hf')
        exact absurd ⟨hmax, hsize⟩ (hno value hval)
      · rw [he]
        simp only [getFinish_natCast hmax]
        constructor
        · intro h f' value' hf' hval' _ _ _
          obtain ⟨f'', v, hf'', hv, ha⟩ := h le_rfl
          obtain rfl := some.inj (hf''.symm.trans hf')
          rw [← hs, hval'] at hv
          have hlen : (0 : ℤ) = (List.length v : ℤ) := congrArg Answer.ret ha
          rw [some.inj hv]
          exact List.eq_nil_of_length_eq_zero (by omega)
        · intro h _
          have hnil := h f value hf hval href hmax hsize
          exact ⟨f, value, hf, hs ▸ hval, by rw [hnil]; rfl⟩
  · obtain ⟨hacts, hans⟩ := no_call hr
    simp only [Correct, Condition, hc, hacts, denotes_of_hostPath_none hp, hp]
    exact iff_of_true ⟨trivial, fun a linux ha hret => absurd hret (not_le.2 (hans a linux ha))⟩
      ⟨rfl, nofun⟩

theorem correct_iff (hs : s.linux = s.guest) : Correct w s e ↔ Condition w s e := by
  rcases hc : e.call with ⟨name, value⟩ | ⟨name, size⟩ | ⟨size⟩ | ⟨name⟩
  · exact correct_iff_set hc
  · exact correct_iff_get hc hs
  · exact correct_iff_list hc hs
  · exact correct_iff_remove hc

theorem perform_get_store (t : Store ι) (refusal : Option Errno) :
    (w.perform t refusal (.getxattr path name size)).2 = t := by
  rcases perform_cases t refusal (.getxattr path name size)
    with ⟨err, hperf, -⟩ | ⟨f, -, -, hperf⟩
  · rw [hperf]
  · rw [hperf]
    rcases onFile_get_cases t f with ⟨err, he, -⟩ | ⟨value, -, -, -, he⟩ <;> rw [he]

theorem perform_list_store (t : Store ι) (refusal : Option Errno) :
    (w.perform t refusal (.listxattr follow path size)).2 = t := by
  rcases perform_cases t refusal (.listxattr follow path size)
    with ⟨err, hperf, -⟩ | ⟨f, -, -, hperf⟩ <;> rw [hperf]
  rfl

theorem answer_no_call (h : e.NoCall w) (ha : e.answer w t = some (a, t')) : t' = t := by
  rcases h with h | ⟨rv, -, h⟩
  · simp [answer, h] at ha
  · simp only [answer, h] at ha
    exact (Prod.mk.inj (some.inj ha)).2.symm

theorem answer_store_edit {c : LinuxCall} {edit : ι → Store ι}
    (hr : e.request w = some (.call c w.finish)) (ha : e.answer w t = some (a, t'))
    (hon : ∀ f, (∃ err : Errno, c.onFile t f = (⟨fail err.1, none⟩, t)) ∨
      c.onFile t f = (⟨0, none⟩, edit f))
    (happly : ∀ f, e.actsOn w = some f → e.apply w t = edit f) :
    t' = if 0 ≤ a.ret then e.apply w t else t := by
  rw [answer_call hr] at ha
  obtain ⟨rfl, rfl⟩ := Prod.mk.inj (some.inj ha)
  rcases perform_cases t e.refusal c with ⟨err, hperf, -⟩ | ⟨f, hf, -, hperf⟩
  · rw [hperf, if_neg (not_le.2 (finish_fail err))]
  · rw [hperf]
    rcases hon f with ⟨err, he⟩ | he
    · rw [he, if_neg (not_le.2 (finish_fail err))]
    · have h0 : w.finish 0 = 0 := finish_natCast (Nat.zero_le _)
      rw [he, if_pos h0.ge, happly f (by rw [actsOn, hr]; exact hf)]

theorem answer_store (ha : e.answer w t = some (a, t')) (hacts : e.actsOn w = e.denotes w) :
    t' = if 0 ≤ a.ret then e.apply w t else t := by
  rcases hc : e.call with ⟨name, value⟩ | ⟨name, size⟩ | ⟨size⟩ | ⟨name⟩
  case set =>
    have hr : e.request w =
        some (.call (.setxattr (!e.nofollow) e.path.bytes name value) w.finish) := by
      rw [request, hc]
      rfl
    refine answer_store_edit hr ha (fun _ => onFile_set_cases t _) fun f hf => ?_
    rw [Event.apply, hc, ← hacts, hf]
  case remove =>
    have hr : e.request w =
        some (.call (.removexattr (!e.nofollow) e.path.bytes name) w.finish) := by
      rw [request, hc]
      rfl
    refine answer_store_edit hr ha (fun _ => onFile_remove_cases t _) fun f hf => ?_
    rw [Event.apply, hc, ← hacts, hf]
  case get =>
    have hap : e.apply w t = t := by
      rw [Event.apply, hc]
    rw [hap, ite_self]
    rcases request_get hc with ⟨p, -, hr⟩ | ⟨-, hr⟩
    · rw [answer_call hr] at ha
      rw [← (Prod.mk.inj (some.inj ha)).2, perform_get_store]
    · exact answer_no_call hr ha
  case list =>
    have hap : e.apply w t = t := by
      rw [Event.apply, hc]
    rw [hap, ite_self]
    rcases request_list hc with ⟨-, hr⟩ | ⟨-, -, hr⟩
    · rw [answer_call hr] at ha
      rw [← (Prod.mk.inj (some.inj ha)).2, perform_list_store]
    · exact answer_no_call hr ha

theorem Correct.step (h : Correct w s e) (hs : s.linux = s.guest) :
    (s.step w e).linux = (s.step w e).guest := by
  rw [State.step]
  rcases ha : e.answer w s.linux with _ | ⟨a, linux⟩
  · exact hs
  · rw [← hs]
    exact answer_store ha h.1

end Run

/-- All calls of a run from no attributes are correct, exactly if each meets the condition in the
state that it is made in. -/
theorem run_correct_iff {ι : Type*} [DecidableEq ι] (w : System ι) (events : List Event) :
    EachStep (State.step w) (Correct w) ⟨∅, ∅⟩ events ↔
      EachStep (State.step w) (Condition w) ⟨∅, ∅⟩ events :=
  eachStep_iff (fun _ _ hs hc => ((correct_iff hs).2 hc).step hs) (fun _ _ hs => correct_iff hs) rfl

/-! ### A path of the host

`/p2` is outside of the vchroot `/p`. -/

def treeSystem (V : Config) (fs : Node) (links : ProcLink → Except ℕ+ Bytes) :
    System (List Bytes) where
  config := V
  kernel := fs.kernel links
  wd := -100
  lookup follow p :=
    match if follow then fs.namei Node.maxLinks [] (components p) else fs.place p with
    | .ok cs => if (fs.descend cs).isSome then .ok cs else .error ⟨enoent, by decide⟩
    | .error _ => .error ⟨enoent, by decide⟩
  errnos n := n

def sampleStack : Stack := ⟨zeros, zeros, zeros_length, zeros_length⟩

def setOutside : Event where
  call := .set [110] []
  path := ⟨ascii ['/', 'p', '2'], by decide, by decide⟩
  nofollow := false
  stack := sampleStack
  refusal := none

def sampleSystem : System (List Bytes) :=
  treeSystem sampleConfig sampleTree fun _ => .ok (ascii ['/', 'p', '/', 'd'])

theorem setOutside_actsOn : setOutside.actsOn sampleSystem = some [ascii ['p', '2']] := by
  decide

theorem setOutside_hostPath :
    setOutside.hostPath sampleSystem = some (ascii ['/', 'p', '/', 'p', '2']) := by
  rw [hostPath_eq]
  rfl

/-- `sys_setxattr` reaches a directory of the host that has no name in the vchroot. -/
theorem run_outside : ¬ EachStep (State.step sampleSystem) (Correct sampleSystem) ⟨∅, ∅⟩
    [setOutside] := by
  rintro ⟨⟨h, -⟩, -⟩
  rw [setOutside_actsOn, Event.denotes, setOutside_hostPath] at h
  exact absurd h (by decide)

end Darling.Xattr
