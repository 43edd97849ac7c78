import Darling.Workq

/-!
# When a parked thread gets its request

The parked thread decrements its semaphore and then stores -1 in it.  If the requester has stored 1
in between, the thread sleeps although it has been woken, and leaves the queue a second time when it
times out.  As long as no thread does that, the semaphore tells how far the requester has come
(`Local`), and nothing else can go wrong (`run_safe_iff`).
-/

namespace Darling.Workq

open List
open Function (update update_eq_self update_of_ne update_self)

variable {ι : Type}

/-- The thread is parked, or is about to look whether it was woken. -/
def Pc.Waits : Pc ι → Bool
  | parked _ | relock | recheck => true
  | _ => false

/-- The thread has given up waiting. -/
def Pc.Terminates : Pc ι → Bool
  | unlockTerminate | terminated => true
  | _ => false

/-- The requester has set the semaphore to 1. -/
def Stage.Raised : Stage → Bool
  | stored | done => true
  | _ => false

/-- Nothing has gone wrong so far. -/
structure Safe (s : State ι) : Prop where
  /-- No thread is removed from the queue after it has been dequeued. -/
  once : ∀ t, s.fate t ≠ .removedTwice
  /-- A thread that terminates was on the queue until it removed itself. -/
  terminates : ∀ t, (s.pc t).Terminates → s.fate t = .removed
  /-- No thread sleeps after the `sem_up` of its requester is complete. -/
  awake : ∀ t, s.pc t = .parked .asleep → s.fate t ≠ .dequeued .done
  /-- A request is not lost: a semaphore that was raised stays so until the thread has seen it. -/
  kept : ∀ t g, s.fate t = .dequeued g → g.Raised → (s.pc t).Waits → 0 < s.sem t

/-- The step does not store -1 over the 1 of a requester. -/
def Good (s : State ι) : Action ι → Prop
  | .run t _ => s.pc t = .parked .store → s.sem t ≠ 1
  | _ => True

/-- The thread holds the lock of the queue. -/
def Pc.InLock : Pc ι → Bool
  | parkInit | parkInsert | parkUp _ | parkUnlock | recheck | remove | unlockWoken | unlockTerminate
  | requestHead _ | requestDequeue _ _ | requestUp _ _ _ | requestUnlock _ | spawnUnlock _ => true
  | _ => false

/-- How far the requester has come at each step of `sem_up`. -/
def Up.stage : Up → Stage
  | inc => .pending
  | store => .incremented
  | wake => .stored

/-- The semaphore of a thread that waits, by what has become of the thread on the queue. -/
def Waiting (stored : Bool) (v : ℤ) : Fate → Prop
  | .queued | .dequeued .pending => v = -1
  | .dequeued .incremented => v = 0 ∨ stored ∧ v = -1
  | .dequeued .stored | .dequeued .done => v = 1
  | _ => False

/-- What the semaphore of a thread is, where the thread is and how far its requester has come. -/
def Local (v : ℤ) (f : Fate) : Pc ι → Prop
  | .parkInsert => f = .idle ∧ v = 0
  | .parkUp _ | .parkUnlock => f = .queued ∧ v = 0
  | .parked .dec => (f = .queued ∨ f = .dequeued .pending) ∧ v = 0 ∨ f = .dequeued .done ∧ v = 1
  | .parked .store => Waiting false v f
  | .parked .wait | .relock => Waiting true v f
  | .parked .asleep => Waiting true v f ∧ f ≠ .dequeued .done
  | .recheck => f = .queued ∧ v = -1 ∨ f = .dequeued .done ∧ v = 1
  | .remove => f = .queued
  | .unlockWoken => f = .dequeued .done
  | .unlockTerminate | .terminated => f = .removed
  | _ => f = .idle

/-- What holds as long as every step is good. -/
structure Inv (s : State ι) : Prop where
  lock : ∀ t, (s.pc t).InLock ↔ s.holder = some t
  nodup : s.queue.Nodup
  mem : ∀ t, t ∈ s.queue ↔ s.fate t = .queued
  loc : ∀ t, Local (s.sem t) (s.fate t) (s.pc t)
  head : ∀ r n t, s.pc r = .requestDequeue n t → t ∈ s.queue
  up : ∀ r n t u, s.pc r = .requestUp n t u → s.fate t = .dequeued u.stage
  owner : ∀ t g, s.fate t = .dequeued g → g ≠ .done → ∃ r n u, s.pc r = .requestUp n t u

variable {v w : ℤ} {p : Pc ι} {r x : ι} {o : Option ι} {n : ℕ}

/-- A raised semaphore is 1 for as long as the thread waits. -/
theorem Local.sem_eq {g : Stage} (h : Local v (.dequeued g) p) (hg : g.Raised)
    (hp : p.Waits) : v = 1 := by
  cases g with
  | pending | incremented => cases hg
  | stored | done =>
    cases p with
    | parked d => cases d <;> simp_all [Local, Waiting]
    | relock | recheck => simp_all [Local, Waiting]
    | _ => cases hp

/-- The thread waits outside the lock, where a requester can take it. -/
def Pc.InHand : Pc ι → Bool
  | parked _ | relock => true
  | _ => false

/-- The thread is not handing over a request. -/
def Pc.Free : Pc ι → Bool
  | requestDequeue _ _ | requestUp _ _ _ => false
  | _ => true

theorem Pc.free_of_inHand (h : p.InHand) : p.Free := by
  unfold Pc.InHand at h
  split at h
  · rfl
  · rfl
  · cases h

theorem Pc.inLock_of_inHand (h : p.InHand) : p.InLock = false := by
  unfold Pc.InHand at h
  split at h
  · rfl
  · rfl
  · cases h

theorem Local.inHand {f : Fate} (h : Local v f p)
    (hf : f = .queued ∨ ∃ g, f = .dequeued g ∧ g ≠ .done) (hp : p.InLock = false) : p.InHand := by
  rcases hf with rfl | ⟨g, rfl, hg⟩ <;> cases p <;> simp_all [Local, Pc.InLock, Pc.InHand]

theorem Local.dequeue (h : Local v .queued p) (hp : p.InHand) : Local v (.dequeued .pending) p := by
  cases p with
  | parked d => cases d <;> simp_all [Local, Waiting]
  | relock => exact h
  | _ => cases hp

theorem Local.inc (h : Local v (.dequeued .pending) p) (hp : p.InHand) :
    Local (v + 1) (.dequeued (if v + 1 = 0 then .incremented else .done)) p := by
  cases p with
  | parked d => cases d <;> simp_all [Local, Waiting]
  | relock => simp_all [Local, Waiting]
  | _ => cases hp

theorem Local.raise (h : Local v (.dequeued .incremented) p) (hp : p.InHand) :
    Local 1 (.dequeued .stored) p := by
  cases p with
  | parked d => cases d <;> simp_all [Local, Waiting]
  | relock => rfl
  | _ => cases hp

theorem Local.wake [DecidableEq ι] (h : Local v (.dequeued .stored) p) (hp : p.InHand) :
    Local v (.dequeued .done) (if p = .parked .asleep then .parked .dec else p) := by
  cases p with
  | parked d => cases d <;> simp_all [Local, Waiting]
  | relock => exact h
  | _ => cases hp

section

variable {s : State ι} (h : Inv s)

include h

/-- What is known of a thread by its place. -/
theorem Inv.at {t : ι} (hp : s.pc t = p) : Local (s.sem t) (s.fate t) p := hp ▸ h.loc t

theorem Inv.safe : Safe s where
  once t hf := by
    have hl := h.loc t
    rw [hf] at hl
    unfold Local Waiting at hl
    split at hl <;> simp_all
  terminates t ht := by
    have hl := h.loc t
    unfold Pc.Terminates at ht
    split at ht <;> simp_all [Local]
  awake t ht hf := by
    exact (h.at ht).2 hf
  kept t g hf hg ht := by
    have hl := h.loc t
    rw [hf] at hl
    rw [hl.sem_eq hg ht]
    decide

theorem Inv.eq_of_inLock {t : ι} (hr : (s.pc r).InLock) (ht : (s.pc t).InLock) : r = t :=
  Option.some.inj (((h.lock r).1 hr).symm.trans ((h.lock t).1 ht))

theorem Inv.free_of_ne {r' : ι} (hr : (s.pc r).InLock) (hne : r' ≠ r) : (s.pc r').Free := by
  have hr' : (s.pc r').InLock = false := by
    rw [Bool.eq_false_iff]
    exact fun hr' => hne (h.eq_of_inLock hr' hr)
  cases hp : s.pc r' with
  | requestDequeue m y => rw [hp] at hr'; cases hr'
  | requestUp m y u => rw [hp] at hr'; cases hr'
  | _ => rfl

theorem Inv.inHand_of_fate (hr : (s.pc r).InLock) (hidle : s.fate r = .idle)
    (hf : s.fate x = .queued ∨ ∃ g, s.fate x = .dequeued g ∧ g ≠ .done) : (s.pc x).InHand := by
  refine (h.loc x).inHand hf ?_
  rw [Bool.eq_false_iff]
  intro hx
  rw [h.eq_of_inLock hx hr, hidle] at hf
  rcases hf with hf | ⟨g, hf, -⟩ <;> cases hf

theorem Inv.notMem_of_fate {t : ι} (hf : s.fate t ≠ .queued) :
    t ∉ s.queue := fun hm => hf ((h.mem t).1 hm)

end

variable [DecidableEq ι]

/-- One thread changes, and with it the lock and the queue. -/
theorem Inv.change {s : State ι} (h : Inv s) {t : ι} {f : Fate} {Q : List ι}
    (hlock : p.InLock ↔ o = some t) (hlock' : ∀ t', t' ≠ t → (s.holder = some t' ↔ o = some t'))
    (hnodup : Q.Nodup) (hmem : t ∈ Q ↔ f = .queued) (hmem' : ∀ t', t' ≠ t → (t' ∈ Q ↔ t' ∈ s.queue))
    (hloc : Local v f p) (hhead : ∀ n t', p = .requestDequeue n t' → t' ∈ Q)
    (hhead' : ∀ r n, s.pc r ≠ .requestDequeue n t ∨ t ∈ Q)
    (hup : ∀ r n u, s.pc r = .requestUp n t u → f = .dequeued u.stage)
    (hown : ∀ n t' u, p ≠ .requestUp n t' u ∧ s.pc t ≠ .requestUp n t' u)
    (howner : ∀ g, f = .dequeued g → g ≠ .done → s.fate t = f) :
    Inv { pc := update s.pc t p, workqSem := w, sem := update s.sem t v,
          queue := Q, holder := o, fate := update s.fate t f } where
  lock t' := by
    by_cases ht : t' = t
    · subst ht
      simpa using hlock
    · simpa [ht] using (h.lock t').trans (hlock' t' ht)
  nodup := hnodup
  mem t' := by
    by_cases ht : t' = t
    · subst ht
      simpa using hmem
    · simpa [ht] using (hmem' t' ht).trans (h.mem t')
  loc t' := by
    by_cases ht : t' = t
    · subst ht
      simpa using hloc
    · simpa [ht] using h.loc t'
  head r n t' hr := by
    by_cases hrt : r = t
    · subst hrt
      exact hhead n t' (by simpa using hr)
    · have hr' : s.pc r = .requestDequeue n t' := by simpa [hrt] using hr
      by_cases ht : t' = t
      · rw [ht] at hr' ⊢
        exact (hhead' r n).resolve_left fun hne => hne hr'
      · exact (hmem' t' ht).2 (h.head r n t' hr')
  up r n t' u hr := by
    by_cases hrt : r = t
    · subst hrt
      exact absurd (by simpa using hr) (hown n t' u).1
    · have hr' : s.pc r = .requestUp n t' u := by simpa [hrt] using hr
      by_cases ht : t' = t
      · rw [ht] at hr' ⊢
        simpa using hup r n u hr'
      · simpa [ht] using h.up r n t' u hr'
  owner t' g hf hg := by
    have hf' : s.fate t' = .dequeued g := by
      by_cases ht : t' = t
      · subst ht
        have hf : f = .dequeued g := by simpa using hf
        rw [howner g hf hg, hf]
      · simpa [ht] using hf
    obtain ⟨r, n, u, hr⟩ := h.owner t' g hf' hg
    have hrt : r ≠ t := fun hrt => (hown n t' u).2 (hrt ▸ hr)
    exact ⟨r, n, u, by simpa [hrt] using hr⟩

theorem State.setSem_self (s : State ι) (t : ι) : s.setSem t (s.sem t) = s := by
  rw [State.setSem, update_eq_self]

section

variable {s : State ι} (h : Inv s) {t : ι}

include h

section

variable (hlock : p.InLock ↔ o = some t)
  (hlock' : ∀ t', t' ≠ t → (s.holder = some t' ↔ o = some t'))

include hlock hlock'

/-- One thread goes on and writes its semaphore. -/
theorem Inv.moveSem (hloc : Local v (s.fate t) p) (hp : p.Free) (hq : (s.pc t).Free) :
    Inv { (s.setSem t v).set t p with workqSem := w, holder := o } := by
  have hchange := h.change (w := w) hlock hlock'
    h.nodup (h.mem t) (fun _ _ => Iff.rfl) hloc (fun n t' he => by rw [he] at hp; cases hp)
    (fun r n => or_iff_not_imp_left.2 fun hr => h.head r n t (not_not.1 hr))
    (fun r n u hr => h.up r n t u hr)
    (fun n t' u => ⟨fun he => (by rw [he] at hp; cases hp), fun he => (by rw [he] at hq; cases hq)⟩)
    (fun _ _ _ => rfl)
  rw [update_eq_self] at hchange
  exact hchange

theorem Inv.move (hloc : Local (s.sem t) (s.fate t) p) (hp : p.Free) (hq : (s.pc t).Free) :
    Inv { s.set t p with workqSem := w, holder := o } := by
  have hmove := h.moveSem (w := w) hlock hlock' hloc hp hq
  rwa [State.setSem_self] at hmove

end

variable {q : Pc ι} (hpc : s.pc t = q) (hfree : p.Free) (hq : q.Free)

include hpc hfree hq

/-- A thread goes on to a place where the same is known of it. -/
theorem Inv.goOn (hlock : p.InLock = q.InLock)
    (hloc : Local (s.sem t) (s.fate t) q → Local (s.sem t) (s.fate t) p) :
    Inv ({ s with workqSem := w }.set t p) := by
  subst hpc
  exact h.move (by rw [hlock]; exact h.lock t) (fun _ _ => Iff.rfl) (hloc (h.loc t)) hfree hq

theorem Inv.setSem (hlock : p.InLock = q.InLock) (hloc : Local v (s.fate t) p) :
    Inv ((s.setSem t v).set t p) := by
  subst hpc
  exact h.moveSem (by rw [hlock]; exact h.lock t) (fun _ _ => Iff.rfl) hloc hfree hq

theorem Inv.lockStep (hp : p.InLock) (hloc : s.holder = none → Local (s.sem t) (s.fate t) p) :
    Inv (s.lock t p) := by
  unfold State.lock
  split_ifs with ho
  · refine h.move (by simp [hp]) (fun t' ht => ?_) (hloc ho) hfree (hpc ▸ hq)
    simp [ho, Ne.symm ht]
  · exact h

theorem Inv.unlockStep (hlock : q.InLock) (hp : p.InLock = false)
    (hloc : Local (s.sem t) (s.fate t) p) : Inv (s.unlock t p) := by
  have ho := (h.lock t).1 (hpc ▸ hlock)
  refine h.move (by simp [hp]) (fun t' ht => ?_) hloc hfree (hpc ▸ hq)
  simp [ho, Ne.symm ht]

end

variable {s : State ι} {t : ι}

section

variable (h : Inv s)

include h

theorem Inv.resume (hf : s.fate t = .dequeued .done) (hq : (s.pc t).Free) (hlock : o ≠ some t)
    (hlock' : ∀ t', t' ≠ t → (s.holder = some t' ↔ o = some t')) :
    Inv { ((s.setSem t v).setFate t .idle).set t .running with holder := o } := by
  have hqueue := h.notMem_of_fate (t := t) (by simp [hf])
  refine h.change ?_ hlock' h.nodup ?_
    (fun _ _ => Iff.rfl) rfl (fun _ _ he => nomatch he) ?_ ?_ ?_ (fun _ he => nomatch he)
  · exact iff_of_false (by simp [Pc.InLock]) hlock
  · exact iff_of_false hqueue (by simp)
  · exact fun r n => .inl fun hr => hqueue (h.head r n t hr)
  · intro r n u hr
    have := h.up r n t u hr
    rw [hf] at this
    cases u <;> cases this
  · intro n t' u
    refine ⟨fun he => (nomatch he), fun he => ?_⟩
    rw [he] at hq
    cases hq

theorem Inv.insert (hp : s.pc t = .parkInsert) :
    Inv (({ s with queue := t :: s.queue }.setFate t .queued).set t (.parkUp .inc)) := by
  obtain ⟨hf, hv⟩ : s.fate t = .idle ∧ s.sem t = 0 := h.at hp
  have hqueue := h.notMem_of_fate (t := t) (by simp [hf])
  have hchange := h.change (p := .parkUp .inc) (w := s.workqSem)
    (by simpa [hp, Pc.InLock] using h.lock t)
    (fun _ _ => Iff.rfl) (nodup_cons.2 ⟨hqueue, h.nodup⟩) (by simp)
    (fun t' ht => by simp [ht]) ⟨rfl, hv⟩ (by simp) (fun r n => .inr (by simp))
    (fun r n u hr => by simp [h.up r n t u hr] at hf) (by simp [hp]) (fun _ he => nomatch he)
  rw [update_eq_self] at hchange
  exact hchange

theorem Inv.remove (hp : s.pc t = .remove) : Inv (({ s with queue := s.queue.erase t }.setFate t
      (if t ∈ s.queue then .removed else .removedTwice)).set t .unlockTerminate) := by
  have hf : s.fate t = .queued := h.at hp
  rw [if_pos ((h.mem t).2 hf)]
  have hchange := h.change (p := .unlockTerminate) (w := s.workqSem) (v := s.sem t)
    (by simpa [hp, Pc.InLock] using h.lock t) (fun _ _ => Iff.rfl) (h.nodup.erase t)
    (by simp [h.nodup.mem_erase_iff]) (fun t' ht => by simp [h.nodup.mem_erase_iff, ht]) rfl
    (by simp) (fun r n => .inl fun hr => ?_) (fun r n u hr => by simp [h.up r n t u hr] at hf)
    (by simp [hp]) (fun _ he => nomatch he)
  · rw [update_eq_self] at hchange
    exact hchange
  · have := h.eq_of_inLock (r := r) (t := t) (by simp [hr, Pc.InLock]) (by simp [hp, Pc.InLock])
    rw [this, hp] at hr
    cases hr

theorem Inv.down_dec (hp : s.pc t = .parked .dec) :
    Inv (if s.sem t - 1 < 0 then (s.setSem t (s.sem t - 1)).set t (.parked .store)
      else ((s.setSem t (s.sem t - 1)).setFate t .idle).set t .running) := by
  have hl := h.at hp
  rcases hl with ⟨hf, hv⟩ | ⟨hf, hv⟩
  · rw [hv, if_pos (by decide)]
    refine h.setSem hp rfl rfl rfl ?_
    rcases hf with hf | hf <;> rw [hf] <;> rfl
  · have hno : s.holder ≠ some t := fun ho => by simpa [hp, Pc.InLock] using (h.lock t).2 ho
    rw [hv, if_neg (by decide)]
    exact h.resume hf (by rw [hp]; rfl) hno fun _ _ => Iff.rfl

theorem Inv.down_store (hp : s.pc t = .parked .store) (hv : s.sem t ≠ 1) :
    Inv ((s.setSem t (-1)).set t (.parked .wait)) := by
  have hl := h.at hp
  refine h.setSem hp rfl rfl rfl ?_
  rcases hf : s.fate t with _ | _ | g | _ | _ <;> rw [hf] at hl
  · cases hl
  · rfl
  · cases g with
    | pending => rfl
    | incremented => exact .inr ⟨rfl, rfl⟩
    | stored | done => exact absurd hl hv
  · cases hl
  · cases hl

theorem Inv.down_wait (hp : s.pc t = .parked .wait) :
    Inv (s.set t (if s.sem t = -1 then .parked .asleep else .relock)) := by
  split_ifs with hv
  · refine h.goOn hp rfl rfl rfl fun hl => ⟨hl, fun hf => ?_⟩
    rw [hf, hv] at hl
    cases hl
  · exact h.goOn hp rfl rfl rfl id

theorem Inv.timeout (hp : s.pc t = .parked .asleep) : Inv (s.set t .relock) :=
  h.goOn hp rfl rfl rfl And.left

theorem Inv.relock (hp : s.pc t = .relock) : Inv (s.lock t .recheck) := by
  have hl := h.at hp
  refine h.lockStep hp rfl rfl rfl fun ho => ?_
  rcases hf : s.fate t with _ | _ | g | _ | _ <;> rw [hf] at hl
  · cases hl
  · exact .inl ⟨rfl, hl⟩
  · by_cases hg : g = .done
    · subst hg
      exact .inr ⟨rfl, hl⟩
    · obtain ⟨r, n, u, hr⟩ := h.owner t g hf hg
      have := (h.lock r).1 (by rw [hr]; rfl)
      rw [ho] at this
      cases this
  · cases hl
  · cases hl

theorem Inv.recheck (hp : s.pc t = .recheck) :
    Inv (s.set t (if 0 < s.sem t then .unlockWoken else .remove)) := by
  have hl := h.at hp
  rcases hl with ⟨hf, hv⟩ | ⟨hf, hv⟩
  · rw [hv, if_neg (by decide)]
    exact h.goOn hp rfl rfl rfl fun _ => hf
  · rw [hv, if_pos (by decide)]
    exact h.goOn hp rfl rfl rfl fun _ => hf

theorem Inv.unlockWoken (hp : s.pc t = .unlockWoken) :
    Inv ((s.setFate t .idle).unlock t .running) := by
  have hf : s.fate t = .dequeued .done := h.at hp
  have ho := (h.lock t).1 (by rw [hp]; rfl)
  have hresume := h.resume (v := s.sem t) (o := none) hf (by rw [hp]; rfl) (by simp)
    (fun t' ht => by simp [ho, Ne.symm ht])
  rwa [State.setSem_self] at hresume

/-- A requester takes one more step with the thread it has taken off the queue. -/
theorem Inv.handOver (hr : s.pc r = .requestDequeue n x ∨ ∃ u, s.pc r = .requestUp n x u)
    {q : Pc ι} {g : Stage}
    (hq : g = .done ∧ q = .requestUnlock n ∨ ∃ u, g = u.stage ∧ q = .requestUp n x u)
    (hx : (s.pc x).InHand) (hp : p.InHand) (hloc : Local v (.dequeued g) p) : Inv { s with
      pc := update (update s.pc x p) r q
      sem := update s.sem x v
      queue := s.queue.erase x
      fate := update s.fate x (.dequeued g) } := by
  have hrlock : (s.pc r).InLock := by
    rcases hr with hr | ⟨u, hr⟩ <;> rw [hr] <;> rfl
  have hne : r ≠ x := fun he => by simp [he, Pc.inLock_of_inHand hx] at hrlock
  have hqlock : q.InLock := by
    rcases hq with ⟨-, rfl⟩ | ⟨u, -, rfl⟩ <;> rfl
  have hridle : s.fate r = .idle := by
    rcases hr with hr | ⟨u, hr⟩ <;> exact h.at hr
  have hfree : ∀ r', r' ≠ r → (update (update s.pc x p) r q r').Free := by
    intro r' hr'
    rw [update_of_ne hr']
    by_cases hx' : r' = x
    · rw [hx', update_self]
      exact Pc.free_of_inHand hp
    · rw [update_of_ne hx']
      exact h.free_of_ne hrlock hr'
  refine ⟨fun t' => ?_, h.nodup.erase x, fun t' => ?_, fun t' => ?_, fun r' m y hr' => ?_,
    fun r' m y u hr' => ?_, fun t' g' hf hg' => ?_⟩
  · by_cases hr' : t' = r
    · simpa [hr', hqlock] using (h.lock r).1 hrlock
    · by_cases hx' : t' = x
      · simpa [hx', hne.symm, Pc.inLock_of_inHand hp, Pc.inLock_of_inHand hx] using h.lock x
      · simpa [hr', hx'] using h.lock t'
  · by_cases hx' : t' = x
    · simp [hx', h.nodup.mem_erase_iff]
    · simpa [hx', h.nodup.mem_erase_iff] using h.mem t'
  · by_cases hr' : t' = r
    · rcases hq with ⟨-, rfl⟩ | ⟨u, -, rfl⟩ <;> simp [hr', hne, hridle, Local]
    · by_cases hx' : t' = x
      · simpa [hx', hne.symm] using hloc
      · simpa [hr', hx'] using h.loc t'
  · by_cases he : r' = r
    · rcases hq with ⟨-, rfl⟩ | ⟨u, -, rfl⟩ <;> simp [he] at hr'
    · have hbusy := hfree r' he
      dsimp only at hr'
      rw [hr'] at hbusy
      cases hbusy
  · by_cases he : r' = r
    · rcases hq with ⟨-, rfl⟩ | ⟨u', rfl, rfl⟩ <;> simp [he] at hr'
      obtain ⟨-, rfl, rfl⟩ := hr'
      exact update_self _ _ _
    · have hbusy := hfree r' he
      dsimp only at hr'
      rw [hr'] at hbusy
      cases hbusy
  · by_cases hx' : t' = x
    · obtain rfl : g = g' := by simpa [hx'] using hf
      rcases hq with ⟨rfl, -⟩ | ⟨u, -, rfl⟩
      · exact absurd rfl hg'
      · exact ⟨r, n, u, by simp [hx']⟩
    · -- The request that has `t'` in hand would be this one.
      obtain ⟨r', m, u, hr'⟩ := h.owner t' g' (by simpa [hx'] using hf) hg'
      by_cases he : r' = r
      · rw [he] at hr'
        rcases hr with hr | ⟨u', hr⟩ <;> rw [hr] at hr' <;> cases hr'
        exact absurd rfl hx'
      · have hbusy := h.free_of_ne hrlock he
        rw [hr'] at hbusy
        cases hbusy

theorem Inv.dequeue (hp : s.pc t = .requestDequeue n x) :
    Inv (({ s with queue := s.queue.erase x }.setFate x (.dequeued .pending)).set t
      (.requestUp n x .inc)) := by
  have hf := (h.mem x).1 (h.head t n x hp)
  have hl := h.loc x
  rw [hf] at hl
  have hidle : s.fate t = .idle := h.at hp
  have hhand := h.inHand_of_fate (by rw [hp]; rfl) hidle (.inl hf)
  have hover := h.handOver (.inl hp) (.inr ⟨.inc, rfl, rfl⟩) hhand hhand (hl.dequeue hhand)
  rw [update_eq_self, update_eq_self] at hover
  exact hover

end

omit [DecidableEq ι] in
theorem Inv.inHand (h : Inv s) {n : ℕ} {x : ι} {u : Up} (hp : s.pc t = .requestUp n x u) :
    Local (s.sem x) (.dequeued u.stage) (s.pc x) ∧ (s.pc x).InHand ∧ x ∉ s.queue := by
  have hf := h.up t n x u hp
  have hl := h.loc x
  rw [hf] at hl
  have hidle : s.fate t = .idle := h.at hp
  refine ⟨hl, h.inHand_of_fate (by rw [hp]; rfl) hidle (.inr ⟨_, hf, ?_⟩),
    h.notMem_of_fate (by simp [hf])⟩
  cases u <;> simp [Up.stage]

theorem Inv.up_inc (h : Inv s) (hp : s.pc t = .requestUp n x .inc) : Inv (if s.sem x + 1 = 0 then
        ((s.setSem x (s.sem x + 1)).setFate x (.dequeued .incremented)).set t
          (.requestUp n x .store)
      else ((s.setSem x (s.sem x + 1)).setFate x (.dequeued .done)).set t (.requestUnlock n)) := by
  obtain ⟨hl, hhand, hqueue⟩ := h.inHand hp
  have hinc := hl.inc hhand
  split_ifs with hv
  · rw [if_pos hv] at hinc
    have hover := h.handOver (.inr ⟨_, hp⟩) (.inr ⟨.store, rfl, rfl⟩) hhand hhand hinc
    rw [update_eq_self, erase_of_not_mem hqueue] at hover
    exact hover
  · rw [if_neg hv] at hinc
    have hover := h.handOver (.inr ⟨_, hp⟩) (.inl ⟨rfl, rfl⟩) hhand hhand hinc
    rw [update_eq_self, erase_of_not_mem hqueue] at hover
    exact hover

theorem Inv.up_store (h : Inv s) (hp : s.pc t = .requestUp n x .store) :
    Inv (((s.setSem x 1).setFate x (.dequeued .stored)).set t (.requestUp n x .wake)) := by
  obtain ⟨hl, hhand, hqueue⟩ := h.inHand hp
  have hover := h.handOver (.inr ⟨_, hp⟩) (.inr ⟨.wake, rfl, rfl⟩) hhand hhand (hl.raise hhand)
  rw [update_eq_self, erase_of_not_mem hqueue] at hover
  exact hover

theorem Inv.up_wake (h : Inv s) (hp : s.pc t = .requestUp n x .wake) :
    Inv ((if (s.setFate x (.dequeued .done)).pc x = .parked .asleep then
        (s.setFate x (.dequeued .done)).set x (.parked .dec)
      else s.setFate x (.dequeued .done)).set t (.requestUnlock n)) := by
  obtain ⟨hl, hhand, hqueue⟩ := h.inHand hp
  have hover := h.handOver
    (.inr ⟨_, hp⟩) (.inl ⟨rfl, rfl⟩) hhand (by split_ifs; exacts [rfl, hhand]) (hl.wake hhand)
  rw [update_eq_self, erase_of_not_mem hqueue] at hover
  change Inv ((if s.pc x = .parked .asleep then _ else _ : State ι).set t _)
  split_ifs at hover ⊢
  · exact hover
  · rw [update_eq_self] at hover
    exact hover

theorem Inv.pick (h : Inv s) {Q : List ι} (hp : s.pc t = .requestHead n)
    (hQ : s.queue = x :: Q) : Inv (s.set t (.requestDequeue n x)) := by
  have hl := h.at hp
  have hchange := h.change (p := .requestDequeue n x) (w := s.workqSem) (v := s.sem t)
    (by simpa [hp, Pc.InLock] using h.lock t)
    (fun _ _ => Iff.rfl) h.nodup (h.mem t) (fun _ _ => Iff.rfl) hl ?_
    (fun r n => or_iff_not_imp_left.2 fun hr => h.head r n t (not_not.1 hr))
    (fun r n u hr => h.up r n t u hr) (by simp [hp]) (fun _ _ _ => rfl)
  · rw [update_eq_self, update_eq_self] at hchange
    exact hchange
  · rintro m y he
    obtain ⟨-, rfl⟩ := Pc.requestDequeue.inj he
    rw [hQ]
    exact mem_cons_self

omit [DecidableEq ι] in
theorem request_spec (n : ℕ) : (request n : Pc ι).InLock = false ∧ (request n : Pc ι).Free ∧
    ∀ v f, Local v f (request n : Pc ι) ↔ f = .idle := by
  cases n <;> exact ⟨rfl, rfl, fun _ _ => Iff.rfl⟩

theorem Inv.spawn (h : Inv s) {w : ι} (hp : s.pc t = .spawn n) :
    Inv ((if s.pc w = .unborn then s.set w .running else s).set t (request n)) := by
  obtain ⟨hlock, hfree, hloc⟩ := request_spec n
  split_ifs with hw
  · have hne : t ≠ w := fun he => by rw [he, hw] at hp; cases hp
    have hborn := h.goOn (w := s.workqSem) (p := .running) hw rfl rfl rfl id
    exact hborn.goOn (q := .spawn n)
      (by rw [← hp]; exact update_of_ne hne _ _) hfree rfl hlock (hloc _ _).2
  · exact h.goOn hp hfree rfl hlock (hloc _ _).2

variable [Fintype ι]

theorem Inv.wakeWorkq (h : Inv s) {w : ι} (hp : s.pc t = .parkUp .wake) :
    Inv (wakeWorkq s t w .parkUnlock) := by
  unfold Workq.wakeWorkq
  split
  · next n hw =>
    have hne : t ≠ w := fun he => by rw [he, hw] at hp; cases hp
    have hwoken := h.goOn (w := s.workqSem) (p := .requestDown n .dec) hw rfl rfl rfl id
    exact hwoken.goOn (q := .parkUp .wake)
      (by rw [← hp]; exact update_of_ne hne _ _) rfl rfl rfl id
  · split_ifs
    · exact h
    · exact h.goOn hp rfl rfl rfl id

/-- A good step of a thread keeps the invariant. -/
theorem Inv.runThread (h : Inv s) {w : ι} (hgood : s.pc t = .parked .store → s.sem t ≠ 1) :
    Inv (runThread s t w) := by
  have hl := h.loc t
  unfold Workq.runThread
  split <;> rename_i hp <;> rw [hp] at hl
  · exact h
  · exact h
  · exact h
  · exact h.lockStep hp rfl rfl rfl fun _ => hl
  · exact h.setSem hp rfl rfl rfl ⟨hl, rfl⟩
  · exact h.insert hp
  · split_ifs
    · exact h.goOn hp rfl rfl rfl id
    · exact h.goOn hp rfl rfl rfl id
  · exact h.goOn hp rfl rfl rfl id
  · exact h.wakeWorkq hp
  · exact h.unlockStep hp rfl rfl rfl rfl (.inl ⟨.inl hl.1, hl.2⟩)
  · exact h.down_dec hp
  · exact h.down_store hp (hgood hp)
  · exact h.down_wait hp
  · exact h
  · exact h.relock hp
  · exact h.recheck hp
  · exact h.remove hp
  · exact h.unlockWoken hp
  · exact h.unlockStep hp rfl rfl rfl rfl hl
  · split_ifs
    · exact h.goOn hp rfl rfl rfl id
    · exact h.goOn hp rfl rfl rfl id
  · exact h.goOn hp rfl rfl rfl id
  · split_ifs
    · exact h.goOn hp rfl rfl rfl id
    · exact h.goOn hp rfl rfl rfl id
  · exact h
  · exact h.lockStep hp rfl rfl rfl fun _ => hl
  · split
    · exact h.goOn hp rfl rfl rfl id
    · next hQ => exact h.pick hp hQ
  · exact h.dequeue hp
  · exact h.up_inc hp
  · exact h.up_store hp
  · exact h.up_wake hp
  · obtain ⟨hlock, hfree, hloc⟩ := request_spec ‹ℕ›
    exact h.unlockStep hp hfree rfl rfl hlock ((hloc _ _).2 hl)
  · exact h.unlockStep hp rfl rfl rfl rfl hl
  · exact h.spawn hp

theorem Inv.step (h : Inv s) {a : Action ι} (hgood : Good s a) : Inv (step s a) := by
  cases a with
  | threadReturn t =>
    rw [Workq.step]
    split_ifs with hp
    · exact h.goOn hp rfl rfl rfl id
    · exact h
  | requestThreads t n =>
    obtain ⟨hlock, hfree, hloc⟩ := request_spec n
    rw [Workq.step]
    split_ifs with hp
    · exact h.goOn hp hfree rfl hlock (hloc _ _).2
    · exact h
  | run t w => exact h.runThread hgood
  | timeout t =>
    rw [Workq.step]
    split_ifs with hp
    · exact h.timeout hp
    · exact h

/-- The one bad step loses the request. -/
theorem Inv.not_safe (h : Inv s) {a : Action ι} (hbad : ¬Good s a) : ¬Safe (Workq.step s a) := by
  cases a with
  | run t w =>
    obtain ⟨hp, hv⟩ : s.pc t = .parked .store ∧ s.sem t = 1 := by
      simpa [Good] using hbad
    have hl := h.loc t
    rw [hp, hv] at hl
    obtain ⟨g, hg, hf⟩ : ∃ g : Stage, g.Raised ∧ s.fate t = .dequeued g := by
      rcases hf : s.fate t with _ | _ | g | _ | _ <;> rw [hf] at hl
      · cases hl
      · cases hl
      · cases g with
        | pending => cases hl
        | incremented => simp [Local, Waiting] at hl
        | stored | done => exact ⟨_, rfl, rfl⟩
      · cases hl
      · cases hl
    have hs : Workq.step s (.run t w) = (s.setSem t (-1)).set t (.parked .wait) := by
      simp [Workq.step, Workq.runThread, hp]
    rw [hs]
    intro hsafe
    have hkept := hsafe.kept t g hf hg (by simp [State.set, Pc.Waits])
    simp [State.set, State.setSem] at hkept
  | _ => exact absurd trivial hbad

omit [DecidableEq ι] [Fintype ι] in
theorem inv_start (born : ι → Bool) : Inv (start born) where
  lock t := by
    cases hb : born t <;> simp [start, hb, Pc.InLock]
  nodup := nodup_nil
  mem t := by simp [start]
  loc t := by
    cases hb : born t <;> simp [start, hb, Local]
  head r n t hr := by
    cases hb : born r <;> simp [start, hb] at hr
  up r n t u hr := by
    cases hb : born r <;> simp [start, hb] at hr
  owner t g hf := by cases hf

/-- No request is lost in a run exactly if no thread stores -1 over a semaphore that was raised. -/
theorem run_safe_iff (born : ι → Bool) (as : List (Action ι)) :
    EachState Workq.step Safe (start born) as ↔
      EachStep Workq.step Good (start born) as :=
  eachState_iff (fun _ h => h.safe) (fun _ _ h _ hc => h.step hc)
    (fun _ _ h _ hc => h.not_safe hc) (inv_start born) (eachStep_true _ _)

/-- Thread 0 parks and decrements its semaphore, thread 1 dequeues it and raises the semaphore, and
thread 0 stores -1 and sleeps. -/
def lateStore : List (Action (Fin 2)) :=
  .threadReturn 0 :: replicate 6 (.run 0 0) ++
    .requestThreads 1 1 :: replicate 8 (.run 1 0) ++ replicate 2 (.run 0 0)

def lateStoreTimeout : List (Action (Fin 2)) := lateStore ++ .timeout 0 :: replicate 4 (.run 0 0)

theorem run_late_store_removes_twice :
    ((lateStore.foldl Workq.step (start fun _ => true)).pc 0 = .parked .asleep ∧
      (lateStore.foldl Workq.step (start fun _ => true)).fate 0 = .dequeued .done) ∧
    ((lateStoreTimeout.foldl Workq.step (start fun _ => true)).pc 0 = .terminated ∧
      (lateStoreTimeout.foldl Workq.step (start fun _ => true)).fate 0 = .removedTwice) ∧
    ¬EachState Workq.step Safe (start fun _ => true) lateStoreTimeout := by
  have hfate : (lateStoreTimeout.foldl Workq.step (start fun _ => true)).fate 0 =
    .removedTwice := by
    decide
  refine ⟨by decide, ⟨by decide, hfate⟩, fun h => ?_⟩
  exact (eachState_iff_foldl.1 h lateStoreTimeout prefix_rfl).once 0 hfate

end Darling.Workq
