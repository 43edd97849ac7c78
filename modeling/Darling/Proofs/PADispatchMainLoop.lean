import Darling.PADispatchMainLoop
import Darling.Runs

/-!
# Deferred events run once

A step changes what one event sees of the loop (`View`): its blocks in the queue, its fields and its
part of the history.  An event has at most a `fire` block, followed by its `free` block; what breaks
this is to enable an event whose block is still queued, or to use one that is freed.
-/

namespace Darling.PADispatchMainLoop

open List
open State (log complete dispatchAsync enter)

/-- The block is one of the event. -/
def Block.ofEvent (e : ℕ) (b : Block) : Bool := b = .fire e || b = .free e

/-- What an event sees of the loop: its blocks, its fields and its part of the history. -/
structure View where
  blocks : List Block
  active : Bool
  destroy : Bool
  enabled : Bool
  destroySet : Bool
  freed : Prop
  destroyed : Prop
  deleted : Prop
  inside : Prop
  allocated : Prop

def view (s : State) (e : ℕ) : View where
  blocks := s.queue.filter (Block.ofEvent e)
  active := (s.event e).active
  destroy := (s.event e).destroy
  enabled := enabled e s.history
  destroySet := destroySet e s.history
  freed := .freed e ∈ s.history
  destroyed := .destroyed e ∈ s.history
  deleted := .deleted e ∈ s.history
  inside := s.running ∧ s.queue.head? = some (.free e)
  allocated := e < s.next

/-- The blocks of an event, as they can stand in the queue. -/
def blocksOf (e : ℕ) (pending freeing : Bool) : List Block :=
  (if pending then [.fire e] else []) ++ (if freeing then [.free e] else [])

/-- At most one `fire` block, which an enabled event has, and behind it the `free` block of a freed
one. -/
structure View.Ok (e : ℕ) (v : View) : Prop where
  blocks : ∃ pending freeing, v.blocks = blocksOf e pending freeing ∧
    (freeing ↔ v.freed ∧ ¬ v.deleted) ∧ (v.enabled → pending) ∧ (v.deleted → pending = false)
  active : v.active = v.enabled
  destroy : v.destroy = v.destroySet
  unfreed : v.enabled → ¬ v.freed
  freed : v.deleted → v.freed
  destroyed : v.destroyed → v.deleted ∨ v.inside
  inside : v.inside → v.destroyed
  allocated : ¬ v.allocated → v.blocks = [] ∧ v.enabled = false ∧ ¬ v.freed

/-- Each event sees what it may see. -/
structure Invariant (s : State) : Prop where
  views : ∀ e, (view s e).Ok e
  sound : Sound s.history
  front : s.running → s.queue ≠ []

section View

variable {s : State} {e e' : ℕ}

theorem view_accessed : view (s.log (.accessed e')) e = view s e := by
  simp [view, log, enabled, destroySet]

theorem view_invoked : view (s.log (.invoked e')) e = view s e := by
  simp [view, log, enabled, destroySet]

theorem view_destroyed (h : e' ≠ e) : view (s.log (.destroyed e')) e = view s e := by
  simp [view, log, enabled, destroySet, h.symm]

theorem view_deleted (h : e' ≠ e) : view (s.log (.deleted e')) e = view s e := by
  simp [view, log, enabled, destroySet, h.symm]

theorem view_set {ev : DeferEvent} (h : e' ≠ e) : view (s.set e' ev) e = view s e := by
  simp [view, State.set, Function.update_of_ne h.symm]

variable {b : Block} {q : List Block}

section

variable (hfront : s.running → s.queue ≠ [])

include hfront

theorem head_append (b c : Block) :
    (s.running ∧ (s.queue ++ [b]).head? = some c) ↔ (s.running ∧ s.queue.head? = some c) := by
  refine and_congr_right fun hrun => ?_
  rcases hq : s.queue with _ | ⟨d, q⟩
  · exact absurd hq (hfront hrun)
  · rfl

theorem view_dispatch (hb : b.ofEvent e) :
    view (s.dispatchAsync b) e = { view s e with blocks := (view s e).blocks ++ [b] } := by
  simp only [view, dispatchAsync, head_append hfront, filter_append,
    filter_singleton, hb, cond_true]

theorem view_dispatch_other (hb : b.ofEvent e = false) : view (s.dispatchAsync b) e = view s e := by
  simp only [view, dispatchAsync, head_append hfront, filter_append,
    filter_singleton, hb, cond_false, append_nil]

end

theorem view_complete (hq : s.queue = b :: q) : view s.complete e = { view s e with
      blocks := q.filter (Block.ofEvent e), inside := False } := by
  simp [view, complete, hq]

theorem view_complete_other (hq : s.queue = b :: q)
    (hb : b.ofEvent e = false) : view s.complete e = view s e := by
  have hne : b ≠ .free e := by
    rintro rfl
    simp [Block.ofEvent] at hb
  simp [view, complete, hq, hb, hne]

theorem view_enter_other (hq : s.queue = b :: q)
    (hne : b ≠ .free e) : view s.enter e = view s e := by
  simp [view, enter, hq, hne]

theorem view_enter_free (hq : s.queue = .free e :: q) :
    view s.enter e = { view s e with inside := True } := by
  simp [view, enter, hq]

theorem fire_ofEvent_ne (h : e' ≠ e) : (Block.fire e').ofEvent e = false := by
  simp [Block.ofEvent, h]

theorem free_ofEvent_ne (h : e' ≠ e) : (Block.free e').ofEvent e = false := by
  simp [Block.ofEvent, h]

theorem client_ofEvent : Block.client.ofEvent e = false := rfl

theorem fire_ofEvent : (Block.fire e).ofEvent e = true := by simp [Block.ofEvent]

theorem free_ofEvent : (Block.free e).ofEvent e = true := by simp [Block.ofEvent]

end View

namespace View

variable {v : View} {e : ℕ}

theorem Ok.fire_mem (h : v.Ok e) (hen : v.enabled) : .fire e ∈ v.blocks := by
  obtain ⟨pending, freeing, hblocks, -, hpending, -⟩ := h.blocks
  rw [hblocks, hpending hen]
  simp [blocksOf]

theorem Ok.free_mem (h : v.Ok e) (hfreed : v.freed) (hdel : ¬ v.deleted) : .free e ∈ v.blocks := by
  obtain ⟨pending, freeing, hblocks, hfreeing, -, -⟩ := h.blocks
  rw [hblocks, hfreeing.2 ⟨hfreed, hdel⟩]
  simp [blocksOf]

theorem Ok.count_le (h : v.Ok e) : v.blocks.count (.fire e) ≤ 1 := by
  obtain ⟨pending, freeing, hblocks, -⟩ := h.blocks
  rw [hblocks]
  rcases pending with _ | _ <;> rcases freeing with _ | _ <;> simp [blocksOf]

variable {bs : List Block}

section

variable (h : v.Ok e)

include h

theorem Ok.of_fire (hb : v.blocks = .fire e :: bs) :
    ¬ v.deleted ∧ ∃ freeing, bs = blocksOf e false freeing ∧ (freeing ↔ v.freed ∧ ¬ v.deleted) := by
  obtain ⟨pending, freeing, hblocks, hfreeing, -, hdel⟩ := h.blocks
  rw [hblocks] at hb
  rcases pending with _ | _
  · rcases freeing with _ | _ <;> simp [blocksOf] at hb
  · refine ⟨fun hd => absurd (hdel hd) (by simp), freeing, ?_, hfreeing⟩
    simpa [blocksOf] using hb.symm

theorem Ok.of_free (hb : v.blocks = .free e :: bs) :
    ¬ v.deleted ∧ v.freed ∧ v.enabled = false ∧ bs = [] := by
  obtain ⟨pending, freeing, hblocks, hfreeing, hen, -⟩ := h.blocks
  rw [hblocks] at hb
  rcases pending with _ | _
  · rcases freeing with _ | _
    · simp [blocksOf] at hb
    · obtain ⟨hfreed, hdel⟩ := hfreeing.1 rfl
      exact ⟨hdel, hfreed, by simpa using hen, by simpa [blocksOf] using hb⟩
  · simp [blocksOf] at hb

theorem Ok.skip (hb : v.blocks = .fire e :: bs) (hactive : v.active = false) (hout : ¬ v.inside) :
    View.Ok e { v with blocks := bs, inside := False } := by
  obtain ⟨hdel, freeing, rfl, hfreeing⟩ := h.of_fire hb
  have hen : v.enabled = false := h.active ▸ hactive
  exact
    { h with
      blocks := ⟨false, freeing, rfl, hfreeing, by simp [hen], fun _ => rfl⟩
      destroyed := fun hd => .inl ((h.destroyed hd).resolve_right hout)
      inside := False.elim
      allocated := fun ha => by simp [(h.allocated ha).1] at hb }

theorem Ok.again (hb : v.blocks = .fire e :: bs) (hactive : v.active) (hout : ¬ v.inside) :
    View.Ok e { v with blocks := bs ++ [.fire e], inside := False } := by
  obtain ⟨hdel, freeing, rfl, hfreeing⟩ := h.of_fire hb
  have hen : v.enabled := h.active ▸ hactive
  have hno : freeing = false := by
    rw [Bool.eq_false_iff, Ne, hfreeing]
    exact fun hf => h.unfreed hen hf.1
  exact
    { h with
      blocks := ⟨true, freeing, by simp [hno, blocksOf], hfreeing, fun _ => rfl,
        fun hd => absurd hd hdel⟩
      destroyed := fun hd => .inl ((h.destroyed hd).resolve_right hout)
      inside := False.elim
      allocated := fun ha => by simp [(h.allocated ha).1] at hb }

theorem Ok.destroy_enter : View.Ok e { v with destroyed := True, inside := True } :=
  { h with
    destroyed := fun _ => .inr trivial
    inside := fun _ => trivial }

theorem Ok.delete (hb : v.blocks = .free e :: bs) :
    View.Ok e { v with blocks := bs, deleted := True, inside := False } := by
  obtain ⟨-, hfreed, hen, rfl⟩ := h.of_free hb
  exact
    { blocks := ⟨false, false, rfl, by simp, by simp [hen], fun _ => rfl⟩
      active := h.active
      destroy := h.destroy
      unfreed := h.unfreed
      freed := fun _ => hfreed
      destroyed := fun _ => .inl trivial
      inside := False.elim
      allocated := fun ha => by simp [(h.allocated ha).1] at hb }

theorem Ok.setDestroy (cb : Bool) : View.Ok e { v with destroy := cb, destroySet := cb } :=
  { h with destroy := rfl }

theorem Ok.blocks_of_not_freed (hfreed : ¬ v.freed) :
    ¬ v.deleted ∧ ∃ pending, v.blocks = blocksOf e pending false := by
  obtain ⟨pending, freeing, hblocks, hfreeing, -, -⟩ := h.blocks
  refine ⟨fun hd => hfreed (h.freed hd), pending, ?_⟩
  rwa [Bool.eq_false_iff.2 fun hf => hfreed (hfreeing.1 hf).1] at hblocks

theorem Ok.free (hfreed : ¬ v.freed) (halloc : v.allocated) : View.Ok e { v with
      blocks := v.blocks ++ [.free e], active := false, enabled := false, freed := True } := by
  obtain ⟨hdel, pending, hblocks⟩ := h.blocks_of_not_freed hfreed
  exact
    { blocks := ⟨pending, true, by simp [hblocks, blocksOf], by simp [hdel], by simp,
        fun hd => absurd hd hdel⟩
      active := rfl
      destroy := h.destroy
      unfreed := by simp
      freed := fun _ => trivial
      destroyed := h.destroyed
      inside := h.inside
      allocated := fun ha => absurd halloc ha }

theorem Ok.enable_same (halloc : v.allocated) {b : Bool} (hb : b → v.active) :
    View.Ok e { v with active := b, enabled := b } := by
  obtain ⟨pending, freeing, hblocks, hfreeing, hen, hdel⟩ := h.blocks
  rw [h.active] at hb
  exact
    { h with
      blocks := ⟨pending, freeing, hblocks, hfreeing, fun hb' => hen (hb hb'), hdel⟩
      active := rfl
      unfreed := fun hb' => h.unfreed (hb hb')
      allocated := fun ha => absurd halloc ha }

theorem Ok.enable_new (halloc : v.allocated) (hfreed : ¬ v.freed) (hno : .fire e ∉ v.blocks) :
    View.Ok e { v with blocks := v.blocks ++ [.fire e], active := true, enabled := true } := by
  obtain ⟨hdel, pending, hblocks⟩ := h.blocks_of_not_freed hfreed
  have hpend : pending = false := by
    rcases pending with _ | _
    · rfl
    · exact absurd (by simp [hblocks, blocksOf]) hno
  exact
    { h with
      blocks := ⟨true, false, by simp [hblocks, hpend, blocksOf], by simp [hfreed], fun _ => rfl,
        fun hd => absurd hd hdel⟩
      active := rfl
      unfreed := fun _ => hfreed
      allocated := fun ha => absurd halloc ha }

theorem Ok.new (halloc : ¬ v.allocated) : View.Ok e { v with
      blocks := v.blocks ++ [.fire e], active := true, destroy := false, enabled := true,
      destroySet := false, allocated := True } := by
  obtain ⟨hblocks, -, hfreed⟩ := h.allocated halloc
  exact
    { h with
      blocks := ⟨true, false, by simp [hblocks, blocksOf], by simp [hfreed], fun _ => rfl,
        fun hd => absurd (h.freed hd) hfreed⟩
      active := rfl
      destroy := rfl
      unfreed := fun _ => hfreed
      allocated := fun ha => absurd trivial ha }

end

end View

section Calls

variable {s : State} {e e' : ℕ} {b : ℤ}

theorem view_deferSetDestroy_other {cb : Bool} (h : e' ≠ e) :
    view (deferSetDestroy s e' cb) e = view s e := by
  rw [deferSetDestroy, view_set h]
  simp [view, log, enabled, destroySet, h]

theorem view_deferSetDestroy {cb : Bool} :
    view (deferSetDestroy s e cb) e = { view s e with destroy := cb, destroySet := cb } := by
  simp [deferSetDestroy, view, log, State.set, enabled, destroySet]

theorem view_set_active {b : Bool} :
    view ((s.log (.enabled e b)).set e { s.event e with active := b }) e
      = { view s e with active := b, enabled := b } := by
  simp [view, log, State.set, enabled, destroySet]

theorem view_deferEnable_same (h : b ≠ 0 → (s.event e).active) :
    view (deferEnable s e b) e = { view s e with active := b ≠ 0, enabled := b ≠ 0 } := by
  have hno : ¬ ((!((s.log (.accessed e)).event e).active && decide (b ≠ 0)) = true) := by
    simpa [log] using fun hf => by_contra fun hb => by simp [h hb] at hf
  rw [deferEnable, if_neg hno, view_set_active, view_accessed]

variable (hfront : s.running → s.queue ≠ [])

include hfront

theorem view_deferNew_other (h : e ≠ s.next) : view (deferNew s) e = view s e := by
  rw [deferNew, view_dispatch_other (by exact hfront) (fire_ofEvent_ne h.symm)]
  have hlt : e < s.next + 1 ↔ e < s.next := by omega
  simp [view, log, State.set, State.allocate, enabled, destroySet, h.symm,
    Function.update_of_ne h, hlt]

theorem view_deferNew :
    view (deferNew s) s.next = { view s s.next with
      blocks := (view s s.next).blocks ++ [.fire s.next], active := true, destroy := false,
      enabled := true, destroySet := false, allocated := True } := by
  rw [deferNew, view_dispatch (by exact hfront) fire_ofEvent]
  simp [view, log, State.set, State.allocate, enabled, destroySet]

theorem view_deferFree_other (h : e' ≠ e) : view (deferFree s e') e = view s e := by
  rw [deferFree, view_dispatch_other (by exact hfront) (free_ofEvent_ne h), view_set h]
  simp [view, log, enabled, destroySet, h, h.symm]

theorem view_deferFree :
    view (deferFree s e) e = { view s e with
      blocks := (view s e).blocks ++ [.free e], active := false, enabled := false,
      freed := True } := by
  rw [deferFree, view_dispatch (by exact hfront) free_ofEvent]
  simp [view, log, State.set, enabled, destroySet]

theorem view_deferEnable_other (h : e' ≠ e) : view (deferEnable s e' b) e = view s e := by
  rw [deferEnable, view_set h]
  have hlog : ∀ t : State, view (t.log (.enabled e' (b ≠ 0))) e = view t e := fun t => by
    simp [view, log, enabled, destroySet, h]
  rw [hlog]
  split
  · rw [view_dispatch_other (by exact hfront) (fire_ofEvent_ne h), view_accessed]
  · rw [view_accessed]

theorem view_deferEnable_new (hb : b ≠ 0) (h : (s.event e).active = false) :
    view (deferEnable s e b) e = { view s e with
      blocks := (view s e).blocks ++ [.fire e], active := true, enabled := true } := by
  have hyes : (!((s.log (.accessed e)).event e).active && decide (b ≠ 0)) = true := by
    simp [log, h, hb]
  rw [deferEnable, if_pos hyes, view_set_active, view_dispatch (by exact hfront) fire_ofEvent,
    view_accessed, decide_eq_true hb]

end Calls

namespace Invariant

variable {s : State}

theorem views_of (h : Invariant s) {t : State} (e : ℕ) (hown : (view t e).Ok e)
    (hother : ∀ e', e ≠ e' → view t e' = view s e') (e' : ℕ) : (view t e').Ok e' := by
  by_cases he : e = e'
  · exact he ▸ hown
  · rw [hother e' he]
    exact h.views e'

theorem initial : Invariant .initial where
  views e := by
    refine ⟨⟨false, false, rfl, ?_, ?_, fun _ => rfl⟩, rfl, rfl, ?_, ?_, ?_, ?_,
      fun _ => ⟨rfl, rfl, ?_⟩⟩ <;> simp [view, State.initial, enabled]
  sound := trivial
  front := by simp [State.initial]

theorem submit (h : Invariant s) : Invariant (s.dispatchAsync .client) where
  views e := by
    rw [view_dispatch_other h.front client_ofEvent]
    exact h.views e
  sound := h.sound
  front _ := by simp [dispatchAsync]

theorem deferNew (h : Invariant s) : Invariant (deferNew s) where
  views := by
    refine h.views_of s.next ?_ fun e he => view_deferNew_other h.front he.symm
    rw [view_deferNew h.front]
    exact (h.views _).new (lt_irrefl _)
  sound := ⟨trivial, h.sound⟩
  front _ := by simp [PADispatchMainLoop.deferNew, dispatchAsync]

variable {e : ℕ}

theorem deferSetDestroy (h : Invariant s) (hdel : .deleted e ∉ s.history) (cb : Bool) :
    Invariant (deferSetDestroy s e cb) where
  views := by
    refine h.views_of e ?_ fun e' he => view_deferSetDestroy_other he
    rw [view_deferSetDestroy]
    exact (h.views e).setDestroy cb
  sound := ⟨trivial, hdel, h.sound⟩
  front := h.front

theorem deferFree (h : Invariant s) (he : e < s.next) (hfreed : .freed e ∉ s.history) :
    Invariant (deferFree s e) where
  views := by
    refine h.views_of e ?_ fun e' hee => view_deferFree_other h.front hee
    rw [view_deferFree h.front]
    exact (h.views e).free hfreed he
  sound := ⟨trivial, fun hdel => hfreed ((h.views e).freed hdel), h.sound⟩
  front _ := by simp [PADispatchMainLoop.deferFree, dispatchAsync]

theorem mem_blocks : .fire e ∈ (view s e).blocks ↔ .fire e ∈ s.queue := by
  rw [view, mem_filter, and_iff_left fire_ofEvent]

theorem deferEnable (h : Invariant s) {b : ℤ} (he : e < s.next) (hdel : .deleted e ∉ s.history)
    (hb : b ≠ 0 → (s.event e).active = false → .freed e ∉ s.history ∧ .fire e ∉ s.queue) :
    Invariant (deferEnable s e b) where
  views := by
    refine h.views_of e ?_ fun e' hee => view_deferEnable_other h.front hee
    by_cases hsame : b ≠ 0 → (s.event e).active
    · rw [view_deferEnable_same hsame]
      exact (h.views e).enable_same he fun hb' => hsame (of_decide_eq_true hb')
    · obtain ⟨hb0, hactive⟩ := Classical.not_imp.1 hsame
      rw [Bool.not_eq_true] at hactive
      obtain ⟨hfreed, hfire⟩ := hb hb0 hactive
      rw [view_deferEnable_new h.front hb0 hactive]
      exact (h.views e).enable_new he hfreed (mt mem_blocks.1 hfire)
  sound := by
    rw [PADispatchMainLoop.deferEnable]
    split <;> exact ⟨trivial, hdel, h.sound⟩
  front hrun := by
    rw [PADispatchMainLoop.deferEnable] at hrun ⊢
    split
    · simp [State.set, log, dispatchAsync]
    · rename_i hno
      rw [if_neg hno] at hrun
      exact h.front hrun

section Front

variable {e : ℕ} {q : List Block}

theorem blocks_fire (hq : s.queue = .fire e :: q) :
    (view s e).blocks = .fire e :: q.filter (Block.ofEvent e) := by
  rw [view, hq, filter_cons_of_pos fire_ofEvent]

theorem blocks_free (hq : s.queue = .free e :: q) :
    (view s e).blocks = .free e :: q.filter (Block.ofEvent e) := by
  rw [view, hq, filter_cons_of_pos free_ofEvent]

theorem not_inside_of_fire (hq : s.queue = .fire e :: q) (e' : ℕ) : ¬ (view s e').inside := by
  simp [view, hq]

section

variable (h : Invariant s)

include h

theorem accessed_fire (hq : s.queue = .fire e :: q) : Acceptable (.accessed e) s.history :=
  ((h.views e).of_fire (blocks_fire hq)).1

theorem accessed_free (hq : s.queue = .free e :: q) : Acceptable (.accessed e) s.history :=
  ((h.views e).of_free (blocks_free hq)).1

theorem enter_client (hq : s.queue = .client :: q) : Invariant s.enter where
  views e := by
    rw [view_enter_other hq (by simp)]
    exact h.views e
  sound := h.sound
  front _ := by simp [enter, hq]

theorem complete_client (hq : s.queue = .client :: q) : Invariant s.complete where
  views e := by
    rw [view_complete_other hq client_ofEvent]
    exact h.views e
  sound := h.sound
  front := by simp [complete]

section

variable (hq : s.queue = .fire e :: q)

include hq

theorem skip (hactive : (s.event e).active = false) : Invariant (s.log (.accessed e)).complete where
  views := by
    refine h.views_of e ?_ fun e' hee => ?_
    · rw [view_complete (by exact hq), view_accessed]
      exact (h.views e).skip (blocks_fire hq) hactive (not_inside_of_fire hq e)
    · rw [view_complete_other (by exact hq) (fire_ofEvent_ne hee), view_accessed]
  sound := ⟨h.accessed_fire hq, h.sound⟩
  front := by simp [complete]

theorem deferEventFire : Invariant (deferEventFire s e) := by
  rw [PADispatchMainLoop.deferEventFire]
  split_ifs with hactive
  · have hen : (view s e).enabled := (h.views e).active ▸ hactive
    exact
      { views := fun e' => by
          rw [view_enter_other (by exact hq) (by simp), view_invoked, view_accessed]
          exact h.views e'
        sound := ⟨⟨hen, not_mem_cons_of_ne_of_not_mem (by simp) ((h.views e).unfreed hen)⟩,
          h.accessed_fire hq, h.sound⟩
        front := fun _ => by simp [enter, log, hq] }
  · exact h.skip hq (Bool.eq_false_iff.2 hactive)

theorem deferEventFired : Invariant (deferEventFired s e) := by
  rw [PADispatchMainLoop.deferEventFired]
  split_ifs with hactive
  · have hqueue : ((s.log (.accessed e)).dispatchAsync (.fire e)).queue
        = .fire e :: (q ++ [.fire e]) := by
      simp [dispatchAsync, log, hq]
    have hfront : (s.log (.accessed e)).running → (s.log (.accessed e)).queue ≠ [] := h.front
    exact
      { views := by
          refine h.views_of e ?_ fun e' hee => ?_
          · rw [view_complete hqueue, view_dispatch hfront fire_ofEvent, view_accessed]
            have hagain := (h.views e).again (blocks_fire hq) hactive (not_inside_of_fire hq e)
            rwa [filter_append, filter_cons_of_pos fire_ofEvent, filter_nil]
          · rw [view_complete_other hqueue (fire_ofEvent_ne hee),
              view_dispatch_other hfront (fire_ofEvent_ne hee), view_accessed]
        sound := ⟨h.accessed_fire hq, h.sound⟩
        front := by simp [complete] }
  · exact h.skip hq (Bool.eq_false_iff.2 hactive)

end

theorem deleteEvent (hq : s.queue = .free e :: q)
    (hdestroy : destroySet e s.history → .destroyed e ∈ s.history) :
    Invariant (deleteEvent s e) where
  views := by
    refine h.views_of e ?_ fun e' hee => ?_
    · have hview : view (s.log (.deleted e)) e = { view s e with deleted := True } := by
        simp [view, log, enabled, destroySet]
      rw [PADispatchMainLoop.deleteEvent, view_complete (by exact hq), hview]
      exact (h.views e).delete (blocks_free hq)
    · rw [PADispatchMainLoop.deleteEvent, view_complete_other (by exact hq) (free_ofEvent_ne hee),
        view_deleted hee]
  sound := ⟨⟨h.accessed_free hq, hdestroy⟩, h.sound⟩
  front := by simp [PADispatchMainLoop.deleteEvent, complete]

theorem log_accessed {e : ℕ} (hdel : .deleted e ∉ s.history) : Invariant (s.log (.accessed e)) where
  views e' := by
    rw [view_accessed]
    exact h.views e'
  sound := ⟨hdel, h.sound⟩
  front := h.front

theorem freeBlock (hq : s.queue = .free e :: q) (hrun : s.running = false) :
    Invariant (freeBlock s e) := by
  have hacc := h.log_accessed (h.accessed_free hq)
  rw [PADispatchMainLoop.freeBlock]
  split_ifs with hdestroy
  · have hnew : .destroyed e ∉ (s.log (.accessed e)).history := fun hd =>
      (((hacc.views e).destroyed hd).elim
        (fun hdel => (h.accessed_free hq) (by simpa [view, log] using hdel))
        fun hin => by simp [view, log, hrun] at hin)
    exact
      { views := by
          refine hacc.views_of e ?_ fun e' hee => ?_
          · have hview : view ((s.log (.accessed e)).log (.destroyed e)) e
                = { view (s.log (.accessed e)) e with destroyed := True } := by
              simp [view, log, enabled, destroySet]
            rw [view_enter_free (by exact hq), hview]
            exact (hacc.views e).destroy_enter
          · rw [view_enter_other (by exact hq) (by simpa using hee), view_destroyed hee]
        sound := ⟨hnew, hacc.sound⟩
        front := fun _ => by simp [enter, log, hq] }
  · refine hacc.deleteEvent hq fun hset => absurd ?_ hdestroy
    exact (hacc.views e).destroy.trans hset

theorem beginBlock (hrun : s.running = false) : Invariant (beginBlock s) := by
  rw [PADispatchMainLoop.beginBlock]
  split
  · exact h
  · exact h.enter_client ‹_›
  · exact h.deferEventFire ‹_›
  · exact h.freeBlock ‹_› hrun

theorem finishBlock (hrun : s.running) : Invariant (finishBlock s) := by
  rw [PADispatchMainLoop.finishBlock]
  split
  · exact h
  · exact h.complete_client ‹_›
  · exact h.deferEventFired ‹_›
  · rename_i e q hq
    exact h.deleteEvent hq fun _ => (h.views e).inside ⟨hrun, by simp [hq]⟩

end

end Front

theorem step (h : Invariant s) {a : Action} (ha : Allowed s a) : Invariant (step s a) := by
  cases a with
  | submit => exact h.submit
  | begin =>
    rw [PADispatchMainLoop.step]
    split
    · exact h
    · exact h.beginBlock (Bool.eq_false_iff.2 ‹_›)
  | finish =>
    rw [PADispatchMainLoop.step]
    split
    · exact h.finishBlock ‹_›
    · exact h
  | call c =>
    rw [PADispatchMainLoop.step]
    split_ifs with hrun
    · cases c with
      | new => exact h.deferNew
      | setDestroy e cb =>
        rw [call]
        split_ifs with he
        · exact h.deferSetDestroy (ha hrun he) cb
        · exact h
      | enable e b =>
        rw [call]
        split_ifs with he
        · exact h.deferEnable he (ha hrun he).1 (ha hrun he).2
        · exact h
      | free e =>
        rw [call]
        split_ifs with he
        · exact h.deferFree he (ha hrun he)
        · exact h
    · exact h

end Invariant

section Drain

variable {s : State} {e : ℕ} {b : Block} {q : List Block}

theorem step_queue_begin (hq : s.queue = b :: q) (hrun : s.running = false) :
    ((step s .begin).running ∧ (step s .begin).queue = b :: q) ∨
      (step s .begin).running = false ∧ (step s .begin).queue = q := by
  rw [step, if_neg (by simp [hrun]), beginBlock, hq]
  cases b with
  | client => exact .inl ⟨rfl, hq⟩
  | fire e =>
    simp only [deferEventFire]
    split
    · exact .inl ⟨rfl, hq⟩
    · exact .inr ⟨rfl, by simp [complete, log, hq]⟩
  | free e =>
    simp only [freeBlock]
    split
    · exact .inl ⟨rfl, hq⟩
    · exact .inr ⟨rfl, by simp [deleteEvent, complete, log, hq]⟩

theorem step_queue_finish (hq : s.queue = b :: q) (hrun : s.running) :
    (step s .finish).running = false ∧ ∃ more, (step s .finish).queue = q ++ more := by
  rw [step, if_pos hrun, finishBlock, hq]
  cases b with
  | client => exact ⟨rfl, [], by simp [complete, hq]⟩
  | fire e =>
    refine ⟨rfl, ?_⟩
    simp only [deferEventFired]
    split
    · exact ⟨[.fire e], by simp [complete, dispatchAsync, log, hq]⟩
    · exact ⟨[], by simp [complete, log, hq]⟩
  | free e => exact ⟨rfl, [], by simp [deleteEvent, complete, log, hq]⟩

theorem history_begin (s : State) : s.history <:+ (step s .begin).history := by
  rw [step]
  split
  · exact suffix_rfl
  · rw [beginBlock]
    split
    · exact suffix_rfl
    · exact suffix_rfl
    · simp only [deferEventFire]
      split
      · exact ⟨[_, _], rfl⟩
      · exact ⟨[_], rfl⟩
    · simp only [freeBlock]
      split <;> exact ⟨[_, _], rfl⟩

theorem history_finish (s : State) : s.history <:+ (step s .finish).history := by
  rw [step]
  split
  · rw [finishBlock]
    split
    · exact suffix_rfl
    · exact suffix_rfl
    · simp only [deferEventFired]
      split <;> exact ⟨[_], rfl⟩
    · exact ⟨[_], rfl⟩
  · exact suffix_rfl

theorem history_round (s : State) : s.history <:+ (round s).history :=
  (history_begin s).trans (history_finish _)

theorem history_rounds (n : ℕ) (s : State) : s.history <:+ (round^[n] s).history := by
  induction n generalizing s with
  | zero => exact suffix_rfl
  | succ n ih => exact (history_round s).trans (ih (round s))

theorem step_begin (hrun : s.running = false) : step s .begin = beginBlock s := by
  rw [step, if_neg (Bool.eq_false_iff.1 hrun)]

theorem step_begin_running (hrun : s.running) : step s .begin = s := by
  rw [step, if_pos hrun]

theorem step_finish_idle (hrun : s.running = false) : step s .finish = s := by
  rw [step, if_neg (Bool.eq_false_iff.1 hrun)]

theorem round_spec (hq : s.queue = b :: q) :
    (round s).running = false ∧ ∃ more, (round s).queue = q ++ more := by
  rcases hrun : s.running with _ | _
  · rcases step_queue_begin hq hrun with ⟨hrun', hq'⟩ | ⟨hrun', hq'⟩
    · exact step_queue_finish hq' hrun'
    · rw [round, step_finish_idle hrun']
      exact ⟨hrun', [], by rw [hq', append_nil]⟩
  · rw [round, step_begin_running hrun]
    exact step_queue_finish hq hrun

theorem rounds_spec : ∀ {pre q : List Block} {s : State}, s.queue = pre ++ q →
    (pre ≠ [] → (round^[pre.length] s).running = false) ∧
      ∃ more, (round^[pre.length] s).queue = q ++ more
  | [], q, s, hq => ⟨fun h => absurd rfl h, [], by simpa using hq⟩
  | b :: pre, q, s, hq => by
    obtain ⟨hrun, more, hround⟩ := round_spec (q := pre ++ q) hq
    rw [append_assoc] at hround
    obtain ⟨hrun', more', hrounds⟩ := rounds_spec hround
    rw [length_cons, Function.iterate_succ_apply]
    refine ⟨fun _ => ?_, more ++ more', by rw [hrounds, append_assoc]⟩
    rcases pre with _ | ⟨c, pre⟩
    · exact hrun
    · exact hrun' (by simp)

theorem finish_deleted (hq : s.queue = .free e :: q) (hrun : s.running) :
    .deleted e ∈ (step s .finish).history := by
  rw [step, if_pos hrun, finishBlock, hq]
  exact mem_cons_self

theorem round_deleted (hq : s.queue = .free e :: q) : .deleted e ∈ (round s).history := by
  rcases hrun : s.running with _ | _
  · rw [round, step_begin hrun, beginBlock, hq]
    simp only [freeBlock]
    split
    · exact finish_deleted hq rfl
    · exact (history_finish _).subset mem_cons_self
  · rw [round, step_begin_running hrun]
    exact finish_deleted hq hrun

theorem round_accessed (hq : s.queue = b :: q) (hb : b.ofEvent e) (hrun : s.running = false) :
    .accessed e :: s.history <:+ (round s).history := by
  refine IsSuffix.trans ?_ (history_finish _)
  rw [step_begin hrun, beginBlock, hq]
  cases b with
  | client => simp [Block.ofEvent] at hb
  | fire e' =>
    obtain rfl : e' = e := by simpa [Block.ofEvent] using hb
    simp only [deferEventFire]
    split
    · exact ⟨[_], rfl⟩
    · exact suffix_rfl
  | free e' =>
    obtain rfl : e' = e := by simpa [Block.ofEvent] using hb
    simp only [freeBlock]
    split <;> exact ⟨[_], rfl⟩

theorem rounds_le {m n : ℕ} (h : m ≤ n) (s : State) :
    (round^[m] s).history <:+ (round^[n] s).history := by
  obtain ⟨k, rfl⟩ := Nat.exists_eq_add_of_le h
  rw [Nat.add_comm, Function.iterate_add_apply]
  exact history_rounds k _

theorem deleted_of_free (pre q : List Block) (hq : s.queue = pre ++ .free e :: q) :
    .deleted e ∈ (round^[pre.length + 1] s).history := by
  obtain ⟨-, more, hfront⟩ := rounds_spec hq
  rw [Function.iterate_succ_apply']
  exact round_deleted hfront

theorem drain_deleted (h : .free e ∈ s.queue) : .deleted e ∈ (drain s).history := by
  obtain ⟨pre, q, hq⟩ := append_of_mem h
  refine (rounds_le ?_ s).subset (deleted_of_free pre q hq)
  rw [hq, length_append, length_cons]
  omega

theorem Sound.suffix : ∀ {h h' : List Happened}, Sound h' → h <:+ h' → Sound h
  | h, [], _, hs => by
    rw [List.suffix_nil.1 hs]
    trivial
  | h, x :: h', hsound, hs => by
    rcases List.suffix_cons_iff.1 hs with rfl | hs
    · exact hsound
    · exact hsound.2.suffix hs

theorem drain_dangling (hq : .free e ∈ s.queue) (hb : b.ofEvent e) :
    ¬ Sound (drain (s.dispatchAsync b)).history := by
  intro hsound
  obtain ⟨pre, q, hq⟩ := append_of_mem hq
  have hqueue : (s.dispatchAsync b).queue = (pre ++ .free e :: q) ++ [b] := by
    rw [dispatchAsync, hq]
  have hdel : .deleted e ∈ (round^[(pre ++ .free e :: q).length] (s.dispatchAsync b)).history := by
    refine (rounds_le ?_ _).subset (deleted_of_free pre (q ++ [b]) ?_)
    · rw [length_append, length_cons]
      omega
    · rw [hqueue, append_assoc, cons_append]
  obtain ⟨hrun, more, hfront⟩ := rounds_spec hqueue
  have hacc := round_accessed hfront hb (hrun (by simp))
  rw [← Function.iterate_succ_apply' round] at hacc
  have hdrain : drain (s.dispatchAsync b)
      = round^[(pre ++ .free e :: q).length + 1] (s.dispatchAsync b) := by
    rw [drain, hqueue, length_append, length_singleton]
  rw [hdrain] at hsound
  exact (hsound.suffix hacc).1 hdel

theorem drain_accessed (hdel : .deleted e ∈ s.history) {t : State}
    (ht : .accessed e :: s.history <:+ t.history) : ¬ Sound (drain t).history :=
  fun hsound => (hsound.suffix (ht.trans (history_rounds _ t))).1 hdel

end Drain

section Correct

variable {s : State}

theorem count_blocks (s : State) (e : ℕ) :
    (view s e).blocks.count (.fire e) = s.queue.count (.fire e) := count_filter fire_ofEvent

theorem Invariant.round (h : Invariant s) : Invariant (round s) :=
  (h.step (a := .begin) trivial).step trivial

theorem Invariant.rounds (h : Invariant s) : ∀ n, Invariant (PADispatchMainLoop.round^[n] s)
  | 0 => h
  | n + 1 => by
    rw [Function.iterate_succ_apply']
    exact (h.rounds n).round

variable {e : ℕ} {b : ℤ}

theorem Invariant.free_mem (h : Invariant s) (hfreed : .freed e ∈ s.history)
    (hdel : .deleted e ∉ s.history) : .free e ∈ s.queue :=
  (mem_filter.1 ((h.views e).free_mem hfreed hdel)).1

theorem Invariant.correct (h : Invariant s) : Correct s where
  atMostOne e := count_blocks s e ▸ (h.views e).count_le
  oneIfEnabled e hen := by
    have hle := (h.views e).count_le
    have hpos := count_pos_iff.2 ((h.views e).fire_mem hen)
    rw [count_blocks] at hle hpos
    omega
  sound := (h.rounds _).sound
  deleted e hfreed := by
    by_cases hdel : .deleted e ∈ s.history
    · exact (history_rounds _ s).subset hdel
    · exact drain_deleted (h.free_mem hfreed hdel)

theorem deferEnable_eq_dispatch (hb : b ≠ 0) (hactive : (s.event e).active = false) :
    deferEnable s e b = (((s.log (.accessed e)).log (.enabled e (b ≠ 0))).set e
      { s.event e with active := b ≠ 0 }).dispatchAsync (.fire e) := by
  rw [deferEnable, if_pos (by simp [log, hactive, hb])]
  rfl

theorem accessed_deferEnable : .accessed e :: s.history <:+ (deferEnable s e b).history := by
  rw [deferEnable]
  split <;> exact ⟨[_], rfl⟩

theorem not_correct_enable (h : Invariant s) (hb : b ≠ 0) (hdel : .deleted e ∉ s.history)
    (hactive : (s.event e).active = false)
    (hbad : ¬ (.freed e ∉ s.history ∧ .fire e ∉ s.queue)) : ¬ Correct (deferEnable s e b) := by
  intro hcorrect
  rw [deferEnable_eq_dispatch hb hactive] at hcorrect
  by_cases hfire : .fire e ∈ s.queue
  · have hcount : (s.queue ++ [Block.fire e]).count (.fire e) ≤ 1 := hcorrect.atMostOne e
    have hpos : 0 < s.queue.count (.fire e) := count_pos_iff.2 hfire
    rw [count_append, count_singleton_self] at hcount
    omega
  · have hfreed : .freed e ∈ s.history := by
      by_contra hfreed
      exact hbad ⟨hfreed, hfire⟩
    exact drain_dangling (by exact h.free_mem hfreed hdel) fire_ofEvent hcorrect.sound

theorem not_correct_free (h : Invariant s) (hfreed : .freed e ∈ s.history) :
    ¬ Correct (deferFree s e) := by
  intro hcorrect
  by_cases hdel : .deleted e ∈ s.history
  · exact drain_accessed hdel ⟨[_], rfl⟩ hcorrect.sound
  · exact drain_dangling (by exact h.free_mem hfreed hdel) free_ofEvent hcorrect.sound

theorem not_correct_of_not_allowed (h : Invariant s) {a : Action} (ha : ¬ Allowed s a) :
    ¬ Correct (step s a) := by
  rcases a with _ | _ | c | _
  · exact absurd trivial ha
  · exact absurd trivial ha
  · rcases c with _ | ⟨e, cb⟩ | ⟨e, b⟩ | e
    · exact absurd trivial ha
    · simp only [Allowed, Classical.not_imp, not_not] at ha
      obtain ⟨hrun, he, hdel⟩ := ha
      rw [step, if_pos hrun, call, if_pos he]
      exact fun hcorrect => drain_accessed hdel ⟨[_], rfl⟩ hcorrect.sound
    · simp only [Allowed, Classical.not_imp] at ha
      obtain ⟨hrun, he, hbad⟩ := ha
      rw [step, if_pos hrun, call, if_pos he]
      by_cases hdel : .deleted e ∈ s.history
      · exact fun hcorrect => drain_accessed hdel accessed_deferEnable hcorrect.sound
      · simp only [hdel, not_false_eq_true, true_and, Classical.not_imp] at hbad
        obtain ⟨hb, hactive, hbad⟩ := hbad
        exact not_correct_enable h hb hdel hactive hbad
    · simp only [Allowed, Classical.not_imp, not_not] at ha
      obtain ⟨hrun, he, hfreed⟩ := ha
      rw [step, if_pos hrun, call, if_pos he]
      exact not_correct_free h hfreed
  · exact absurd trivial ha

/-- Exactly the runs that keep to the rules have at most one block for an event at any time. -/
theorem run_defer_correct_iff (as : List Action) :
    EachState step Correct .initial as ↔ EachStep step Allowed .initial as :=
  eachState_iff (fun _ h => h.correct) (fun _ _ h _ ha => h.step ha)
    (fun _ _ h _ ha => not_correct_of_not_allowed h ha) .initial (eachStep_true _ _)

/-- A client disables the event that it made and enables it again before its block has run. -/
theorem run_enabled_again :
    ([Action.submit, .begin, .call .new, .call (.enable 0 0), .call (.enable 0 1)].foldl step
        .initial).queue = [.client, .fire 0, .fire 0] ∧
      ¬ EachState step Correct .initial
        [.submit, .begin, .call .new, .call (.enable 0 0), .call (.enable 0 1)] := by
  refine ⟨rfl, fun h => ?_⟩
  have hcorrect := eachState_iff_foldl.1 h _ List.prefix_rfl
  exact absurd (hcorrect.atMostOne 0) (by decide)

end Correct

end Darling.PADispatchMainLoop
