import Darling.FSEvents
import Darling.Runs

/-!
# When every event reaches the client once

`_readEvents` takes the first event of what `read` returned and drops the others, so a run accounts
for all events exactly if no read returns a known event behind its first one, the numbers do not run
out, and no two invocations of `_doCallback` pass the same arrays.
-/

namespace Darling.FSEvents

open List
open Invocation (items)

variable {cfg : Config} {s : Stream} {evt : InotifyEvent} {n : ℕ} {rest : List InotifyEvent}

theorem item_eq_none : cfg.item evt = none ↔ cfg.wdMap evt.wd = none := Option.map_eq_none_iff

theorem grow_eq {α : Type} {x v : α} {a : List α} (h : a.length = n) (hn : n + 1 < 2 ^ 31) :
    grow x a (n + 1) v = a ++ [v] := by
  rw [grow, if_pos hn, Nat.add_sub_cancel, ← h, take_length, Nat.sub_self, replicate_zero,
    append_nil]

/-- The arrays, the numbers and the suspensions of a stream between steps. -/
structure Stream.Invariant (cfg : Config) (s : Stream) : Prop where
  accounted : s.Accounted cfg
  flags_length : s.flagArray.length = s.pathArray.length
  ids_length : s.idArray.length = s.pathArray.length
  ids : s.calls.flatMap Invocation.ids ++ s.gatheredIds = List.range' 1 s.lastEventID
  lastEventID_lt : s.lastEventID < 2 ^ 64
  suspensions : s.suspensions = s.active + if s.running then 0 else 1
  reading : s.reading → s.active = 0

theorem invariant_init : Stream.init.Invariant cfg where
  accounted := ⟨rfl, ⟨0, rfl⟩, nofun, fun h => absurd rfl h⟩
  flags_length := rfl
  ids_length := rfl
  ids := rfl
  lastEventID_lt := by decide
  suspensions := rfl
  reading := nofun

theorem filterMap_pending (h : s.pending = evt :: rest) (hn : 0 < n) :
    s.pending.filterMap cfg.item = (cfg.item evt).toList ++
      ((s.pending.take n).tail.filterMap cfg.item ++ (s.pending.drop n).filterMap cfg.item) := by
  obtain ⟨m, rfl⟩ : ∃ m, n = m + 1 := ⟨n - 1, by omega⟩
  rw [← filterMap_append, h, take_succ_cons, tail_cons, drop_succ_cons,
    take_append_drop, filterMap_cons]
  rcases cfg.item evt with _ | i <;> rfl

theorem Stream.Readable.pending_eq (h : s.Readable n) : ∃ evt rest, s.pending = evt :: rest := by
  obtain ⟨-, hpos, hle, -⟩ := h
  exact exists_cons_of_ne_nil (ne_nil_of_length_pos (Nat.lt_of_lt_of_le hpos hle))

theorem read_of_unknown (h : s.pending = evt :: rest) (hi : cfg.item evt = none) :
    s.read cfg n = { s with pending := s.pending.drop n } := by
  rw [Stream.read, h]
  simp [Stream.processSingleEvent, hi]

theorem Stream.Invariant.read_of_known {path : Bytes} {flags : UInt32} (hs : s.Invariant cfg)
    (h : s.pending = evt :: rest) (hi : cfg.item evt = some (path, flags))
    (hroom : s.pathArray.length + 1 < 2 ^ 31) :
    s.read cfg n = { s with
      pending := s.pending.drop n
      pathArray := s.pathArray ++ [path]
      flagArray := s.flagArray ++ [flags]
      lastEventID := (s.lastEventID + 1) % 2 ^ 64
      idArray := s.idArray ++ [(s.lastEventID + 1) % 2 ^ 64] } := by
  rw [Stream.read, h]
  simp [Stream.processSingleEvent, hi, grow_eq hs.flags_length hroom, grow_eq hs.ids_length hroom]

/-- The arrays have room for the first event, if it is a known one. -/
def Stream.Room (cfg : Config) (s : Stream) : Prop :=
  ∀ evt ∈ s.pending.head?, cfg.wdMap evt.wd ≠ none → s.pathArray.length + 1 < 2 ^ 31

theorem Stream.Room.lt (h : s.Room cfg) (hp : s.pending = evt :: rest) {i : Bytes × UInt32}
    (hi : cfg.item evt = some i) : s.pathArray.length + 1 < 2 ^ 31 := by
  refine h evt (by rw [hp]; rfl) fun hw => ?_
  rw [item_eq_none.2 hw] at hi
  exact nomatch hi

theorem read_pending (cfg : Config) (s : Stream) (n : ℕ) (h : s.pending = evt :: rest) :
    (s.read cfg n).pending = s.pending.drop n := by
  simp only [Stream.read, h, Stream.processSingleEvent]
  split <;> rfl

theorem Stream.Invariant.read_events (hs : s.Invariant cfg) (h : s.Readable n)
    (hroom : s.Room cfg) :
    (s.read cfg n).calls.flatMap items ++ (s.read cfg n).gathered =
      s.calls.flatMap items ++ s.gathered ++ (s.pending.head?.bind cfg.item).toList := by
  obtain ⟨evt, rest, hp⟩ := h.pending_eq
  have hact := hs.reading h.1
  have hh : s.pending.head?.bind cfg.item = cfg.item evt := by
    rw [hp]
    rfl
  rw [hh]
  rcases hi : cfg.item evt with _ | ⟨path, flags⟩
  · rw [read_of_unknown hp hi, Option.toList_none, append_nil]
    rfl
  · rw [hs.read_of_known hp hi (hroom.lt hp hi)]
    simp only [Stream.gathered, if_pos hact]
    rw [zip_append hs.flags_length.symm, append_assoc]
    rfl

theorem Stream.Invariant.read_account (hs : s.Invariant cfg) (h : s.Readable n)
    (hroom : s.Room cfg) :
    ∃ front, (s.read cfg n).calls.flatMap items ++ (s.read cfg n).gathered ++
        (s.read cfg n).pending.filterMap cfg.item =
          front ++ (s.pending.drop n).filterMap cfg.item ∧
      s.arrived.filterMap cfg.item = front ++ ((s.pending.take n).tail.filterMap cfg.item ++
        (s.pending.drop n).filterMap cfg.item) := by
  obtain ⟨evt, rest, hp⟩ := h.pending_eq
  refine ⟨_, by rw [hs.read_events h hroom, read_pending cfg s n hp], ?_⟩
  have hh : s.pending.head?.bind cfg.item = cfg.item evt := by
    rw [hp]
    rfl
  rw [← hs.accounted.events, filterMap_pending hp h.2.1, hh, ← append_assoc]

theorem read_arrived (cfg : Config) (s : Stream) (n : ℕ) : (s.read cfg n).arrived = s.arrived := by
  unfold Stream.read Stream.processSingleEvent
  split
  · rfl
  · split <;> rfl

theorem Stream.Invariant.read (hs : s.Invariant cfg) (h : s.Readable n)
    (hc : s.Condition cfg (.read n)) : (s.read cfg n).Invariant cfg := by
  obtain ⟨evt, rest, hp⟩ := h.pending_eq
  obtain ⟨htail, hfirst⟩ := hc h
  have hroom : s.Room cfg := fun e he hw => (hfirst e he hw).2
  obtain ⟨front, haft, hbef⟩ := hs.read_account h hroom
  have hnil : (s.pending.take n).tail.filterMap cfg.item = [] :=
    filterMap_eq_nil_iff.2 fun e he => item_eq_none.2 (htail e he)
  rw [hnil, nil_append, ← haft, ← read_arrived cfg s n] at hbef
  have hact := hs.reading h.1
  rcases hi : cfg.item evt with _ | ⟨path, flags⟩
  · rw [read_of_unknown hp hi] at hbef ⊢
    exact ⟨⟨hbef.symm, hs.accounted.ids, hs.accounted.lengths, hs.accounted.due⟩, hs.flags_length,
      hs.ids_length, hs.ids, hs.lastEventID_lt, hs.suspensions, hs.reading⟩
  · have hlt : s.lastEventID + 1 < 2 ^ 64 := by
      refine (hfirst evt (by rw [hp]; rfl) fun hw => ?_).1
      rw [item_eq_none.2 hw] at hi
      exact nomatch hi
    rw [hs.read_of_known hp hi (hroom.lt hp hi), Nat.mod_eq_of_lt hlt] at hbef ⊢
    have hids : s.calls.flatMap Invocation.ids ++ (s.idArray ++ [s.lastEventID + 1]) =
        range' 1 (s.lastEventID + 1) := by
      have := hs.ids
      rw [Stream.gatheredIds, if_pos hact] at this
      rw [← append_assoc, this, range'_1_concat, Nat.add_comm 1]
    refine ⟨⟨hbef.symm, ⟨s.lastEventID + 1, ?_⟩, hs.accounted.lengths, fun _ => Or.inl h.1⟩,
      ?_, ?_, ?_, hlt, hs.suspensions, hs.reading⟩
    · rw [Stream.gatheredIds, if_pos hact]
      exact hids
    · simp [hs.flags_length]
    · simp [hs.ids_length]
    · rw [Stream.gatheredIds, if_pos hact]
      exact hids

/-- Where an array is lost, so are the events in it. -/
theorem Stream.Invariant.room_of_read (hs : s.Invariant cfg) (h : s.Readable n)
    (ha : (s.read cfg n).Accounted cfg) : s.Room cfg := by
  intro e he hw
  by_contra hge
  obtain ⟨evt, rest, hp⟩ := h.pending_eq
  rw [hp] at he
  obtain rfl := Option.some.inj he
  obtain ⟨i, hi⟩ := Option.ne_none_iff_exists'.1 (mt item_eq_none.1 hw)
  have hlost : (s.read cfg n).calls = s.calls ∧ (s.read cfg n).gathered = [] := by
    simp only [Stream.read, hp, Stream.processSingleEvent, hi, Stream.gathered, grow, if_neg hge,
      zip_nil_right, ite_self, and_self]
  have hlen := congrArg length (ha.events.trans
    ((congrArg _ (read_arrived cfg s n)).trans hs.accounted.events.symm))
  rw [hlost.1, hlost.2, read_pending cfg s n hp, filterMap_pending hp h.2.1, hi] at hlen
  simp only [length_append, length_nil, Option.toList_some, length_singleton] at hlen
  omega

theorem Stream.Invariant.not_read (hs : s.Invariant cfg)
    (hc : ¬ s.Condition cfg (.read n)) : s.Readable n ∧ ¬ (s.read cfg n).Accounted cfg := by
  obtain ⟨h, hc⟩ := Classical.not_imp.1 hc
  refine ⟨h, fun ha => ?_⟩
  have hroom := hs.room_of_read h ha
  refine hc ⟨fun e he => ?_, fun e he hw => ⟨?_, hroom e he hw⟩⟩
  · -- a known event behind the first one is in the account before, and not in the one after
    obtain ⟨front, haft, hbef⟩ := hs.read_account h hroom
    rw [← read_arrived cfg s n, ← ha.events, haft] at hbef
    have hnil : (s.pending.take n).tail.filterMap cfg.item = [] := by
      have := congrArg length hbef
      simp only [length_append] at this
      exact eq_nil_of_length_eq_zero (by omega)
    exact item_eq_none.1 (filterMap_eq_nil_iff.1 hnil e he)
  · obtain ⟨evt, rest, hp⟩ := h.pending_eq
    rw [hp] at he
    obtain rfl := Option.some.inj he
    rcases hi : cfg.item evt with _ | ⟨path, flags⟩
    · exact absurd (item_eq_none.1 hi) hw
    · by_contra hge
      have hlast : s.lastEventID + 1 = 2 ^ 64 := by
        have := hs.lastEventID_lt
        omega
      obtain ⟨k, hk⟩ := ha.ids
      rw [hs.read_of_known hp hi (hroom.lt hp hi), hlast] at hk
      simp only [Stream.gatheredIds, if_pos (hs.reading h.1), Nat.mod_self] at hk
      have hmem : 0 ∈ range' 1 k := by
        rw [← hk]
        simp
      exact absurd (mem_range'_1.1 hmem).1 (by omega)

theorem gathered_beginCallback (s : Stream) (onQueue : Bool) :
    (s.beginCallback onQueue).gathered = [] := if_neg (Nat.succ_ne_zero s.active)

theorem gatheredIds_beginCallback (s : Stream) (onQueue : Bool) :
    (s.beginCallback onQueue).gatheredIds = [] := if_neg (Nat.succ_ne_zero s.active)

theorem items_beginCallback (s : Stream) (onQueue : Bool) :
    (s.beginCallback onQueue).calls.flatMap items =
      s.calls.flatMap items ++ s.pathArray.zip s.flagArray := by
  simp [Stream.beginCallback, items]

theorem ids_beginCallback (s : Stream) (onQueue : Bool) :
    (s.beginCallback onQueue).calls.flatMap Invocation.ids =
      s.calls.flatMap Invocation.ids ++ s.idArray := by
  simp [Stream.beginCallback]

section

variable (hs : s.Invariant cfg)

include hs

theorem Stream.Invariant.beginCallback {onQueue : Bool} (h : s.Due onQueue)
    (hc : s.Condition cfg (.beginCallback onQueue)) : (s.beginCallback onQueue).Invariant cfg := by
  have hitems : s.gathered = s.pathArray.zip s.flagArray := by
    rcases hc h with hact | hnil
    · rw [Stream.gathered, if_pos hact]
    · rw [Stream.gathered, hnil, zip_nil_left, ite_self]
  have hids : s.gatheredIds = s.idArray := by
    rcases hc h with hact | hnil
    · rw [Stream.gatheredIds, if_pos hact]
    · have hlen := hs.ids_length
      rw [hnil] at hlen
      rw [Stream.gatheredIds, eq_nil_of_length_eq_zero hlen, ite_self]
  have hevents : (s.beginCallback onQueue).calls.flatMap items ++
      (s.beginCallback onQueue).gathered = s.calls.flatMap items ++ s.gathered := by
    rw [gathered_beginCallback, append_nil, items_beginCallback, hitems]
  have hallIds : (s.beginCallback onQueue).calls.flatMap Invocation.ids ++
      (s.beginCallback onQueue).gatheredIds = s.calls.flatMap Invocation.ids ++ s.gatheredIds := by
    rw [gatheredIds_beginCallback, append_nil, ids_beginCallback, hids]
  refine ⟨⟨?_, ⟨s.lastEventID, hallIds.trans hs.ids⟩, ?_, fun _ => ?_⟩, hs.flags_length,
    hs.ids_length, hallIds.trans hs.ids, hs.lastEventID_lt, ?_, ?_⟩
  · rw [hevents]
    exact hs.accounted.events
  · intro c hcall
    rcases mem_append.1 hcall with hcall | hcall
    · exact hs.accounted.lengths c hcall
    · rw [mem_singleton.1 hcall]
      exact ⟨rfl, hs.flags_length, hs.ids_length⟩
  · exact Or.inr (Or.inr (Or.inr (Nat.succ_pos _)))
  · change s.suspensions + 1 = s.active + 1 + _
    rw [hs.suspensions]
    exact Nat.add_right_comm _ _ _
  · exact fun hr => absurd (h.1.symm.trans hr) nofun

theorem Stream.Invariant.not_beginCallback {onQueue : Bool}
    (hc : ¬ s.Condition cfg (.beginCallback onQueue)) :
    s.Due onQueue ∧ ¬ (s.beginCallback onQueue).Accounted cfg := by
  obtain ⟨h, hc⟩ := Classical.not_imp.1 hc
  rw [not_or] at hc
  refine ⟨h, fun ha => hc.2 ?_⟩
  have hlen := congrArg length (ha.events.trans hs.accounted.events.symm)
  rw [gathered_beginCallback, items_beginCallback, Stream.gathered, if_neg hc.1] at hlen
  simp only [length_append, length_zip, hs.flags_length, Nat.min_self, length_nil] at hlen
  change _ + s.pathArray.length + 0 + (s.pending.filterMap cfg.item).length = _ at hlen
  exact eq_nil_of_length_eq_zero (by omega)

theorem Stream.Invariant.endCallback (h : 0 < s.active) : s.endCallback.Invariant cfg := by
  have hne : s.active ≠ 0 := by omega
  have hev := hs.accounted.events
  have hids := hs.ids
  rw [Stream.gathered, if_neg hne] at hev
  rw [Stream.gatheredIds, if_neg hne] at hids
  have hg : s.endCallback.gathered = [] := ite_self _
  have hgi : s.endCallback.gatheredIds = [] := ite_self _
  refine ⟨⟨?_, ⟨s.lastEventID, ?_⟩, hs.accounted.lengths, fun h => absurd rfl h⟩, rfl, rfl, ?_,
    hs.lastEventID_lt, ?_, fun hr => ?_⟩
  · rw [hg]
    exact hev
  · rw [hgi]
    exact hids
  · rw [hgi]
    exact hids
  · change s.suspensions - 1 = s.active - 1 + _
    rw [hs.suspensions]
    exact (Nat.sub_add_comm h)
  · exact absurd (hs.reading hr) hne

theorem Stream.Invariant.control {r u q g : Bool} {k : ℕ}
    (hdue : s.pathArray ≠ [] → r ∨ 0 < k ∨ g ∨ 0 < s.active)
    (hsuspensions : n = s.active + if u then 0 else 1) (hreading : r → s.active = 0) :
    Stream.Invariant cfg { s with
      reading := r, suspensions := n, running := u, hasQueue := q, queued := k, signalled := g } :=
  ⟨⟨hs.accounted.events, hs.accounted.ids, hs.accounted.lengths, hdue⟩, hs.flags_length,
    hs.ids_length, hs.ids, hs.lastEventID_lt, hsuspensions, hreading⟩

theorem Stream.Invariant.dispatchEvents :
    Stream.Invariant cfg { s with reading := false }.dispatchEvents := by
  rw [Stream.dispatchEvents]
  split_ifs with hq
  · exact hs.control (fun _ => Or.inr (Or.inl (Nat.succ_pos _))) hs.suspensions nofun
  · exact hs.control (fun _ => Or.inr (Or.inr (Or.inl rfl))) hs.suspensions nofun

theorem Stream.Invariant.arrive (evt : InotifyEvent) : Stream.Invariant cfg { s with
      pending := s.pending ++ [evt], arrived := s.arrived ++ [evt] } := by
  refine ⟨⟨?_, hs.accounted.ids, hs.accounted.lengths, hs.accounted.due⟩, hs.flags_length,
    hs.ids_length, hs.ids, hs.lastEventID_lt, hs.suspensions, hs.reading⟩
  rw [filterMap_append, filterMap_append, ← append_assoc, ← hs.accounted.events]
  rfl

theorem Stream.Invariant.ite {c : Prop} [Decidable c] {t : Stream} (h : c → t.Invariant cfg) :
    (if c then t else s).Invariant cfg := by
  split_ifs with hc
  · exact h hc
  · exact hs

theorem Stream.Invariant.step {a : Action} (hc : s.Condition cfg a) :
    (s.step cfg a).Invariant cfg := by
  have hsusp := hs.suspensions
  rcases a with evt | _ | _ | hasQueue | _ | n | _ | onQueue | _
  case arrive => exact hs.arrive evt
  case start =>
    rw [Stream.step]
    split_ifs with hr
    · exact hs
    · rw [if_neg hr] at hsusp
      exact hs.control hs.accounted.due (Nat.sub_eq_of_eq_add hsusp) hs.reading
  case stop =>
    refine hs.ite fun hr => ?_
    rw [if_pos hr] at hsusp
    exact hs.control hs.accounted.due (congrArg (· + 1) hsusp) hs.reading
  case setDispatchQueue => exact hs.control hs.accounted.due hsusp hs.reading
  case fire =>
    refine hs.ite fun hf => hs.control (fun _ => Or.inl rfl) hsusp fun _ => ?_
    rw [hf.1] at hsusp
    exact (Nat.add_eq_zero_iff.1 hsusp.symm).1
  case read => exact hs.ite fun h => hs.read h hc
  case again => exact hs.ite fun _ => hs.dispatchEvents
  case beginCallback => exact hs.ite fun h => hs.beginCallback h hc
  case endCallback => exact hs.ite fun h => hs.endCallback h

theorem Stream.Invariant.not_step {a : Action} (hc : ¬ s.Condition cfg a) :
    ¬ (s.step cfg a).Accounted cfg := by
  rcases a with evt | _ | _ | hasQueue | _ | n | _ | onQueue | _
  case read =>
    obtain ⟨h, ha⟩ := hs.not_read hc
    rwa [Stream.step, if_pos h]
  case beginCallback =>
    obtain ⟨h, ha⟩ := hs.not_beginCallback hc
    rwa [Stream.step, if_pos h]
  all_goals exact absurd trivial hc

end

/-- A run accounts for all events in every state exactly if every step meets the condition. -/
theorem run_events_accounted_iff (cfg : Config) (actions : List Action) :
    EachState (Stream.step cfg) (Stream.Accounted cfg) Stream.init actions ↔
      EachStep (Stream.step cfg) (Stream.Condition cfg) Stream.init actions :=
  eachState_iff (fun _ hs => Stream.Invariant.accounted hs)
    (fun _ _ hs _ hc => hs.step hc) (fun _ _ hs _ hc => hs.not_step hc) invariant_init
    (eachStep_true _ _)

def watchOne : Config := ⟨fun wd => if wd = 1 then some [slash, 119] else none, false⟩

def twoCreated : List Action :=
  [.start, .arrive ⟨1, inCreate, 16, [97]⟩, .arrive ⟨1, inCreate, 16, [98]⟩, .fire, .read 2]

theorem run_second_lost :
    ¬ EachState (Stream.step watchOne) (Stream.Accounted watchOne) Stream.init twoCreated := by
  rw [eachState_iff_foldl]
  intro h
  exact absurd (h twoCreated List.prefix_rfl).events (by decide)

end Darling.FSEvents
