import Darling.PlistBuddy
import Darling.Proofs.Plist

/-!
# The commands of PlistBuddy change one entry

The loop over the tokens of an entry ends at the parent of the entry, in a tree that has grown only
along the way to it.  From this follows what an added, set or deleted entry is, and that all others
are as before.
-/

namespace Darling.PlistBuddy

open List Option
open Except (ok.inj)
open Plist (put addValue replaceValue child at?_cons at?_append at?_put at?_put_self
  at?_put_along at?_put_of_apart Step Position Apart)

/-- The rest of the entry, as the loop still has it. -/
def pending : List Token → Option Bytes
  | [] => none
  | tokens => some ([58].intercalate (tokens.map Token.bytes))

theorem Token.bne (tok : Token) : ∀ c ∈ tok.bytes, (c != 58) = true := by
  intro c hc
  rw [bne_iff_ne]
  exact fun h => tok.colon_notMem (h ▸ hc)

theorem Token.dropWhile_append (tok : Token) (s : Bytes) :
    (tok.bytes ++ s).dropWhile (· == 58) = tok.bytes ++ s := by
  obtain ⟨c, cs, h⟩ := exists_cons_of_ne_nil tok.ne_nil
  have hc := tok.bne c (h ▸ mem_cons_self)
  rw [h, cons_append, dropWhile_cons_of_neg]
  simpa using hc

theorem strtokEmpty_append (tok : Token) (s : Bytes) :
    strtokEmpty 58 (some (tok.bytes ++ 58 :: s)) = some (tok.bytes, some s) := by
  rw [strtokEmpty, tok.dropWhile_append, takeWhile_append_of_pos tok.bne,
    dropWhile_append_of_pos tok.bne]
  simp

theorem strtokEmpty_last (tok : Token) :
    strtokEmpty 58 (some tok.bytes) = some (tok.bytes, none) := by
  have h := tok.dropWhile_append []
  rw [append_nil] at h
  rw [strtokEmpty, h, takeWhile_eq_self_iff.2 tok.bne, dropWhile_eq_nil_iff.2 tok.bne]

theorem intercalate_cons_cons (tok tok' : Token) (tokens : List Token) :
    [58].intercalate ((tok :: tok' :: tokens).map Token.bytes) =
      tok.bytes ++ 58 :: [58].intercalate ((tok' :: tokens).map Token.bytes) := by
  simp [intercalate]

theorem strtokEmpty_pending (tok : Token) : ∀ tokens : List Token,
    strtokEmpty 58 (pending (tok :: tokens)) = some (tok.bytes, pending tokens)
  | [] => by
    have := strtokEmpty_last tok
    simpa [pending] using this
  | tok' :: tokens => by
    rw [pending, intercalate_cons_cons, strtokEmpty_append]
    · rfl
    · exact nofun

theorem exists_intercalate_cons (tok : Token) : ∀ tokens : List Token,
    ∃ s, [58].intercalate ((tok :: tokens).map Token.bytes) = tok.bytes ++ s
  | [] => ⟨[], by simp⟩
  | tok' :: tokens => ⟨_, intercalate_cons_cons tok tok' tokens⟩

theorem exists_intercalate_concat (leaf : Token) : ∀ tokens : List Token,
    ∃ s, [58].intercalate ((tokens ++ [leaf]).map Token.bytes) = s ++ leaf.bytes
  | [] => ⟨[], by simp⟩
  | [tok] => ⟨tok.bytes ++ [58], by simp [intercalate]⟩
  | tok :: tok' :: tokens => by
    obtain ⟨s, hs⟩ := exists_intercalate_concat leaf (tok' :: tokens)
    refine ⟨tok.bytes ++ 58 :: s, (intercalate_cons_cons tok tok' (tokens ++ [leaf])).trans ?_⟩
    rw [← cons_append, hs, append_assoc, cons_append]

theorem length_le_intercalate : ∀ tokens : List Token,
    tokens.length ≤ ([58].intercalate (tokens.map Token.bytes)).length
  | [] => Nat.zero_le _
  | [tok] => by
    have := length_pos_iff.2 tok.ne_nil
    rw [map_singleton, intercalate_singleton, length_singleton]
    exact this
  | tok :: tok' :: tokens => by
    have ih := length_le_intercalate (tok' :: tokens)
    rw [intercalate_cons_cons, length_append, length_cons, length_cons]
    exact Nat.le_add_left_of_le (Nat.succ_le_succ ih)

theorem trim_entryText (before after : ℕ) (tokens : List Token) (leaf : Token) :
    trim (entryText before (tokens ++ [leaf]) after) =
      [58].intercalate ((tokens ++ [leaf]).map Token.bytes) := by
  obtain ⟨tok, tokens', ht⟩ := exists_cons_of_ne_nil (concat_ne_nil leaf tokens)
  obtain ⟨s, hs⟩ := exists_intercalate_cons tok tokens'
  obtain ⟨s', hs'⟩ := exists_intercalate_concat leaf tokens
  rw [← ht] at hs
  have hlast : leaf.bytes.getLast leaf.ne_nil ≠ 58 := fun h =>
    leaf.colon_notMem (h ▸ getLast_mem leaf.ne_nil)
  rw [trim, entryText, append_assoc, dropWhile_append_of_pos (by simp), hs,
    append_assoc, tok.dropWhile_append, ← append_assoc, ← hs, hs', rdropWhile,
    reverse_append, dropWhile_append_of_pos (by simp), ← rdropWhile,
    rdropWhile_eq_self_iff]
  intro hne
  rw [getLast_append_of_ne_nil hne leaf.ne_nil]
  simpa using hlast

def walk : List Token → Plist → Option Position
  | [], _ => some []
  | tok :: tokens, t =>
    (nextStep tok.bytes t).bind fun s => (t.child s).bind fun c => (walk tokens c).map (s :: ·)

variable {t T c v node node' : Plist} {p q : Position} {s : Step} {tok leaf : Token}
  {tokens : List Token}

section

variable {tok : Bytes} (h : nextStep tok t = some s)

include h

theorem nextStep_eq_some :
    (∃ entries c, t = .dict entries ∧ s = .key tok ∧ entries.lookup tok = some c) ∨
      ∃ items c, t = .array items ∧ s = .index (atoi tok).toNat ∧ 0 ≤ atoi tok ∧
        atoi tok < items.length ∧ items[(atoi tok).toNat]? = some c := by
  unfold nextStep at h
  split at h
  · rename_i entries
    split_ifs at h with hs
    obtain ⟨c, hc⟩ := isSome_iff_exists.1 hs
    exact Or.inl ⟨entries, c, rfl, (some.inj h).symm, hc⟩
  · rename_i items
    split_ifs at h with hi
    have hlt : (atoi tok).toNat < items.length := by omega
    exact Or.inr ⟨items, _, rfl, (some.inj h).symm, by omega, by omega, getElem?_eq_getElem hlt⟩
  · exact nomatch h

theorem child_nextStep : ∃ c, t.child s = some c := by
  rcases nextStep_eq_some h with ⟨entries, c, rfl, rfl, hc⟩ | ⟨items, c, rfl, rfl, -, -, hc⟩
  · exact ⟨c, hc⟩
  · exact ⟨c, hc⟩

theorem nextStep_put : nextStep tok (put v (s :: p) t) = some s := by
  rcases nextStep_eq_some h with ⟨entries, c, rfl, rfl, hc⟩ | ⟨items, c, rfl, rfl, hi, hlt, -⟩
  · rw [put, nextStep, Plist.lookup_modifyValue_self, hc]
    rfl
  · rw [put, nextStep, length_modify, if_neg (by omega)]

end

theorem walk_cons : walk (tok :: tokens) t = (nextStep tok.bytes t).bind fun s =>
    (t.child s).bind fun c => (walk tokens c).map (s :: ·) := rfl

theorem walk_put : ∀ {tokens : List Token} {p : Position} {t : Plist},
    walk tokens t = some p → walk tokens (put v p t) = some p
  | [], _, _, h => h
  | tok :: tokens, p, t, h => by
    rw [walk_cons, bind_eq_some_iff] at h
    obtain ⟨s, hs, h⟩ := h
    obtain ⟨c, hc, h⟩ := bind_eq_some_iff.1 h
    obtain ⟨p, hp, rfl⟩ := map_eq_some_iff.1 h
    rw [walk_cons, nextStep_put hs, bind_some, Plist.child_put_self, hc, map_some,
      bind_some, walk_put hp, map_some]

theorem walk_concat : ∀ (tokens : List Token) (t : Plist), walk (tokens ++ [tok]) t =
    (walk tokens t).bind fun p => ((t.at? p).bind (nextStep tok.bytes)).map (p ++ [·])
  | [], t => by
    rw [nil_append, walk_cons]
    rcases hs : nextStep tok.bytes t with _ | s
    · simp [walk, hs]
    · obtain ⟨c, hc⟩ := child_nextStep hs
      simp [walk, hs, hc]
  | tok' :: tokens, t => by
    rw [cons_append, walk_cons, walk_cons, bind_assoc]
    refine bind_congr fun s _ => ?_
    rw [bind_assoc]
    refine bind_congr fun c hc => ?_
    rw [walk_concat tokens c, bind_map, map_bind]
    refine bind_congr fun p _ => ?_
    rw [Function.comp_apply, Function.comp_apply, at?_cons, hc, bind_some, Option.map_map]
    rfl

theorem walk_append_eq_none (h : walk tokens t = none) (more : List Token) :
    walk (tokens ++ more) t = none := by
  induction more using reverseRecOn with
  | nil => rwa [append_nil]
  | append_singleton more tok ih => rw [← append_assoc, walk_concat, ih, bind_none]

theorem sameApart_put (h : T.at? p = some node) : SameApart p T (put node' p T) := by
  refine ⟨fun q => at?_put_of_apart, ?_⟩
  rintro q ⟨_ | ⟨s, r⟩, rfl⟩ hne
  · exact absurd (append_nil q).symm hne
  rw [at?_append, bind_eq_some_iff] at h
  obtain ⟨c, hq, h⟩ := h
  obtain ⟨d, hd, -⟩ := bind_eq_some_iff.1 h
  exact ⟨_, by rw [at?_put_along, hq, map_some], by rw [hq]; exact Plist.sameKind_put hd⟩

theorem SameApart.trans {t'' : Plist} (h : SameApart p t T) (h' : SameApart p T t'') :
    SameApart p t t'' := by
  refine ⟨fun q hq => (h'.apart q hq).trans (h.apart q hq), fun q hp hne => ?_⟩
  obtain ⟨node, hn, hk⟩ := h.along q hp hne
  obtain ⟨node', hn', hk'⟩ := h'.along q hp hne
  rw [hn] at hk'
  exact ⟨node', hn', hk.trans hk'⟩

theorem sameApart_child (h : SameApart p t T) (hn : T.at? p = some node)
    (hk : ((t.at? p).getD (.dict [])).SameKind node)
    (hc : ∀ s', s' ≠ s → ∀ q, T.at? (p ++ s' :: q) = t.at? (p ++ s' :: q)) :
    SameApart (p ++ [s]) t T := by
  refine ⟨fun q hq => ?_, fun q hp hne => ?_⟩
  · rcases hq.parent with hq | ⟨s', r, hs, rfl⟩
    · exact h.apart q hq
    · exact hc s' hs r
  · have hp := (prefix_concat_iff.1 hp).resolve_left hne
    by_cases hq : q = p
    · exact hq ▸ ⟨node, hn, hk⟩
    · exact h.along q hp hq

theorem sameApart_put_child (h : T.at? p = some node) (hk : node.SameKind node')
    (hc : ∀ s', s' ≠ s → node'.child s' = node.child s') :
    SameApart (p ++ [s]) T (put node' p T) := by
  refine sameApart_child (sameApart_put h) (at?_put_self h) (by rwa [h]) fun s' hs q => ?_
  rw [at?_put h, at?_append, h, bind_some, at?_cons, at?_cons, hc s' hs]

structure Grown (t : Plist) (tokens : List Token) (T : Plist) (p : Position) : Prop where
  leads : walk tokens T = some p
  apart : SameApart p t T
  fresh : T = t ∨ T.at? p = some (.dict []) ∧ t.at? p = none

theorem Grown.refl (t : Plist) : Grown t [] t [] :=
  ⟨rfl, ⟨fun _ _ => rfl, fun _ h hne => absurd (prefix_nil.1 h) hne⟩, Or.inl rfl⟩

theorem Grown.below (h : Grown t tokens T p) (s : Step) (q : Position) :
    T.at? (p ++ s :: q) = t.at? (p ++ s :: q) := by
  rcases h.fresh with rfl | ⟨hT, ht⟩
  · rfl
  · rw [at?_append, at?_append, hT, ht]
    rcases s with k | i <;> rfl

theorem Grown.apart_child (h : Grown t tokens T p) (hn : T.at? p = some node)
    (hk : node.SameKind node) (s : Step) : SameApart (p ++ [s]) t T := by
  refine sameApart_child h.apart hn ?_ fun s' _ q => h.below s' q
  rcases h.fresh with rfl | ⟨hT, ht⟩
  · rwa [hn]
  · rw [ht, ← some.inj (hT.symm.trans hn)]
    trivial

theorem Grown.next (h : Grown t tokens T p) (hn : T.at? p = some node)
    (hs : nextStep tok.bytes node = some s) : Grown t (tokens ++ [tok]) T (p ++ [s]) where
  leads := by rw [walk_concat, h.leads, bind_some, hn, bind_some, hs, map_some]
  apart := by
    refine h.apart_child hn ?_ s
    rcases nextStep_eq_some hs with ⟨_, _, rfl, -⟩ | ⟨_, _, rfl, -⟩ <;> trivial
  fresh := by
    rcases h.fresh with hT | ⟨hT, -⟩
    · exact Or.inl hT
    · rw [hT] at hn
      rw [← some.inj hn] at hs
      exact nomatch hs

variable {entries : List (Bytes × Plist)} {a : Bool} {rest : Option Bytes}

theorem lookup_eq_none_of_nextStep {tok : Bytes}
    (h : nextStep tok (.dict entries) = none) : entries.lookup tok = none := by
  rw [nextStep] at h
  split_ifs at h with hs
  exact not_isSome_iff_eq_none.1 hs

variable {k : Bytes}

theorem child_dict_of_ne {entries' : List (Bytes × Plist)}
    (h : ∀ k', k' ≠ k → entries'.lookup k' = entries.lookup k') (s' : Step) (hs : s' ≠ .key k) :
    (Plist.dict entries').child s' = (Plist.dict entries).child s' := by
  rcases s' with k' | i
  · exact h k' fun he => hs (congrArg _ he)
  · rfl

theorem Grown.apart_addValue (h : Grown t tokens T p) (hn : T.at? p = some (.dict entries)) :
    SameApart (p ++ [.key k]) t (put (.dict (addValue k v entries)) p T) :=
  (h.apart_child hn trivial _).trans
    (sameApart_put_child hn trivial (child_dict_of_ne fun _ => Plist.lookup_addValue_of_ne))

theorem Grown.create (h : Grown t tokens T p) (hn : T.at? p = some (.dict entries))
    (hs : nextStep tok.bytes (.dict entries) = none) :
    Grown t (tokens ++ [tok])
      (put (.dict (addValue tok.bytes (.dict []) entries)) p T)
      (p ++ [.key tok.bytes]) := by
  have hl := lookup_eq_none_of_nextStep hs
  have hl' := Plist.lookup_addValue_self (v := .dict []) hl
  refine ⟨?_, h.apart_addValue hn, Or.inr ⟨?_, ?_⟩⟩
  · rw [walk_concat, walk_put h.leads, bind_some, at?_put_self hn, bind_some, nextStep, hl']
    rfl
  · rw [at?_put hn, at?_cons, child, hl']
    rfl
  · rw [← h.below, at?_append, hn, bind_some, at?_cons, child, hl]
    rfl

variable {c : Cursor}

theorem advance_found (hn : c.plist.at? p = some node) (hs : nextStep tok.bytes node = some s) :
    c.advance a tok.bytes rest p = ⟨c.plist, some (p ++ [s]), some p, tok.bytes⟩ := by
  simp [Cursor.advance, if_neg tok.ne_nil, hn, hs]

theorem advance_missing (h : (a && rest.isSome) = false ∨ ∀ entries, node ≠ .dict entries)
    (hn : c.plist.at? p = some node) (hs : nextStep tok.bytes node = none) :
    c.advance a tok.bytes rest p = ⟨c.plist, none, some p, tok.bytes⟩ := by
  simp only [Cursor.advance, if_neg tok.ne_nil, hn, hs]
  rcases node with _ | _ | _ | _ | _ | _ | _ | items | entries <;> try rfl
  rcases h with h | h
  · simp only [h]
    rfl
  · exact absurd rfl (h entries)

theorem advance_create (h : rest.isSome) (hn : c.plist.at? p = some (.dict entries))
    (hs : nextStep tok.bytes (.dict entries) = none) :
    c.advance true tok.bytes rest p =
      ⟨put (.dict (addValue tok.bytes (.dict []) entries)) p c.plist,
        some (p ++ [.key tok.bytes]), some p, tok.bytes⟩ := by
  simp only [Cursor.advance, if_neg tok.ne_nil, hn, hs, h]
  rfl

theorem advance_leaf (hn : c.plist.at? p = some node) : c.advance a leaf.bytes none p =
      ⟨c.plist, (nextStep leaf.bytes node).map (p ++ [·]), some p, leaf.bytes⟩ := by
  rcases hs : nextStep leaf.bytes node with _ | s
  · exact advance_missing (Or.inl (Bool.and_false a)) hn hs
  · exact advance_found hn hs

theorem walk_at? : ∀ {tokens : List Token} {t : Plist} {p : Position}, walk tokens t = some p →
    ∃ c, t.at? p = some c
  | [], t, _, h => ⟨t, by rw [← some.inj h]; rfl⟩
  | tok :: tokens, t, p, h => by
    rw [walk_cons, bind_eq_some_iff] at h
    obtain ⟨s, -, h⟩ := h
    obtain ⟨c, hc, h⟩ := bind_eq_some_iff.1 h
    obtain ⟨p, hp, rfl⟩ := map_eq_some_iff.1 h
    obtain ⟨d, hd⟩ := walk_at? hp
    exact ⟨d, by rw [at?_cons, hc, bind_some, hd]⟩

theorem Grown.advance (hr : rest.isSome) (h : Grown t tokens c.plist p)
    (ha : a = false → c.plist = t) :
    (∃ T p', c.advance a tok.bytes rest p = ⟨T, some p', some p, tok.bytes⟩ ∧
        Grown t (tokens ++ [tok]) T p' ∧ (a = false → T = t)) ∨
      c.advance a tok.bytes rest p = ⟨t, none, some p, tok.bytes⟩ ∧
        walk (tokens ++ [tok]) t = none := by
  obtain ⟨node, hn⟩ := walk_at? h.leads
  rcases hs : nextStep tok.bytes node with _ | s
  · by_cases hc : a = true ∧ ∃ entries, node = .dict entries
    · obtain ⟨rfl, entries, rfl⟩ := hc
      exact Or.inl ⟨_, _, advance_create hr hn hs, h.create hn hs, nofun⟩
    · have ht : c.plist = t := by
        rcases h.fresh with ht | ⟨hT, -⟩
        · exact ht
        · rw [hn] at hT
          exact ha (Bool.eq_false_iff.2 fun h => hc ⟨h, [], some.inj hT⟩)
      have hm : (a && rest.isSome) = false ∨ ∀ entries, node ≠ .dict entries := by
        rcases a with _ | _
        · exact Or.inl rfl
        · exact Or.inr fun entries he => hc ⟨rfl, entries, he⟩
      refine Or.inr ⟨ht ▸ advance_missing hm hn hs, ?_⟩
      rw [← ht, walk_concat, h.leads, bind_some, hn, bind_some, hs, map_none]
  · exact Or.inl ⟨_, _, advance_found hn hs, h.next hn hs, ha⟩

theorem resolveLoop_nil (a : Bool) (fuel : ℕ) (c : Cursor) :
    resolveLoop a fuel (pending []) c = (none, c) := by
  rcases fuel with _ | fuel <;> rfl

theorem resolveLoop_cons (a : Bool) (fuel : ℕ) (h : c.pos = some p) :
    resolveLoop a (fuel + 1) (pending (tok :: tokens)) c =
      resolveLoop a fuel (pending tokens) (c.advance a tok.bytes (pending tokens) p) := by
  rw [resolveLoop, strtokEmpty_pending, h]

theorem resolveLoop_stop (a : Bool) (fuel : ℕ) (h : c.pos = none) :
    resolveLoop a (fuel + 1) (pending (tok :: tokens)) c = (some tok.bytes, c) := by
  rw [resolveLoop, strtokEmpty_pending, h]

theorem pending_isSome (tokens : List Token) (leaf : Token) :
    (pending (tokens ++ [leaf])).isSome := by
  rcases tokens with _ | ⟨tok, tokens⟩ <;> rfl

theorem resolveLoop_spec (a : Bool) (t : Plist) (leaf : Token) : ∀ (tokens done : List Token)
    (fuel : ℕ) (c : Cursor) (p : Position), tokens.length < fuel → c.pos = some p →
    Grown t done c.plist p → (a = false → c.plist = t) →
    (∃ T P node, Grown t (done ++ tokens) T P ∧ (a = false → T = t) ∧ T.at? P = some node ∧
      resolveLoop a fuel (pending (tokens ++ [leaf])) c =
        (none, ⟨T, (nextStep leaf.bytes node).map (P ++ [·]), some P, leaf.bytes⟩)) ∨
    walk (done ++ tokens) t = none ∧ ∃ tok c', c'.plist = t ∧ c'.pos = none ∧
      resolveLoop a fuel (pending (tokens ++ [leaf])) c = (some tok, c')
  | [], done, fuel + 1, c, p, _, hp, h, ha => by
    obtain ⟨node, hn⟩ := walk_at? h.leads
    refine Or.inl ⟨c.plist, p, node, by rwa [append_nil], ha, hn, ?_⟩
    rw [nil_append, resolveLoop_cons a fuel hp, resolveLoop_nil]
    exact congrArg _ (advance_leaf hn)
  | tok :: tokens, done, fuel + 1, c, p, hf, hp, h, ha => by
    have hf : tokens.length < fuel := Nat.lt_of_succ_lt_succ hf
    rw [cons_append, resolveLoop_cons a fuel hp, append_cons]
    rcases h.advance (pending_isSome tokens leaf) ha with
      ⟨T, p', he, hg, hT⟩ | ⟨he, hw⟩
    · rw [he]
      exact resolveLoop_spec a t leaf tokens (done ++ [tok]) fuel _ p' hf rfl hg hT
    · obtain ⟨fuel, rfl⟩ : ∃ n, fuel = n + 1 := ⟨fuel - 1, by omega⟩
      obtain ⟨tok', tokens', ht⟩ := exists_cons_of_ne_nil (concat_ne_nil leaf tokens)
      refine Or.inr ⟨walk_append_eq_none hw tokens, tok'.bytes,
        ⟨t, none, some p, tok.bytes⟩, rfl, rfl, ?_⟩
      rw [he, ht]
      exact resolveLoop_stop a fuel rfl

section Entry

variable {t' : Plist} {entries : List (Bytes × Plist)} {lib : Library} {value : Bytes}

theorem editParent_ok {r : Resolved} {missing : Failure}
    {edit : Bytes → Plist → Except Failure Plist} (hp : r.parent = some p)
    (hn : r.plist.at? p = some node) (h : r.editParent missing edit = (t', none)) :
    ∃ node', edit r.last node = .ok node' ∧ t' = put node' p r.plist := by
  rw [Resolved.editParent, hp] at h
  simp only [hn, elim_some] at h
  rcases he : edit r.last node with e | node'
  · rw [he] at h
    exact nomatch h
  · rw [he] at h
    exact ⟨node', rfl, (congrArg Prod.fst h).symm⟩

theorem addLeaf_ok {leafName : Bytes} {isNew : Bool}
    (h : addLeaf leafName v isNew node = .ok node') : (∃ items, node = .array items ∧
      node' = .array (items.insertIdx (clampIndex (atoi leafName) items.length) v)) ∨
    ∃ entries, node = .dict entries ∧ isNew ∧
      node' = .dict (addValue leafName v entries) := by
  unfold addLeaf at h
  split at h
  · exact Or.inl ⟨_, rfl, (ok.inj h).symm⟩
  · split_ifs at h with hnew
    exact Or.inr ⟨_, rfl, hnew, (ok.inj h).symm⟩
  · split_ifs at h

theorem child_set_of_ne {items : List Plist} {i : ℕ} (s' : Step) (h : s' ≠ .index i) :
    (Plist.array (items.set i v)).child s' = (Plist.array items).child s' := by
  rcases s' with k | j
  · rfl
  · exact getElem?_set_ne fun he => h (congrArg _ he.symm)

theorem setLeaf_spec {tok : Bytes} (hs : nextStep tok node = some s)
    (h : setLeaf tok v node = .ok node') :
    nextStep tok node' = some s ∧ node'.child s = some v ∧ node.SameKind node' ∧
      ∀ s', s' ≠ s → node'.child s' = node.child s' := by
  rcases nextStep_eq_some hs with ⟨entries, c, rfl, rfl, hc⟩ | ⟨items, c, rfl, rfl, hi, hlt, -⟩
  · obtain rfl := ok.inj h
    have hl : (replaceValue tok v entries).lookup tok = some v := by
      rw [replaceValue, Plist.lookup_modifyValue_self, hc]
      rfl
    exact ⟨by rw [nextStep, hl]; rfl, hl, trivial,
      child_dict_of_ne fun _ h => Plist.lookup_modifyValue_of_ne h _ entries⟩
  · rw [setLeaf, if_pos ⟨hi, hlt⟩] at h
    obtain rfl := ok.inj h
    refine ⟨?_, getElem?_set_self (by omega), trivial, child_set_of_ne⟩
    rw [nextStep, length_set, if_neg (by omega)]

variable {before after : ℕ} {entry : Bytes}
  (hentry : entry = entryText before (tokens ++ [leaf]) after)

include hentry

theorem resolvePlistEntry_spec (a : Bool) (t : Plist) :
    (∃ T p node, Grown t tokens T p ∧ (a = false → T = t) ∧ T.at? p = some node ∧
      resolvePlistEntry t entry a =
        ⟨T, some p, (nextStep leaf.bytes node).map (p ++ [·]), leaf.bytes⟩) ∨
    walk tokens t = none ∧ ∃ last, resolvePlistEntry t entry a = ⟨t, none, none, last⟩ := by
  subst hentry
  have hf := length_le_intercalate (tokens ++ [leaf])
  rw [length_append, length_singleton] at hf
  have hp : some ([58].intercalate ((tokens ++ [leaf]).map Token.bytes)) =
      pending (tokens ++ [leaf]) := by
    rcases tokens with _ | ⟨tok, tokens⟩ <;> rfl
  rw [resolvePlistEntry, trim_entryText, hp]
  rcases resolveLoop_spec a t leaf tokens []
    (([58].intercalate ((tokens ++ [leaf]).map Token.bytes)).length + 2)
    ⟨t, some [], none, []⟩ [] (by omega) rfl (Grown.refl t) fun _ => rfl with
    ⟨T, p, node, hg, hT, hn, he⟩ | ⟨hw, tok, c, hc, hpos, he⟩
  · exact Or.inl ⟨T, p, node, hg, hT, hn, by rw [he]; rfl⟩
  · refine Or.inr ⟨hw, c.lastTok, ?_⟩
    rw [he]
    simp only [hc, hpos]
    rfl

theorem resolvePlistEntry_of_walk (h : walk tokens t = some p) (hn : t.at? p = some node) :
    resolvePlistEntry t entry false =
      ⟨t, some p, (nextStep leaf.bytes node).map (p ++ [·]), leaf.bytes⟩ := by
  rcases resolvePlistEntry_spec hentry false t with ⟨T, p', node', hg, hT, hn', he⟩ | ⟨hw, -⟩
  · obtain rfl := hT rfl
    obtain rfl := some.inj (h.symm.trans hg.leads)
    obtain rfl := some.inj (hn.symm.trans hn')
    exact he
  · exact absurd (h.symm.trans hw) nofun

section

variable (h : walk tokens T = some p) (hn : T.at? p = some node)

include h hn

theorem resolvePlistEntry_put : resolvePlistEntry (put node' p T) entry false =
      ⟨put node' p T, some p, (nextStep leaf.bytes node').map (p ++ [·]), leaf.bytes⟩ :=
  resolvePlistEntry_of_walk hentry (walk_put h) (at?_put_self hn)

theorem entryAt_put (hs : nextStep leaf.bytes node' = some s) :
    entryAt (put node' p T) entry = node'.child s := by
  rw [entryAt, resolvePlistEntry_put hentry h hn, hs, map_some, bind_some, at?_put hn, at?_cons]
  exact bind_fun_some _

theorem entryAt_put_of_none (hs : nextStep leaf.bytes node' = none) :
    entryAt (put node' p T) entry = none := by
  rw [entryAt, resolvePlistEntry_put hentry h hn, hs]
  rfl

end

theorem Grown.addLeaf_dict (h : Grown t tokens T p) (hn : T.at? p = some (.dict entries))
    (hs : nextStep leaf.bytes (.dict entries) = none) :
    AddedToDict entry leaf.bytes v t (put (.dict (addValue leaf.bytes v entries)) p T) := by
  have hl := lookup_eq_none_of_nextStep hs
  have hl' := Plist.lookup_addValue_self (v := v) hl
  have hs' : nextStep leaf.bytes (.dict (addValue leaf.bytes v entries)) =
      some (.key leaf.bytes) := by
    rw [nextStep, hl']
    rfl
  refine ⟨p, _, at?_put_self hn, ?_, ?_, ?_, h.apart_addValue hn⟩
  · rw [resolvePlistEntry_put hentry h.leads hn, hs', map_some]
  · rw [entryAt_put hentry h.leads hn hs', child, hl']
  · rw [← h.below, at?_append, hn, bind_some, at?_cons, child, hl]
    rfl

theorem Grown.addLeaf_array {items : List Plist} (h : Grown t tokens T p)
    (hn : T.at? p = some (.array items)) :
    AddedToArray entry leaf.bytes v t
      (put (.array (items.insertIdx (clampIndex (atoi leaf.bytes) items.length) v)) p T) := by
  have hT : T = t := by
    rcases h.fresh with hT | ⟨hT, -⟩
    · exact hT
    · exact nomatch hn.symm.trans hT
  subst hT
  refine ⟨p, items, ?_, hn, at?_put_self hn, sameApart_put hn⟩
  rw [resolvePlistEntry_of_walk hentry h.leads hn]

theorem addEntry_ok {type : PropertyType} (h : addEntry lib t entry type value = (t', none)) :
    ∃ v, newValue lib type value = .ok v ∧
      (AddedToDict entry leaf.bytes v t t' ∨ AddedToArray entry leaf.bytes v t t') := by
  rw [addEntry] at h
  rcases hv : newValue lib type value with e | v
  · rw [hv] at h
    exact nomatch h
  rw [hv] at h
  refine ⟨v, rfl, ?_⟩
  rcases resolvePlistEntry_spec hentry true t with ⟨T, p, node, hg, -, hn, he⟩ | ⟨-, last, he⟩
  · simp only [he] at h
    obtain ⟨node', hnode, rfl⟩ := editParent_ok rfl hn h
    rcases addLeaf_ok hnode with ⟨items, rfl, rfl⟩ | ⟨entries, rfl, hs, rfl⟩
    · exact Or.inr (hg.addLeaf_array hentry hn)
    · rw [isNone_map, isNone_iff_eq_none] at hs
      exact Or.inl (hg.addLeaf_dict hentry hn hs)
  · simp only [he] at h
    exact nomatch h

theorem setEntry_ok (h : setEntry lib t entry value = (t', none)) :
    WasSet lib entry value t t' := by
  rw [setEntry] at h
  rcases resolvePlistEntry_spec hentry false t with ⟨T, p, node, hg, hT, hn, he⟩ | ⟨-, _, he⟩
  · obtain rfl := hT rfl
    simp only [he] at h
    rcases hs : nextStep leaf.bytes node with _ | s
    · rw [hs] at h
      exact nomatch h
    obtain ⟨old, hold⟩ := child_nextStep hs
    have hat : T.at? (p ++ [s]) = some old := by
      rw [at?_append, hn, bind_some, at?_cons, hold]
      rfl
    simp only [hs, map_some, bind_some, hat] at h
    split_ifs at h with hcont
    · exact nomatch h
    rcases hv : parseValue lib (inferType old) value with e | v
    · rw [hv] at h
      exact nomatch h
    rw [hv] at h
    obtain ⟨node', hnode, rfl⟩ := editParent_ok rfl hn h
    obtain ⟨hs', hc, hk, hne⟩ := setLeaf_spec hs hnode
    refine ⟨p ++ [s], old, v, ?_, hat, hv, ?_, sameApart_put_child hn hk hne⟩
    · rw [he, hs, map_some]
    · rw [entryAt_put hentry hg.leads hn hs', hc]
  · simp only [he] at h
    exact nomatch h

theorem deleteEntry_ok (h : deleteEntry t entry = (t', none)) :
    DeletedFromDict entry leaf.bytes t t' ∨ DeletedFromArray entry t t' := by
  rw [deleteEntry] at h
  rcases resolvePlistEntry_spec hentry false t with ⟨T, p, node, hg, hT, hn, he⟩ | ⟨-, _, he⟩
  · obtain rfl := hT rfl
    simp only [he] at h
    rcases hs : nextStep leaf.bytes node with _ | s
    · rw [hs] at h
      exact nomatch h
    rw [hs] at h
    obtain ⟨node', hnode, rfl⟩ := editParent_ok rfl hn h
    rcases nextStep_eq_some hs with ⟨entries, c, rfl, rfl, hc⟩ | ⟨items, c, rfl, rfl, hi, hlt, -⟩
    · obtain rfl := ok.inj hnode
      have hl := Plist.lookup_removeValue_self (k := leaf.bytes) entries
      refine Or.inl ⟨p, _, ?_, at?_put_self hn, ?_, ?_,
        sameApart_put_child hn trivial
          (child_dict_of_ne fun _ h => Plist.lookup_removeValue_of_ne h entries)⟩
      · rw [he, hs, map_some]
      · refine entryAt_put_of_none hentry hg.leads hn ?_
        rw [nextStep, hl]
        rfl
      · rw [at?_put hn, at?_cons, child, hl]
        rfl
    · rw [deleteLeaf, if_pos ⟨hi, hlt⟩] at hnode
      obtain rfl := ok.inj hnode
      refine Or.inr ⟨p, _, items, ?_, hn, at?_put_self hn, sameApart_put hn⟩
      rw [he, hs, map_some]
  · simp only [he] at h
    exact nomatch h

end Entry

/-- What each command that succeeds makes of its entry, and that it leaves all others. -/
theorem command_changes_entry (lib : Library) (t : Plist) (tokens : List Token) (leaf : Token)
    (before after : ℕ) :
    (∀ type value t',
      addEntry lib t (entryText before (tokens ++ [leaf]) after) type value = (t', none) →
        ∃ v, newValue lib type value = .ok v ∧
          (AddedToDict (entryText before (tokens ++ [leaf]) after) leaf.bytes v t t' ∨
            AddedToArray (entryText before (tokens ++ [leaf]) after) leaf.bytes v t t')) ∧
    (∀ value t', setEntry lib t (entryText before (tokens ++ [leaf]) after) value = (t', none) →
      WasSet lib (entryText before (tokens ++ [leaf]) after) value t t') ∧
    ∀ t', deleteEntry t (entryText before (tokens ++ [leaf]) after) = (t', none) →
      DeletedFromDict (entryText before (tokens ++ [leaf]) after) leaf.bytes t t' ∨
        DeletedFromArray (entryText before (tokens ++ [leaf]) after) t t' :=
  ⟨fun _ _ _ => addEntry_ok rfl, fun _ _ => setEntry_ok rfl, fun _ => deleteEntry_ok rfl⟩

/-- `Add :a:b dict` in a property list without `a`. -/
theorem command_changes_entry_new :
    ∃ v, newValue ⟨fun _ => true, fun _ => none, fun _ => none, fun _ => none⟩ .dict [] = .ok v ∧
      (AddedToDict [58, 97, 58, 98] [98] v (.dict []) (.dict [([97], .dict [([98], .dict [])])]) ∨
        AddedToArray [58, 97, 58, 98] [98] v (.dict [])
          (.dict [([97], .dict [([98], .dict [])])])) := by
  have hadd : addEntry ⟨fun _ => true, fun _ => none, fun _ => none, fun _ => none⟩ (.dict [])
      [58, 97, 58, 98] .dict [] = (.dict [([97], .dict [([98], .dict [])])], none) := by
    rfl
  exact (command_changes_entry _ (.dict []) [⟨[97], by decide, by decide⟩]
    ⟨[98], by decide, by decide⟩ 1 0).1 .dict [] _ hadd

end Darling.PlistBuddy
