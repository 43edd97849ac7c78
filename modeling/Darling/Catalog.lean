import Mathlib.Data.List.Nodup

/-!
# Trees with names and numbers

A tree in which every entry has a name and a number.  Going down by names takes the first entry of
the name at every level, and the numbers on the way are the same way by numbers if no two entries of
a level share a number (`byNumber_of_byName`).
-/

namespace Darling.Catalog

open List

inductive Entry (ν κ α : Type*) where
  | leaf (number : κ) (name : ν) (data : α)
  | node (number : κ) (name : ν) (data : α) (entries : List (Entry ν κ α))

inductive WalkError where
  | noEntry
  | notDir
deriving DecidableEq

variable {ν κ α : Type*}

namespace Entry

def number : Entry ν κ α → κ
  | leaf x _ _ | node x _ _ _ => x

def name : Entry ν κ α → ν
  | leaf _ t _ | node _ t _ _ => t

def data : Entry ν κ α → α
  | leaf _ _ a | node _ _ a _ => a

def isNode : Entry ν κ α → Bool
  | leaf _ _ _ => false
  | node _ _ _ _ => true

def entries : Entry ν κ α → List (Entry ν κ α)
  | leaf _ _ _ => []
  | node _ _ _ es => es

end Entry

section Walk

variable [DecidableEq ν] [DecidableEq κ]

def byName : Entry ν κ α → List ν → Except WalkError (Entry ν κ α)
  | e, [] => .ok e
  | .leaf _ _ _, _ :: _ => .error .notDir
  | .node _ _ _ es, t :: ts =>
    match es.find? (·.name = t) with
    | none => .error .noEntry
    | some e => byName e ts

def numbers : ℕ → Entry ν κ α → List ν → Option (Except WalkError (List κ))
  | _, _, [] => some (.ok [])
  | _, .leaf _ _ _, _ :: _ => some (.error .notDir)
  | room, .node _ _ _ es, t :: ts =>
    match es.find? (·.name = t) with
    | none => some (.error .noEntry)
    | some e =>
      match room with
      | 0 => none
      | room + 1 => (numbers room e ts).map (·.map (e.number :: ·))

/-- At most `n` numbers, read one after the other from the `i`-th on; the walk ends at a leaf. -/
def byNumber (read : ℕ → Option κ) : ℕ → ℕ → Entry ν κ α → Option (Except WalkError (Entry ν κ α))
  | 0, _, e => some (.ok e)
  | n + 1, i, e =>
    match read i with
    | none => none
    | some x =>
      match e.entries.find? (·.number = x) with
      | none => some (.error .noEntry)
      | some e' => if e'.isNode then byNumber read n (i + 1) e' else some (.ok e')

end Walk

/-- The tree below has at most `n` levels, and no two entries of a level share a number. -/
def Numbered : ℕ → Entry ν κ α → Prop
  | 0, e => e.entries.isEmpty
  | n + 1, e => (e.entries.map Entry.number).Nodup ∧ ∀ e' ∈ e.entries, Numbered n e'

/-- Every entry down to `n` levels has the property, with its level; `d` is that of the first. -/
def Everywhere (P : ℕ → α → Prop) : ℕ → ℕ → Entry ν κ α → Prop
  | 0, d, e => P d e.data
  | n + 1, d, e => P d e.data ∧ ∀ e' ∈ e.entries, Everywhere P n (d + 1) e'

def decideNumbered [DecidableEq κ] : ∀ (n : ℕ) (e : Entry ν κ α), Decidable (Numbered n e)
  | 0, e => inferInstanceAs (Decidable (e.entries.isEmpty = true))
  | n + 1, e =>
    have (e' : Entry ν κ α) : Decidable (Numbered n e') := decideNumbered n e'
    inferInstanceAs
      (Decidable ((e.entries.map Entry.number).Nodup ∧ ∀ e' ∈ e.entries, Numbered n e'))

instance [DecidableEq κ] (n : ℕ) (e : Entry ν κ α) : Decidable (Numbered n e) := decideNumbered n e

def decideEverywhere {P : ℕ → α → Prop} [∀ d a, Decidable (P d a)] :
    ∀ (n d : ℕ) (e : Entry ν κ α), Decidable (Everywhere P n d e)
  | 0, d, e => inferInstanceAs (Decidable (P d e.data))
  | n + 1, d, e =>
    have (e' : Entry ν κ α) : Decidable (Everywhere P n (d + 1) e') := decideEverywhere n (d + 1) e'
    inferInstanceAs (Decidable (P d e.data ∧ ∀ e' ∈ e.entries, Everywhere P n (d + 1) e'))

instance {P : ℕ → α → Prop} [∀ d a, Decidable (P d a)] (n d : ℕ) (e : Entry ν κ α) :
    Decidable (Everywhere P n d e) := decideEverywhere n d e

section Proofs

variable [DecidableEq ν] [DecidableEq κ] {e : Entry ν κ α}

omit [DecidableEq ν] in
theorem find_number : ∀ {es : List (Entry ν κ α)}, (es.map Entry.number).Nodup → e ∈ es →
    es.find? (·.number = e.number) = some e
  | e' :: es, hd, hmem => by
    rw [map_cons, nodup_cons] at hd
    rcases mem_cons.1 hmem with rfl | hmem
    · simp
    · rw [find?_cons_of_neg, find_number hd.2 hmem]
      rw [decide_eq_true_eq]
      exact fun heq => hd.1 (heq ▸ mem_map_of_mem hmem)

omit [DecidableEq κ] in
theorem numbers_of_error : ∀ {n : ℕ} {e : Entry ν κ α} {ts : List ν} {err : WalkError},
    Numbered n e → byName e ts = .error err → numbers n e ts = some (.error err)
  | n, e, [], err, _, h => by cases e <;> cases h
  | n, .leaf _ _ _, _ :: _, err, _, h => by
    cases h
    rw [numbers]
  | 0, .node _ _ _ es, t :: ts, err, hn, h => by
    obtain rfl : es = [] := isEmpty_iff.1 hn
    cases h
    rfl
  | n + 1, .node x s a es, t :: ts, err, hn, h => by
    rw [byName] at h
    rw [numbers]
    rcases hfind : es.find? (·.name = t) with _ | e <;> rw [hfind] at h ⊢
    · cases h
      rfl
    · have hmem := mem_of_find?_eq_some hfind
      simp only [numbers_of_error (hn.2 e hmem) h]
      rfl

theorem byNumber_of_byName : ∀ {n : ℕ} {e e' : Entry ν κ α} {ts : List ν}, Numbered n e →
    byName e ts = .ok e' → ∃ xs, numbers n e ts = some (.ok xs) ∧ xs.length ≤ n ∧
      ∀ {read : ℕ → Option κ} {i : ℕ}, (∀ j x, xs[j]? = some x → read (i + j) = some x) →
        byNumber read xs.length i e = some (.ok e')
  | n, e, e', [], _, h => by
    have hself : e = e' := by cases e <;> exact Except.ok.inj h
    refine ⟨[], by cases e <;> cases n <;> rfl, Nat.zero_le _, fun _ => ?_⟩
    rw [length_nil, byNumber, hself]
  | n, .leaf _ _ _, e', _ :: _, _, h => by cases h
  | 0, .node _ _ _ es, e', t :: ts, hn, h => by
    obtain rfl : es = [] := isEmpty_iff.1 hn
    cases h
  | n + 1, .node x s a es, e', t :: ts, hn, h => by
    rw [byName] at h
    rcases hfind : es.find? (·.name = t) with _ | e <;> rw [hfind] at h
    · cases h
    have hmem := mem_of_find?_eq_some hfind
    obtain ⟨xs, hxs, hlen, hwalk⟩ := byNumber_of_byName (hn.2 e hmem) h
    refine ⟨e.number :: xs, ?_, ?_, fun {read i} hread => ?_⟩
    · rw [numbers, hfind]
      simp only [hxs]
      rfl
    · rw [length_cons]
      omega
    · have hfirst : read i = some e.number := hread 0 _ rfl
      have hfound : es.find? (·.number = e.number) = some e := find_number hn.1 hmem
      rw [length_cons, byNumber, hfirst]
      simp only [Entry.entries, hfound]
      cases e with
      | node =>
        exact hwalk fun j y hj => by rw [← hread (j + 1) y hj, Nat.add_right_comm, Nat.add_assoc]
      | leaf =>
        cases ts with
        | nil =>
          cases h
          rfl
        | cons => cases h

omit [DecidableEq ν] [DecidableEq κ] in
theorem Everywhere.data {P : ℕ → α → Prop} {n d : ℕ} (h : Everywhere P n d e) : P d e.data := by
  cases n with
  | zero => exact h
  | succ n => exact h.1

omit [DecidableEq κ] in
theorem Everywhere.of_byName {P : ℕ → α → Prop} : ∀ {n d : ℕ} {e e' : Entry ν κ α} {ts : List ν}
    {xs : List κ}, Everywhere P n d e → byName e ts = .ok e' → numbers n e ts = some (.ok xs) →
      P (d + xs.length) e'.data
  | n, d, e, e', [], xs, h, hwalk, hxs => by
    have hself : e = e' := by cases e <;> exact Except.ok.inj hwalk
    have hnil : xs = [] := by cases e <;> cases n <;> cases hxs <;> rfl
    rw [hnil, ← hself]
    exact h.data
  | n, d, .leaf _ _ _, e', _ :: _, xs, h, hwalk, hxs => by cases hwalk
  | n, d, .node _ _ _ es, e', t :: ts, xs, h, hwalk, hxs => by
    rw [byName] at hwalk
    rw [numbers] at hxs
    rcases hfind : es.find? (·.name = t) with _ | e <;> rw [hfind] at hwalk hxs
    · cases hwalk
    cases n with
    | zero => cases hxs
    | succ n =>
      simp only [Option.map_eq_some_iff] at hxs
      obtain ⟨r, hr, hmap⟩ := hxs
      cases r with
      | error => cases hmap
      | ok ys =>
        obtain rfl := Except.ok.inj hmap
        have hmem := mem_of_find?_eq_some hfind
        have hP := Everywhere.of_byName (h.2 e hmem) hwalk hr
        rwa [length_cons, Nat.add_comm ys.length, ← Nat.add_assoc]

end Proofs

end Darling.Catalog
