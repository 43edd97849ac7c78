import Darling.Endian

/-!
# Reading inside a byte string

A read names the bytes it touches and stops with `e` when one of them lies outside.  A loop of
computations that may stop gets to its end exactly if none of them stops.
-/

namespace Darling

open List

variable {ε α β : Type} {ι : Type*}

def read (e : ε) (n : ℕ) (mem : Bytes) (i : ℕ) : Except ε Bytes :=
  if i + n ≤ mem.length then .ok ((mem.drop i).take n) else .error e

def Finishes (r : Except ε α) : Prop := ∃ a, r = .ok a

@[simp] theorem not_finishes_error (e : ε) : ¬ Finishes (.error e : Except ε α) := by
  rintro ⟨a, h⟩
  cases h

theorem ok_bind (a : α) (f : α → Except ε β) : (.ok a >>= f) = f a := rfl

theorem finishes_bind {r : Except ε α} {f : α → Except ε β} :
    Finishes (r >>= f) ↔ ∃ a, r = .ok a ∧ Finishes (f a) := by
  cases r with
  | ok a => exact ⟨fun h => ⟨a, rfl, h⟩, fun ⟨b, hb, h⟩ => Except.ok.inj hb ▸ h⟩
  | error e => exact ⟨fun h => absurd h (not_finishes_error e), fun ⟨_, hb, _⟩ => nomatch hb⟩

variable {e : ε} {n i : ℕ} {E : ε → Prop}

theorem read_eq_ok {mem b : Bytes} :
    read e n mem i = .ok b ↔ i + n ≤ mem.length ∧ b = (mem.drop i).take n := by
  unfold read
  by_cases h : i + n ≤ mem.length
  · rw [if_pos h, Except.ok.injEq]
    exact ⟨fun hb => ⟨h, hb.symm⟩, fun hb => hb.2.symm⟩
  · rw [if_neg h]
    exact ⟨(nomatch ·), fun hb => absurd hb.1 h⟩

theorem finishes_read_bind {mem : Bytes} {f : Bytes → Except ε β} :
    Finishes (read e n mem i >>= f) ↔
      i + n ≤ mem.length ∧ Finishes (f ((mem.drop i).take n)) := by
  simp only [finishes_bind, read_eq_ok]
  exact ⟨fun ⟨b, ⟨h, hb⟩, hf⟩ => ⟨h, hb ▸ hf⟩, fun ⟨h, hf⟩ => ⟨_, ⟨h, rfl⟩, hf⟩⟩

theorem finishes_foldlM {f : ι → Except ε β} {step : α → ι → β → α} : ∀ {l : List ι} {a : α},
      Finishes (l.foldlM (fun a i => do let b ← f i; return step a i b) a) ↔
        ∀ i ∈ l, Finishes (f i)
  | [], a => by
    simp only [foldlM_nil, not_mem_nil, false_implies, implies_true, iff_true]
    exact ⟨a, rfl⟩
  | i :: l, a => by
    rw [foldlM_cons, finishes_bind, forall_mem_cons]
    constructor
    · rintro ⟨a', h, hl⟩
      refine ⟨?_, finishes_foldlM.1 hl⟩
      obtain ⟨b, hb, -⟩ := finishes_bind.1 ⟨a', h⟩
      exact ⟨b, hb⟩
    · rintro ⟨⟨b, hb⟩, hl⟩
      exact ⟨step a i b, by rw [hb]; rfl, finishes_foldlM.2 hl⟩

theorem foldlM_eq_ok {f : ι → Except ε β} {step : α → ι → β → α} {g : ι → β} :
    ∀ {l : List ι} {a : α}, (∀ i ∈ l, f i = .ok (g i)) →
      l.foldlM (fun a i => do let b ← f i; return step a i b) a =
        .ok (l.foldl (fun a i => step a i (g i)) a)
  | [], _, _ => rfl
  | i :: l, a, h => by
    have hi : f i = .ok (g i) := h i (mem_cons_self ..)
    rw [foldlM_cons, hi, foldl_cons, ← foldlM_eq_ok fun j hj => h j (mem_cons_of_mem _ hj)]
    rfl

def StopsWith (E : ε → Prop) (r : Except ε α) : Prop := ∀ e, r = .error e → E e

theorem StopsWith.bind {r : Except ε α} {f : α → Except ε β} (hr : StopsWith E r)
    (hf : ∀ a, StopsWith E (f a)) : StopsWith E (r >>= f) := by
  cases r with
  | ok a => exact hf a
  | error e =>
    rintro e' ⟨⟩
    exact hr e rfl

theorem StopsWith.ok (a : α) : StopsWith E (.ok a) := nofun

theorem StopsWith.read (he : E e) (n : ℕ) (mem : Bytes) (i : ℕ) : StopsWith E (read e n mem i) := by
  unfold Darling.read
  split_ifs
  · exact .ok _
  · rintro e' ⟨⟩
    exact he

theorem StopsWith.foldlM {f : α → ι → Except ε α} (hf : ∀ a i, StopsWith E (f a i)) :
    ∀ (l : List ι) (a : α), StopsWith E (l.foldlM f a)
  | [], a => .ok a
  | i :: l, a => by
    rw [foldlM_cons]
    exact (hf a i).bind fun a' => StopsWith.foldlM hf l a'

theorem piece_of_piece {s j : ℕ} (mem : Bytes) (h : j + n ≤ s) :
    ((((mem.drop i).take s).drop j).take n) = (mem.drop (i + j)).take n := by
  rw [drop_take, take_take, drop_drop, Nat.min_eq_left (by omega)]

end Darling
