import Mathlib.Data.List.Basic

/-!
# Incremental transducers

A transducer reads its input symbol by symbol and gives some output for each, and some more when the
input ends.  `pump` is what a converter does that has room for only so much output: it reads while
there is room, and holds back what does not fit.
-/

namespace Darling

open List

structure Transducer (σ α β : Type*) where
  init : σ
  step : σ → α → σ × List β
  finish : σ → List β

namespace Transducer

variable {σ α β : Type*} (T : Transducer σ α β)

def run : σ → List α → σ × List β
  | s, [] => (s, [])
  | s, a :: as => ((run (T.step s a).1 as).1, (T.step s a).2 ++ (run (T.step s a).1 as).2)

def full (s : σ) (as : List α) : List β := (T.run s as).2 ++ T.finish (T.run s as).1

structure Pumped (σ α β : Type*) where
  written : List β
  rest : List α
  state : σ
  held : List β

def Pumped.overflow [DecidableEq α] [DecidableEq β] (r : Pumped σ α β) : Bool :=
  r.rest ≠ [] || r.held ≠ []

def pump : ℕ → σ → List β → List α → Pumped σ α β
  | room, s, held, [] => ⟨held.take room, [], s, held.drop room⟩
  | room, s, held, a :: as =>
    if room ≤ held.length then ⟨held.take room, a :: as, s, held.drop room⟩
    else
      { pump (room - held.length) (T.step s a).1 (T.step s a).2 as with
        written := held ++ (pump (room - held.length) (T.step s a).1 (T.step s a).2 as).written }

variable {T}

theorem run_append : ∀ (s : σ) (as bs : List α),
    T.run s (as ++ bs) = ((T.run (T.run s as).1 bs).1,
      (T.run s as).2 ++ (T.run (T.run s as).1 bs).2)
  | _, [], _ => rfl
  | s, a :: as, bs => by
    rw [cons_append, run, run_append, run, append_assoc]

theorem full_append (s : σ) (as bs : List α) :
    T.full s (as ++ bs) = (T.run s as).2 ++ T.full (T.run s as).1 bs := by
  rw [full, full, run_append, append_assoc]

/-- A converter that had room for so much output has read `used`; it stops early only when the room
is used up. -/
structure Pumps (T : Transducer σ α β) (room : ℕ) (s : σ) (held : List β) (src used : List α)
    (r : Pumped σ α β) : Prop where
  src : src = used ++ r.rest
  state : r.state = (T.run s used).1
  out : held ++ (T.run s used).2 = r.written ++ r.held
  le : r.written.length ≤ room
  full : r.rest ≠ [] ∨ r.held ≠ [] → r.written.length = room

theorem exists_pumps : ∀ (room : ℕ) (s : σ) (held : List β) (src : List α),
    ∃ used, T.Pumps room s held src used (T.pump room s held src)
  | room, s, held, [] => by
    refine ⟨[], rfl, rfl, ?_, length_take_le _ _, fun h => ?_⟩
    · rw [pump, run, append_nil, take_append_drop]
    · rcases h with h | h
      · exact absurd rfl h
      · rw [pump] at h ⊢
        rw [length_take]
        have := length_pos_iff.2 h
        rw [length_drop] at this
        omega
  | room, s, held, a :: as => by
    rw [pump]
    split_ifs with hroom
    · refine ⟨[], rfl, rfl, ?_, length_take_le _ _, fun _ => ?_⟩
      · rw [run, append_nil, take_append_drop]
      · rw [length_take]
        omega
    · obtain ⟨used, hp⟩ := exists_pumps (room - held.length) (T.step s a).1 (T.step s a).2 as
      have hle := hp.le
      refine ⟨a :: used, congrArg (a :: ·) hp.src, hp.state, ?_, ?_, fun h => ?_⟩
      · rw [run, append_assoc, ← hp.out]
      · rw [length_append]
        omega
      · rw [length_append, hp.full h]
        omega

theorem pump_full (room : ℕ) (s : σ) (held : List β) (src more : List α) :
    held ++ T.full s (src ++ more) = (T.pump room s held src).written ++
      ((T.pump room s held src).held ++
        T.full (T.pump room s held src).state ((T.pump room s held src).rest ++ more)) := by
  obtain ⟨used, hp⟩ := exists_pumps (T := T) room s held src
  have hsrc : src ++ more = used ++ ((T.pump room s held src).rest ++ more) := by
    rw [← append_assoc, ← hp.src]
  rw [hsrc, full_append, ← append_assoc, hp.out, hp.state, append_assoc]

end Transducer

end Darling
