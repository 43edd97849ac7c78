import Darling.Proofs.Endian
import Mathlib.Order.Interval.Set.Defs
import Mathlib.Order.Nat

/-!
# Memory by address

Bytes at addresses, some of which are not mapped.  An access of a byte that is not mapped fails, so
a computation that ends in a memory has touched mapped bytes only.  What a computation leaves alone
is said by the set of bytes it may change (`Changes`).
-/

namespace Darling

abbrev Memory := ℕ → Option Byte

namespace Memory

def bytes (m : Memory) : ℕ → ℕ → Option Bytes
  | _, 0 => some []
  | a, n + 1 => do return (← m a) :: (← bytes m (a + 1) n)

def write (m : Memory) (a : ℕ) (s : Bytes) : Memory :=
  fun b => if a ≤ b ∧ b < a + s.length then s[b - a]? else m b

def put (m : Memory) (a : ℕ) (s : Bytes) : Option Memory := do
  let _ ← m.bytes a s.length
  return m.write a s

def load (m : Memory) (a : ℕ) : Option ℕ := (m.bytes a 8).map unle

def store (m : Memory) (a x : ℕ) : Option Memory := m.put a (le 8 x)

def memcpy (m : Memory) (dst src n : ℕ) : Option Memory := do
  m.put dst (← m.bytes src n)

def map (m : Memory) (a n : ℕ) : Memory := m.write a (List.replicate n 0)

def unmap (m : Memory) (a n : ℕ) : Memory := fun b => if a ≤ b ∧ b < a + n then none else m b

def Mapped (m : Memory) (a n : ℕ) : Prop := ∀ b, a ≤ b → b < a + n → (m b).isSome

structure Changes (s : Set ℕ) (m m' : Memory) : Prop where
  outside : ∀ a ∉ s, m' a = m a
  mapped : ∀ a, (m' a).isSome = (m a).isSome

section Bytes

variable {m m' : Memory} {a n : ℕ} {s : Bytes}

theorem bytes_eq_some : ∀ {n a : ℕ} {s : Bytes},
    m.bytes a n = some s ↔ s.length = n ∧ ∀ i < n, m (a + i) = s[i]?
  | 0, a, s => by
    simp only [bytes, Option.some.injEq, Nat.not_lt_zero, false_implies, implies_true, and_true,
      List.length_eq_zero_iff]
    exact eq_comm
  | n + 1, a, s => by
    have ih := @bytes_eq_some n (a + 1)
    constructor
    · intro h
      simp only [bytes, Option.pure_def, Option.bind_eq_bind, Option.bind_eq_some_iff,
        Option.some.injEq] at h
      obtain ⟨x, hx, t, ht, rfl⟩ := h
      obtain ⟨hlen, hget⟩ := ih.1 ht
      refine ⟨by rw [List.length_cons, hlen], fun i hi => ?_⟩
      cases i with
      | zero => exact hx
      | succ i =>
        rw [List.getElem?_cons_succ, ← hget i (by omega), Nat.add_assoc, Nat.add_comm 1 i]
    · rintro ⟨hlen, hget⟩
      obtain ⟨x, t, rfl⟩ := List.exists_cons_of_length_eq_add_one hlen
      have hx : m a = some x := hget 0 (by omega)
      have ht : m.bytes (a + 1) n = some t := by
        refine ih.2 ⟨by simpa using hlen, fun i hi => ?_⟩
        have := hget (i + 1) (by omega)
        rwa [List.getElem?_cons_succ, Nat.add_comm i 1, ← Nat.add_assoc] at this
      simp [bytes, hx, ht]

theorem bytes_of_mapped : ∀ {n a : ℕ}, m.Mapped a n → ∃ s, m.bytes a n = some s
  | 0, a, _ => ⟨[], rfl⟩
  | n + 1, a, h => by
    obtain ⟨x, hx⟩ := Option.isSome_iff_exists.1 (h a le_rfl (by omega))
    obtain ⟨t, ht⟩ := bytes_of_mapped (n := n) (a := a + 1) fun b hb hb' =>
      h b (by omega) (by omega)
    exact ⟨x :: t, by simp [bytes, hx, ht]⟩

theorem bytes_congr (h : ∀ b, a ≤ b → b < a + n → m' b = m b) : m'.bytes a n = m.bytes a n := by
  refine Option.ext fun s => ?_
  rw [bytes_eq_some, bytes_eq_some]
  refine and_congr_right fun _ => forall₂_congr fun i hi => ?_
  rw [h (a + i) (by omega) (by omega)]

theorem write_bytes (m : Memory) (a : ℕ) (s : Bytes) : (m.write a s).bytes a s.length = some s := by
  refine bytes_eq_some.2 ⟨rfl, fun i hi => ?_⟩
  rw [write, if_pos ⟨by omega, by omega⟩, Nat.add_sub_cancel_left]

theorem write_changes (h : m.Mapped a s.length) :
    Changes (Set.Ico a (a + s.length)) m (m.write a s) := by
  refine ⟨fun b hb => if_neg hb, fun b => ?_⟩
  unfold write
  split_ifs with hb
  · rw [h b hb.1 hb.2, List.getElem?_eq_getElem (by omega)]
    rfl
  · rfl

theorem put_spec (h : m.Mapped a s.length) : ∃ m', m.put a s = some m' ∧
    m'.bytes a s.length = some s ∧ Changes (Set.Ico a (a + s.length)) m m' := by
  obtain ⟨t, ht⟩ := bytes_of_mapped h
  exact ⟨m.write a s, by simp [put, ht], write_bytes m a s, write_changes h⟩

theorem store_spec (h : m.Mapped a 8) {x : ℕ} (hx : x < 2 ^ 64) : ∃ m', m.store a x = some m' ∧
    m'.load a = some x ∧ Changes (Set.Ico a (a + 8)) m m' := by
  obtain ⟨m', hput, hbytes, hch⟩ := put_spec (s := le 8 x) (by rwa [le_length])
  rw [le_length] at hbytes hch
  refine ⟨m', hput, ?_, hch⟩
  rw [load, hbytes, Option.map_some, unle_le_of_lt (by omega)]

theorem memcpy_spec {dst src : ℕ} (hd : m.Mapped dst n) (hs : m.Mapped src n) : ∃ m',
    m.memcpy dst src n = some m' ∧ (∀ i < n, m' (dst + i) = m (src + i)) ∧
      Changes (Set.Ico dst (dst + n)) m m' := by
  obtain ⟨t, ht⟩ := bytes_of_mapped hs
  obtain ⟨hlen, hget⟩ := bytes_eq_some.1 ht
  subst hlen
  obtain ⟨m', hput, hbytes, hch⟩ := put_spec hd
  refine ⟨m', by simp [memcpy, ht, hput], fun i hi => ?_, hch⟩
  rw [(bytes_eq_some.1 hbytes).2 i hi, hget i hi]

theorem mapped_of_load {x : ℕ} (h : m.load a = some x) : m.Mapped a 8 := by
  obtain ⟨s, hs, -⟩ := Option.map_eq_some_iff.1 h
  obtain ⟨hlen, hget⟩ := bytes_eq_some.1 hs
  intro b hb hb'
  have := hget (b - a) (by omega)
  rw [Nat.add_sub_cancel' hb] at this
  rw [this, List.getElem?_eq_getElem (by omega)]
  rfl

theorem load_lt {x : ℕ} (h : m.load a = some x) : x < 2 ^ 64 := by
  obtain ⟨s, hs, rfl⟩ := Option.map_eq_some_iff.1 h
  rw [← le_unle s, unle_le, (bytes_eq_some.1 hs).1]
  exact Nat.mod_lt _ (by decide)

end Bytes

section

variable (m : Memory) {a n b : ℕ}

include m

theorem map_inside (h : a ≤ b ∧ b < a + n) : m.map a n b = some 0 := by
  rw [map, write, List.length_replicate, if_pos h, List.getElem?_replicate, if_pos (by omega)]

theorem map_outside (h : ¬ (a ≤ b ∧ b < a + n)) : m.map a n b = m b := by
  rw [map, write, List.length_replicate, if_neg h]

theorem unmap_inside (h : a ≤ b ∧ b < a + n) : m.unmap a n b = none := if_pos h

theorem unmap_outside (h : ¬ (a ≤ b ∧ b < a + n)) : m.unmap a n b = m b := if_neg h

end

namespace Changes

variable {s t : Set ℕ} {m m' m'' : Memory}

theorem refl (s : Set ℕ) (m : Memory) : Changes s m m := ⟨fun _ _ => rfl, fun _ => rfl⟩

section

variable (h : Changes s m m')

include h

theorem trans (h' : Changes s m' m'') : Changes s m m'' :=
  ⟨fun a ha => (h'.outside a ha).trans (h.outside a ha),
    fun a => (h'.mapped a).trans (h.mapped a)⟩

theorem mono (hst : s ⊆ t) : Changes t m m' :=
  ⟨fun a ha => h.outside a fun hs => ha (hst hs), h.mapped⟩

theorem mapped_iff {a n : ℕ} : m'.Mapped a n ↔ m.Mapped a n := by
  unfold Mapped
  simp [h.mapped]

theorem bytes {a n : ℕ} (hd : ∀ b, a ≤ b → b < a + n → b ∉ s) : m'.bytes a n = m.bytes a n :=
  bytes_congr fun b hb hb' => h.outside b (hd b hb hb')

theorem load {a : ℕ} (hd : ∀ b, a ≤ b → b < a + 8 → b ∉ s) : m'.load a = m.load a := by
  rw [Memory.load, Memory.load, h.bytes hd]

end

end Changes

end Memory

end Darling
