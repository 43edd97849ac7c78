import Darling.AudioHardware
import Darling.Proofs.Endian
import Darling.Runs

/-!
# Streams of an audio device

A stream stays when its callback is destroyed or registered again.  A sample of 24 bits is not
converted: what is added to it is masked away.
-/

namespace Darling.AudioHardware

open List

/-- A running stream has the callback and the data that are registered for its id. -/
def Registered (s : State) : Prop := ∀ id p, s.streams id = some p → s.proc id = some p

/-- The id that is handed out is new, and the streams are registered afterwards. -/
def Right (s : State) (c : Call) : Prop :=
  Registered (s.step c) ∧
    ∀ inProc data, c = .createIOProcID inProc data true → inProc ≠ 0 → s.proc s.nextProcId = none

/-- The call does not take the callback away from a stream. -/
def Safe (s : State) : Call → Prop
  | .createIOProcID inProc data outIOProcID => inProc ≠ 0 →
      if outIOProcID then s.proc s.nextProcId = none
      else ∀ p, s.streams inProc = some p → p = (inProc, data)
  | .destroyIOProcID id => s.streams id = none
  | .start _ _ => True
  | .stop _ => True

variable {s : State} (hs : Registered s)

include hs

theorem registered_update_iff (id : ℤ) (p : Option Proc) (n : ℤ) :
    Registered { s with proc := Function.update s.proc id p, nextProcId := n } ↔
      ∀ q, s.streams id = some q → p = some q := by
  constructor
  · intro h q hq
    simpa using h id q hq
  · intro h id' q hq
    obtain rfl | hne := eq_or_ne id' id
    · simpa using h q hq
    · simpa [hne] using hs id' q hq

theorem registered_streams (id : ℤ) {p : Option Proc} (hp : ∀ q, p = some q → s.proc id = some q) :
    Registered { s with streams := Function.update s.streams id p } := by
  intro id' q hq
  obtain rfl | hne := eq_or_ne id' id
  · exact hp q (by simpa using hq)
  · exact hs id' q (by simpa [hne] using hq)

theorem right_iff_safe (c : Call) : Right s c ↔ Safe s c := by
  cases c with
  | createIOProcID inProc data out =>
    by_cases h0 : inProc = 0
    · simp [Right, Safe, State.step, h0, hs]
    cases out with
    | true =>
      have hkeep (hnone : s.proc s.nextProcId = none) :
          Registered (s.step (.createIOProcID inProc data true)) := by
        rw [State.step, if_neg h0, if_pos rfl, registered_update_iff hs]
        intro q hq
        rw [hs _ _ hq] at hnone
        cases hnone
      simpa [Right, Safe, h0] using hkeep
    | false => simp [Right, Safe, State.step, h0, registered_update_iff hs, eq_comm]
  | destroyIOProcID id =>
    simp [Right, Safe, State.step, registered_update_iff hs, Option.eq_none_iff_forall_ne_some]
  | start id stream =>
    rw [Right, State.step, Safe]
    split_ifs
    · simpa using registered_streams hs id fun q hq => hq
    · simpa using hs
  | stop id =>
    have := registered_streams hs id (p := none) (by simp)
    simpa [Right, Safe, State.step] using this

omit hs

theorem streams_registered_iff (calls : List Call) :
    EachStep State.step Right {} calls ↔ EachStep State.step Safe {} calls := by
  have hstart : Registered {} := fun id p h => by cases h
  refine eachStep_iff (fun s c hs hc => ?_) (fun s c hs => right_iff_safe hs c) hstart
  exact ((right_iff_safe hs c).2 hc).1

/-- A callback is destroyed while its stream runs. -/
theorem destroyed_still_running : ¬ EachStep State.step Right {}
    [.createIOProcID 100 0 true, .start 1 true, .destroyIOProcID 1] := by
  rintro ⟨-, -, h, -⟩
  have := h.1 1 (100, 0)
  simp [State.step] at this

/-- The number that a sample stands for. -/
def value (w : Width) (bigEndian : Bool) (s : Bytes) : ℕ :=
  unle (if bigEndian then s.reverse else s) % 2 ^ w.bits

/-- The `j`-th sample of a buffer. -/
def sample (w : Width) (data : Bytes) (j : ℕ) : Bytes := (data.drop (w.size * j)).take w.size

/-- Every sample is changed by `f`, and the rest is as before. -/
def Changed (w : Width) (bigEndian : Bool) (f : ℕ → ℕ) (data out : Bytes) : Prop :=
  out.length = data.length ∧
    (∀ j < data.length / w.size,
      value w bigEndian (sample w out j) = f (value w bigEndian (sample w data j))) ∧
    out.drop (w.size * (data.length / w.size)) = data.drop (w.size * (data.length / w.size))

section

variable {w : Width} {big : Bool} {f g : ℕ → ℕ} {data out out' : Bytes}

theorem Changed.trans (h : Changed w big f data out) (h' : Changed w big g out out') :
    Changed w big (g ∘ f) data out' := by
  rw [Changed, h.1] at h'
  exact ⟨h'.1, fun j hj => (h'.2.1 j hj).trans (congrArg g (h.2.1 j hj)), h'.2.2.trans h.2.2⟩

theorem Changed.congr (h : Changed w big f data out)
    (hfg : 0 < data.length / w.size → ∀ v < 2 ^ w.bits, f v = g v) : Changed w big g data out :=
  ⟨h.1, fun j hj => (h.2.1 j hj).trans
    (hfg (Nat.zero_lt_of_lt hj) _ (Nat.mod_lt _ (Nat.two_pow_pos _))), h.2.2⟩

end

variable (w : Width) (big : Bool)

theorem bswap_bswap (n x : ℕ) : bswap n (bswap n x) = x % 256 ^ n := by
  rw [bswap.eq_1 n x, bswap_unle (by simp), reverse_reverse, unle_le]

/-- What is added to 24 bits is not among those that are kept. -/
theorem convert_w24 (v : ℕ) : Width.convert .w24 v = v % 2 ^ 24 := by
  have hext : (if v &&& 0x800000 ≠ 0 then v ||| 0xff000000 else v) % 2 ^ 24 = v % 2 ^ 24 := by
    split_ifs
    · rw [Nat.or_mod_two_pow]
      exact Nat.or_zero _
    · rfl
  rw [Width.convert, transform, Nat.and_two_pow_sub_one_eq_mod _ 24]
  omega

/-- The change of the number that is made. -/
def change : ℕ → ℕ :=
  if w = .w24 then id else fun v => (v + 2 ^ (w.bits - 1)) % 2 ^ w.bits

theorem convert_mod (v : ℕ) :
    w.convert v % 256 ^ w.size % 2 ^ w.bits = change w (v % 2 ^ w.bits) := by
  cases w with
  | w24 =>
    rw [convert_w24]
    simp [change, Width.size, Width.bits]
  | _ =>
    simp only [Width.convert, transform, change, Width.size, Width.bits, reduceCtorEq, if_false]
    omega

theorem value_transformSample {s : Bytes} (h : s.length = w.size) :
    value w big (transformSample w big s) = change w (value w big s) := by
  cases big
  · simp only [value, transformSample, Bool.false_eq_true, if_false, unle_le, convert_mod]
  · simp only [value, transformSample, if_true, bswap_unle h]
    rw [← bswap, bswap_bswap, convert_mod]

theorem length_transformSample (s : Bytes) : (transformSample w big s).length = w.size := by
  unfold transformSample
  split_ifs <;> exact le_length _ _

theorem transformSamples_spec : ∀ {n : ℕ} {data : Bytes}, w.size * n ≤ data.length →
    (transformSamples w big n data).length = data.length ∧
      (∀ j < n, sample w (transformSamples w big n data) j =
        transformSample w big (sample w data j)) ∧
      (transformSamples w big n data).drop (w.size * n) = data.drop (w.size * n)
  | 0, data, _ => ⟨rfl, by simp, rfl⟩
  | n + 1, data, h => by
    rw [Nat.mul_succ] at h
    have hrest : w.size * n ≤ (data.drop w.size).length := by
      rw [length_drop]
      omega
    obtain ⟨hlen, hsample, hdrop⟩ := transformSamples_spec hrest
    have hhead := length_transformSample w big (data.take w.size)
    have hskip : ∀ k, (transformSamples w big (n + 1) data).drop (w.size * (k + 1)) =
        (transformSamples w big n (data.drop w.size)).drop (w.size * k) := fun k => by
      rw [transformSamples, Nat.mul_succ, Nat.add_comm, ← drop_drop, drop_left' hhead]
    refine ⟨?_, fun j hj => ?_, ?_⟩
    · rw [transformSamples, length_append, hhead, hlen, length_drop]
      omega
    · cases j with
      | zero =>
        rw [sample, sample, transformSamples, Nat.mul_zero, drop_zero, drop_zero]
        exact take_left' hhead
      | succ j =>
        rw [sample, hskip, ← sample, hsample j (by omega), sample, sample, drop_drop,
          Nat.mul_succ, Nat.add_comm]
    · rw [hskip, hdrop, drop_drop, Nat.mul_succ, Nat.add_comm]

theorem changed_transformSamples (data : Bytes) :
    Changed w big (change w) data (transformSamples w big (data.length / w.size) data) := by
  obtain ⟨hlen, hsample, hdrop⟩ := transformSamples_spec w big (Nat.mul_div_le data.length w.size)
  refine ⟨hlen, fun j hj => ?_, hdrop⟩
  have hend : w.size * (j + 1) ≤ data.length :=
    Nat.le_trans (Nat.mul_le_mul_left _ hj) (Nat.mul_div_le _ _)
  rw [hsample j hj, value_transformSample]
  rw [sample, length_take, length_drop]
  rw [Nat.mul_succ] at hend
  omega

/-- Each sample is moved by half of its range, and a second time back. -/
def Converts (data : Bytes) : Prop :=
  ∃ out out', transformSignedUnsigned w big data = some out ∧
    Changed w big (fun v => (v + 2 ^ (w.bits - 1)) % 2 ^ w.bits) data out ∧
    transformSignedUnsigned w big out = some out' ∧ Changed w big id data out'

variable {w big} in
theorem Converts.length_lt {data : Bytes} (h : Converts w big data) (hw : w = .w24) :
    data.length < 4 := by
  subst hw
  obtain ⟨out, -, hout, ⟨-, hvalue, -⟩, -⟩ := h
  by_contra hlen
  have hpos : 0 < data.length / Width.size .w24 := Nat.div_pos (Nat.le_of_not_lt hlen) (by decide)
  unfold transformSignedUnsigned at hout
  split_ifs at hout
  cases hout
  have h₁ := hvalue 0 hpos
  have h₂ := (changed_transformSamples .w24 big data).2.1 0 hpos
  have hlt : value .w24 big (sample .w24 data 0) < 2 ^ 24 := Nat.mod_lt _ (by decide)
  rw [h₂, change, if_pos rfl, id] at h₁
  simp only [Width.bits] at h₁
  omega

theorem converts_iff (data : Bytes) : Converts w big data ↔
    data.length / w.size < 2 ^ 31 ∧ (w = .w24 → data.length < 4) := by
  constructor
  · intro h
    refine ⟨?_, h.length_lt⟩
    obtain ⟨out, -, hout, -⟩ := h
    by_contra hlong
    rw [transformSignedUnsigned, if_neg hlong] at hout
    cases hout
  · rintro ⟨hshort, h24⟩
    have hout := changed_transformSamples w big data
    have hout' := changed_transformSamples w big
      (transformSamples w big (data.length / w.size) data)
    have hwide : 0 < data.length / w.size → w ≠ .w24 := by
      rintro hpos rfl
      exact absurd (h24 rfl) (Nat.not_lt.2 (Nat.div_pos_iff.1 hpos).2)
    refine ⟨_, _, if_pos hshort, hout.congr fun hpos v _ => ?_, if_pos (by rwa [hout.1]),
      (hout.trans hout').congr fun hpos v hv => ?_⟩
    · rw [change, if_neg (hwide hpos)]
    · rw [change, if_neg (hwide hpos), Function.comp_apply]
      cases w <;> simp only [Width.bits, id] at hv ⊢ <;> omega

theorem not_converts_w24 : ¬ Converts .w24 false [0, 0, 0, 0] :=
  fun h => absurd (h.length_lt rfl) (by decide)

end Darling.AudioHardware
