import Darling.ResourceManager
import Darling.Runs

/-!
# Fresh numbers of the Resource Manager

The loop over the reference numbers goes from 32767 back to 1, the increment behind it does not: the
first 32767 files that are opened get the numbers from 1 on, whatever is closed, and the next one
gets -32768.  `UniqueID` does not look at the files behind one that lacks the type, and neither
search tries the largest id.
-/

namespace Darling.ResourceManager

namespace RefNums

open List

variable {φ : Type}

/-- An open that succeeds ends with a new number for the file, and no other number changes what it
stands for, unless it is closed. -/
def Right (s : RefNums φ) : Call φ → Prop
  | .fsOpenResourceFile none => True
  | .fsOpenResourceFile (some r) => ∃ n s', s.fsOpenResourceFile (some r) = some (n, s') ∧
      0 < n ∧ n ≠ -1 ∧ n ∉ s.resources ∧ s'.resources.lookup n = some r ∧
        ∀ m, m ≠ n → s'.resources.lookup m = s.resources.lookup m
  | .closeResFile refNum => ∀ m, m ≠ refNum →
      (s.step (.closeResFile refNum)).resources.lookup m = s.resources.lookup m

def Call.opens : Call φ → Bool
  | .fsOpenResourceFile file => file.isSome
  | .closeResFile _ => false

structure Opened (s : RefNums φ) (k : ℕ) : Prop where
  next : s.nextRefNum = Int.bmod (k + 1) (2 ^ 16)
  range : ∀ n ∈ s.resources, 1 ≤ n ∧ n ≤ k

variable {s : RefNums φ} {k : ℕ}

theorem bmod_succ (h : k < 32767) : Int.bmod (k + 1) (2 ^ 16) = (k : ℤ) + 1 :=
  Int.bmod_eq_of_le (by omega) (by omega)

theorem Opened.next_notMem (h : Opened s k) (hk : k ≤ 32767) : s.nextRefNum ∉ s.resources := by
  intro hmem
  have hrange := h.range _ hmem
  rw [h.next] at hrange
  obtain hk | rfl := hk.lt_or_eq
  · rw [bmod_succ hk] at hrange
    omega
  · exact absurd hrange.1 (by decide)

theorem findFree_of_notMem {resources : UnorderedMap ℤ φ} {n : ℤ} (rounds : ℕ) (h : n ∉ resources) :
    findFree resources (rounds + 1) n = some n := by
  rw [findFree, if_neg h]

section

variable (h : Opened s k)

include h

theorem Opened.open_eq (hk : k ≤ 32767) (r : φ) :
    s.fsOpenResourceFile (some r) = some (s.nextRefNum,
      ⟨s.resources.emplace s.nextRefNum r, Int.bmod (s.nextRefNum + 1) (2 ^ 16)⟩) := by
  have hfree : findFree s.resources (2 ^ 16) s.nextRefNum = some s.nextRefNum :=
    findFree_of_notMem 65535 (h.next_notMem hk)
  rw [fsOpenResourceFile, hfree, Option.map_some]

theorem Opened.right_open_iff (hk : k ≤ 32767) (r : φ) :
    s.Right (.fsOpenResourceFile (some r)) ↔ k < 32767 := by
  have hfree := h.next_notMem hk
  rw [Right]
  simp only [h.open_eq hk, Option.some.injEq, Prod.mk.injEq]
  constructor
  · rintro ⟨n, s', ⟨rfl, rfl⟩, hpos, -⟩
    refine hk.lt_of_ne fun he => ?_
    rw [h.next, he] at hpos
    exact absurd hpos (by decide)
  · intro hlt
    have hnext : s.nextRefNum = k + 1 := h.next.trans (bmod_succ hlt)
    refine ⟨_, _, ⟨rfl, rfl⟩, by omega, by omega, hfree,
      UnorderedMap.lookup_emplace_self hfree r, fun m hm => ?_⟩
    rw [UnorderedMap.lookup_emplace, if_neg hm, Option.or_none]

theorem Opened.step_open (hk : k < 32767) (r : φ) :
    Opened (s.step (.fsOpenResourceFile (some r))) (k + 1) := by
  have hnext : s.nextRefNum = k + 1 := h.next.trans (bmod_succ hk)
  rw [step, h.open_eq hk.le]
  refine ⟨by simp [hnext], fun n hn => ?_⟩
  obtain rfl | hn := UnorderedMap.mem_emplace.1 hn
  · omega
  · have := h.range n hn
    omega

theorem Opened.step_close (refNum : ℤ) : Opened (s.step (.closeResFile refNum)) k :=
  ⟨h.next, fun n hn => h.range n (AList.mem_erase.1 hn).2⟩

end

theorem Opened.right_iff : ∀ {s : RefNums φ} {k : ℕ} {calls : List (Call φ)}, Opened s k →
    k ≤ 32767 → (EachStep step Right s calls ↔ k + calls.countP Call.opens ≤ 32767)
  | s, k, [], _, hk => by simp [EachStep, hk]
  | s, k, .closeResFile refNum :: calls, h, hk => by
    have hright : s.Right (.closeResFile refNum) := fun m hm => AList.lookup_erase_ne hm
    rw [EachStep, (h.step_close refNum).right_iff hk, countP_cons_of_neg (by simp [Call.opens])]
    exact and_iff_right hright
  | s, k, .fsOpenResourceFile none :: calls, h, hk => by
    have hstep : s.step (.fsOpenResourceFile none) = s := rfl
    rw [EachStep, hstep, h.right_iff hk, countP_cons_of_neg (by simp [Call.opens])]
    exact and_iff_right trivial
  | s, k, .fsOpenResourceFile (some r) :: calls, h, hk => by
    rw [EachStep, h.right_open_iff hk, countP_cons_of_pos rfl]
    by_cases hlt : k < 32767
    · rw [(h.step_open hlt r).right_iff (by omega), and_iff_right hlt]
      omega
    · omega

theorem opened_initial : Opened ({} : RefNums φ) 0 :=
  ⟨rfl, fun n hn => absurd hn (AList.notMem_empty n)⟩

theorem refNums_right_iff (calls : List (Call φ)) :
    EachStep step Right {} calls ↔ calls.countP Call.opens ≤ 32767 := by
  rw [opened_initial.right_iff (Nat.zero_le _), Nat.zero_add]

def churn : ℕ → List (Call Unit)
  | 0 => []
  | k + 1 => churn k ++ [.fsOpenResourceFile (some ()), .closeResFile (k + 1)]

theorem opened_churn : ∀ {k : ℕ}, k ≤ 32767 → Opened ((churn k).foldl step {}) k ∧
    ((churn k).foldl step {}).resources = ∅
  | 0, _ => ⟨opened_initial, rfl⟩
  | k + 1, hk => by
    obtain ⟨h, hempty⟩ := opened_churn (Nat.le_of_succ_le hk)
    have hnext := h.next.trans (bmod_succ hk)
    rw [churn, foldl_append, foldl_cons, foldl_cons, foldl_nil]
    refine ⟨(h.step_open hk ()).step_close _, ?_⟩
    rw [step, step, h.open_eq (Nat.le_of_succ_le hk), hnext, hempty]
    exact UnorderedMap.erase_emplace (AList.notMem_empty _)

theorem few_churn : ∀ {k : ℕ}, k ≤ 32768 →
    EachStep step (fun s _ => s.resources.keys.length < 32767) {} (churn k)
  | 0, _ => trivial
  | k + 1, hk => by
    obtain ⟨h, hempty⟩ := opened_churn (Nat.le_of_succ_le_succ hk)
    refine eachStep_append.2 ⟨few_churn (Nat.le_of_succ_le hk), ?_, ?_, trivial⟩
    · change (AList.keys _).length < 32767
      rw [hempty]
      decide
    · rw [step, h.open_eq (Nat.le_of_succ_le_succ hk), hempty]
      simp [UnorderedMap.emplace]

theorem countP_churn : ∀ k, (churn k).countP Call.opens = k
  | 0 => rfl
  | k + 1 => by
    rw [churn, countP_append, countP_churn k]
    rfl

theorem refNums_negative :
    EachStep step (fun s _ => s.resources.keys.length < 32767) {} (churn 32768) ∧
      ¬ EachStep step Right {} (churn 32768) := by
  generalize hk : 32768 = k
  refine ⟨few_churn hk.ge, ?_⟩
  rw [opened_initial.right_iff (Nat.zero_le _), countP_churn]
  omega

end RefNums

/-- A resource of the type in one of the files has the id. -/
def Used (s : State) (files : List File) (type id : ℕ) : Prop :=
  ∃ r ∈ files, ∃ rtd, r.resourceTypes.lookup type = some rtd ∧
    ∃ p ∈ rtd.resources, (s.heap.lookup p).map (·.id) = some id

/-- The index of one of the files has the id. -/
def Indexed (files : List File) (type id : ℕ) : Prop :=
  ∃ r ∈ files, ∃ rtd, r.resourceTypes.lookup type = some rtd ∧ id ∈ rtd.idMap

/-- The answer is an id from 128 on that is not in use, or 0 if there is none. -/
def Unused (used : ℕ → Prop) (id : ℕ) : Prop :=
  (id ≠ 0 → 128 ≤ id ∧ ¬ used id) ∧ (id = 0 → ∀ i, 128 ≤ i → i ≤ 32767 → used i)

/-- An id in use that the index lacks is behind one that the index lacks, and if it lacks none that
is tried, all ids are in use. -/
def Findable (indexed used : ℕ → Prop) : Prop :=
  (∀ i, 128 ≤ i → i < 32767 → used i → ¬ indexed i → ∃ j, 128 ≤ j ∧ j < i ∧ ¬ indexed j) ∧
    ((∀ i, 128 ≤ i → i < 32767 → indexed i) → ∀ i, 128 ≤ i → i ≤ 32767 → used i)

theorem unused_firstUnused_iff {indexed used : ℕ → Prop} {f : ℕ → Bool}
    (h : ∀ i, f i ↔ indexed i) : Unused used (firstUnused f) ↔ Findable indexed used := by
  rcases hfind : (List.range' 128 (32767 - 128)).find? (fun i => ! f i) with _ | i
  · have hall : ∀ i, 128 ≤ i → i < 32767 → indexed i := fun i h₁ h₂ => by
      have := List.find?_eq_none.1 hfind i (List.mem_range'_1.2 ⟨h₁, by omega⟩)
      rw [← h i]
      simpa using this
    have hzero : firstUnused f = 0 := by rw [firstUnused, hfind, Option.getD_none]
    rw [hzero]
    exact ⟨fun hu => ⟨fun i h₁ h₂ _ hi => absurd (hall i h₁ h₂) hi, fun _ => hu.2 rfl⟩,
      fun hf => ⟨fun hne => absurd rfl hne, fun _ => hf.2 hall⟩⟩
  · obtain ⟨hi, hmem, hfirst⟩ := List.find?_range'_eq_some.1 hfind
    have hrange := List.mem_range'_1.1 hmem
    have hnot : ¬ indexed i := by
      rw [← h i]
      simpa using hi
    have hbelow : ∀ j, 128 ≤ j → j < i → indexed j := fun j h₁ h₂ => by
      rw [← h j]
      simpa using hfirst j h₁ h₂
    rw [show firstUnused f = i by rw [firstUnused, hfind, Option.getD_some]]
    constructor
    · intro hu
      have hfree := (hu.1 (by omega)).2
      refine ⟨fun k h₁ h₂ hk hnk => ⟨i, hrange.1, ?_, hnot⟩, fun hall => ?_⟩
      · rcases Nat.lt_trichotomy i k with hlt | rfl | hgt
        · exact hlt
        · exact absurd hk hfree
        · exact absurd (hbelow k h₁ hgt) hnk
      · exact absurd (hall i hrange.1 (by omega)) hnot
    · refine fun hf => ⟨fun _ => ⟨hrange.1, fun hk => ?_⟩, fun h0 => by omega⟩
      obtain ⟨j, h₁, h₂, hj⟩ := hf.1 i hrange.1 (by omega) hk hnot
      exact hj (hbelow j h₁ h₂)

theorem unused_128_iff {used : ℕ → Prop} : Unused used 128 ↔ ¬ used 128 :=
  ⟨fun h => (h.1 (by decide)).2, fun h => ⟨fun _ => ⟨le_rfl, h⟩, fun h0 => absurd h0 (by decide)⟩⟩

variable (s : State) (type : ℕ)

theorem unused_uniqueID_iff : Unused (Used s s.files type) (s.uniqueID type) ↔
    ((∃ r ∈ s.files, r.resourceTypes.lookup type = none) → ¬ Used s s.files type 128) ∧
      ((∀ r ∈ s.files, r.resourceTypes.lookup type ≠ none) →
        Findable (Indexed s.files type) (Used s s.files type)) := by
  rw [State.uniqueID]
  split_ifs with hany
  · have hlacks : ∃ r ∈ s.files, r.resourceTypes.lookup type = none := by simpa using hany
    obtain ⟨r, hr, htype⟩ := hlacks
    rw [unused_128_iff]
    exact ⟨fun h => ⟨fun _ => h, fun hall => absurd htype (hall r hr)⟩, fun h => h.1 ⟨r, hr, htype⟩⟩
  · have hall : ∀ r ∈ s.files, r.resourceTypes.lookup type ≠ none := by simpa using hany
    have hindexed : ∀ i, (s.files.any fun r => (r.resourceTypes.lookup type).any fun rtd =>
        decide (i ∈ rtd.idMap)) ↔ Indexed s.files type i := fun i => by
      simp [List.any_eq_true, Option.any_eq_true, Indexed]
    rw [unused_firstUnused_iff hindexed]
    refine ⟨fun h => ⟨?_, fun _ => h⟩, fun h => h.2 hall⟩
    rintro ⟨r, hr, htype⟩
    exact absurd htype (hall r hr)

theorem unused_unique1ID_iff {r : File} (h : s.currentResources = some r) :
    Unused (Used s [r] type) (s.unique1ID type) ↔
      (r.resourceTypes.lookup type ≠ none → Findable (Indexed [r] type) (Used s [r] type)) := by
  rw [State.unique1ID, h]
  dsimp only
  rcases htype : r.resourceTypes.lookup type with _ | rtd
  · simp [htype, unused_128_iff, Used]
  · rw [forall_prop_of_true (Option.some_ne_none rtd)]
    refine unused_firstUnused_iff fun i => ?_
    simp [Indexed, htype]

/-- Both calls answer with an unused id; without a current file `Unique1ID` returns 0. -/
def UniqueRight : Prop :=
  Unused (Used s s.files type) (s.uniqueID type) ∧
    (∀ r, s.currentResources = some r → Unused (Used s [r] type) (s.unique1ID type)) ∧
      (s.currentResources = none → s.unique1ID type = 0)

theorem unique_right_iff : UniqueRight s type ↔
    ((∃ r ∈ s.files, r.resourceTypes.lookup type = none) → ¬ Used s s.files type 128) ∧
      ((∀ r ∈ s.files, r.resourceTypes.lookup type ≠ none) →
        Findable (Indexed s.files type) (Used s s.files type)) ∧
          ∀ r, s.currentResources = some r → r.resourceTypes.lookup type ≠ none →
            Findable (Indexed [r] type) (Used s [r] type) := by
  have hnone : s.currentResources = none → s.unique1ID type = 0 := fun h => by
    rw [State.unique1ID, h]
  rw [UniqueRight, unused_uniqueID_iff, and_assoc, and_iff_left hnone]
  exact and_congr_right fun _ => and_congr_right fun _ =>
    forall_congr' fun r => forall_congr' fun h => unused_unique1ID_iff s type h

def twoFiles : State :=
  (State.initial.fsOpenResourceFile 2
    (AList.insert 5 [⟨200, 600, ⟨128, 5, [], 0, []⟩⟩] ∅) id).fsOpenResourceFile 1 ∅ id

theorem uniqueID_taken : twoFiles.uniqueID 5 = 128 ∧ ¬ UniqueRight twoFiles 5 := by
  have hused : Used twoFiles twoFiles.files 5 128 :=
    ⟨_, .tail _ (.head _), _, rfl, 200, by decide, by decide⟩
  exact ⟨by decide, fun h => (h.1.1 (by decide)).2 hused⟩

end Darling.ResourceManager
