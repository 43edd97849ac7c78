import Mathlib.Data.Multiset.MapFold

/-!
# Database tables

A table numbers its rows by an automatically incremented key, and each row names the row of another
table it belongs to.  A store is a table together with the tables whose rows belong to its rows.
Nothing ties a row to the row it names: a row whose parent is not there is an orphan.
-/

namespace Darling.Records

open List

variable {α β ι κ : Type*}

structure Row (α : Type*) where
  id : ℕ
  parent : ℕ
  data : α
deriving DecidableEq, Repr

def Row.modify (n : ℕ) (f : α → α) (r : Row α) : Row α :=
  if r.id = n then { r with data := f r.data } else r

theorem Row.id_modify (n : ℕ) (f : α → α) (r : Row α) : (r.modify n f).id = r.id := by
  unfold modify
  split_ifs <;> rfl

@[ext]
structure RowTable (α : Type*) where
  rows : List (Row α)
  seq : ℕ
  nodup : (rows.map Row.id).Nodup
  pos : ∀ r ∈ rows, 0 < r.id
  le_seq : ∀ r ∈ rows, r.id ≤ seq

namespace RowTable

def empty : RowTable α := ⟨[], 0, nodup_nil, by simp, by simp⟩

def next (t : RowTable α) : ℕ := t.seq + 1

theorem ne_next {t : RowTable α} {r : Row α} (h : r ∈ t.rows) : r.id ≠ t.next :=
  (Nat.lt_succ_of_le (t.le_seq r h)).ne

def insert (p : ℕ) (a : α) (t : RowTable α) : RowTable α where
  rows := t.rows ++ [⟨t.next, p, a⟩]
  seq := t.next
  nodup := by
    rw [map_append, nodup_append]
    refine ⟨t.nodup, nodup_singleton _, fun n hn m hm => ?_⟩
    obtain ⟨r, hr, rfl⟩ := mem_map.1 hn
    rw [map_singleton, mem_singleton] at hm
    exact hm ▸ ne_next hr
  pos r hr := by
    rcases mem_append.1 hr with hr | hr
    · exact t.pos r hr
    · rw [mem_singleton.1 hr]
      exact Nat.succ_pos _
  le_seq r hr := by
    rcases mem_append.1 hr with hr | hr
    · exact (t.le_seq r hr).trans (Nat.le_succ _)
    · rw [mem_singleton.1 hr]

def insertAll (p : ℕ) (l : List α) (t : RowTable α) : RowTable α :=
    l.foldl (fun t a => t.insert p a) t

def deleteWhere (q : Row α → Bool) (t : RowTable α) : RowTable α where
  rows := t.rows.filter fun r => !q r
  seq := t.seq
  nodup := t.nodup.sublist (filter_sublist.map _)
  pos r hr := t.pos r (mem_of_mem_filter hr)
  le_seq r hr := t.le_seq r (mem_of_mem_filter hr)

def update (n : ℕ) (f : α → α) (t : RowTable α) : RowTable α where
  rows := t.rows.map (Row.modify n f)
  seq := t.seq
  nodup := by
    rw [map_map, show Row.id ∘ Row.modify n f = Row.id from funext (Row.id_modify n f)]
    exact t.nodup
  pos r hr := by
    obtain ⟨r', hr', rfl⟩ := mem_map.1 hr
    exact Row.id_modify n f r' ▸ t.pos r' hr'
  le_seq r hr := by
    obtain ⟨r', hr', rfl⟩ := mem_map.1 hr
    exact Row.id_modify n f r' ▸ t.le_seq r' hr'

def ids (t : RowTable α) : List ℕ := t.rows.map Row.id

def rowsOf (t : RowTable α) (p : ℕ) : List (Row α) := t.rows.filter (·.parent = p)

def kids (t : RowTable α) (p : ℕ) : List α := (t.rowsOf p).map Row.data

end RowTable

@[ext]
structure Store (α ι β : Type*) where
  parents : RowTable α
  child : ι → RowTable β

namespace Store

def empty : Store α ι β := ⟨.empty, fun _ => .empty⟩

def put (p : ℕ) (a : α) (k : ι → List β) (s : Store α ι β) : Store α ι β where
  parents := s.parents.insert p a
  child i := (s.child i).insertAll s.parents.next (k i)

def setKids (n : ℕ) (k : ι → List β) (s : Store α ι β) : Store α ι β where
  parents := s.parents
  child i := ((s.child i).deleteWhere (·.parent = n)).insertAll n (k i)

def deleteWhere (q : Row α → Bool) (s : Store α ι β) : Store α ι β :=
  { s with parents := s.parents.deleteWhere q }

def putAll (p : ℕ) (items : List (α × (ι → List β))) (s : Store α ι β) : Store α ι β :=
  items.foldl (fun s x => s.put p x.1 x.2) s

def refill (p : ℕ) (items : List (α × (ι → List β))) (s : Store α ι β) : Store α ι β :=
  (s.deleteWhere (·.parent = p)).putAll p items

/-- The row of `p` with the key of `a`, or else a new row `a`, is given new children. -/
def upsert [DecidableEq κ] (key : α → κ) (p : ℕ) (a : α) (k : ι → List β) (s : Store α ι β) :
    Store α ι β :=
  match s.parents.rows.find? (fun r => key r.data = key a ∧ r.parent = p) with
  | some r => s.setKids r.id k
  | none => { s with parents := s.parents.insert p a }.setKids s.parents.next k

def upsertAll [DecidableEq κ] (key : α → κ) (p : ℕ) (items : List (α × (ι → List β)))
    (s : Store α ι β) : Store α ι β := items.foldl (fun s x => s.upsert key p x.1 x.2) s

def kids (s : Store α ι β) (n : ℕ) (i : ι) : Multiset β := (s.child i).kids n

def entries (s : Store α ι β) (p : ℕ) : List (α × (ι → Multiset β)) :=
  (s.parents.rowsOf p).map fun r => (r.data, s.kids r.id)

def contents (s : Store α ι β) (p : ℕ) : Multiset (α × (ι → Multiset β)) := s.entries p

def attached (s : Store α ι β) (p : ℕ) : List (Row α) × (ι → List (Row β)) :=
  (s.parents.rowsOf p,
    fun i => (s.child i).rows.filter (·.parent ∈ (s.parents.rowsOf p).map Row.id))

def Orphan (s : Store α ι β) (i : ι) (c : Row β) : Prop :=
  c ∈ (s.child i).rows ∧ c.parent ∉ s.parents.ids

end Store

/-- An entry takes the place of the first one with its key, which keeps its head, or is added. -/
def upsert [DecidableEq κ] (key : α → κ) (x : α × β) : List (α × β) → List (α × β)
  | [] => [x]
  | e :: es => if key e.1 = key x.1 then (e.1, x.2) :: es else e :: upsert key x es

def wanted [DecidableEq κ] (key : α → κ) (items : List (α × (ι → List β))) :
    List (α × (ι → Multiset β)) :=
  (items.map fun x => (x.1, fun i => (x.2 i : Multiset β))).foldl (fun L x => upsert key x L) []

/-- The rows of `p` that are updated have one key each and the head that is wanted; the others have
no children. -/
def Store.Agrees [DecidableEq κ] (key : α → κ) (p : ℕ) (items : List (α × (ι → List β)))
    (s : Store α ι β) : Prop :=
  ∀ r ∈ s.parents.rowsOf p, match items.find? (fun x => key x.1 = key r.data) with
    | some x => r.data = x.1 ∧ ∀ r' ∈ s.parents.rowsOf p, key r'.data = key r.data → r' = r
    | none => ∀ i, s.kids r.id i = 0

end Darling.Records
