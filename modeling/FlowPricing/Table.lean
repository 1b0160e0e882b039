/-
Finite maps that remember the order in which their keys were first
entered. Entering a value under a known key replaces the value where it
stands; a new key goes to the end.

The view is `get?`: `get?_insert` and `get?_modify` say what each
operation does to it, and `keys_insert` and `keys_modify` what it does
to the order.
-/
namespace FlowPricing

/-- A finite map, kept as its entries in the order of entry. -/
structure Table (α β : Type) where
  entries : List (α × β) := []
deriving Repr, DecidableEq

namespace Table

variable {α β : Type}

instance : Inhabited (Table α β) := ⟨⟨[]⟩⟩

/-- The table without entries. -/
def empty : Table α β := ⟨[]⟩

/-- The keys in the order of entry. -/
def keys (t : Table α β) : List α := t.entries.map Prod.fst

/-- The values in the order of entry. -/
def values (t : Table α β) : List β := t.entries.map Prod.snd

/-- How many keys there are. -/
def size (t : Table α β) : Nat := t.entries.length

/-- No key stands in the table twice. -/
def Nodup (t : Table α β) : Prop := t.keys.Nodup

/-- Every key once, each with the same value. -/
def fill (ks : List α) (v : β) : Table α β := ⟨ks.map (·, v)⟩

/-- The values changed, the keys as they were. -/
def mapValues (t : Table α β) (f : β → β) : Table α β :=
  ⟨t.entries.map fun e => (e.1, f e.2)⟩

@[simp] theorem keys_fill (ks : List α) (v : β) :
    (fill ks v).keys = ks := by
  simp [keys, fill, Function.comp_def]

@[simp] theorem keys_mapValues (t : Table α β) (f : β → β) :
    (t.mapValues f).keys = t.keys := by
  simp [keys, mapValues, Function.comp_def]

variable [DecidableEq α]

/-- The value under `k` in a list of entries. -/
def find (k : α) : List (α × β) → Option β
  | [] => none
  | e :: es => if e.1 = k then some e.2 else find k es

/-- The value under a key. -/
def get? (t : Table α β) (k : α) : Option β := find k t.entries

/-- Whether a key has a value. -/
def contains (t : Table α β) (k : α) : Bool := (t.get? k).isSome

/-- Enters `v` under `k` in a list of entries. -/
def enter (k : α) (v : β) : List (α × β) → List (α × β)
  | [] => [(k, v)]
  | e :: es => if e.1 = k then (k, v) :: es else e :: enter k v es

/-- Enters `v` under `k`, in place of what was there. -/
def insert (t : Table α β) (k : α) (v : β) : Table α β :=
  ⟨enter k v t.entries⟩

/-- Changes the value under `k`, if there is one. -/
def modify (t : Table α β) (k : α) (f : β → β) : Table α β :=
  ⟨t.entries.map fun e => if e.1 = k then (e.1, f e.2) else e⟩

-- ============================================================ the view

@[simp] theorem get?_empty (k : α) : (empty : Table α β).get? k = none := rfl

theorem find_enter (k k' : α) (v : β) (es : List (α × β)) :
    find k' (enter k v es) = if k = k' then some v else find k' es := by
  induction es with
  | nil => simp [enter, find]
  | cons e es ih =>
      by_cases h : e.1 = k
      · by_cases hk : k = k' <;> simp [enter, find, h, hk]
      · by_cases hk : k = k'
        · subst hk; simp [enter, find, h, ih]
        · rw [enter, if_neg h, find, find, ih, if_neg hk, if_neg hk]

@[simp] theorem get?_insert (t : Table α β) (k k' : α) (v : β) :
    (t.insert k v).get? k' = if k = k' then some v else t.get? k' :=
  find_enter k k' v t.entries

theorem get?_modify (t : Table α β) (k k' : α) (f : β → β) :
    (t.modify k f).get? k' = if k = k' then (t.get? k').map f
      else t.get? k' := by
  obtain ⟨es⟩ := t
  simp only [modify, get?]
  induction es with
  | nil => simp [find]
  | cons e es ih =>
      by_cases hk : k = k'
      · subst hk
        by_cases he : e.1 = k
        · simp [find, he]
        · simpa [find, he] using ih
      · by_cases he : e.1 = k
        · have hne : e.1 ≠ k' := fun h => hk (he.symm.trans h)
          simpa [find, he, hk, hne] using ih
        · rw [List.map_cons, if_neg he, find, find, ih, if_neg hk, if_neg hk]

theorem find_eq_none_iff (k : α) (es : List (α × β)) :
    find k es = none ↔ k ∉ es.map Prod.fst := by
  induction es with
  | nil => simp [find]
  | cons e es ih =>
      by_cases h : e.1 = k
      · simp [find, h]
      · simp [find, h, ih, Ne.symm h]

theorem get?_eq_none_iff (t : Table α β) (k : α) :
    t.get? k = none ↔ k ∉ t.keys := find_eq_none_iff k t.entries

theorem isSome_get?_iff (t : Table α β) (k : α) :
    (t.get? k).isSome = true ↔ k ∈ t.keys := by
  rw [← Decidable.not_iff_not, ← get?_eq_none_iff]
  cases t.get? k <;> simp

-- ============================================================ the order

@[simp] theorem keys_modify (t : Table α β) (k : α) (f : β → β) :
    (t.modify k f).keys = t.keys := by
  simp only [keys, modify, List.map_map]
  refine List.map_congr_left fun e _ => ?_
  by_cases h : e.1 = k <;> simp [h]

theorem map_fst_enter (k : α) (v : β) (es : List (α × β)) :
    (enter k v es).map Prod.fst
      = if k ∈ es.map Prod.fst then es.map Prod.fst
        else es.map Prod.fst ++ [k] := by
  induction es with
  | nil => simp [enter]
  | cons e es ih =>
      by_cases h : e.1 = k
      · simp [enter, h]
      · by_cases hk : k ∈ es.map Prod.fst
        · simp_all [enter]
        · simp_all [enter, Ne.symm h]

/-- A known key stays where it is; a new one goes to the end. -/
theorem keys_insert (t : Table α β) (k : α) (v : β) :
    (t.insert k v).keys = if k ∈ t.keys then t.keys else t.keys ++ [k] :=
  map_fst_enter k v t.entries

end Table

end FlowPricing
