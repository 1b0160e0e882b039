/-
Tables and their entries. In a table that holds no key twice, looking up
a key and finding its entry are the same thing (`get?_eq_some_iff`), and
changing the values entry by entry changes what is looked up. A table can also
give the keys of a list their places in it (`Numbers`).
-/
import FlowPricing.Table
import Mathlib.Data.List.Nodup

namespace FlowPricing.Table

variable {α β : Type}

/-- The table has the number of every one of the keys, and nothing else. -/
def Numbers (t : Table α Nat) (ks : List α) : Prop := t.entries = ks.zipIdx

/-- A table that numbers a list has its elements as keys. -/
theorem Numbers.keys_eq {t : Table α Nat} {ks : List α} (h : t.Numbers ks) :
    t.keys = ks := by
  unfold keys
  rw [h, List.zipIdx_map_fst]

theorem Numbers.size_eq {t : Table α Nat} {ks : List α} (h : t.Numbers ks) :
    t.size = ks.length := by
  unfold size
  rw [h, List.length_zipIdx]

variable [DecidableEq α]

/-- What is found is an entry. -/
theorem mem_of_find {k : α} {v : β} {es : List (α × β)}
    (h : find k es = some v) :
    (k, v) ∈ es := by
  induction es with
  | nil => exact nomatch h
  | cons e es ih =>
      unfold find at h
      split at h
      · next hk =>
          obtain rfl := Option.some.inj h
          subst hk
          exact List.mem_cons_self
      · exact List.mem_cons_of_mem e (ih h)

/-- An entry is found if no key is doubled. -/
theorem find_of_mem {k : α} {v : β} {es : List (α × β)}
    (hn : (es.map Prod.fst).Nodup) (h : (k, v) ∈ es) : find k es = some v := by
  induction es with
  | nil => exact absurd h List.not_mem_nil
  | cons e es ih =>
      rw [List.map_cons, List.nodup_cons] at hn
      unfold find
      rcases List.mem_cons.1 h with rfl | h
      · rw [if_pos rfl]
      · have hne : e.1 ≠ k := fun hk => hn.1 (hk ▸ List.mem_map_of_mem h)
        rw [if_neg hne]
        exact ih hn.2 h

/-- What is found among keys that are entered with values of their own. -/
theorem find_map (f : α → β) (ks : List α) (k : α) :
    find k (ks.map fun a => (a, f a)) = if k ∈ ks
      then some (f k) else none := by
  induction ks with
  | nil => rfl
  | cons b ks ih =>
      rw [List.map_cons, find]
      by_cases hbk : b = k
      · simp [hbk]
      · simp [hbk, ih, Ne.symm hbk]

/-- A filled table knows its keys and no others. -/
theorem get?_fill (ks : List α) (v : β) (k : α) :
    (fill ks v).get? k = if k ∈ ks then some v else none :=
  find_map (fun _ => v) ks k

/-- The value under a key is the one in its entry. -/
theorem get?_eq_some_iff {t : Table α β} (h : t.Nodup) {k : α} {v : β} :
    t.get? k = some v ↔ (k, v) ∈ t.entries :=
  ⟨mem_of_find, find_of_mem h⟩

/-- What is entered under a new key comes last. -/
theorem enter_of_not_mem {k : α} {es : List (α × β)}
    (h : k ∉ es.map Prod.fst) (v : β) :
    enter k v es = es ++ [(k, v)] := by
  induction es with
  | nil => rfl
  | cons e es ih =>
      rw [List.map_cons, List.mem_cons, not_or] at h
      rw [enter, if_neg (Ne.symm h.1), ih h.2, List.cons_append]

/-- Entering what is there already changes nothing. -/
theorem insert_of_get? {t : Table α β} {k : α} {v : β} (h : t.get? k = some v) :
    t.insert k v = t := by
  obtain ⟨es⟩ := t
  simp only [insert, get?, Table.mk.injEq] at h ⊢
  induction es with
  | nil => simp [find] at h
  | cons e es ih =>
      unfold find at h
      unfold enter
      by_cases hk : e.1 = k
      · rw [if_pos hk] at h ⊢
        rw [← hk, ← Option.some.inj h]
      · rw [if_neg hk] at h ⊢
        rw [ih h]

/-- Changes under different keys can be made in either order. -/
theorem modify_comm (t : Table α β) {k k' : α} (h : k ≠ k') (f g : β → β) :
    (t.modify k f).modify k' g = (t.modify k' g).modify k f := by
  simp only [modify, List.map_map]
  congr 1
  apply List.map_congr_left
  intro e _
  by_cases hk : e.1 = k
  · simp [hk, h]
  · by_cases hk' : e.1 = k'
    · simp [hk', Ne.symm h]
    · simp [hk, hk']

-- ====================================================== numbers of keys

section Numbers

variable {t : Table α Nat} {ks : List α} {k : α}

/-- It contains exactly the elements of the list. -/
theorem Numbers.contains_iff (h : t.Numbers ks) :
    t.contains k = true ↔ k ∈ ks := by
  unfold contains
  rw [isSome_get?_iff, h.keys_eq]

/-- An element is under the number of its place. -/
theorem Numbers.get?_eq_some (h : t.Numbers ks) (hks : ks.Nodup) {i : Nat} :
    t.get? k = some i ↔ ks[i]? = some k := by
  have hnodup : t.Nodup := by
    rw [Table.Nodup, h.keys_eq]
    exact hks
  rw [get?_eq_some_iff hnodup, h]
  exact List.mem_zipIdx_iff_getElem?

theorem Numbers.get?_eq_none (h : t.Numbers ks) : t.get? k = none ↔ k ∉ ks := by
  rw [get?_eq_none_iff, h.keys_eq]

/-- A new key gets the next number. -/
theorem Numbers.insert (h : t.Numbers ks) (hk : k ∉ ks) :
    (t.insert k ks.length).Numbers (ks ++ [k]) := by
  have hnew : k ∉ t.entries.map Prod.fst := by
    show k ∉ t.keys
    rw [h.keys_eq]
    exact hk
  unfold Numbers Table.insert
  rw [enter_of_not_mem hnew, h, List.zipIdx_append]
  simp

end Numbers

end FlowPricing.Table
