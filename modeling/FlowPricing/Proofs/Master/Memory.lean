/-
What the master in memory keeps. Its constraints are numbered in the order
of entry, and the numbers fit a handle as long as there are no more than
`UInt32.size` constraints: up to there no two of them share a handle, and
all that follows holds.

While a problem is modelled (`Step`, `Later`), constraints are only ever
added, so a handle goes on to stand for the same constraint. A
transformation records for every constraint that is there a copy just like
it. Hence a constraint that is open to columns, together with the copy it
may have (`Ready`), remains so through any number of transformations.
-/
import FlowPricing.Master.Memory
import FlowPricing.Proofs.Action
import FlowPricing.Proofs.Table
import Mathlib.Data.List.Induction
import Mathlib.Logic.Relation

namespace FlowPricing

-- ============================================================== handles

namespace ConstraintId

variable {c d : ConstraintId} {i : Nat}

/-- A handle is told by its index. -/
theorem index_injective (h : c.index = d.index) : c = d := by
  cases c
  cases d
  exact congrArg ConstraintId.mk (UInt32.toNat_inj.1 h)

theorem ofIndex_index (c : ConstraintId) : ofIndex c.index = c :=
  congrArg ConstraintId.mk UInt32.ofNat_toNat

/-- A position that fits a handle is the one the handle stands for. -/
theorem index_ofIndex (h : i < UInt32.size) : (ofIndex i).index = i :=
  UInt32.toNat_ofNat_of_lt' h

end ConstraintId

/-- A variable's handle never stands for a later position than its own. -/
theorem VariableId.index_ofIndex_le (i : Nat) : (ofIndex i).index ≤ i := by
  show (UInt32.ofNat i).toNat ≤ i
  rw [UInt32.toNat_ofNat']
  exact Nat.mod_le i UInt32.size

namespace MemoryMaster

variable {m m' : MemoryMaster} {c d : ConstraintId} {r : Row}

-- ================================================================= rows

/-- A handle leads to a row that stands at its index and is not deleted. -/
theorem row?_eq_some :
    m.row? c = some r ↔ m.rows[c.index]? = some r ∧ r.deleted = false := by
  unfold row?
  cases hrow : m.rows[c.index]? with
  | none => simp
  | some x =>
      simp only
      by_cases hx : x.deleted = true
      · rw [if_pos hx]
        constructor
        · exact nofun
        · intro h
          obtain ⟨h, hr⟩ := h
          rw [Option.some.inj h, hr] at hx
          exact nomatch hx
      · rw [if_neg hx]
        constructor
        · intro h
          rw [← Option.some.inj h]
          exact ⟨rfl, by simpa using hx⟩
        · exact And.left

/-- Changing one constraint leaves the others as they are. -/
theorem row?_modifyRow_of_ne (h : c ≠ d) (f : Row → Row) :
    (m.modifyRow c f).row? d = m.row? d := by
  have hindex : c.index ≠ d.index :=
    fun heq => h (ConstraintId.index_injective heq)
  unfold row? modifyRow
  rw [List.getElem?_modify_ne _ _ hindex]

/-- A change that does not delete a row shows under its handle. -/
theorem row?_modifyRow {f : Row → Row} (h : m.row? c = some r)
    (hf : (f r).deleted = false) :
    (m.modifyRow c f).row? c = some (f r) := by
  obtain ⟨hrow, -⟩ := row?_eq_some.1 h
  rw [row?_eq_some]
  refine ⟨?_, hf⟩
  show (m.rows.modify c.index f)[c.index]? = some (f r)
  rw [List.getElem?_modify_eq, hrow]
  rfl

/-- A constraint that is there and takes new columns. -/
def Open (m : MemoryMaster) (c : ConstraintId) : Prop :=
  ∃ r, m.row? c = some r ∧ r.modifiable = true

/-- A change that leaves a constraint open leaves all open that were. -/
theorem Open.modifyRow {f : Row → Row} (h : m.Open c)
    (hf : ∀ r, (f r).deleted = r.deleted
      ∧ (r.modifiable = true → (f r).modifiable = true)) :
    (m.modifyRow d f).Open c := by
  obtain ⟨r, hrow, hopen⟩ := h
  obtain ⟨hdeleted, hkept⟩ := hf r
  by_cases hdc : d = c
  · subst hdc
    refine ⟨f r, ?_, hkept hopen⟩
    apply row?_modifyRow hrow
    rw [hdeleted]
    exact (row?_eq_some.1 hrow).2
  · refine ⟨r, ?_, hopen⟩
    rw [row?_modifyRow_of_ne hdc]
    exact hrow

-- =========================================================== operations

/-- Looking up a row succeeds exactly for a live one, and changes nothing. -/
theorem row_eq_ok {op : MasterOperation} :
    row op c m = .ok r m' ↔ m.row? c = some r ∧ m = m' := by
  unfold row
  rw [Action.get_bind]
  cases m.row? c with
  | none => simp [Action.throw_ne_ok]
  | some x =>
      simp only [Option.some.injEq]
      exact Action.pure_eq_ok

/-- Looking up a column succeeds exactly if there is one. -/
theorem column_eq_ok {op : MasterOperation} {v : VariableId} {x : Column} :
    column op v m = .ok x m' ↔ m.columns[v.index]? = some x ∧ m = m' := by
  unfold column
  rw [Action.get_bind]
  cases m.columns[v.index]? with
  | none => simp [Action.throw_ne_ok]
  | some y =>
      simp only [Option.some.injEq]
      exact Action.pure_eq_ok

/-- A variable answers with the name of its column. -/
theorem variableName_eq_ok {v : VariableId} {name : String}
    (h : EditableMaster.variableName v m = .ok name m') :
    m' = m ∧ ∃ x, m.columns[v.index]? = some x ∧ x.name = name := by
  obtain ⟨x, t, hx, h⟩ := Action.bind_eq_ok.1 h
  obtain ⟨hget, rfl⟩ := column_eq_ok.1 hx
  obtain ⟨rfl, rfl⟩ := Action.pure_eq_ok.1 h
  exact ⟨rfl, x, hget, rfl⟩

/-- A constraint answers with the name of its row. -/
theorem constraintName_eq_ok {name : String}
    (h : EditableMaster.constraintName c m = .ok name m') :
    m' = m ∧ ∃ r, m.row? c = some r ∧ r.name = name := by
  obtain ⟨r, t, hr, h⟩ := Action.bind_eq_ok.1 h
  obtain ⟨hrow, rfl⟩ := row_eq_ok.1 hr
  obtain ⟨rfl, rfl⟩ := Action.pure_eq_ok.1 h
  exact ⟨rfl, r, hrow, rfl⟩

theorem constraintTerms_eq_ok {terms : List (VariableId × Float)}
    (h : EditableMaster.constraintTerms c m = .ok terms m') :
    m' = m ∧ ∃ r, m.row? c = some r ∧ r.terms = terms := by
  obtain ⟨r, t, hr, h⟩ := Action.bind_eq_ok.1 h
  obtain ⟨hrow, rfl⟩ := row_eq_ok.1 hr
  obtain ⟨rfl, rfl⟩ := Action.pure_eq_ok.1 h
  exact ⟨rfl, r, hrow, rfl⟩

/-- Deleting a constraint changes its row only. -/
theorem deleteConstraint_eq_ok {u : Unit}
    (h : EditableMaster.deleteConstraint c m = .ok u m') :
    ∃ f, m' = m.modifyRow c f := by
  obtain ⟨r, t, hr, h⟩ := Action.bind_eq_ok.1 h
  obtain ⟨-, rfl⟩ := row_eq_ok.1 hr
  exact ⟨_, (Action.modify_eq_ok.1 h).symm⟩

theorem removeCoefficient_eq_ok {v : VariableId} {u : Unit}
    (h : EditableMaster.removeCoefficient c v m = .ok u m') :
    ∃ f, m' = m.modifyRow c f := by
  obtain ⟨r, t, hr, h⟩ := Action.bind_eq_ok.1 h
  obtain ⟨-, rfl⟩ := row_eq_ok.1 hr
  exact ⟨_, (Action.modify_eq_ok.1 h).symm⟩

/-- A constraint that was made modifiable is open. -/
theorem setModifiable_eq_ok {u : Unit}
    (h : EditableMaster.setModifiable c m = .ok u m') :
    (∃ f, m' = m.modifyRow c f) ∧ m'.Open c := by
  obtain ⟨r, t, hr, h⟩ := Action.bind_eq_ok.1 h
  obtain ⟨hrow, rfl⟩ := row_eq_ok.1 hr
  obtain rfl := Action.modify_eq_ok.1 h
  refine ⟨⟨_, rfl⟩, { r with modifiable := true }, ?_, rfl⟩
  exact row?_modifyRow hrow (row?_eq_some.1 hrow).2

/-- A constraint without a copy stands for itself. -/
theorem transformedConstraint_eq_ok
    (h : MasterProblem.transformedConstraint c m = .ok d m') :
    m' = m ∧ d = (m.transformed.get? c).getD c := by
  obtain ⟨r, t, hr, h⟩ := Action.bind_eq_ok.1 h
  obtain ⟨-, rfl⟩ := row_eq_ok.1 hr
  rw [Action.get_bind] at h
  obtain ⟨rfl, rfl⟩ := Action.pure_eq_ok.1 h
  exact ⟨rfl, rfl⟩

/-- An open constraint takes any coefficient. -/
theorem addCoefficient_of_open (h : m.Open c) (v : VariableId) (x : Float) :
    MasterProblem.addCoefficient c v x m = .ok () (m.addTerm c v x) := by
  obtain ⟨r, hrow, hopen⟩ := h
  refine Action.bind_eq_ok.2 ⟨r, m, row_eq_ok.2 ⟨hrow, rfl⟩, ?_⟩
  rw [if_pos hopen]
  rfl

/-- Every variable there is can be committed. -/
theorem commitVariable_of_lt {v : VariableId} (h : v.index < m.columns.length) :
    ∃ columns, MasterProblem.commitVariable v m = .ok ()
      { m with columns } := by
  have hcolumn : column .commitVariable v m = .ok m.columns[v.index] m :=
    column_eq_ok.2 ⟨List.getElem?_eq_getElem h, rfl⟩
  refine ⟨m.columns.modify v.index fun x => { x with committed := true }, ?_⟩
  exact Action.bind_eq_ok.2 ⟨_, m, hcolumn, rfl⟩

-- ============================================================ modelling

/-- One thing that happens to a master while its problem is modelled: a
constraint or a variable is entered, the multipliers are set, or the
problem is transformed. -/
inductive Step : MemoryMaster → MemoryMaster → Prop
  | row (m : MemoryMaster) (r : Row) : Step m { m with rows := m.rows ++ [r] }
  | column (m : MemoryMaster) (x : Column) :
      Step m { m with columns := m.columns ++ [x] }
  | values (m : MemoryMaster) (duals farkas : Table ConstraintId Float) :
      Step m { m with duals, farkas }
  | transform (m : MemoryMaster) : Step m m.transform

/-- What a master becomes by any number of such steps. -/
def Later : MemoryMaster → MemoryMaster → Prop := Relation.ReflTransGen Step

/-- A master before its first transformation can be modelled from nothing. -/
theorem later_of_untransformed (h : m.transformed = .empty) : Later {} m := by
  have hrows : ∀ rows : List Row, Later {} { rows } := by
    intro rows
    induction rows using List.reverseRecOn with
    | nil => exact .refl
    | append_singleton rows r ih => exact ih.tail (.row _ r)
  have hcolumns : ∀ columns : List Column,
      Later {} { rows := m.rows, columns } := by
    intro columns
    induction columns using List.reverseRecOn with
    | nil => exact hrows m.rows
    | append_singleton columns x ih => exact ih.tail (.column _ x)
  have hvalues := (hcolumns m.columns).tail (.values _ m.duals m.farkas)
  cases m
  simp only at h
  subst h
  exact hvalues

-- ====================================================== transformations

/-- The constraints that are there are those found under their handles. -/
theorem mem_liveRows (hlen : m.rows.length ≤ UInt32.size) :
    (c, r) ∈ m.liveRows ↔ m.row? c = some r := by
  unfold liveRows
  rw [row?_eq_some, List.mem_filter, List.mem_map]
  constructor
  · intro h
    obtain ⟨⟨⟨x, i⟩, hx, heq⟩, hlive⟩ := h
    obtain ⟨rfl, rfl⟩ := Prod.mk.inj heq
    have hget := List.mem_zipIdx_iff_getElem?.1 hx
    obtain ⟨hlt, -⟩ := List.getElem?_eq_some_iff.1 hget
    rw [ConstraintId.index_ofIndex (Nat.lt_of_lt_of_le hlt hlen)]
    exact ⟨hget, by simpa using hlive⟩
  · intro h
    obtain ⟨hget, hlive⟩ := h
    refine ⟨⟨(r, c.index), List.mem_zipIdx_iff_getElem?.2 hget,
      ?_⟩, by simpa using hlive⟩
    rw [ConstraintId.ofIndex_index]

/-- No handle is live twice, as long as handles do not wrap. -/
theorem nodup_liveRows (hlen : m.rows.length ≤ UInt32.size) :
    (m.liveRows.map (·.1)).Nodup := by
  have hall : (m.rows.zipIdx.map fun r => ConstraintId.ofIndex r.2)
      = (List.range' 0 m.rows.length).map ConstraintId.ofIndex := by
    rw [← List.zipIdx_map_snd 0 m.rows, List.map_map]
    rfl
  have hsub : (m.liveRows.map (·.1)).Sublist
      (m.rows.zipIdx.map fun r => ConstraintId.ofIndex r.2) := by
    have hfilter :=
      (List.filter_sublist (p := fun r : ConstraintId × Row => !r.2.deleted)
      (l := m.rows.zipIdx.map fun r => (ConstraintId.ofIndex r.2, r.1))).map
        (·.1)
    rw [List.map_map] at hfilter
    exact hfilter
  apply List.Nodup.sublist hsub
  rw [hall]
  apply List.Nodup.map_on _ (List.nodup_range' _)
  intro i hi j hj heq
  obtain ⟨-, hi'⟩ := List.mem_range'_1.1 hi
  obtain ⟨-, hj'⟩ := List.mem_range'_1.1 hj
  have hindex := congrArg ConstraintId.index heq
  rw [ConstraintId.index_ofIndex (by omega),
    ConstraintId.index_ofIndex (by omega)] at hindex
  exact hindex

/-- A transformation puts the copies behind all rows. -/
theorem rows_foldl_transformRow (l : List (ConstraintId × Row))
    (m : MemoryMaster) :
    (l.foldl transformRow m).rows = m.rows ++ l.map Prod.snd := by
  induction l generalizing m with
  | nil => simp
  | cons e l ih =>
      rw [List.foldl_cons, ih]
      simp [transformRow]

/-- A recorded copy was recorded before, for a constraint that is none of
these, or it is a copy of one of them. -/
theorem transformed_foldl_transformRow {l : List (ConstraintId × Row)}
    {m : MemoryMaster}
    (hlen : (l.foldl transformRow m).rows.length ≤ UInt32.size)
    (h : (l.foldl transformRow m).transformed.get? c = some d) :
    (c ∉ l.map Prod.fst ∧ m.transformed.get? c = some d)
      ∨ ∃ r, (c, r) ∈ l ∧ (l.foldl transformRow m).rows[d.index]? = some r := by
  induction l generalizing m with
  | nil => exact .inl ⟨List.not_mem_nil, h⟩
  | cons e l ih =>
      rw [List.foldl_cons] at hlen h ⊢
      rcases ih hlen h with ⟨hnew, hget⟩ | ⟨r, hr, hrow⟩
      · have hins : (m.transformed.insert e.1 (.ofIndex m.rows.length)).get? c
            = some d := hget
        rw [Table.get?_insert] at hins
        by_cases hec : e.1 = c
        · rw [if_pos hec] at hins
          have hrows : (l.foldl transformRow (m.transformRow e)).rows
              = m.rows ++ e.2 :: l.map Prod.snd := by
            rw [rows_foldl_transformRow]
            simp [transformRow]
          have hlt : m.rows.length < UInt32.size := by
            rw [hrows, List.length_append, List.length_cons] at hlen
            omega
          refine .inr ⟨e.2, ?_, ?_⟩
          · rw [← hec]
            exact List.mem_cons_self
          · rw [← Option.some.inj hins, ConstraintId.index_ofIndex hlt, hrows]
            simp
        · rw [if_neg hec] at hins
          refine .inl ⟨?_, hins⟩
          rw [List.map_cons, List.mem_cons, not_or]
          exact ⟨fun heq => hec heq.symm, hnew⟩
      · exact .inr ⟨r, List.mem_cons_of_mem e hr, hrow⟩

-- ========================================================= what is kept

namespace Step

/-- Constraints are only ever added. -/
theorem rows (h : Step m m') : m.rows <+: m'.rows := by
  cases h with
  | row r => exact List.prefix_append _ _
  | column x => exact List.prefix_rfl
  | values duals farkas => exact List.prefix_rfl
  | transform =>
      unfold MemoryMaster.transform
      rw [rows_foldl_transformRow]
      exact List.prefix_append _ _

/-- A recorded copy was recorded before, or it is just like a constraint
that is there. -/
theorem transformed (h : Step m m') (hlen : m'.rows.length ≤ UInt32.size)
    (hd : m'.transformed.get? c = some d) :
    m.transformed.get? c = some d
      ∨ ∃ r, m.row? c = some r ∧ m'.rows[d.index]? = some r := by
  have hm : m.rows.length ≤ UInt32.size := Nat.le_trans h.rows.length_le hlen
  cases h with
  | row r => exact .inl hd
  | column x => exact .inl hd
  | values duals farkas => exact .inl hd
  | transform =>
      rcases transformed_foldl_transformRow hlen hd with ⟨-, hold⟩
        | ⟨r, hr, hrow⟩
      · exact .inl hold
      · exact .inr ⟨r, (mem_liveRows hm).1 hr, hrow⟩

end Step

/-- What stands in a list stands in all that continue it. -/
theorem getElem?_kept {l l' : List Row} {i : Nat} (h : l <+: l')
    (hr : l[i]? = some r) :
    l'[i]? = some r := by
  obtain ⟨s, rfl⟩ := h
  obtain ⟨hlt, -⟩ := List.getElem?_eq_some_iff.1 hr
  rw [List.getElem?_append_left hlt]
  exact hr

/-- An open row stays open where rows are only added. -/
theorem Open.kept (h : m.Open c) (hrows : m.rows <+: m'.rows) : m'.Open c := by
  obtain ⟨r, hrow, hopen⟩ := h
  obtain ⟨hget, hlive⟩ := row?_eq_some.1 hrow
  exact ⟨r, row?_eq_some.2 ⟨getElem?_kept hrows hget, hlive⟩, hopen⟩

/-- Every recorded copy is just like its original. -/
def Faithful (m : MemoryMaster) : Prop :=
  ∀ c d, m.transformed.get? c = some d →
    ∃ r, m.rows[c.index]? = some r ∧ m.rows[d.index]? = some r

/-- The constraint is open, and so is its copy if it has one. -/
structure Ready (m : MemoryMaster) (c : ConstraintId) : Prop where
  original : m.Open c
  copy : ∀ d, m.transformed.get? c = some d → m.Open d

/-- A transformation copies an open constraint anew, whatever copy it had
before. -/
theorem Open.ready_transform (hc : m.Open c)
    (hlen : m.transform.rows.length ≤ UInt32.size) :
    m.transform.Ready c := by
  have hrows := (Step.transform m).rows
  obtain ⟨x, hx, hopen⟩ := hc
  have hlive := (mem_liveRows (Nat.le_trans hrows.length_le hlen)).2 hx
  refine ⟨Open.kept ⟨x, hx, hopen⟩ hrows, ?_⟩
  intro d hd
  rcases transformed_foldl_transformRow hlen hd with ⟨hnone, -⟩ | ⟨r, hr, hrow⟩
  · exact absurd (List.mem_map_of_mem hlive) hnone
  · have hcopied := (mem_liveRows (Nat.le_trans hrows.length_le hlen)).1 hr
    obtain rfl := Option.some.inj (hx.symm.trans hcopied)
    exact ⟨x, row?_eq_some.2 ⟨hrow, (row?_eq_some.1 hx).2⟩, hopen⟩

namespace Later

theorem rows (h : Later m m') : m.rows <+: m'.rows := by
  induction h with
  | refl => exact List.prefix_rfl
  | tail _ hstep ih => exact ih.trans hstep.rows

/-- A modelled problem has only faithful copies. -/
theorem faithful (h : Later {} m) (hlen : m.rows.length ≤ UInt32.size) :
    m.Faithful := by
  induction h with
  | refl => exact fun c d hd => nomatch hd
  | tail _ hstep ih =>
      have hold := ih (Nat.le_trans hstep.rows.length_le hlen)
      intro c d hd
      rcases hstep.transformed hlen hd with hget | ⟨r, hrow, hcopy⟩
      · obtain ⟨r, hc, hd⟩ := hold c d hget
        exact ⟨r, getElem?_kept hstep.rows hc, getElem?_kept hstep.rows hd⟩
      · exact ⟨r, getElem?_kept hstep.rows (row?_eq_some.1 hrow).1, hcopy⟩

/-- What is open stays open. -/
theorem opened (h : Later m m') (hc : m.Open c) : m'.Open c := hc.kept h.rows

/-- What is ready stays ready. -/
theorem ready (h : Later m m') (hlen : m'.rows.length ≤ UInt32.size)
    (hc : m.Ready c) :
    m'.Ready c := by
  induction h with
  | refl => exact hc
  | tail _ hstep ih =>
      have hold := ih (Nat.le_trans hstep.rows.length_le hlen)
      refine ⟨hold.original.kept hstep.rows, ?_⟩
      intro d hd
      rcases hstep.transformed hlen hd with hget | ⟨r, hrow, hcopy⟩
      · exact (hold.copy d hget).kept hstep.rows
      · -- the copy has just been made, and the original is open
        obtain ⟨x, hx, hopen⟩ := hold.original
        obtain rfl := Option.some.inj (hx.symm.trans hrow)
        exact ⟨x, row?_eq_some.2 ⟨hcopy, (row?_eq_some.1 hrow).2⟩, hopen⟩

end Later

/-- From `m` to `m'` the problem was transformed at least once. -/
def Transformed (m m' : MemoryMaster) : Prop :=
  ∃ k, Later m k ∧ Later k.transform m'

/-- What was open before a transformation is ready after it. -/
theorem Transformed.ready (h : Transformed m m')
    (hlen : m'.rows.length ≤ UInt32.size) (hc : m.Open c) : m'.Ready c := by
  obtain ⟨k, hbefore, hafter⟩ := h
  have hk :=
    (hbefore.opened hc).ready_transform
      (Nat.le_trans hafter.rows.length_le hlen)
  exact hafter.ready hlen hk

end MemoryMaster

end FlowPricing
