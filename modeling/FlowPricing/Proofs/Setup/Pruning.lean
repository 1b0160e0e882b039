/-
What indexing makes of a master in memory, as functions of the model before
it: which constraints go (`isUnneeded`), what is left of each other one
(`pruned`), what is registered for it (`gained?`), and the calls that are made
(`indexCalls`), of which some change the master (`changes`). That these
functions are what the program computes is for another module to say.

Pruned once, a model has nothing left to prune: it stays as it is, nothing
more is registered, and the calls are among those of the first time.
-/
import FlowPricing.Master.Wrapped
import FlowPricing.Proofs.Master.Memory
import FlowPricing.Proofs.Master.Calls
import FlowPricing.Proofs.VariableName.Grammar
import FlowPricing.Registry.Constraint
import FlowPricing.Setup.Constraints

namespace FlowPricing

namespace MemoryMaster

variable {m : MemoryMaster} {columns : List Column} {unneeded : List String}
  {c : ConstraintId} {r : Row} {x : Constraint} {v : VariableId}
  {t : VariableId × Float}

-- ============================================================ variables

/-- The name of a variable that is there. -/
def name? (columns : List Column) (v : VariableId) : Option String :=
  columns[v.index]?.map Column.name

/-- A variable that takes part in pricing, by its name. -/
def isPriced (columns : List Column) (v : VariableId) : Bool :=
  (name? columns v).any VariableName.isPricing

/-- The arc that a variable stands for. -/
def arcOf? (columns : List Column) (v : VariableId) : Option Arc :=
  (name? columns v).bind fun name => (VariableName.arc? name).toOption.join

/-- A variable that is there and whose name, if it takes part in pricing, is
a written arc. -/
def Readable (columns : List Column) (v : VariableId) : Prop :=
  ∃ name o, name? columns v = some name ∧ VariableName.arc? name = .ok o

/-- The arc of a variable is the one its name is read as. -/
theorem arcOf?_of_arc? {name : String} {o : Option Arc}
    (hname : name? columns v = some name)
    (harc : VariableName.arc? name = .ok o) : arcOf? columns v = o := by
  unfold arcOf?
  rw [hname]
  simp [harc, Except.toOption]

/-- A readable variable stands for an arc exactly if it takes part in
pricing. -/
theorem Readable.isSome_arcOf? (h : Readable columns v) :
    (arcOf? columns v).isSome = isPriced columns v := by
  obtain ⟨name, o, hname, harc⟩ := h
  have hpricing : VariableName.isPricing name = o.isSome := by
    cases o with
    | none =>
        cases hp : VariableName.isPricing name with
        | false => rfl
        | true =>
            obtain ⟨rest, hrest⟩ := VariableName.isPricing_iff.1 hp
            exact absurd harc (VariableName.arc?_of_toList hrest.symm).2.2
    | some a =>
        cases hp : VariableName.isPricing name with
        | true => rfl
        | false =>
            rw [VariableName.arc?_of_not_isPricing hp] at harc
            exact nomatch harc
  rw [arcOf?_of_arc? hname harc, isPriced, hname]
  exact hpricing.symm

-- ========================================================== one constraint

/-- A pricing term, decoded. -/
def taken? (columns : List Column) (t : VariableId × Float) :
    Option (Arc × Float) :=
  (arcOf? columns t.1).map (·, t.2)

/-- What is left of a constraint without these variables. -/
def Row.without (vs : List VariableId) (r : Row) : Row :=
  { r with terms := r.terms.filter (·.1 ∉ vs) }

@[simp] theorem Row.without_nil : Row.without [] = id := by
  funext r
  simp [Row.without]

theorem Row.without_singleton (v : VariableId) :
    Row.without [v] = fun r =>
      { r with terms := r.terms.filter (·.1 ≠ v) } := by
  funext r
  simp [Row.without]

theorem Row.without_append (vs ws : List VariableId) :
    Row.without (vs ++ ws) = Row.without ws ∘ Row.without vs := by
  funext r
  simp [Row.without, List.filter_filter, not_or, Bool.and_comm]

/-- What indexing makes of a constraint: it is deleted if its name says so,
and otherwise loses its pricing terms and is opened if it had any. -/
def pruned (columns : List Column) (unneeded : List String) (r : Row) : Row :=
  if Setup.isUnneeded unneeded r.name then { r with deleted := true }
  else
    { r with
      terms := r.terms.filter fun t => !isPriced columns t.1
      modifiable := r.modifiable || r.terms.any fun t => isPriced columns t.1 }

/-- What indexing registers for a constraint: the constraint with all its
pricing terms decoded, if it is needed and has any. -/
def gained? (columns : List Column) (unneeded : List String)
    (c : ConstraintId × Row) :
    Option Constraint :=
  if Setup.isUnneeded unneeded c.2.name then none
  else
    let arcs := c.2.terms.filterMap (taken? columns)
    if arcs.isEmpty then none else some ⟨c.1, arcs⟩

/-- The calls that change a constraint. -/
def changes (columns : List Column) (unneeded : List String)
    (c : ConstraintId × Row) :
    List MasterCall :=
  if Setup.isUnneeded unneeded c.2.name then [.deleteConstraint c.1]
  else
    (c.2.terms.filter fun t => isPriced columns t.1).map (fun t =>
      .removeCoefficient c.1 t.1)
      ++ if c.2.terms.any fun t =>
        isPriced columns t.1 then [.setModifiable c.1] else []

/-- The calls for one term. -/
def termCalls (columns : List Column) (c : ConstraintId)
    (t : VariableId × Float) :
    List MasterCall :=
  .variableName t.1 :: if isPriced columns t.1 then [.removeCoefficient c t.1]
    else []

/-- All calls for a constraint. -/
def indexCalls (columns : List Column) (unneeded : List String)
    (c : ConstraintId × Row) :
    List MasterCall :=
  .constraintName c.1 ::
    if Setup.isUnneeded unneeded c.2.name then [.deleteConstraint c.1]
    else .constraintTerms c.1 :: (c.2.terms.flatMap (termCalls columns c.1)
      ++ if c.2.terms.any fun t =>
        isPriced columns t.1 then [.setModifiable c.1] else [])

/-- What indexing registers, in the order of the constraints. -/
def gained (m : MemoryMaster) (unneeded : List String) : List Constraint :=
  m.liveRows.filterMap (gained? m.columns unneeded)

/-- The master with every constraint that is there pruned. -/
def stripped (m : MemoryMaster) (unneeded : List String) : MemoryMaster :=
  { m with rows := m.rows.map fun r => if r.deleted then r
    else pruned m.columns unneeded r }

/-- A constraint that is deleted, or of which all variables are readable. -/
def Indexable (columns : List Column) (unneeded : List String)
    (r : Row) : Prop :=
  Setup.isUnneeded unneeded r.name = false → ∀ t ∈ r.terms, Readable columns t.1

/-- Without its pricing variables a constraint has the other terms left. -/
theorem without_priced (columns : List Column) (r : Row) :
    r.without ((r.terms.map (·.1)).filter (isPriced columns))
      = { r with terms := r.terms.filter fun t => !isPriced columns t.1 } := by
  unfold Row.without
  congr 1
  apply List.filter_congr
  intro t ht
  have hmem : t.1 ∈ r.terms.map (·.1) := List.mem_map_of_mem ht
  simp [List.mem_filter, hmem]

/-- Of readable terms something is taken exactly if one of them is priced. -/
theorem isEmpty_filterMap_taken? {ts : List (VariableId × Float)}
    (h : ∀ t ∈ ts, Readable columns t.1) :
    (ts.filterMap (taken? columns)).isEmpty = !ts.any fun t =>
      isPriced columns t.1 := by
  rw [Bool.eq_iff_iff, List.isEmpty_iff, List.filterMap_eq_nil_iff,
    Bool.not_eq_true', List.any_eq_false]
  refine forall₂_congr fun t ht => ?_
  rw [← (h t ht).isSome_arcOf?, taken?, Option.map_eq_none_iff,
    Option.not_isSome_iff_eq_none]

section Unneeded

variable (h : Setup.isUnneeded unneeded r.name = true)

include h

theorem pruned_of_unneeded :
    pruned columns unneeded r = { r with deleted := true } := if_pos h

theorem gained?_of_unneeded : gained? columns unneeded (c, r) = none := if_pos h

theorem changes_of_unneeded :
    changes columns unneeded (c, r) = [.deleteConstraint c] := if_pos h

theorem indexCalls_of_unneeded :
    indexCalls columns unneeded (c, r)
      = [.constraintName c, .deleteConstraint c] :=
  congrArg (MasterCall.constraintName c :: ·) (if_pos h)

end Unneeded

section Needed

variable (h : Setup.isUnneeded unneeded r.name = false)

include h

/-- A constraint that is needed loses its priced terms and is opened if it
had any. -/
theorem pruned_of_needed :
    pruned columns unneeded r =
      { r with
        terms := r.terms.filter fun t => !isPriced columns t.1
        modifiable := r.modifiable || r.terms.any fun t =>
          isPriced columns t.1 } :=
  if_neg (Bool.not_eq_true _ ▸ h)

/-- It is registered with the arcs of these terms, unless there are none. -/
theorem gained?_of_needed :
    gained? columns unneeded (c, r)
      = if (r.terms.filterMap (taken? columns)).isEmpty then none
        else some ⟨c, r.terms.filterMap (taken? columns)⟩ :=
  if_neg (Bool.not_eq_true _ ▸ h)

/-- The changes are one removal for each of them, and the opening. -/
theorem changes_of_needed :
    changes columns unneeded (c, r)
      = (r.terms.filter fun t => isPriced columns t.1).map
            (fun t => MasterCall.removeCoefficient c t.1)
          ++ if r.terms.any fun t =>
            isPriced columns t.1 then [.setModifiable c] else [] :=
  if_neg (Bool.not_eq_true _ ▸ h)

/-- All calls for it in order, those that read included. -/
theorem indexCalls_of_needed :
    indexCalls columns unneeded (c, r)
      = .constraintName c :: .constraintTerms c
        :: (r.terms.flatMap (termCalls columns c)
          ++ if r.terms.any fun t =>
            isPriced columns t.1 then [.setModifiable c] else []) :=
  congrArg (MasterCall.constraintName c :: ·) (if_neg (Bool.not_eq_true _ ▸ h))

/-- A needed constraint is pruned by taking its pricing variables out, and by
opening it if there were any. -/
theorem modifyRow_pruned_of_needed (hrow : m.row? c = some r) :
    m.modifyRow c (pruned m.columns unneeded)
      = if r.terms.any fun t => isPriced m.columns t.1 then
          (m.modifyRow c
            (.without ((r.terms.map (·.1)).filter
              (isPriced m.columns)))).modifyRow c
            fun x => { x with modifiable := true }
        else m.modifyRow c
          (.without ((r.terms.map (·.1)).filter (isPriced m.columns))) := by
  split
  · next hany =>
      rw [modifyRow_modifyRow]
      refine modifyRow_congr hrow ?_
      rw [pruned_of_needed h, Function.comp_apply, without_priced, hany,
        Bool.or_true]
  · next hany =>
      refine modifyRow_congr hrow ?_
      rw [pruned_of_needed h, without_priced, Bool.eq_false_of_not_eq_true hany,
        Bool.or_false]

end Needed

/-- The calls for its terms that change anything are the removals. -/
theorem filter_termCalls (columns : List Column) (c : ConstraintId)
    (ts : List (VariableId × Float)) :
    (ts.flatMap (termCalls columns c)).filter MasterCall.isMutating
      = (ts.filter fun t => isPriced columns t.1).map
        fun t => MasterCall.removeCoefficient c t.1 := by
  induction ts with
  | nil => rfl
  | cons t ts ih =>
      rw [List.flatMap_cons, List.filter_append, ih, List.filter_cons]
      unfold termCalls
      cases isPriced columns t.1 <;> rfl

/-- The calls that change a constraint, among all the calls for it. -/
theorem filter_indexCalls (columns : List Column) (unneeded : List String)
    (e : ConstraintId × Row) :
    (indexCalls columns unneeded e).filter MasterCall.isMutating
      = changes columns unneeded e := by
  obtain ⟨c, r⟩ := e
  cases hname : Setup.isUnneeded unneeded r.name with
  | true =>
      rw [indexCalls_of_unneeded hname, changes_of_unneeded hname]
      rfl
  | false =>
      rw [indexCalls_of_needed hname, changes_of_needed hname]
      show (r.terms.flatMap _ ++ _).filter _ = _
      rw [List.filter_append, filter_termCalls]
      cases r.terms.any fun t => isPriced columns t.1 <;> rfl

/-- What is registered for a constraint is needed, and has its handle. -/
theorem gained?_eq_some (h : gained? columns unneeded (c, r) = some x) :
    Setup.isUnneeded unneeded r.name = false ∧ x.handle = c := by
  cases hname : Setup.isUnneeded unneeded r.name with
  | true =>
      rw [gained?_of_unneeded hname] at h
      exact nomatch h
  | false =>
      rw [gained?_of_needed hname] at h
      split at h
      · exact nomatch h
      · rw [← Option.some.inj h]
        exact ⟨rfl, rfl⟩

-- ====================================================== all constraints

/-- Changing constraints in turn changes their rows in turn. -/
theorem foldl_modifyRow (m : MemoryMaster) (f : Row → Row)
    (hs : List ConstraintId) :
    hs.foldl (fun m c => m.modifyRow c f) m
      = { m with
          rows := hs.foldl (fun rows c => rows.modify c.index f) m.rows } := by
  induction hs generalizing m with
  | nil => rfl
  | cons c hs ih =>
      rw [List.foldl_cons, ih]
      rfl

/-- A row changes exactly if it is the row of a listed handle. -/
theorem getElem?_foldl_modify {f : Row → Row} {hs : List ConstraintId}
    (hnodup : hs.Nodup) (rows : List Row) (i : Nat) :
    (hs.foldl (fun rows c => rows.modify c.index f) rows)[i]?
      = if i ∈ hs.map ConstraintId.index then rows[i]?.map f else rows[i]? := by
  induction hs generalizing rows with
  | nil => rfl
  | cons c hs ih =>
      obtain ⟨hc, hnodup⟩ := List.nodup_cons.1 hnodup
      rw [List.foldl_cons, ih hnodup, List.map_cons, List.getElem?_modify]
      by_cases hi : c.index = i
      · subst hi
        have hnot : c.index ∉ hs.map ConstraintId.index := by
          intro hmem
          obtain ⟨d, hd, heq⟩ := List.mem_map.1 hmem
          exact hc (ConstraintId.index_injective heq ▸ hd)
        rw [if_neg hnot, if_pos List.mem_cons_self]
        simp
      · simp [hi, Ne.symm hi]

/-- A position is that of a constraint that is there if it is not deleted. -/
theorem mem_index_liveRows (hlen : m.rows.length ≤ UInt32.size) {i : Nat}
    (hget : m.rows[i]? = some r) :
    i ∈ (m.liveRows.map (·.1)).map ConstraintId.index ↔ r.deleted = false := by
  obtain ⟨hlt, -⟩ := List.getElem?_eq_some_iff.1 hget
  have hindex := ConstraintId.index_ofIndex (Nat.lt_of_lt_of_le hlt hlen)
  rw [List.map_map, List.mem_map]
  constructor
  · intro h
    obtain ⟨⟨c, x⟩, hx, rfl⟩ := h
    obtain ⟨hx, hlive⟩ := row?_eq_some.1 ((mem_liveRows hlen).1 hx)
    obtain rfl : r = x := Option.some.inj (hget.symm.trans hx)
    exact hlive
  · intro hlive
    refine ⟨(ConstraintId.ofIndex i, r), (mem_liveRows hlen).2 ?_, hindex⟩
    rw [row?_eq_some, hindex]
    exact ⟨hget, hlive⟩

/-- Changing each constraint that is there in turn changes all of them. -/
theorem foldl_modifyRow_pruned (hlen : m.rows.length ≤ UInt32.size) :
    (m.liveRows.map (·.1)).foldl (fun m' c =>
      m'.modifyRow c (pruned m.columns unneeded)) m
      = m.stripped unneeded := by
  rw [foldl_modifyRow]
  unfold stripped
  congr 1
  apply List.ext_getElem?
  intro i
  rw [getElem?_foldl_modify (nodup_liveRows hlen), List.getElem?_map]
  cases hget : m.rows[i]? with
  | none => simp
  | some r =>
      simp only [mem_index_liveRows hlen hget, Option.map_some]
      cases r.deleted with
      | false => rfl
      | true => rfl

/-- What is found under a handle afterwards. -/
theorem row?_stripped (m : MemoryMaster) (unneeded : List String)
    (c : ConstraintId) :
    (m.stripped unneeded).row? c
      = (m.row? c).bind fun r =>
        if Setup.isUnneeded unneeded r.name then none
        else some (pruned m.columns unneeded r) := by
  unfold row? stripped
  rw [List.getElem?_map]
  cases m.rows[c.index]? with
  | none => rfl
  | some r =>
      simp only [Option.map_some]
      cases hdeleted : r.deleted with
      | true => simp [hdeleted]
      | false =>
          cases hname : Setup.isUnneeded unneeded r.name with
          | true => simp [pruned_of_unneeded hname, hname]
          | false => simp [pruned_of_needed hname, hname, hdeleted]

theorem rows_stripped_length (m : MemoryMaster) (unneeded : List String) :
    (m.stripped unneeded).rows.length = m.rows.length := List.length_map _

-- ====================================================== a second time

section Again

variable (h : Setup.isUnneeded unneeded r.name = false)
  (hreadable : ∀ t ∈ r.terms, Readable columns t.1)

include h

/-- A pruned constraint is needed as before. -/
theorem isUnneeded_pruned :
    Setup.isUnneeded unneeded (pruned columns unneeded r).name = false := by
  rw [pruned_of_needed h]
  exact h

/-- The terms left are those that are not priced. -/
theorem terms_pruned : (pruned columns unneeded r).terms
    = r.terms.filter fun t => !isPriced columns t.1 := by
  rw [pruned_of_needed h]

theorem any_terms_pruned :
    ((pruned columns unneeded r).terms.any fun t => isPriced columns t.1)
      = false := by
  rw [terms_pruned h, List.any_eq_false]
  intro t ht
  obtain ⟨-, ht⟩ := List.mem_filter.1 ht
  simpa using ht

/-- It is not pruned further. -/
theorem pruned_pruned :
    pruned columns unneeded (pruned columns unneeded r)
      = pruned columns unneeded r := by
  rw [pruned_of_needed (isUnneeded_pruned h), any_terms_pruned h, Bool.or_false]
  rw [terms_pruned h, List.filter_filter]
  simp only [Bool.and_self]
  rw [← terms_pruned h]

/-- Nothing changes it further. -/
theorem changes_pruned :
    changes columns unneeded (c, pruned columns unneeded r) = [] := by
  have hnone : ((pruned columns unneeded r).terms.filter fun t =>
      isPriced columns t.1)
      = [] := by
    rw [List.filter_eq_nil_iff]
    exact List.any_eq_false.1 (any_terms_pruned h)
  rw [changes_of_needed (isUnneeded_pruned h), hnone, any_terms_pruned h]
  rfl

/-- The calls for it are among those of the first time. -/
theorem indexCalls_pruned {call : MasterCall}
    (hcall : call ∈ indexCalls columns unneeded
      (c, pruned columns unneeded r)) :
    call ∈ indexCalls columns unneeded (c, r) := by
  rw [indexCalls_of_needed (isUnneeded_pruned h), any_terms_pruned h,
    if_neg Bool.false_ne_true, List.append_nil] at hcall
  rw [indexCalls_of_needed h]
  rcases List.mem_cons.1 hcall with rfl | hcall
  · exact List.mem_cons_self
  rcases List.mem_cons.1 hcall with rfl | hcall
  · exact List.mem_cons_of_mem _ List.mem_cons_self
  obtain ⟨t, ht, hcall⟩ := List.mem_flatMap.1 hcall
  rw [terms_pruned h] at ht
  refine List.mem_cons_of_mem _
    (List.mem_cons_of_mem _ (List.mem_append_left _ ?_))
  exact List.mem_flatMap.2 ⟨t, (List.mem_filter.1 ht).1, hcall⟩

include hreadable

/-- Nothing more is registered for it. -/
theorem gained?_pruned :
    gained? columns unneeded (c, pruned columns unneeded r) = none := by
  rw [gained?_of_needed (isUnneeded_pruned h), if_pos]
  rw [isEmpty_filterMap_taken?, any_terms_pruned h]
  · rfl
  · intro t ht
    rw [terms_pruned h] at ht
    exact hreadable t (List.mem_filter.1 ht).1

end Again

/-- Stripping twice is stripping once. -/
theorem stripped_stripped (m : MemoryMaster) (unneeded : List String) :
    (m.stripped unneeded).stripped unneeded = m.stripped unneeded := by
  unfold stripped
  congr 1
  rw [List.map_map]
  apply List.map_congr_left
  intro r _
  show (if (if r.deleted then r else pruned m.columns unneeded r).deleted
    then _ else _) = _
  cases hdeleted : r.deleted with
  | true => simp [hdeleted]
  | false =>
      cases hname : Setup.isUnneeded unneeded r.name with
      | true => simp [pruned_of_unneeded hname]
      | false =>
          have hlive : (pruned m.columns unneeded r).deleted = false := by
            rw [pruned_of_needed hname]
            exact hdeleted
          simp [hdeleted, hlive, pruned_pruned hname]

/-- The constraints that are there afterwards are the needed ones, pruned. -/
theorem mem_liveRows_stripped (hlen : m.rows.length ≤ UInt32.size)
    {e : ConstraintId × Row} (he : e ∈ (m.stripped unneeded).liveRows) :
    ∃ r, (e.1, r) ∈ m.liveRows ∧ Setup.isUnneeded unneeded r.name = false
      ∧ e.2 = pruned m.columns unneeded r := by
  have hrow :=
    (mem_liveRows ((rows_stripped_length m unneeded).le.trans hlen)).1 he
  rw [row?_stripped] at hrow
  obtain ⟨r, hr, hkept⟩ := Option.bind_eq_some_iff.1 hrow
  split at hkept
  · exact nomatch hkept
  · next hname =>
      exact ⟨r, (mem_liveRows hlen).2 hr, Bool.eq_false_of_not_eq_true hname,
        (Option.some.inj hkept).symm⟩

/-- Stripped once, a model has nothing more to gain. -/
theorem gained_stripped (hlen : m.rows.length ≤ UInt32.size)
    (hindexable : ∀ e ∈ m.liveRows, Indexable m.columns unneeded e.2) :
    (m.stripped unneeded).gained unneeded = [] := by
  refine List.filterMap_eq_nil_iff.2 fun e he => ?_
  obtain ⟨r, hr, hname, hpruned⟩ := mem_liveRows_stripped hlen he
  obtain ⟨c, x⟩ := e
  obtain rfl : x = _ := hpruned
  exact gained?_pruned hname (hindexable (c, r) hr hname)

/-- What could be indexed can be indexed once more. -/
theorem indexable_stripped (hlen : m.rows.length ≤ UInt32.size)
    (hindexable : ∀ e ∈ m.liveRows, Indexable m.columns unneeded e.2) :
    ∀ e ∈ (m.stripped unneeded).liveRows, Indexable m.columns unneeded e.2 := by
  intro e he _ t ht
  obtain ⟨r, hr, hname, hpruned⟩ := mem_liveRows_stripped hlen he
  rw [hpruned, terms_pruned hname] at ht
  exact hindexable (e.1, r) hr hname t (List.mem_filter.1 ht).1

/-- None of the calls for it changes anything. -/
theorem filter_indexCalls_stripped (hlen : m.rows.length ≤ UInt32.size) :
    ((m.stripped unneeded).liveRows.flatMap
      (indexCalls m.columns unneeded)).filter MasterCall.isMutating = [] := by
  rw [List.filter_flatMap, List.flatMap_eq_nil_iff]
  intro e he
  obtain ⟨r, -, hname, hpruned⟩ := mem_liveRows_stripped hlen he
  obtain ⟨c, x⟩ := e
  obtain rfl : x = _ := hpruned
  rw [filter_indexCalls]
  exact changes_pruned hname

/-- The second indexing makes no call that the first has not made. -/
theorem indexCalls_stripped (hlen : m.rows.length ≤ UInt32.size)
    {call : MasterCall}
    (hcall : call ∈ (m.stripped unneeded).liveRows.flatMap
      (indexCalls m.columns unneeded)) :
    call ∈ m.liveRows.flatMap (indexCalls m.columns unneeded) := by
  obtain ⟨⟨c, x⟩, he, hcall⟩ := List.mem_flatMap.1 hcall
  obtain ⟨r, hr, hname, hpruned⟩ := mem_liveRows_stripped hlen he
  obtain rfl : x = _ := hpruned
  exact List.mem_flatMap.2 ⟨(c, r), hr, indexCalls_pruned hname hcall⟩

end MemoryMaster

end FlowPricing
