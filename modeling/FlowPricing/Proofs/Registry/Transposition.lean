/-
The arc index beside the list of constraints. The index is the transpose
of the list (`Registry.Transposed`) if it shows for every arc, in order and
with multiplicity, the constraints that list the arc, and nothing for an
arc that none lists.

The two are filled at different moments, term by term and constraint by
constraint, and rewritten by different loops. `Transposed.register` says
that they agree again once a constraint is registered after its terms, and
`Transposed.renamed` that replacing handles keeps them in agreement, as long
as the master answers both times alike (`Answers`); that two handles may be
replaced by the same one does not matter.
-/
import FlowPricing.Registry.Basic
import FlowPricing.Proofs.Action
import FlowPricing.Proofs.Table

namespace FlowPricing

/-- What a constraint contributes to the entries of an arc: one entry for
each time it lists the arc. -/
def Constraint.entriesFor (c : Constraint) (a : Arc) : List IndexEntry :=
  (c.arcs.filter (·.1 = a)).map fun e => ⟨c.handle, e.2⟩

/-- The constraint under another handle. -/
def Constraint.rename (f : ConstraintId → ConstraintId) (c : Constraint) :
    Constraint :=
  { c with handle := f c.handle }

/-- The entry under another handle. -/
def IndexEntry.rename (f : ConstraintId → ConstraintId) (e : IndexEntry) :
    IndexEntry :=
  { e with handle := f e.handle }

namespace Registry

variable {r r' : Registry} {a b : Arc} {e : IndexEntry} {h : ConstraintId}

/-- The entries that constraints contribute to an arc, in their order. -/
def entriesFor (cs : List Constraint) (a : Arc) : List IndexEntry :=
  cs.flatMap (·.entriesFor a)

/-- The index shows these entries for every arc, and nothing where there are
none. -/
def Shows (r : Registry) (entries : Arc → List IndexEntry) : Prop :=
  ∀ a, r.entriesOf a = if entries a = [] then none else some (entries a)

/-- The arc index is the transpose of the list of constraints. -/
def Transposed (r : Registry) : Prop := r.Shows (entriesFor r.constraints)

/-- What an index shows for an arc are its entries. -/
theorem Shows.getD {entries : Arc → List IndexEntry}
    (hs : r.Shows entries) (a : Arc) :
    (r.entriesOf a).getD [] = entries a := by
  rw [hs a]
  split
  · next h => exact h.symm
  · rfl

/-- A new constraint has its entries behind those of the others. -/
theorem entriesFor_concat (cs : List Constraint) (c : Constraint) (a : Arc) :
    entriesFor (cs ++ [c]) a = entriesFor cs a ++ c.entriesFor a := by
  unfold entriesFor
  rw [List.flatMap_append, List.flatMap_singleton]

/-- A registry without constraints and entries. -/
theorem transposed_of_empty (hc : r.constraints = []) (hi : r.index = .empty) :
    r.Transposed := by
  intro a
  unfold entriesOf entriesFor
  rw [hc, hi]
  rfl

-- ============================================================= filling

/-- An entry goes to the end of those of its arc. -/
theorem Shows.addEntry {entries : Arc → List IndexEntry}
    (hs : r.Shows entries) (a : Arc) (e : IndexEntry) :
    (r.addEntry a e).Shows fun b =>
      if a = b then entries b ++ [e] else entries b := by
  intro b
  show (r.index.insert a ((r.index.get? a).getD [] ++ [e])).get? b = _
  rw [Table.get?_insert]
  simp only
  by_cases hab : a = b
  · subst hab
    have hget := hs.getD a
    unfold entriesOf at hget
    simp [hget]
  · rw [if_neg hab, if_neg hab]
    exact hs b

/-- The terms of one constraint, entered one after another. -/
def addEntries (r : Registry) (h : ConstraintId) (arcs : List (Arc × Float)) :
    Registry :=
  arcs.foldl (fun r e => r.addEntry e.1 ⟨h, e.2⟩) r

/-- Entering terms only changes the index. -/
theorem addEntries_eq (r : Registry) (h : ConstraintId)
    (arcs : List (Arc × Float)) :
    ∃ index, r.addEntries h arcs = { r with index } := by
  unfold addEntries
  induction arcs generalizing r with
  | nil => exact ⟨r.index, rfl⟩
  | cons e arcs ih =>
      obtain ⟨index, hindex⟩ := ih (r.addEntry e.1 ⟨h, e.2⟩)
      exact ⟨index, hindex⟩

/-- The entries of a constraint can be added in two portions. -/
theorem addEntries_addEntries (r : Registry) (h : ConstraintId)
    (xs ys : List (Arc × Float)) :
    (r.addEntries h xs).addEntries h ys = r.addEntries h (xs ++ ys) := by
  unfold addEntries
  rw [List.foldl_append]

/-- Entries of a constraint go to the ends of those of its arcs. -/
theorem Shows.addEntries {entries : Arc → List IndexEntry}
    (hs : r.Shows entries) (h : ConstraintId) (arcs : List (Arc × Float)) :
    (r.addEntries h arcs).Shows fun a =>
      entries a ++ (Constraint.mk h arcs).entriesFor a := by
  induction arcs generalizing r entries with
  | nil =>
      have hnil : (fun a => entries a ++ (Constraint.mk h []).entriesFor a)
          = entries :=
        funext fun a => List.append_nil _
      rw [hnil]
      exact hs
  | cons e arcs ih =>
      have hstep := ih (hs.addEntry e.1 ⟨h, e.2⟩)
      have hsame : (fun a =>
          (if e.1 = a then entries a ++ [⟨h, e.2⟩] else entries a)
            ++ (Constraint.mk h arcs).entriesFor a)
          = fun a => entries a
            ++ (Constraint.mk h (e :: arcs)).entriesFor a := by
        funext a
        unfold Constraint.entriesFor
        by_cases hea : e.1 = a
        · simp [hea]
        · simp [hea]
      rw [← hsame]
      exact hstep

/-- While its terms are entered, the index is ahead of the list by the one
constraint. -/
theorem Transposed.pending (ht : r.Transposed) (h : ConstraintId)
    (arcs : List (Arc × Float)) :
    (r.addEntries h arcs).Shows
      (entriesFor ((r.addEntries h arcs).constraints ++ [⟨h, arcs⟩])) := by
  intro a
  obtain ⟨index, heq⟩ := r.addEntries_eq h arcs
  have hconstraints : (r.addEntries h arcs).constraints = r.constraints := by
    rw [heq]
  rw [entriesFor_concat, hconstraints]
  exact Shows.addEntries ht h arcs a

/-- Once a constraint is registered after its terms, index and list agree
again. -/
theorem Transposed.register (ht : r.Transposed) (h : ConstraintId)
    (arcs : List (Arc × Float)) :
    ((r.addEntries h arcs).addConstraint ⟨h, arcs⟩).Transposed :=
  ht.pending h arcs

-- =========================================================== replacing

/-- Asked for replacements and nothing else, a master answers `f` whenever
it answers. -/
def Answers {ε σ : Type} (g : ConstraintId → Action ε σ ConstraintId)
    (f : ConstraintId → ConstraintId) (s : σ) : Prop :=
  ∃ P : σ → Prop, P s ∧ ∀ s c d t, P s → g c s = .ok d t → d = f c ∧ P t

section Replacing

variable {ε σ : Type} {g : ConstraintId → Action ε σ ConstraintId} {s t : σ}
  {u : Unit}

theorem remapHandle_eq_ok {c d : ConstraintId} :
    remapHandle g (c, s) = .ok u (d, t) ↔ g c s = .ok d t := by
  unfold remapHandle
  rw [Action.get_bind, Action.bind_eq_ok]
  constructor
  · intro h
    obtain ⟨x, ⟨y, z⟩, hx, hmod⟩ := h
    obtain ⟨w, hw, hput⟩ := Action.focus_eq_ok.1 hx
    cases hput
    cases Action.modify_eq_ok.1 hmod
    exact hw
  · intro hg
    exact ⟨d, (c, t), Action.focus_eq_ok.2 ⟨t, hg, rfl⟩,
      Action.modify_eq_ok.2 rfl⟩

/-- Replaces the handle of something that has one. -/
def rehandle {τ : Type} (handle : τ → ConstraintId) (put : τ → ConstraintId → τ)
    (g : ConstraintId → Action ε σ ConstraintId) : Action ε (τ × σ) Unit :=
  (remapHandle g).focus (fun s => (handle s.1, s.2)) fun s t =>
    (put s.1 t.1, t.2)

/-- What is replaced gets the handle that the master answers with. -/
theorem exists_of_rehandle {τ : Type} {handle : τ → ConstraintId}
    {put : τ → ConstraintId → τ} {x y : τ}
    (h : rehandle handle put g (x, s) = .ok u (y, t)) :
    ∃ d, g (handle x) s = .ok d t ∧ y = put x d := by
  obtain ⟨⟨d, t'⟩, hd, hput⟩ := Action.focus_eq_ok.1 h
  cases hput
  exact ⟨d, remapHandle_eq_ok.1 hd, rfl⟩

/-- Replaces the handle of a constraint. -/
def replaceConstraint (g : ConstraintId → Action ε σ ConstraintId) :
    Action ε (Constraint × σ) Unit :=
  rehandle Constraint.handle (fun c d => { c with handle := d }) g

/-- Replaces the handles in the entries of one arc. -/
def replaceEntries (g : ConstraintId → Action ε σ ConstraintId) :
    Action ε ((Arc × List IndexEntry) × σ) (List Unit) :=
  (rehandle IndexEntry.handle (fun e d => { e with handle := d }) g).each.focus
    (fun s => (s.1.2, s.2)) fun s t => ((s.1.1, t.1), t.2)

/-- The constraints, one after another. -/
theorem each_of_remapConstraints
    (h : remapConstraints g (r, s) = .ok u (r', t)) :
    ∃ us cs, (replaceConstraint g).each (r.constraints, s) = .ok us (cs, t)
      ∧ r' = { r with constraints := cs } := by
  unfold remapConstraints at h
  obtain ⟨us, _, hfocus, hpure⟩ := Action.bind_eq_ok.1 h
  obtain ⟨-, rfl⟩ := Action.pure_eq_ok.1 hpure
  obtain ⟨⟨cs, t'⟩, heach, hput⟩ := Action.focus_eq_ok.1 hfocus
  cases hput
  exact ⟨us, cs, heach, rfl⟩

/-- The entries, arc by arc and within an arc one after another. -/
theorem each_of_remapIndex (h : remapIndex g (r, s) = .ok u (r', t)) :
    ∃ us es, (replaceEntries g).each (r.index.entries, s) = .ok us (es, t)
      ∧ r' = { r with index := ⟨es⟩ } := by
  unfold remapIndex at h
  obtain ⟨us, _, hfocus, hpure⟩ := Action.bind_eq_ok.1 h
  obtain ⟨-, rfl⟩ := Action.pure_eq_ok.1 hpure
  obtain ⟨⟨es, t'⟩, heach, hput⟩ := Action.focus_eq_ok.1 hfocus
  cases hput
  exact ⟨us, es, heach, rfl⟩

variable {f : ConstraintId → ConstraintId} {P : σ → Prop}

/-- Where the answers are those of a function, the list is renamed by it. -/
theorem remapConstraints_spec
    (hP : ∀ s c d t, P s → g c s = .ok d t → d = f c ∧ P t) (hs : P s)
    (hok : remapConstraints g (r, s) = .ok u (r', t)) :
    r' = { r with constraints := r.constraints.map (·.rename f) } ∧ P t := by
  obtain ⟨us, cs, heach, rfl⟩ := each_of_remapConstraints hok
  have hmap : cs = r.constraints.map (·.rename f) ∧ P t := by
    refine Action.each_map ?_ hs heach
    intro c s b c' t hs hone
    obtain ⟨d, hd, rfl⟩ := exists_of_rehandle hone
    obtain ⟨rfl, ht⟩ := hP s c.handle d t hs hd
    exact ⟨rfl, ht⟩
  rw [hmap.1]
  exact ⟨rfl, hmap.2⟩

/-- So is the index. -/
theorem remapIndex_spec
    (hP : ∀ s c d t, P s → g c s = .ok d t → d = f c ∧ P t) (hs : P s)
    (hok : remapIndex g (r, s) = .ok u (r', t)) :
    r' = { r with index := ⟨r.index.entries.map fun e =>
      (e.1, e.2.map (·.rename f))⟩ }
      ∧ P t := by
  obtain ⟨us, es, heach, rfl⟩ := each_of_remapIndex hok
  have hmap : es = r.index.entries.map (fun e => (e.1, e.2.map (·.rename f)))
      ∧ P t := by
    refine Action.each_map ?_ hs heach
    rintro ⟨a, es⟩ s bs c' t hs hofArc
    obtain ⟨⟨es', t'⟩, hentries, hput⟩ := Action.focus_eq_ok.1 hofArc
    cases hput
    have hinner : es' = es.map (·.rename f) ∧ P t' := by
      refine Action.each_map ?_ hs hentries
      intro e s b e' t hs hone
      obtain ⟨d, hd, rfl⟩ := exists_of_rehandle hone
      obtain ⟨rfl, ht⟩ := hP s e.handle d t hs hd
      exact ⟨rfl, ht⟩
    rw [hinner.1]
    exact ⟨rfl, hinner.2⟩
  rw [hmap.1]
  exact ⟨rfl, hmap.2⟩

/-- The registry with its handles replaced by `f`. -/
def renamed (r : Registry) (f : ConstraintId → ConstraintId) : Registry :=
  { r with
    constraints := r.constraints.map (·.rename f)
    index := ⟨r.index.entries.map fun e => (e.1, e.2.map (·.rename f))⟩ }

/-- Replacing handles by a master that answers `f` renames by `f`. -/
theorem remap_spec (hP : ∀ s c d t, P s → g c s = .ok d t → d = f c ∧ P t)
    (hs : P s) (hok : remap g (r, s) = .ok u (r', t)) :
    r' = r.renamed f ∧ P t := by
  unfold remap at hok
  obtain ⟨x, ⟨r₁, s₁⟩, hconstraints, hindex⟩ := Action.bind_eq_ok.1 hok
  obtain ⟨rfl, hs₁⟩ := remapConstraints_spec hP hs hconstraints
  obtain ⟨rfl, ht⟩ := remapIndex_spec hP hs₁ hindex
  exact ⟨rfl, ht⟩

end Replacing

/-- The entries of an arc are renamed one by one. -/
theorem entriesOf_renamed (r : Registry) (f : ConstraintId → ConstraintId)
    (a : Arc) :
    (r.renamed f).entriesOf a = (r.entriesOf a).map fun es =>
      es.map (·.rename f) := by
  show Table.find a (r.index.entries.map fun e => (e.1, e.2.map (·.rename f)))
    = (Table.find a r.index.entries).map _
  generalize r.index.entries = es
  induction es with
  | nil => rfl
  | cons e es ih =>
      rw [List.map_cons]
      unfold Table.find
      by_cases hea : e.1 = a
      · rw [if_pos hea, if_pos hea]
        rfl
      · rw [if_neg hea, if_neg hea]
        exact ih

/-- Constraints that are renamed have renamed entries. -/
theorem entriesFor_renamed (cs : List Constraint)
    (f : ConstraintId → ConstraintId) (a : Arc) :
    entriesFor (cs.map (·.rename f)) a
      = (entriesFor cs a).map (·.rename f) := by
  unfold entriesFor
  rw [List.flatMap_map, List.map_flatMap]
  congr 1
  funext c
  unfold Constraint.entriesFor
  rw [List.map_map]
  rfl

/-- Replacing handles keeps index and list in agreement. -/
theorem Transposed.renamed (ht : r.Transposed)
    (f : ConstraintId → ConstraintId) :
    (r.renamed f).Transposed := by
  intro a
  have hlist : entriesFor (r.renamed f).constraints a
      = (entriesFor r.constraints a).map (·.rename f) :=
        entriesFor_renamed _ f a
  rw [entriesOf_renamed, hlist, ht a]
  by_cases hnil : entriesFor r.constraints a = []
  · rw [if_pos hnil, hnil]
    rfl
  · rw [if_neg hnil, if_neg]
    · rfl
    · rwa [List.map_eq_nil_iff]

end Registry

end FlowPricing
