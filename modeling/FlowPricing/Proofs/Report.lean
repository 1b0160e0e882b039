/-
The report as one text. It is written line by line, and a sink may stop
anywhere in a line; but a sink does not see how a text is cut into writes
(`Sink.write_append`), so that a report is the single write of a text that
depends on the registry and the solution alone (`Report.writes_text`). What a
sink holds after a failure is a beginning of this text.

The text is a table: a header and one row for every arc of every reported
column, all of the same number of fields. Numbers are written without
separators, so a line can be cut into its fields again, and then all but the
last field tell the arc and its group.
-/
import FlowPricing.Report.Paths
import FlowPricing.Proofs.Action
import FlowPricing.Proofs.Text

namespace FlowPricing

variable {α β : Type}

-- ================================================================ sinks

namespace Sink

/-- Whether there is room for all of a text. -/
def Fits (s : Sink) (text : List Char) : Prop :=
  ∀ room ∈ s.room, text.length ≤ room

instance (s : Sink) (text : List Char) : Decidable (s.Fits text) :=
  inferInstanceAs (Decidable (∀ room ∈ s.room, text.length ≤ room))

/-- As much of a text as there is room for. -/
def portion (s : Sink) (text : List Char) : List Char :=
  match s.room with
  | none => text
  | some room => text.take room

/-- The sink when it has taken as much of a text as it can. -/
def taking (s : Sink) (text : List Char) : Sink :=
  { s with
    room := s.room.map (· - text.length), taken := s.taken ++ s.portion text }

/-- How a sink without room fails. -/
def complaint (s : Sink) : ReportError := if s.stalls then .stalled else .full

/-- A text is taken as far as it fits, and the write succeeds if it fits. -/
theorem write_apply (text : List Char) (s : Sink) :
    write text s
      = if s.Fits text then .ok () (s.taking text)
        else .error s.complaint (s.taking text) := by
  obtain ⟨room, stalls, failsFlush, taken⟩ := s
  unfold write
  rw [Action.get_bind]
  cases room with
  | none => rfl
  | some room =>
      by_cases hfits : text.length ≤ room
      · have hlt : ¬room < text.length := by omega
        simp [Fits, taking, portion, hfits, hlt]
        rfl
      · have hlt : room < text.length := by omega
        have hroom : room - text.length = room - min room text.length := by
          omega
        simp [Fits, taking, portion, complaint, hfits, hlt, hroom]
        rfl

/-- A write to a sink that has room left from another write. -/
theorem taking_append {s : Sink} {a : List Char} (h : s.Fits a)
    (b : List Char) :
    (s.taking a).taking b = s.taking (a ++ b) := by
  obtain ⟨room, stalls, failsFlush, taken⟩ := s
  cases room with
  | none => simp [taking, portion]
  | some room =>
      have hlength : a.length ≤ room := h room rfl
      simp [taking, portion, List.take_append, List.take_of_length_le hlength,
        Nat.sub_sub]

/-- A text fits if its first part does and the second fits behind it. -/
theorem fits_append {s : Sink} {a b : List Char} :
    s.Fits (a ++ b) ↔ s.Fits a ∧ (s.taking a).Fits b := by
  obtain ⟨room, stalls, failsFlush, taken⟩ := s
  cases room with
  | none => simp [Fits, taking]
  | some room =>
      simp [Fits, taking]
      omega

/-- Nothing more is taken of a text whose first part does not fit. -/
theorem taking_of_not_fits {s : Sink} {a : List Char} (h : ¬s.Fits a)
    (b : List Char) :
    s.taking (a ++ b) = s.taking a := by
  obtain ⟨room, stalls, failsFlush, taken⟩ := s
  cases room with
  | none => exact absurd nofun h
  | some room =>
      have hlength : room < a.length := by simpa [Fits] using h
      have hnone : room - a.length = 0 := by omega
      have hroom : room - (a.length + b.length) = 0 := by omega
      simp [taking, portion, List.take_append, hnone, hroom]

/-- How a text is cut into writes does not matter. -/
theorem write_append (a b : List Char) :
    write (a ++ b) = (write a >>= fun _ => write b) := by
  funext s
  show _ = EStateM.bind (write a) (fun _ => write b) s
  unfold EStateM.bind
  rw [write_apply, write_apply a]
  by_cases ha : s.Fits a
  · rw [if_pos ha]
    simp only
    rw [write_apply, taking_append ha]
    by_cases hb : (s.taking a).Fits b
    · rw [if_pos hb, if_pos (fits_append.2 ⟨ha, hb⟩)]
    · rw [if_neg hb, if_neg fun h => hb (fits_append.1 h).2]
      rfl
  · rw [if_neg ha, if_neg fun h => ha (fits_append.1 h).1,
      taking_of_not_fits ha]

/-- A flush fails exactly if the sink is one that fails it. -/
theorem flush_apply (s : Sink) :
    flush s = if s.failsFlush = true then .error .unflushed s
      else .ok () s := by
  unfold flush
  rw [Action.get_bind]
  split
  · rfl
  · rfl

/-- An action that writes a text and nothing else, and returns `a`. -/
def Writes (act : Action ReportError Sink α) (text : List Char)
    (a : α) : Prop :=
  act = (write text >>= fun _ => pure a)

theorem writes_write (text : List Char) : Writes (write text) text () :=
  (bind_pure (write text)).symm

theorem writes_pure (a : α) : Writes (pure a) [] a := by
  have hnil : write [] = pure () := by
    funext s
    obtain ⟨room, stalls, failsFlush, taken⟩ := s
    rw [write_apply, if_pos (by simp [Fits])]
    cases room with
    | none => simp [taking, portion]; rfl
    | some room => simp [taking, portion]; rfl
  unfold Writes
  rw [hnil, pure_bind]

/-- Parts that are written in turn are written together. -/
theorem Writes.bind {act : Action ReportError Sink α}
    {f : α → Action ReportError Sink β} {text text' : List Char} {a : α} {b : β}
    (hact : Writes act text a) (hf : Writes (f a) text' b) :
    Writes (act >>= f) (text ++ text') b := by
  unfold Writes at hact hf ⊢
  rw [hact, bind_assoc, write_append, bind_assoc]
  simp only [pure_bind, hf]

theorem writes_forM {f : α → Action ReportError Sink Unit}
    {text : α → List Char} (hf : ∀ a, Writes (f a) (text a) ()) (l : List α) :
    Writes (l.forM f) (l.flatMap text) () := by
  induction l with
  | nil => exact writes_pure ()
  | cons a l ih => exact (hf a).bind ih

theorem writes_mapM {f : α → Action ReportError Sink β}
    {text : α → List Char} {b : α → β} (hf : ∀ a, Writes (f a) (text a) (b a))
    (l : List α) :
    Writes (l.mapM f) (l.flatMap text) (l.map b) := by
  induction l with
  | nil => exact writes_pure []
  | cons a l ih =>
      rw [List.mapM_cons]
      have hrest := (hf a).bind (f := fun b' => l.mapM f >>= fun bs =>
        pure (b' :: bs)) (ih.bind (writes_pure (b a :: l.map b)))
      rw [List.append_nil] at hrest
      exact hrest

end Sink

theorem Node.length_columns (n : Node) : n.columns.length = 7 := rfl

theorem Arc.length_columns (a : Arc) : a.columns.length = 14 := rfl

/-- The columns tell arcs apart. -/
theorem Arc.columns_injective {a b : Arc} (h : a.columns = b.columns) :
    a = b := by
  obtain ⟨aSource, aTarget⟩ := a
  obtain ⟨bSource, bTarget⟩ := b
  obtain ⟨hsource, htarget⟩ := List.append_inj h
    (aSource.length_columns.trans bSource.length_columns.symm)
  obtain rfl : aSource = bSource := Node.columns_injective hsource
  obtain rfl : aTarget = bTarget := Node.columns_injective htarget
  rfl

-- =============================================================== report

namespace Report

variable {r : Registry} {solution : List (String × Float)} {s : Sink}

/-- What a row is about: an arc of a reported path, and the value that the
solution has for it. -/
structure Entry where
  path : Path
  value : Float
  arc : Arc

/-- The fields of the row. -/
def Entry.fields (e : Entry) : List (List Char) := row e.path e.value e.arc

/-- The entries of a solution: the arcs of every generated column with a
positive value, in their order. -/
def entries (r : Registry) (solution : List (String × Float)) : List Entry :=
  (solution.filter fun c => 0.0 < c.2).flatMap fun c =>
    (r.path? c.1).toList.flatMap fun p => p.arcs.map fun a => ⟨p, c.2, a⟩

/-- The rows of a report, the header before all others. -/
def table (r : Registry) (solution : List (String × Float)) :
    List (List (List Char)) :=
  header :: (entries r solution).map Entry.fields

/-- The whole report. -/
def text (r : Registry) (solution : List (String × Float)) : List Char :=
  (table r solution).flatMap line

/-- The lines of a text, each without its line break. -/
def lines (text : List Char) : List (List Char) :=
  (Pieces.split '\n' text).dropLast

/-- The rows of a solution are those of its columns in turn. -/
theorem entries_cons (c : String × Float) (solution : List (String × Float)) :
    entries r (c :: solution) = entries r [c] ++ entries r solution := by
  unfold entries
  rw [← List.flatMap_append, ← List.filter_append]
  rfl

/-- The rows that are counted are the rows that are written. -/
theorem rowsOf_eq (r : Registry) (c : String × Float) :
    rowsOf r c = (entries r [c]).map Entry.fields := by
  unfold rowsOf entries
  by_cases hpos : 0.0 < c.2
  · rw [if_pos hpos, List.filter_cons_of_pos (by simpa using hpos),
      List.filter_nil, List.flatMap_singleton]
    cases r.path? c.1 with
    | none => rfl
    | some p => simp [Entry.fields, Function.comp_def]
  · rw [if_neg hpos, List.filter_cons_of_neg (by simpa using hpos)]
    rfl

/-- A column writes a line for each of its rows, and counts them. -/
theorem writes_column (r : Registry) (c : String × Float) :
    Sink.Writes (writeColumn r c) ((entries r [c]).flatMap fun e =>
      line e.fields) (entries r [c]).length := by
  have hrows :=
    (Sink.writes_forM (fun fields => Sink.writes_write (line fields))
      (rowsOf r c)).bind
    (f := fun _ => pure (rowsOf r c).length) (Sink.writes_pure _)
  have htext : (rowsOf r c).flatMap line ++ []
      = (entries r [c]).flatMap fun e => line e.fields := by
    rw [List.append_nil, rowsOf_eq, List.flatMap_map]
  have hlength : (rowsOf r c).length = (entries r [c]).length := by
    rw [rowsOf_eq, List.length_map]
  rw [htext] at hrows
  rw [← hlength]
  exact hrows

/-- Every column has its rows to itself. -/
theorem entries_eq_flatMap (r : Registry) (solution : List (String × Float)) :
    entries r solution = solution.flatMap fun c => entries r [c] := by
  induction solution with
  | nil => rfl
  | cons c solution ih => rw [entries_cons, List.flatMap_cons, ← ih]

/-- A report is one write of its text and a flush, and the number that is
returned counts the rows. -/
theorem write_eq (r : Registry) (solution : List (String × Float)) :
    write r solution = (do
      Sink.write (text r solution)
      Sink.flush
      return (entries r solution).length) := by
  have hrows := Sink.writes_mapM (writes_column r) solution
  have htext : text r solution = line header
      ++ solution.flatMap fun c => (entries r [c]).flatMap fun e =>
        line e.fields := by
    unfold text table
    rw [List.flatMap_cons, List.flatMap_map, entries_eq_flatMap,
      List.flatMap_assoc]
  have hcount : (solution.map fun c => (entries r [c]).length).foldl (· + ·) 0
      = (entries r solution).length := by
    rw [entries_eq_flatMap r solution, List.length_flatMap, List.sum_eq_foldl]
  unfold Sink.Writes at hrows
  unfold write
  rw [htext, Sink.write_append, hrows]
  simp only [bind_assoc, pure_bind, hcount]

/-- A report succeeds if there is room for its text and the flush succeeds. In
any case the sink has taken of the text what there was room for. -/
theorem write_apply (r : Registry) (solution : List (String × Float))
    (s : Sink) :
    write r solution s
      = if s.Fits (text r solution) then
          if s.failsFlush = true
            then .error .unflushed (s.taking (text r solution))
          else .ok (entries r solution).length (s.taking (text r solution))
        else .error s.complaint (s.taking (text r solution)) := by
  rw [write_eq]
  show EStateM.bind (Sink.write (text r solution)) _ s = _
  unfold EStateM.bind
  rw [Sink.write_apply]
  by_cases hfits : s.Fits (text r solution)
  · rw [if_pos hfits, if_pos hfits]
    show EStateM.bind Sink.flush _ (s.taking (text r solution)) = _
    unfold EStateM.bind
    rw [Sink.flush_apply, show (s.taking (text r solution)).failsFlush
      = s.failsFlush from rfl]
    cases s.failsFlush with
    | false => rfl
    | true => rfl
  · rw [if_neg hfits, if_neg hfits]

-- =============================================================== lines

/-- Whether a character is one byte and separates neither fields nor lines. -/
def isPlain (c : Char) : Bool := c != ',' && c != '\n' && c.utf8Size == 1

/-- A plain character is neither a comma nor a line break, and takes one
byte. -/
theorem isPlain_iff {c : Char} :
    isPlain c = true ↔ c ≠ ',' ∧ c ≠ '\n' ∧ c.utf8Size = 1 := by
  simp [isPlain, and_assoc]

theorem isPlain_of_isDigit {c : Char} (h : c.isDigit = true) :
    isPlain c = true := by
  rw [isPlain_iff]
  refine ⟨?_, ?_, ?_⟩
  · rintro rfl
    exact nomatch h
  · rintro rfl
    exact nomatch h
  · simp only [Char.isDigit, ge_iff_le, Bool.and_eq_true,
      decide_eq_true_eq] at h
    exact Char.utf8Size_eq_one_iff.2 (UInt32.le_trans h.2 (by decide))

/-- The header is written in plain characters. -/
theorem isPlain_of_mem_header {f : List Char} (hf : f ∈ header) {c : Char}
    (hc : c ∈ f) :
    isPlain c = true := by
  have hall : header.all (·.all isPlain) = true := by decide +kernel
  exact List.all_eq_true.1 (List.all_eq_true.1 hall f hf) c hc

theorem isPlain_of_mem_fields {e : Entry} {f : List Char}
    (hf : f ∈ e.fields) {c : Char} (hc : c ∈ f) : isPlain c = true := by
  have hnumber : ∀ i, f = Numeral.ofInt i → isPlain c = true := by
    rintro i rfl
    rcases Numeral.mem_ofInt hc with h | rfl
    · exact isPlain_of_isDigit h
    · decide
  unfold Entry.fields row at hf
  simp only [List.mem_append, List.mem_map, List.mem_cons, List.not_mem_nil,
    or_false] at hf
  rcases hf with ⟨i, -, hi⟩ | hgroup | rfl
  · exact hnumber i hi.symm
  · exact hnumber _ hgroup
  · have hletters : "-.NaNinf".toList.all isPlain = true := by decide +kernel
    rcases Positional.mem_ofFloat hc with h | h
    · exact isPlain_of_isDigit h
    · exact List.all_eq_true.1 hletters c h

/-- Lines are cut apart again at their breaks, and nothing follows the last
one. -/
theorem split_lines {rows : List (List (List Char))}
    (h : ∀ fields ∈ rows, ∀ f ∈ fields, ∀ c ∈ f, isPlain c = true) :
    Pieces.split '\n' (rows.flatMap line)
      = rows.map (Pieces.join ',') ++ [[]] := by
  induction rows with
  | nil => rfl
  | cons fields rows ih =>
      have hbreak : '\n' ∉ Pieces.join ',' fields :=
        Pieces.not_mem_join (by decide) fun f hf hc =>
          (isPlain_iff.1 (h fields List.mem_cons_self f hf _ hc)).2.1 rfl
      have hrest := ih fun fs hfs => h fs (List.mem_cons_of_mem fields hfs)
      unfold line at hrest ⊢
      rw [List.flatMap_cons, List.append_assoc, List.singleton_append,
        Pieces.split_append_cons hbreak, hrest]
      rfl

/-- All of the table is written in plain characters. -/
theorem isPlain_of_mem_table {fields : List (List Char)}
    (hfields : fields ∈ table r solution) {f : List Char} (hf : f ∈ fields)
    {c : Char} (hc : c ∈ f) : isPlain c = true := by
  rcases List.mem_cons.1 hfields with rfl | hrow
  · exact isPlain_of_mem_header hf hc
  · obtain ⟨e, -, rfl⟩ := List.mem_map.1 hrow
    exact isPlain_of_mem_fields hf hc

/-- The lines of the text are the rows of the table. -/
theorem lines_text (r : Registry) (solution : List (String × Float)) :
    lines (text r solution) = (table r solution).map (Pieces.join ',') := by
  unfold lines text
  rw [split_lines fun _ hfields _ hf _ hc => isPlain_of_mem_table hfields hf hc,
    List.dropLast_concat]

/-- Every line of the table has sixteen fields. -/
theorem length_of_mem_table {fields : List (List Char)}
    (h : fields ∈ table r solution) :
    fields.length = 16 := by
  rcases List.mem_cons.1 h with rfl | hrow
  · rfl
  · obtain ⟨e, -, rfl⟩ := List.mem_map.1 hrow
    rfl

/-- The fields are found again in a line. -/
theorem split_of_mem_table {fields : List (List Char)}
    (h : fields ∈ table r solution) :
    Pieces.split ',' (Pieces.join ',' fields) = fields := by
  apply Pieces.split_join
  · intro hnil
    have hlength := length_of_mem_table h
    rw [hnil] at hlength
    exact nomatch hlength
  · exact fun f hf hc => (isPlain_iff.1 (isPlain_of_mem_table h hf hc)).1 rfl

/-- Every character of a report is one byte. -/
theorem utf8Size_of_mem_text {c : Char} (h : c ∈ text r solution) :
    c.utf8Size = 1 := by
  obtain ⟨fields, hfields, hc⟩ := List.mem_flatMap.1 h
  rcases List.mem_append.1 hc with hc | hc
  · rcases Pieces.mem_join hc with rfl | ⟨f, hf, hc⟩
    · rfl
    · exact (isPlain_iff.1 (isPlain_of_mem_table hfields hf hc)).2.2
  · obtain rfl := List.mem_singleton.1 hc
    rfl

-- ============================================================= content

/-- The first fields of a row are those of its arc and its group. -/
theorem take_fields (e : Entry) :
    e.fields.take 15
      = (e.arc.columns ++ [e.path.group.toInt]).map Numeral.ofInt := rfl

/-- All fields but the value tell the arc and the group. -/
theorem eq_of_take_fields {x y : Entry}
    (h : x.fields.take 15 = y.fields.take 15) :
    x.arc = y.arc ∧ x.path.group = y.path.group := by
  rw [take_fields, take_fields] at h
  have hcolumns :=
    List.map_injective_iff.2 (fun _ _ => Numeral.ofInt_injective) h
  obtain ⟨harc, hgroup⟩ := List.append_inj hcolumns
    (x.arc.length_columns.trans y.arc.length_columns.symm)
  exact ⟨Arc.columns_injective harc, Int32.toInt_inj.1 (List.cons.inj hgroup).1⟩

/-- The report of a solution is a fixed text. A sink takes of it what there is
room for. The report succeeds exactly if there is room for all of it and the
flush succeeds, and it returns how many lines there are besides the header. The
lines are those of the table, each of sixteen fields, and two rows that differ
at most in the value are about the same arc and the same group. -/
theorem write_exact (r : Registry) (solution : List (String × Float))
    (s : Sink) :
    ((write r solution).after s).taken = s.taken ++ s.portion (text r solution)
    ∧ (∀ n, (∃ t, write r solution s = .ok n t)
        ↔ s.Fits (text r solution) ∧ s.failsFlush = false
          ∧ n + 1 = (lines (text r solution)).length)
    ∧ lines (text r solution) = (table r solution).map (Pieces.join ',')
    ∧ (∀ l ∈ lines (text r solution), (Pieces.split ',' l).length = 16)
    ∧ (∀ x ∈ entries r solution, ∀ y ∈ entries r solution,
        (Pieces.split ',' (Pieces.join ',' x.fields)).take 15
          = (Pieces.split ',' (Pieces.join ',' y.fields)).take 15 →
        x.arc.source = y.arc.source ∧ x.arc.target = y.arc.target
          ∧ x.path.group = y.path.group)
    ∧ ∀ c ∈ text r solution, c.utf8Size = 1 := by
  have hentry : ∀ x ∈ entries r solution, x.fields ∈ table r solution :=
    fun x hx => List.mem_cons_of_mem header (List.mem_map_of_mem hx)
  refine ⟨?taken, ?succeeds, lines_text r solution, ?fields, ?tell, fun c =>
    utf8Size_of_mem_text⟩
  case taken =>
    unfold Action.after
    rw [write_apply]
    split_ifs <;> rfl
  case succeeds =>
    intro n
    have hcount : (lines (text r solution)).length
        = (entries r solution).length + 1 := by
      rw [lines_text, List.length_map, table, List.length_cons, List.length_map]
    rw [write_apply, hcount]
    by_cases hfits : s.Fits (text r solution)
    · rw [if_pos hfits]
      cases s.failsFlush with
      | false => simp [hfits, eq_comm]
      | true => simp
    · simp [hfits]
  case fields =>
    intro l hl
    rw [lines_text] at hl
    obtain ⟨fields, hfields, rfl⟩ := List.mem_map.1 hl
    rw [split_of_mem_table hfields, length_of_mem_table hfields]
  case tell =>
    intro x hx y hy hsame
    rw [split_of_mem_table (hentry x hx),
      split_of_mem_table (hentry y hy)] at hsame
    obtain ⟨harc, hgroup⟩ := eq_of_take_fields hsame
    exact ⟨congrArg Arc.source harc, congrArg Arc.target harc, hgroup⟩

/-- A path of one arc. -/
def samplePath : Path :=
  ⟨[⟨⟨0, 0, -2, -1, 0, false, 7⟩, ⟨0, 0, 35, -1, 0, false, 7⟩⟩], -1.0, 7⟩

/-- A solution that has the column of this path twice, and a name that is no
column. -/
def sampleSolution : List (String × Float) :=
  [("p_0", 0.5), ("x_slack", 4.0), ("p_0", 2.0)]

/-- A sink with room for twelve characters gets the first twelve; one
without a bound gets two rows. -/
theorem write_exact_sample :
    ((write (({} : Registry).recordColumn "p_0" samplePath)
      sampleSolution).after
        { room := some 12 }).taken = "career_group".toList
      ∧ ∃ t, write (({} : Registry).recordColumn "p_0" samplePath)
        sampleSolution {} = .ok 2 t := by
  obtain ⟨htaken, -⟩ :=
    write_exact (({} : Registry).recordColumn "p_0" samplePath) sampleSolution
    { room := some 12 }
  obtain ⟨-, hsucceeds, hlines, -⟩ :=
    write_exact (({} : Registry).recordColumn "p_0" samplePath)
      sampleSolution {}
  refine ⟨htaken.trans ?_, (hsucceeds 2).2 ⟨nofun, rfl, ?_⟩⟩
  · decide +kernel
  · rw [hlines, List.length_map]
    decide +kernel

end Report

end FlowPricing
