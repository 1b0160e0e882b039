/-
The report of a master solution: a table in comma-separated form with one
row for every arc of every generated column that has a positive value.
Names that are no generated columns are passed over, and so are values
that are zero, negative or not numbers.
-/
import FlowPricing.Registry.Basic
import FlowPricing.Report.Sink
import FlowPricing.Text.Positional

namespace FlowPricing.Report

-- ============================================================ lines

/-- The columns that describe one node. -/
def nodeColumns : List String :=
  ["career_group", "career", "rank", "time_slice", "status",
    "in_training", "network"]

/-- The columns of the table. -/
def header : List (List Char) :=
  (["from", "to"].flatMap fun side =>
    nodeColumns.map fun c => c.toList ++ '.' :: side.toList)
    ++ ["group".toList, "value".toList]

/-- The row of one arc of a path. Flags are written as zero and one. -/
def row (p : Path) (value : Float) (a : Arc) : List (List Char) :=
  a.columns.map Numeral.ofInt
    ++ [Numeral.ofInt p.group.toInt, Positional.ofFloat value]

/-- A written row: its fields between commas, and a line break. -/
def line (fields : List (List Char)) : List Char :=
  Pieces.join ',' fields ++ ['\n']

/-- The rows of one column of the solution. -/
def rowsOf (r : Registry) (column : String × Float) : List (List (List Char)) :=
  if 0.0 < column.2 then
    match r.path? column.1 with
    | some p => p.arcs.map (row p column.2)
    | none => []
  else []

-- ============================================================ writing

/-- Writes the rows of one column and returns how many there are. -/
def writeColumn (r : Registry) (column : String × Float) :
    Action ReportError Sink Nat := do
  let rows := rowsOf r column
  rows.forM fun fields => Sink.write (line fields)
  return rows.length

/-- Writes the report of a solution, line by line, and returns the number
of its data rows. -/
def write (r : Registry) (solution : List (String × Float)) :
    Action ReportError Sink Nat := do
  Sink.write (line header)
  let counts ← solution.mapM (writeColumn r)
  Sink.flush
  return counts.foldl (· + ·) 0

end FlowPricing.Report
