/-
Where a report is written to: a sink that takes bytes until it is full.
A write that does not fit is taken as far as it fits, and then fails.
-/
import FlowPricing.Action

namespace FlowPricing

/-- Why a report could not be written. -/
inductive ReportError where
  | full
  | stalled
  | unflushed
deriving DecidableEq, Repr

/-- The failure in the words of the sink. -/
def ReportError.reason : ReportError → String
  | full => "disk full"
  | stalled => "failed to write whole buffer"
  | unflushed => "flush failed"

/-- The failure as it is reported. -/
def ReportError.message (e : ReportError) : String :=
  s!"Could not write report: {e.reason}"

/-- A sink for text; every character of a report is one byte. -/
structure Sink where
  /-- How many more bytes are taken; `none` for any number. -/
  room : Option Nat := none
  /-- Whether a full sink takes nothing in silence instead of failing. -/
  stalls : Bool := false
  /-- Whether the final flush fails. -/
  failsFlush : Bool := false
  /-- What was taken so far. -/
  taken : List Char := []
deriving DecidableEq, Repr

namespace Sink

/-- Writes a text, as far as there is room. -/
def write (text : List Char) : Action ReportError Sink Unit := do
  let s ← get
  match s.room with
  | none => set { s with taken := s.taken ++ text }
  | some room =>
      let fitting := text.take room
      set { s with
        room := some (room - fitting.length), taken := s.taken ++ fitting }
      if room < text.length then throw (if s.stalls then .stalled else .full)

/-- Makes sure that all that was written is kept. -/
def flush : Action ReportError Sink Unit := do
  if (← get).failsFlush then throw .unflushed

end Sink

end FlowPricing
