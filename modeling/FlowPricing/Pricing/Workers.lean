/-
The columns of a round in the hands of any number of workers. Every chosen
path is a task of its own, and the master is locked for one call at a time:
between two calls for one column there can be calls for any other. Names
are fixed before the first task is begun.

A schedule is the order in which the tasks get their turns, each turn a
call of the master or the recording of a column. When it is used up, the
tasks that are left are finished one after another; so the empty schedule
is that of a single worker, for which this is `Round.addColumns`. Once a
task has failed, those that were begun still go on to their ends, but the
others are dropped. A schedule may begin one of them all the same, as a
worker does that has not yet noticed the failure.
-/
import FlowPricing.Pricing.Round

namespace FlowPricing

/-- How far a column has come. -/
inductive ColumnStage where
  /-- Nothing was done for it. -/
  | waiting
  /-- Its variable is created, and has coefficients to come. -/
  | filling (v : VariableId) (entries : List IndexEntry)
  /-- Its variable is committed. -/
  | committed
  /-- It is recorded, or else its path was passed over. -/
  | ended (added : Bool)
  /-- A call of the master has failed. -/
  | failed
deriving DecidableEq, Repr

/-- The work on one column. -/
structure ColumnTask where
  name : String
  path : Path
  stage : ColumnStage := .waiting
deriving DecidableEq, Repr

namespace ColumnTask

variable {μ : Type}

/-- The entries of all arcs of a path, in its order. No task changes
them. -/
def entriesAlong (r : Registry) (p : Path) : List IndexEntry :=
  p.arcs.flatMap fun a => (r.entriesOf a).getD []

/-- One turn of a task: the stage it comes to. -/
def turn [MasterProblem μ] (tolerance : Float) (t : ColumnTask) :
    Action PricingError (Problem μ) ColumnStage :=
  match t.stage with
  | .waiting => do
      if t.path.isImproving tolerance then
        let v ← Problem.onMaster
          (MasterProblem.addPricedVariable t.name 0.0 Weight.infinity 0.0)
        return .filling v (entriesAlong (← get).registry t.path)
      else return .ended false
  | .filling v (e :: entries) => do
      Problem.onMaster (MasterProblem.addCoefficient e.handle v e.coefficient)
      return .filling v entries
  | .filling v [] => do
      Problem.onMaster (MasterProblem.commitVariable v)
      return .committed
  | .committed => do
      Problem.modifyRegistry (·.recordColumn t.name t.path)
      return .ended true
  | .ended added => return .ended added
  | .failed => return .failed

/-- The most turns a task can take to its end. -/
def turns (r : Registry) (t : ColumnTask) : Nat :=
  match t.stage with
  | .waiting => (entriesAlong r t.path).length + 3
  | .filling _ entries => entries.length + 2
  | .committed => 1
  | .ended _ => 0
  | .failed => 0

end ColumnTask

/-- The columns of a round at work. -/
structure Workers (μ : Type) where
  problem : Problem μ
  tasks : List ColumnTask
  /-- The first failure there was. -/
  failure : Option PricingError := none
deriving DecidableEq, Repr

namespace Workers

variable {μ : Type}

/-- Before the first turn. The chosen paths have the next numbers. -/
def start (p : Problem μ) (first : Nat) (chosen : List Path) : Workers μ where
  problem := p
  tasks := (chosen.zipIdx first).map fun x =>
    { name := columnName x.2, path := x.1 }

variable [MasterProblem μ] (tolerance : Float)

/-- The turn of one task. -/
def turn (w : Workers μ) (k : Nat) : Workers μ :=
  match w.tasks[k]? with
  | none => w
  | some t =>
      match t.turn tolerance w.problem with
      | .ok stage problem =>
          { w with problem, tasks := w.tasks.set k { t with stage } }
      | .error e problem =>
          { problem
            tasks := w.tasks.set k { t with stage := .failed }
            failure := w.failure.or (some e) }

/-- The turns of a schedule. -/
def run (w : Workers μ) (schedule : List Nat) : Workers μ :=
  schedule.foldl (turn tolerance) w

/-- All turns that a task has left, if it is to get any. -/
def finish (w : Workers μ) (k : Nat) : Workers μ :=
  match w.tasks[k]? with
  | none => w
  | some t =>
      if w.failure.isSome ∧ t.stage = .waiting then w
      else run tolerance w (List.replicate (t.turns w.problem.registry) k)

/-- Finishes all tasks, in their order. -/
def finishAll (w : Workers μ) : Workers μ :=
  (List.range w.tasks.length).foldl (finish tolerance) w

omit [MasterProblem μ]

/-- The number of columns added. -/
def added (w : Workers μ) : Nat := w.tasks.countP fun t => t.stage = .ended true

/-- How the work has ended. -/
def result (w : Workers μ) : EStateM.Result PricingError (Problem μ) Nat :=
  match w.failure with
  | some e => .error e w.problem
  | none => .ok w.added w.problem

end Workers

/-- Adds the columns for the chosen paths, numbered from `first`, in the
order of a schedule, and returns how many were added. -/
def Round.addColumnsOn {μ : Type} [MasterProblem μ] (schedule : List Nat)
    (tolerance : Float) (first : Nat) (chosen : List Path) :
    Action PricingError (Problem μ) Nat := fun p =>
  let w := (Workers.start p first chosen).run tolerance schedule
  (w.finishAll tolerance).result

end FlowPricing
