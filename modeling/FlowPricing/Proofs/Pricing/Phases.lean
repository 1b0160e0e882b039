/-
A round of a pricer that is ready, phase by phase. Its weights are made
(`Solve.weigh`), the networks are asked for their paths and some of these
are chosen (`Solve.choose`), and the chosen ones become columns
(`Solve.generate`). The first two only look (`Solve.survey`). A pricer that
is not ready refuses, and nothing happens.
-/
import FlowPricing.Proofs.Pricing.Solve

namespace FlowPricing.Solve

variable {μ : Type} [MasterProblem μ] {kind : PricingKind} {s t : Solve μ}
  {pricer : Pricer} {chosen : List Path}

/-- All weights are set to zero, and the prices pushed onto the arcs. -/
def weigh (kind : PricingKind) (tolerance : Float) :
    Action PricingError (Solve μ) Unit := do
  onProblem (Problem.modifyRegistry Round.zeroWeights)
  onProblem (Round.reweight kind tolerance)

/-- The prices are pushed onto arcs that weigh nothing. -/
theorem weigh_eq_reweight (tolerance : Float) :
    weigh kind tolerance s = onProblem (Round.reweight kind tolerance)
      { s with problem := ⟨Round.zeroWeights s.problem.registry,
        s.problem.master⟩ } := rfl

omit [MasterProblem μ] in
/-- The networks are asked for their paths, and some of these chosen. -/
def choose (pricer : Pricer) : Action PricingError (Solve μ) (List Path) := do
  let candidates ← onProblem (Problem.onRegistry Round.shortestPaths)
  return pricer.selection.select pricer.tolerance candidates

/-- All that comes before the first column. -/
def survey (kind : PricingKind) (pricer : Pricer) :
    Action PricingError (Solve μ) (List Path) := do
  weigh kind pricer.tolerance
  choose pricer

omit [MasterProblem μ] in
/-- Numbers are handed out to the chosen paths, and these become columns by
an action that adds them. -/
def generateBy
    (add : Float → Nat → List Path → Action PricingError (Problem μ) Nat)
    (pricer : Pricer) (chosen : List Path) :
    Action PricingError (Solve μ) RoundOutcome := do
  modifyPricer fun p => { p with nextColumn := p.nextColumn + chosen.length }
  let columns ← onProblem (add pricer.tolerance pricer.nextColumn chosen)
  modifyPricer fun p =>
    { p with rounds := p.rounds + 1, generated := p.generated + columns }
  return { columns, status := .success }

/-- The columns of a round, added one after another. -/
def generate (pricer : Pricer) (chosen : List Path) :
    Action PricingError (Solve μ) RoundOutcome :=
  generateBy Round.addColumns pricer chosen

/-- A pricer that is ready looks first, and then adds the columns. -/
theorem price_of_ready (h : s.pricer.state = .ready) :
    price kind s = (survey kind s.pricer >>= generate s.pricer) s := by
  have hrequire : require .price (· == .ready) s = .ok () s :=
    require_eq_ok.2 ⟨by simp [h], rfl⟩
  unfold price
  show EStateM.bind _ _ s = _
  unfold EStateM.bind
  rw [hrequire]
  simp only [survey, weigh, choose, generate, bind_assoc, pure_bind]
  rfl

/-- One that is not refuses. -/
theorem price_of_not_ready (h : s.pricer.state ≠ .ready) :
    price kind s = .error (.invalidState .price s.pricer.state) s :=
  Action.bind_eq_error.2 (.inl (require_of_false (by simpa using h)))

section Generate

variable {add : Float → Nat → List Path → Action PricingError (Problem μ) Nat}

omit [MasterProblem μ]

/-- Columns that are all added are counted. -/
theorem generateBy_eq_ok {out : RoundOutcome} :
    generateBy add pricer chosen s = .ok out t
    ↔ ∃ k q, add pricer.tolerance pricer.nextColumn chosen s.problem = .ok k q
      ∧ out = { columns := k, status := .success }
      ∧ t = { problem := q, pricer := { s.pricer with
          nextColumn := s.pricer.nextColumn + chosen.length
          rounds := s.pricer.rounds + 1
          generated := s.pricer.generated + k } } := by
  unfold generateBy
  constructor
  · intro h
    obtain ⟨_, _, hnumber, h⟩ := Action.bind_eq_ok.1 h
    obtain rfl := modifyPricer_eq_ok.1 hnumber
    obtain ⟨k, _, hcolumns, h⟩ := Action.bind_eq_ok.1 h
    obtain ⟨q, hq, rfl⟩ := onProblem_eq_ok.1 hcolumns
    obtain ⟨_, _, hcount, h⟩ := Action.bind_eq_ok.1 h
    obtain rfl := modifyPricer_eq_ok.1 hcount
    obtain ⟨rfl, rfl⟩ := Action.pure_eq_ok.1 h
    exact ⟨k, q, hq, rfl, rfl⟩
  · rintro ⟨k, q, hq, rfl, rfl⟩
    exact Action.bind_eq_ok.2 ⟨(), _, rfl, Action.bind_eq_ok.2
      ⟨k, _, onProblem_eq_ok.2 ⟨q, hq, rfl⟩, rfl⟩⟩

/-- Columns that fail have taken their numbers, and no more. -/
theorem generateBy_eq_error {e : PricingError} :
    generateBy add pricer chosen s = .error e t
    ↔ ∃ q, add pricer.tolerance pricer.nextColumn chosen s.problem = .error e q
      ∧ t = { problem := q, pricer := { s.pricer with
          nextColumn := s.pricer.nextColumn + chosen.length } } := by
  unfold generateBy
  constructor
  · intro h
    rcases Action.bind_eq_error.1 h with h | ⟨⟨⟩, u, hnumber, h⟩
    · exact absurd h Action.modify_ne_error
    obtain rfl := modifyPricer_eq_ok.1 hnumber
    rcases Action.bind_eq_error.1 h with h | ⟨k, u, -, h⟩
    · obtain ⟨q, hq, rfl⟩ := Action.focus_eq_error.1 h
      exact ⟨q, hq, rfl⟩
    rcases Action.bind_eq_error.1 h with h | ⟨⟨⟩, u, -, h⟩
    · exact absurd h Action.modify_ne_error
    · exact absurd h Action.pure_ne_error
  · rintro ⟨q, hq, rfl⟩
    exact Action.bind_eq_error.2 (.inr ⟨(), _, rfl, Action.bind_eq_error.2 (.inl
      (Action.focus_eq_error.2 ⟨q, hq, rfl⟩))⟩)

/-- Numbers are handed out before the first attempt, and not taken back. -/
theorem after_generateBy
    (add : Float → Nat → List Path → Action PricingError (Problem μ) Nat)
    (chosen : List Path) (s : Solve μ) :
    ((generateBy add s.pricer chosen).after s).problem
        = (add s.pricer.tolerance s.pricer.nextColumn chosen).after s.problem
      ∧ ((generateBy add s.pricer chosen).after s).pricer.nextColumn
        = s.pricer.nextColumn + chosen.length := by
  cases hadd : add s.pricer.tolerance s.pricer.nextColumn chosen s.problem with
  | ok k q =>
      rw [Action.after_of_ok hadd,
        Action.after_of_ok (generateBy_eq_ok.2 ⟨k, q, hadd, rfl, rfl⟩)]
      exact ⟨rfl, rfl⟩
  | error e q =>
      rw [Action.after_of_error hadd,
        Action.after_of_error (generateBy_eq_error.2 ⟨q, hadd, rfl⟩)]
      exact ⟨rfl, rfl⟩

end Generate

theorem after_generate (chosen : List Path) (s : Solve μ) :
    ((generate s.pricer chosen).after s).problem
        = (Round.addColumns s.pricer.tolerance s.pricer.nextColumn chosen).after
          s.problem
      ∧ ((generate s.pricer chosen).after s).pricer.nextColumn
        = s.pricer.nextColumn + chosen.length :=
  after_generateBy Round.addColumns chosen s

/-- Columns that are all added one after another are counted. -/
theorem generate_eq_ok {out : RoundOutcome} :
    generate pricer chosen s = .ok out t
    ↔ ∃ k q, Round.addColumns pricer.tolerance pricer.nextColumn chosen
      s.problem = .ok k q
      ∧ out = { columns := k, status := .success }
      ∧ t = { problem := q, pricer := { s.pricer with
          nextColumn := s.pricer.nextColumn + chosen.length
          rounds := s.pricer.rounds + 1
          generated := s.pricer.generated + k } } := generateBy_eq_ok

/-- If one fails, its numbers are used up all the same. -/
theorem generate_eq_error {e : PricingError} :
    generate pricer chosen s = .error e t
    ↔ ∃ q, Round.addColumns pricer.tolerance pricer.nextColumn chosen s.problem
      = .error e q
      ∧ t = { problem := q, pricer := { s.pricer with
          nextColumn := s.pricer.nextColumn + chosen.length } } :=
            generateBy_eq_error

end FlowPricing.Solve
