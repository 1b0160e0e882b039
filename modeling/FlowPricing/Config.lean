/-
The configuration of a solve. It is read from JSON, where every setting
may be left out and no other may be given, and it is checked after it has
been read.
-/
import FlowPricing.Json.Record
import FlowPricing.Pricing.Selection
import FlowPricing.Text.Positional
import FlowPricing.Files

namespace FlowPricing

open Json

/-- The settings of a solve. -/
structure Config where
  /-- The number of workers; zero for as many as the hardware has. -/
  threads : Nat := 0
  /-- Zero to take every improving path, otherwise how many to take. -/
  pricingStrategy : Nat := 0
  /-- Lengths and prices within this distance of zero count as zero. -/
  tolerance : Float := 1e-9
  /-- Constraints with one of these in their name are deleted before
  pricing starts. -/
  unneeded : List String := []
deriving DecidableEq, Repr

instance : Inhabited Config := ⟨{}⟩

/-- A setting with a value that makes no sense. -/
inductive InvalidSetting where
  | tolerance (value : Float)
  | emptySubstring
deriving DecidableEq, Repr

/-- Why there is no configuration. -/
inductive ConfigError where
  | file (path : String) (fault : FileFault)
  | parse (fault : Fault)
  | invalid (setting : InvalidSetting)
deriving DecidableEq, Repr

/-- The setting in words. -/
def InvalidSetting.reason : InvalidSetting → String
  | tolerance value =>
      s!"tolerance must be finite and non-negative, got {Positional.text value}"
  | emptySubstring =>
      "an empty unneeded-constraint substring would delete every constraint"

/-- The invalid setting as it is reported. -/
def InvalidSetting.message (s : InvalidSetting) : String :=
  s!"Invalid config: {s.reason}"

namespace Config

-- ============================================================ settings

/-- How many workers there are; `none` for as many as the hardware has. -/
def workers? (c : Config) : Option Nat :=
  if c.threads = 0 then none else some c.threads

/-- Which improving paths become columns. -/
def selection (c : Config) : Selection := .ofCount c.pricingStrategy

/-- Whether the settings make sense, the tolerance first. -/
def validate (c : Config) : Except InvalidSetting Unit :=
  if !c.tolerance.isFinite || c.tolerance < 0.0 then
    .error (.tolerance c.tolerance)
  else if c.unneeded.any (·.isEmpty) then .error .emptySubstring
  else .ok ()

-- ============================================================ reading

/-- A configuration of which some settings are known. -/
structure Draft where
  threads : Option Nat := none
  pricingStrategy : Option Nat := none
  tolerance : Option Float := none
  unneeded : Option (List String) := none

/-- How configurations are read. -/
def schema : Schema Draft Config where
  fields := [
    .of "threads" (·.threads) (fun d x => { d with threads := some x }) nat64,
    .of "pricing_strategy" (·.pricingStrategy)
      (fun d x => { d with pricingStrategy := some x }) nat64,
    .of "tolerance" (·.tolerance)
      (fun d x => { d with tolerance := some x }) float,
    .of "unneeded_constraint_substrings" (·.unneeded)
      (fun d x => { d with unneeded := some x }) (list string)]
  isOpen := false
  empty := {}
  finish d :=
    let default : Config := {}
    some {
      threads := d.threads.getD default.threads
      pricingStrategy := d.pricingStrategy.getD default.pricingStrategy
      tolerance := d.tolerance.getD default.tolerance
      unneeded := d.unneeded.getD default.unneeded }

/-- The configuration a JSON text holds, if it makes sense. -/
def ofJson (text : Bytes) : Except ConfigError Config :=
  match document schema.read text with
  | .error fault => .error (.parse fault)
  | .ok c =>
      match c.validate with
      | .error setting => .error (.invalid setting)
      | .ok () => .ok c

/-- The configuration in a file, which has to be text. -/
def ofFile (folder : Folder) (name : String) : Except ConfigError Config :=
  match folder.text name with
  | .error fault => .error (.file name fault)
  | .ok text => ofJson text.toUTF8.toList

end Config

end FlowPricing
