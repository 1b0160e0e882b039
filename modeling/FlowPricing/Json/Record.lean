/-
Reading records. A record is written as an object with its fields in any
order, or as an array of its fields in the order of declaration. It is
read field by field into a draft, which says in the end whether what was
read is enough.
-/
import FlowPricing.Json.Skip
import FlowPricing.Json.Value

namespace FlowPricing.Json

variable {σ α β : Type}

/-- A field of a record that is read into drafts of type `σ`. -/
structure Field (σ : Type) where
  name : String
  /-- Whether the draft already has the field. -/
  isSet : σ → Bool
  /-- Reads the field's value into the draft. -/
  read : σ → Reader σ

/-- A record type as it is read. -/
structure Schema (σ α : Type) where
  fields : List (Field σ)
  /-- Whether members with other keys are passed over rather than refused. -/
  isOpen : Bool
  empty : σ
  /-- The record, if the draft has all that is required. -/
  finish : σ → Option α

/-- A field that is kept in a draft as an optional value. -/
def Field.of (name : String) (get : σ → Option β) (set : σ → β → σ)
    (read : Reader β) : Field σ where
  name
  isSet draft := (get draft).isSome
  read draft := fun bs => (read bs).map fun r => (set draft r.1, r.2)

namespace Schema

/-- Reads one member's value, given its key and the text after the key. A
known key may come only once. -/
def member (s : Schema σ α) (draft : σ) (key : String) (bs : Bytes) :
    Except Fault (σ × Bytes) :=
  match s.fields.find? (·.name == key) with
  | some field =>
      if field.isSet draft then .error .unexpected
      else do
        let bs ← punctuation Byte.colon bs
        field.read draft bs
  | none =>
      if s.isOpen then do
        let bs ← punctuation Byte.colon bs
        let bs ← Skip.value bs
        return (draft, bs)
      else .error .unexpected

/-- Reads the members of an object up to and with its closing brace. -/
def members (s : Schema σ α) (draft : σ) (first : Bool) (bs : Bytes) :
    Except Fault (σ × Bytes) :=
  match nextItem Byte.closeBrace first bs with
  | .error f => .error f
  | .ok none => (punctuation Byte.closeBrace bs).map (draft, ·)
  | .ok (some at?) =>
      let read : Except Fault (σ × Bytes) := do
        let bs ← punctuation Byte.quote at?
        let (key, bs) ← Text.read bs
        s.member draft key bs
      match read with
      | .error f => .error f
      | .ok (draft, rest) =>
          -- no member is empty
          if rest.length < bs.length then s.members draft false rest
          else .error .malformed
termination_by bs.length

/-- Reads fields in their order from an array, as many as there are. -/
def elements (draft : σ) (first : Bool) (bs : Bytes) :
    List (Field σ) → Except Fault (σ × Bytes)
  | [] => .ok (draft, bs)
  | field :: fields =>
      match nextItem Byte.closeBracket first bs with
      | .error f => .error f
      | .ok none => .ok (draft, bs)
      | .ok (some at?) =>
          match field.read draft at? with
          | .error f => .error f
          | .ok (draft, rest) => elements draft false rest fields

/-- The finished record, or the fault that something is missing. -/
def complete (s : Schema σ α) (draft : σ) : Except Fault α :=
  match s.finish draft with
  | some a => .ok a
  | none => .error .unexpected

/-- Reads a record from an object or an array. -/
def read (s : Schema σ α) : Reader α := start fun b rest =>
  if b = Byte.openBrace then do
    let (draft, rest) ← s.members s.empty true rest
    return (← s.complete draft, rest)
  else if b = Byte.openBracket then do
    let (draft, rest) ← elements s.empty true rest s.fields
    let a ← s.complete draft
    return (a, ← punctuation Byte.closeBracket rest)
  else .error (refusal (b :: rest))

end Schema

end FlowPricing.Json
