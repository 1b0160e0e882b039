/-
Records are read back. A record is written as an object with its fields in
the order of declaration; each member fills one more field of the draft
(`Schema.Fills`), and at the end the draft has all that is required.
-/
import FlowPricing.Proofs.Json.Text

namespace FlowPricing.Json.Schema

variable {σ α : Type} {s : Schema σ α}

/-- The written members take the draft `d` to the draft `e`: each key names a
field that is not set yet, and the field's reader reads the value. -/
inductive Fills (s : Schema σ α) : σ → List (String × Bytes) → σ → Prop
  | done (d : σ) : Fills s d [] d
  | member {d e f : σ} {key : String} {text : Bytes}
      {members : List (String × Bytes)}
      {field : Field σ} (known : s.fields.find? (·.name == key) = some field)
      (free : field.isSet d = false) (value : Reads (field.read d) text e)
      (others : Fills s e members f) : Fills s d ((key, text) :: members) f

/-- So does a member whose field keeps its value in the draft. -/
theorem Fills.field {β : Type} {d e : σ} {key : String} {text : Bytes}
    {members : List (String × Bytes)} {get : σ → Option β} {set : σ → β → σ}
    {read : Reader β} {b : β}
    (known : s.fields.find? (·.name == key) = some (.of key get set read))
    (free : (get d).isSome = false) (value : Reads read text b)
    (others : Fills s (set d b) members e) :
    Fills s d ((key, text) :: members) e :=
  .member known free (value.map (set d)) others

/-- A written member. -/
def written (m : String × Bytes) : Bytes :=
  Writer.string m.1 ++ Byte.colon :: m.2

theorem begins_written (m : String × Bytes) : Begins (written m) :=
  (begins_string m.1).append _

/-- Behind its key, the value of a known field is read into the draft. -/
theorem member_eq_ok {d e : σ} {key : String} {text rest : Bytes}
    {field : Field σ} (known : s.fields.find? (·.name == key) = some field)
    (free : field.isSet d = false) (value : Reads (field.read d) text e)
    (hrest : Ends rest) :
    s.member d key (Byte.colon :: (text ++ rest)) = .ok (e, rest) := by
  unfold member
  simp only [known, free, Bool.false_eq_true, if_false]
  rw [punctuation_cons (by decide), except_ok_bind]
  exact value.reads rest hrest

/-- The members of an object are read one after another. -/
theorem members_listed {d e : σ} {members : List (String × Bytes)}
    (h : Fills s d members e) (first : Bool) (rest : Bytes) :
    s.members d first (listed first (members.map written)
      ++ Byte.closeBrace :: rest)
      = .ok (e, rest) := by
  have hclosing : Closing Byte.closeBrace := .inr rfl
  induction h generalizing first with
  | done d =>
      rw [List.map_nil, listed_nil, List.nil_append, Schema.members,
        nextItem_closing hclosing]
      simp only
      rw [punctuation_cons hclosing.not_blank]
      rfl
  | @member d e f key text others field known free value _ ih =>
      -- nothing in this member depends on what follows it but on how that
      -- begins
      have hclose := ends_listed (others.map written) hclosing rest
      generalize htail : listed false (others.map written)
        ++ Byte.closeBrace :: rest = tail
        at hclose
      have hitem : written (key, text) ++ tail
          = Writer.string key ++ Byte.colon :: (text ++ tail) := by
        simp [written]
      obtain ⟨inside, hquote, hkey⟩ :=
        Text.read_string key (Byte.colon :: (text ++ tail))
      have hnext :=
        nextItem_lead hclosing first ((begins_written (key, text)).append tail)
      have hshorter : tail.length < (Byte.quote :: inside).length := by
        have hpos := (begins_written (key, text)).length_pos
        rw [← hquote, ← hitem, List.length_append]
        omega
      rw [List.map_cons, listed_cons, List.append_assoc, List.append_assoc,
        htail, Schema.members, hnext, hitem, hquote]
      simp only
      rw [punctuation_cons (by decide), except_ok_bind, hkey, except_ok_bind]
      simp only
      rw [member_eq_ok known free value hclose]
      simp only
      rw [if_pos, ← htail, ih]
      rw [List.length_append]
      omega

/-- A record is read back from its members. -/
theorem reads_object {members : List (String × Bytes)} {d : σ} {a : α}
    (h : Fills s s.empty members d) (hfinish : s.finish d = some a) :
    Reads s.read (Writer.object members) a where
  begins := begins_cons _ (by decide)
  reads rest _ := by
    unfold read Writer.object
    rw [List.cons_append, start_cons (by decide), if_pos rfl, List.append_assoc]
    have hmembers : s.members s.empty true
        (Writer.separated (members.map written) ++ Byte.closeBrace :: rest)
          = .ok (d, rest) :=
      members_listed h true rest
    rw [List.singleton_append]
    show (s.members s.empty true (Writer.separated (members.map written)
      ++ Byte.closeBrace :: rest) >>= _) = _
    rw [hmembers, except_ok_bind]
    simp only
    unfold complete
    rw [hfinish]
    rfl

end FlowPricing.Json.Schema
