/-
What is written is read back. A reader reads a text as a value (`Reads`) if
it does so in front of everything that may follow a value, and stops right
behind the text. Arrays and objects are read back if what they hold is
(`reads_array`, `reads_object`), by induction on their items: each of them
stands between punctuation (`listed`), and each is read from where the one
before has left off.
-/
import FlowPricing.Json.Record
import FlowPricing.Json.Writer
import FlowPricing.Proofs.Action

namespace FlowPricing.Json

variable {α β σ : Type}

/-- After a success, what follows decides. -/
theorem except_ok_bind {ε : Type} (a : α) (f : α → Except ε β) :
    (Except.ok a >>= f) = f a := rfl

-- ========================================================== surroundings

/-- A text that may follow a value: it is empty or goes on with
punctuation. -/
def Ends : Bytes → Prop
  | [] => True
  | b :: _ => b = Byte.comma ∨ b = Byte.closeBracket ∨ b = Byte.closeBrace

/-- A text that a value may begin with: its first byte is no blank and closes
nothing. -/
def Begins : Bytes → Prop
  | [] => False
  | b :: _ => Byte.isBlank b = false ∧ b ≠ Byte.closeBracket
    ∧ b ≠ Byte.closeBrace

theorem begins_cons {b : UInt8} (rest : Bytes) (h : Byte.isBlank b = false
    ∧ b ≠ Byte.closeBracket ∧ b ≠ Byte.closeBrace) : Begins (b :: rest) := h

/-- The reader reads the text as the value, whatever ends it there. -/
structure Reads (read : Reader α) (text : Bytes) (a : α) : Prop where
  begins : Begins text
  reads : ∀ rest, Ends rest → read (text ++ rest) = .ok (a, rest)

/-- A value begins as its first part does. -/
theorem Begins.append {text : Bytes} (h : Begins text) (rest : Bytes) :
    Begins (text ++ rest) := by
  cases text with
  | nil => exact h.elim
  | cons b text => exact h

/-- No value is written as nothing. -/
theorem Begins.length_pos {text : Bytes} (h : Begins text) :
    0 < text.length := by
  cases text with
  | nil => exact h.elim
  | cons b text => exact Nat.succ_pos _

/-- What was read can be changed afterwards. -/
theorem Reads.map {read : Reader α} {text : Bytes} {a : α}
    (h : Reads read text a) (f : α → β) :
    Reads (fun bs => (read bs).map fun r => (f r.1, r.2)) text (f a) where
  begins := h.begins
  reads rest hrest := by
    rw [h.reads rest hrest]
    rfl

/-- At the end of a document nothing follows. -/
theorem document_eq_ok {read : Reader α} {text : Bytes} {a : α}
    (h : Reads read text a) :
    document read text = .ok a := by
  have hread := h.reads [] trivial
  rw [List.append_nil] at hread
  unfold document
  rw [hread]
  rfl

-- =========================================================== punctuation

theorem skipBlanks_cons {b : UInt8} (h : Byte.isBlank b = false) (bs : Bytes) :
    skipBlanks (b :: bs) = b :: bs := by
  unfold skipBlanks
  rw [List.dropWhile_cons_of_neg (by simp [h])]

theorem start_cons {read : UInt8 → Bytes → Except Fault α} {b : UInt8}
    (h : Byte.isBlank b = false) (bs : Bytes) :
    start read (b :: bs) = read b bs := by
  unfold start
  rw [skipBlanks_cons h]

/-- A mark is read where it stands. -/
theorem punctuation_cons {p : UInt8} (h : Byte.isBlank p = false) (bs : Bytes) :
    punctuation p (p :: bs) = .ok bs := by
  unfold punctuation
  rw [skipBlanks_cons h]
  exact if_pos rfl

/-- The bytes that close a list. -/
def Closing (b : UInt8) : Prop := b = Byte.closeBracket ∨ b = Byte.closeBrace

theorem Closing.not_blank {b : UInt8} (h : Closing b) :
    Byte.isBlank b = false := by
  rcases h with rfl | rfl <;> decide

theorem Closing.ends {b : UInt8} (h : Closing b) (bs : Bytes) :
    Ends (b :: bs) := .inr h

/-- A closing bracket ends a list, be it empty or not. -/
theorem nextItem_closing {closing : UInt8} (h : Closing closing) (first : Bool)
    (bs : Bytes) :
    nextItem closing first (closing :: bs) = .ok none := by
  unfold nextItem
  rw [skipBlanks_cons h.not_blank]
  exact if_pos rfl

/-- What stands in front of an item. -/
def lead (first : Bool) : Bytes := if first then [] else [Byte.comma]

/-- Behind its comma, if it has one, comes the next item. -/
theorem nextItem_lead {closing : UInt8} (h : Closing closing) (first : Bool)
    {text : Bytes} (htext : Begins text) :
    nextItem closing first (lead first ++ text) = .ok (some text) := by
  cases text with
  | nil => exact htext.elim
  | cons b rest =>
      obtain ⟨hblank, hbracket, hbrace⟩ := htext
      have hopen : b ≠ closing := by
        rcases h with rfl | rfl
        · exact hbracket
        · exact hbrace
      have hcomma : Byte.comma ≠ closing := by
        rcases h with rfl | rfl <;> decide
      cases first with
      | true =>
          show nextItem closing true (b :: rest) = _
          unfold nextItem
          rw [skipBlanks_cons hblank]
          simp only [if_neg hopen, if_true]
      | false =>
          show nextItem closing false (Byte.comma :: b :: rest) = _
          unfold nextItem
          rw [skipBlanks_cons (by decide)]
          simp only [if_neg hcomma, skipBlanks_cons hblank, if_neg hopen]
          rfl

-- =============================================================== listing

/-- Written items as they stand in a list: behind the opening, or behind
items that were read before. -/
def listed (first : Bool) (texts : List Bytes) : Bytes :=
  if first then Writer.separated texts else texts.flatMap (Byte.comma :: ·)

theorem listed_nil (first : Bool) : listed first [] = [] := by
  cases first <;> rfl

theorem separated_cons (text : Bytes) (texts : List Bytes) :
    Writer.separated (text :: texts)
      = text ++ texts.flatMap (Byte.comma :: ·) := by
  induction texts generalizing text with
  | nil => exact (List.append_nil text).symm
  | cons next texts ih =>
      rw [Writer.separated, ih, List.flatMap_cons, List.cons_append]

/-- Items are listed one by one, and only the first has no comma. -/
theorem listed_cons (first : Bool) (text : Bytes) (texts : List Bytes) :
    listed first (text :: texts)
      = lead first ++ (text ++ listed false texts) := by
  cases first with
  | true => exact separated_cons text texts
  | false => rfl

/-- Behind an item, the list goes on or is closed. -/
theorem ends_listed (texts : List Bytes) {closing : UInt8} (h : Closing closing)
    (rest : Bytes) :
    Ends (listed false texts ++ closing :: rest) := by
  cases texts with
  | nil => exact h.ends rest
  | cons text texts => exact .inl rfl

-- ================================================================ arrays

section Arrays

variable {item : Reader α} {texts : List Bytes} {as : List α}

/-- The items of an array are read one after another. -/
theorem items_listed (h : List.Forall₂ (Reads item) texts as) (first : Bool)
    (rest : Bytes) :
    items item first (listed first texts ++ Byte.closeBracket :: rest)
      = .ok (as, rest) := by
  have hclosing : Closing Byte.closeBracket := .inl rfl
  -- behind the first item the reader expects commas, so `first` changes
  induction h generalizing first with
  | nil =>
      rw [listed_nil, List.nil_append, items, nextItem_closing hclosing]
      simp only
      rw [punctuation_cons hclosing.not_blank]
      rfl
  | @cons text a texts as hitem _ ih =>
      have hread := hitem.reads _ (ends_listed texts hclosing rest)
      have hnext := nextItem_lead hclosing first
        (hitem.begins.append (listed false texts ++ Byte.closeBracket :: rest))
      rw [listed_cons, List.append_assoc, List.append_assoc, items, hnext]
      simp only
      rw [hread]
      simp only
      -- the guard of the reader: an item is not empty
      rw [if_pos, ih]
      have hpos := hitem.begins.length_pos
      simp only [List.length_append]
      omega

/-- An array is read back if its items are. -/
theorem reads_array (h : List.Forall₂ (Reads item) texts as) :
    Reads (list item) (Writer.array texts) as where
  begins := begins_cons _ (by decide)
  reads rest _ := by
    unfold list Writer.array
    rw [List.cons_append, start_cons (by decide), if_pos rfl, List.append_assoc]
    exact items_listed h true rest

/-- So what every item is written as can be read back in an array. -/
theorem reads_array_map {write : α → Bytes} (h : ∀ a, Reads item (write a) a)
    (as : List α) :
    Reads (list item) (Writer.array (as.map write)) as :=
  reads_array (List.forall₂_map_left_iff.2 (List.forall₂_same.2 fun a _ => h a))

end Arrays

-- ================================================================= flags

/-- A word is read where it stands. -/
theorem word_append (ws bs : Bytes) : word ws (ws ++ bs) = .ok bs := by
  induction ws with
  | nil => rfl
  | cons w ws ih => exact (if_pos rfl).trans ih

/-- A flag is read back as it was written. -/
theorem reads_flag (b : Bool) : Reads flag (Writer.flag b) b := by
  cases b with
  | true =>
      refine ⟨begins_cons _ (by decide), fun rest _ => ?_⟩
      show start _ (Byte.ofChar 't' :: (ascii "rue" ++ rest)) = _
      rw [start_cons (by decide), if_pos rfl, word_append]
      rfl
  | false =>
      refine ⟨begins_cons _ (by decide), fun rest _ => ?_⟩
      show start _ (Byte.ofChar 'f' :: (ascii "alse" ++ rest)) = _
      rw [start_cons (by decide), if_neg (by decide), if_pos rfl, word_append]
      rfl

end FlowPricing.Json
