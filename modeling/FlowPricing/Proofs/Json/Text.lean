/-
Strings are read back, whatever characters they hold. The bytes of a string
are escaped one by one, and each escape is read as the byte it stands for
(`body_escaped`); the bytes of a string are those of a valid text, so the
string comes back with them.
-/
import FlowPricing.Proofs.Json.Reading

namespace FlowPricing.Json

-- ================================================================= bytes

/-- The loop that lists the bytes of an array, from a position on. -/
theorem toList_loop_eq (bs : ByteArray) (i : Nat) (r : List UInt8) :
    ByteArray.toList.loop bs i r = r.reverse ++ bs.data.toList.drop i := by
  fun_induction ByteArray.toList.loop bs i r with
  | case1 i r h ih =>
      have hi : i < bs.data.toList.length := by simpa using h
      rw [ih, List.drop_eq_getElem_cons hi]
      simp [ByteArray.get!, h]
  | case2 i r h =>
      rw [List.drop_eq_nil_of_le (by simpa using Nat.le_of_not_lt h),
        List.append_nil]

/-- The bytes of an array make up the array. -/
theorem toByteArray_toList (bs : ByteArray) : bs.toList.toByteArray = bs := by
  apply ByteArray.ext
  rw [List.data_toByteArray, ByteArray.toList, toList_loop_eq]
  rfl

/-- A string is what its bytes stand for. -/
theorem fromUTF8?_toUTF8 (s : String) :
    String.fromUTF8? s.toUTF8.toList.toByteArray = some s := by
  rw [toByteArray_toList]
  exact dif_pos s.isValidUTF8

-- =============================================================== escapes

namespace Text

/-- Hexadecimal digits are read back as they were written. -/
theorem hexValue?_hexDigit :
    ∀ n < 16, hexValue? (Writer.hexDigit n) = some n := by decide

/-- Control characters are written by their number. -/
theorem codeUnit_control {b : UInt8} (h : b < Byte.space) (rest : Bytes) :
    codeUnit (Byte.zero :: Byte.zero :: Writer.hexDigit (b.toNat / 16)
      :: Writer.hexDigit (b.toNat % 16) :: rest) = .ok (b.toNat, rest) := by
  have hb : b.toNat < 32 := UInt8.lt_iff_toNat_lt.1 h
  have hzero : hexValue? Byte.zero = some 0 := by decide
  unfold codeUnit
  simp only [hzero, hexValue?_hexDigit (b.toNat / 16) (by omega),
    hexValue?_hexDigit (b.toNat % 16) (by omega)]
  congr 2
  omega

theorem encode_control : ∀ n < 32, isTrail n = false ∧ isLead n = false
    ∧ encode n = [UInt8.ofNat n] := by decide

/-- A short escape stands for one byte. -/
theorem escape_short {b c : UInt8} (h : shortEscape? c = some b)
    (rest : Bytes) :
    escape (c :: rest) = .ok ([b], rest) := by
  simp only [escape, h]

/-- A control character is escaped by its code. -/
theorem escape_control {b : UInt8} (h : b < Byte.space) (rest : Bytes) :
    escape (Byte.ofChar 'u' :: Byte.zero :: Byte.zero
      :: Writer.hexDigit (b.toNat / 16)
      :: Writer.hexDigit (b.toNat % 16) :: rest) = .ok ([b], rest) := by
  obtain ⟨htrail, hlead, hencode⟩ :=
    encode_control b.toNat (UInt8.lt_iff_toNat_lt.1 h)
  have hshort : shortEscape? (Byte.ofChar 'u') = none := by decide
  simp only [escape, hshort, if_true, codeUnit_control h, htrail,
    hlead, hencode, UInt8.ofNat_toNat]
  rfl

/-- A byte is written as it is, or as an escape that stands for it. -/
theorem escaped_cases (b : UInt8) :
    Writer.escaped b = [b] ∧ b ≠ Byte.quote ∧ b ≠ Byte.backslash
      ∧ ¬b < Byte.space
      ∨ ∃ e, Writer.escaped b = Byte.backslash :: e
        ∧ ∀ rest, escape (e ++ rest) = .ok ([b], rest) := by
  unfold Writer.escaped
  -- the short escapes
  iterate 7
    split
    · next h => exact .inr ⟨_, rfl, escape_short (by rw [h]; decide)⟩
  split
  · next h => exact .inr ⟨_, rfl, escape_control h⟩
  · next hquote hbackslash _ _ _ _ _ hspace =>
      exact .inl ⟨rfl, hquote, hbackslash, hspace⟩

/-- What a byte is written as is read as that byte. -/
theorem body_escaped {b : UInt8} {rest more after : Bytes}
    (h : body rest = .ok (more, after)) :
    body (Writer.escaped b ++ rest) = .ok (b :: more, after) := by
  rcases escaped_cases b with ⟨hb, hquote, hbackslash, hspace⟩
    | ⟨e, hb, hescape⟩
  · rw [hb, List.singleton_append, body, if_neg hquote, if_neg hbackslash,
      if_neg hspace, h]
  · rw [hb, List.cons_append, body, if_neg (by decide), if_pos rfl, hescape]
    simp only [List.length_append]
    rw [if_pos (by omega), h]
    rfl

/-- Up to the closing quote, the bytes of a string are read back. -/
theorem body_written (bs rest : Bytes) :
    body (bs.flatMap Writer.escaped ++ Byte.quote :: rest)
      = .ok (bs, rest) := by
  induction bs with
  | nil =>
      rw [List.flatMap_nil, List.nil_append, body]
      exact if_pos rfl
  | cons b bs ih =>
      rw [List.flatMap_cons, List.append_assoc]
      exact body_escaped ih

/-- Behind its opening quote, a written string is read back. -/
theorem read_string (s : String) (rest : Bytes) :
    ∃ text, Writer.string s ++ rest = Byte.quote :: text
      ∧ read text = .ok (s, rest) := by
  refine ⟨s.toUTF8.toList.flatMap Writer.escaped ++ Byte.quote :: rest, ?_, ?_⟩
  · simp [Writer.string]
  · unfold read
    rw [body_written]
    simp only
    rw [fromUTF8?_toUTF8]

end Text

/-- What is written for a string can begin a value. -/
theorem begins_string (s : String) : Begins (Writer.string s) :=
  begins_cons _ (by decide)

/-- A string is read back as it was written. -/
theorem reads_string (s : String) : Reads string (Writer.string s) s where
  begins := begins_string s
  reads rest _ := by
    obtain ⟨text, hs, hread⟩ := Text.read_string s rest
    unfold string
    rw [hs, start_cons (by decide), if_pos rfl]
    exact hread

end FlowPricing.Json
