/-
The names of files. A name has an extension if it is a stem, a point and the
extension, where the stem is not empty (`extension?_eq_some_iff`). Names are
ordered character by character. That is the order of their bytes
(`nameBytes_lt`): UTF-8 spells a greater character with a greater first byte,
or agrees with the smaller one up to a byte where it is greater.
-/
import FlowPricing.Files
import FlowPricing.Proofs.Json.Text
import Mathlib.Tactic.SplitIfs

namespace FlowPricing

-- ============================================================ extensions

/-- A name with an extension without points, behind a stem. -/
theorem extension?_append {stem extension : String} (hstem : stem ≠ "")
    (hextension : '.' ∉ extension.toList) :
    extension? (stem ++ "." ++ extension) = some extension := by
  -- the name is searched from its end
  have hreverse : (stem ++ "." ++ extension).toList.reverse
      = extension.toList.reverse ++ '.' :: stem.toList.reverse := by simp
  have hplain : ∀ c ∈ extension.toList.reverse, decide (c ≠ '.') = true := by
    intro c hc
    rw [decide_eq_true_iff]
    rintro rfl
    exact hextension (List.mem_reverse.1 hc)
  have hlength : stem.toList.length ≠ 0 := by
    rw [Ne, List.length_eq_zero_iff]
    exact fun hnone => hstem (String.toList_injective hnone)
  unfold extension?
  simp only
  rw [hreverse, List.takeWhile_append_of_pos hplain,
    List.dropWhile_append_of_pos hplain, List.takeWhile_cons_of_neg (by simp),
    List.dropWhile_cons_of_neg (by simp), List.append_nil, List.reverse_reverse,
    String.ofList_toList]
  apply if_pos
  rw [List.length_cons, List.length_reverse]
  omega

/-- What an extension is: what stands behind the last point, unless nothing
stands before that. -/
theorem extension?_eq_some_iff {name extension : String} :
    extension? name = some extension
      ↔ '.' ∉ extension.toList ∧ ∃ stem, stem ≠ ""
        ∧ name = stem ++ "." ++ extension := by
  constructor
  · have hparts :=
      List.takeWhile_append_dropWhile (p := (· ≠ '.'))
        (l := name.toList.reverse)
    have hafter : ∀ c ∈ name.toList.reverse.takeWhile (· ≠ '.'), c ≠ '.' :=
      fun c hc => of_decide_eq_true (List.all_eq_true.1 List.all_takeWhile c hc)
    have hbefore := List.head?_dropWhile_not (· ≠ '.') name.toList.reverse
    unfold extension?
    simp only
    generalize name.toList.reverse.takeWhile (· ≠ '.') = after at *
    generalize name.toList.reverse.dropWhile (· ≠ '.') = before at *
    intro h
    split at h
    · next hlength =>
        obtain rfl := Option.some.inj h
        rcases before with - | ⟨point, - | ⟨c, rest⟩⟩
        · exact absurd hlength (Nat.not_lt_zero 1)
        · exact absurd hlength (Nat.lt_irrefl 1)
        · obtain rfl : point = '.' := by simpa using hbefore
          refine ⟨?_, String.ofList (c :: rest).reverse, ?_, ?_⟩
          · rw [String.toList_ofList, List.mem_reverse]
            exact fun hin => hafter '.' hin rfl
          · rw [Ne, String.ofList_eq_empty_iff]
            simp
          · apply String.toList_injective
            rw [← List.reverse_reverse name.toList, ← hparts]
            simp
    · exact nomatch h
  · intro h
    obtain ⟨hextension, stem, hstem, rfl⟩ := h
    exact extension?_append hstem hextension

-- ================================================================= order

/-- The bytes of a name. -/
def nameBytes (name : String) : Json.Bytes := name.toUTF8.toList

/-- The bytes of a name are those of its characters in turn. -/
theorem nameBytes_eq (name : String) :
    nameBytes name = name.toList.flatMap String.utf8EncodeChar := by
  unfold nameBytes ByteArray.toList
  rw [Json.toList_loop_eq]
  show name.toByteArray.data.toList = _
  rw [← String.utf8Encode_toList]
  exact List.toList_data_toByteArray

/-- The first byte decides where it is greater, -/
theorem ofNat_cons_lt {m n : Nat} {k l : List UInt8} (hn : n < 256)
    (h : m < n) :
    UInt8.ofNat m :: k < UInt8.ofNat n :: l := by
  rw [List.cons_lt_cons_iff]
  left
  rw [UInt8.lt_iff_toNat_lt, UInt8.toNat_ofNat', UInt8.toNat_ofNat']
  omega

/-- and the others do where it is the same. -/
theorem ofNat_cons_lt_of_le {m n : Nat} {k l : List UInt8} (hn : n < 256)
    (hle : m ≤ n) (h : m = n → k < l) :
    UInt8.ofNat m :: k < UInt8.ofNat n :: l := by
  rcases Nat.lt_or_eq_of_le hle with hlt | rfl
  · exact ofNat_cons_lt hn hlt
  · exact List.cons_lt_cons_iff.2 (.inr ⟨rfl, h rfl⟩)

/-- A greater character is spelled with greater bytes, whatever follows. -/
theorem utf8EncodeChar_lt {c d : Char} (h : c < d) (k l : List UInt8) :
    String.utf8EncodeChar c ++ k < String.utf8EncodeChar d ++ l := by
  have hlt : c.val.toNat < d.val.toNat := h
  have hd : d.val.toNat < 0x110000 := by
    rcases d.valid with h | ⟨-, h⟩
    · omega
    · exact h
  unfold String.utf8EncodeChar
  generalize c.val.toNat = m at hlt
  generalize d.val.toNat = n at hlt hd
  simp only
  -- by how long the smaller one is; the greater one is as long, or starts
  -- higher
  split
  · split_ifs <;> exact ofNat_cons_lt (by omega) (by omega)
  rw [if_neg (show ¬n ≤ 0x7f by omega)]
  split
  · split_ifs
    · refine ofNat_cons_lt_of_le (by omega) (by omega) fun _ => ?_
      exact ofNat_cons_lt (by omega) (by omega)
    all_goals exact ofNat_cons_lt (by omega) (by omega)
  rw [if_neg (show ¬n ≤ 0x7ff by omega)]
  split
  · split_ifs
    · refine ofNat_cons_lt_of_le (by omega) (by omega) fun _ => ?_
      refine ofNat_cons_lt_of_le (by omega) (by omega) fun _ => ?_
      exact ofNat_cons_lt (by omega) (by omega)
    · exact ofNat_cons_lt (by omega) (by omega)
  rw [if_neg (show ¬n ≤ 0xffff by omega)]
  refine ofNat_cons_lt_of_le (by omega) (by omega) fun _ => ?_
  refine ofNat_cons_lt_of_le (by omega) (by omega) fun _ => ?_
  refine ofNat_cons_lt_of_le (by omega) (by omega) fun _ => ?_
  exact ofNat_cons_lt (by omega) (by omega)

/-- What differs behind a common beginning is ordered by what differs. -/
theorem append_lt_append (j : List UInt8) {k l : List UInt8} (h : k < l) :
    j ++ k < j ++ l := by
  induction j with
  | nil => exact h
  | cons b j ih => exact List.cons_lt_cons_iff.2 (.inr ⟨rfl, ih⟩)

/-- Texts are ordered as their bytes are. -/
theorem flatMap_lt_flatMap {k l : List Char} (h : k < l) :
    k.flatMap String.utf8EncodeChar < l.flatMap String.utf8EncodeChar := by
  induction h with
  | @nil c l =>
      rw [List.flatMap_cons]
      cases hbytes : String.utf8EncodeChar c
        ++ l.flatMap String.utf8EncodeChar with
      | nil =>
          have hlength := congrArg List.length hbytes
          rw [List.length_append, String.length_utf8EncodeChar] at hlength
          have hsize := c.utf8Size_pos
          simp at hlength
          omega
      | cons b rest => exact List.nil_lt_cons b rest
  | rel h =>
      rw [List.flatMap_cons, List.flatMap_cons]
      exact utf8EncodeChar_lt h _ _
  | cons _ ih =>
      rw [List.flatMap_cons, List.flatMap_cons]
      exact append_lt_append _ ih

/-- Names are in the order of their bytes. -/
theorem nameBytes_lt {a b : String} (h : a < b) :
    nameBytes a < nameBytes b := by
  rw [nameBytes_eq, nameBytes_eq]
  exact flatMap_lt_flatMap h

end FlowPricing
