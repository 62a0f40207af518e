import Mathlib.Algebra.Group.Nat.Defs
import Mathlib.Data.Nat.Notation
import Pipewright.Text

/-!
# Texts read back

Where a class of characters ends, how numerals and bytes are read back, and where a text may be
cut.
-/

/-!
## Where a class of characters ends

What a reader takes as long as a class of characters goes on is exactly what was
written, if what follows does not start with a character of the class.
-/

namespace Pipewright

/-- The text does not start with a character of the class. -/
def Stops (p : Char → Bool) : List Char → Prop
  | [] => True
  | c :: _ => p c = false

theorem Stops.mono {p q : Char → Bool} {s : List Char} (h : Stops p s)
    (hqp : ∀ c, p c = false → q c = false) : Stops q s := by
  cases s with
  | nil => trivial
  | cons c s => exact hqp c h

theorem takeWhile_append {p : Char → Bool} {l rest : List Char} (hl : ∀ c ∈ l, p c)
    (hr : Stops p rest) : (l ++ rest).takeWhile p = l := by
  rw [List.takeWhile_append_of_pos hl]
  cases rest with
  | nil => simp
  | cons c r => simp [show p c = false from hr]

theorem dropWhile_append {p : Char → Bool} {l rest : List Char} (hl : ∀ c ∈ l, p c)
    (hr : Stops p rest) : (l ++ rest).dropWhile p = rest := by
  rw [List.dropWhile_append_of_pos hl]
  cases rest with
  | nil => rfl
  | cons c r => simp [show p c = false from hr]

theorem stops_dropWhile_append {p : Char → Bool} {l rest : List Char} (h : Stops p rest) :
    Stops p (l.dropWhile p ++ rest) := by
  induction l with
  | nil => exact h
  | cons c l ih =>
      rw [List.dropWhile_cons]
      split
      · exact ih
      · next hc => exact Bool.eq_false_iff.mpr hc

end Pipewright

/-!
## Numerals read back

A number that is written in decimal digits is read as the same number, with and
without a sign, and a word of 64 bits is in range because it came from one.
-/

namespace Pipewright.Numeral

theorem value_digits (n : Nat) : value 0 (digits n) = n := Nat.ofDigitChars_ten_toDigits

theorem value_append (acc : Nat) (cs ds : List Char) :
    value acc (cs ++ ds) = value (value acc cs) ds :=
  List.foldl_append

theorem value_replicate_zero (acc k : Nat) : value acc (List.replicate k '0') = acc * 10 ^ k := by
  induction k generalizing acc with
  | zero => simp [value]
  | succ k ih =>
      rw [List.replicate_succ]
      change value (10 * acc + 0) (List.replicate k '0') = _
      rw [ih, Nat.pow_succ', Nat.add_zero, Nat.mul_comm 10, Nat.mul_assoc]

/-- Each digit that is read on makes a number ten times as large, or more. -/
theorem mul_le_value (acc : Nat) (cs : List Char) : acc * 10 ^ cs.length ≤ value acc cs := by
  induction cs generalizing acc with
  | nil => exact Nat.le_of_eq (Nat.mul_one acc)
  | cons c cs ih =>
      calc acc * 10 ^ (c :: cs).length = 10 * acc * 10 ^ cs.length := by
            rw [List.length_cons, Nat.pow_succ', ← Nat.mul_assoc, Nat.mul_comm acc]
        _ ≤ (10 * acc + (c.toNat - '0'.toNat)) * 10 ^ cs.length :=
          Nat.mul_le_mul_right _ (Nat.le_add_right ..)
        _ ≤ value acc (c :: cs) := ih _

theorem le_value (acc : Nat) (cs : List Char) : acc ≤ value acc cs :=
  Nat.le_trans (Nat.le_mul_of_pos_right acc (Nat.pow_pos (by decide))) (mul_le_value acc cs)

/-- So many digits make a number below the power of ten. -/
theorem value_lt {cs : List Char} (h : ∀ c ∈ cs, c.isDigit) (acc : Nat) :
    value acc cs < (acc + 1) * 10 ^ cs.length := by
  induction cs generalizing acc with
  | nil => simp [value]
  | cons c cs ih =>
      obtain ⟨hc, hcs⟩ := List.forall_mem_cons.mp h
      have hdigit : c.toNat - '0'.toNat ≤ 9 := by
        have hnine : c.toNat ≤ '9'.toNat := (Char.isDigit_iff_toNat.mp hc).2
        exact Nat.sub_le_sub_right hnine _
      calc value acc (c :: cs) = value (10 * acc + (c.toNat - '0'.toNat)) cs := rfl
        _ < (10 * acc + (c.toNat - '0'.toNat) + 1) * 10 ^ cs.length := ih hcs _
        _ ≤ ((acc + 1) * 10) * 10 ^ cs.length := Nat.mul_le_mul_right _ (by omega)
        _ = (acc + 1) * 10 ^ (c :: cs).length := by
          rw [List.length_cons, Nat.pow_succ', Nat.mul_assoc]

theorem digits_ne_nil (n : Nat) : digits n ≠ [] := Nat.toDigits_ne_nil

theorem isDigit_of_mem_digits {n : Nat} {c : Char} (h : c ∈ digits n) : c.isDigit :=
  Nat.isDigit_of_mem_toDigits (by decide) (by decide) h

theorem head?_digits {n : Nat} (h : (digits n).head? = some '0') : n = 0 := by
  induction n using Nat.strongRecOn with
  | ind n ih =>
      by_cases hlt : n < 10
      · rw [digits, Nat.toDigits_of_lt_base hlt] at h
        have hzero : ∀ k < 10, k.digitChar = '0' → k = 0 := by decide
        exact hzero n hlt (Option.some.inj h)
      · obtain ⟨d, ds, hds⟩ := List.exists_cons_of_ne_nil (digits_ne_nil (n / 10))
        have hfront : (digits (n / 10)).head? = some '0' := by
          rw [digits, Nat.toDigits_of_base_le (by decide) (Nat.not_lt.mp hlt)] at h
          change (digits (n / 10) ++ _).head? = _ at h
          rw [hds] at h ⊢
          exact h
        have := ih (n / 10) (by omega) hfront
        omega

/-- A number that is not too great has exactly so many digits when it is filled with zeros. -/
theorem length_padded {width n : Nat} (hwidth : 0 < width) (h : n < 10 ^ width) :
    (padded width n).toList.length = width := by
  have hle : (digits n).length ≤ width :=
    (Nat.length_toDigits_le_iff (b := 10) (by decide) hwidth).mpr h
  rw [padded, String.toList_ofList, List.length_append, List.length_replicate]
  omega

theorem isDigit_padded {width n : Nat} : ∀ c ∈ (padded width n).toList, c.isDigit := by
  intro c hc
  rw [padded, String.toList_ofList, List.mem_append] at hc
  rcases hc with hzero | hdigit
  · rw [List.eq_of_mem_replicate hzero]
    rfl
  · exact isDigit_of_mem_digits hdigit

theorem digits?_digits (n : Nat) : digits? (digits n) = some n := by
  have hall : (digits n).all Char.isDigit = true :=
    List.all_eq_true.mpr fun _ => isDigit_of_mem_digits
  simp [digits?, digits_ne_nil, hall, value_digits]

theorem nat?_eq_digits? {cs : List Char} (h : ∀ c ∈ cs, c.isDigit) : nat? cs = digits? cs := by
  unfold nat?
  split
  · exact absurd (h '+' (List.mem_cons_self ..)) (by decide)
  · rfl

theorem nat?_digits (n : Nat) : nat? (digits n) = some n := by
  rw [nat?_eq_digits? fun _ => isDigit_of_mem_digits, digits?_digits]

theorem uint64?_padded (width : Nat) (n : UInt64) :
    uint64? (padded width n.toNat).toList = some n := by
  have hvalue : value 0 (padded width n.toNat).toList = n.toNat := by
    rw [padded, String.toList_ofList, value_append, value_replicate_zero, Nat.zero_mul,
      value_digits]
  have hne : (padded width n.toNat).toList ≠ [] := by
    simp [padded, digits_ne_nil]
  have hall : (padded width n.toNat).toList.all Char.isDigit = true :=
    List.all_eq_true.mpr isDigit_padded
  have hdigits : digits? (padded width n.toNat).toList = some n.toNat := by
    simp [digits?, hne, hall, hvalue]
  rw [uint64?, nat?_eq_digits? isDigit_padded, hdigits, Option.bind_some, if_pos n.toNat_lt_size,
    UInt64.ofNat_toNat]

/-- A number is read from digits, with at most a plus sign in front. -/
theorem mem_of_uint64? {cs : List Char} {n : UInt64} (h : uint64? cs = some n) :
    ∀ c ∈ cs, c = '+' ∨ c.isDigit := by
  obtain ⟨k, hk, -⟩ := Option.bind_eq_some_iff.mp h
  have hdigits : ∀ {ds : List Char} {k : Nat}, digits? ds = some k → ∀ c ∈ ds, c.isDigit := by
    intro ds k hds
    rw [digits?] at hds
    split at hds
    · cases hds
    · next hno =>
      rw [Bool.not_eq_true, Bool.or_eq_false_iff, Bool.not_eq_false'] at hno
      exact List.all_eq_true.mp hno.2
  unfold nat? at hk
  split at hk
  · exact List.forall_mem_cons.mpr ⟨.inl rfl, fun c hc => .inr (hdigits hk c hc)⟩
  · exact fun c hc => .inr (hdigits hk c hc)

theorem toList_intText (i : Int) :
    (intText i).toList = if i < 0 then '-' :: digits i.natAbs else digits i.natAbs := by
  unfold intText text
  split <;> simp

theorem int?_intText (i : Int) : int? (intText i).toList = some i := by
  rw [toList_intText]
  by_cases hneg : i < 0
  · rw [if_pos hneg]
    simp only [int?, digits?_digits]
    exact congrArg some (show -(i.natAbs : Int) = i by omega)
  · rw [if_neg hneg]
    unfold int?
    split
    · next cs heq =>
      have := isDigit_of_mem_digits (n := i.natAbs) (c := '-') (by rw [heq]; simp)
      exact absurd this (by decide)
    · rw [nat?_digits]
      exact congrArg some (show (i.natAbs : Int) = i by omega)

theorem int64?_intText (i : Int64) : int64? (intText i.toInt).toList = some i := by
  have hlow : Int64.minValue.toInt ≤ i.toInt := Int64.minValue_le_toInt i
  have hhigh : i.toInt ≤ Int64.maxValue.toInt := Int64.toInt_le i
  simp only [int64?, int?_intText, Option.bind_some]
  rw [if_pos ⟨hlow, hhigh⟩, Int64.ofInt_toInt]

end Pipewright.Numeral

/-!
## Texts and their bytes

The bytes of a text are read as that text and as no other, and the bytes of two
texts one after the other are those of the texts put together. The first bytes of a
text are a text again only if it is not cut inside a character (`exists_cut`).
-/

namespace Pipewright

/-- Bytes are read as a text if they are the bytes of the text. -/
theorem fromUTF8?_eq_some {bytes : ByteArray} {text : String} :
    String.fromUTF8? bytes = some text ↔ bytes = text.toUTF8 := by
  unfold String.fromUTF8?
  constructor
  · intro h
    split at h
    · rw [← Option.some.inj h]
      rfl
    · cases h
  · rintro rfl
    exact dif_pos text.isValidUTF8

theorem fromUTF8?_toUTF8 (text : String) : String.fromUTF8? text.toUTF8 = some text :=
  fromUTF8?_eq_some.mpr rfl

theorem toUTF8_append (s t : String) : (s ++ t).toUTF8 = s.toUTF8 ++ t.toUTF8 := by
  simp [String.toUTF8_eq_toByteArray]

/-- A text that begins with the bytes of another one begins with it. -/
theorem exists_text_of_append {front text : String} {rest : ByteArray}
    (h : front.toUTF8 ++ rest = text.toUTF8) :
    ∃ back : String, rest = back.toUTF8 ∧ text = front ++ back := by
  simp only [String.toUTF8_eq_toByteArray] at h ⊢
  have hencoded : front.toList.utf8Encode ++ rest = text.toList.utf8Encode := by
    rw [String.utf8Encode_toList, String.utf8Encode_toList, h]
  obtain ⟨back, hback⟩ := List.isPrefix_of_utf8Encode_append_eq_utf8Encode rest hencoded
  have htext : text = front ++ String.ofList back := by
    rw [← String.toList_inj, String.toList_append, String.toList_ofList, hback]
  refine ⟨String.ofList back, ?_, htext⟩
  rw [htext, String.toByteArray_append] at h
  exact (ByteArray.append_right_inj _).mp h

/-- Where the first bytes of a line stand between two texts, and all of that is a text, the line
was not cut inside a character. -/
theorem exists_cut {front line back text : String} {k : Nat} (hk : k ≤ line.toUTF8.size)
    (h : front.toUTF8 ++ line.toUTF8.extract 0 k ++ back.toUTF8 = text.toUTF8) :
    ∃ p q : String, line = p ++ q ∧ p.toUTF8 = line.toUTF8.extract 0 k ∧
      text = front ++ p ++ back := by
  rw [ByteArray.append_assoc] at h
  obtain ⟨rest, hrest, rfl⟩ := exists_text_of_append h
  simp only [String.toUTF8_eq_toByteArray] at hrest hk ⊢
  have hsize : (line.toByteArray.extract 0 k).size = k := by
    rw [ByteArray.size_extract]
    omega
  have hrestSize := congrArg ByteArray.size hrest
  rw [ByteArray.size_append, hsize, String.size_toByteArray, String.size_toByteArray] at hrestSize
  have hle : (⟨k⟩ : String.Pos.Raw) ≤ rest.rawEndPos := by
    change k ≤ rest.utf8ByteSize
    omega
  have hrestValid : String.Pos.Raw.IsValid rest ⟨k⟩ := by
    rw [String.Pos.Raw.isValid_iff_isValidUTF8_extract_utf8ByteSize, ← hrest,
      ByteArray.extract_append_eq_right hsize.symm
        (by rw [← hrestSize, hsize, String.size_toByteArray])]
    exact ⟨hle, back.isValidUTF8⟩
  have hlineValid : String.Pos.Raw.IsValid line ⟨k⟩ := by
    rw [String.Pos.Raw.isValid_iff_isValidUTF8_extract_zero]
    refine ⟨hk, ?_⟩
    have hfront := hrestValid.isValidUTF8_extract_zero
    rwa [← hrest, ByteArray.extract_append_eq_left hsize.symm] at hfront
  obtain ⟨p, q, hp, rfl⟩ := hlineValid.exists
  have hbytes : (String.ofList p).toByteArray
      = (String.ofList (p ++ q)).toByteArray.extract 0 k := by
    rw [← hp, ← String.utf8Encode_toList, String.toList_ofList]
  refine ⟨String.ofList p, String.ofList q, String.ofList_append, hbytes, ?_⟩
  rw [String.append_assoc]
  congr 1
  rw [← String.toByteArray_inj, String.toByteArray_append, ← hrest, hbytes]

end Pipewright

/-!
## Cutting texts at bytes

Where a place in a text is a number of bytes, the text can be cut there only
between two characters. `front?` and `back?` give the parts before and behind
such a place, and nothing where there is no place; where a text has been put
together, they take it apart again.
-/

namespace Pipewright.Text

/-- The text of the first bytes, so many of them; nothing if there are fewer, or if a character
would be cut. -/
def front? (text : String) (count : ℕ) : Option String :=
  if h : (String.Pos.Raw.mk count).IsValid text then some (text.sliceTo ⟨⟨count⟩, h⟩).copy
  else none

/-- The text of the bytes behind the first ones, so many of them. -/
def back? (text : String) (count : ℕ) : Option String :=
  if h : (String.Pos.Raw.mk count).IsValid text then some (text.sliceFrom ⟨⟨count⟩, h⟩).copy
  else none

theorem isValid_append (p q : String) : (String.Pos.Raw.mk p.utf8ByteSize).IsValid (p ++ q) :=
  String.Pos.Raw.isValid_iff_exists_append.mpr ⟨p, q, rfl, rfl⟩

/-- A text that has been put together is cut into its parts. -/
theorem cut_append (p q : String) :
    front? (p ++ q) p.utf8ByteSize = some p ∧ back? (p ++ q) p.utf8ByteSize = some q := by
  have hvalid := isValid_append p q
  let place : (p ++ q).Pos := ⟨⟨p.utf8ByteSize⟩, hvalid⟩
  have hparts : place.Splits p q := ⟨rfl, rfl⟩
  obtain ⟨hfront, hback⟩ := place.splits.eq hparts
  exact ⟨(dif_pos hvalid).trans (congrArg some hfront),
    (dif_pos hvalid).trans (congrArg some hback)⟩

end Pipewright.Text
