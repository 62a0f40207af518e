import Pipewright.Json.Document
import Pipewright.Proofs.Text

/-!
# Numerals read back

A numeral that is put together from digits, with or without a fraction and a power of ten, is
read as the one it was put together from (`readNumber_chars`), up to the first character that no
numeral has.
-/

namespace Pipewright.Json

open Document

def isNumeral (c : Char) : Bool := c.isDigit || c == '.' || c == 'e' || c == 'E'

/-- The text is made of digits, and there are some. -/
structure AreDigits (ds : List Char) : Prop where
  ne_nil : ds ≠ []
  digits : ∀ c ∈ ds, c.isDigit

theorem areDigits_digits (n : Nat) : AreDigits (Pipewright.Numeral.digits n) :=
  ⟨Pipewright.Numeral.digits_ne_nil n, fun _ => Pipewright.Numeral.isDigit_of_mem_digits⟩

namespace Numeral

def fractionChars : Option (List Char) → List Char
  | none => []
  | some ds => '.' :: ds

/-- The text of a power of ten; its sign is always written. -/
def powerChars : Option (Bool × List Char) → List Char
  | none => []
  | some (negative, ds) => 'e' :: (if negative then '-' else '+') :: ds

/-- The text of a numeral, but for the minus sign. -/
def chars (n : Numeral) : List Char := n.whole ++ (fractionChars n.fraction ++ powerChars n.power)

/-- The parts of the numeral are digits, and no zero stands in front of others. -/
structure IsWritten (n : Numeral) : Prop where
  whole : AreDigits n.whole
  first : n.whole.head? = some '0' → n.whole.length = 1
  fraction : ∀ ds ∈ n.fraction, AreDigits ds
  power : ∀ p ∈ n.power, AreDigits p.2

end Numeral

section

variable {n : Numeral} {ds rest : List Char}

theorem digitRun_append (hds : ∀ c ∈ ds, c.isDigit) (hrest : Stops Char.isDigit rest) :
    digitRun (ds ++ rest) = (ds, rest) := by
  rw [digitRun, takeWhile_append hds hrest, dropWhile_append hds hrest]

theorem isDigit_of_stops (h : Stops isNumeral rest) : Stops Char.isDigit rest :=
  h.mono fun c hc => by
    simp only [isNumeral, Bool.or_eq_false_iff] at hc
    exact hc.1.1.1

theorem readPowerDigits_append (negative : Bool) (hds : AreDigits ds)
    (hrest : Stops isNumeral rest) :
    readPowerDigits negative (ds ++ rest) = some (some (negative, ds), rest) := by
  rw [readPowerDigits, digitRun_append hds.digits (isDigit_of_stops hrest)]
  obtain ⟨d, ds', rfl⟩ := List.exists_cons_of_ne_nil hds.ne_nil
  rfl

theorem readPower_chars {p : Option (Bool × List Char)} (hp : ∀ q ∈ p, AreDigits q.2)
    (hrest : Stops isNumeral rest) : readPower (Numeral.powerChars p ++ rest) = some (p, rest) := by
  cases p with
  | none =>
    cases rest with
    | nil => rfl
    | cons c rest =>
      simp only [Stops, isNumeral, Bool.or_eq_false_iff, beq_eq_false_iff_ne] at hrest
      simp [Numeral.powerChars, readPower, hrest.1.2, hrest.2]
  | some q =>
    obtain ⟨negative, ds⟩ := q
    have hread := readPowerDigits_append negative (hp _ rfl) hrest
    cases negative <;> exact hread

theorem stops_powerChars {p : Option (Bool × List Char)} (hrest : Stops isNumeral rest) :
    Stops (fun c => c.isDigit || c == '.') (Numeral.powerChars p ++ rest) := by
  cases p with
  | none =>
    refine hrest.mono fun c hc => ?_
    simp only [isNumeral, Bool.or_eq_false_iff] at hc ⊢
    exact hc.1.1
  | some q => rfl

theorem readFraction_chars {f : Option (List Char)} (hf : ∀ ds ∈ f, AreDigits ds)
    (hrest : Stops (fun c => c.isDigit || c == '.') rest) :
    readFraction (Numeral.fractionChars f ++ rest) = some (f, rest) := by
  cases f with
  | none =>
    change readFraction rest = _
    unfold readFraction
    split
    · cases hrest
    · rfl
  | some ds =>
    have hstops : Stops Char.isDigit rest := hrest.mono fun c hc => (Bool.or_eq_false_iff.mp hc).1
    change readFraction ('.' :: (ds ++ rest)) = _
    rw [readFraction, digitRun_append (hf ds rfl).digits hstops]
    obtain ⟨d, ds', rfl⟩ := List.exists_cons_of_ne_nil (hf ds rfl).ne_nil
    rfl

theorem readUnsigned_chars (h : n.IsWritten) (hrest : Stops isNumeral rest) :
    readUnsigned n.negative (n.chars ++ rest) = some (.number n, rest) := by
  have hpower := readPower_chars h.power hrest
  have hbehind := stops_powerChars (p := n.power) hrest
  have hfraction := readFraction_chars h.fraction hbehind
  have hstops : Stops Char.isDigit
      (Numeral.fractionChars n.fraction ++ (Numeral.powerChars n.power ++ rest)) := by
    cases n.fraction with
    | none => exact hbehind.mono fun c hc => (Bool.or_eq_false_iff.mp hc).1
    | some ds => rfl
  have hzero : (n.whole.head? == some '0' && n.whole.length != 1) = false := by
    by_cases hhead : n.whole.head? = some '0'
    · simp [h.first hhead]
    · simp [hhead]
  rw [Numeral.chars, List.append_assoc, List.append_assoc, readUnsigned,
    digitRun_append h.whole.digits hstops]
  simp [h.whole.ne_nil, hzero, hfraction, hpower]

theorem ne_of_isDigit {c d : Char} (hc : c.isDigit) (hd : d.isDigit = false) : c ≠ d := by
  rintro rfl
  rw [hd] at hc
  cases hc

theorem readNumber_chars (h : n.IsWritten) (hrest : Stops isNumeral rest) :
    readNumber ((if n.negative then ['-'] else []) ++ n.chars ++ rest)
      = some (.number n, rest) := by
  have hread := readUnsigned_chars h hrest
  cases hnegative : n.negative with
  | true =>
    rw [hnegative] at hread
    exact hread
  | false =>
    rw [hnegative] at hread
    obtain ⟨d, ds, hds⟩ := List.exists_cons_of_ne_nil h.whole.ne_nil
    have hminus : d ≠ '-' := ne_of_isDigit (h.whole.digits d (by simp [hds])) rfl
    have hfirst : ∃ more, n.chars ++ rest = d :: more := ⟨_, by rw [Numeral.chars, hds]; rfl⟩
    obtain ⟨more, hmore⟩ := hfirst
    change readNumber (n.chars ++ rest) = _
    rw [hmore] at hread ⊢
    unfold readNumber
    split
    · next heq => exact absurd (List.cons.inj heq).1 hminus
    · exact hread

end

end Pipewright.Json
