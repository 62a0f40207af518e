/-!
# Texts

Characters and the classes that the readers ask for, digits and numerals, and texts as bytes.
-/

/-!
## White space

The characters with the Unicode property `White_Space`, and the trimming that
goes by it. The notation of a graph file has a smaller class of its own (the
four characters that may stand between its tokens), kept beside that notation;
the wide class decides what a *blank* text is, wherever a person may have
typed one.
-/

namespace Pipewright.Text

/-- The ranges of the property `White_Space`, ascending, ends included. -/
def blankRanges : List (Nat × Nat) :=
  [(0x9, 0xD), (0x20, 0x20), (0x85, 0x85), (0xA0, 0xA0), (0x1680, 0x1680),
   (0x2000, 0x200A), (0x2028, 0x2029), (0x202F, 0x202F), (0x205F, 0x205F),
   (0x3000, 0x3000)]

def isBlank (c : Char) : Bool :=
  blankRanges.any fun (lo, hi) => lo ≤ c.toNat && c.toNat ≤ hi

/-- The text without the white space at its two ends. -/
def trim (cs : List Char) : List Char :=
  ((cs.dropWhile isBlank).reverse.dropWhile isBlank).reverse

def allBlank (cs : List Char) : Bool :=
  cs.all isBlank

def isBlankText (s : String) : Bool :=
  allBlank s.toList

/-!
## Decimal digits

The characters with the Unicode general category `Nd`. They come in runs of ten,
a run for each script that has digits of its own, from its zero to its nine. The
notations of this library write and read the ASCII digits only; the wide class
decides which file names look like dates.
-/

/-- The zeros of the category `Nd`, ascending; the nine digits after each belong to it. -/
def zeros : List Nat :=
  [0x30, 0x660, 0x6F0, 0x7C0, 0x966, 0x9E6, 0xA66, 0xAE6, 0xB66, 0xBE6, 0xC66, 0xCE6, 0xD66,
   0xDE6, 0xE50, 0xED0, 0xF20, 0x1040, 0x1090, 0x17E0, 0x1810, 0x1946, 0x19D0, 0x1A80, 0x1A90,
   0x1B50, 0x1BB0, 0x1C40, 0x1C50, 0xA620, 0xA8D0, 0xA900, 0xA9D0, 0xA9F0, 0xAA50, 0xABF0,
   0xFF10, 0x104A0, 0x10D30, 0x10D40, 0x11066, 0x110F0, 0x11136, 0x111D0, 0x112F0, 0x11450,
   0x114D0, 0x11650, 0x116C0, 0x116D0, 0x116DA, 0x11730, 0x118E0, 0x11950, 0x11BF0, 0x11C50,
   0x11D50, 0x11DA0, 0x11F50, 0x16130, 0x16A60, 0x16AC0, 0x16B50, 0x16D70, 0x1CCF0, 0x1D7CE,
   0x1D7D8, 0x1D7E2, 0x1D7EC, 0x1D7F6, 0x1E140, 0x1E2F0, 0x1E4F0, 0x1E5F1, 0x1E950, 0x1FBF0]

/-- The character is a decimal digit of some script. -/
def isDecimalDigit (c : Char) : Bool :=
  zeros.any fun z => z ≤ c.toNat && c.toNat ≤ z + 9

theorem isDecimalDigit_of_isDigit {c : Char} (h : c.isDigit) : isDecimalDigit c := by
  simp only [Char.isDigit, Bool.and_eq_true, decide_eq_true_eq] at h
  have h1 : 48 ≤ c.toNat := h.1
  have h2 : c.toNat ≤ 57 := h.2
  simp only [isDecimalDigit, zeros, List.any_cons, Bool.or_eq_true, Bool.and_eq_true,
    decide_eq_true_eq]
  exact .inl ⟨h1, h2⟩

end Pipewright.Text

/-!
## Hexadecimal digits

Digits are written in lower case and read in either.
-/

namespace Pipewright.Hex

def digit (n : Nat) : Char :=
  if n < 10 then Char.ofNat ('0'.toNat + n) else Char.ofNat ('a'.toNat + (n - 10))

def value? (c : Char) : Option Nat :=
  if '0' ≤ c ∧ c ≤ '9' then some (c.toNat - '0'.toNat)
  else if 'a' ≤ c ∧ c ≤ 'f' then some (c.toNat - 'a'.toNat + 10)
  else if 'A' ≤ c ∧ c ≤ 'F' then some (c.toNat - 'A'.toNat + 10)
  else none

def value4? (a b c d : Char) : Option Nat := do
  return 4096 * (← value? a) + 256 * (← value? b) + 16 * (← value? c) + (← value? d)

/-- The last digits of a number, so many of them. -/
def lastDigits : Nat → Nat → List Char
  | 0, _ => []
  | count + 1, n => lastDigits count (n / 16) ++ [digit (n % 16)]

def byte (b : UInt8) : List Char :=
  [digit (b.toNat / 16), digit (b.toNat % 16)]

def text (bytes : List UInt8) : String :=
  String.ofList (bytes.flatMap byte)

def bytes? : List Char → Option (List UInt8)
  | [] => some []
  | [_] => none
  | a :: b :: rest => do
    return UInt8.ofNat (16 * (← value? a) + (← value? b)) :: (← bytes? rest)

end Pipewright.Hex

/-!
## Decimal numerals

Whole numbers as texts: `Numeral.digits` writes, `Numeral.nat?` and
`Numeral.int?` read. Reading is lenient in one point, a leading `+`, and strict
in all others: no blanks, no separators, at least one digit. A bound on the
value belongs to the reader of a particular width (`int64?`, `uint64?`), which
refuses a numeral outside its range.
-/

namespace Pipewright.Numeral

/-- The decimal digits of a number, most significant first, `0` for zero. -/
def digits (n : Nat) : List Char :=
  Nat.toDigits 10 n

def text (n : Nat) : String :=
  String.ofList (digits n)

/-- A signed number as decimal text: a minus sign, never a plus. -/
def intText (i : Int) : String :=
  if i < 0 then "-" ++ text i.natAbs else text i.natAbs

/-- A number as decimal text, filled with zeros on the left up to `width`. -/
def padded (width n : Nat) : String :=
  let ds := digits n
  String.ofList (List.replicate (width - ds.length) '0' ++ ds)

/-- The value of a list of decimal digits, read on from `acc`. -/
def value (acc : Nat) (cs : List Char) : Nat :=
  cs.foldl (fun n c => 10 * n + (c.toNat - '0'.toNat)) acc

def digits? (cs : List Char) : Option Nat :=
  if cs.isEmpty || !cs.all Char.isDigit then none else some (value 0 cs)

/-- A number from its numeral; a plus sign may stand in front. -/
def nat? : List Char → Option Nat
  | '+' :: cs => digits? cs
  | cs => digits? cs

def int? : List Char → Option Int
  | '-' :: cs => (digits? cs).map fun n => -(n : Int)
  | cs => (nat? cs).map fun n => (n : Int)

def int64? (cs : List Char) : Option Int64 :=
  (int? cs).bind fun i =>
    if Int64.minValue.toInt ≤ i ∧ i ≤ Int64.maxValue.toInt then some (Int64.ofInt i) else none

def uint64? (cs : List Char) : Option UInt64 :=
  (nat? cs).bind fun n => if n < UInt64.size then some (UInt64.ofNat n) else none

end Pipewright.Numeral

/-!
## Bytes as characters

A file may hold bytes that are no text. `Utf8.decode` reads the characters of
such a file all the same, and marks every byte that belongs to none.
-/

namespace Pipewright.Utf8

/-- The character that the first bytes are, so many of them. -/
def charOf? (count : Nat) (bytes : List UInt8) : Option Char :=
  match (String.fromUTF8? ⟨(bytes.take count).toArray⟩).map String.toList with
  | some [c] => some c
  | _ => none

/-- The character that bytes begin with, and how many of them it is. No character is
more than four bytes, and none is the beginning of another. -/
def first? (bytes : List UInt8) : Option (Char × Nat) :=
  [1, 2, 3, 4].findSome? fun count => (charOf? count bytes).map (·, count)

/-- The characters, after so many bytes that are read already; a byte that belongs to
none is `none`. -/
def decodeFrom : Nat → List UInt8 → List (Option Char)
  | _, [] => []
  | skip + 1, _ :: rest => decodeFrom skip rest
  | 0, byte :: rest =>
    match first? (byte :: rest) with
    | some (c, count) => some c :: decodeFrom (count - 1) rest
    | none => none :: decodeFrom 0 rest

/-- The characters; a byte that belongs to none is `none`. -/
def decode (bytes : List UInt8) : List (Option Char) := decodeFrom 0 bytes

end Pipewright.Utf8

/-!
## Unique identifiers

A number of 128 bits that nobody else has drawn. It is written as thirty-two
hexadecimal digits in five groups; where a short mark is enough, the first eight
of them stand for it.
-/

namespace Pipewright

/-- A number of 128 bits, in two words. -/
structure Uuid where
  high : UInt64
  low : UInt64
  deriving DecidableEq, Repr, Inhabited

namespace Uuid

def digits (u : Uuid) : List Char :=
  Hex.lastDigits 16 u.high.toNat ++ Hex.lastDigits 16 u.low.toNat

def text (u : Uuid) : String :=
  let ds := u.digits
  let group (start count : Nat) : List Char := (ds.drop start).take count
  String.ofList (group 0 8 ++ '-' :: group 8 4 ++ '-' :: group 12 4 ++ '-' :: group 16 4
    ++ '-' :: group 20 12)

def short (u : Uuid) : String := String.ofList (u.digits.take 8)

end Uuid

end Pipewright
