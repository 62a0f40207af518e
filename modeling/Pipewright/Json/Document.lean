import Pipewright.Decimal
import Pipewright.Text

/-!
# JSON

Values of JSON, the texts that are read as such, and the values of unknown shape that other
programs put in.
-/

/-!
## JSON values

`Json` is the value a program works with: numbers are whole or of double
precision, texts are texts, and the fields of an object stand in the order in
which they will be written. The files of a pipeline's state, the answers of the
command line and the payloads of signals all have this form.

Reading is done in two steps, because a file says more than a value does.
`Json.Document` (in `Json.Document`) is the text as it was written, with
numerals unread and repeated fields still there; what a particular reader makes
of it, a free value or a record, is decided afterwards.
-/

namespace Pipewright

inductive Json where
  | null
  | boolean (b : Bool)
  | integer (i : Int)
  | real (x : Binary64)
  | text (s : String)
  | list (items : List Json)
  | object (fields : List (String × Json))
  deriving Inhabited

namespace Json

def get? (k : String) : Json → Option Json
  | object fields => fields.lookup k
  | _ => none

def ofText? : Option String → Json
  | some s => text s
  | none => null

def nat (n : Nat) : Json := integer n

/-- A number of 32 bits without sign, or nothing. -/
def ofUInt32? : Option UInt32 → Json
  | some n => nat n.toNat
  | none => null

def texts (l : List String) : Json := list (l.map text)

end Json

end Pipewright

/-!
## JSON texts

A `Document` is a JSON text taken apart and not yet interpreted. It differs
from a value in three ways: a numeral keeps its digits, an object keeps repeated
fields, and a text may hold an escape that stands for no character (a half of
a pair of units without the other half), in which case it is `none`. Readers
that skip a field never look at these, so a fault there does no harm.

`Document.parse` accepts exactly the JSON texts.
-/

namespace Pipewright.Json

/-- A numeral as it was written: `-` whole `.` fraction `e` power. -/
structure Numeral where
  negative : Bool
  whole : List Char
  fraction : Option (List Char)
  power : Option (Bool × List Char)

inductive Document where
  | null
  | boolean (b : Bool)
  | number (n : Numeral)
  | text (s : Option String)
  | list (items : List Document)
  | object (fields : List (Option String × Document))

namespace Document

def isSpace (c : Char) : Bool :=
  c == ' ' || c == '\n' || c == '\t' || c == '\r'

def skipSpace (s : List Char) : List Char :=
  s.dropWhile isSpace

/-! ### Texts -/

/-- A unit of a text between quotes: a character, or half of an escaped pair. -/
inductive TextUnit where
  | char (c : Char)
  | half (n : Nat)

/-- The unit with a number below `2 ^ 16`. -/
def unitOf (n : Nat) : TextUnit :=
  if 0xD800 ≤ n ∧ n ≤ 0xDFFF then .half n else .char (Char.ofNat n)

def shortEscape? (c : Char) : Option Char :=
  if c = '"' then some '"'
  else if c = '\\' then some '\\'
  else if c = '/' then some '/'
  else if c = 'b' then some '\x08'
  else if c = 'f' then some '\x0c'
  else if c = 'n' then some '\n'
  else if c = 'r' then some '\r'
  else if c = 't' then some '\t'
  else none

/-- The units up to the closing quote, and what is left after it. -/
def units : List Char → Option (List TextUnit × List Char)
  | [] => none
  | '"' :: rest => some ([], rest)
  | '\\' :: 'u' :: a :: b :: c :: d :: rest =>
    match Hex.value4? a b c d, units rest with
    | some n, some (us, left) => some (unitOf n :: us, left)
    | _, _ => none
  | '\\' :: c :: rest =>
    match shortEscape? c, units rest with
    | some e, some (us, left) => some (.char e :: us, left)
    | _, _ => none
  | c :: rest =>
    if c.toNat < 0x20 ∨ c = '\\' then none
    else
      match units rest with
      | some (us, left) => some (.char c :: us, left)
      | none => none

/-- The characters that the units stand for; none if a half is left alone. -/
def joinUnits : List TextUnit → Option (List Char)
  | [] => some []
  | .char c :: rest => (joinUnits rest).map (c :: ·)
  | .half hi :: .half lo :: rest =>
    if hi < 0xDC00 ∧ 0xDC00 ≤ lo then
      (joinUnits rest).map (Char.ofNat (0x10000 + (hi - 0xD800) * 0x400 + (lo - 0xDC00)) :: ·)
    else none
  | .half _ :: _ => none

def readText (s : List Char) : Option (Option String × List Char) :=
  (units s).map fun (us, left) => ((joinUnits us).map String.ofList, left)

/-! ### Numbers -/

def digitRun (s : List Char) : List Char × List Char :=
  (s.takeWhile Char.isDigit, s.dropWhile Char.isDigit)

def readFraction : List Char → Option (Option (List Char) × List Char)
  | '.' :: s =>
    match digitRun s with
    | ([], _) => none
    | (ds, left) => some (some ds, left)
  | s => some (none, s)

def readPowerDigits (negative : Bool) (s : List Char) :
    Option (Option (Bool × List Char) × List Char) :=
  match digitRun s with
  | ([], _) => none
  | (ds, left) => some (some (negative, ds), left)

def readPower : List Char → Option (Option (Bool × List Char) × List Char)
  | c :: s =>
    if c = 'e' ∨ c = 'E' then
      match s with
      | '+' :: s => readPowerDigits false s
      | '-' :: s => readPowerDigits true s
      | s => readPowerDigits false s
    else some (none, c :: s)
  | [] => some (none, [])

/-- A number without its sign. The whole part has no leading zero. -/
def readUnsigned (negative : Bool) (s : List Char) : Option (Document × List Char) := do
  let (whole, s) := digitRun s
  if whole.isEmpty || (whole.head? == some '0' && whole.length != 1) then none
  else
    let (fraction, s) ← readFraction s
    let (power, s) ← readPower s
    return (.number ⟨negative, whole, fraction, power⟩, s)

def readNumber : List Char → Option (Document × List Char)
  | '-' :: s => readUnsigned true s
  | s => readUnsigned false s

/-! ### Values -/

def dropWord? : List Char → List Char → Option (List Char)
  | [], s => some s
  | _ :: _, [] => none
  | w :: ws, c :: s => if w = c then dropWord? ws s else none

/-- The items of a list that is not empty, and its closing bracket. -/
def readItems (value : List Char → Option (Document × List Char)) :
    Nat → List Char → Option (List Document × List Char)
  | 0, _ => none
  | most + 1, s => do
    let (v, s) ← value s
    match skipSpace s with
    | ',' :: s =>
      let (rest, s) ← readItems value most s
      return (v :: rest, s)
    | ']' :: s => return ([v], s)
    | _ => none

/-- The fields of an object that is not empty, and its closing brace. -/
def readFields (value : List Char → Option (Document × List Char)) :
    Nat → List Char → Option (List (Option String × Document) × List Char)
  | 0, _ => none
  | most + 1, s =>
    match skipSpace s with
    | '"' :: s => do
      let (k, s) ← readText s
      match skipSpace s with
      | ':' :: s =>
        let (v, s) ← value s
        match skipSpace s with
        | ',' :: s =>
          let (rest, s) ← readFields value most s
          return ((k, v) :: rest, s)
        | '\x7d' :: s => return ([(k, v)], s)
        | _ => none
      | _ => none
    | _ => none

/-- A value and what is left after it. `most` bounds the depth and the number of
items; a text has always more characters than it needs. -/
def readValue : Nat → List Char → Option (Document × List Char)
  | 0, _ => none
  | most + 1, s =>
    match skipSpace s with
    | [] => none
    | '"' :: s => (readText s).map fun (t, s) => (.text t, s)
    | '[' :: s =>
      match skipSpace s with
      | ']' :: s => some (.list [], s)
      | s => (readItems (readValue most) (most + 1) s).map fun (items, s) => (.list items, s)
    | '\x7b' :: s =>
      match skipSpace s with
      | '\x7d' :: s => some (.object [], s)
      | s => (readFields (readValue most) (most + 1) s).map fun (fields, s) => (.object fields, s)
    | 'n' :: s => (dropWord? "ull".toList s).map fun s => (.null, s)
    | 't' :: s => (dropWord? "rue".toList s).map fun s => (.boolean true, s)
    | 'f' :: s => (dropWord? "alse".toList s).map fun s => (.boolean false, s)
    | s => readNumber s

/-- A whole text: one value with nothing but blanks around it. -/
def parseChars (s : List Char) : Option Document := do
  let (d, left) ← readValue (s.length + 1) s
  if (skipSpace left).isEmpty then some d else none

/-- A whole text: one value with nothing but blanks around it. -/
def parse (s : String) : Option Document :=
  parseChars s.toList

end Document

end Pipewright.Json

/-!
## Free values

What a JSON text means where nothing is known about its form, as the payload
of a signal. Fields of objects are put in ascending order, of a repeated field
the last one counts, and a numeral becomes a whole number if it is written as
one and fits in 64 bits, with or without sign, and otherwise one of double
precision.

Nesting is limited: a value may be nested 127 deep, counting what encloses it.

Numbers of double precision are not read by exact rounding. The first digits,
as many as fit in 64 bits without sign, make a whole number; it is rounded, and
then multiplied or divided by the rounded power of ten. `Numeral.real?` says
this step by step, so that what a file holds after being read and written again
is known to the last digit.
-/

namespace Pipewright

attribute [local instance (high)] instPowNat

namespace Magnitude

def times (x y : Magnitude) : Option Magnitude :=
  roundRatio (x.num * y.num) (x.den * y.den)

def dividedBy (x y : Magnitude) : Option Magnitude :=
  roundRatio (x.num * y.den) (x.den * y.num)

/-- The rounded power of ten, up to the largest one there is. -/
def tenTo (k : Nat) : Magnitude :=
  (roundRatio (10 ^ k) 1).getD .zero

end Magnitude

namespace Json

namespace Numeral

/-- A whole number from the first digits, as many as keep it below `2 ^ 64`, and
the number of digits that were left over. -/
def leading (acc : Nat) : List Char → Nat × List Char
  | [] => (acc, [])
  | c :: cs =>
    let next := 10 * acc + (c.toNat - '0'.toNat)
    if next < 2 ^ (64 : Nat) then leading next cs else (acc, c :: cs)

/-- The magnitude divided by `10 ^ k`, a factor `10 ^ 308` at a time; it reaches
zero before the fuel is used up. -/
def divideByTen : Nat → Magnitude → Nat → Option Magnitude
  | 0, _, _ => some .zero
  | fuel + 1, x, k =>
    if x.mantissa = 0 then some .zero
    else if k ≤ 308 then x.dividedBy (.tenTo k)
    else do divideByTen fuel (← x.dividedBy (.tenTo 308)) (k - 308)

/-- `digits * 10 ^ power` by one rounding of the digits and one or more of the
power; none beyond the largest number. -/
def assemble (digits : Nat) (power : Int) : Option Magnitude := do
  let x ← roundRatio digits 1
  if x.mantissa = 0 then some .zero
  else if power < 0 then divideByTen 6 x (-power).toNat
  else if power ≤ 308 then x.times (.tenTo power.toNat)
  else none

/-- The power of ten as written; beyond 32 bits only its sign matters. -/
def powerValue (n : Numeral) : Int :=
  match n.power with
  | none => 0
  | some (negative, ds) =>
    let p := (Pipewright.Numeral.value 0 ds : Int)
    if negative then -p else p

/-- The numeral as a number of double precision; none if it is out of range. -/
def real? (n : Numeral) : Option Binary64 := do
  let (whole, unread) := leading 0 n.whole
  let (digits, unreadFraction) := leading whole (n.fraction.getD [])
  let read := (n.fraction.getD []).length - unreadFraction.length
  let power := (unread.length : Int) - read + n.powerValue
  let x ← assemble digits power
  return .finite n.negative x

/-- The numeral as a whole number, if it is written as one and fits in 64 bits. A
negative zero is no whole number. -/
def whole? (n : Numeral) : Option Int :=
  if n.fraction.isSome || n.power.isSome then none
  else
    let v := Pipewright.Numeral.value 0 n.whole
    if n.negative then if 0 < v ∧ v ≤ 2 ^ (63 : Nat) then some (-(v : Int)) else none
    else if v < 2 ^ (64 : Nat) then some v else none

def value? (n : Numeral) : Option Json :=
  match n.whole? with
  | some i => some (.integer i)
  | none => n.real?.map .real

end Numeral

/-- The fields with `k` set to `v`, in ascending order. -/
def setField (k : String) (v : Json) : List (String × Json) → List (String × Json)
  | [] => [(k, v)]
  | (k', v') :: rest =>
    if k < k' then (k, v) :: (k', v') :: rest
    else if k = k' then (k, v) :: rest
    else (k', v') :: setField k v rest

mutual

/-- The value of a document; `depth` is how deep it may still be nested, plus one. -/
def ofDocument? (depth : Nat) : Document → Option Json
  | .null => some .null
  | .boolean b => some (.boolean b)
  | .number n => n.value?
  | .text s => s.map .text
  | .list items => if depth ≤ 1 then none else (ofItems? (depth - 1) items).map .list
  | .object fields =>
    if depth ≤ 1 then none else (ofFields? (depth - 1) [] fields).map .object

def ofItems? (depth : Nat) : List Document → Option (List Json)
  | [] => some []
  | d :: rest => do
    let v ← ofDocument? depth d
    return v :: (← ofItems? depth rest)

/-- The fields, added one by one to those in `seen`. -/
def ofFields? (depth : Nat) (seen : List (String × Json)) :
    List (Option String × Document) → Option (List (String × Json))
  | [] => some seen
  | (k, d) :: rest => do
    let k ← k
    let v ← ofDocument? depth d
    ofFields? depth (setField k v seen) rest

end

/-- How deep a text may be nested, plus one. -/
def depthLimit : Nat := 128

def parse (s : String) : Option Json :=
  (Document.parse s).bind (ofDocument? depthLimit)

end Json

end Pipewright

/-!
## Bytes as JSON texts

A file with bytes that belong to no character can still be a JSON text, if they
stand between quotes. Such a byte is like half of a pair of units that is left
alone: whoever skips the text that it stands in takes no notice, and whoever
reads that text refuses it. `Document.ofBytes?` says so by putting an escape
for a half in the place of each such byte.
-/

namespace Pipewright.Json.Document

/-- Where a character of a JSON text stands. -/
inductive Spot where
  | outside
  | betweenQuotes
  | afterBackslash
  deriving DecidableEq, Repr

def Spot.next : Spot → Char → Spot
  | .outside, c => if c = '"' then .betweenQuotes else .outside
  | .betweenQuotes, c =>
    if c = '"' then .outside else if c = '\\' then .afterBackslash else .betweenQuotes
  | .afterBackslash, _ => .betweenQuotes

/-- What is written for a stray byte: between quotes a half and something after it that
is not the other half, elsewhere a character that no JSON text has. -/
def strayByte : Spot → List Char
  | .betweenQuotes => "\\ud800 ".toList
  | _ => ['\x00']

/-- The characters with something else in the place of each stray byte. -/
def mend (spot : Spot) : List (Option Char) → List Char
  | [] => []
  | some c :: rest => c :: mend (spot.next c) rest
  | none :: rest => strayByte spot ++ mend spot rest

/-- The bytes of a file: one value with nothing but blanks around it. -/
def ofBytes? (bytes : ByteArray) : Option Document :=
  match String.fromUTF8? bytes with
  | some chars => parse chars
  | none => parseChars (mend .outside (Utf8.decode bytes.toList))

end Pipewright.Json.Document
