import Pipewright.Text

/-!
# Time

Days of the calendar, instants and the spans between them, and the stamps that instants are
written as and read from.
-/

/-!
## The calendar

Days counted from the first of January 1970, and the dates of the Gregorian
calendar extended in both directions. A year is taken to begin in March, so
that the leap day is its last one; four hundred such years have 146097 days,
and inside them every count is exact.
-/

namespace Pipewright

/-- A date; `month` from 1 to 12 and `day` from 1. -/
structure Date where
  year : Int
  month : Nat
  day : Nat
  deriving DecidableEq, Repr

namespace Date

def isLeap (year : Int) : Bool :=
  year % 4 == 0 && (year % 100 != 0 || year % 400 == 0)

/-- The number of days of a month; none for a number that is no month. -/
def daysInMonth (year : Int) (month : Nat) : Nat :=
  match month with
  | 1 | 3 | 5 | 7 | 8 | 10 | 12 => 31
  | 4 | 6 | 9 | 11 => 30
  | 2 => if isLeap year then 29 else 28
  | _ => 0

def isValid (d : Date) : Bool :=
  1 ≤ d.day && d.day ≤ daysInMonth d.year d.month

def toDays (d : Date) : Int :=
  let y : Int := if d.month ≤ 2 then d.year - 1 else d.year
  let era := Int.fdiv y 400
  let yearOfEra := y - era * 400
  let m : Int := if d.month ≤ 2 then d.month + 9 else d.month - 3
  let dayOfYear := Int.fdiv (153 * m + 2) 5 + d.day - 1
  let dayOfEra := yearOfEra * 365 + Int.fdiv yearOfEra 4 - Int.fdiv yearOfEra 100 + dayOfYear
  era * 146097 + dayOfEra - 719468

def ofDays (days : Int) : Date :=
  let z := days + 719468
  let era := Int.fdiv z 146097
  let dayOfEra := z - era * 146097
  let yearOfEra := Int.fdiv
    (dayOfEra - Int.fdiv dayOfEra 1460 + Int.fdiv dayOfEra 36524 - Int.fdiv dayOfEra 146096) 365
  let dayOfYear :=
    dayOfEra - (365 * yearOfEra + Int.fdiv yearOfEra 4 - Int.fdiv yearOfEra 100)
  let m := Int.fdiv (5 * dayOfYear + 2) 153
  let day := dayOfYear - Int.fdiv (153 * m + 2) 5 + 1
  let month := if m < 10 then m + 3 else m - 9
  let year := yearOfEra + era * 400
  ⟨if month ≤ 2 then year + 1 else year, month.toNat, day.toNat⟩

end Date

/-!
## Instants

A point in time, as the whole seconds since 1970 and nanoseconds on top of
them. A leap second is written as the sixtieth second of its minute and kept as
the fifty-ninth with a thousand million nanoseconds more, so it comes after
every other instant of that second and before the next one.

Instants are written in two forms. Records are stamped with `Instant.stamp`,
always six digits of a fraction and a `Z`; in messages and on signals stands
`Instant.text`, with as many digits as are needed in groups of three and the
offset spelled out.
-/

structure Instant where
  seconds : Int
  nanos : Nat
  deriving DecidableEq, Repr, Inhabited

namespace Instant

def before (a b : Instant) : Bool :=
  a.seconds < b.seconds || (a.seconds == b.seconds && a.nanos < b.nanos)

def plusSeconds (a : Instant) (s : Int) : Instant := { a with seconds := a.seconds + s }

def date (a : Instant) : Date := .ofDays (Int.fdiv a.seconds 86400)

def secondOfDay (a : Instant) : Nat := (Int.fmod a.seconds 86400).toNat

/-- The year in four digits; one that needs more, or a negative one, with its sign. -/
def yearText (year : Int) : String :=
  if 0 ≤ year ∧ year ≤ 9999 then Numeral.padded 4 year.toNat
  else (if year < 0 then "-" else "+") ++ Numeral.padded 4 year.natAbs

/-- Date and time of day with a `T` between them, without a fraction. -/
def baseText (a : Instant) : String :=
  let d := a.date
  let s := a.secondOfDay
  let second := s % 60 + a.nanos / 1000000000
  yearText d.year ++ "-" ++ Numeral.padded 2 d.month ++ "-" ++ Numeral.padded 2 d.day ++ "T"
    ++ Numeral.padded 2 (s / 3600) ++ ":" ++ Numeral.padded 2 (s / 60 % 60) ++ ":"
    ++ Numeral.padded 2 second

/-- The fraction of the second in the fewest groups of three digits. -/
def fractionText (a : Instant) : String :=
  let n := a.nanos % 1000000000
  if n = 0 then ""
  else if n % 1000000 = 0 then "." ++ Numeral.padded 3 (n / 1000000)
  else if n % 1000 = 0 then "." ++ Numeral.padded 6 (n / 1000)
  else "." ++ Numeral.padded 9 n

def text (a : Instant) : String :=
  a.baseText ++ a.fractionText ++ "+00:00"

def stamp (a : Instant) : String :=
  a.baseText ++ "." ++ Numeral.padded 6 (a.nanos % 1000000000 / 1000) ++ "Z"

/-- The instant as it stands at the front of a file name: digits, a `T` and a `Z`. -/
def fileStamp (a : Instant) : String :=
  String.ofList (a.stamp.toList.filter fun c => c != '-' && c != ':' && c != '.')

end Instant

/-!
## Spans of time

A span is a number of nanoseconds. There is a longest one, `2 ^ 64` seconds less
a nanosecond; sums beyond it have no answer.
-/

-- Powers are those of the core library, whatever other instances there are.
attribute [local instance (high)] instPowNat

structure Span where
  nanos : Nat
  deriving DecidableEq, Repr, Inhabited

namespace Span

def ofSeconds (s : Nat) : Span := ⟨s * 1000000000⟩

def ofMillis (ms : Nat) : Span := ⟨ms * 1000000⟩

def seconds (d : Span) : Nat := d.nanos / 1000000000

def subNanos (d : Span) : Nat := d.nanos % 1000000000

/-- The whole thousandths of a second of a span. -/
def millis (d : Span) : Nat := d.nanos / 1000000

def longest : Span := ⟨2 ^ (64 : Nat) * 1000000000 - 1⟩

def min (a b : Span) : Span := ⟨Nat.min a.nanos b.nanos⟩

end Span

namespace Instant

/-- The instant a span earlier. Leaving a leap second counts it as the second that
follows it. -/
def minus (a : Instant) (d : Span) : Instant :=
  if 1000000000 ≤ a.nanos ∧ d.seconds = 0 then ⟨a.seconds, a.nanos - d.subNanos⟩
  else
    let (s, n) :=
      if 1000000000 ≤ a.nanos then (a.seconds + 1, a.nanos - 1000000000) else (a.seconds, a.nanos)
    if d.subNanos ≤ n then ⟨s - d.seconds, n - d.subNanos⟩
    else ⟨s - d.seconds - 1, n + 1000000000 - d.subNanos⟩

/-- The first instant of the calendar's first year, -262143. -/
def earliest : Instant := ⟨(Date.toDays ⟨-262143, 1, 1⟩) * 86400, 0⟩

end Instant

end Pipewright

/-!
## Reading instants

Instants as they are written in files: a full date, a `T` or a blank, a full
time with or without a fraction, and an offset, `Z` or hours and minutes with a
sign. What stands in nineteen fixed places is checked from left to right, then
the fraction, then the form of the offset, then that nothing follows, and last
that the offset is less than a day; the first fault is reported.
-/

namespace Pipewright.Rfc3339

attribute [local instance (high)] Zero.ofOfNat0 instPowNat

/-- Why a text is no instant. -/
inductive Fault where
  | tooShort
  | invalid
  | outOfRange
  | tooLong
  deriving DecidableEq, Repr

def Fault.message : Fault → String
  | .tooShort => "premature end of input"
  | .invalid => "input contains invalid characters"
  | .outOfRange => "input is out of range"
  | .tooLong => "trailing input"

def byteCount (s : List Char) : Nat :=
  (s.map Char.utf8Size).sum

def number : Nat → Nat → List Char → Except Fault (Nat × List Char)
  | 0, acc, s => .ok (acc, s)
  | count + 1, acc, c :: s =>
    if c.isDigit then number count (10 * acc + (c.toNat - '0'.toNat)) s else .error .invalid
  | _ + 1, _, [] => .error .invalid

def mark (allowed : List Char) : List Char → Except Fault (List Char)
  | c :: s => if allowed.contains c then .ok s else .error .invalid
  | [] => .error .invalid

def expect (c : Char) : List Char → Except Fault (List Char)
  | d :: s => if d = c then .ok s else .error .invalid
  | [] => .error .tooShort

/-- A fraction after its point, in nanoseconds. Digits after the ninth are dropped. -/
def nanoseconds (s : List Char) : Except Fault (Nat × List Char) :=
  match s with
  | [] => .error .tooShort
  | c :: _ =>
    if c.isDigit then
      let ds := s.takeWhile Char.isDigit
      .ok (Numeral.value 0 (ds.take 9) * 10 ^ (9 - ds.length), s.dropWhile Char.isDigit)
    else .error .invalid

/-- The sign of an offset: true for a minus, of which there are two characters. -/
def offsetSign : List Char → Except Fault (Bool × List Char)
  | c :: s =>
    if c = '+' then .ok (false, s)
    else if c = '-' ∨ c = '\u2212' then .ok (true, s)
    else .error .invalid
  | [] => .error .tooShort

def offsetPart (s : List Char) : Except Fault (Nat × List Char) :=
  if byteCount s < 2 then .error .tooShort else number 2 0 s

def offset (s : List Char) : Except Fault (Int × List Char) :=
  match s with
  | 'Z' :: s => .ok (0, s)
  | 'z' :: s => .ok (0, s)
  | s => do
    let (negative, s) ← offsetSign s
    let (hours, s) ← offsetPart s
    let s ← expect ':' s
    let (minutes, s) ← offsetPart s
    if 60 ≤ minutes then throw .outOfRange
    let seconds : Int := hours * 3600 + minutes * 60
    return (if negative then -seconds else seconds, s)

/-- The largest offset, a minute short of a day. -/
def maxOffset : Int := 86340

def parseChars (s : List Char) : Except Fault Instant := do
  if byteCount s < 19 then throw .tooShort
  let (year, s) ← number 4 0 s
  let s ← mark ['-'] s
  let (month, s) ← number 2 0 s
  let s ← mark ['-'] s
  let (day, s) ← number 2 0 s
  let date : Date := ⟨year, month, day⟩
  if !date.isValid then throw .outOfRange
  let s ← mark ['t', 'T', ' '] s
  let (hour, s) ← number 2 0 s
  let s ← mark [':'] s
  let (minute, s) ← number 2 0 s
  let s ← mark [':'] s
  let (second, s) ← number 2 0 s
  let (fraction, s) ← match s with
    | '.' :: s => nanoseconds s
    | s => .ok (0, s)
  if 24 ≤ hour ∨ 60 ≤ minute ∨ 61 ≤ second then throw .outOfRange
  let (away, s) ← offset s
  if !s.isEmpty then throw .tooLong
  if away < -maxOffset ∨ maxOffset < away then throw .outOfRange
  let leap := second == 60
  let clock : Int := hour * 3600 + minute * 60 + (if leap then 59 else second : Nat)
  return ⟨date.toDays * 86400 + clock - away, fraction + (if leap then 1000000000 else 0)⟩

def parse (s : String) : Except Fault Instant :=
  parseChars s.toList

end Pipewright.Rfc3339
