import Pipewright.Text

/-!
# Numbers of double precision

A decimal is rounded to the nearest number of double precision, and a number is written as the
shortest decimal that is rounded back to it. All of it is arithmetic of whole numbers.
-/

/-!
## Double precision numbers, exactly

A number of double precision is kept as what it is: a sign, a whole mantissa
and a power of two. All arithmetic on it is arithmetic of naturals, so every
digit that is printed and every rounding that is made can be reasoned about.

`roundRatio` is the one rounding there is: to the nearest representable
magnitude, a tie to the even mantissa. `Binary64.ofDecimal` reads a decimal
through it, and `scale` and `unscale` are the rounded product and quotient.
-/

namespace Pipewright

-- Powers are those of the core library, whatever other instances there are.
attribute [local instance (high)] instPowNat

/-- A magnitude `mantissa * 2 ^ exponent`. Canonical ones have a mantissa below
`2 ^ 53`, and one of at least `2 ^ 52` unless the exponent is the least, -1074. -/
structure Magnitude where
  mantissa : Nat
  exponent : Int
  deriving DecidableEq, Repr

namespace Magnitude

def zero : Magnitude := ⟨0, -1074⟩

def num (x : Magnitude) : Nat := x.mantissa * 2 ^ x.exponent.toNat

def den (x : Magnitude) : Nat := 2 ^ (-x.exponent).toNat

end Magnitude

/-- The power of two in whose units `num / den` has 53 significant bits, or -1074
where that would be finer than the finest grid. -/
def gridExponent (num den : Nat) : Int :=
  let rough : Int := (num.log2 : Int) - den.log2 - 53
  let wide := num * 2 ^ (-(rough + 53)).toNat ≥ den * 2 ^ (rough + 53).toNat
  max (if wide then rough + 1 else rough) (-1074)

/-- The nearest whole number to `num / den`, a tie to the even one. -/
def roundDivEven (num den : Nat) : Nat :=
  let q := num / den
  let r := num % den
  if den < 2 * r || (2 * r == den && q % 2 == 1) then q + 1 else q

/-- The magnitude nearest to `num / den`, a tie to the even mantissa; none when
it lies beyond the largest one. -/
def roundRatio (num den : Nat) : Option Magnitude :=
  if num = 0 then some .zero
  else
    let e := gridExponent num den
    let q := roundDivEven (num * 2 ^ (-e).toNat) (den * 2 ^ e.toNat)
    let m : Magnitude := if q = 2 ^ (53 : Nat) then ⟨2 ^ (52 : Nat), e + 1⟩ else ⟨q, e⟩
    if m.exponent ≤ 971 then some m else none

inductive Binary64 where
  | finite (negative : Bool) (magnitude : Magnitude)
  | infinite (negative : Bool)
  | notANumber
  deriving DecidableEq, Repr

namespace Binary64

/-- A rounded magnitude with its sign; beyond the largest it is infinite. -/
def ofRounded (negative : Bool) : Option Magnitude → Binary64
  | some m => .finite negative m
  | none => .infinite negative

/-- The number nearest to `± digits * 10 ^ exponent`. Decimals of far larger or
far smaller order than any finite number are settled without computing the power. -/
def ofDecimal (negative : Bool) (digits : Nat) (exponent : Int) : Binary64 :=
  if digits = 0 ∨ exponent + digits.log2 < -400 then .finite negative .zero
  else if 400 < exponent then .infinite negative
  else ofRounded negative (roundRatio (digits * 10 ^ exponent.toNat) (10 ^ (-exponent).toNat))

end Binary64

/-!
## The shortest decimal of a number

Which digits stand for a number of double precision: the fewest that read back
as the same number, of two such decimals the nearer one. Only an exact tie is
left open, and `Tie` settles it; where the point goes is the business of
`NumberForm`.

The search is the definition turned into a loop. On the grid of `n` significant
digits the value has two neighbours, and the first grid with a neighbour that
reads back wins. If seventeen digits do not suffice the exact decimal expansion
is taken, which always reads back.
-/

structure Decimal where
  digits : Nat
  exponent : Int
  deriving DecidableEq, Repr

/-- Which of two equally near decimals is taken. -/
inductive Tie where
  | toEven
  | up
  deriving DecidableEq, Repr

namespace Decimal

/-- The decimal without its trailing zeros; the fuel is the number of digits. -/
def strip : Nat → Decimal → Decimal
  | 0, d => d
  | fuel + 1, d =>
    if d.digits ≠ 0 ∧ d.digits % 10 = 0 then strip fuel ⟨d.digits / 10, d.exponent + 1⟩ else d

def readsBack (x : Magnitude) (d : Decimal) : Bool :=
  roundRatio (d.digits * 10 ^ d.exponent.toNat) (10 ^ (-d.exponent).toNat) == some x

/-- The least `k` with the magnitude below `10 ^ k`, from an estimate by the
binary logarithm that is at most two off. -/
def order (x : Magnitude) : Int :=
  let rough := Int.fdiv (((x.num.log2 : Int) - x.den.log2) * 30103) 100000
  let below (k : Int) : Bool := x.num * 10 ^ (-k).toNat < x.den * 10 ^ k.toNat
  ([rough - 1, rough, rough + 1].find? below).getD (rough + 2)

/-- On the grid of `10 ^ exponent`, the neighbour of the magnitude that reads
back; of two the nearer. -/
def onGrid (tie : Tie) (x : Magnitude) (exponent : Int) : Option Decimal :=
  let num := x.num * 10 ^ (-exponent).toNat
  let den := x.den * 10 ^ exponent.toNat
  let low : Decimal := ⟨num / den, exponent⟩
  let high : Decimal := ⟨num / den + 1, exponent⟩
  match readsBack x low, readsBack x high with
  | false, false => none
  | true, false => some low
  | false, true => some high
  | true, true =>
    let twice := 2 * (num % den)
    if twice < den then some low
    else if den < twice then some high
    else match tie with
      | .up => some high
      | .toEven => if low.digits % 2 = 0 then some low else some high

def exact (x : Magnitude) : Decimal :=
  if 0 ≤ x.exponent then ⟨x.num, 0⟩ else ⟨x.mantissa * 5 ^ (-x.exponent).toNat, x.exponent⟩

/-- The fewest digits that read back as the magnitude. -/
def shortest (tie : Tie) (x : Magnitude) : Decimal :=
  if x.mantissa = 0 then ⟨0, 0⟩
  else
    let k := order x
    let found := (List.range 17).findSome? fun n => onGrid tie x (k - (n + 1 : Nat))
    let d := found.getD (exact x)
    strip (Numeral.digits d.digits).length d

end Decimal

/-!
## Writing and reading numbers of double precision

Two places of the program write such numbers: the graph file and the state
files. They agree on the digits but for a tie, and on the layout but for the
magnitude at which the exponent form starts and the sign of a positive exponent,
so a `NumberForm` is a record of these three decisions. In both a whole number
keeps its `.0`, and the exponent has no zeros in front (`1.5e-7`).
-/

/-- How numbers are laid out: the decimal exponent of the leading digit from which
on a number is written positionally (below 16 in any case), the tie rule, and whether
a positive exponent has a sign. -/
structure NumberForm where
  plainFrom : Int
  tie : Tie
  plusSign : Bool

namespace NumberForm

/-- Graph files: positional from `0.0001` on, a tie goes up, exponents like `e16`. -/
def graph : NumberForm := ⟨-4, .up, false⟩

/-- State files: positional from `0.00001` on, a tie goes to the even digit, exponents
like `e+16`. -/
def state : NumberForm := ⟨-5, .toEven, true⟩

/-- The digits of a decimal with the point in its place, or in exponent form. -/
def layout (f : NumberForm) (d : Decimal) : List Char :=
  let ds := Numeral.digits d.digits
  let lead : Int := d.exponent + ds.length - 1
  if d.digits = 0 then ['0', '.', '0']
  else if f.plainFrom ≤ lead ∧ lead < 16 then
    if 0 ≤ d.exponent then ds ++ List.replicate d.exponent.toNat '0' ++ ['.', '0']
    else if 0 ≤ lead then ds.take (lead.toNat + 1) ++ '.' :: ds.drop (lead.toNat + 1)
    else '0' :: '.' :: List.replicate (-lead - 1).toNat '0' ++ ds
  else
    let point := if ds.length ≤ 1 then ds else ds.take 1 ++ '.' :: ds.drop 1
    let sign := if f.plusSign ∧ 0 ≤ lead then ['+'] else []
    point ++ 'e' :: (sign ++ (Numeral.intText lead).toList)

def render (f : NumberForm) : Binary64 → String
  | .finite negative m =>
    String.ofList ((if negative then ['-'] else []) ++ f.layout (Decimal.shortest f.tie m))
  | .infinite false => "inf"
  | .infinite true => "-inf"
  | .notANumber => "NaN"

end NumberForm

namespace Binary64

/-- The unsigned part of a number's text: a decimal with or without point and
exponent, or a word for infinity or for no number, in any case of letters. -/
def ofUnsigned? (negative : Bool) (cs : List Char) : Option Binary64 :=
  let lower := String.ofList (cs.map Char.toLower)
  if lower = "inf" ∨ lower = "infinity" then some (.infinite negative)
  else if lower = "nan" then some .notANumber
  else
    let whole := cs.takeWhile Char.isDigit
    let afterWhole := cs.dropWhile Char.isDigit
    let (fraction, afterFraction) := match afterWhole with
      | '.' :: r => (r.takeWhile Char.isDigit, r.dropWhile Char.isDigit)
      | r => ([], r)
    let mantissa := whole ++ fraction
    if mantissa.isEmpty then none
    else
      let power := match afterFraction with
        | [] => some 0
        | c :: r => if c = 'e' ∨ c = 'E' then Numeral.int? r else none
      power.map fun p => ofDecimal negative (Numeral.value 0 mantissa) (p - fraction.length)

def ofText? (s : String) : Option Binary64 :=
  match s.toList with
  | '-' :: cs => ofUnsigned? true cs
  | '+' :: cs => ofUnsigned? false cs
  | cs => ofUnsigned? false cs

end Binary64

end Pipewright
