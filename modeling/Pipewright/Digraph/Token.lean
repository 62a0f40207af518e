import Pipewright.Digraph.Basic

/-!
# Readings and tokens

A reader takes a token off the front of a text, or says what it had expected and where.
-/

/-!
## Readings

A part of the graph reader is a function from the characters that are left to
a `Reading`: a value with the characters then left, or a `Refusal`. A refusal
keeps the place where the reader stood when it gave up, since the message to
the user points there. After most refusals another reading may be tried from
where this one began (`otherwise`, `optional`); a final one is reported as it
is.
-/

namespace Pipewright.Digraph

/-- What the reader wanted to see when it gave up. -/
inductive Expectation where
  | closingQuote
  | attributeValue
  | graphAttributeValue
  | edgeTarget
  | closingBracket
  | openingBrace
  | closingSubgraph
  | closingDigraph
  | digraphKeyword
  | notStrict
  | notUndirected
  | directedEdge
  deriving DecidableEq, Repr

/-- Why and where a reading failed. `expected` lists what was wanted, the
innermost part first. -/
structure Refusal where
  rest : List Char
  expected : List Expectation
  final : Bool
  deriving DecidableEq, Repr

abbrev Reading := Except Refusal

variable {α β : Type}

/-- Gives up at the place, so that another reading may be tried. -/
def refuse (rest : List Char) (expected : List Expectation) : Reading (α × List Char) :=
  .error ⟨rest, expected, false⟩

def refuseFinally (rest : List Char) (expected : Expectation) : Reading (α × List Char) :=
  .error ⟨rest, [expected], true⟩

def expecting (e : Expectation) : Reading (α × List Char) → Reading (α × List Char)
  | .ok r => .ok r
  | .error f => .error { f with expected := f.expected ++ [e] }

/-- The first reading, or if that gives up the second. -/
def otherwise (first : Reading (α × List Char)) (second : Unit → Reading (α × List Char)) :
    Reading (α × List Char) :=
  match first with
  | .ok r => .ok r
  | .error f => if f.final then .error f else second ()

/-- The reading if it succeeds, else nothing and the place `start` it began at. -/
def optional (start : List Char) (part : Reading (α × List Char)) :
    Reading (Option α × List Char) :=
  match part with
  | .ok (a, rest) => .ok (some a, rest)
  | .error f => if f.final then .error f else .ok (none, start)

def mapValue (f : α → β) : Reading (α × List Char) → Reading (β × List Char)
  | .ok (a, rest) => .ok (f a, rest)
  | .error e => .error e

/-! ### Progress

`Within s r` says that `r` stands in `s`, whether it succeeded or gave up, and
`Advances s r` that it took something if it succeeded. Both pass through
sequences and alternatives, which is all that the proofs about single parts of
the reader use. -/

/-- What the reading leaves, or the place where it gave up, is a suffix of `s`. -/
def Within (s : List Char) : Reading (α × List Char) → Prop
  | .ok (_, rest) => rest <:+ s
  | .error f => f.rest <:+ s

/-- If the reading succeeds it leaves less than `s`. -/
def Advances (s : List Char) : Reading (α × List Char) → Prop
  | .ok (_, rest) => rest.length < s.length
  | .error _ => True

theorem Within.mono {s t : List Char} {r : Reading (α × List Char)} (h : Within s r)
    (hst : s <:+ t) : Within t r := by
  cases r with
  | ok v => exact List.IsSuffix.trans h hst
  | error f => exact List.IsSuffix.trans h hst

theorem Advances.mono {s t : List Char} {r : Reading (α × List Char)} (h : Advances s r)
    (hst : s <:+ t) : Advances t r := by
  cases r with
  | ok v => exact Nat.lt_of_lt_of_le h hst.length_le
  | error f => trivial

theorem Within.expecting {s : List Char} {r : Reading (α × List Char)} {e : Expectation}
    (h : Within s r) : Within s (expecting e r) := by
  cases r <;> exact h

theorem Advances.expecting {s : List Char} {r : Reading (α × List Char)} {e : Expectation}
    (h : Advances s r) : Advances s (Digraph.expecting e r) := by
  cases r <;> exact h

theorem Within.otherwise {s : List Char} {r : Reading (α × List Char)}
    {q : Unit → Reading (α × List Char)} (hr : Within s r) (hq : Within s (q ())) :
    Within s (otherwise r q) := by
  cases r with
  | ok v => exact hr
  | error f => unfold Digraph.otherwise; dsimp only; split <;> assumption

theorem Advances.otherwise {s : List Char} {r : Reading (α × List Char)}
    {q : Unit → Reading (α × List Char)} (hr : Advances s r) (hq : Advances s (q ())) :
    Advances s (Digraph.otherwise r q) := by
  cases r with
  | ok v => exact hr
  | error f =>
    unfold Digraph.otherwise; dsimp only; split
    · trivial
    · exact hq

theorem Within.optional {s : List Char} {r : Reading (α × List Char)} (hr : Within s r) :
    Within s (optional s r) := by
  cases r with
  | ok v => exact hr
  | error f =>
    unfold Digraph.optional; dsimp only; split
    · exact hr
    · exact List.suffix_refl s

theorem Within.mapValue {s : List Char} {r : Reading (α × List Char)} {f : α → β}
    (h : Within s r) : Within s (mapValue f r) := by
  cases r <;> exact h

theorem Advances.mapValue {s : List Char} {r : Reading (α × List Char)} {f : α → β}
    (h : Advances s r) : Advances s (Digraph.mapValue f r) := by
  cases r <;> exact h

theorem Within.bind {s : List Char} {r : Reading (α × List Char)}
    {f : α × List Char → Reading (β × List Char)} (hr : Within s r)
    (hf : ∀ a rest, r = .ok (a, rest) → Within rest (f (a, rest))) : Within s (r >>= f) := by
  cases r with
  | ok v => exact (hf v.1 v.2 rfl).mono hr
  | error e => exact hr

theorem Advances.bind {s : List Char} {r : Reading (α × List Char)}
    {f : α × List Char → Reading (β × List Char)} (hr : Advances s r)
    (hf : ∀ a rest, r = .ok (a, rest) → Within rest (f (a, rest))) : Advances s (r >>= f) := by
  cases r with
  | ok v =>
    have h := hf v.1 v.2 rfl
    change Advances s (f v)
    cases hv : f v with
    | ok w =>
      rw [show (v.1, v.2) = v from rfl, hv] at h
      exact Nat.lt_of_le_of_lt (List.IsSuffix.length_le h) hr
    | error e => trivial
  | error e => trivial

end Pipewright.Digraph

/-!
## The tokens of a graph file

Blanks, names and attribute values. Every reader here leaves a suffix of what
it is given (`…_suffix`), and those that cannot succeed on nothing leave a
shorter one (`…_shorter`); the loops of the statement reader end because of
that.
-/

namespace Pipewright.Digraph.Read

def isSpace (c : Char) : Bool :=
  c == ' ' || c == '\t' || c == '\r' || c == '\n'

def skipSpace (s : List Char) : List Char :=
  s.dropWhile isSpace

def char (c : Char) : List Char → Reading (Unit × List Char)
  | d :: rest => if d = c then .ok ((), rest) else refuse (d :: rest) []
  | [] => refuse [] []

/-- What is left after a word, if the text starts with it. -/
def dropWord? : List Char → List Char → Option (List Char)
  | [], s => some s
  | _ :: _, [] => none
  | w :: ws, c :: s => if w = c then dropWord? ws s else none

def word (w : String) (s : List Char) : Reading (Unit × List Char) :=
  match dropWord? w.toList s with
  | some rest => .ok ((), rest)
  | none => refuse s []

/-- What is left after a semicolon, if there is one. -/
def skipSemicolon : List Char → List Char
  | ';' :: rest => rest
  | s => s

/-- What is left after a separator of attributes, if there is one. -/
def skipSeparator : List Char → List Char
  | ',' :: rest => rest
  | ';' :: rest => rest
  | s => s

/-! ### Names -/

/-- A bare name: a letter or underscore, then letters, digits and underscores. -/
def bareName : List Char → Reading (List Char × List Char)
  | c :: rest =>
    if isWordStart c then .ok (c :: rest.takeWhile isWordChar, rest.dropWhile isWordChar)
    else refuse (c :: rest) []
  | [] => refuse [] []

/-- What a backslash and the character after it stand for. Only the line feed,
the tab, the backslash and the quote are escaped; any other pair stays as it is,
so that layout escapes of drawing tools survive. -/
def unescape (c : Char) : List Char :=
  if c = 'n' then ['\n']
  else if c = 't' then ['\t']
  else if c = '\\' then ['\\']
  else if c = '"' then ['"']
  else ['\\', c]

/-- The characters up to the closing quote, and what is left after it. -/
def quotedBody : List Char → Reading (List Char × List Char)
  | [] => refuse [] [.closingQuote]
  | '"' :: rest => .ok ([], rest)
  | ['\\'] => refuse [] []
  | '\\' :: c :: rest => mapValue (unescape c ++ ·) (quotedBody rest)
  | c :: rest => mapValue (c :: ·) (quotedBody rest)

def quoted : List Char → Reading (List Char × List Char)
  | '"' :: rest => quotedBody rest
  | s => refuse s []

/-- A sign, if there is one, and what is left after it. -/
def sign : List Char → List Char × List Char
  | '-' :: rest => (['-'], rest)
  | '+' :: rest => (['+'], rest)
  | s => ([], s)

def digits (s : List Char) : Reading (List Char × List Char) :=
  match s.takeWhile Char.isDigit with
  | [] => refuse s []
  | ds => .ok (ds, s.dropWhile Char.isDigit)

/-- A point and at least one digit; nothing if they are not both there. -/
def fraction : List Char → List Char × List Char
  | '.' :: s =>
    match digits s with
    | .ok (ds, rest) => ('.' :: ds, rest)
    | .error _ => ([], '.' :: s)
  | s => ([], s)

/-- A numeral, taken as a name: its characters as they stand. -/
def numeral (s : List Char) : Reading (List Char × List Char) := do
  let (sg, s) := sign s
  let (whole, s) ← digits s
  let (part, s) := fraction s
  return (sg ++ whole ++ part, s)

def name (s : List Char) : Reading (String × List Char) :=
  mapValue String.ofList
    (otherwise (quoted s) fun _ => otherwise (bareName s) fun _ => numeral s)

/-! ### Keys -/

/-- The characters that continue a key, and what is left: word characters, and
points that a word starts right after. -/
def keyTail : List Char → List Char × List Char
  | '.' :: c :: rest =>
    if isWordStart c then
      let (more, left) := keyTail rest
      ('.' :: c :: more, left)
    else ([], '.' :: c :: rest)
  | c :: rest =>
    if isWordChar c then
      let (more, left) := keyTail rest
      (c :: more, left)
    else ([], c :: rest)
  | [] => ([], [])

/-- The key of an attribute: bare names with points between them. -/
def key : List Char → Reading (String × List Char)
  | c :: rest =>
    if isWordStart c then
      let (more, left) := keyTail rest
      .ok (String.ofList (c :: more), left)
    else refuse (c :: rest) []
  | [] => refuse [] []

/-! ### Attribute values -/

def continuesWord : List Char → Bool
  | c :: _ => isWordChar c
  | [] => false

/-- `true` or `false`, not as the beginning of a longer word. -/
def truth (s : List Char) : Reading (Bool × List Char) := do
  let (b, s) ← otherwise (mapValue (fun _ => true) (word "true" s)) fun _ =>
    mapValue (fun _ => false) (word "false" s)
  if continuesWord s then refuse s [] else return (b, s)

/-- A numeral with a point. Whatever follows it, a name too, is left. -/
def real (s : List Char) : Reading (Binary64 × List Char) := do
  let (sg, s) := sign s
  let (whole, s) ← digits s
  let (_, s) ← char '.' s
  let (part, s) ← digits s
  let value := Binary64.ofDecimal (sg == ['-']) (Numeral.value 0 (whole ++ part)) (-part.length)
  return (value, s)

/-- A whole numeral of 64 bits, not as the beginning of a longer word. -/
def integer (s : List Char) : Reading (Int64 × List Char) := do
  let (sg, s) := sign s
  let (whole, s) ← digits s
  if continuesWord s then refuse s []
  else
    match Numeral.int64? (sg ++ whole) with
    | some i => return (i, s)
    | none => refuse s []

def isBareValueChar (c : Char) : Bool :=
  isWordChar c || c == '.'

/-- A bare value that is none of the other kinds, taken as text. -/
def bareValue (s : List Char) : Reading (List Char × List Char) :=
  match s.takeWhile isBareValueChar with
  | [] => refuse s []
  | cs => .ok (cs, s.dropWhile isBareValueChar)

/-- The value of an attribute; the kinds are tried in this order. -/
def value (s : List Char) : Reading (AttrValue × List Char) :=
  otherwise (mapValue (fun cs => .text (String.ofList cs)) (quoted s)) fun _ =>
  otherwise (mapValue .boolean (truth s)) fun _ =>
  otherwise (mapValue .real (real s)) fun _ =>
  otherwise (mapValue .integer (integer s)) fun _ =>
    mapValue (fun cs => .text (String.ofList cs)) (bareValue s)

/-! ### Progress -/

theorem skipSpace_suffix (s : List Char) : skipSpace s <:+ s :=
  List.dropWhile_suffix _

theorem skipSemicolon_suffix (s : List Char) : skipSemicolon s <:+ s := by
  unfold skipSemicolon
  split
  · exact List.suffix_cons _ _
  · exact List.suffix_refl _

theorem skipSeparator_suffix (s : List Char) : skipSeparator s <:+ s := by
  unfold skipSeparator
  split
  · exact List.suffix_cons _ _
  · exact List.suffix_cons _ _
  · exact List.suffix_refl _

theorem char_within (c : Char) (s : List Char) : Within s (char c s) := by
  unfold char
  split
  · split
    · exact List.suffix_cons _ _
    · exact List.suffix_refl _
  · exact List.suffix_refl _

theorem char_advances (c : Char) (s : List Char) : Advances s (char c s) := by
  unfold char
  split
  · split
    · simp [Advances]
    · trivial
  · trivial

theorem dropWord?_suffix {w s rest : List Char} (h : dropWord? w s = some rest) :
    rest <:+ s ∧ rest.length + w.length = s.length := by
  induction w generalizing s with
  | nil => simp [dropWord?] at h; simp [h]
  | cons c ws ih =>
    cases s with
    | nil => simp [dropWord?] at h
    | cons d s =>
      simp only [dropWord?] at h
      split at h
      · obtain ⟨h1, h2⟩ := ih h
        exact ⟨h1.trans (List.suffix_cons _ _), by simp only [List.length_cons]; omega⟩
      · simp at h

theorem word_within (w : String) (s : List Char) : Within s (word w s) := by
  unfold word
  split
  · rename_i h; exact (dropWord?_suffix h).1
  · exact List.suffix_refl _

theorem word_advances {w : String} (hw : w.toList ≠ []) (s : List Char) :
    Advances s (word w s) := by
  unfold word
  split
  · rename_i rest h
    have h2 := (dropWord?_suffix h).2
    have : 0 < w.toList.length := List.length_pos_iff.2 hw
    simp only [Advances]; omega
  · trivial

theorem bareName_within (s : List Char) : Within s (bareName s) := by
  unfold bareName
  split
  · split
    · exact (List.dropWhile_suffix _).trans (List.suffix_cons _ _)
    · exact List.suffix_refl _
  · exact List.suffix_refl _

theorem bareName_advances (s : List Char) : Advances s (bareName s) := by
  unfold bareName
  split
  · split
    · rename_i rest _
      have := (List.dropWhile_suffix (l := rest) isWordChar).length_le
      simp only [Advances, List.length_cons]; omega
    · trivial
  · trivial

theorem quotedBody_within (s : List Char) : Within s (quotedBody s) := by
  fun_induction quotedBody s with
  | case1 => exact List.suffix_refl _
  | case2 rest => exact List.suffix_cons _ _
  | case3 => exact List.nil_suffix
  | case4 c rest ih => exact (Within.mapValue ih).mono ⟨['\\', c], rfl⟩
  | case5 c rest _ _ _ ih => exact (Within.mapValue ih).mono (List.suffix_cons _ _)

theorem quoted_within (s : List Char) : Within s (quoted s) := by
  unfold quoted
  split
  · exact (quotedBody_within _).mono (List.suffix_cons _ _)
  · exact List.suffix_refl _

theorem quoted_advances (s : List Char) : Advances s (quoted s) := by
  unfold quoted
  split
  · rename_i rest
    have h := quotedBody_within rest
    cases hq : quotedBody rest with
    | ok v =>
      rw [hq] at h
      have := List.IsSuffix.length_le h
      simp only [Advances, List.length_cons]; omega
    | error f => trivial
  · trivial

theorem sign_suffix (s : List Char) : (sign s).2 <:+ s := by
  unfold sign
  split
  · exact List.suffix_cons _ _
  · exact List.suffix_cons _ _
  · exact List.suffix_refl _

theorem digits_within (s : List Char) : Within s (digits s) := by
  unfold digits
  split
  · exact List.suffix_refl _
  · exact List.dropWhile_suffix _

theorem digits_advances (s : List Char) : Advances s (digits s) := by
  unfold digits
  split
  · trivial
  · rename_i ds h
    have : s.takeWhile Char.isDigit ++ s.dropWhile Char.isDigit = s :=
      List.takeWhile_append_dropWhile
    have hl := congrArg List.length this
    have : 0 < (s.takeWhile Char.isDigit).length := List.length_pos_iff.2 h
    simp only [List.length_append] at hl
    simp only [Advances]; omega

theorem fraction_suffix (s : List Char) : (fraction s).2 <:+ s := by
  unfold fraction
  split
  · rename_i s
    split
    · rename_i h
      have := digits_within s
      rw [h] at this
      exact List.IsSuffix.trans this (List.suffix_cons _ _)
    · exact List.suffix_refl _
  · exact List.suffix_refl _

theorem numeral_within (s : List Char) : Within s (numeral s) := by
  unfold numeral
  exact Within.bind ((digits_within _).mono (sign_suffix _)) fun a rest _ => fraction_suffix _

theorem numeral_advances (s : List Char) : Advances s (numeral s) := by
  unfold numeral
  exact Advances.bind ((digits_advances _).mono (sign_suffix _)) fun a rest _ => fraction_suffix _

theorem name_within (s : List Char) : Within s (name s) :=
  (Within.otherwise (quoted_within s)
    (Within.otherwise (bareName_within s) (numeral_within s))).mapValue

theorem name_advances (s : List Char) : Advances s (name s) :=
  (Advances.otherwise (quoted_advances s)
    (Advances.otherwise (bareName_advances s) (numeral_advances s))).mapValue

theorem keyTail_suffix (s : List Char) : (keyTail s).2 <:+ s := by
  fun_induction keyTail s with
  | case1 c rest h more left heq ih =>
    rw [heq] at ih
    exact ih.trans ⟨['.', c], rfl⟩
  | case2 => exact List.suffix_refl _
  | case3 c rest _ h more left heq ih =>
    rw [heq] at ih
    exact ih.trans (List.suffix_cons _ _)
  | case4 => exact List.suffix_refl _
  | case5 => exact List.suffix_refl _

theorem key_within (s : List Char) : Within s (key s) := by
  unfold key
  split
  · split
    · exact (keyTail_suffix _).trans (List.suffix_cons _ _)
    · exact List.suffix_refl _
  · exact List.suffix_refl _

theorem key_advances (s : List Char) : Advances s (key s) := by
  unfold key
  split
  · split
    · rename_i rest _
      have := (keyTail_suffix rest).length_le
      simp only [Advances, List.length_cons]; omega
    · trivial
  · trivial

theorem truth_within (s : List Char) : Within s (truth s) := by
  unfold truth
  refine Within.bind (Within.otherwise (word_within _ s).mapValue (word_within _ s).mapValue)
    fun a rest _ => ?_
  dsimp only
  split <;> exact List.suffix_refl _

theorem real_within (s : List Char) : Within s (real s) := by
  unfold real
  refine Within.bind ((digits_within _).mono (sign_suffix s)) fun _ rest _ => ?_
  refine Within.bind (char_within _ rest) fun _ rest _ => ?_
  exact Within.bind (digits_within rest) fun _ rest _ => List.suffix_refl _

theorem integer_within (s : List Char) : Within s (integer s) := by
  unfold integer
  refine Within.bind ((digits_within _).mono (sign_suffix s)) fun _ rest _ => ?_
  dsimp only
  split
  · exact List.suffix_refl _
  · split <;> exact List.suffix_refl _

theorem bareValue_within (s : List Char) : Within s (bareValue s) := by
  unfold bareValue
  split
  · exact List.suffix_refl _
  · exact List.dropWhile_suffix _

theorem value_within (s : List Char) : Within s (value s) :=
  (quoted_within s).mapValue.otherwise <| (truth_within s).mapValue.otherwise <|
    (real_within s).mapValue.otherwise <| (integer_within s).mapValue.otherwise
      (bareValue_within s).mapValue

end Pipewright.Digraph.Read
