import Pipewright.Json.Document
import Pipewright.Text

/-!
# Records in JSON

How values are written, and how records are read field by field.
-/

/-!
## Writing JSON

Two layouts of the same tokens: `Json.compact` on one line without blanks, and
`Json.pretty` with one item a line, indented by two blanks a level. Empty lists
and objects are written closed in both.

Inside quotes the quote, the backslash and the characters below the blank are
escaped, those with a short escape by it and the others by four hexadecimal
digits; everything else stands for itself. So a written value never contains a
line feed unless the layout puts it there.
-/

namespace Pipewright.Json

def escapeChar (c : Char) : List Char :=
  if c = '"' then ['\\', '"']
  else if c = '\\' then ['\\', '\\']
  else if c = '\n' then ['\\', 'n']
  else if c = '\r' then ['\\', 'r']
  else if c = '\t' then ['\\', 't']
  else if c = '\x08' then ['\\', 'b']
  else if c = '\x0c' then ['\\', 'f']
  else if c.toNat < 0x20 then
    ['\\', 'u', '0', '0', Hex.digit (c.toNat / 16), Hex.digit (c.toNat % 16)]
  else [c]

def quote (s : String) : List Char :=
  '"' :: s.toList.flatMap escapeChar ++ ['"']

def separated (sep : List Char) : List (List Char) → List Char
  | [] => []
  | [p] => p
  | p :: rest => p ++ sep ++ separated sep rest

mutual

def compactChars : Json → List Char
  | null => "null".toList
  | boolean b => (toString b).toList
  | integer i => (Numeral.intText i).toList
  | real x => (NumberForm.state.render x).toList
  | text s => quote s
  | list items => '[' :: separated [','] (compactItems items) ++ [']']
  | object fields => '\x7b' :: separated [','] (compactFields fields) ++ ['\x7d']

/-- The items of a list, each on one line. -/
def compactItems : List Json → List (List Char)
  | [] => []
  | v :: rest => compactChars v :: compactItems rest

/-- The fields of an object, each on one line. -/
def compactFields : List (String × Json) → List (List Char)
  | [] => []
  | (k, v) :: rest => (quote k ++ ':' :: compactChars v) :: compactFields rest

end

def newLine (level : Nat) : List Char :=
  '\n' :: List.replicate (2 * level) ' '

mutual

/-- A value in indented layout, as characters; `level` is the indentation of the
line it starts on. -/
def prettyChars (level : Nat) : Json → List Char
  | list items =>
    if items.isEmpty then ['[', ']']
    else
      '[' :: newLine (level + 1)
        ++ separated (',' :: newLine (level + 1)) (prettyItems (level + 1) items)
        ++ newLine level ++ [']']
  | object fields =>
    if fields.isEmpty then ['\x7b', '\x7d']
    else
      '\x7b' :: newLine (level + 1)
        ++ separated (',' :: newLine (level + 1)) (prettyFields (level + 1) fields)
        ++ newLine level ++ ['\x7d']
  | null => "null".toList
  | boolean b => (toString b).toList
  | integer i => (Numeral.intText i).toList
  | real x => (NumberForm.state.render x).toList
  | text s => quote s

def prettyItems (level : Nat) : List Json → List (List Char)
  | [] => []
  | v :: rest => prettyChars level v :: prettyItems level rest

def prettyFields (level : Nat) : List (String × Json) → List (List Char)
  | [] => []
  | (k, v) :: rest => (quote k ++ ':' :: ' ' :: prettyChars level v) :: prettyFields level rest

end

def compact (v : Json) : String :=
  String.ofList (compactChars v)

def pretty (v : Json) : String :=
  String.ofList (prettyChars 0 v)

/-!
## Records

Records are read strictly by name. The fields of an object may stand in any
order, fields of other names are skipped without being looked at, and a field
of the record that stands twice is a fault. A record may also be written as a
list of its fields in their order, all of them. A field that may be missing may
also be `null`.

`Json.recordFields` does what all records share: it hands back what is written
for each name, in the order of the names.
-/

/-- What is written for each name of a record. In list form no field is left out. -/
def recordFields (names : List String) : Document → Option (List (Option Document))
  | .object fields => do
    let named ← fields.mapM fun (k, d) => k.map (·, d)
    let known := named.filter fun (k, _) => names.contains k
    if (known.map (·.1)).Nodup then some (names.map fun n => known.lookup n) else none
  | .list items => if items.length = names.length then some (items.map some) else none
  | _ => none

/-- As `recordFields`, for a record whose fields all have defaults: in list form the
last ones may be left out. -/
def partialFields (names : List String) : Document → Option (List (Option Document))
  | .list items =>
    if items.length ≤ names.length then
      some (items.map some ++ List.replicate (names.length - items.length) none)
    else none
  | d => recordFields names d

variable {α : Type}

def required (read : Document → Option α) (d : Option Document) : Option α :=
  d.bind read

def defaulted (default : α) (read : Document → Option α) : Option Document → Option α
  | none => some default
  | some d => read d

def nullable (read : Document → Option α) : Document → Option (Option α)
  | .null => some none
  | d => (read d).map some

/-- A field that may be missing or `null`. -/
def optionalField (read : Document → Option α) (d : Option Document) : Option (Option α) :=
  defaulted none (nullable read) d

def asText : Document → Option String
  | .text s => s
  | _ => none

def asNat (bound : Nat) : Document → Option Nat
  | .number n =>
    match n.whole? with
    | some i => if 0 ≤ i ∧ i < bound then some i.toNat else none
    | none => none
  | _ => none

def asUInt32 (d : Document) : Option UInt32 :=
  (asNat UInt32.size d).map UInt32.ofNat

def asUInt64 (d : Document) : Option UInt64 :=
  (asNat UInt64.size d).map UInt64.ofNat

def asList (read : Document → Option α) : Document → Option (List α)
  | .list items => items.mapM read
  | _ => none

/-- A word of a vocabulary, as a text or as the only field of an object. -/
def asWord (ofName? : String → Option α) : Document → Option α
  | .text s => s.bind ofName?
  | .object [(k, .null)] => k.bind ofName?
  | _ => none

def asFree (d : Document) : Option Json :=
  ofDocument? (depthLimit - 1) d

def readRecord (read : Document → Option α) (text : String) : Option α :=
  (Document.parse text).bind read

/-- The bytes of a file, read as a record. -/
def readRecordBytes (read : Document → Option α) (bytes : ByteArray) : Option α :=
  (Document.ofBytes? bytes).bind read

/-- A record as the contents of a file of its own: indented, with a line feed at the
end. -/
def fileText (v : Json) : String := v.pretty ++ "\n"

def lineText (v : Json) : String := v.compact ++ "\n"

/-- The lines of a text, without their ends, a line feed or a return and a line feed. -/
def lines (s : List Char) : List (List Char) :=
  linesFrom [] s
where
  /-- The lines, with what has been read of the first one, backwards. -/
  linesFrom (line : List Char) : List Char → List (List Char)
    | [] => if line.isEmpty then [] else [line.reverse]
    | '\n' :: rest =>
      (match line with
        | '\r' :: l => l.reverse
        | l => l.reverse) :: linesFrom [] rest
    | c :: rest => linesFrom (c :: line) rest

/-- The records of a log, one in each line that is not blank. -/
def readLines (read : Document → Option α) (text : String) : Option (List α) :=
  ((lines text.toList).filter fun l => !Text.allBlank l).mapM fun l =>
    (Document.parseChars l).bind read

end Pipewright.Json
