import Pipewright.Digraph.Token
import Pipewright.Text

/-!
# From statements to graphs

Comments are taken out, statements are read as a tree, and the tree is flattened to the nodes,
edges and attributes that it declares.
-/

/-!
## Statements

The body of a graph file is a tree of statements: attributes of the graph,
defaults for nodes and edges, declarations, and blocks that hold statements in
turn. This file has the tree and the reader that builds it. What the tree
declares once its defaults are applied is told in `Digraph.Scope`.

A statement is tried in five forms in a fixed order, and the last form, a node
or an edge, decides the message when none fits. A word such as `node` is
therefore an ordinary name wherever no attribute block follows it.
-/

namespace Pipewright.Digraph

/-- A statement. `left` is the number of characters of the text from the start
of the statement on, from which its line is found. -/
inductive Statement where
  | graphAttrs (attrs : Attrs)
  | graphAttr (key : String) (value : AttrValue)
  | nodeDefaults (attrs : Attrs)
  | edgeDefaults (attrs : Attrs)
  | node (left : Nat) (id : String) (attrs : Attrs)
  | edges (left : Nat) (chain : List String) (attrs : Attrs)
  | subgraph (body : List Statement)

namespace Read

/-- An attribute: a key, an equals sign and a value. -/
def attr (s : List Char) : Reading ((String × AttrValue) × List Char) := do
  let (k, s) ← key s
  let (_, s) ← char '=' (skipSpace s)
  let (v, s) ← expecting .attributeValue (value (skipSpace s))
  return ((k, v), s)

theorem attr_within (s : List Char) : Within s (attr s) := by
  unfold attr
  refine Within.bind (key_within s) fun _ rest _ => ?_
  refine Within.bind ((char_within _ _).mono (skipSpace_suffix rest)) fun _ rest _ => ?_
  refine Within.bind (((value_within _).mono (skipSpace_suffix rest)).expecting) fun _ rest _ => ?_
  exact List.suffix_refl _

theorem attr_advances (s : List Char) : Advances s (attr s) := by
  unfold attr
  refine Advances.bind (key_advances s) fun _ rest _ => ?_
  refine Within.bind ((char_within _ _).mono (skipSpace_suffix rest)) fun _ rest _ => ?_
  refine Within.bind (((value_within _).mono (skipSpace_suffix rest)).expecting) fun _ rest _ => ?_
  exact List.suffix_refl _

/-- What separates two attributes: blanks, at most one comma or semicolon, blanks. -/
def skipBetween (s : List Char) : List Char :=
  skipSpace (skipSeparator (skipSpace s))

theorem skipBetween_suffix (s : List Char) : skipBetween s <:+ s :=
  (skipSpace_suffix _).trans ((skipSeparator_suffix _).trans (skipSpace_suffix s))

/-- As many attributes as there are, up to the number `most`; of two with one key
the later counts. -/
def attrs (most : Nat) (seen : Attrs) (s : List Char) : Reading (Attrs × List Char) :=
  match most with
  | 0 => .ok (seen, s)
  | most + 1 =>
    match attr s with
    | .ok ((k, v), rest) => attrs most (seen.insert k v) (skipBetween rest)
    | .error f => if f.final then .error f else .ok (seen, s)

/-- Attributes between square brackets. There are never more of them than characters. -/
def attrBlock (s : List Char) : Reading (Attrs × List Char) := do
  let (_, s) ← char '[' s
  let (found, s) ← attrs s.length ∅ (skipSpace s)
  let (_, s) ← expecting .closingBracket (char ']' s)
  return (found, s)

def keywordBlock (w : String) (s : List Char) : Reading (Attrs × List Char) := do
  let (_, s) ← word w s
  let (block, s) ← attrBlock (skipSpace s)
  return (block, skipSemicolon (skipSpace s))

/-- The names of a chain of edges after the first arrow, `most` of them at most. -/
def chain (most : Nat) (s : List Char) : Reading (List String × List Char) :=
  match most with
  | 0 => refuse s []
  | most + 1 => do
    let (id, s) ← expecting .edgeTarget (name (skipSpace s))
    let s := skipSpace s
    match dropWord? ['-', '>'] s with
    | some s => mapValue (id :: ·) (chain most s)
    | none => return ([id], s)

/-- A node, a chain of edges, or a graph attribute. -/
def declaration (s : List Char) : Reading (Statement × List Char) := do
  let left := s.length
  let (id, s) ← name s
  let s := skipSpace s
  match dropWord? ['-', '>'] s with
  | some s =>
    let (targets, s) ← chain (s.length + 1) s
    let (block, s) ← optional s (attrBlock s)
    return (.edges left (id :: targets) (block.getD ∅), skipSemicolon (skipSpace s))
  | none =>
    match dropWord? ['-', '-'] s with
    | some s => refuseFinally s .directedEdge
    | none =>
      match ← optional s (attrBlock s) with
      | (some block, s) => return (.node left id block, skipSemicolon (skipSpace s))
      | (none, '=' :: s) =>
        let (v, s) ← expecting .graphAttributeValue (value (skipSpace s))
        return (.graphAttr id v, skipSemicolon (skipSpace s))
      | (none, s) => return (.node left id ∅, skipSemicolon s)

/-- The beginning of a block, up to its opening brace; its name has no meaning. -/
def subgraphOpening (s : List Char) : Reading (Unit × List Char) := do
  let (_, s) ← word "subgraph" s
  let s := skipSpace s
  let (_, s) ← optional s (name s)
  char '\x7b' (skipSpace s)

/-- A block, given the reader of the statements in it. -/
def subgraph (body : List Char → Reading (List Statement × List Char)) (s : List Char) :
    Reading (Statement × List Char) := do
  let (_, s) ← subgraphOpening s
  let (inner, s) ← body s
  let (_, s) ← expecting .closingSubgraph (char '\x7d' (skipSpace s))
  return (.subgraph inner, skipSemicolon (skipSpace s))

/-- One statement, given the reader of the statements in a block. -/
def statement (body : List Char → Reading (List Statement × List Char)) (s : List Char) :
    Reading (Statement × List Char) :=
  otherwise (mapValue .graphAttrs (keywordBlock "graph" s)) fun _ =>
  otherwise (mapValue .nodeDefaults (keywordBlock "node" s)) fun _ =>
  otherwise (mapValue .edgeDefaults (keywordBlock "edge" s)) fun _ =>
  otherwise (subgraph body s) fun _ =>
  declaration s

/-- Statements up to a closing brace or the end of the text. `most` bounds their
number and their nesting; a text has always more characters than it needs. -/
def statements (most : Nat) (s : List Char) : Reading (List Statement × List Char) :=
  match most with
  | 0 => refuse s []
  | most + 1 =>
    match skipSpace s with
    | [] => .ok ([], [])
    | '\x7d' :: rest => .ok ([], '\x7d' :: rest)
    | s => do
      let (first, s) ← statement (statements most) s
      mapValue (first :: ·) (statements most s)

/-- The name and the statements of a whole graph. -/
def graph (s : List Char) : Reading ((String × List Statement) × List Char) := do
  let s := skipSpace s
  if (dropWord? "strict".toList s).isSome then refuseFinally s .notStrict
  else if (dropWord? "graph".toList s).isSome then refuseFinally s .notUndirected
  else
    let (_, s) ← expecting .digraphKeyword (word "digraph" s)
    let s := skipSpace s
    let (id, s) ← optional s (name s)
    let (_, s) ← expecting .openingBrace (char '\x7b' (skipSpace s))
    let (body, s) ← statements (s.length + 1) s
    let (_, s) ← expecting .closingDigraph (char '\x7d' (skipSpace s))
    return ((id.getD "", body), skipSpace s)

end Read

/-!
## What statements declare

Defaults for nodes and edges hold from where they stand to the end of their
block, inner blocks included, and a block's own defaults end with it. Blocks
have no other meaning: the nodes and edges of the whole tree form one list in
textual order, and so do the graph attributes.

Each of the three lists has its own recursion over the statements, since node
defaults concern nodes alone and edge defaults edges alone.
-/

/-- The declared nodes, with the defaults in force where each one stands. -/
def nodesOf (line : Nat → Nat) (defaults : Attrs) : List Statement → List Node
  | [] => []
  | .nodeDefaults attrs :: rest => nodesOf line (defaults.merge attrs) rest
  | .node left id attrs :: rest =>
    ⟨id, defaults.merge attrs, line left⟩ :: nodesOf line defaults rest
  | .subgraph body :: rest => nodesOf line defaults body ++ nodesOf line defaults rest
  | _ :: rest => nodesOf line defaults rest
termination_by body => sizeOf body

def edgesOfChain (line : Nat) (attrs : Attrs) (chain : List String) : List Edge :=
  (chain.zip chain.tail).map fun (source, target) => ⟨source, target, attrs, line⟩

/-- The declared edges, with the defaults in force where each chain stands. -/
def edgesOf (line : Nat → Nat) (defaults : Attrs) : List Statement → List Edge
  | [] => []
  | .edgeDefaults attrs :: rest => edgesOf line (defaults.merge attrs) rest
  | .edges left chain attrs :: rest =>
    edgesOfChain (line left) (defaults.merge attrs) chain ++ edgesOf line defaults rest
  | .subgraph body :: rest => edgesOf line defaults body ++ edgesOf line defaults rest
  | _ :: rest => edgesOf line defaults rest
termination_by body => sizeOf body

/-- The attributes that are set on the graph, in order. -/
def settingsOf : List Statement → List (String × AttrValue)
  | [] => []
  | .graphAttrs attrs :: rest => attrs.entries ++ settingsOf rest
  | .graphAttr key value :: rest => (key, value) :: settingsOf rest
  | .subgraph body :: rest => settingsOf body ++ settingsOf rest
  | _ :: rest => settingsOf rest
termination_by body => sizeOf body

def ofStatements (line : Nat → Nat) (name : String) (body : List Statement) : Digraph where
  name := name
  attrs := Keyed.ofList (settingsOf body)
  nodes := nodesOf line ∅ body
  edges := edgesOf line ∅ body

/-!
## Comments

A graph file may hold comments of three forms: from `//` to the end of the
line, between `/*` and `*/`, and from a `#` that is the first character of its
line apart from white space. They are taken out before anything is read. The
line feeds inside a comment stay, so every remaining character keeps its line
number; nothing between quotes is touched.

`strip` reads the text once, in one of five modes.
-/

/-- Where in the text the reader of comments is. -/
inductive CommentMode where
  /-- Outside; `fresh` while only white space has been seen on the line. -/
  | outside (fresh : Bool)
  /-- In a comment that ends with its line. -/
  | line
  /-- In a comment that ends with `*/`; `star` right after a star in it. -/
  | block (star : Bool)
  /-- Between quotes. -/
  | quoted
  deriving DecidableEq, Repr

def strip : CommentMode → List Char → List Char
  | _, [] => []
  | .outside _, '/' :: '/' :: rest => strip .line rest
  | .outside _, '/' :: '*' :: rest => strip (.block false) rest
  | .outside true, '#' :: rest => strip .line rest
  | .outside _, '"' :: rest => '"' :: strip .quoted rest
  | .outside fresh, c :: rest =>
    c :: strip (.outside (c == '\n' || fresh && Text.isBlank c)) rest
  | .line, '\n' :: rest => '\n' :: strip (.outside true) rest
  | .line, _ :: rest => strip .line rest
  | .block true, '/' :: rest => strip (.outside false) rest
  | .block _, '\n' :: rest => '\n' :: strip (.block false) rest
  | .block _, c :: rest => strip (.block (c == '*')) rest
  | .quoted, '\\' :: c :: rest => '\\' :: c :: strip .quoted rest
  | .quoted, '"' :: rest => '"' :: strip (.outside false) rest
  | .quoted, c :: rest => c :: strip .quoted rest

def stripComments (cs : List Char) : List Char :=
  strip (.outside true) cs

/-!
## Reading a graph file

`Digraph.parse` takes a graph file's text apart: comments out, statements
read, defaults applied. When that fails it says where and why. The place is
told as a line and a column, both from 1, in the text without comments, and
the text that follows is quoted up to forty characters.
-/

/-- Why a text is no graph file. -/
inductive Reason where
  /-- No reading fits. -/
  | unreadable (expected : List Expectation)
  /-- A form of graph that is not supported. -/
  | unsupported (expected : List Expectation)
  /-- Something stands after the closing brace. -/
  | trailing
  deriving DecidableEq, Repr

/-- A text that is no graph file, with the place where reading stopped. -/
structure ParseFault where
  line : Nat
  column : Nat
  reason : Reason
  snippet : Option String
  deriving DecidableEq, Repr

def Expectation.message : Expectation → String
  | .closingQuote => "closing quote"
  | .attributeValue => "attribute value"
  | .graphAttributeValue => "graph attribute value"
  | .edgeTarget => "edge target identifier"
  | .closingBracket => "']'"
  | .openingBrace => "'\x7b'"
  | .closingSubgraph => "'\x7d' closing subgraph"
  | .closingDigraph => "'\x7d' closing digraph"
  | .digraphKeyword => "digraph"
  | .notStrict => "'digraph' keyword (strict graphs are not supported)"
  | .notUndirected => "'digraph' keyword (undirected graphs are not supported)"
  | .directedEdge => "only directed edges (->); undirected edges (--) are not supported"

/-- An expectation as messages list it: a word of the language as such, anything
else as a description. -/
def Expectation.label (e : Expectation) : String :=
  let kind := match e with
    | .digraphKeyword => "StringLiteral"
    | _ => "Description"
  "Expected(" ++ kind ++ "(\"" ++ e.message ++ "\"))"

def contextMessage (expected : List Expectation) : String :=
  "ContextError \x7b context: [" ++ ", ".intercalate (expected.map Expectation.label)
    ++ "], cause: None \x7d"

def Reason.message : Reason → String
  | .unreadable expected => "Parsing Error: " ++ contextMessage expected
  | .unsupported expected => "Parsing Failure: " ++ contextMessage expected
  | .trailing => "trailing content after closing '\x7d'"

/-- The line of the place from which `left` characters of the text remain. -/
def lineAt (source : List Char) (left : Nat) : Nat :=
  (source.take (source.length - left)).count '\n' + 1

def columnAt (source : List Char) (left : Nat) : Nat :=
  ((source.take (source.length - left)).reverse.takeWhile (· ≠ '\n')).length + 1

def snippetOf (rest : List Char) : Option String :=
  if rest.isEmpty then none else some (String.ofList (rest.take 40))

def parseStripped (source : List Char) : Except ParseFault Digraph :=
  match Read.graph source with
  | .error f =>
    .error
      { line := lineAt source f.rest.length
        column := columnAt source f.rest.length
        reason := if f.final then .unsupported f.expected else .unreadable f.expected
        snippet := snippetOf f.rest }
  | .ok ((name, body), rest) =>
    if Text.allBlank rest then .ok (ofStatements (lineAt source) name body)
    else .error ⟨lineAt source rest.length, 1, .trailing, snippetOf rest⟩

def parse (text : String) : Except ParseFault Digraph :=
  parseStripped (stripComments text.toList)

end Pipewright.Digraph
