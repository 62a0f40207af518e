import Pipewright.Decimal
import Pipewright.Keyed
import Pipewright.Text

/-!
# Graph files

What a graph file says, and the text that is written of it.
-/

/-!
## Graph files as data

What a graph file says once its text has been read: a name, attributes, and
declared nodes and edges in textual order. Nothing is interpreted here; a node
may be declared twice, an edge may name a node that does not exist, and any key
may carry any value.
-/

namespace Pipewright

inductive AttrValue where
  | text (s : String)
  | integer (i : Int64)
  | real (x : Binary64)
  | boolean (b : Bool)
  deriving DecidableEq

namespace AttrValue

def asText? : AttrValue → Option String
  | text s => some s
  | _ => none

/-- A whole number, also one written as text with blanks around it. -/
def asInt? : AttrValue → Option Int64
  | integer i => some i
  | text s => Numeral.int64? (Text.trim s.toList)
  | _ => none

def asBool? : AttrValue → Option Bool
  | boolean b => some b
  | text "true" => some true
  | text "false" => some false
  | _ => none

end AttrValue

abbrev Attrs := Keyed AttrValue

namespace Digraph

/-- A declared node; `line` is the line its statement starts on, from 1. -/
structure Node where
  id : String
  attrs : Attrs
  line : Nat
  deriving DecidableEq

/-- A declared edge; all edges of one chain share its attributes and its line. -/
structure Edge where
  source : String
  target : String
  attrs : Attrs
  line : Nat
  deriving DecidableEq

end Digraph

structure Digraph where
  name : String
  attrs : Attrs
  nodes : List Digraph.Node
  edges : List Digraph.Edge
  deriving DecidableEq

namespace Digraph

def unlined (g : Digraph) : Digraph :=
  { g with
    nodes := g.nodes.map fun n => { n with line := 0 }
    edges := g.edges.map fun e => { e with line := 0 } }

end Digraph

end Pipewright

/-!
## Writing a graph file

`Digraph.render` gives a graph its one text: graph attributes first, then nodes
and edges as they were declared, attributes by key. Texts are always quoted,
names only where they have to be. Inside quotes exactly three characters are
escaped, the backslash, the quote and the line feed, so that a text never
leaves its line.
-/

namespace Pipewright.Digraph

def isWordChar (c : Char) : Bool :=
  c.isAlphanum || c == '_'

def isWordStart (c : Char) : Bool :=
  c.isAlpha || c == '_'

/-- The words with a meaning of their own; as names they are quoted. -/
def keywords : List String :=
  ["graph", "node", "edge", "subgraph", "digraph", "strict"]

def escapeChar (c : Char) : List Char :=
  if c = '\\' then ['\\', '\\']
  else if c = '"' then ['\\', '"']
  else if c = '\n' then ['\\', 'n']
  else [c]

def escape (cs : List Char) : List Char :=
  cs.flatMap escapeChar

def quote (cs : List Char) : List Char :=
  '"' :: escape cs ++ ['"']

def isBareName (cs : List Char) : Bool :=
  match cs with
  | [] => false
  | c :: rest => isWordStart c && rest.all isWordChar && !keywords.contains (String.ofList cs)

/-- A name, in quotes unless it can stand without. -/
def renderId (id : String) : List Char :=
  if isBareName id.toList then id.toList else quote id.toList

def renderValue : AttrValue → List Char
  | .text s => quote s.toList
  | .integer i => (Numeral.intText i.toInt).toList
  | .real x => (NumberForm.graph.render x).toList
  | .boolean b => (toString b).toList

def renderAttrs (attrs : Attrs) : List Char :=
  [',', ' '].intercalate
    (attrs.entries.map fun e => e.1.toList ++ '=' :: renderValue e.2)

/-- An attribute block behind a blank; nothing where there is no attribute. -/
def renderBlock (attrs : Attrs) : List Char :=
  if attrs.isEmpty then [] else ' ' :: '[' :: renderAttrs attrs ++ [']']

def indent : List Char := "    ".toList

def renderNode (n : Node) : List Char :=
  indent ++ renderId n.id ++ renderBlock n.attrs ++ ['\n']

def renderEdge (e : Edge) : List Char :=
  indent ++ renderId e.source ++ " -> ".toList ++ renderId e.target ++ renderBlock e.attrs ++ ['\n']

def renderOpening (name : String) : List Char :=
  if name.isEmpty then "digraph \x7b\n".toList
  else "digraph ".toList ++ renderId name ++ " \x7b\n".toList

/-- The line of the graph attributes, and a blank line after it. -/
def renderGraphAttrs (attrs : Attrs) : List Char :=
  if attrs.isEmpty then []
  else indent ++ "graph".toList ++ renderBlock attrs ++ "\n\n".toList

def renderChars (g : Digraph) : List Char :=
  renderOpening g.name ++ renderGraphAttrs g.attrs
    ++ g.nodes.flatMap renderNode
    ++ (if !g.nodes.isEmpty && !g.edges.isEmpty then ['\n'] else [])
    ++ g.edges.flatMap renderEdge
    ++ "\x7d\n".toList

def render (g : Digraph) : String :=
  String.ofList (renderChars g)

end Pipewright.Digraph
