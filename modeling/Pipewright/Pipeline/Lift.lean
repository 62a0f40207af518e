import Pipewright.Error
import Pipewright.Pipeline.Basic

/-!
# Graph files and pipelines

`Pipeline.ofDigraph` reads the attributes that the engine interprets out of a
graph, and `Pipeline.toDigraph` writes them back. Reading checks every value it
interprets, and that both ends of an edge are declared; the first fault in
textual order is reported, nodes before edges.

Writing spells out the kind, the status and the retry count of every node, and
the other attributes only where they say something. A node that has no shape is
given the one of its kind, for drawing tools.
-/

namespace Pipewright

/-- A value as a text attribute takes it: a text as it is, any other value as it
is written in a graph file. -/
def AttrValue.plain : AttrValue → String
  | .text s => s
  | v => String.ofList (Digraph.renderValue v)

namespace Pipeline

/-! ## Reading -/

/-- A fault in the value of an attribute on a line. -/
def faultAt (line : Nat) (message : String) : Error := .malformed line 0 message none

def textAttr (attrs : Attrs) (key : String) : Option String :=
  (attrs.get? key).map AttrValue.plain

/-- An attribute that is a word of one of the vocabularies. -/
def wordAttr {α : Type} (ofName? : String → Option α) (unknown : String → String)
    (attrs : Attrs) (key : String) (line : Nat) : Except Error (Option α) :=
  match textAttr attrs key with
  | none => .ok none
  | some s =>
    match ofName? s with
    | some a => .ok (some a)
    | none => .error (faultAt line (unknown s))

/-- An attribute that counts something, below `bound`; zero if it is not there. -/
def countAttr (bound : Nat) (attrs : Attrs) (key : String) (line : Nat) : Except Error Nat :=
  match attrs.get? key with
  | none => .ok 0
  | some v =>
    let fault := faultAt line
      (key ++ " must be a non-negative integer, got " ++ String.ofList (Digraph.renderValue v))
    match v.asInt? with
    | some i => if 0 ≤ i.toInt ∧ i.toInt < bound then .ok i.toInt.toNat else .error fault
    | none => .error fault

def flagAttr (attrs : Attrs) (key : String) (line : Nat) : Except Error (Option Bool) :=
  match attrs.get? key with
  | none => .ok none
  | some v =>
    match v.asBool? with
    | some b => .ok (some b)
    | none => .error (faultAt line
        (key ++ " must be true or false, got " ++ String.ofList (Digraph.renderValue v)))

def nodeKeys : List String :=
  ["kind", "status", "handler", "worker_role", "acceptance", "acceptance_hash", "evidence_path",
   "evidence_hash", "retry_count", "bead_ref", "spec_ref", "implemented_by", "impl_completed_at",
   "merge"]

def edgeKeys : List String := ["condition"]

def graphKeys : List String := ["spec_ref", "checkpoint_seq"]

def without (keys : List String) (attrs : Attrs) : Attrs := keys.foldl Keyed.erase attrs

def nodeOf (n : Digraph.Node) : Except Error Node := do
  let kind ← wordAttr Kind.ofName? Kind.unknown n.attrs "kind" n.line
  let status ← wordAttr Status.ofName? Status.unknown n.attrs "status" n.line
  let handler ← wordAttr Handler.ofName? Handler.unknown n.attrs "handler" n.line
  let retries ← countAttr UInt32.size n.attrs "retry_count" n.line
  let merge ← flagAttr n.attrs "merge" n.line
  return {
    id := n.id
    kind := kind.getD (Kind.ofShape ((n.attrs.get? "shape").bind AttrValue.asText?))
    status := status.getD .pending
    handler := handler
    workerRole := textAttr n.attrs "worker_role"
    acceptance := textAttr n.attrs "acceptance"
    acceptanceHash := textAttr n.attrs "acceptance_hash"
    evidencePath := textAttr n.attrs "evidence_path"
    evidenceHash := textAttr n.attrs "evidence_hash"
    retryCount := UInt32.ofNat retries
    beadRef := textAttr n.attrs "bead_ref"
    specRef := textAttr n.attrs "spec_ref"
    implementedBy := textAttr n.attrs "implemented_by"
    implCompletedAt := textAttr n.attrs "impl_completed_at"
    merge := merge.getD true
    extra := without nodeKeys n.attrs
    line := n.line }

/-- An end of an edge has to be declared. -/
def checkEndpoint (ids : List String) (e : Digraph.Edge) (endpoint : String) : Except Error Unit :=
  if ids.contains endpoint then .ok ()
  else .error (.unresolved endpoint
    ("edge " ++ e.source ++ " -> " ++ e.target ++ " on line " ++ Numeral.text e.line
      ++ " has no node statement for '" ++ endpoint ++ "'"))

def edgeOf (ids : List String) (e : Digraph.Edge) : Except Error Edge := do
  checkEndpoint ids e e.source
  checkEndpoint ids e e.target
  let condition ← wordAttr Condition.ofName? Condition.unknown e.attrs "condition" e.line
  return {
    source := e.source
    target := e.target
    condition := condition.getD .unconditional
    extra := without edgeKeys e.attrs
    line := e.line }

def ofDigraph (g : Digraph) : Except Error Pipeline := do
  let seq ← countAttr UInt64.size g.attrs "checkpoint_seq" 1
  let nodes ← g.nodes.mapM nodeOf
  let edges ← g.edges.mapM (edgeOf (nodes.map (·.id)))
  return {
    name := g.name
    specRef := textAttr g.attrs "spec_ref"
    checkpointSeq := UInt64.ofNat seq
    attrs := without graphKeys g.attrs
    nodes := nodes
    edges := edges }

/-! ## Writing -/

/-- The attributes with a text set, if there is one. -/
def putText (key : String) (value : Option String) (attrs : Attrs) : Attrs :=
  match value with
  | some s => attrs.insert key (.text s)
  | none => attrs

/-- The attributes with a value set unless they have one. -/
def putDefault (key : String) (value : AttrValue) (attrs : Attrs) : Attrs :=
  if (attrs.get? key).isSome then attrs else attrs.insert key value

/-- The attributes with `merge` set to false where that is so. -/
def putMerge (merge : Bool) (attrs : Attrs) : Attrs :=
  if merge then attrs else attrs.insert "merge" (.boolean false)

def nodeAttrs (n : Node) : Attrs :=
  putDefault "shape" (.text n.kind.shape) n.extra
    |>.insert "kind" (.text n.kind.name)
    |>.insert "status" (.text n.status.name)
    |>.insert "retry_count" (.integer (Int64.ofNat n.retryCount.toNat))
    |> putText "handler" (n.handler.map Handler.name)
    |> putText "worker_role" n.workerRole
    |> putText "acceptance" n.acceptance
    |> putText "acceptance_hash" n.acceptanceHash
    |> putText "evidence_path" n.evidencePath
    |> putText "evidence_hash" n.evidenceHash
    |> putText "bead_ref" n.beadRef
    |> putText "spec_ref" n.specRef
    |> putText "implemented_by" n.implementedBy
    |> putText "impl_completed_at" n.implCompletedAt
    |> putMerge n.merge

def toNode (n : Node) : Digraph.Node := ⟨n.id, nodeAttrs n, n.line⟩

def edgeAttrs (e : Edge) : Attrs :=
  if e.condition = .unconditional then e.extra
  else e.extra.insert "condition" (.text e.condition.name)

def toEdge (e : Edge) : Digraph.Edge := ⟨e.source, e.target, edgeAttrs e, e.line⟩

/-- The attributes of the graph. The sequence number is written as a number of 64
bits with sign, so one from `2 ^ 63` on comes out negative. -/
def graphAttrs (p : Pipeline) : Attrs :=
  (putText "spec_ref" p.specRef p.attrs).insert "checkpoint_seq" (.integer p.checkpointSeq.toInt64)

def toDigraph (p : Pipeline) : Digraph :=
  ⟨p.name, graphAttrs p, p.nodes.map toNode, p.edges.map toEdge⟩

/-! ## Texts -/

def parse (text : String) : Except Error Pipeline :=
  Digraph.read text >>= ofDigraph

def render (p : Pipeline) : String := p.toDigraph.render

end Pipeline

end Pipewright
