import Pipewright.Digest.Sha256
import Pipewright.Digraph.Basic

/-!
# Pipelines and their nodes

The words of a pipeline, its nodes and edges, and the nodes that are ready to be worked on.
-/

/-!
## The vocabulary of pipelines

The four closed word lists of a pipeline: what a node is for, where it stands
in its life, who carries it out, and when an edge is followed. Each word has one
spelling, `name`, and is read back by `ofName?`; a word in no list is an error
of whoever wrote it, with the text of `unknown`.
-/

namespace Pipewright

inductive Kind where
  | start
  | exitSuccess
  | exitFailure
  | work
  | gate
  | decision
  deriving DecidableEq, Repr

namespace Kind

def all : List Kind := [start, exitSuccess, exitFailure, work, gate, decision]

def name : Kind → String
  | start => "start"
  | exitSuccess => "exit-success"
  | exitFailure => "exit-failure"
  | work => "work"
  | gate => "validation-gate"
  | decision => "decision"

def ofName? (s : String) : Option Kind := all.find? (·.name = s)

/-- What is said of a text that is the word for no kind. -/
def unknown (s : String) : String := "unknown node kind '" ++ s ++ "'"

/-- The shape in which a drawing shows the kind. Both exits look the same. -/
def shape : Kind → String
  | start => "Mdiamond"
  | exitSuccess => "Msquare"
  | exitFailure => "Msquare"
  | decision => "diamond"
  | gate => "hexagon"
  | work => "box"

/-- The kind that a shape suggests where none is named; work if nothing does. -/
def ofShape : Option String → Kind
  | some "Mdiamond" => start
  | some "Msquare" => exitSuccess
  | some "diamond" => decision
  | some "hexagon" => gate
  | _ => work

/-- The pipeline ends at a node of the kind. -/
def isExit : Kind → Bool
  | exitSuccess => true
  | exitFailure => true
  | _ => false

end Kind

/-- Where a node stands in its life. -/
inductive Status where
  | pending
  | active
  | implComplete
  | validated
  | failed
  | mergeReady
  | merged
  | stuck
  deriving DecidableEq, Repr

namespace Status

def all : List Status :=
  [pending, active, implComplete, validated, failed, mergeReady, merged, stuck]

def name : Status → String
  | pending => "pending"
  | active => "active"
  | implComplete => "impl_complete"
  | validated => "validated"
  | failed => "failed"
  | mergeReady => "merge_ready"
  | merged => "merged"
  | stuck => "stuck"

def ofName? (s : String) : Option Status := all.find? (·.name = s)

/-- What is said of a text that is the word for no status. -/
def unknown (s : String) : String := "unknown node status '" ++ s ++ "'"

def rank (s : Status) : Nat := all.idxOf s

/-- The status satisfies the nodes that wait for it. -/
def isSuccess : Status → Bool
  | validated => true
  | merged => true
  | _ => false

/-- The statuses that may be asked for next. A failed node becomes stuck too, but
only by running out of retries and never on request. -/
def targets : Status → List Status
  | pending => [active]
  | active => [implComplete]
  | implComplete => [validated, failed]
  | failed => [active]
  | validated => [mergeReady]
  | mergeReady => [merged]
  | merged => []
  | stuck => []

def canBecome (s t : Status) : Bool := s.targets.contains t

end Status

inductive Handler where
  | delegated
  | tool
  deriving DecidableEq, Repr

namespace Handler

def all : List Handler := [delegated, tool]

def name : Handler → String
  | delegated => "delegated"
  | tool => "tool"

def ofName? (s : String) : Option Handler := all.find? (·.name = s)

/-- What is said of a text that is the word for no handler. -/
def unknown (s : String) : String := "unknown handler '" ++ s ++ "'"

end Handler

inductive Condition where
  | unconditional
  | onSuccess
  | onFailure
  deriving DecidableEq, Repr

namespace Condition

def all : List Condition := [unconditional, onSuccess, onFailure]

def name : Condition → String
  | unconditional => "unconditional"
  | onSuccess => "on-success"
  | onFailure => "on-failure"

def ofName? (s : String) : Option Condition := all.find? (·.name = s)

/-- What is said of a text that is the word for no condition. -/
def unknown (s : String) : String := "unknown edge condition '" ++ s ++ "'"

/-- Work flows forward along an edge with the condition; the others lead back
after a failure. -/
def isForward : Condition → Bool
  | onFailure => false
  | _ => true

end Condition

/-!
## Pipelines

A pipeline is a graph whose nodes have a kind and a status and whose edges have
a condition. It is what a graph file means once the attributes that the engine
interprets have been read out of it; all other attributes stay as they are, in
`extra`.

Ids need not be unique here. `Pipeline.node?` finds the node declared first,
and it is that one which an operation on the id reads and changes.
-/

namespace Pipeline

structure Node where
  id : String
  kind : Kind
  status : Status := .pending
  handler : Option Handler := none
  workerRole : Option String := none
  /-- What has to hold for the node to be accepted. -/
  acceptance : Option String := none
  /-- The digest of the acceptance text at the time it was first validated. -/
  acceptanceHash : Option String := none
  evidencePath : Option String := none
  evidenceHash : Option String := none
  retryCount : UInt32 := 0
  beadRef : Option String := none
  specRef : Option String := none
  /-- Who carried the node out last. -/
  implementedBy : Option String := none
  /-- When its implementation was last reported complete. -/
  implCompletedAt : Option String := none
  /-- The work of the node is to be merged. -/
  merge : Bool := true
  /-- The attributes that are not interpreted. -/
  extra : Attrs := ∅
  /-- The line of its statement; 0 for a node not read from a file. -/
  line : Nat := 0
  deriving DecidableEq

namespace Node

/-- A node of work for a role, with its acceptance text. -/
def work (id role acceptance : String) : Node :=
  { id, kind := .work, workerRole := some role, acceptance := some acceptance,
    handler := some .delegated }

/-- The digest of the acceptance text as it stands. -/
def digest (n : Node) : Option String := n.acceptance.map sha256Text

def integrates (n : Node) : Bool := n.kind == .work && n.merge

def isTerminal (n : Node) : Bool :=
  match n.status with
  | .merged => true
  | .stuck => true
  | .validated => !n.integrates
  | _ => false

/-- A node of work that has been accepted has to be pinned to its acceptance text. -/
def requiresPin (n : Node) : Bool :=
  n.kind == .work && (n.status == .validated || n.status == .mergeReady || n.status == .merged)

end Node

structure Edge where
  source : String
  target : String
  condition : Condition := .unconditional
  extra : Attrs := ∅
  line : Nat := 0
  deriving DecidableEq

end Pipeline

structure Pipeline where
  name : String
  specRef : Option String := none
  /-- How often the pipeline has been saved. -/
  checkpointSeq : UInt64 := 0
  attrs : Attrs := ∅
  nodes : List Pipeline.Node := []
  edges : List Pipeline.Edge := []
  deriving DecidableEq

namespace Pipeline

/-- The ids of the nodes, as often as they are declared. -/
def ids (p : Pipeline) : List String := p.nodes.map (·.id)

def node? (p : Pipeline) (id : String) : Option Node := p.nodes.find? (·.id = id)

/-- The nodes with the first one of the id replaced by its image. -/
def modifyFirst (id : String) (f : Node → Node) : List Node → List Node
  | [] => []
  | n :: rest => if n.id = id then f n :: rest else n :: modifyFirst id f rest

/-- The pipeline with the node of the id replaced by its image. -/
def modify (p : Pipeline) (id : String) (f : Node → Node) : Pipeline :=
  { p with nodes := modifyFirst id f p.nodes }

def addNode (p : Pipeline) (n : Node) : Pipeline := { p with nodes := p.nodes ++ [n] }

def addEdge (p : Pipeline) (e : Edge) : Pipeline := { p with edges := p.edges ++ [e] }

def outgoing (p : Pipeline) (id : String) : List Edge := p.edges.filter (·.source = id)

def incoming (p : Pipeline) (id : String) : List Edge := p.edges.filter (·.target = id)

def forwardPredecessors (p : Pipeline) (id : String) : List String :=
  ((p.incoming id).filter (·.condition.isForward)).map (·.source)

def ofKind (p : Pipeline) (k : Kind) : List Node := p.nodes.filter (·.kind = k)

def starts (p : Pipeline) : List Node := p.ofKind .start

def exits (p : Pipeline) : List Node := p.nodes.filter (·.kind.isExit)

def isComplete (p : Pipeline) : Bool := (p.ofKind .work).all (·.isTerminal)

end Pipeline

end Pipewright

/-!
## Readiness

A pending node is ready once every node it waits for has succeeded. Start and
exit nodes are marks and never ready themselves; a start node counts as having
succeeded. `Pipeline.summary` is the short account of a pipeline that people
and programs ask for.
-/

namespace Pipewright.Pipeline

/-- The node with the id lets the nodes that wait for it go on. -/
def isSatisfied (p : Pipeline) (id : String) : Bool :=
  match p.node? id with
  | some n => n.kind == .start || n.status.isSuccess
  | none => false

/-- The node is one that can be handed out at all. -/
def Node.isCandidate (n : Node) : Bool :=
  n.status == .pending && n.kind != .start && !n.kind.isExit

def isReady (p : Pipeline) (n : Node) : Bool :=
  n.isCandidate && (p.forwardPredecessors n.id).all p.isSatisfied

/-- The texts of a list, each at its first place only. -/
def distinct (l : List String) : List String :=
  l.foldl (fun seen s => if seen.contains s then seen else seen ++ [s]) []

/-- The ids of the nodes that can be handed out, in order of declaration. -/
def dispatchable (p : Pipeline) : List String :=
  distinct ((p.nodes.filter p.isReady).map (·.id))

/-- A short account of a pipeline. -/
structure Summary where
  name : String
  checkpointSeq : UInt64
  /-- How many nodes have each status; statuses of no node are left out. -/
  counts : List (Status × Nat)
  dispatchable : List String
  stuck : List String
  complete : Bool
  deriving DecidableEq

/-- How many nodes have each status, in the order of the statuses. -/
def counts (p : Pipeline) : List (Status × Nat) :=
  (Status.all.map fun s => (s, (p.nodes.filter (·.status = s)).length)).filter (·.2 ≠ 0)

def summary (p : Pipeline) : Summary where
  name := p.name
  checkpointSeq := p.checkpointSeq
  counts := p.counts
  dispatchable := p.dispatchable
  stuck := (p.nodes.filter (·.status = .stuck)).map (·.id)
  complete := p.isComplete

end Pipewright.Pipeline
