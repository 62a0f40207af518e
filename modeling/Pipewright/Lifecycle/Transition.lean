import Pipewright.Engine
import Pipewright.Pipeline.Basic
import Pipewright.Pipeline.Lift
import Pipewright.Pipeline.Lint
import Pipewright.Store.Basic
import Pipewright.Time

/-!
# The life of a node

The audit log and the graph file, the guards that a request has to pass, the transition that they
let through, and the checkpoints that are taken of a graph file.
-/

/-!
## The audit log

Every step of a node leaves a record in the audit log, in order. The log is only
ever added to, and a node's history is what it says about that node.
-/

namespace Pipewright

/-- What the audit log says about one step. -/
structure AuditRecord where
  timestamp : String
  node : String
  source : Status
  target : Status
  actor : String
  evidenceHash : Option String
  deriving DecidableEq, Repr

namespace AuditRecord

def fieldNames : List String :=
  ["timestamp", "node_id", "from", "to", "actor", "evidence_hash"]

def ofDocument? (d : Json.Document) : Option AuditRecord := do
  match ← Json.recordFields fieldNames d with
  | [timestamp, node, source, target, actor, evidenceHash] =>
    return {
      timestamp := ← Json.required Json.asText timestamp
      node := ← Json.required Json.asText node
      source := ← Json.required (Json.asWord Status.ofName?) source
      target := ← Json.required (Json.asWord Status.ofName?) target
      actor := ← Json.required Json.asText actor
      evidenceHash := ← Json.optionalField Json.asText evidenceHash }
  | _ => none

def toJson (r : AuditRecord) : Json := .object
  [("timestamp", .text r.timestamp), ("node_id", .text r.node), ("from", .text r.source.name),
   ("to", .text r.target.name), ("actor", .text r.actor),
   ("evidence_hash", .ofText? r.evidenceHash)]

end AuditRecord

namespace AuditLog

def append (path : String) (r : AuditRecord) : Action Unit :=
  Action.appendRecord path r.toJson

def all (path : String) : Action (List AuditRecord) :=
  Action.readLog AuditRecord.ofDocument? path

def history (path node : String) : Action (List AuditRecord) := do
  return (← all path).filter (·.node = node)

end AuditLog

end Pipewright

/-!
## Graph files

A pipeline lives in a graph file. Every time it is saved its sequence number
grows by one, so that two different states of a file never bear the same number.
-/

namespace Pipewright.GraphFile

def load (path : String) : Action Pipeline := do
  let text ← Action.reading (·.readText path)
  Action.ofExcept (Pipeline.parse text)

def bumped (p : Pipeline) : Pipeline := { p with checkpointSeq := p.checkpointSeq + 1 }

/-- A pipeline is saved; the answer is the pipeline as the file has it. -/
def save (path : String) (p : Pipeline) : Action Pipeline := do
  let p := bumped p
  Action.replaceFile path p.render.toUTF8
  return p

end Pipewright.GraphFile

/-!
## Guards

A legal step of a node may still be refused. The guards look at the node, at who
asks and at the evidence that is brought, in a fixed order, and the first one
that refuses answers with a `Guard.Refusal`. Where all agree, the answer is what
the step adds to the node besides its status.

- An accepted text stays what it was when the node was first validated.
- Only work is merged, and only work that is not marked otherwise.
- Nobody judges what he has implemented himself.
- Validation needs evidence that is not older than the implementation.
-/

namespace Pipewright.Guard

open Pipeline (Node)

/-- Why a guard refuses a step. -/
inductive Refusal where
  | unpinned (status : Status)
  | acceptanceChanged
  | notWork (kind : Kind)
  | notForMerging
  | ownWork (actor : String)
  | noEvidence
  | missingEvidence (path : String)
  | staleEvidence (path : String) (modified completed : Instant)
  deriving DecidableEq, Repr

namespace Refusal

def rule : Refusal → String
  | unpinned _ => "acceptance_immutable"
  | acceptanceChanged => "acceptance_immutable"
  | notWork _ => "merge_eligibility"
  | notForMerging => "merge_eligibility"
  | ownWork _ => "separation"
  | noEvidence => "evidence_required"
  | missingEvidence _ => "evidence_missing"
  | staleEvidence .. => "evidence_stale"

def message : Refusal → String
  | unpinned status => "node is " ++ status.name ++ " but has no acceptance_hash"
  | acceptanceChanged => "acceptance criteria changed after the node was first validated"
  | notWork kind => "only work nodes can merge, this node is " ++ kind.name
  | notForMerging => "node is marked merge=false"
  | ownWork actor => "'" ++ actor ++ "' implemented this node and cannot judge it"
  | noEvidence => "validation requires an evidence file"
  | missingEvidence path => "evidence file " ++ path ++ " does not exist"
  | staleEvidence path modified completed =>
    "evidence " ++ path ++ " was last modified at " ++ modified.text
      ++ " before implementation completed at " ++ completed.text

def toError (r : Refusal) (n : Node) : Error := .guardRail n.id r.rule r.message

end Refusal

/-! ### What the node itself says -/

/-- The acceptance text is the one that the node is pinned to. -/
def checkAcceptance (n : Node) : Except Refusal Unit :=
  match n.acceptanceHash with
  | none => if n.requiresPin then .error (.unpinned n.status) else .ok ()
  | some pin => if n.digest = some pin then .ok () else .error .acceptanceChanged

/-- A step towards merging is one of a node that can be merged. -/
def checkMerging (n : Node) (target : Status) : Except Refusal Unit :=
  if target = .mergeReady ∨ target = .merged then
    if n.kind ≠ .work then .error (.notWork n.kind)
    else if !n.merge then .error .notForMerging
    else .ok ()
  else .ok ()

/-- A judgement on an implementation is not asked for by its author. -/
def checkSeparation (n : Node) (target : Status) (actor : String) : Except Refusal Unit :=
  if n.status = .implComplete ∧ (target = .validated ∨ target = .failed)
      ∧ n.implementedBy = some actor then
    .error (.ownWork actor)
  else .ok ()

/-! ### Evidence -/

/-- How much older than the implementation evidence may be, in seconds. -/
def slack : Int := 2

/-- The time at which the implementation was completed, if the node has one. -/
def completedAt (n : Node) : Except Error (Option Instant) :=
  match n.implCompletedAt with
  | none => .ok none
  | some raw =>
    match Rfc3339.parse raw with
    | .ok t => .ok (some t)
    | .error fault => .error (.other
        ("node '" ++ n.id ++ "' has an unreadable impl_completed_at '" ++ raw ++ "': "
          ++ fault.message))

def fileDigest (s : Store) (path : String) : Except Error String :=
  match s.readBytes path with
  | .ok bytes => .ok (sha256 bytes)
  | .error fault => .error (.file fault)

/-- The digest of evidence that is there and not older than the implementation. -/
def freshEvidence (s : Store) (n : Node) (path : String) : Except Error String :=
  match s.modified? path with
  | none => .error ((Refusal.missingEvidence path).toError n)
  | some modified => do
    match ← completedAt n with
    | none => fileDigest s path
    | some completed =>
      if (modified.plusSeconds slack).before completed then
        .error ((Refusal.staleEvidence path modified completed).toError n)
      else fileDigest s path

/-- What a step adds to a node besides its status. -/
structure Effects where
  /-- Where the evidence is, if the node is to keep it. -/
  evidencePath : Option String := none
  evidenceHash : Option String := none
  /-- The digest that the node is pinned to from now on. -/
  acceptanceHash : Option String := none
  deriving DecidableEq, Repr

/-- What follows from the evidence. For a step other than to validation it is only
noted, and it may be of any age. -/
def checkEvidence (s : Store) (n : Node) (target : Status) (evidence : Option String) :
    Except Error Effects :=
  match evidence with
  | none => if target = .validated then .error (Refusal.noEvidence.toError n) else .ok {}
  | some path =>
    if target = .validated then do
      let hash ← freshEvidence s n path
      return {
        evidencePath := some path
        evidenceHash := some hash
        acceptanceHash := if n.acceptanceHash.isNone then n.digest else none }
    else if s.isFile path then do
      return { evidenceHash := some (← fileDigest s path) }
    else .error ((Refusal.missingEvidence path).toError n)

/-- All guards, for a step of a node to a status. -/
def check (s : Store) (n : Node) (target : Status) (actor : String) (evidence : Option String) :
    Except Error Effects := do
  (checkAcceptance n).mapError (·.toError n)
  (checkMerging n target).mapError (·.toError n)
  (checkSeparation n target actor).mapError (·.toError n)
  checkEvidence s n target evidence

end Pipewright.Guard

/-!
## Transitions

The status of a node changes in one way only: by a `Request`, under the lock of
the graph file. `Pipeline.judge` decides what becomes of a request without
touching anything; `transition` reads the graph, writes the audit record and then
the graph, and so does nothing at all if the request is refused.

A request to take up a failed node whose retries are used up is refused too, but
not without a trace: the node becomes stuck.
-/

namespace Pipewright

/-- Someone asks for a step of a node. -/
structure Request where
  node : String
  target : Status
  actor : String
  evidence : Option String := none
  deriving DecidableEq, Repr

namespace Pipeline

inductive Verdict where
  /-- The step is made. -/
  | granted (after : Pipeline) (record : AuditRecord)
  /-- The node is out of retries and becomes stuck. -/
  | exhausted (after : Pipeline) (record : AuditRecord) (attempts : UInt32)
  deriving DecidableEq

/-- A node after a step that the guards have let pass. -/
def Node.advance (n : Node) (q : Request) (effects : Guard.Effects) (now : Instant) : Node :=
  { n with
    status := q.target
    retryCount :=
      if n.status = .failed ∧ q.target = .active then n.retryCount + 1 else n.retryCount
    implementedBy :=
      if q.target = .active ∨ q.target = .implComplete then some q.actor else n.implementedBy
    implCompletedAt :=
      if q.target = .implComplete then some now.stamp else n.implCompletedAt
    evidencePath := if effects.evidencePath.isSome then effects.evidencePath else n.evidencePath
    evidenceHash := if effects.evidencePath.isSome then effects.evidenceHash else n.evidenceHash
    acceptanceHash :=
      if effects.acceptanceHash.isSome then effects.acceptanceHash else n.acceptanceHash }

/-- What becomes of a request to step a node of a pipeline. The faults are looked for
in this order: there is no such node, the step is not a legal one, the pipeline is
not valid, the retries are used up, a guard refuses. -/
def judge (p : Pipeline) (maxRetries : UInt32) (s : Store) (now : Instant) (q : Request) :
    Except Error Verdict := do
  match p.node? q.node with
  | none => throw (.nodeNotFound q.node)
  | some n =>
    if !n.status.canBecome q.target then
      throw (.illegalTransition q.node n.status.name q.target.name)
    p.requireValid
    let record (target : Status) (evidenceHash : Option String) : AuditRecord :=
      ⟨now.stamp, q.node, n.status, target, q.actor, evidenceHash⟩
    if n.status = .failed ∧ maxRetries ≤ n.retryCount then
      return .exhausted (p.modify q.node ({ · with status := .stuck })) (record .stuck none)
        n.retryCount
    let effects ← Guard.check s n q.target q.actor q.evidence
    return .granted (p.modify q.node (·.advance q effects now))
      (record q.target effects.evidenceHash)

end Pipeline

/-- What transitions need to know of the configuration. -/
structure Engine where
  auditLog : String
  maxRetries : UInt32
  lockPolicy : LockPolicy
  deriving DecidableEq, Repr

namespace Engine

def ofConfig (c : Config) : Engine := ⟨c.auditLog, c.maxRetries, c.lockPolicy⟩

/-- The steps of `transition` under the lock. -/
def transitionLocked (e : Engine) (graph : String) (q : Request) : Action AuditRecord := do
  let p ← GraphFile.load graph
  match ← Action.ofExcept (p.judge e.maxRetries (← get) (← Action.now) q) with
  | .granted after record =>
    AuditLog.append e.auditLog record
    let _ ← GraphFile.save graph after
    return record
  | .exhausted after record attempts =>
    AuditLog.append e.auditLog record
    let _ ← GraphFile.save graph after
    throw (.retriesExhausted q.node attempts.toNat)

/-- A request is carried out on a graph file; the answer is what the audit log says
about it. -/
def transition (e : Engine) (graph : String) (q : Request) : Action AuditRecord :=
  Action.withLock graph e.lockPolicy (e.transitionLocked graph q)

end Engine

end Pipewright

/-!
## Checkpoints

A checkpoint is a copy of a graph file under a name that holds the stem of the
file and the sequence number of the state. The number is filled up with zeros to
six digits; one that needs more has more, and so the order of checkpoints is that
of the numbers and not that of the names.
-/

namespace Pipewright.Checkpoint

/-- What the checkpoints of a graph file are called by. -/
def stem (graph : String) : String := (Path.stem? graph).getD "pipeline"

def name (stem : String) (seq : Nat) : String :=
  stem ++ "-" ++ Numeral.padded 6 seq ++ ".dot"

/-- What is left of a text after its beginning. -/
def dropFront? : List Char → List Char → Option (List Char)
  | [], s => some s
  | c :: front, d :: s => if c = d then dropFront? front s else none
  | _ :: _, [] => none

/-- What is left of a text before its end. -/
def dropBack? (back s : List Char) : Option (List Char) :=
  (dropFront? back.reverse s.reverse).map List.reverse

/-- The sequence number in the name of a checkpoint of a stem. -/
def seq? (stem name : String) : Option Nat := do
  let rest ← dropFront? (stem.toList ++ ['-']) name.toList
  let digits ← dropBack? ".dot".toList rest
  return (← Numeral.uint64? digits).toNat

/-- The graph is saved and copied into a directory; the answer is the path of the
copy. -/
def save (graph dir : String) (policy : LockPolicy) : Action String :=
  Action.withLock graph policy do
    let p ← GraphFile.save graph (← GraphFile.load graph)
    let path := Path.join dir (name (stem graph) p.checkpointSeq.toNat)
    Action.replaceFile path p.render.toUTF8
    return path

def ordered (a b : Nat × String) : Bool :=
  a.1 < b.1 || (a.1 == b.1 && decide (a.2 ≤ b.2))

/-- The checkpoints of a graph file in a directory with their numbers, in order. -/
def all (graph dir : String) : Action (List (Nat × String)) := do
  let names := (← Action.readingIfThere (·.list dir)).getD []
  let found := names.filterMap fun n => (seq? (stem graph) n).map (·, Path.join dir n)
  return found.mergeSort ordered

/-- The last checkpoint of a graph file in a directory. -/
def latest (graph dir : String) : Action (Option String) := do
  return (← all graph dir).getLast?.map (·.2)

end Pipewright.Checkpoint
