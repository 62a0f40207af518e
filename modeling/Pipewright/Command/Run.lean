import Pipewright.Command.Invocation
import Pipewright.Hook.Rack
import Pipewright.Json.Document
import Pipewright.Lifecycle.Transition
import Pipewright.Merge.Queue
import Pipewright.Pipeline.Lint
import Pipewright.Signal.Mailbox

/-!
# Commands

What a command reports, and how it is run.
-/

/-!
## Reports

What the program says about a pipeline, as JSON. Some reports have their fields in
an order of their own, the others in that of the names; `Json.sorted` is for
those.
-/

namespace Pipewright

namespace Json

def sortFields (fields : List (String × Json)) : List (String × Json) :=
  fields.foldl (fun acc f => setField f.1 f.2 acc) []

mutual

/-- The value with the fields of all its objects in ascending order. -/
def sorted : Json → Json
  | list items => list (sortedItems items)
  | object fields => object (sortFields (sortedFields fields))
  | v => v

/-- The items with the fields of all their objects in ascending order. -/
def sortedItems : List Json → List Json
  | [] => []
  | v :: rest => sorted v :: sortedItems rest

/-- The fields with those of all objects in them in ascending order. -/
def sortedFields : List (String × Json) → List (String × Json)
  | [] => []
  | (k, v) :: rest => (k, sorted v) :: sortedFields rest

end

end Json

namespace Pipeline

def Finding.toJson (f : Finding) : Json := .object <|
  [("rule", .text f.rule), ("severity", .text (if f.isAdvice then "warning" else "error")),
   ("message", .text f.message)]
  ++ (match f.node? with
    | some id => [("node_id", .text id)]
    | none => [])
  ++ (match f.edge? with
    | some (source, target) => [("edge", .texts [source, target])]
    | none => [])

def validationReport (p : Pipeline) : Json := .object
  [("valid", .boolean p.isValid), ("errors", .list (p.errors.map Finding.toJson)),
   ("warnings", .list (p.warnings.map Finding.toJson))]

def Summary.toJson (s : Summary) : Json := .object
  [("name", .text s.name), ("checkpoint_seq", .nat s.checkpointSeq.toNat),
   ("counts", .object (s.counts.map fun (k, n) => (k.name, .nat n))),
   ("dispatchable", .texts s.dispatchable), ("stuck", .texts s.stuck),
   ("complete", .boolean s.complete)]

def outline (p : Pipeline) : Json := .object
  [("name", .text p.name), ("spec_ref", .ofText? p.specRef),
   ("checkpoint_seq", .nat p.checkpointSeq.toNat),
   ("nodes", .list (p.nodes.map fun n => .object
     [("id", .text n.id), ("kind", .text n.kind.name), ("status", .text n.status.name),
      ("worker_role", .ofText? n.workerRole), ("retry_count", .nat n.retryCount.toNat),
      ("implemented_by", .ofText? n.implementedBy)])),
   ("edges", .list (p.edges.map fun e => .object
     [("from", .text e.source), ("to", .text e.target), ("condition", .text e.condition.name)]))]

end Pipeline

end Pipewright

/-!
## Running commands

Every command answers with one JSON value, in indented layout if all is well and
on one line if not. The exit code is 0, or 1 if the answer is a refusal that was
to be reckoned with, or 2 if something else is wrong.

Waiting for a signal is one look at the mailbox here. Who wants to wait runs the
command again until it has an answer or the time is up.
-/

namespace Pipewright.Command

def versionText : String := "relay 0.1.0\n"

inductive Reply where
  | shown (v : Json) (exitCode : Nat)
  /-- There was no signal for so many thousandths of a second. -/
  | timeout (waited : Nat)
  /-- The payload of a signal is no JSON. -/
  | badPayload
  | failed (e : Error)

namespace Reply

/-- A value that is shown in the order of its fields. -/
def plain (v : Json) : Reply := .shown v 0

/-- A value that is shown with its fields in the order of their names. -/
def ordered (v : Json) : Reply := .shown v.sorted 0

/-- An error in words, with the cause repeated behind it where there is one. -/
def causeText (e : Error) : String :=
  match e with
  | .file fault => e.message ++ ": " ++ fault.message
  | _ => e.message

def errorText (kind message : String) : String :=
  (Json.object [("error", .text kind), ("message", .text message)]).compact ++ "\n"

/-- What is printed. Nothing is, where a time left the calendar. -/
def text : Reply → String
  | shown v _ => v.pretty ++ "\n"
  | timeout waited =>
    (Json.object [("timeout", .boolean true), ("waited_ms", .nat waited)]).compact ++ "\n"
  | badPayload => errorText "other" "--payload is not valid JSON"
  | failed .timeRange => ""
  | failed e => errorText e.kind (causeText e)

def exitCode : Reply → Nat
  | shown _ code => code
  | timeout _ => 1
  | badPayload => 2
  | failed .timeRange => 101
  | failed e => e.exitCode

end Reply

/-- A value whose parts are shown as a list. -/
def listed {α : Type} (f : α → Json) (l : List α) : Reply := .plain (.list (l.map f))

/-- The identities that are stale, and those behind them whose process has gone. -/
def staleOrDead (r : Registry) (timeout : Span) : Action (List Identity) := do
  let stale ← r.findStale timeout
  let dead ← r.findDead
  return dead.foldl (fun l i => if l.any (·.id = i.id) then l else l ++ [i]) stale

/-- The hook with a key, which has to be there. -/
def hookOf (r : Rack) (id : String) : Action Hook := do
  match ← r.read? id with
  | some hook => return hook
  | none => throw (.hookNotFound id)

/-- The exit code that goes with an outcome of merging. -/
def outcomeCode : Merge.Outcome → Nat
  | .conflict .. => 1
  | .blocked _ => 1
  | _ => 0

/-- What is done with the merge queue, is done. -/
def MergeVerb.run (q : MergeQueue) : MergeVerb → Action Reply
  | enqueue identity branch node => return .plain (← q.enqueue identity branch node).toJson
  | next => do
    let outcome ← Action.ofExcept (← q.process).outcome
    return .shown outcome.toJson (outcomeCode outcome)
  | list true => return listed Merge.Archived.toJson (← q.archived)
  | list false => return listed Merge.Entry.toJson (← q.entries)
  | resolve branch => return .plain (← q.resolve branch).toJson
  | skip branch => return .plain (← q.skip branch).toJson

/-- A command is run with a configuration and a workshop for each repository. -/
def Verb.run (c : Config) (workshop : String → Merge.Workshop) :
    Verb → Action Reply
  | validate pipeline => do
    let p ← GraphFile.load pipeline
    return .shown p.validationReport.sorted (if p.isValid then 0 else 1)
  | info pipeline => return .ordered (← GraphFile.load pipeline).outline
  | status pipeline => return .plain (← GraphFile.load pipeline).summary.toJson
  | dispatchable pipeline => return listed .text (← GraphFile.load pipeline).dispatchable
  | transition pipeline request =>
    return .plain (← (Engine.ofConfig c).transition pipeline request).toJson
  | history node => return listed AuditRecord.toJson (← AuditLog.history c.auditLog node)
  | checkpoint pipeline => do
    let path ← Checkpoint.save pipeline c.checkpointsDir c.lockPolicy
    return .plain (.object [("checkpoint", .text path)])
  | checkpoints pipeline => do
    let all ← Checkpoint.all pipeline c.checkpointsDir
    return listed (fun (seq, path) => .object [("path", .text path), ("seq", .nat seq)]) all
  | emit sender recipient type payload => do
    match Json.parse payload with
    | none => return .badPayload
    | some payload =>
      let path ← Mailbox.send c.signalsDir sender recipient (.ofText type) payload
      return .plain (.object [("path", .text path)])
  | await filter seconds => do
    match ← Mailbox.take? c.signalsDir filter with
    | some received => return .plain received.toJson
    | none => return .timeout (seconds * 1000)
  | signals processed => do
    let all ←
      if processed then Mailbox.processed c.signalsDir else Mailbox.pending c.signalsDir
    return .ordered (.list (all.map fun (name, signal) =>
      .object [("file", .text name), ("signal", signal.toJson)]))
  | register role name more =>
    return .plain (← (Registry.ofConfig c).register role name more).toJson
  | heartbeat role name => return .plain (← (Registry.ofConfig c).heartbeat role name).toJson
  | stale seconds => do
    let timeout := (seconds.map Span.ofSeconds).getD c.staleTimeout
    return listed Identity.toJson (← staleOrDead (.ofConfig c) timeout)
  | crash id => return .plain (← (Registry.ofConfig c).finish id .crashed).toJson
  | terminate id => return .plain (← (Registry.ofConfig c).finish id .terminated).toJson
  | identities => return listed Identity.toJson (← (Registry.ofConfig c).all)
  | identity id => return .plain (← (Registry.ofConfig c).get id).toJson
  | lineage id => return listed Identity.toJson (← (Registry.ofConfig c).lineage id)
  | createHook id phase => return .plain (← (Rack.ofConfig c).create id phase).toJson
  | updateHook id phase summary instructions =>
    return .plain (← (Rack.ofConfig c).update id phase summary instructions).toJson
  | hook id => return .plain (← hookOf (.ofConfig c) id).toJson
  | brief id => do
    return .plain (.object [("brief", .text (← hookOf (.ofConfig c) id).brief)])
  | resume predecessor successor => do
    let brief ← (Rack.ofConfig c).resume predecessor successor
    return .ordered (.object [("predecessor", .text predecessor), ("successor", .text successor),
      ("brief", .text brief)])
  | merge pipeline repoRoot testCommand verb =>
    let w := workshop (repoRoot.getD c.repoRoot)
    let integrator := Merge.Git.integrator w (testCommand <|> c.testCommand)
    verb.run (.ofConfig c pipeline integrator (some (.ofConfig c)))

def makeAll : List String → Action Unit
  | [] => return ()
  | dir :: rest => do
    Action.makeDirs dir
    makeAll rest

/-- An invocation is answered: the configuration is read, the layout of the state
directory is made, and the command is run. -/
def Invocation.run (i : Invocation) (workshop : String → Merge.Workshop) :
    Action Reply := do
  let answer ← Action.attempt do
    let c ← Action.ofExcept (Config.load (← get) i.stateDir)
    makeAll c.directories
    i.verb.run c workshop
  match answer with
  | .ok reply => return reply
  | .error e => return .failed e

end Pipewright.Command
