import Pipewright.Engine
import Pipewright.Json.Record

/-!
# Hooks and their rack

The record that a worker leaves of its work, and the calls by which another one goes on with it.
-/

/-!
## Hooks

A hook is what a worker leaves for the one that has to go on if it crashes: the
phase its work is in, a summary, and what to do next. The hook of a successor
says whose work it goes on with, and the one of the predecessor says who went on,
so that nobody goes on twice.
-/

namespace Pipewright

inductive Phase where
  | planning
  | executing
  | validating
  | merging
  | done
  deriving DecidableEq, Repr

namespace Phase

def all : List Phase := [planning, executing, validating, merging, done]

def name : Phase → String
  | planning => "planning"
  | executing => "executing"
  | validating => "validating"
  | merging => "merging"
  | done => "done"

def ofName? (s : String) : Option Phase := all.find? (·.name = s)

/-- What is said of a text that is the word for no phase. -/
def unknown (s : String) : String := "unknown phase '" ++ s ++ "'"

def completed (p : Phase) : List Phase := all.takeWhile (· ≠ p)

end Phase

/-- What a worker leaves for its successor. -/
structure Hook where
  identity : String
  phase : Phase
  workSummary : String
  lastCheckpointAt : String
  instructions : Option String
  /-- Who goes on with the work. -/
  consumedBy : Option String
  /-- Whose work is gone on with. -/
  inheritedFrom : Option String
  deriving DecidableEq, Repr

namespace Hook

def fieldNames : List String :=
  ["identity_id", "phase", "work_summary", "last_checkpoint_at", "resumption_instructions",
   "consumed_by", "inherited_from"]

def ofDocument? (d : Json.Document) : Option Hook := do
  match ← Json.recordFields fieldNames d with
  | [identity, phase, summary, checkpoint, instructions, consumedBy, inheritedFrom] =>
    return {
      identity := ← Json.required Json.asText identity
      phase := ← Json.required (Json.asWord Phase.ofName?) phase
      workSummary := ← Json.required Json.asText summary
      lastCheckpointAt := ← Json.required Json.asText checkpoint
      instructions := ← Json.optionalField Json.asText instructions
      consumedBy := ← Json.optionalField Json.asText consumedBy
      inheritedFrom := ← Json.optionalField Json.asText inheritedFrom }
  | _ => none

def toJson (h : Hook) : Json := .object
  [("identity_id", .text h.identity), ("phase", .text h.phase.name),
   ("work_summary", .text h.workSummary), ("last_checkpoint_at", .text h.lastCheckpointAt),
   ("resumption_instructions", .ofText? h.instructions), ("consumed_by", .ofText? h.consumedBy),
   ("inherited_from", .ofText? h.inheritedFrom)]

/-- Words with commas between them; a mark for none at all. -/
def listing : List String → String
  | [] => "(none)"
  | words => ", ".intercalate words

/-- What a successor is told. It says nothing that is not in the hook. -/
def brief (h : Hook) : String :=
  "## Resumption brief\n"
    ++ "predecessor: " ++ h.identity ++ "\n"
    ++ "last_phase: " ++ h.phase.name ++ "\n"
    ++ "completed_phases: " ++ listing (h.phase.completed.map Phase.name) ++ "\n"
    ++ "last_checkpoint_at: " ++ h.lastCheckpointAt ++ "\n"
    ++ "work_summary:\n" ++ h.workSummary ++ "\n"
    ++ "resumption_instructions:\n" ++ h.instructions.getD "(none)" ++ "\n"

end Hook

/-!
## Racks of hooks

A rack is a directory with the hooks of all workers. Each hook has a lock of its
own. Going on with the work of another worker takes two writes, the hook of the
successor first and the one of the predecessor after it: if the process stops
between them, the same call made again finds the first write and does the
second one.
-/

structure Rack where
  dir : String
  lockPolicy : LockPolicy
  deriving DecidableEq, Repr

namespace Rack

def ofConfig (c : Config) : Rack := ⟨c.hooksDir, c.lockPolicy⟩

def path (r : Rack) (id : String) : Action String :=
  Action.ofExcept (recordPath r.dir id)

/-- The hook in a file, if there is one. -/
def readFile? (path : String) : Action (Option Hook) :=
  Action.readRecord? Hook.ofDocument? path

/-- The hook with a key, if there is one. -/
def read? (r : Rack) (id : String) : Action (Option Hook) := do
  readFile? (← r.path id)

/-- A new hook is hung up, unless there is one with the key. -/
def create (r : Rack) (id : String) (phase : Phase) : Action Hook := do
  let path ← r.path id
  Action.withLock path r.lockPolicy do
    if (← get).exists? path then throw (.hookExists id)
    let hook : Hook := {
      identity := id
      phase
      workSummary := ""
      lastCheckpointAt := (← Action.now).stamp
      instructions := none
      consumedBy := none
      inheritedFrom := none }
    Action.writeRecord path hook.toJson
    return hook

/-- A worker says how far it is. Instructions are kept unless there are new ones. -/
def update (r : Rack) (id : String) (phase : Phase) (summary : String)
    (instructions : Option String) : Action Hook := do
  let path ← r.path id
  Action.withLock path r.lockPolicy do
    match ← readFile? path with
    | none => throw (.hookNotFound id)
    | some hook =>
      let hook := { hook with
        phase
        workSummary := summary
        lastCheckpointAt := (← Action.now).stamp
        instructions := instructions <|> hook.instructions }
      Action.writeRecord path hook.toJson
      return hook

/-! ### Going on -/

/-- The hook of a worker that goes on where another one has stopped. -/
def seeded (before : Hook) (predecessor successor : String) (now : Instant) : Hook where
  identity := successor
  phase := before.phase
  workSummary := before.workSummary
  lastCheckpointAt := now.stamp
  instructions := before.instructions
  consumedBy := none
  inheritedFrom := some predecessor

/-- The first write: the hook of the successor, unless it has been written before. One
that comes from elsewhere is in the way. The answer is the hook of the predecessor. -/
def seed (predecessor successor predecessorPath successorPath : String) : Action Hook := do
  match ← readFile? predecessorPath with
  | none => throw (.hookNotFound predecessor)
  | some before =>
    if let some other := before.consumedBy then throw (.hookConsumed predecessor other)
    match ← readFile? successorPath with
    | some hook =>
      if hook.inheritedFrom ≠ some predecessor then throw (.hookExists successor)
    | none =>
      Action.writeRecord successorPath
        (seeded before predecessor successor (← Action.now)).toJson
    return before

/-- The second write: the hook of the predecessor says who goes on. -/
def consume (before : Hook) (successor predecessorPath : String) : Action Unit :=
  Action.writeRecord predecessorPath { before with consumedBy := some successor }.toJson

/-- A successor goes on with the work of its predecessor; the answer is what it is
told. -/
def resume (r : Rack) (predecessor successor : String) : Action String := do
  let predecessorPath ← r.path predecessor
  let successorPath ← r.path successor
  Action.withLock predecessorPath r.lockPolicy do
    Action.withLock successorPath r.lockPolicy do
      let before ← seed predecessor successor predecessorPath successorPath
      consume before successor predecessorPath
      return before.brief

end Rack

end Pipewright
