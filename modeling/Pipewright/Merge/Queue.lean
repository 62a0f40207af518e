import Pipewright.Engine
import Pipewright.Identity.Registry
import Pipewright.Json.Record
import Pipewright.Lifecycle.Transition
import Pipewright.Text

/-!
# Merging

Entries of the queue, the integrators that merge a branch, the queue itself, and integration with
git.
-/

/-!
## Entries of the merge queue

An entry asks for the branch of a worker to be merged. It is queued, is being
processed by a process that is known by its number, is held because of a
conflict, or is merged and waits for that to be recorded. Once it has left the
queue it is archived.
-/

namespace Pipewright

namespace Merge

inductive EntryStatus where
  | queued
  | processing
  | merged
  | conflict
  deriving DecidableEq, Repr

namespace EntryStatus

def all : List EntryStatus := [queued, processing, merged, conflict]

def name : EntryStatus → String
  | queued => "queued"
  | processing => "processing"
  | merged => "merged"
  | conflict => "conflict"

def ofName? (s : String) : Option EntryStatus := all.find? (·.name = s)

end EntryStatus

/-- A branch that is to be merged. -/
structure Entry where
  id : String
  identityName : String
  branch : String
  node : String
  requestedAt : String
  status : EntryStatus
  conflictingFiles : List String := []
  /-- Why the entry is held. -/
  reason : Option String := none
  /-- Which process is at work on it. -/
  processor : Option UInt32 := none
  deriving DecidableEq, Repr

namespace Entry

def fieldNames : List String :=
  ["id", "identity_name", "branch_ref", "node_id", "requested_at", "status",
   "conflicting_files", "reason", "processor_pid"]

def ofDocument? (d : Json.Document) : Option Entry := do
  match ← Json.recordFields fieldNames d with
  | [id, identityName, branch, node, requestedAt, status, files, reason, processor] =>
    return {
      id := ← Json.required Json.asText id
      identityName := ← Json.required Json.asText identityName
      branch := ← Json.required Json.asText branch
      node := ← Json.required Json.asText node
      requestedAt := ← Json.required Json.asText requestedAt
      status := ← Json.required (Json.asWord EntryStatus.ofName?) status
      conflictingFiles := ← Json.defaulted [] (Json.asList Json.asText) files
      reason := ← Json.optionalField Json.asText reason
      processor := ← Json.optionalField Json.asUInt32 processor }
  | _ => none

def toJson (e : Entry) : Json := .object
  [("id", .text e.id), ("identity_name", .text e.identityName), ("branch_ref", .text e.branch),
   ("node_id", .text e.node), ("requested_at", .text e.requestedAt),
   ("status", .text e.status.name), ("conflicting_files", .texts e.conflictingFiles),
   ("reason", .ofText? e.reason), ("processor_pid", .ofUInt32? e.processor)]

end Entry

/-! ### The archive -/

/-- How an entry has left the queue. -/
inductive Disposition where
  | merged
  | abandoned
  deriving DecidableEq, Repr

namespace Disposition

def all : List Disposition := [merged, abandoned]

def name : Disposition → String
  | merged => "merged"
  | abandoned => "abandoned"

def ofName? (s : String) : Option Disposition := all.find? (·.name = s)

end Disposition

/-- An entry that has left the queue. -/
structure Archived where
  entry : Entry
  archivedAt : String
  disposition : Disposition
  deriving DecidableEq, Repr

namespace Archived

def fieldNames : List String := ["entry", "archived_at", "disposition"]

def ofDocument? (d : Json.Document) : Option Archived := do
  match ← Json.recordFields fieldNames d with
  | [entry, archivedAt, disposition] =>
    return {
      entry := ← Json.required Entry.ofDocument? entry
      archivedAt := ← Json.required Json.asText archivedAt
      disposition := ← Json.required (Json.asWord Disposition.ofName?) disposition }
  | _ => none

def toJson (a : Archived) : Json := .object
  [("entry", a.entry.toJson), ("archived_at", .text a.archivedAt),
   ("disposition", .text a.disposition.name)]

end Archived

/-! ### The queue file -/

/-- The entries that are written down as a queue. -/
def queueOfDocument? (d : Json.Document) : Option (List Entry) := do
  match ← Json.recordFields ["entries"] d with
  | [entries] => Json.required (Json.asList Entry.ofDocument?) entries
  | _ => none

def queueToJson (q : List Entry) : Json := .object [("entries", .list (q.map Entry.toJson))]

end Merge

end Pipewright

/-!
## Integrators

Four calls bring a branch into another one: it is rebased, its tests are run, the
other branch is moved forward to it, and it is deleted. An `Integrator` is
anything that answers these calls; each of them may fail, and may do to the store
what it likes.

`integrate` makes the calls in order until one does not succeed, and keeps
account of those it has made. It never fails itself: what went wrong is its
answer.
-/

namespace Pipewright.Merge

inductive Rebased where
  | clean
  | conflict (files : List String)
  deriving DecidableEq, Repr

/-- What a run of the tests ends in. -/
structure TestRun where
  passed : Bool
  summary : String
  deriving DecidableEq, Repr

structure Integrator where
  /-- The branch is put on top of another one. -/
  rebase : (branch onto : String) → Action Rebased
  /-- The tests are run on the branch. -/
  test : (branch : String) → Action TestRun
  /-- The other branch is moved forward to the branch. -/
  fastForward : (branch onto : String) → Action Unit
  /-- The branch is deleted. -/
  delete : (branch : String) → Action Unit

inductive Call where
  | rebase (branch onto : String)
  | test (branch : String)
  | fastForward (branch onto : String)
  | delete (branch : String)
  deriving DecidableEq, Repr

/-- Why a branch has not been integrated. -/
structure Obstacle where
  files : List String := []
  reason : String
  deriving DecidableEq, Repr

/-- What became of the attempt to integrate a branch. -/
structure Integration where
  /-- The calls that were made, in order. -/
  calls : List Call
  /-- What was in the way; nothing if the branch is integrated. -/
  obstacle : Option Obstacle := none
  deriving DecidableEq, Repr

def rebaseObstacle (onto : String) : Except Error Rebased → Option Obstacle
  | .ok .clean => none
  | .ok (.conflict files) => some ⟨files, "rebase onto " ++ onto ++ " conflicted"⟩
  | .error e => some ⟨[], "rebase failed: " ++ e.message⟩

/-- What stands in the way after a run of the tests. -/
def testObstacle : Except Error TestRun → Option Obstacle
  | .ok run => if run.passed then none else some ⟨[], "tests failed: " ++ run.summary⟩
  | .error e => some ⟨[], "test run failed: " ++ e.message⟩

/-- What stands in the way after the other branch was to be moved forward. -/
def forwardObstacle : Except Error Unit → Option Obstacle
  | .ok _ => none
  | .error e => some ⟨[], "fast-forward failed: " ++ e.message⟩

/-- A branch is integrated into another one. That it could not be deleted at the end is
no obstacle. -/
def Integrator.integrate (i : Integrator) (branch onto : String) : Action Integration := do
  let calls := [.rebase branch onto]
  if let some o := rebaseObstacle onto (← Action.attempt (i.rebase branch onto)) then
    return ⟨calls, some o⟩
  let calls := calls ++ [.test branch]
  if let some o := testObstacle (← Action.attempt (i.test branch)) then
    return ⟨calls, some o⟩
  let calls := calls ++ [.fastForward branch onto]
  if let some o := forwardObstacle (← Action.attempt (i.fastForward branch onto)) then
    return ⟨calls, some o⟩
  let _ ← Action.attempt (i.delete branch)
  return ⟨calls ++ [.delete branch], none⟩

end Pipewright.Merge

/-!
## The merge queue

Branches are merged one after the other, in the order in which that was asked
for. The entry at the head is claimed, integrated and finished, and only then
comes the next one; an entry that could not be integrated stays at the head and
holds up all others until somebody resolves the conflict or skips it.

The queue is locked while it is read and written, and not while a branch is being
integrated. What happens to the entries in between is a function on lists, and
the actions around it read the queue, apply the function and write the queue.

A merged entry stays at the head, marked as merged, until its node is merged too.
So if that fails it is only recorded again and not integrated again.
-/

namespace Pipewright

namespace Merge

/-! ### Entries at the head and elsewhere -/

/-- What a process that wants to merge finds at the head. -/
inductive Claim where
  /-- The entry is the process's own from now on. -/
  | own (entry : Entry)
  /-- The branch is merged, and its node is not yet. -/
  | integrated (entry : Entry)
  /-- The entry is held. -/
  | blocked (entry : Entry)
  /-- Another process is at work on the entry. -/
  | busy (entry : Entry)
  deriving DecidableEq, Repr

/-- A process other than this one is at work on the entry. -/
def Entry.isTaken (e : Entry) (h : Host) : Bool :=
  e.status == .processing && e.processor.any fun pid => pid != h.pid && h.isAlive pid

/-- The claim on an entry at the head. One that was left by a process that has gone can
be claimed like one that is queued. -/
def Entry.claim (e : Entry) (h : Host) : Claim :=
  match e.status with
  | .conflict => .blocked e
  | .merged => .integrated e
  | .processing =>
    if e.isTaken h then .busy e
    else .own { e with status := .processing, processor := some h.pid }
  | .queued => .own { e with status := .processing, processor := some h.pid }

/-- The entries with the first one of the same id replaced; none if there is none. -/
def replaceEntry (e : Entry) : List Entry → Option (List Entry)
  | [] => none
  | f :: rest => if f.id = e.id then some (e :: rest) else (replaceEntry e rest).map (f :: ·)

def Entry.asMerged (e : Entry) : Entry := { e with status := .merged, processor := none }

/-- The entry after its branch could not be merged. -/
def Entry.asConflict (e : Entry) (o : Obstacle) : Entry :=
  { e with
    status := .conflict
    conflictingFiles := o.files
    reason := some o.reason
    processor := none }

def Entry.asResolved (e : Entry) : Entry :=
  { e with status := .queued, conflictingFiles := [], reason := none }

/-- The entries after the first conflict of a branch was resolved, with the entry
concerned. -/
def resolveEntry (branch : String) : List Entry → Option (Entry × List Entry)
  | [] => none
  | e :: rest =>
    if e.branch = branch ∧ e.status = .conflict then some (e.asResolved, e.asResolved :: rest)
    else (resolveEntry branch rest).map fun (r, others) => (r, e :: others)

/-- The entries without the first one of a branch, with the entry concerned. -/
def takeEntry (branch : String) : List Entry → Option (Entry × List Entry)
  | [] => none
  | e :: rest =>
    if e.branch = branch then some (e, rest)
    else (takeEntry branch rest).map fun (r, others) => (r, e :: others)

/-! ### Outcomes -/

/-- What became of the head of the queue. -/
inductive Outcome where
  | merged (entry : Entry)
  | conflict (entry : Entry) (files : List String)
  | blocked (entry : Entry)
  | busy (entry : Entry)
  | empty
  deriving DecidableEq, Repr

def Outcome.toJson : Outcome → Json
  | merged e => .object [("outcome", .text "merged"), ("entry", e.toJson)]
  | conflict e files => .object
      [("outcome", .text "conflict"), ("entry", e.toJson), ("conflicting_files", .texts files)]
  | blocked e => .object [("outcome", .text "blocked"), ("entry", e.toJson)]
  | busy e => .object [("outcome", .text "busy"), ("entry", e.toJson)]
  | empty => .object [("outcome", .text "empty")]

/-- The outcome of merging, with the calls that were made for it. -/
structure Processing where
  calls : List Call := []
  outcome : Except Error Outcome

end Merge

open Merge

/-- A merge queue, for the nodes of one graph file. -/
structure MergeQueue where
  queueFile : String
  archive : String
  integrationBranch : String
  graph : String
  integrator : Integrator
  engine : Engine
  lockPolicy : LockPolicy
  /-- Where those who ask for a merge have to be registered, if they have to. -/
  registry : Option Registry := none

namespace MergeQueue

def ofConfig (c : Config) (graph : String) (integrator : Integrator)
    (registry : Option Registry) : MergeQueue where
  queueFile := c.mergeQueue
  archive := c.mergeArchive
  integrationBranch := c.integrationBranch
  graph := graph
  integrator := integrator
  engine := .ofConfig c
  lockPolicy := c.lockPolicy
  registry := registry

/-- Who makes the steps of nodes that follow from merging. -/
def actor : String := "merge-queue"

/-- The action done under the lock of the queue. -/
def locked {α : Type} (q : MergeQueue) (body : Action α) : Action α :=
  Action.withLock q.queueFile q.lockPolicy body

def entries (q : MergeQueue) : Action (List Entry) := do
  return (← Action.readRecord? queueOfDocument? q.queueFile).getD []

def write (q : MergeQueue) (entries : List Entry) : Action Unit :=
  Action.writeRecord q.queueFile (queueToJson entries)

/-- The entries that have left the queue, the oldest first. -/
def archived (q : MergeQueue) : Action (List Archived) :=
  Action.readLog Archived.ofDocument? q.archive

def archiveEntry (q : MergeQueue) (e : Entry) (d : Disposition) : Action Archived := do
  let a : Archived := ⟨e, (← Action.now).stamp, d⟩
  Action.appendRecord q.archive a.toJson
  return a

/-- The status of a node in the graph file. -/
def statusOf (q : MergeQueue) (node : String) : Action Status := do
  match (← GraphFile.load q.graph).node? node with
  | some n => return n.status
  | none => throw (.nodeNotFound node)

/-- A node is brought to a status, unless it has it. -/
def bring (q : MergeQueue) (node : String) (target : Status) (actor : String) : Action Unit := do
  if (← q.statusOf node) ≠ target then
    let _ ← q.engine.transition q.graph { node, target, actor }

/-! ### Asking for a merge -/

/-- Who asks for a merge has to be registered, where that is wanted. -/
def checkRegistered (q : MergeQueue) (identity : String) : Action Unit := do
  if let some r := q.registry then
    if (← r.findByName identity).isEmpty then throw (.identityNotFound identity)

/-- A branch is put at the end of the queue, and its node becomes ready for merging. -/
def enqueue (q : MergeQueue) (identity branch node : String) : Action Entry := do
  q.checkRegistered identity
  q.locked do
    let entries ← q.entries
    if entries.any (·.branch = branch) then throw (.duplicateEntry branch)
    q.bring node .mergeReady identity
    let e : Entry := {
      id := (← read).fresh.text
      identityName := identity
      branch
      node
      requestedAt := (← Action.now).stamp
      status := .queued }
    q.write (entries ++ [e])
    return e

/-! ### Merging -/

def claim (q : MergeQueue) : Action (Option Claim) :=
  q.locked do
    match ← q.entries with
    | [] => return none
    | head :: rest =>
      let claim := head.claim (← read)
      if let .own e := claim then q.write (e :: rest)
      return some claim

/-- An entry is written in the place of the one with its id. -/
def update (q : MergeQueue) (e : Entry) : Action Unit :=
  q.locked do
    match replaceEntry e (← q.entries) with
    | some entries => q.write entries
    | none => throw (.entryNotFound e.branch)

/-- An entry that is merged leaves the queue and is archived. -/
def removeMerged (q : MergeQueue) (e : Entry) : Action Unit :=
  q.locked do
    q.write ((← q.entries).filter (·.id ≠ e.id))
    let _ ← q.archiveEntry e .merged

/-- The node of an entry whose branch is merged becomes merged, and then the entry
leaves the queue. -/
def recordMerged (q : MergeQueue) (e : Entry) : Action Outcome := do
  q.bring e.node .merged actor
  q.removeMerged e
  return .merged e

def finishMerged (q : MergeQueue) (e : Entry) : Action Outcome := do
  q.update e.asMerged
  q.recordMerged e.asMerged

/-- A branch could not be integrated, and its entry is held. -/
def finishConflict (q : MergeQueue) (e : Entry) (o : Obstacle) : Action Outcome := do
  q.update (e.asConflict o)
  return .conflict (e.asConflict o) o.files

def finish (q : MergeQueue) (e : Entry) (i : Integration) : Action Outcome :=
  match i.obstacle with
  | none => q.finishMerged e
  | some o => q.finishConflict e o

def processClaim (q : MergeQueue) : Option Claim → Action Processing
  | none => return { outcome := .ok .empty }
  | some (.blocked e) => return { outcome := .ok (.blocked e) }
  | some (.busy e) => return { outcome := .ok (.busy e) }
  | some (.integrated e) => return { outcome := ← Action.attempt (q.recordMerged e) }
  | some (.own e) => do
    let i ← q.integrator.integrate e.branch q.integrationBranch
    return { calls := i.calls, outcome := ← Action.attempt (q.finish e i) }

/-- The head of the queue is merged, if that can be done. -/
def process (q : MergeQueue) : Action Processing := do
  match ← Action.attempt q.claim with
  | .error e => return { outcome := .error e }
  | .ok claim => q.processClaim claim

/-! ### Conflicts -/

/-- The conflict of a branch is resolved, and its entry is queued again in its place. -/
def resolve (q : MergeQueue) (branch : String) : Action Entry :=
  q.locked do
    match resolveEntry branch (← q.entries) with
    | some (e, entries) =>
      q.write entries
      return e
    | none => throw (.entryNotFound branch)

/-- The entry of a branch leaves the queue without being merged. -/
def skip (q : MergeQueue) (branch : String) : Action Archived :=
  q.locked do
    match takeEntry branch (← q.entries) with
    | none => throw (.entryNotFound branch)
    | some (e, entries) =>
      if e.status = .merged then
        throw (.other ("branch '" ++ branch
          ++ "' is already merged, process the queue to record it"))
      if e.isTaken (← read) then
        throw (.other ("branch '" ++ branch ++ "' is being integrated by another process"))
      q.write entries
      q.archiveEntry e .abandoned

end MergeQueue

end Pipewright

/-!
## Integration with git

The integrator that works on a git repository. How a program is run is not its
business: it is given a `Workshop`, which runs git with arguments and the tests
with a command line, and says what they wrote, or why they could not be
started.
-/

namespace Pipewright.Merge

structure Finished where
  succeeded : Bool
  output : String
  errors : String
  deriving DecidableEq, Repr

/-- How programs are run in a repository. -/
structure Workshop where
  git : (arguments : List String) → Action (Except FileFault Finished)
  shell : (command : String) → Action (Except FileFault Finished)

/-- The workshop of a directory that is not there. -/
def Workshop.absent : Workshop where
  git _ := return .error .notFound
  shell _ := return .error .notFound

namespace Git

/-- The words of a command, as an error shows them. -/
def commandText (arguments : List String) : String := " ".intercalate arguments

/-- A text without the white space at its ends. -/
def trimmed (s : String) : String := String.ofList (Text.trim s.toList)

/-- No program can be given an argument with a null character. -/
def nullInArgument : FileFault := .other "nul byte found in provided data"

/-- Git is started, unless an argument cannot be given to it. -/
def start (w : Workshop) (arguments : List String) : Action (Except FileFault Finished) :=
  if arguments.any (·.toList.contains '\x00') then return .error nullInArgument
  else w.git arguments

def run (w : Workshop) (arguments : List String) : Action Finished := do
  match ← start w arguments with
  | .ok f => return f
  | .error fault =>
    throw (.git (commandText arguments) ("failed to spawn git: " ++ fault.message))

def runOk (w : Workshop) (arguments : List String) : Action Unit := do
  let f ← run w arguments
  if !f.succeeded then throw (.git (commandText arguments) (trimmed f.errors))

/-- The lines of a text that are not empty. -/
def fullLines (s : String) : List String :=
  ((Json.lines s.toList).filter (!·.isEmpty)).map String.ofList

/-- How many lines of what the tests wrote are kept. -/
def summaryLines : Nat := 20

def tail (s : String) : String :=
  let all := (Json.lines s.toList).map String.ofList
  "\n".intercalate (all.drop (all.length - summaryLines))

/-- The branch is put on top of another one. A rebase that stops is undone, and is a
conflict if there are files that say so. -/
def rebase (w : Workshop) (branch onto : String) : Action Rebased := do
  runOk w ["checkout", "--quiet", branch]
  let f ← run w ["rebase", onto]
  if f.succeeded then return .clean
  let files := fullLines (← run w ["diff", "--name-only", "--diff-filter=U"]).output
  let _ ← Action.attempt (runOk w ["rebase", "--abort"])
  if files.isEmpty then throw (.git ("rebase " ++ onto) (trimmed f.errors))
  return .conflict files

/-- The tests are run on the branch, if there is a command for them. -/
def test (w : Workshop) (command : Option String) (branch : String) : Action TestRun := do
  match command with
  | none => return ⟨true, "no test command configured"⟩
  | some command =>
    runOk w ["checkout", "--quiet", branch]
    match ← w.shell command with
    | .ok f => return ⟨f.succeeded, tail (f.output ++ f.errors)⟩
    | .error fault => throw (.file fault)

/-- The other branch is moved forward to the branch. -/
def fastForward (w : Workshop) (branch onto : String) : Action Unit := do
  runOk w ["checkout", "--quiet", onto]
  runOk w ["merge", "--ff-only", branch]

def delete (w : Workshop) (branch : String) : Action Unit :=
  runOk w ["branch", "-d", branch]

def integrator (w : Workshop) (testCommand : Option String) : Integrator where
  rebase := rebase w
  test := test w testCommand
  fastForward := fastForward w
  delete := delete w

end Git

end Pipewright.Merge
