import Pipewright.Engine
import Pipewright.Json.Record
import Pipewright.Text
import Pipewright.Time

/-!
# Identities and their registry

The record of an identity, and the calls by which identities are registered, ended and looked for.
-/

/-!
## Identities

Who works on a pipeline is known by an identity: a role and a name, and where and
as which process the worker runs. An identity is active until it is found crashed
or says that it has terminated, and then it stays what it is; a worker that takes
over from another one names the identity of its predecessor.
-/

namespace Pipewright

inductive Presence where
  | active
  | crashed
  | terminated
  deriving DecidableEq, Repr

namespace Presence

def all : List Presence := [active, crashed, terminated]

def name : Presence → String
  | active => "active"
  | crashed => "crashed"
  | terminated => "terminated"

def ofName? (s : String) : Option Presence := all.find? (·.name = s)

end Presence

structure Identity where
  id : String
  role : String
  name : String
  sessionRef : Option String
  pid : Option UInt32
  worktreePath : Option String
  hookRef : Option String
  nodeId : Option String
  createdAt : String
  lastSeen : String
  status : Presence
  predecessor : Option String
  deriving DecidableEq, Repr

namespace Identity

def fieldNames : List String :=
  ["id", "role", "name", "session_ref", "pid", "worktree_path", "hook_ref", "node_id",
   "created_at", "last_seen", "status", "predecessor_id"]

def ofDocument? (d : Json.Document) : Option Identity := do
  match ← Json.recordFields fieldNames d with
  | [id, role, name, sessionRef, pid, worktreePath, hookRef, nodeId, createdAt, lastSeen, status,
      predecessor] =>
    return {
      id := ← Json.required Json.asText id
      role := ← Json.required Json.asText role
      name := ← Json.required Json.asText name
      sessionRef := ← Json.optionalField Json.asText sessionRef
      pid := ← Json.optionalField Json.asUInt32 pid
      worktreePath := ← Json.optionalField Json.asText worktreePath
      hookRef := ← Json.optionalField Json.asText hookRef
      nodeId := ← Json.optionalField Json.asText nodeId
      createdAt := ← Json.required Json.asText createdAt
      lastSeen := ← Json.required Json.asText lastSeen
      status := ← Json.required (Json.asWord Presence.ofName?) status
      predecessor := ← Json.optionalField Json.asText predecessor }
  | _ => none

def toJson (i : Identity) : Json := .object
  [("id", .text i.id), ("role", .text i.role), ("name", .text i.name),
   ("session_ref", .ofText? i.sessionRef), ("pid", .ofUInt32? i.pid),
   ("worktree_path", .ofText? i.worktreePath), ("hook_ref", .ofText? i.hookRef),
   ("node_id", .ofText? i.nodeId), ("created_at", .text i.createdAt),
   ("last_seen", .text i.lastSeen), ("status", .text i.status.name),
   ("predecessor_id", .ofText? i.predecessor)]

/-- The worker is at work, as far as anyone knows. -/
def isActive (i : Identity) : Bool := i.status == .active

/-- When there was the last sign of life; nothing if that cannot be read. -/
def lastSeenAt (i : Identity) : Option Instant := (Rfc3339.parse i.lastSeen).toOption

/-- A text as part of an id: what is neither an ASCII letter nor a digit becomes an
underscore. -/
def slug (s : String) : String :=
  String.ofList (s.toList.map fun c => if c.isAlphanum then c else '_')

def newId (role name : String) (fresh : Uuid) : String :=
  slug role ++ "-" ++ slug name ++ "-" ++ fresh.short

end Identity

/-!
## The registry of identities

A registry is a directory with a file for each identity. Identities are never
removed from it. Every change is made under one lock for the whole registry, so
that nobody who is late with a sign of life undoes that he has been found
crashed.
-/

attribute [local instance (high)] instPowNat

structure Registry where
  dir : String
  lockPolicy : LockPolicy
  deriving DecidableEq, Repr

/-- What may be said about a new identity besides role and name. -/
structure Particulars where
  sessionRef : Option String := none
  pid : Option UInt32 := none
  worktreePath : Option String := none
  /-- The key of the hook; it is the id where nothing else is said. -/
  hookRef : Option String := none
  nodeId : Option String := none
  predecessor : Option String := none
  deriving DecidableEq, Repr

namespace Registry

def ofConfig (c : Config) : Registry := ⟨c.identitiesDir, c.lockPolicy⟩

/-- The action done under the lock of the registry. -/
def locked {α : Type} (r : Registry) (body : Action α) : Action α :=
  Action.withLockFile (Path.join r.dir ".registry.lock") r.lockPolicy body

/-! ### Reading -/

def isRecordName (name : String) : Bool :=
  ".json".toList.isSuffixOf name.toList && 5 < name.length

def readAll (r : Registry) : List String → Action (List Identity)
  | [] => return []
  | name :: rest => do
    let found ← Action.readRecord? Identity.ofDocument? (Path.join r.dir name)
    return found.toList ++ (← readAll r rest)

def ordered (a b : Identity) : Bool :=
  a.createdAt < b.createdAt || (a.createdAt == b.createdAt && decide (a.id ≤ b.id))

def all (r : Registry) : Action (List Identity) := do
  let names := (← Action.readingIfThere (·.list r.dir)).getD []
  return (← readAll r (names.filter isRecordName)).mergeSort ordered

def get (r : Registry) (id : String) : Action Identity := do
  let path ← Action.ofExcept (recordPath r.dir id)
  match ← Action.readRecord? Identity.ofDocument? path with
  | some i => return i
  | none => throw (.identityNotFound id)

/-- The active identity with the role and the name. -/
def findActive (r : Registry) (role name : String) : Action (Option Identity) := do
  return (← r.all).find? fun i => i.isActive && i.role = role && i.name = name

def findByName (r : Registry) (name : String) : Action (List Identity) := do
  return (← r.all).filter (·.name = name)

/-- The longest timeout there is, in nanoseconds: `2 ^ 63 - 1` thousandths of a second. -/
def longestTimeout : Nat := (2 ^ (63 : Nat) - 1) * 1000000

/-- The active identities that have given no sign of life for so long, seen from an
instant. A sign that cannot be read counts as none. -/
def findStaleAsOf (r : Registry) (now : Instant) (timeout : Span) : Action (List Identity) := do
  if longestTimeout < timeout.nanos then
    throw (.other ("stale timeout out of range: Source duration value is out of range for the "
      ++ "target type"))
  let cutoff := now.minus timeout
  if cutoff.before .earliest then throw .timeRange
  return (← r.all).filter fun i => i.isActive && i.lastSeenAt.all (·.before cutoff)

/-- The active identities that have given no sign of life for so long. -/
def findStale (r : Registry) (timeout : Span) : Action (List Identity) := do
  r.findStaleAsOf (← Action.now) timeout

def findDead (r : Registry) : Action (List Identity) := do
  let host ← read
  return (← r.all).filter fun i => i.isActive && i.pid.any (!host.isAlive ·)

/-- The identity with the id and its predecessors, as far as they have not been met
before. `most` bounds their number. -/
def lineageFrom (r : Registry) : Nat → List String → String → Action (List Identity)
  | 0, _, _ => return []
  | most + 1, seen, id =>
    if seen.contains id then return []
    else do
      let i ← r.get id
      match i.predecessor with
      | none => return [i]
      | some before => return i :: (← lineageFrom r most (id :: seen) before)

/-- The identity with the id and those before it, the newest first. Every one is kept in
a file of its own, so there are no more than files. -/
def lineage (r : Registry) (id : String) : Action (List Identity) := do
  r.lineageFrom ((← getThe Store).entries.length + 1) [] id

/-! ### Changing -/

def write (r : Registry) (i : Identity) : Action Unit := do
  Action.writeRecord (← Action.ofExcept (recordPath r.dir i.id)) i.toJson

/-- A new active identity is made; there is only one at a time with a role and a
name. -/
def register (r : Registry) (role name : String) (more : Particulars) : Action Identity :=
  r.locked do
    if let some other ← r.findActive role name then
      throw (.identityActive role name other.id)
    if let some before := more.predecessor then
      let _ ← r.get before
    if let some key := more.hookRef then
      Action.ofExcept (checkKey key)
    let id := Identity.newId role name (← read).fresh
    let now := (← Action.now).stamp
    let i : Identity := {
      id, role, name
      sessionRef := more.sessionRef
      pid := more.pid
      worktreePath := more.worktreePath
      hookRef := some (more.hookRef.getD id)
      nodeId := more.nodeId
      createdAt := now
      lastSeen := now
      status := .active
      predecessor := more.predecessor }
    r.write i
    return i

def beat (r : Registry) (i : Identity) : Action Identity := do
  let i := { i with lastSeen := (← Action.now).stamp }
  r.write i
  return i

/-- A sign of life of the active identity with the role and the name. -/
def heartbeat (r : Registry) (role name : String) : Action Identity :=
  r.locked do
    match ← r.findActive role name with
    | some i => r.beat i
    | none => throw (.identityNotFound (role ++ "/" ++ name))

/-- A sign of life of the identity with the id, which has to be active. -/
def heartbeatId (r : Registry) (id : String) : Action Identity :=
  r.locked do
    let i ← r.get id
    if i.isActive then r.beat i
    else throw (.identityNotFound (id ++ " (not active)"))

/-- The end of an identity. One that has come to its end stays as it is. -/
def finish (r : Registry) (id : String) (status : Presence) : Action Identity :=
  r.locked do
    let i ← r.get id
    if i.isActive then
      let i := { i with status }
      r.write i
      return i
    else return i

end Registry

end Pipewright
