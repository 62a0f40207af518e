import Pipewright.Command.Run

/-!
# The program

Everything a command does is decided by `Command.Invocation.run`, on a store. The
program makes that store from the files that the command may look at, which are
those in the state directory and those that an argument names, and afterwards
brings the changes to the disk in the order in which they were made. Commands on
the same state directory are done one at a time, under the lock of a file in it.

The clock is that of the file system, which also stamps the evidence.
-/

namespace Pipewright.Program

/-- A path on the disk and the place in the store where it is. -/
structure Mount where
  path : String
  place : List String

/-- The place of a path, seen from the working directory. -/
def placeOf (home : List String) (path : String) : List String :=
  (Path.steps path).foldl
    (fun place step =>
      if step = "." then place
      else if step = ".." then place.dropLast
      else place ++ [step])
    (if Path.isAbsolute path then [] else home)

/-- A path and the one of the directory around it. -/
def mountsOf (home : List String) (path : String) : List Mount :=
  let holder := Store.holder path
  [⟨path, placeOf home path⟩, ⟨holder, placeOf home holder⟩]

def findHome : IO (List String) := do
  return Path.steps (← IO.FS.realPath ".").toString

/-- The path of a place: that of the innermost mount around it, and the rest. -/
def pathOf (mounts : List Mount) (place : List String) : String :=
  let around := mounts.filter fun m => m.place.isPrefixOf place
  let inner := around.foldl (fun best m =>
    match best with
    | some b => if b.place.length < m.place.length then some m else best
    | none => some m) (none : Option Mount)
  match inner with
  | none => "/" ++ "/".intercalate place
  | some m => (place.drop m.place.length).foldl Path.join m.path

def instantOf (t : IO.FS.SystemTime) : Instant := ⟨t.sec, t.nsec.toNat⟩

/-- What the disk says about a path, if there is anything. -/
def metadata? (path : String) : IO (Option IO.FS.Metadata) := do
  let e : IO.FS.DirEntry := { root := path, fileName := "" }
  try
    return some (← e.root.metadata)
  catch _ => return none

def namesIn (path : String) : IO (List String) := do
  let e : IO.FS.DirEntry := { root := path, fileName := "" }
  return (← e.root.readDir).toList.map (·.fileName)

/-- The store with what is at a path, and in it if `deep` is true. -/
partial def load (path : String) (place : List String) (deep : Bool) (s : Store) : IO Store := do
  match ← metadata? path with
  | none => return s
  | some about =>
    if about.type matches .dir then
      let mut s := s.put place .directory
      if deep then
        for name in ← namesIn path do
          s ← load (Path.join path name) (place ++ [name]) true s
      return s
    else
      return s.put place (.file (← IO.FS.readBinFile path) (instantOf about.modified))

def surround (place : List String) (s : Store) : Store :=
  (List.range place.length).foldl (fun s n =>
    if n = 0 then s else s.put (place.take n) .directory) s

def loadMount (m : Mount) (deep : Bool) (s : Store) : IO Store := do
  match ← metadata? m.path with
  | none => return s
  | some _ => load m.path m.place deep (surround m.place s)

/-- What a file is to hold is written beside it and moved to it. -/
def writeFile (path : String) (bytes : ByteArray) : IO Unit := do
  let draft := path ++ ".tmp"
  IO.FS.writeBinFile draft bytes
  IO.FS.rename draft path

/-- The changes from one store to another are brought to the disk. -/
def writeBack (mounts : List Mount) (before after : Store) : IO Unit := do
  for (place, e) in after.entries.reverse do
    if before.at? place ≠ some e then
      match e with
      | .directory => IO.FS.createDirAll (pathOf mounts place)
      | .file bytes _ => writeFile (pathOf mounts place) bytes
  for (place, _) in before.entries do
    if (after.at? place).isNone then IO.FS.removeFile (pathOf mounts place)

/-- The number of the process, as the system shows it. -/
def ownPid : IO UInt32 := do
  try
    let line ← IO.FS.readFile "/proc/self/stat"
    return UInt32.ofNat ((Numeral.digits? (line.toList.takeWhile Char.isDigit)).getD 0)
  catch _ => return 0

def allPids : IO (List UInt32) := do
  try
    return (← namesIn "/proc").filterMap fun n => (Numeral.digits? n.toList).map UInt32.ofNat
  catch _ => return []

def newUuid : IO Uuid := do
  let bytes := (← IO.getRandomBytes 16).toList
  let word (l : List UInt8) : UInt64 := l.foldl (fun w b => w * 256 + b.toUInt64) 0
  return ⟨word (bytes.take 8), word (bytes.drop 8)⟩

def newHost (now : Instant) : IO Host := do
  let pids ← allPids
  return {
    clock := fun k => { now with nanos := now.nanos + k * 1000 }
    pid := ← ownPid
    alive := fun pid => pids.contains pid
    fresh := ← newUuid }

/-- The time, from a file that is written for it. -/
def timeFrom (path : String) (h : IO.FS.Handle) : IO Instant := do
  h.write "\n".toUTF8
  h.flush
  match ← metadata? path with
  | some about => return instantOf about.modified
  | none => return default

/-- An invocation is run once, on what is on the disk. -/
def runOnce (i : Command.Invocation) (args : List String) (now : Instant) :
    IO Command.Reply := do
  let home ← findHome
  let mounts := (i.stateDir :: args).flatMap (mountsOf home)
  let mut s : Store := { home }
  for arg in args do
    for m in mountsOf home arg do
      s ← loadMount m false s
  s ← loadMount ⟨i.stateDir, placeOf home i.stateDir⟩ true s
  let (r, after) := (i.run fun _ => .absent).perform (← newHost now) s
  writeBack mounts s after
  match r with
  | .ok reply => return reply
  | .error e => return .failed e

/-- An invocation is run once while no other one on the same directory is. -/
def runAlone (i : Command.Invocation) (args : List String) : IO Command.Reply := do
  let lockFile := Path.join i.stateDir ".command.lock"
  try IO.FS.createDirAll i.stateDir catch _ => pure ()
  let handle? ← try some <$> IO.FS.Handle.mk lockFile .write catch _ => pure none
  match handle? with
  | none => runOnce i args default
  | some h =>
    h.lock
    try
      runOnce i args (← timeFrom lockFile h)
    finally
      h.unlock

/-- An invocation is run again as long as it waits for something and the time is not
up. -/
partial def runUntil (i : Command.Invocation) (args : List String) (started : Nat) :
    IO Command.Reply := do
  let reply ← runAlone i args
  match reply with
  | .timeout waits =>
    if waits ≤ (← IO.monoMsNow) - started then return reply
    else
      IO.sleep 250
      runUntil i args started
  | _ => return reply

end Pipewright.Program

open Pipewright in
def main (args : List String) : IO UInt32 := do
  match Command.Invocation.ofArgs args (← IO.getEnv "RELAY_STATE_DIR") with
  | .error .help =>
    IO.println "usage: relay [--state-dir DIR] [-v] COMMAND [ARGUMENT...]"
    return 0
  | .error .version =>
    IO.print Command.versionText
    return 0
  | .error (.misuse _) =>
    IO.eprintln "usage: relay [--state-dir DIR] [-v] COMMAND [ARGUMENT...]"
    return 2
  | .ok i =>
    let reply ← Program.runUntil i args (← IO.monoMsNow)
    IO.print reply.text
    return UInt32.ofNat reply.exitCode
