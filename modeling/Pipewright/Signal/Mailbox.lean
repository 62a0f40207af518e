import Pipewright.Engine
import Pipewright.Json.Record
import Pipewright.Text
import Pipewright.Time

/-!
# Signals and their mailbox

What a signal says, the name of the file that it is put in, and the calls of a mailbox.
-/

/-!
## Signals

A signal is a message from one worker to another: a type, a payload that only
they understand, and the time at which it was sent. Nine types have a meaning of
their own and are recognised in upper and lower case; any other text is a type
too and stays as it is.
-/

namespace Pipewright

inductive SignalType where
  | dispatch
  | implComplete
  | validationPassed
  | validationFailed
  | mergeReady
  | merged
  | stall
  | escalate
  | shutdown
  | other (text : String)
  deriving DecidableEq, Repr

namespace SignalType

def known : List SignalType :=
  [dispatch, implComplete, validationPassed, validationFailed, mergeReady, merged, stall,
   escalate, shutdown]

def name : SignalType → String
  | dispatch => "DISPATCH"
  | implComplete => "IMPL_COMPLETE"
  | validationPassed => "VALIDATION_PASSED"
  | validationFailed => "VALIDATION_FAILED"
  | mergeReady => "MERGE_READY"
  | merged => "MERGED"
  | stall => "STALL"
  | escalate => "ESCALATE"
  | shutdown => "SHUTDOWN"
  | other text => text

/-- The text in capitals; letters other than the ASCII ones stay as they are. -/
def capitals (s : String) : String := String.ofList (s.toList.map Char.toUpper)

def ofText (s : String) : SignalType :=
  (known.find? (·.name = capitals s)).getD (other s)

def isOther : SignalType → Bool
  | other _ => true
  | _ => false

end SignalType

structure Signal where
  sender : String
  recipient : String
  type : SignalType
  payload : Json := .null
  timestamp : String

namespace Signal

def fieldNames : List String := ["from", "to", "type", "payload", "timestamp"]

def ofDocument? (d : Json.Document) : Option Signal := do
  match ← Json.recordFields fieldNames d with
  | [sender, recipient, type, payload, timestamp] =>
    return {
      sender := ← Json.required Json.asText sender
      recipient := ← Json.required Json.asText recipient
      type := .ofText (← Json.required Json.asText type)
      payload := ← Json.defaulted .null Json.asFree payload
      timestamp := ← Json.required Json.asText timestamp }
  | _ => none

def toJson (s : Signal) : Json := .object
  [("from", .text s.sender), ("to", .text s.recipient), ("type", .text s.type.name),
   ("payload", s.payload), ("timestamp", .text s.timestamp)]

/-- Which signals someone waits for: what is given has to agree. -/
structure Filter where
  sender : Option String := none
  recipient : Option String := none
  type : Option SignalType := none
  deriving DecidableEq, Repr

/-- The signal is one of those that are waited for. -/
def Filter.accepts (f : Filter) (s : Signal) : Bool :=
  f.sender.all (· = s.sender) && f.recipient.all (· = s.recipient) && f.type.all (· = s.type)

end Signal

end Pipewright

/-!
## Names of signal files

The name of a signal's file begins with the time at which it was sent, so that
the order of names is the order of sending, and says who sent it to whom and what
it is about. A directory of signals may hold other files too; `isSignalFile`
tells those that are not signals by their names.
-/

namespace Pipewright.Signal

/-- The character stands for itself in a part of a name. -/
def isPlain (c : Char) : Bool := c.isAlphanum || c == '_' || c == '-'

/-- A text as part of a name. What cannot stand there becomes an underscore, and so
does the empty text. -/
def namePart (s : String) : String :=
  match s.toList.map (fun c => if isPlain c then c else '_') with
  | [] => "_"
  | cs => String.ofList cs

/-- The name of the file of a signal that is sent at a time. -/
def fileName (sender recipient : String) (type : SignalType) (now : Instant) : String :=
  now.fileStamp ++ "-" ++ namePart sender ++ "-" ++ namePart recipient ++ "-"
    ++ namePart type.name ++ ".json"

def afterDigits? : Nat → List Char → Option (List Char)
  | 0, s => some s
  | n + 1, c :: s => if Text.isDecimalDigit c then afterDigits? n s else none
  | _ + 1, [] => none

/-- The text is the end of a signal file's name: plain characters and dots, and the
extension. -/
def isNameEnd (s : List Char) : Bool :=
  s.all (fun c => isPlain c || c == '.') && ".json".toList.isSuffixOf s && 5 < s.length

def isSignalFile (name : String) : Bool :=
  match afterDigits? 8 name.toList with
  | some ('T' :: s) =>
    match afterDigits? 12 s with
    | some ('Z' :: '-' :: s) => isNameEnd s
    | _ => false
  | _ => false

end Pipewright.Signal

/-!
## Mailboxes

A mailbox is a directory with a file for each signal that has not been taken yet.
Whoever takes a signal moves its file into the directory `processed` inside, and
that move is what decides who has taken it. A file that looks like a signal and
cannot be read as one is moved out of the way, into `rejected`, when somebody
comes across it while looking for a signal.
-/

namespace Pipewright.Mailbox

open Signal (Filter)

/-- Where the signals of a mailbox are that have been taken. -/
def processedDir (dir : String) : String := Path.join dir "processed"

/-- Where the files of a mailbox are that are no signals. -/
def rejectedDir (dir : String) : String := Path.join dir "rejected"

/-! ### Sending -/

def sendAttempts : Nat := 64

/-- The signal is put into the mailbox under the first free name; the names follow the
readings of the clock from the one with the number `k`. -/
def sendFrom (dir sender recipient : String) (type : SignalType) (payload : Json) :
    Nat → Nat → Action String
  | 0, _ => throw (.other ("could not find a free signal file name in " ++ dir))
  | left + 1, k => do
    let now := (← read).clock k
    let path := Path.join dir (Signal.fileName sender recipient type now)
    if (← get).exists? path then sendFrom dir sender recipient type payload left (k + 1)
    else
      let signal : Signal := ⟨sender, recipient, type, payload, now.text⟩
      Action.writing (·.putFile path now fun _ => signal.toJson.pretty.toUTF8)
      return path

/-- A signal is sent; the answer is the path of its file. It is written whole as a draft
before it gets its name, so there has to be room for a draft. -/
def send (dir sender recipient : String) (type : SignalType) (payload : Json) :
    Action String := do
  Action.makeDirs dir
  let _ ← Action.reading fun s => s.origin (s.draft dir)
  sendFrom dir sender recipient type payload sendAttempts 0

/-! ### Looking -/

/-- The names of the signal files in a directory, in order. -/
def files (dir : String) : Action (List String) := do
  return ((← Action.readingIfThere (·.list dir)).getD []).filter Signal.isSignalFile

/-- The bytes of a file in a directory, unless it has gone since its name was read. -/
def readFile? (dir name : String) : Action (Option ByteArray) :=
  Action.readingIfThere (·.readBytes (Path.join dir name))

/-- The signal with its name, if the bytes are one. -/
def signalOf? (bytes : ByteArray) : Option Signal :=
  Json.readRecordBytes Signal.ofDocument? bytes

/-- The signals with the names, under their names; what is no signal is left out. -/
def readAll (dir : String) : List String → Action (List (String × Signal))
  | [] => return []
  | name :: rest => do
    let found := (← readFile? dir name).bind signalOf?
    let others ← readAll dir rest
    return match found with
      | some signal => (name, signal) :: others
      | none => others

/-- The signals that have not been taken, in order. -/
def pending (dir : String) : Action (List (String × Signal)) := do
  readAll dir (← files dir)

def processed (dir : String) : Action (List (String × Signal)) :=
  pending (processedDir dir)

/-! ### Taking -/

structure Received where
  signal : Signal
  fileName : String
  archivedTo : String

def Received.toJson (r : Received) : Json := .object
  [("signal", r.signal.toJson), ("file_name", .text r.fileName),
   ("archived_to", .text r.archivedTo)]

/-- A file is moved out of the way. Where that fails it stays. -/
def reject (dir name : String) : Action Unit :=
  tryCatch
    (do
      Action.makeDirs (rejectedDir dir)
      Action.writing (·.move (Path.join dir name) (Path.join (rejectedDir dir) name)))
    fun _ => pure ()

/-- A signal file is claimed; the answer is where it is now, or nothing if somebody
else has been quicker. -/
def claim (dir name : String) : Action (Option String) := do
  Action.makeDirs (processedDir dir)
  let target := Path.join (processedDir dir) name
  let (r, s) := (← get).move (Path.join dir name) target
  set s
  match r with
  | .ok _ => return some target
  | .error .notFound => return none
  | .error fault => throw (.file fault)

/-- The first of the files that holds a signal that is waited for is taken. -/
def takeFrom (dir : String) (f : Filter) : List String → Action (Option Received)
  | [] => return none
  | name :: rest => do
    match ← readFile? dir name with
    | none => takeFrom dir f rest
    | some bytes =>
      match signalOf? bytes with
      | none =>
        reject dir name
        takeFrom dir f rest
      | some signal =>
        if f.accepts signal then
          match ← claim dir name with
          | some target => return some ⟨signal, name, target⟩
          | none => takeFrom dir f rest
        else takeFrom dir f rest

/-- One look into the mailbox: the first signal that is waited for is taken, and there
is no answer if there is none. Waiting is looking again. -/
def take? (dir : String) (f : Filter) : Action (Option Received) := do
  takeFrom dir f (← files dir)

end Pipewright.Mailbox
