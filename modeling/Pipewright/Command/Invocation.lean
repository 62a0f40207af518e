import Pipewright.Hook.Rack
import Pipewright.Identity.Registry
import Pipewright.Lifecycle.Transition
import Pipewright.Signal.Mailbox

/-!
# Command lines

How a command line is cut up and what it asks for.
-/

/-!
## Levels of a command line

A command line is read level by level. A level has flags, which may stand in any
order between the other words and are given at most once each, a fixed number of
words in their places, and possibly subcommands, one of which ends the level and
starts the next one.

A flag is written with two dashes, and its value is the next word or stands
behind an equals sign. The next word is no value if it looks like a flag. A
switch is a flag without a value and may have a letter, to be written with one
dash. Behind two dashes alone there are no flags any more.

Words and values are looked at as they come, so that of two faults the first is
reported, and a call for help counts only if nothing before it is wrong.
-/

namespace Pipewright.Command

structure Flag where
  name : String
  takesValue : Bool := true
  /-- Which values it may have. -/
  admits : String → Bool := fun _ => true
  /-- The letter of a switch. -/
  letter : Option Char := none

/-- A level of a command line. -/
structure Level where
  flags : List Flag
  /-- The words that stand in their places, each by what it may be. -/
  places : List (String → Bool) := []
  /-- The subcommands, each with the names of those that it has itself. -/
  subcommands : List (String × List String) := []
  /-- The version of the program can be asked for. -/
  hasVersion : Bool := false

/-- What is wrong with a command line. -/
inductive Misuse where
  | unknownFlag (arg : String)
  | repeated (flag : String)
  | noValue (flag : String)
  | superfluousValue (flag : String)
  | superfluous (arg : String)
  | missing (what : String)
  | badValue (what value : String)
  deriving DecidableEq, Repr

/-- Why no command follows from a command line. -/
inductive Stop where
  | help
  | version
  | misuse (m : Misuse)
  deriving DecidableEq, Repr

/-- What was given on a level. -/
structure Given where
  /-- The flags, each with its value; that of a switch is empty. -/
  values : List (String × String) := []
  words : List String := []
  /-- The subcommand, and what follows it. -/
  inner : Option (String × List String) := none
  deriving DecidableEq, Repr

namespace Given

def value? (g : Given) (name : String) : Option String := g.values.lookup name

def isOn (g : Given) (name : String) : Bool := (g.value? name).isSome

/-- A flag is given; the value of a switch is empty. -/
def set (g : Given) (f : Flag) (value : String) : Except Stop Given :=
  if g.isOn f.name then .error (.misuse (.repeated f.name))
  else if f.admits value then .ok { g with values := g.values ++ [(f.name, value)] }
  else .error (.misuse (.badValue f.name value))

def addWord (g : Given) (level : Level) (word : String) : Except Stop Given :=
  match level.places[g.words.length]? with
  | none => .error (.misuse (.superfluous word))
  | some admits =>
    if admits word then .ok { g with words := g.words ++ [word] }
    else .error (.misuse (.badValue "argument" word))

end Given

namespace Level

def flag? (l : Level) (name : String) : Option Flag := l.flags.find? (·.name = name)

/-- The text looks like a flag. A dash alone does not. -/
def isFlagLike (s : String) : Bool :=
  match s.toList with
  | '-' :: _ :: _ => true
  | _ => false

/-- A name and what stands behind the first equals sign, if there is one. -/
def splitValue (cs : List Char) : String × Option String :=
  (String.ofList (cs.takeWhile (· ≠ '=')),
    match cs.dropWhile (· ≠ '=') with
    | [] => none
    | _ :: v => some (String.ofList v))

/-- The switches that are listed nowhere: every level can be asked for help, and where it
is said so for the version. -/
def stop? (l : Level) (name : String) : Option Stop :=
  if name = "help" then some .help
  else if name = "version" ∧ l.hasVersion then some .version
  else none

def readLetters (l : Level) (g : Given) : List Char → Except Stop Given
  | [] => .ok g
  | c :: rest =>
    match l.flags.find? (·.letter = some c) with
    | some f => do readLetters l (← g.set f "") rest
    | none =>
      let name := if c = 'h' then "help" else if c = 'V' then "version" else ""
      .error ((l.stop? name).getD (.misuse (.unknownFlag (String.ofList ['-', c]))))

def readWords (l : Level) (g : Given) : List String → Except Stop Given
  | [] => .ok g
  | w :: rest => do readWords l (← g.addWord l w) rest

/-- Help can be had on what the words name: on the level itself, on a subcommand or on
one of its own subcommands. Where there are subcommands, `help` is one of them. -/
def isTopic (l : Level) : List String → Bool
  | [] => true
  | [name] => name == "help" || (l.subcommands.lookup name).isSome
  | [name, inner] =>
    match l.subcommands.lookup name with
    | some own => !own.isEmpty && ("help" :: own).contains inner
    | none => false
  | _ => false

/-- The arguments of a level, added to those that were given before. -/
def readFrom (l : Level) (g : Given) : List String → Except Stop Given
  | [] => .ok g
  | arg :: rest =>
    match arg.toList with
    | ['-', '-'] => l.readWords g rest
    | '-' :: '-' :: cs =>
      let (name, value?) := splitValue cs
      match l.flag? name with
      | none =>
        match l.stop? name with
        | none => .error (.misuse (.unknownFlag arg))
        | some stop => .error (if value?.isSome then .misuse (.superfluousValue name) else stop)
      | some f =>
        match value? with
        | some v =>
          if f.takesValue then do readFrom l (← g.set f v) rest
          else .error (.misuse (.superfluousValue name))
        | none =>
          if f.takesValue then
            match rest with
            | [] => .error (.misuse (.noValue name))
            | v :: rest =>
              if isFlagLike v then .error (.misuse (.noValue name))
              else do readFrom l (← g.set f v) rest
          else do readFrom l (← g.set f "") rest
    | '-' :: c :: cs => do readFrom l (← l.readLetters g (c :: cs)) rest
    | _ =>
      if (l.subcommands.lookup arg).isSome then .ok { g with inner := some (arg, rest) }
      else if !l.subcommands.isEmpty && arg == "help" then
        .error (if l.isTopic rest then .help else .misuse (.superfluous arg))
      else do readFrom l (← g.addWord l arg) rest

/-- The arguments of a level, with every place filled and the subcommand there. -/
def read (l : Level) (args : List String) : Except Stop Given := do
  let g ← l.readFrom {} args
  if g.words.length < l.places.length then throw (.misuse (.missing "argument"))
  if !l.subcommands.isEmpty && g.inner.isNone then throw (.misuse (.missing "subcommand"))
  return g

end Level

/-!
## Invocations

What a command line asks for: a state directory and one of the commands. The
state directory may be given on any level, and the innermost one counts; where
none is given it is taken from the environment.
-/

/-- What is done with the merge queue. -/
inductive MergeVerb where
  | enqueue (identity branch node : String)
  | next
  | list (archived : Bool)
  | resolve (branch : String)
  | skip (branch : String)
  deriving DecidableEq, Repr

inductive Verb where
  | validate (pipeline : String)
  | info (pipeline : String)
  | status (pipeline : String)
  | dispatchable (pipeline : String)
  | transition (pipeline : String) (request : Request)
  | history (node : String)
  | checkpoint (pipeline : String)
  | checkpoints (pipeline : String)
  | emit (sender recipient type payload : String)
  | await (filter : Signal.Filter) (seconds : Nat)
  | signals (processed : Bool)
  | register (role name : String) (more : Particulars)
  | heartbeat (role name : String)
  | stale (seconds : Option Nat)
  | crash (id : String)
  | terminate (id : String)
  | identities
  | identity (id : String)
  | lineage (id : String)
  | createHook (id : String) (phase : Phase)
  | updateHook (id : String) (phase : Phase) (summary : String) (instructions : Option String)
  | hook (id : String)
  | brief (id : String)
  | resume (predecessor successor : String)
  | merge (pipeline : String) (repoRoot testCommand : Option String) (verb : MergeVerb)
  deriving DecidableEq, Repr

/-- A command and the state directory it works in. -/
structure Invocation where
  stateDir : String
  verb : Verb
  deriving DecidableEq, Repr

/-! ### Values -/

def misused {α : Type} (m : Misuse) : Except Stop α := .error (.misuse m)

def seconds? (v : String) : Option Nat := (Numeral.uint64? v.toList).map UInt64.toNat

def processNumber? (v : String) : Option UInt32 :=
  (Numeral.int64? v.toList).bind fun i =>
    if 0 ≤ i.toInt ∧ i.toInt < UInt32.size then some (UInt32.ofNat i.toInt.toNat) else none

def anyText (_ : String) : Bool := true

def isPath (p : String) : Bool := p != ""

def needed (g : Given) (name : String) : Except Stop String :=
  match g.value? name with
  | some v => .ok v
  | none => misused (.missing name)

/-- A value that is one of those that have a text. -/
def oneOf {α : Type} (read? : String → Option α) (v : String) : Except Stop α :=
  match read? v with
  | some a => .ok a
  | none => misused (.badValue "argument" v)

def optionally {α : Type} (read? : String → Option α) : Option String → Except Stop (Option α)
  | none => .ok none
  | some v => (oneOf read? v).map some

/-! ### Levels -/

def flag (name : String) : Flag := { name }

def pathFlag (name : String) : Flag := { name, admits := isPath }

def switch (name : String) (letter : Option Char) : Flag := { name, takesValue := false, letter }

def commonFlags : List Flag := [pathFlag "state-dir", switch "verbose" (some 'v')]

def level (places : List (String → Bool)) (flags : List Flag) : Level :=
  { flags := commonFlags ++ flags, places }

/-! ### Commands -/

/-- The command with its words, where the level has nothing else. -/
def simple (places : List (String → Bool)) (build : List String → Except Stop Verb)
    (args : List String) : Except Stop (List Given × Verb) := do
  let g ← (level places []).read args
  return ([g], ← build g.words)

/-- The number of words is not what the level makes sure of. -/
def incomplete {α : Type} : Except Stop α := misused (.missing "argument")

/-- A command whose only word is the path of a graph file. -/
def onPipeline (build : String → Verb) : List String → Except Stop (List Given × Verb) :=
  simple [isPath] fun
    | [p] => return build p
    | _ => incomplete

def onWord (build : String → Verb) : List String → Except Stop (List Given × Verb) :=
  simple [anyText] fun
    | [w] => return build w
    | _ => incomplete

def onWords (build : String → String → Verb) : List String → Except Stop (List Given × Verb) :=
  simple [anyText, anyText] fun
    | [v, w] => return build v w
    | _ => incomplete

def readTransition (args : List String) : Except Stop (List Given × Verb) := do
  let g ← (level [isPath, anyText, fun v => (Status.ofName? v).isSome]
    [flag "actor", pathFlag "evidence"]).read args
  match g.words with
  | [pipeline, node, target] =>
    let target ← oneOf Status.ofName? target
    let actor ← needed g "actor"
    return ([g], .transition pipeline { node, target, actor, evidence := g.value? "evidence" })
  | _ => incomplete

def readCheckpoint (args : List String) : Except Stop (List Given × Verb) := do
  let g ← (level [isPath] [switch "list" none]).read args
  match g.words with
  | [pipeline] =>
    return ([g], if g.isOn "list" then .checkpoints pipeline else .checkpoint pipeline)
  | _ => incomplete

def readEmit (args : List String) : Except Stop (List Given × Verb) := do
  let g ← (level [] [flag "from", flag "to", flag "type", flag "payload"]).read args
  return ([g], .emit (← needed g "from") (← needed g "to") (← needed g "type")
    ((g.value? "payload").getD "\x7b\x7d"))

/-- A flag whose value is a number of seconds. -/
def timeoutFlag : Flag := { name := "timeout-secs", admits := fun v => (seconds? v).isSome }

def readAwait (args : List String) : Except Stop (List Given × Verb) := do
  let g ← (level [] [flag "from", flag "to", flag "type", timeoutFlag]).read args
  let filter : Signal.Filter :=
    ⟨g.value? "from", g.value? "to", (g.value? "type").map SignalType.ofText⟩
  return ([g], .await filter (← oneOf seconds? ((g.value? "timeout-secs").getD "30")))

def readSignals (args : List String) : Except Stop (List Given × Verb) := do
  let g ← (level [] [switch "processed" none]).read args
  return ([g], .signals (g.isOn "processed"))

def readRegister (args : List String) : Except Stop (List Given × Verb) := do
  let pidFlag : Flag := { name := "pid", admits := fun v => (processNumber? v).isSome }
  let g ← (level [anyText, anyText]
    [pidFlag, flag "session", flag "worktree", flag "node", flag "predecessor"]).read args
  match g.words with
  | [role, name] =>
    return ([g], .register role name {
      sessionRef := g.value? "session"
      pid := ← optionally processNumber? (g.value? "pid")
      worktreePath := g.value? "worktree"
      nodeId := g.value? "node"
      predecessor := g.value? "predecessor" })
  | _ => incomplete

def readStale (args : List String) : Except Stop (List Given × Verb) := do
  let g ← (level [] [timeoutFlag]).read args
  return ([g], .stale (← optionally seconds? (g.value? "timeout-secs")))

def isPhase (v : String) : Bool := (Phase.ofName? v).isSome

def readCreateHook (args : List String) : Except Stop (List Given × Verb) := do
  let g ← (level [anyText] [{ name := "phase", admits := isPhase }]).read args
  match g.words with
  | [id] =>
    return ([g], .createHook id (← oneOf Phase.ofName? ((g.value? "phase").getD "planning")))
  | _ => incomplete

def readUpdateHook (args : List String) : Except Stop (List Given × Verb) := do
  let g ← (level [anyText, isPhase] [flag "summary", flag "instructions"]).read args
  match g.words with
  | [id, phase] =>
    return ([g], .updateHook id (← oneOf Phase.ofName? phase) (← needed g "summary")
      (g.value? "instructions"))
  | _ => incomplete

/-- The names of what is done with the merge queue. -/
def mergeCommands : List String := ["enqueue", "next", "list", "resolve", "skip"]

/-- The arguments of what is done with the merge queue. -/
def readMergeVerb (name : String) (args : List String) : Except Stop (Given × MergeVerb) := do
  match name with
  | "enqueue" =>
    let g ← (level [anyText, anyText, anyText] []).read args
    match g.words with
    | [identity, branch, node] => return (g, .enqueue identity branch node)
    | _ => incomplete
  | "next" => return (← (level [] []).read args, .next)
  | "list" =>
    let g ← (level [] [switch "archived" none]).read args
    return (g, .list (g.isOn "archived"))
  | "resolve" =>
    let g ← (level [anyText] []).read args
    match g.words with
    | [branch] => return (g, .resolve branch)
    | _ => incomplete
  | "skip" =>
    let g ← (level [anyText] []).read args
    match g.words with
    | [branch] => return (g, .skip branch)
    | _ => incomplete
  | _ => misused (.superfluous name)

def readMerge (args : List String) : Except Stop (List Given × Verb) := do
  let flags := [pathFlag "pipeline", pathFlag "repo-root", flag "test-command"]
  let group : Level := { level [] flags with subcommands := mergeCommands.map fun c => (c, []) }
  let g ← group.read args
  match g.inner with
  | none => incomplete
  | some (name, rest) =>
    let (inner, verb) ← readMergeVerb name rest
    return ([g, inner],
      .merge (← needed g "pipeline") (g.value? "repo-root") (g.value? "test-command") verb)

/-- The arguments of a command that has nothing but subcommands. -/
def readGroup (commands : List (String × (List String → Except Stop (List Given × Verb))))
    (args : List String) : Except Stop (List Given × Verb) := do
  let group : Level := { level [] [] with subcommands := commands.map fun c => (c.1, []) }
  let g ← group.read args
  match g.inner with
  | none => incomplete
  | some (name, rest) =>
    match commands.lookup name with
    | none => misused (.superfluous name)
    | some read =>
      let (inner, verb) ← read rest
      return (g :: inner, verb)

def signalCommands : List (String × (List String → Except Stop (List Given × Verb))) :=
  [("emit", readEmit), ("await", readAwait), ("list", readSignals)]

def identityCommands : List (String × (List String → Except Stop (List Given × Verb))) :=
  [("register", readRegister), ("heartbeat", onWords .heartbeat), ("stale", readStale),
   ("crash", onWord .crash), ("terminate", onWord .terminate),
   ("list", simple [] fun _ => return .identities), ("show", onWord .identity),
   ("lineage", onWord .lineage)]

def hookCommands : List (String × (List String → Except Stop (List Given × Verb))) :=
  [("create", readCreateHook), ("update", readUpdateHook), ("show", onWord .hook),
   ("brief", onWord .brief), ("resume", onWords .resume)]

def readCommand (name : String) : List String → Except Stop (List Given × Verb) :=
  match name with
  | "validate" => onPipeline .validate
  | "info" => onPipeline .info
  | "status" => onPipeline .status
  | "dispatchable" => onPipeline .dispatchable
  | "transition" => readTransition
  | "history" => onWord .history
  | "checkpoint" => readCheckpoint
  | "signal" => readGroup signalCommands
  | "identity" => readGroup identityCommands
  | "hook" => readGroup hookCommands
  | "merge" => readMerge
  | _ => fun _ => misused (.superfluous name)

def topLevel : Level :=
  { level [] [] with
    subcommands :=
      ["validate", "info", "status", "dispatchable", "transition", "history", "checkpoint"].map
        (·, [])
      ++ [("signal", signalCommands.map (·.1)), ("identity", identityCommands.map (·.1)),
        ("hook", hookCommands.map (·.1)), ("merge", mergeCommands)]
    hasVersion := true }

/-- The state directory: the innermost one that is given, else that of the environment,
else the usual one. That of the environment is looked at, and must not be empty, unless
every level has one of its own. -/
def chosenStateDir (given : List Given) (fromEnvironment : Option String) : Except Stop String :=
  let dirs := given.filterMap (·.value? "state-dir")
  if dirs.length = given.length then return dirs.getLast?.getD ".relay"
  else do
    let around ← optionally (fun v => if isPath v then some v else none) fromEnvironment
    return (dirs.getLast?.or around).getD ".relay"

def Invocation.ofArgs (args : List String) (fromEnvironment : Option String) :
    Except Stop Invocation := do
  let top ← topLevel.read args
  match top.inner with
  | none => incomplete
  | some (name, rest) =>
    let (inner, verb) ← readCommand name rest
    return ⟨← chosenStateDir (top :: inner) fromEnvironment, verb⟩

end Pipewright.Command
