import Pipewright.Error
import Pipewright.Keyed
import Pipewright.Pipeline.Basic

/-!
# Searches and rules

The searches along edges, and the rules that make use of them.
-/

/-!
## Searching along edges

The two loops by which the rules look along the edges of a pipeline.

A `Search` goes breadth first. Ids wait in a queue, and of the one that has waited
longest every successor is looked at: if it has not been visited before it is visited
now, and waits in its turn. A search may want some ids, and then it is over as soon as it
visits one of them.

A `Sorting` takes ids away to which no edge leads from an id that is left, one after
the other, and counts them. It never comes to an id on a cycle, nor to one that a cycle
leads to.

Neither loop has a bound. Both end because a turn takes one id from the queue for good,
so fewer ids are left that wait or may come to wait (`Search.pending`,
`Sorting.pending`).
-/

namespace Pipewright.Reach

/-! ### Breadth first -/

/-- A graph as it is searched: the successors of each id, which are always among finitely many
ends of edges. -/
structure Graph where
  next : String → List String
  ends : List String
  next_mem : ∀ a, ∀ b ∈ next a, b ∈ ends

/-- Where a search stands: the ids that have been visited, those of them whose successors have not
been looked at, longest waiting first, and whether a wanted id has been found. -/
structure Search where
  visited : List String
  queue : List String
  found : Bool

namespace Search

variable {g : Graph} {wanted : String → Bool} {s : Search}

def start (id : String) : Search := ⟨[id], [id], false⟩

/-- Visits the ids that have not been visited, in turn, up to the first that is wanted; the others
wait from then on. -/
def look (wanted : String → Bool) : List String → Search → Search
  | [], s => s
  | id :: rest, s =>
    if s.visited.contains id then look wanted rest s
    else if wanted id then { s with visited := id :: s.visited, found := true }
    else look wanted rest { s with visited := id :: s.visited, queue := s.queue ++ [id] }

def turn (g : Graph) (wanted : String → Bool) (s : Search) : Search :=
  match s.queue with
  | [] => s
  | id :: rest => look wanted (g.next id) { s with queue := rest }

def isOver (s : Search) : Bool := s.found || s.queue.isEmpty

/-- How many ids wait, or may still come to wait because they have not been visited. -/
def pending (g : Graph) (s : Search) : Nat :=
  s.queue.length + (g.ends.filter (!s.visited.contains ·)).length

theorem length_unvisited_lt {ends visited : List String} {id : String} (hid : id ∈ ends)
    (hnew : visited.contains id = false) :
    (ends.filter (!(id :: visited).contains ·)).length
      < (ends.filter (!visited.contains ·)).length := by
  have hsplit : ends.filter (!(id :: visited).contains ·)
      = (ends.filter (!visited.contains ·)).filter (· ≠ id) := by
    rw [List.filter_filter]
    congr 1
    funext v
    simp
  rw [hsplit, List.length_filter_lt_length_iff_exists]
  exact ⟨id, List.mem_filter.mpr ⟨hid, by rw [hnew]; rfl⟩, by simp⟩

theorem pending_look_le {l : List String} (hl : ∀ id ∈ l, id ∈ g.ends) :
    (look wanted l s).pending g ≤ s.pending g := by
  induction l generalizing s with
  | nil => exact Nat.le_refl _
  | cons id rest ih =>
      obtain ⟨hid, hrest⟩ := List.forall_mem_cons.mp hl
      rw [look]
      split
      · exact ih hrest
      · next hnew =>
        have hfewer := length_unvisited_lt hid (Bool.eq_false_iff.mpr hnew)
        split
        · exact Nat.add_le_add_left (Nat.le_of_lt hfewer) _
        · refine Nat.le_trans (ih hrest) ?_
          simp only [pending, List.length_append, List.length_singleton]
          omega

theorem pending_turn_lt (h : ¬s.isOver) : (s.turn g wanted).pending g < s.pending g := by
  unfold turn
  cases hqueue : s.queue with
  | nil => exact absurd (by simp [isOver, hqueue]) h
  | cons id rest =>
      refine Nat.lt_of_le_of_lt (pending_look_le (g.next_mem id)) ?_
      simp only [pending, hqueue, List.length_cons]
      omega

def run (g : Graph) (wanted : String → Bool) (s : Search) : Search :=
  if s.isOver then s else run g wanted (s.turn g wanted)
termination_by s.pending g
decreasing_by exact pending_turn_lt ‹_›

end Search

/-! ### Taking ids away -/

/-- Edges as they are counted: how many lead to each id, and where the edges from it lead. -/
structure Tally where
  entering : Keyed Nat
  next : Keyed (List String)

/-- Counts an edge if both its ends are among the ids. -/
def Tally.add (t : Tally) (e : String × String) : Tally :=
  if (t.entering.get? e.1).isNone then t
  else match t.entering.get? e.2 with
    | none => t
    | some n => ⟨t.entering.insert e.2 (n + 1),
        t.next.insert e.1 ((t.next.get? e.1).getD [] ++ [e.2])⟩

def tally (ids : List String) (edges : List (String × String)) : Tally :=
  edges.foldl Tally.add ⟨.ofList (ids.map fun id => (id, 0)), ∅⟩

/-- Where sorting stands: how many edges lead to each id from ids that have not been taken, the ids
that wait to be taken, longest waiting first, and how many have been taken. -/
structure Sorting where
  entering : Keyed Nat
  queue : List String
  taken : Nat

namespace Sorting

variable {next : Keyed (List String)} {s : Sorting}

/-- Takes an edge to the id away; with the last one the id comes to wait. There is always one to
take away when this is done (`Reach.Sorted.entered`). -/
def free (s : Sorting) (id : String) : Sorting :=
  match s.entering.get? id with
  | some (n + 1) =>
    { s with
      entering := s.entering.insert id n
      queue := if n = 0 then s.queue ++ [id] else s.queue }
  | _ => s

def turn (next : Keyed (List String)) (s : Sorting) : Sorting :=
  match s.queue with
  | [] => s
  | id :: rest =>
    ((next.get? id).getD []).foldl free { s with queue := rest, taken := s.taken + 1 }

/-- How many ids wait, or may still come to wait because edges lead to them. -/
def pending (s : Sorting) : Nat :=
  s.queue.length + (s.entering.entries.filter (·.2 ≠ 0)).length

theorem pending_free (s : Sorting) (id : String) : (s.free id).pending = s.pending := by
  unfold free
  split
  · next n hn =>
    obtain ⟨front, back, hsplit, hinsert⟩ := s.entering.insert_of_get? hn n
    simp only [pending, hsplit, hinsert, List.filter_append, List.length_append]
    by_cases hzero : n = 0
    · simp [hzero]
      omega
    · simp [hzero]
  · rfl

theorem pending_turn_lt (h : s.queue ≠ []) : (s.turn next).pending < s.pending := by
  have hfold : ∀ (l : List String) (s : Sorting), (l.foldl free s).pending = s.pending := by
    intro l
    induction l with
    | nil => exact fun _ => rfl
    | cons id rest ih => exact fun s => (ih _).trans (pending_free s id)
  unfold turn
  cases hqueue : s.queue with
  | nil => exact absurd hqueue h
  | cons id rest =>
      rw [hfold]
      simp only [pending, hqueue, List.length_cons]
      omega

def run (next : Keyed (List String)) (s : Sorting) : Sorting :=
  if s.queue = [] then s else run next (s.turn next)
termination_by s.pending
decreasing_by exact pending_turn_lt ‹_›

def left (s : Sorting) : List String := (s.entering.entries.filter (·.2 ≠ 0)).map (·.1)

def isDone (s : Sorting) : Bool := s.taken == s.entering.entries.length

end Sorting

def Tally.unentered (t : Tally) : List String :=
  (t.entering.entries.filter (·.2 = 0)).map (·.1)

/-- Takes away what can be taken of some ids with edges between them. -/
def sort (ids : List String) (edges : List (String × String)) : Sorting :=
  let t := tally ids edges
  Sorting.run t.next ⟨t.entering, t.unentered, 0⟩

end Pipewright.Reach

/-!
## Rules of well-formed pipelines

Fourteen rules look at a pipeline and report what they find; none changes
anything. Twelve of them report errors, and a pipeline is *valid* if they are
silent; the last two give advice. `Pipeline.findings` lists everything in the
order of the rules, and inside a rule in the order of declaration.

What is found is a `Finding`; its rule, its severity and its wording follow
from it.
-/

namespace Pipewright.Pipeline

inductive Finding where
  | duplicateId (id : String) (line : Nat)
  | unknownEndpoint (source target endpoint : String)
  | selfLoop (id : String)
  | cycle (ids : List String)
  | noStart
  | severalStarts (ids : List String)
  | noExit
  | startEntered (id : String)
  | exitLeft (id : String)
  | noWorkerRole (id : String)
  | noAcceptance (id : String)
  | decisionAcceptance (id : String)
  | gateWithoutWork (id : String)
  | pinMissing (id : String) (status : Status)
  | acceptanceChanged (id : String)
  | acceptanceRemoved (id : String)
  | unreachable (id start : String)
  | stuck (id : String) (retries : Nat)
  deriving DecidableEq, Repr

namespace Finding

/-- The name of the rule that reports the finding. -/
def rule : Finding → String
  | duplicateId .. => "duplicate_node_id"
  | unknownEndpoint .. => "edge_endpoints_exist"
  | selfLoop .. => "no_self_loop"
  | cycle .. => "acyclic"
  | noStart => "start_node"
  | severalStarts .. => "start_node"
  | noExit => "exit_node"
  | startEntered .. => "start_no_incoming"
  | exitLeft .. => "exit_no_outgoing"
  | noWorkerRole .. => "work_attributes"
  | noAcceptance .. => "work_attributes"
  | decisionAcceptance .. => "decision_no_acceptance"
  | gateWithoutWork .. => "gate_reachable_from_work"
  | pinMissing .. => "acceptance_immutable"
  | acceptanceChanged .. => "acceptance_immutable"
  | acceptanceRemoved .. => "acceptance_immutable"
  | unreachable .. => "reachability"
  | stuck .. => "stuck_nodes"

def isAdvice : Finding → Bool
  | unreachable .. => true
  | stuck .. => true
  | _ => false

def message : Finding → String
  | duplicateId id line =>
    "Node id '" ++ id ++ "' is declared more than once (line " ++ Numeral.text line ++ ")"
  | unknownEndpoint source target endpoint =>
    "Edge " ++ source ++ " -> " ++ target ++ " references unknown node '" ++ endpoint ++ "'"
  | selfLoop id => "Node '" ++ id ++ "' has an edge to itself"
  | cycle ids =>
    "Unconditional/on-success edges form a cycle through: " ++ ", ".intercalate ids
  | noStart => "Pipeline has no start node (kind=start or shape=Mdiamond)"
  | severalStarts ids =>
    "Pipeline has " ++ Numeral.text ids.length ++ " start nodes: " ++ ", ".intercalate ids
      ++ "; expected exactly one"
  | noExit => "Pipeline has no exit node (kind=exit-success/exit-failure or shape=Msquare)"
  | startEntered id => "Start node '" ++ id ++ "' has incoming edges"
  | exitLeft id => "Exit node '" ++ id ++ "' has outgoing edges"
  | noWorkerRole id => "Work node '" ++ id ++ "' has no worker_role"
  | noAcceptance id => "Work node '" ++ id ++ "' has no acceptance"
  | decisionAcceptance id => "Decision node '" ++ id ++ "' must not carry acceptance criteria"
  | gateWithoutWork id => "Validation gate '" ++ id ++ "' is not reachable from any work node"
  | pinMissing id status =>
    "Node '" ++ id ++ "' is " ++ status.name ++ " but its acceptance_hash is missing"
  | acceptanceChanged id => "Acceptance of node '" ++ id ++ "' changed after it was first validated"
  | acceptanceRemoved id =>
    "Acceptance of node '" ++ id ++ "' was removed after it was first validated"
  | unreachable id start =>
    "Node '" ++ id ++ "' is not reachable from start node '" ++ start ++ "'"
  | stuck id retries => "Node '" ++ id ++ "' is stuck after " ++ Numeral.text retries ++ " retries"

def node? : Finding → Option String
  | duplicateId id _ => some id
  | startEntered id => some id
  | exitLeft id => some id
  | noWorkerRole id => some id
  | noAcceptance id => some id
  | decisionAcceptance id => some id
  | gateWithoutWork id => some id
  | pinMissing id _ => some id
  | acceptanceChanged id => some id
  | acceptanceRemoved id => some id
  | unreachable id _ => some id
  | stuck id _ => some id
  | _ => none

def edge? : Finding → Option (String × String)
  | unknownEndpoint source target _ => some (source, target)
  | selfLoop id => some (id, id)
  | _ => none

end Finding

/-! ### Structure -/

/-- Second declarations of an id, one for each id; `seen` are the ids before, with
whether they have been reported. -/
def duplicates (seen : List (String × Bool)) : List Node → List Finding
  | [] => []
  | n :: rest =>
    match seen.lookup n.id with
    | none => duplicates ((n.id, false) :: seen) rest
    | some true => duplicates seen rest
    | some false => .duplicateId n.id n.line :: duplicates ((n.id, true) :: seen) rest

def lintIds (p : Pipeline) : List Finding := duplicates [] p.nodes

def lintEndpoints (p : Pipeline) : List Finding :=
  p.edges.flatMap fun e =>
    ([e.source, e.target].filter fun id => !p.ids.contains id).map
      (.unknownEndpoint e.source e.target)

def lintSelfLoops (p : Pipeline) : List Finding :=
  (p.edges.filter fun e => e.source = e.target).map fun e => .selfLoop e.source

/-- The pairs of ids between which work flows forward, those of an id with itself left out. -/
def forwardPairs (p : Pipeline) : List (String × String) :=
  (p.edges.filter fun e => e.condition.isForward && e.source != e.target).map
    fun e => (e.source, e.target)

/-- The declared nodes with the forward edges between them, after nodes to which no edge leads were
taken away one by one. -/
def sorted (p : Pipeline) : Reach.Sorting := Reach.sort p.ids p.forwardPairs

def lintCycles (p : Pipeline) : List Finding :=
  if p.sorted.isDone then [] else [.cycle (p.sorted.left.mergeSort (· ≤ ·))]

def lintStart (p : Pipeline) : List Finding :=
  match p.starts with
  | [] => [.noStart]
  | [_] => []
  | several => [.severalStarts (several.map (·.id))]

def lintExit (p : Pipeline) : List Finding :=
  if p.exits.isEmpty then [.noExit] else []

def lintStartEntered (p : Pipeline) : List Finding :=
  (p.starts.filter fun n => !(p.incoming n.id).isEmpty).map fun n => .startEntered n.id

def lintExitLeft (p : Pipeline) : List Finding :=
  (p.exits.filter fun n => !(p.outgoing n.id).isEmpty).map fun n => .exitLeft n.id

/-! ### Meaning -/

/-- There is no text, or one of white space only. -/
def isMissing (s : Option String) : Bool :=
  match s with
  | none => true
  | some t => Text.isBlankText t

/-- A node of work names its role and says what has to hold. -/
def lintWork (p : Pipeline) : List Finding :=
  (p.ofKind .work).flatMap fun n =>
    (if isMissing n.workerRole then [.noWorkerRole n.id] else [])
      ++ (if isMissing n.acceptance then [.noAcceptance n.id] else [])

/-- A decision is not accepted or refused, so it has no acceptance text. -/
def lintDecisions (p : Pipeline) : List Finding :=
  ((p.ofKind .decision).filter (·.acceptance.isSome)).map fun n => .decisionAcceptance n.id

def isWork (p : Pipeline) (id : String) : Bool :=
  match p.node? id with
  | some n => n.kind == .work
  | none => false

/-- The edges as they are searched against their direction. -/
def backwards (p : Pipeline) : Reach.Graph where
  next id := (p.incoming id).map (·.source)
  ends := p.edges.map (·.source)
  next_mem _ _ hnext := (List.filter_sublist.map _).subset hnext

/-- The search for work that leads to a gate. -/
def workBefore (p : Pipeline) (gate : String) : Reach.Search :=
  Reach.Search.run p.backwards p.isWork (.start gate)

/-- A gate judges work, so it can be reached from some. -/
def lintGates (p : Pipeline) : List Finding :=
  ((p.ofKind .gate).filter fun g => !(p.workBefore g.id).found).map fun g => .gateWithoutWork g.id

/-- What is wrong with the pin of a node to its acceptance text. -/
def pinFinding (n : Node) : List Finding :=
  match n.acceptanceHash with
  | none => if n.requiresPin then [.pinMissing n.id n.status] else []
  | some pin =>
    match n.digest with
    | none => [.acceptanceRemoved n.id]
    | some d => if d = pin then [] else [.acceptanceChanged n.id]

/-- The acceptance text of a pinned node is the one it was pinned to. -/
def lintPins (p : Pipeline) : List Finding := p.nodes.flatMap pinFinding

/-! ### Advice -/

/-- The edges as they are searched in their direction. -/
def forwards (p : Pipeline) : Reach.Graph where
  next id := (p.outgoing id).map (·.target)
  ends := p.edges.map (·.target)
  next_mem _ _ hnext := (List.filter_sublist.map _).subset hnext

/-- The search for all that a node leads to; it wants nothing in particular. -/
def reachedFrom (p : Pipeline) (id : String) : Reach.Search :=
  Reach.Search.run p.forwards (fun _ => false) (.start id)

/-- Every node can be reached from the first start node. -/
def lintReachability (p : Pipeline) : List Finding :=
  match p.starts with
  | [] => []
  | s :: _ =>
    let reached := (p.reachedFrom s.id).visited
    (p.nodes.filter fun n => !reached.contains n.id).map fun n => .unreachable n.id s.id

def lintStuck (p : Pipeline) : List Finding :=
  (p.nodes.filter (·.status = .stuck)).map fun n => .stuck n.id n.retryCount.toNat

/-! ### All rules -/

def findings (p : Pipeline) : List Finding :=
  p.lintIds ++ p.lintEndpoints ++ p.lintSelfLoops ++ p.lintCycles ++ p.lintStart ++ p.lintExit
    ++ p.lintStartEntered ++ p.lintExitLeft ++ p.lintWork ++ p.lintDecisions ++ p.lintGates
    ++ p.lintPins ++ p.lintReachability ++ p.lintStuck

def errors (p : Pipeline) : List Finding := p.findings.filter (!·.isAdvice)

def warnings (p : Pipeline) : List Finding := p.findings.filter (·.isAdvice)

def isValid (p : Pipeline) : Bool := p.errors.isEmpty

/-- The names of the rules that found something, as often as they did. -/
def brokenRules (p : Pipeline) : List String := p.findings.map Finding.rule

def hasRule (p : Pipeline) (rule : String) : Bool := p.brokenRules.contains rule

/-- Refuses a pipeline that breaks a rule, with all that is wrong. -/
def requireValid (p : Pipeline) : Except Error Unit :=
  match p.errors with
  | [] => .ok ()
  | found =>
    .error (.invalid ("; ".intercalate (found.map fun f => "[" ++ f.rule ++ "] " ++ f.message)))

end Pipewright.Pipeline
