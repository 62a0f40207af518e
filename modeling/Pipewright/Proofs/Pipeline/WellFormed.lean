import Mathlib.Data.String.Basic
import Pipewright.Proofs.Pipeline.Reach
import Pipewright.Proofs.Pipeline.Validity

/-!
# Rules and searches

The rules report nothing of just the pipelines that are well formed; what they report of cycles and
of searches is said exactly.
-/

/-!
## What the rules say

The rules search a pipeline: they count the edges that lead to a node and take
nodes away, and they follow edges with a queue. `WellFormed` says the same without a
search, by paths and cycles: which edges there may be, where the pipeline begins and
ends, and what its nodes have to carry. The rules that report errors are silent just
if it holds (`errors_eq_nil_iff_wellFormed`), of every pipeline: one with ids declared
twice, with edges from or to nowhere, or with several edges between two nodes too.

Each rule has a lemma that reads its silence as a part of `WellFormed`. Two of
them take what another rule says: a cycle is looked for among the declared nodes
only, and the node of an id is the one declared first.
-/

namespace Pipewright.Pipeline

open Relation

/-! ### Well-formed pipelines -/

/-- An edge leads from one node to another. -/
def Leads (p : Pipeline) (a b : String) : Prop := ∃ e ∈ p.edges, e.source = a ∧ e.target = b

/-- Work flows forward along an edge from one node to another: the edge is followed in any case
or on success. -/
def Feeds (p : Pipeline) (a b : String) : Prop :=
  ∃ e ∈ p.edges, (e.condition = .unconditional ∨ e.condition = .onSuccess)
    ∧ e.source = a ∧ e.target = b

/-- Work flows forward from one declared node to another one. -/
def Flows (p : Pipeline) (a b : String) : Prop :=
  p.Feeds a b ∧ a ≠ b ∧ a ∈ p.ids ∧ b ∈ p.ids

/-- There is a text that does not only hold white space. -/
def IsSaid (s : Option String) : Prop := ∃ t, s = some t ∧ ∃ c ∈ t.toList, Text.isBlank c = false

/-- The pipeline is one that can be carried out. -/
structure WellFormed (p : Pipeline) : Prop where
  /-- No id is declared twice. -/
  nodup : p.ids.Nodup
  declared : ∀ e ∈ p.edges, e.source ∈ p.ids ∧ e.target ∈ p.ids
  no_selfLoop : ∀ e ∈ p.edges, e.source ≠ e.target
  acyclic : ∀ v, ¬TransGen p.Feeds v v
  /-- There is one start, and no edge leads to it. -/
  start : ∃ s, p.nodes.filter (·.kind = .start) = [s] ∧ ∀ e ∈ p.edges, e.target ≠ s.id
  exit : ∃ n ∈ p.nodes, n.kind = .exitSuccess ∨ n.kind = .exitFailure
  exit_last : ∀ n ∈ p.nodes, n.kind = .exitSuccess ∨ n.kind = .exitFailure →
    ∀ e ∈ p.edges, e.source ≠ n.id
  work : ∀ n ∈ p.nodes, n.kind = .work → IsSaid n.workerRole ∧ IsSaid n.acceptance
  decision : ∀ n ∈ p.nodes, n.kind = .decision → n.acceptance = none
  /-- A path leads to every gate from a node of work. -/
  gate : ∀ g ∈ p.nodes, g.kind = .gate → ∃ n ∈ p.nodes, n.kind = .work ∧
    ReflTransGen p.Leads n.id g.id
  pin : ∀ n ∈ p.nodes, ∀ pin, n.acceptanceHash = some pin →
    ∃ text, n.acceptance = some text ∧ sha256Text text = pin
  pinned : ∀ n ∈ p.nodes, n.kind = .work →
    n.status = .validated ∨ n.status = .mergeReady ∨ n.status = .merged →
      ∃ pin, n.acceptanceHash = some pin

variable {p : Pipeline}

/-! ### Lists of ids -/

theorem mem_foldl_distinct {seen l : List String} {v : String} :
    v ∈ l.foldl (fun seen s => if seen.contains s then seen else seen ++ [s]) seen
      ↔ v ∈ seen ∨ v ∈ l := by
  induction l generalizing seen with
  | nil => simp
  | cons w rest ih =>
      rw [List.foldl_cons, ih]
      split <;> grind

theorem mem_distinct {l : List String} {v : String} : v ∈ distinct l ↔ v ∈ l := by
  rw [distinct, mem_foldl_distinct, List.mem_nil_iff, false_or]

/-! ### Structure -/

theorem duplicates_of_nodup {seen : List (String × Bool)} {nodes : List Node}
    (hnodup : (nodes.map (·.id)).Nodup) (hseen : ∀ n ∈ nodes, seen.lookup n.id = none) :
    duplicates seen nodes = [] := by
  induction nodes generalizing seen with
  | nil => rfl
  | cons n rest ih =>
      obtain ⟨hnew, hnodup⟩ := List.nodup_cons.mp hnodup
      obtain ⟨hn, hrest⟩ := List.forall_mem_cons.mp hseen
      rw [duplicates, hn]
      refine ih hnodup fun m hm => ?_
      have hne : m.id ≠ n.id := fun heq => hnew (List.mem_map.mpr ⟨m, hm, heq⟩)
      rw [Keyed.lookup_cons_if, if_neg hne]
      exact hrest m hm

theorem lintIds_eq_nil_iff : p.lintIds = [] ↔ p.ids.Nodup :=
  ⟨fun h => (nodup_of_duplicates (by simp) h).1, fun h => duplicates_of_nodup h (by simp)⟩

theorem lintEndpoints_eq_nil_iff :
    p.lintEndpoints = [] ↔ ∀ e ∈ p.edges, e.source ∈ p.ids ∧ e.target ∈ p.ids := by
  simp [lintEndpoints, List.flatMap_eq_nil_iff, List.filter_eq_nil_iff]

theorem lintSelfLoops_eq_nil_iff :
    p.lintSelfLoops = [] ↔ ∀ e ∈ p.edges, e.source ≠ e.target := by
  simp [lintSelfLoops, List.filter_eq_nil_iff]

theorem isForward_iff {c : Condition} :
    c.isForward = true ↔ c = .unconditional ∨ c = .onSuccess := by
  cases c <;> simp [Condition.isForward]

theorem joins_forwardPairs (p : Pipeline) : Reach.Joins p.ids p.forwardPairs = p.Flows := by
  funext a b
  rw [eq_iff_iff]
  constructor
  · rintro ⟨hpair, hsource, htarget⟩
    obtain ⟨e, he, heq⟩ := List.mem_map.mp hpair
    obtain ⟨rfl, rfl⟩ := Prod.mk.inj heq
    obtain ⟨hmem, hkept⟩ := List.mem_filter.mp he
    obtain ⟨hforward, hne⟩ := Bool.and_eq_true_iff.mp hkept
    exact ⟨⟨e, hmem, isForward_iff.mp hforward, rfl, rfl⟩, bne_iff_ne.mp hne, hsource, htarget⟩
  · rintro ⟨⟨e, he, hforward, rfl, rfl⟩, hne, hsource, htarget⟩
    refine ⟨List.mem_map.mpr ⟨e, List.mem_filter.mpr ⟨he, ?_⟩, rfl⟩, hsource, htarget⟩
    simp [isForward_iff.mpr hforward, hne]

/-- Where every end of an edge is declared and no edge leads back to its node, there are no other
forward edges. -/
theorem flows_eq_feeds (hdeclared : ∀ e ∈ p.edges, e.source ∈ p.ids ∧ e.target ∈ p.ids)
    (hloops : ∀ e ∈ p.edges, e.source ≠ e.target) : p.Flows = p.Feeds := by
  funext a b
  rw [eq_iff_iff]
  refine ⟨fun h => h.1, ?_⟩
  rintro ⟨e, he, hforward, rfl, rfl⟩
  exact ⟨⟨e, he, hforward, rfl, rfl⟩, hloops e he, hdeclared e he⟩

/-- What is left of the declared nodes are those on a cycle and those that one leads to. -/
theorem mem_left_sorted_iff {v : String} :
    v ∈ p.sorted.left ↔ ∃ c, TransGen p.Flows c c ∧ ReflTransGen p.Flows c v := by
  rw [sorted, Reach.mem_left_sort_iff, Reach.Trails, joins_forwardPairs]

theorem isDone_sorted_iff : p.sorted.isDone = true ↔ ∀ v, ¬TransGen p.Flows v v := by
  rw [sorted, Reach.isDone_sort_iff, ← sorted, List.eq_nil_iff_forall_not_mem]
  constructor
  · exact fun h v hcycle => h v (mem_left_sorted_iff.mpr ⟨v, hcycle, .refl⟩)
  · intro h v hv
    obtain ⟨c, hcycle, -⟩ := mem_left_sorted_iff.mp hv
    exact h c hcycle

theorem lintCycles_eq_nil_iff (hdeclared : ∀ e ∈ p.edges, e.source ∈ p.ids ∧ e.target ∈ p.ids)
    (hloops : ∀ e ∈ p.edges, e.source ≠ e.target) :
    p.lintCycles = [] ↔ ∀ v, ¬TransGen p.Feeds v v := by
  have hsilent : p.lintCycles = [] ↔ p.sorted.isDone = true := by
    unfold lintCycles
    split
    · next hdone => exact iff_of_true rfl hdone
    · next hleft => exact iff_of_false (List.cons_ne_nil _ _) hleft
  rw [hsilent, isDone_sorted_iff, flows_eq_feeds hdeclared hloops]

theorem lintStart_eq_nil_iff : p.lintStart = [] ↔ ∃ s, p.starts = [s] := by
  unfold lintStart
  split
  · next hnone => simp [hnone]
  · next s hone => exact iff_of_true rfl ⟨s, hone⟩
  · next hsome => exact iff_of_false (List.cons_ne_nil _ _) fun ⟨s, hone⟩ => hsome s hone

theorem lintStartEntered_eq_nil_iff :
    p.lintStartEntered = [] ↔ ∀ s ∈ p.starts, ∀ e ∈ p.edges, e.target ≠ s.id := by
  simp [lintStartEntered, List.filter_eq_nil_iff, incoming]

theorem mem_exits_iff {n : Node} :
    n ∈ p.exits ↔ n ∈ p.nodes ∧ (n.kind = .exitSuccess ∨ n.kind = .exitFailure) := by
  have hkind : n.kind.isExit = true ↔ n.kind = .exitSuccess ∨ n.kind = .exitFailure := by
    cases n.kind <;> simp [Kind.isExit]
  rw [exits, List.mem_filter, hkind]

theorem lintExit_eq_nil_iff :
    p.lintExit = [] ↔ ∃ n ∈ p.nodes, n.kind = .exitSuccess ∨ n.kind = .exitFailure := by
  have hsilent : p.lintExit = [] ↔ p.exits ≠ [] := by
    unfold lintExit
    split <;> simp_all
  simp only [hsilent, ne_eq, List.eq_nil_iff_forall_not_mem, not_forall, not_not,
    mem_exits_iff]

theorem lintExitLeft_eq_nil_iff :
    p.lintExitLeft = [] ↔ ∀ n ∈ p.nodes, n.kind = .exitSuccess ∨ n.kind = .exitFailure →
      ∀ e ∈ p.edges, e.source ≠ n.id := by
  have houtgoing : ∀ id, p.outgoing id = [] ↔ ∀ e ∈ p.edges, e.source ≠ id := by
    simp [outgoing]
  simp only [lintExitLeft, List.map_eq_nil_iff, List.filter_eq_nil_iff, mem_exits_iff, and_imp,
    Bool.not_eq_true', Bool.not_eq_false, List.isEmpty_iff, houtgoing]

/-! ### Meaning -/

theorem isMissing_iff {s : Option String} : isMissing s = false ↔ IsSaid s := by
  cases s <;> simp [isMissing, IsSaid, Text.isBlankText, Text.allBlank]

theorem lintWork_eq_nil_iff :
    p.lintWork = [] ↔
      ∀ n ∈ p.nodes, n.kind = .work → IsSaid n.workerRole ∧ IsSaid n.acceptance := by
  simp [lintWork, ofKind, List.flatMap_eq_nil_iff, ← isMissing_iff]

theorem lintDecisions_eq_nil_iff :
    p.lintDecisions = [] ↔ ∀ n ∈ p.nodes, n.kind = .decision → n.acceptance = none := by
  simp only [lintDecisions, ofKind, List.map_eq_nil_iff, List.filter_eq_nil_iff, List.mem_filter,
    decide_eq_true_iff, and_imp, Bool.not_eq_true, Option.isSome_eq_false_iff,
    Option.isNone_iff_eq_none]

theorem succeeds_backwards (p : Pipeline) :
    Reach.Succeeds p.backwards = Function.swap p.Leads := by
  funext a b
  simp [Reach.Succeeds, backwards, Function.swap, Leads, incoming, and_assoc, and_comm]

theorem succeeds_forwards (p : Pipeline) : Reach.Succeeds p.forwards = p.Leads := by
  funext a b
  simp [Reach.Succeeds, forwards, Leads, outgoing, and_assoc]

theorem mem_reachedFrom_iff {a b : String} :
    b ∈ (p.reachedFrom a).visited ↔ ReflTransGen p.Leads a b := by
  rw [reachedFrom, Reach.Search.mem_visited_iff, succeeds_forwards]

/-- The search before a gate finds work just if there is some that leads to it. -/
theorem found_workBefore_iff {gate : String} : (p.workBefore gate).found = true ↔
    ∃ id, id ≠ gate ∧ p.isWork id = true ∧ ReflTransGen p.Leads id gate := by
  simp only [workBefore, Reach.Search.found_iff, Reach.Finds, succeeds_backwards,
    reflTransGen_swap]

/-- Where no id is declared twice every node is the one of its id. -/
theorem node?_eq_some_iff (hids : p.ids.Nodup) {id : String} {n : Node} :
    p.node? id = some n ↔ n ∈ p.nodes ∧ n.id = id := by
  constructor
  · intro h
    exact ⟨List.mem_of_find?_eq_some h, by simpa using List.find?_some h⟩
  · rintro ⟨hn, rfl⟩
    obtain ⟨m, hm⟩ : ∃ m, p.node? n.id = some m :=
      Option.isSome_iff_exists.mp (List.find?_isSome.mpr ⟨n, hn, by simp⟩)
    have hid : m.id = n.id := by simpa using List.find?_some hm
    rw [hm, List.inj_on_of_nodup_map hids (List.mem_of_find?_eq_some hm) hn hid]

theorem isWork_iff (hids : p.ids.Nodup) {id : String} :
    p.isWork id = true ↔ ∃ n ∈ p.nodes, n.kind = .work ∧ n.id = id := by
  unfold isWork
  split
  · next n hn =>
    obtain ⟨hmem, rfl⟩ := (node?_eq_some_iff hids).mp hn
    rw [beq_iff_eq]
    refine ⟨fun h => ⟨n, hmem, h, rfl⟩, fun ⟨m, hm, hkind, hid⟩ => ?_⟩
    rwa [← List.inj_on_of_nodup_map hids hm hmem hid]
  · next hnone =>
    refine iff_of_false Bool.false_ne_true fun ⟨m, hm, _, hid⟩ => ?_
    cases hnone.symm.trans ((node?_eq_some_iff hids).mpr ⟨hm, hid⟩)

theorem lintGates_eq_nil_iff (hids : p.ids.Nodup) :
    p.lintGates = [] ↔ ∀ g ∈ p.nodes, g.kind = .gate →
      ∃ n ∈ p.nodes, n.kind = .work ∧ ReflTransGen p.Leads n.id g.id := by
  have hsearch : ∀ g ∈ p.nodes, g.kind = .gate →
      ((p.workBefore g.id).found = true ↔
        ∃ n ∈ p.nodes, n.kind = .work ∧ ReflTransGen p.Leads n.id g.id) := by
    intro g hg hkind
    simp only [found_workBefore_iff, isWork_iff hids]
    constructor
    · rintro ⟨v, -, ⟨n, hn, hwork, rfl⟩, hpath⟩
      exact ⟨n, hn, hwork, hpath⟩
    · rintro ⟨n, hn, hwork, hpath⟩
      refine ⟨n.id, fun hid => ?_, ⟨n, hn, hwork, rfl⟩, hpath⟩
      obtain rfl := List.inj_on_of_nodup_map hids hn hg hid
      cases hwork.symm.trans hkind
  simp only [lintGates, ofKind, List.map_eq_nil_iff, List.filter_eq_nil_iff, List.mem_filter,
    decide_eq_true_iff, and_imp, Bool.not_eq_true', Bool.not_eq_false]
  exact forall₃_congr hsearch

theorem pinFinding_eq_nil_iff {n : Node} :
    pinFinding n = [] ↔
      (∀ pin, n.acceptanceHash = some pin → ∃ text, n.acceptance = some text ∧
        sha256Text text = pin)
      ∧ (n.kind = .work → n.status = .validated ∨ n.status = .mergeReady ∨ n.status = .merged →
        ∃ pin, n.acceptanceHash = some pin) := by
  unfold pinFinding Node.digest
  cases n.acceptanceHash <;> cases n.acceptance <;> simp [Node.requiresPin, or_assoc]

theorem lintPins_eq_nil_iff : p.lintPins = [] ↔ ∀ n ∈ p.nodes, pinFinding n = [] :=
  List.flatMap_eq_nil_iff

/-! ### All rules -/

theorem wellFormed_of_errors (h : p.errors = []) : p.WellFormed := by
  simp only [errors_eq, errorRules, List.append_eq_nil_iff] at h
  obtain ⟨⟨⟨⟨⟨⟨⟨⟨⟨⟨⟨hids, hends⟩, hloops⟩, hcycles⟩, hstart⟩, hexit⟩, hentered⟩, hleft⟩, hwork⟩,
    hdecisions⟩, hgates⟩, hpins⟩ := h
  have hnodup := lintIds_eq_nil_iff.mp hids
  have hdeclared := lintEndpoints_eq_nil_iff.mp hends
  have hapart := lintSelfLoops_eq_nil_iff.mp hloops
  obtain ⟨s, hs⟩ := lintStart_eq_nil_iff.mp hstart
  have hpin := lintPins_eq_nil_iff.mp hpins
  exact {
    nodup := hnodup
    declared := hdeclared
    no_selfLoop := hapart
    acyclic := (lintCycles_eq_nil_iff hdeclared hapart).mp hcycles
    start := ⟨s, hs, lintStartEntered_eq_nil_iff.mp hentered s (by simp [hs])⟩
    exit := lintExit_eq_nil_iff.mp hexit
    exit_last := lintExitLeft_eq_nil_iff.mp hleft
    work := lintWork_eq_nil_iff.mp hwork
    decision := lintDecisions_eq_nil_iff.mp hdecisions
    gate := (lintGates_eq_nil_iff hnodup).mp hgates
    pin := fun n hn => (pinFinding_eq_nil_iff.mp (hpin n hn)).1
    pinned := fun n hn => (pinFinding_eq_nil_iff.mp (hpin n hn)).2 }

theorem errors_of_wellFormed (h : p.WellFormed) : p.errors = [] := by
  obtain ⟨s, hs, hentered⟩ := h.start
  have hstarts : p.starts = [s] := hs
  simp only [errors_eq, errorRules, List.append_eq_nil_iff]
  refine ⟨⟨⟨⟨⟨⟨⟨⟨⟨⟨⟨?_, ?_⟩, ?_⟩, ?_⟩, ?_⟩, ?_⟩, ?_⟩, ?_⟩, ?_⟩, ?_⟩, ?_⟩, ?_⟩
  · exact lintIds_eq_nil_iff.mpr h.nodup
  · exact lintEndpoints_eq_nil_iff.mpr h.declared
  · exact lintSelfLoops_eq_nil_iff.mpr h.no_selfLoop
  · exact (lintCycles_eq_nil_iff h.declared h.no_selfLoop).mpr h.acyclic
  · exact lintStart_eq_nil_iff.mpr ⟨s, hs⟩
  · exact lintExit_eq_nil_iff.mpr h.exit
  · refine lintStartEntered_eq_nil_iff.mpr fun n hn => ?_
    rw [hstarts, List.mem_singleton] at hn
    exact hn ▸ hentered
  · exact lintExitLeft_eq_nil_iff.mpr h.exit_last
  · exact lintWork_eq_nil_iff.mpr h.work
  · exact lintDecisions_eq_nil_iff.mpr h.decision
  · exact (lintGates_eq_nil_iff h.nodup).mpr h.gate
  · exact lintPins_eq_nil_iff.mpr fun n hn =>
      pinFinding_eq_nil_iff.mpr ⟨h.pin n hn, h.pinned n hn⟩

/-- The rules report no error just if the pipeline is well-formed. -/
theorem errors_eq_nil_iff_wellFormed (p : Pipeline) : p.errors = [] ↔ p.WellFormed :=
  ⟨wellFormed_of_errors, errors_of_wellFormed⟩

end Pipewright.Pipeline

/-!
## What is said about cycles

The rule against cycles names nodes. They are those on a cycle of forward edges
and those that such a cycle leads to, in ascending order and each once
(`acyclic_names`). So a node that is named need not be on a cycle itself: all of
them are only where no forward edge leads away from the cycles.
-/

namespace Pipewright.Pipeline

open Relation

theorem filter_errors_acyclic (p : Pipeline) :
    p.errors.filter (·.rule = "acyclic") = p.lintCycles := by
  rw [filter_errors fun rule => rule = "acyclic"]
  simp [rules, advises]

theorem sortedLT_mergeSort_left (p : Pipeline) : (p.sorted.left.mergeSort (· ≤ ·)).SortedLT :=
  List.sortedLE_mergeSort.sortedLT_of_nodup
    ((List.mergeSort_perm _ _).nodup_iff.mpr (Reach.nodup_left p.sorted))

/-- What the cycles lead to is on cycles itself just if no step leads from one to elsewhere. -/
theorem forall_reached_iff {α : Type} {r : α → α → Prop} :
    (∀ c v, TransGen r c c → ReflTransGen r c v → TransGen r v v) ↔
      ∀ c v, TransGen r c c → r c v → TransGen r v v := by
  refine ⟨fun h c v hcycle hstep => h c v hcycle (.single hstep), fun h c v hcycle hpath => ?_⟩
  induction hpath with
  | refl => exact hcycle
  | tail _ hstep ih => exact h _ _ ih hstep

/-- The rule against cycles is silent if and only if there is no cycle of forward edges between
declared nodes; an edge from a node to itself is none. Otherwise it reports one error. The nodes
that this names, in ascending order, are those that can be reached from a node on a cycle, such
nodes included; so all of them are on cycles if and only if no forward edge leads from a cycle to a
node that is on none. -/
theorem acyclic_names (p : Pipeline) :
    (p.errors.filter (·.rule = "acyclic") = [] ∧ ∀ v, ¬TransGen p.Flows v v) ∨
    ∃ ids, p.errors.filter (·.rule = "acyclic") = [.cycle ids] ∧ ids.SortedLT ∧
      (∃ c ∈ ids, TransGen p.Flows c c) ∧
      (∀ v, v ∈ ids ↔ ∃ c, TransGen p.Flows c c ∧ ReflTransGen p.Flows c v) ∧
      ((∀ v ∈ ids, TransGen p.Flows v v) ↔
        ∀ c v, TransGen p.Flows c c → p.Flows c v → TransGen p.Flows v v) := by
  rw [filter_errors_acyclic, ← isDone_sorted_iff]
  by_cases hdone : p.sorted.isDone = true
  · exact .inl ⟨by rw [lintCycles, if_pos hdone], hdone⟩
  have hmem : ∀ v, v ∈ p.sorted.left.mergeSort (· ≤ ·) ↔
      ∃ c, TransGen p.Flows c c ∧ ReflTransGen p.Flows c v := fun v =>
    List.mem_mergeSort.trans mem_left_sorted_iff
  refine .inr ⟨p.sorted.left.mergeSort (· ≤ ·), by rw [lintCycles, if_neg hdone],
    sortedLT_mergeSort_left p, ?_, hmem, ?_⟩
  · rw [isDone_sorted_iff] at hdone
    push Not at hdone
    obtain ⟨c, hcycle⟩ := hdone
    exact ⟨c, (hmem c).mpr ⟨c, hcycle, .refl⟩, hcycle⟩
  · rw [← forall_reached_iff]
    constructor
    · exact fun h c v hcycle hpath => h v ((hmem v).mpr ⟨c, hcycle, hpath⟩)
    · intro h v hv
      obtain ⟨c, hcycle, hpath⟩ := (hmem v).mp hv
      exact h c v hcycle hpath

/-- Two nodes of work that follow on each other, and an exit. -/
def roundAndOut : Pipeline where
  name := ""
  nodes := [{ id := "a", kind := .work }, { id := "b", kind := .work },
    { id := "out", kind := .exitSuccess }]
  edges := [{ source := "a", target := "b" }, { source := "b", target := "a" },
    { source := "b", target := "out" }]

theorem out_named : (∃ ids, .cycle ids ∈ roundAndOut.errors ∧ "out" ∈ ids) ∧
    ¬TransGen roundAndOut.Flows "out" "out" := by
  constructor
  · have hdone : ¬roundAndOut.sorted.isDone = true := by decide +kernel
    have hleft : roundAndOut.sorted.left = ["a", "b", "out"] := by decide +kernel
    refine ⟨["a", "b", "out"].mergeSort (· ≤ ·), ?_, List.mem_mergeSort.mpr (by simp)⟩
    have hfound : .cycle (["a", "b", "out"].mergeSort (· ≤ ·)) ∈ roundAndOut.lintCycles := by
      rw [lintCycles, if_neg hdone, hleft]
      exact List.mem_singleton_self _
    rw [← filter_errors_acyclic] at hfound
    exact (List.mem_filter.mp hfound).1
  · intro hcycle
    obtain ⟨v, hstep, -⟩ := TransGen.head'_iff.mp hcycle
    obtain ⟨⟨e, he, -, hsource, -⟩, -⟩ := hstep
    revert e
    decide

end Pipewright.Pipeline

/-!
## What the rules that search report

Two rules search along the edges of a pipeline, one forwards from the first start
node and one backwards from each gate. What they report is told here by paths
(`searches_exact`), of every pipeline: one with cycles and parallel edges, with
ids declared twice and with edges from or to nowhere too.

A path goes over ids. It may go through an id that is not declared; such an id
leads on like any other, but it is no node, so it is neither reported nor work.
-/

namespace Pipewright.Pipeline

open Relation

variable {p : Pipeline}

theorem filter_warnings_reachability (p : Pipeline) :
    p.warnings.filter (·.rule = "reachability") = p.lintReachability := by
  rw [filter_warnings fun rule => rule = "reachability"]
  simp [rules, advises]

theorem filter_errors_gates (p : Pipeline) :
    p.errors.filter (·.rule = "gate_reachable_from_work") = p.lintGates := by
  rw [filter_errors fun rule => rule = "gate_reachable_from_work"]
  simp [rules, advises]

/-- A path leads to the gate from an id other than its own, under which a node of work is declared
first. -/
def WorkLeadsTo (p : Pipeline) (gate : String) : Prop :=
  ∃ id n, id ≠ gate ∧ p.node? id = some n ∧ n.kind = .work ∧ ReflTransGen p.Leads id gate

theorem isWork_iff_node? {id : String} :
    p.isWork id = true ↔ ∃ n, p.node? id = some n ∧ n.kind = .work := by
  unfold isWork
  cases p.node? id <;> simp

theorem found_iff_workLeadsTo {gate : String} :
    (p.workBefore gate).found = true ↔ p.WorkLeadsTo gate := by
  simp only [found_workBefore_iff, isWork_iff_node?]
  constructor
  · rintro ⟨id, hne, ⟨n, hn, hwork⟩, hpath⟩
    exact ⟨id, n, hne, hn, hwork, hpath⟩
  · rintro ⟨id, n, hne, hn, hwork, hpath⟩
    exact ⟨id, hne, ⟨n, hn, hwork⟩, hpath⟩

open scoped Classical in
theorem lintReachability_eq (p : Pipeline) :
    p.lintReachability = match p.nodes.find? (·.kind = .start) with
      | none => []
      | some s => (p.nodes.filter fun n => ¬ReflTransGen p.Leads s.id n.id).map
          fun n => .unreachable n.id s.id := by
  have hfirst : p.nodes.find? (·.kind = .start) = p.starts.head? := List.head?_filter.symm
  rw [hfirst, lintReachability]
  cases p.starts with
  | nil => rfl
  | cons s rest =>
      refine congrArg (List.map _) (List.filter_congr fun n _ => ?_)
      rw [decide_not, ← decide_eq_decide.mpr mem_reachedFrom_iff, List.contains_eq_mem]

open scoped Classical in
theorem lintGates_eq (p : Pipeline) :
    p.lintGates = (p.nodes.filter fun g => g.kind = .gate ∧ ¬p.WorkLeadsTo g.id).map
      fun g => .gateWithoutWork g.id := by
  rw [lintGates, ofKind, List.filter_filter]
  refine congrArg (List.map _) (List.filter_congr fun g _ => ?_)
  rw [Bool.eq_iff_iff]
  simp only [Bool.and_eq_true, Bool.not_eq_true', ← Bool.not_eq_true, found_iff_workLeadsTo,
    decide_eq_true_eq, and_comm]

open scoped Classical in
/-- Of every pipeline: if it has a start node, the warnings about reachability are one for each
node, in order of declaration, to whose id no path leads from the id of the first start node, and if
it has none there are no such warnings. The errors about gates are one for each gate, in order, to
which no path leads from work. Both searches end, the one before a gate as soon as it finds work,
and each after at most one turn more than there are edges. -/
theorem searches_exact (p : Pipeline) :
    (p.warnings.filter (·.rule = "reachability") = match p.nodes.find? (·.kind = .start) with
      | none => []
      | some s => (p.nodes.filter fun n => ¬ReflTransGen p.Leads s.id n.id).map
          fun n => .unreachable n.id s.id) ∧
    (p.errors.filter (·.rule = "gate_reachable_from_work")
      = (p.nodes.filter fun g => g.kind = .gate ∧ ¬p.WorkLeadsTo g.id).map
          fun g => .gateWithoutWork g.id) ∧
    ∀ id, (∃ turns ≤ p.edges.length + 1,
        p.reachedFrom id = (Reach.Search.turn p.forwards fun _ => false)^[turns] (.start id) ∧
        (p.reachedFrom id).isOver) ∧
      ∃ turns ≤ p.edges.length + 1,
        p.workBefore id = (Reach.Search.turn p.backwards p.isWork)^[turns] (.start id) ∧
        (p.workBefore id).isOver := by
  refine ⟨?_, ?_, fun id => ⟨?_, ?_⟩⟩
  · rw [filter_warnings_reachability, lintReachability_eq]
  · rw [filter_errors_gates, lintGates_eq]
  · have hends : p.forwards.ends.length = p.edges.length := List.length_map _
    exact hends ▸ Reach.Search.exists_turns_start p.forwards (fun _ => false) id
  · have hends : p.backwards.ends.length = p.edges.length := List.length_map _
    exact hends ▸ Reach.Search.exists_turns_start p.backwards p.isWork id

/-- A path over an id that is not declared leads on, and an edge from a gate to itself leads to it
from no work. -/
example :
    let p : Pipeline :=
      { name := ""
        nodes := [{ id := "s", kind := .start }, { id := "w", kind := .work },
          { id := "g", kind := .gate }, { id := "h", kind := .gate }]
        edges := [{ source := "s", target := "x" }, { source := "x", target := "w" },
          { source := "w", target := "g" }, { source := "g", target := "w" },
          { source := "h", target := "h" }] }
    p.lintReachability = [.unreachable "h" "s"] ∧ p.lintGates = [.gateWithoutWork "h"] := by
  decide +kernel

end Pipewright.Pipeline
