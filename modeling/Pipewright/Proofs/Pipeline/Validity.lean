import Pipewright.Pipeline.Lint
import Pipewright.Proofs.Pipeline.Lifting

/-!
# Valid pipelines

What a valid pipeline is like, and on what its validity depends.
-/

/-!
## What a valid pipeline is like

A pipeline is let through if its findings are advice at most. Then each rule
that reports errors is silent, and what it looks for is not there.

Every finding bears the name of its rule (`rule_of_mem_rules`), and the name says
whether it is advice. So the findings of some rules are what is left when the
findings are filtered by name (`filter_findings`).
-/

namespace Pipewright.Pipeline

theorem errors_of_requireValid {p : Pipeline} (h : p.requireValid = .ok ()) : p.errors = [] := by
  unfold requireValid at h
  split at h
  · assumption
  · cases h

theorem requireValid_of_errors {p : Pipeline} (h : p.errors = []) : p.requireValid = .ok () := by
  rw [requireValid, h]

/-! ### What each rule reports -/

/-- The rules by name, each with what it finds, in the order in which they report. -/
def rules (p : Pipeline) : List (String × List Finding) :=
  [("duplicate_node_id", p.lintIds), ("edge_endpoints_exist", p.lintEndpoints),
    ("no_self_loop", p.lintSelfLoops), ("acyclic", p.lintCycles), ("start_node", p.lintStart),
    ("exit_node", p.lintExit), ("start_no_incoming", p.lintStartEntered),
    ("exit_no_outgoing", p.lintExitLeft), ("work_attributes", p.lintWork),
    ("decision_no_acceptance", p.lintDecisions), ("gate_reachable_from_work", p.lintGates),
    ("acceptance_immutable", p.lintPins), ("reachability", p.lintReachability),
    ("stuck_nodes", p.lintStuck)]

def advises (rule : String) : Bool := rule == "reachability" || rule == "stuck_nodes"

theorem isAdvice_eq_advises (f : Finding) : f.isAdvice = advises f.rule := by
  cases f <;> simp [Finding.isAdvice, Finding.rule, advises]

theorem findings_eq (p : Pipeline) : p.findings = p.rules.flatMap (·.2) := by
  simp [findings, rules]

theorem rule_of_mem_duplicates {seen : List (String × Bool)} {nodes : List Node} {f : Finding}
    (hf : f ∈ duplicates seen nodes) : f.rule = "duplicate_node_id" := by
  induction nodes generalizing seen with
  | nil => cases hf
  | cons n rest ih =>
      unfold duplicates at hf
      split at hf
      · exact ih hf
      · exact ih hf
      · rcases List.mem_cons.mp hf with rfl | hf
        · rfl
        · exact ih hf

theorem rule_of_mem_pinFinding {n : Node} {f : Finding} (hf : f ∈ pinFinding n) :
    f.rule = "acceptance_immutable" := by
  unfold pinFinding at hf
  repeat' split at hf
  all_goals first | cases hf; done | obtain rfl := List.mem_singleton.mp hf; rfl

theorem rule_of_mem_map {α : Type} {finding : α → Finding} {rule : String} {l : List α}
    {f : Finding} (hrule : ∀ a, (finding a).rule = rule) (hf : f ∈ l.map finding) :
    f.rule = rule := by
  obtain ⟨a, -, rfl⟩ := List.mem_map.mp hf
  exact hrule a

/-- Every finding bears the name of the rule that reports it. -/
theorem rule_of_mem_rules (p : Pipeline) : ∀ r ∈ p.rules, ∀ f ∈ r.2, f.rule = r.1 := by
  simp only [rules, List.forall_mem_cons]
  refine ⟨fun f hf => ?ids, fun f hf => ?ends, fun f hf => ?loops, fun f hf => ?cycles,
    fun f hf => ?start, fun f hf => ?exit, fun f hf => ?entered, fun f hf => ?left,
    fun f hf => ?work, fun f hf => ?decisions, fun f hf => ?gates, fun f hf => ?pins,
    fun f hf => ?reachability, fun f hf => ?stuck, nofun⟩
  case ids => exact rule_of_mem_duplicates hf
  case ends =>
    obtain ⟨e, -, hf⟩ := List.mem_flatMap.mp hf
    exact rule_of_mem_map (fun _ => rfl) hf
  case loops => exact rule_of_mem_map (fun _ => rfl) hf
  case cycles =>
    unfold lintCycles at hf
    split at hf
    · cases hf
    · obtain rfl := List.mem_singleton.mp hf; rfl
  case start =>
    unfold lintStart at hf
    split at hf
    · obtain rfl := List.mem_singleton.mp hf; rfl
    · cases hf
    · obtain rfl := List.mem_singleton.mp hf; rfl
  case exit =>
    unfold lintExit at hf
    split at hf
    · obtain rfl := List.mem_singleton.mp hf; rfl
    · cases hf
  case entered => exact rule_of_mem_map (fun _ => rfl) hf
  case left => exact rule_of_mem_map (fun _ => rfl) hf
  case work =>
    obtain ⟨n, -, hf⟩ := List.mem_flatMap.mp hf
    rcases List.mem_append.mp hf with hf | hf
    all_goals
      split at hf
      · obtain rfl := List.mem_singleton.mp hf; rfl
      · cases hf
  case decisions => exact rule_of_mem_map (fun _ => rfl) hf
  case gates => exact rule_of_mem_map (fun _ => rfl) hf
  case pins =>
    obtain ⟨n, -, hf⟩ := List.mem_flatMap.mp hf
    exact rule_of_mem_pinFinding hf
  case reachability =>
    unfold lintReachability at hf
    split at hf
    · cases hf
    · exact rule_of_mem_map (fun _ => rfl) hf
  case stuck => exact rule_of_mem_map (fun _ => rfl) hf

/-- Findings that are chosen by the names of their rules are those of the rules that are chosen. -/
theorem filter_findings (keep : String → Bool) (p : Pipeline) :
    p.findings.filter (fun f => keep f.rule)
      = (p.rules.filter fun r => keep r.1).flatMap (·.2) := by
  have hrules : ∀ l : List (String × List Finding), (∀ r ∈ l, ∀ f ∈ r.2, f.rule = r.1) →
      (l.flatMap (·.2)).filter (fun f => keep f.rule)
        = (l.filter fun r => keep r.1).flatMap (·.2) := by
    intro l hbears
    induction l with
    | nil => rfl
    | cons r rest ih =>
        obtain ⟨hr, hrest⟩ := List.forall_mem_cons.mp hbears
        have hfirst : r.2.filter (fun f => keep f.rule) = if keep r.1 then r.2 else [] := by
          rw [List.filter_congr fun f hf => congrArg keep (hr f hf)]
          cases keep r.1 <;> simp
        rw [List.flatMap_cons, List.filter_append, ih hrest, hfirst, List.filter_cons]
        split <;> rfl
  rw [findings_eq, hrules p.rules (rule_of_mem_rules p)]

/-- The errors of the rules of some names are what these rules find, advice apart. -/
theorem filter_errors (keep : String → Bool) (p : Pipeline) :
    p.errors.filter (fun f => keep f.rule)
      = (p.rules.filter fun r => keep r.1 && !advises r.1).flatMap (·.2) := by
  rw [← filter_findings fun rule => keep rule && !advises rule, errors, List.filter_filter]
  exact List.filter_congr fun f _ => by rw [isAdvice_eq_advises]

theorem filter_warnings (keep : String → Bool) (p : Pipeline) :
    p.warnings.filter (fun f => keep f.rule)
      = (p.rules.filter fun r => keep r.1 && advises r.1).flatMap (·.2) := by
  rw [← filter_findings fun rule => keep rule && advises rule, warnings, List.filter_filter]
  exact List.filter_congr fun f _ => by rw [isAdvice_eq_advises]

def errorRules (p : Pipeline) : List Finding :=
  p.lintIds ++ p.lintEndpoints ++ p.lintSelfLoops ++ p.lintCycles ++ p.lintStart ++ p.lintExit
    ++ p.lintStartEntered ++ p.lintExitLeft ++ p.lintWork ++ p.lintDecisions ++ p.lintGates
    ++ p.lintPins

theorem errors_eq (p : Pipeline) : p.errors = p.errorRules := by
  have hall : p.errors.filter (fun _ => true) = p.errors := List.filter_eq_self.mpr fun _ _ => rfl
  rw [← hall, filter_errors fun _ => true]
  simp [rules, advises, errorRules]

/-! ### Ids -/

/-- If no second declaration is found there is none, also of an id seen before. -/
theorem nodup_of_duplicates {seen : List (String × Bool)} (hseen : ∀ e ∈ seen, e.2 = false)
    {nodes : List Node} (h : duplicates seen nodes = []) :
    (nodes.map (·.id)).Nodup ∧ ∀ n ∈ nodes, seen.lookup n.id = none := by
  induction nodes generalizing seen with
  | nil => exact ⟨List.nodup_nil, by simp⟩
  | cons n rest ih =>
      unfold duplicates at h
      split at h
      · next hnone =>
        obtain ⟨hnodup, hrest⟩ := ih (List.forall_mem_cons.mpr ⟨rfl, hseen⟩) h
        have hne : ∀ m ∈ rest, m.id ≠ n.id ∧ seen.lookup m.id = none := by
          intro m hm
          have hlookup := hrest m hm
          rw [Keyed.lookup_cons_if] at hlookup
          split at hlookup
          · cases hlookup
          · next hid => exact ⟨hid, hlookup⟩
        refine ⟨?_, List.forall_mem_cons.mpr ⟨hnone, fun m hm => (hne m hm).2⟩⟩
        rw [List.map_cons, List.nodup_cons]
        refine ⟨fun hmem => ?_, hnodup⟩
        obtain ⟨m, hm, hid⟩ := List.mem_map.mp hmem
        exact (hne m hm).1 hid
      · next hreported =>
        obtain ⟨l₁, l₂, hsplit, -⟩ := List.lookup_eq_some_iff.mp hreported
        have hfalse := hseen (n.id, true) (by rw [hsplit]; simp)
        cases hfalse
      · cases h

theorem nodup_of_requireValid {p : Pipeline} (h : p.requireValid = .ok ()) : p.ids.Nodup := by
  have herrors := errors_of_requireValid h
  simp only [errors_eq, errorRules, List.append_eq_nil_iff] at herrors
  have hids : duplicates [] p.nodes = [] := herrors.1.1.1.1.1.1.1.1.1.1.1
  exact (nodup_of_duplicates (by simp) hids).1

/-!
## What validity depends on

Apart from the pins, the rules that report errors look at a pipeline without
its states: at the ids, kinds, roles and acceptance texts of its nodes, and at
where its edges lead and when they are taken (`Pipeline.bare`). So a valid
pipeline stays valid in a step of a node, and when it is saved and loaded, as
long as every pin fits.
-/

variable {p after : Pipeline} {id : String}

/-- What the rules see of a node, its pin and status apart. -/
def Node.bare (n : Node) : Node :=
  { id := n.id, kind := n.kind, workerRole := n.workerRole, acceptance := n.acceptance }

def Edge.bare (e : Edge) : Edge :=
  { source := e.source, target := e.target, condition := e.condition }

/-- What the rules see of a pipeline, pins and statuses apart. -/
def bare (p : Pipeline) : Pipeline :=
  { name := "", nodes := p.nodes.map Node.bare, edges := p.edges.map Edge.bare }

/-! ### What is kept -/

theorem ids_bare (p : Pipeline) : p.bare.ids = p.ids := List.map_map

theorem incoming_bare (p : Pipeline) (id : String) :
    p.bare.incoming id = (p.incoming id).map Edge.bare := List.filter_map

theorem outgoing_bare (p : Pipeline) (id : String) :
    p.bare.outgoing id = (p.outgoing id).map Edge.bare := List.filter_map

theorem ofKind_bare (p : Pipeline) (k : Kind) : p.bare.ofKind k = (p.ofKind k).map Node.bare :=
  List.filter_map

theorem exits_bare (p : Pipeline) : p.bare.exits = p.exits.map Node.bare := List.filter_map

theorem isWork_bare (p : Pipeline) (id : String) : p.bare.isWork id = p.isWork id := by
  have hnode : p.bare.node? id = (p.node? id).map Node.bare := List.find?_map ..
  rw [isWork, isWork, hnode]
  cases p.node? id <;> rfl

theorem backwards_bare (p : Pipeline) : p.bare.backwards = p.backwards := by
  have hsources : ∀ v, (p.bare.incoming v).map (·.source) = (p.incoming v).map (·.source) := by
    intro v
    rw [incoming_bare, List.map_map]
    rfl
  have hends : p.bare.edges.map (·.source) = p.edges.map (·.source) := List.map_map
  simp only [backwards, hsources, hends]

theorem workBefore_bare (p : Pipeline) (gate : String) :
    p.bare.workBefore gate = p.workBefore gate := by
  rw [workBefore, workBefore, backwards_bare, funext p.isWork_bare]

/-! ### The rules -/

theorem lintIds_bare (p : Pipeline) : p.bare.lintIds = [] ↔ p.lintIds = [] := by
  have hnodes : ∀ (nodes : List Node) (seen : List (String × Bool)),
      duplicates seen (nodes.map Node.bare) = [] ↔ duplicates seen nodes = [] := by
    intro nodes
    induction nodes with
    | nil => exact fun _ => .rfl
    | cons n rest ih =>
        intro seen
        have hid : n.bare.id = n.id := rfl
        rw [List.map_cons, duplicates, duplicates, hid]
        split
        · exact ih _
        · exact ih _
        · simp
  exact hnodes p.nodes []

theorem lintEndpoints_bare (p : Pipeline) : p.bare.lintEndpoints = p.lintEndpoints := by
  rw [lintEndpoints, ids_bare, bare, List.flatMap_map]
  rfl

theorem lintSelfLoops_bare (p : Pipeline) : p.bare.lintSelfLoops = p.lintSelfLoops := by
  rw [lintSelfLoops, bare, List.filter_map, List.map_map]
  rfl

theorem lintCycles_bare (p : Pipeline) : p.bare.lintCycles = p.lintCycles := by
  have hpairs : p.bare.forwardPairs = p.forwardPairs := by
    rw [forwardPairs, bare, List.filter_map, List.map_map]
    rfl
  have hsorted : p.bare.sorted = p.sorted := by rw [sorted, sorted, hpairs, ids_bare]
  rw [lintCycles, lintCycles, hsorted]

theorem lintStart_bare (p : Pipeline) : p.bare.lintStart = p.lintStart := by
  rw [lintStart, lintStart, starts, ofKind_bare, starts]
  rcases p.ofKind .start with _ | ⟨n, _ | ⟨m, rest⟩⟩
  · rfl
  · rfl
  · change [Finding.severalStarts (((n :: m :: rest).map Node.bare).map (·.id))] = _
    rw [List.map_map]
    rfl

theorem lintExit_bare (p : Pipeline) : p.bare.lintExit = p.lintExit := by
  rw [lintExit, lintExit, exits_bare, List.isEmpty_map]

theorem lintStartEntered_bare (p : Pipeline) : p.bare.lintStartEntered = p.lintStartEntered := by
  simp only [lintStartEntered, starts, ofKind_bare, incoming_bare, List.isEmpty_map,
    List.filter_map, List.map_map]
  rfl

theorem lintExitLeft_bare (p : Pipeline) : p.bare.lintExitLeft = p.lintExitLeft := by
  simp only [lintExitLeft, exits_bare, outgoing_bare, List.isEmpty_map, List.filter_map,
    List.map_map]
  rfl

theorem lintWork_bare (p : Pipeline) : p.bare.lintWork = p.lintWork := by
  rw [lintWork, ofKind_bare, List.flatMap_map]
  rfl

theorem lintDecisions_bare (p : Pipeline) : p.bare.lintDecisions = p.lintDecisions := by
  rw [lintDecisions, ofKind_bare, List.filter_map, List.map_map]
  rfl

theorem lintGates_bare (p : Pipeline) : p.bare.lintGates = p.lintGates := by
  simp only [lintGates, ofKind_bare, workBefore_bare, List.filter_map, List.map_map]
  rfl

/-! ### Validity -/

/-- What does not depend on pins and statuses is the same where they alone differ. -/
theorem eq_of_bare {α : Type} {f : Pipeline → α} (hf : ∀ p, f p.bare = f p)
    (h : after.bare = p.bare) : f after = f p := by
  rw [← hf, h, hf]

/-- A pipeline that looks like a valid one is valid if its pins fit. -/
theorem requireValid_of_bare (h : after.bare = p.bare)
    (hpins : ∀ n ∈ after.nodes, pinFinding n = []) (hvalid : p.requireValid = .ok ()) :
    after.requireValid = .ok () := by
  have herrors := errors_of_requireValid hvalid
  have hnil : after.errors = [] := by
    simp only [errors_eq, errorRules, List.append_eq_nil_iff] at herrors ⊢
    obtain ⟨⟨⟨⟨⟨⟨⟨⟨⟨⟨⟨hids, hends⟩, hloops⟩, hcycles⟩, hstart⟩, hexit⟩, hentered⟩, hleft⟩, hwork⟩,
      hdecisions⟩, hgates⟩, -⟩ := herrors
    have hids' : after.lintIds = [] := by rwa [← lintIds_bare, h, lintIds_bare]
    have hpins' : after.lintPins = [] := List.flatMap_eq_nil_iff.mpr hpins
    rw [eq_of_bare lintEndpoints_bare h, eq_of_bare lintSelfLoops_bare h,
      eq_of_bare lintCycles_bare h, eq_of_bare lintStart_bare h, eq_of_bare lintExit_bare h,
      eq_of_bare lintStartEntered_bare h, eq_of_bare lintExitLeft_bare h,
      eq_of_bare lintWork_bare h, eq_of_bare lintDecisions_bare h, eq_of_bare lintGates_bare h]
    exact ⟨⟨⟨⟨⟨⟨⟨⟨⟨⟨⟨hids', hends⟩, hloops⟩, hcycles⟩, hstart⟩, hexit⟩, hentered⟩, hleft⟩, hwork⟩,
      hdecisions⟩, hgates⟩, hpins'⟩
  exact requireValid_of_errors hnil

/-! ### Pins -/

theorem pinFinding_of_requireValid (h : p.requireValid = .ok ()) :
    ∀ n ∈ p.nodes, pinFinding n = [] := by
  have herrors := errors_of_requireValid h
  simp only [errors_eq, errorRules, List.append_eq_nil_iff] at herrors
  exact List.flatMap_eq_nil_iff.mp herrors.2

/-! ### Steps and files -/

theorem mem_modifyFirst {f : Node → Node} {m : Node} {nodes : List Node}
    (h : m ∈ modifyFirst id f nodes) :
    m ∈ nodes ∨ ∃ n, nodes.find? (·.id = id) = some n ∧ m = f n := by
  induction nodes with
  | nil => exact .inl h
  | cons n rest ih =>
      rw [modifyFirst] at h
      split at h
      · next hid =>
        rcases List.mem_cons.mp h with rfl | h
        · exact .inr ⟨n, List.find?_cons_of_pos (by simpa using hid), rfl⟩
        · exact .inl (List.mem_cons_of_mem _ h)
      · next hid =>
        rw [List.find?_cons_of_neg (by simpa using hid)]
        rcases List.mem_cons.mp h with rfl | h
        · exact .inl (List.mem_cons_self ..)
        · exact (ih h).imp_left (List.mem_cons_of_mem _)

/-- Stepping a node does not change what the rules see but for pins and statuses. -/
theorem bare_modify {f : Node → Node} (hf : ∀ n, (f n).bare = n.bare) (p : Pipeline) (id : String) :
    (p.modify id f).bare = p.bare := by
  have hnodes : ∀ nodes : List Node, (modifyFirst id f nodes).map Node.bare
      = nodes.map Node.bare := by
    intro nodes
    induction nodes with
    | nil => rfl
    | cons n rest ih =>
        rw [modifyFirst]
        split
        · rw [List.map_cons, hf, List.map_cons]
        · rw [List.map_cons, ih, List.map_cons]
  rw [bare, modify, hnodes, bare]

/-- A pipeline stays valid if one of its nodes is stepped and the pin of that fits. -/
theorem requireValid_modify {f : Node → Node} {n : Node} (hvalid : p.requireValid = .ok ())
    (hf : ∀ n, (f n).bare = n.bare) (hnode : p.node? id = some n) (hpin : pinFinding (f n) = []) :
    (p.modify id f).requireValid = .ok () := by
  refine requireValid_of_bare (bare_modify hf p id) (fun m hm => ?_) hvalid
  rcases mem_modifyFirst hm with hm | ⟨k, hk, rfl⟩
  · exact pinFinding_of_requireValid hvalid m hm
  · obtain rfl := Option.some.inj (hnode.symm.trans hk)
    exact hpin

/-- Every node that is read back is one that was written. -/
theorem mem_of_unlined (h : after.unlined = p.shaped.unlined) {m : Node} (hm : m ∈ after.nodes) :
    ∃ n ∈ p.nodes, n.shaped.unlined = m.unlined := by
  have hnodes : after.nodes.map Node.unlined = p.shaped.nodes.map Node.unlined := congrArg nodes h
  have hmem := List.mem_map_of_mem (f := Node.unlined) hm
  rw [hnodes, shaped, List.map_map] at hmem
  exact List.mem_map.mp hmem

/-- A valid pipeline is valid when it is read back from its file. -/
theorem requireValid_of_unlined (hvalid : p.requireValid = .ok ())
    (h : after.unlined = p.shaped.unlined) : after.requireValid = .ok () := by
  have hnodes : after.nodes.map Node.unlined = p.shaped.nodes.map Node.unlined := congrArg nodes h
  have hbare : after.bare = p.bare := by
    have hbares := congrArg (List.map Node.bare) hnodes
    have hedges := congrArg (List.map Edge.bare) (congrArg edges h)
    simp only [unlined, shaped, List.map_map] at hbares hedges
    exact congrArg₂ (fun nodes edges => ({ name := "", nodes, edges } : Pipeline)) hbares hedges
  refine requireValid_of_bare hbare (fun m hm => ?_) hvalid
  obtain ⟨n, hn, heq⟩ := mem_of_unlined h hm
  have hsame : pinFinding n.shaped.unlined = pinFinding m.unlined := congrArg pinFinding heq
  exact hsame.symm.trans (pinFinding_of_requireValid hvalid n hn)

/-- The nodes of a pipeline that is read back from its file are those that were written. -/
theorem node?_of_unlined (h : after.unlined = p.shaped.unlined) (id : String) :
    (after.node? id).map Node.unlined = (p.node? id).map fun n => n.shaped.unlined := by
  have hnodes : after.nodes.map Node.unlined = p.shaped.nodes.map Node.unlined := congrArg nodes h
  have hfind := congrArg (List.find? fun n : Node => n.id = id) hnodes
  rw [shaped, List.map_map, List.find?_map, List.find?_map] at hfind
  exact hfind

end Pipewright.Pipeline
