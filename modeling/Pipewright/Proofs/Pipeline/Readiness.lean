import Pipewright.Proofs.Pipeline.Validity
import Pipewright.Proofs.Pipeline.WellFormed

/-!
# Readiness

In a well-formed pipeline there is always something to be handed out, and what is ready depends on
few of its fields.
-/

/-!
## Something can always be handed out

In a valid pipeline in which nothing is under way and nothing has failed or got
stuck, a node is ready as soon as one is pending at all: forward edges have no
cycle, so some pending node waits for no other pending node, and what it does
wait for has succeeded.
-/

namespace Pipewright.Pipeline

open Relation

variable {p : Pipeline}

theorem isCandidate_iff {n : Node} : n.isCandidate = true ↔
    n.status = .pending ∧ n.kind ≠ .start ∧ n.kind ≠ .exitSuccess ∧ n.kind ≠ .exitFailure := by
  rcases n with ⟨_, kind⟩
  cases kind <;> simp [Node.isCandidate, Kind.isExit]

theorem mem_dispatchable_iff {id : String} :
    id ∈ p.dispatchable ↔ ∃ n ∈ p.nodes, p.isReady n = true ∧ n.id = id := by
  simp only [dispatchable, mem_distinct, List.mem_map, List.mem_filter, and_assoc]

theorem mem_forwardPredecessors_iff {id v : String} :
    v ∈ p.forwardPredecessors id ↔ p.Feeds v id := by
  simp only [forwardPredecessors, incoming, List.mem_map, List.mem_filter, decide_eq_true_iff,
    isForward_iff, Feeds]
  grind

/-- Where forward edges have no cycle, a node that can be handed out at all waits for no other
such node. -/
theorem exists_first_candidate (hacyclic : ∀ v, ¬TransGen p.Feeds v v)
    (hcandidate : ∃ n ∈ p.nodes, n.isCandidate = true) :
    ∃ n ∈ p.nodes, n.isCandidate = true ∧
      ∀ m ∈ p.nodes, m.isCandidate = true → ¬p.Feeds m.id n.id := by
  obtain ⟨n, hn, hfree⟩ := hcandidate
  obtain ⟨first, hfirst, hmin⟩ := Reach.exists_forall_mem_not_rel
    (r := fun m n : Node => p.Feeds m.id n.id) (l := p.nodes.filter (·.isCandidate))
    (List.ne_nil_of_mem (List.mem_filter.mpr ⟨hn, hfree⟩))
    (fun m _ hcycle => hacyclic m.id (TransGen.lift Node.id (fun _ _ h => h) _ _ hcycle))
  obtain ⟨hmem, hfree⟩ := List.mem_filter.mp hfirst
  exact ⟨first, hmem, hfree, fun m hm hm' => hmin m (List.mem_filter.mpr ⟨hm, hm'⟩)⟩

/-- In a well-formed pipeline what a node waits for lets it go on once it has succeeded, unless
it is still to be handed out. -/
theorem isSatisfied_of_feeds (h : p.WellFormed) {m : Node} (hm : m ∈ p.nodes) {id : String}
    (hfeeds : p.Feeds m.id id)
    (hdone : m.status = .pending ∨ m.status = .validated ∨ m.status = .merged)
    (hfirst : m.isCandidate = false) : p.isSatisfied m.id = true := by
  have hnoExit : ¬(m.kind = .exitSuccess ∨ m.kind = .exitFailure) := by
    intro hexit
    obtain ⟨e, he, -, hsource, -⟩ := hfeeds
    exact h.exit_last m hm hexit e he hsource
  rw [isSatisfied, (node?_eq_some_iff h.nodup).mpr ⟨hm, rfl⟩]
  rcases hdone with hpending | hvalidated | hmerged
  · have hkind : m.kind = .start := by
      by_contra hstart
      rw [isCandidate_iff.mpr ⟨hpending, hstart, not_or.mp hnoExit⟩] at hfirst
      cases hfirst
    simp [hkind]
  · simp [hvalidated, Status.isSuccess]
  · simp [hmerged, Status.isSuccess]

/-- In a valid pipeline in which nothing is under way, has failed or got stuck, some node can be
handed out if any is pending that is no mark. -/
theorem dispatchable_ne_nil (hvalid : p.errors = [])
    (hpending : ∃ n ∈ p.nodes, n.status = .pending ∧
      n.kind ≠ .start ∧ n.kind ≠ .exitSuccess ∧ n.kind ≠ .exitFailure)
    (hsettled : ∀ n ∈ p.nodes,
      n.status ∉ [.active, .implComplete, .failed, .mergeReady, .stuck]) :
    p.dispatchable ≠ [] := by
  have h := wellFormed_of_errors hvalid
  have hdone : ∀ n ∈ p.nodes,
      n.status = .pending ∨ n.status = .validated ∨ n.status = .merged := by
    intro n hn
    have hstatus := hsettled n hn
    revert hstatus
    cases n.status <;> decide
  simp only [← isCandidate_iff] at hpending
  obtain ⟨n, hn, hfree, hmin⟩ := exists_first_candidate h.acyclic hpending
  have hready : p.isReady n = true := by
    rw [isReady, hfree, Bool.true_and, List.all_eq_true]
    intro v hv
    have hfeeds := mem_forwardPredecessors_iff.mp hv
    obtain ⟨e, he, -, rfl, -⟩ := id hfeeds
    obtain ⟨m, hm, hid⟩ := List.mem_map.mp (h.declared e he).1
    rw [← hid] at hfeeds ⊢
    refine isSatisfied_of_feeds h hm hfeeds (hdone m hm) (Bool.eq_false_iff.mpr fun hm' => ?_)
    exact hmin m hm hm' hfeeds
  exact List.ne_nil_of_mem (mem_dispatchable_iff.mpr ⟨n, hn, hready, rfl⟩)

/-- Accepted work, followed by work that leads back to it if it fails. -/
def halfway : Pipeline where
  name := "p"
  nodes := [{ id := "s", kind := .start },
    { Node.work "a" "dev" "it builds" with
      status := .validated, acceptanceHash := some (sha256Text "it builds") },
    Node.work "b" "dev" "it runs", { id := "e", kind := .exitSuccess }]
  edges := [{ source := "s", target := "a" }, { source := "a", target := "b" },
    { source := "b", target := "a", condition := .onFailure },
    { source := "b", target := "e", condition := .onSuccess }]

theorem wellFormed_halfway : halfway.WellFormed where
  nodup := by decide
  declared := by decide
  no_selfLoop := by decide
  acyclic := (lintCycles_eq_nil_iff (by decide) (by decide)).mp (by decide +kernel)
  start := ⟨_, rfl, by decide⟩
  exit := by simp [halfway]
  exit_last := by simp [halfway, Node.work]
  work := by simp [halfway, Node.work, IsSaid]; decide
  decision := by simp [halfway, Node.work]
  gate := by simp [halfway, Node.work]
  pin := by simp [halfway, Node.work]
  pinned := by simp [halfway, Node.work]

theorem dispatchable_halfway_ne_nil :
    halfway.errors = [] ∧
      (∃ n ∈ halfway.nodes, n.status = .pending ∧
        n.kind ≠ .start ∧ n.kind ≠ .exitSuccess ∧ n.kind ≠ .exitFailure) ∧
      (∀ n ∈ halfway.nodes,
        n.status ∉ [.active, .implComplete, .failed, .mergeReady, .stuck]) ∧
      halfway.dispatchable ≠ [] := by
  have hvalid : halfway.errors = [] := errors_of_wellFormed wellFormed_halfway
  have hpending : ∃ n ∈ halfway.nodes, n.status = .pending ∧
      n.kind ≠ .start ∧ n.kind ≠ .exitSuccess ∧ n.kind ≠ .exitFailure :=
    ⟨Node.work "b" "dev" "it runs", by simp [halfway], by decide⟩
  have hsettled : ∀ n ∈ halfway.nodes,
      n.status ∉ [.active, .implComplete, .failed, .mergeReady, .stuck] := by decide
  exact ⟨hvalid, hpending, hsettled, dispatchable_ne_nil hvalid hpending hsettled⟩

end Pipewright.Pipeline

/-!
## What readiness depends on

Which nodes can be handed out is a matter of the ids, kinds and statuses of the
nodes and of where the edges lead and when they are taken (`Pipeline.standing`).
So it is the same when a pipeline is saved and loaded.

Where one node has moved, a node that could be handed out can still be handed
out unless it waits for the one that has moved and is now held up by it.
-/

namespace Pipewright.Pipeline

variable {p after : Pipeline} {id other : String} {n m : Node}

/-! ### What is seen of a pipeline -/

def Node.standing (n : Node) : Node := { id := n.id, kind := n.kind, status := n.status }

def standing (p : Pipeline) : Pipeline :=
  { name := "", nodes := p.nodes.map Node.standing, edges := p.edges.map Edge.bare }

theorem forwardPredecessors_standing (p : Pipeline) (id : String) :
    p.standing.forwardPredecessors id = p.forwardPredecessors id := by
  have hincoming : p.standing.incoming id = (p.incoming id).map Edge.bare := List.filter_map
  rw [forwardPredecessors, forwardPredecessors, hincoming, List.filter_map, List.map_map]
  rfl

theorem isSatisfied_standing (p : Pipeline) (id : String) :
    p.standing.isSatisfied id = p.isSatisfied id := by
  have hnode : p.standing.node? id = (p.node? id).map Node.standing := List.find?_map ..
  rw [isSatisfied, isSatisfied, hnode]
  cases p.node? id <;> rfl

theorem isReady_standing (p : Pipeline) (n : Node) :
    p.standing.isReady n.standing = p.isReady n := by
  rw [isReady, isReady, show n.standing.id = n.id from rfl, forwardPredecessors_standing,
    funext p.isSatisfied_standing]
  rfl

theorem dispatchable_standing (p : Pipeline) : p.standing.dispatchable = p.dispatchable := by
  have hready : p.standing.isReady ∘ Node.standing = p.isReady := funext p.isReady_standing
  rw [dispatchable, dispatchable, standing, List.filter_map, ← standing, hready, List.map_map]
  rfl

/-- What readiness sees of a pipeline is the same when it is read back from its file. -/
theorem standing_of_unlined (h : after.unlined = p.shaped.unlined) :
    after.standing = p.standing := by
  have hnodes := congrArg (List.map Node.standing) (congrArg nodes h)
  have hedges := congrArg (List.map Edge.bare) (congrArg edges h)
  simp only [unlined, shaped, List.map_map] at hnodes hedges
  exact congrArg₂ (fun nodes edges => ({ name := "", nodes, edges } : Pipeline)) hnodes hedges

theorem dispatchable_of_unlined (h : after.unlined = p.shaped.unlined) :
    after.dispatchable = p.dispatchable := by
  rw [← dispatchable_standing, standing_of_unlined h, dispatchable_standing]

theorem feeds_of_unlined (h : after.unlined = p.shaped.unlined) : after.Feeds = p.Feeds := by
  funext v w
  rw [eq_iff_iff, ← mem_forwardPredecessors_iff, ← mem_forwardPredecessors_iff,
    ← forwardPredecessors_standing, standing_of_unlined h, forwardPredecessors_standing]

/-! ### Pipelines in which one node has moved -/

/-- Where no id is declared twice a node is known by its id. -/
theorem mem_dispatchable_iff_node? (hids : p.ids.Nodup) : id ∈ p.dispatchable ↔
    ∃ n, p.node? id = some n ∧ n.isCandidate = true ∧
      ∀ v, p.Feeds v id → p.isSatisfied v = true := by
  simp only [mem_dispatchable_iff, isReady, Bool.and_eq_true, List.all_eq_true,
    mem_forwardPredecessors_iff, node?_eq_some_iff hids]
  constructor
  · rintro ⟨n, hn, ⟨hcandidate, hall⟩, rfl⟩
    exact ⟨n, ⟨hn, rfl⟩, hcandidate, hall⟩
  · rintro ⟨n, ⟨hn, rfl⟩, hcandidate, hall⟩
    exact ⟨n, hn, ⟨hcandidate, hall⟩, rfl⟩

/-- The second pipeline is the first one with another node under one of the ids. -/
structure Differs (p after : Pipeline) (id : String) (m : Node) : Prop where
  nodup : p.ids.Nodup
  ids : after.ids = p.ids
  edges : after.edges = p.edges
  node? : ∀ other, after.node? other = if other = id then some m else p.node? other

theorem Differs.feeds (h : p.Differs after id m) : after.Feeds = p.Feeds := by
  funext a b
  rw [Feeds, Feeds, h.edges]

theorem Differs.isSatisfied_self (h : p.Differs after id m) :
    after.isSatisfied id = (m.kind == .start || m.status.isSuccess) := by
  rw [isSatisfied, h.node?, if_pos rfl]

theorem Differs.isSatisfied_of_ne (h : p.Differs after id m) (hne : other ≠ id) :
    after.isSatisfied other = p.isSatisfied other := by
  rw [isSatisfied, isSatisfied, h.node?, if_neg hne]

/-- A node that could be handed out can be handed out unless it is held up by the node that has
moved. -/
theorem Differs.mem_dispatchable_iff (h : p.Differs after id m) (hne : other ≠ id)
    (hready : other ∈ p.dispatchable) :
    other ∈ after.dispatchable ↔ (p.Feeds id other → after.isSatisfied id = true) := by
  obtain ⟨n, hnode, hcandidate, hall⟩ := (mem_dispatchable_iff_node? h.nodup).mp hready
  rw [mem_dispatchable_iff_node? (h.ids ▸ h.nodup), h.feeds]
  constructor
  · rintro ⟨_, -, -, hall'⟩ hfeeds
    exact hall' id hfeeds
  · intro hid
    refine ⟨n, by rw [h.node?, if_neg hne, hnode], hcandidate, fun v hfeeds => ?_⟩
    by_cases hv : v = id
    · subst hv
      exact hid hfeeds
    · rw [h.isSatisfied_of_ne hv]
      exact hall v hfeeds

/-- A node that has moved to another status than pending cannot be handed out. -/
theorem Differs.not_mem_dispatchable (h : p.Differs after id m) (hm : m.status ≠ .pending) :
    id ∉ after.dispatchable := by
  rw [mem_dispatchable_iff_node? (h.ids ▸ h.nodup)]
  rintro ⟨n, hnode, hcandidate, -⟩
  rw [h.node?, if_pos rfl] at hnode
  obtain rfl := Option.some.inj hnode
  exact hm (isCandidate_iff.mp hcandidate).1

end Pipewright.Pipeline
