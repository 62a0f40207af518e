import Pipewright.Lifecycle.Transition
import Pipewright.Proofs.Engine.Actions
import Pipewright.Proofs.Pipeline.Validity

/-!
# Pins and verdicts

The pins that a judgement goes by, and the verdicts that there are.
-/

/-!
## Pins

Whether a node still has the acceptance text that it is pinned to is looked at
twice: by a rule for whole pipelines, and by the guard of each step. Both see the
same nodes (`reported_refused`). So in a pipeline that breaks no rule the guard
has nothing to say (`checkAcceptance_of_valid`).
-/

namespace Pipewright.Pipeline

variable {p : Pipeline} {n : Node}

/-- How the guard refuses a step of the node, and what the rule reports of it. -/
inductive PinBroken (n : Node) : Guard.Refusal → Finding → Prop
  | missing (unpinned : n.acceptanceHash = none) :
      PinBroken n (.unpinned n.status) (.pinMissing n.id n.status)
  | changed (said : n.acceptance.isSome) :
      PinBroken n .acceptanceChanged (.acceptanceChanged n.id)
  | removed (unsaid : n.acceptance = none) :
      PinBroken n .acceptanceChanged (.acceptanceRemoved n.id)

/-- The guard refuses a step of the node for its acceptance text. -/
def Node.isRefused (n : Node) : Bool := !(Guard.checkAcceptance n).isOk

theorem pin_cases (n : Node) :
    Guard.checkAcceptance n = .ok () ∧ pinFinding n = [] ∨
      ∃ refusal finding, Guard.checkAcceptance n = .error refusal ∧ pinFinding n = [finding] ∧
        PinBroken n refusal finding := by
  unfold Guard.checkAcceptance pinFinding
  cases hpin : n.acceptanceHash with
  | none =>
      cases n.requiresPin with
      | false => exact .inl ⟨rfl, rfl⟩
      | true => exact .inr ⟨_, _, rfl, rfl, .missing hpin⟩
  | some pin =>
      rw [Node.digest]
      cases htext : n.acceptance with
      | none => exact .inr ⟨_, _, rfl, rfl, .removed htext⟩
      | some text =>
          by_cases hsame : sha256Text text = pin
          · exact .inl ⟨if_pos (congrArg some hsame), if_pos hsame⟩
          · refine .inr ⟨_, _, if_neg fun heq => hsame (Option.some.inj heq), if_neg hsame, ?_⟩
            exact .changed (by rw [htext]; rfl)

/-- The rule reports the nodes that the guard refuses, one finding for each and in order. -/
theorem reported_refused (nodes : List Node) :
    List.Forall₂ (fun n finding => ∃ refusal, Guard.checkAcceptance n = .error refusal ∧
      PinBroken n refusal finding) (nodes.filter Node.isRefused) (nodes.flatMap pinFinding) := by
  induction nodes with
  | nil => exact .nil
  | cons n rest ih =>
      rw [List.flatMap_cons]
      rcases pin_cases n with ⟨hcheck, hnone⟩ | ⟨refusal, finding, hcheck, hone, hbroken⟩
      · rw [List.filter_cons_of_neg (by rw [Node.isRefused, hcheck]; decide), hnone]
        exact ih
      · rw [List.filter_cons_of_pos (by rw [Node.isRefused, hcheck]; rfl), hone]
        exact .cons ⟨refusal, hcheck, hbroken⟩ ih

/-- In a valid pipeline the guard of acceptance texts lets every step pass. -/
theorem checkAcceptance_of_valid (hvalid : p.requireValid = .ok ()) (hn : n ∈ p.nodes) :
    Guard.checkAcceptance n = .ok () := by
  rcases pin_cases n with ⟨hcheck, -⟩ | ⟨_, finding, -, hone, -⟩
  · exact hcheck
  · cases hone.symm.trans (pinFinding_of_requireValid hvalid n hn)

end Pipewright.Pipeline

/-!
## What becomes of a request

A request that is judged is granted, or its node is out of retries and becomes
stuck, or it is refused. `judge_eq_ok` says what the first two mean for the
pipeline. A refusal never says that retries are used up (`spares_judge`), so that
error is the sign of the second case alone. And it is never one for an acceptance
text that was changed (`fails_judge`), since a pipeline with such a node is not
valid.
-/

namespace Pipewright

open Pipeline (Node)

/-! ### Errors -/

/-- If there is an error, it is one of these. -/
def Fails {α : Type} (P : Error → Prop) (r : Except Error α) : Prop :=
  ∀ err, r = .error err → P err

/-- If there is an error, it does not say that retries are used up. -/
def Spares {α : Type} (r : Except Error α) : Prop :=
  ∀ err, r = .error err → err.isExhausted = false

/-- The error is no guard's, and it does not say that retries are used up. -/
def Error.isPlain : Error → Bool
  | .guardRail .. => false
  | .retriesExhausted .. => false
  | _ => true

/-- What a request can be refused with: the error is no guard's, or it is that of a guard that does
not look at acceptance texts. -/
inductive Error.Refuses : Error → Prop
  | plain {err : Error} (isPlain : err.isPlain) : err.Refuses
  | guard {refusal : Guard.Refusal} (n : Node) (other : refusal.rule ≠ "acceptance_immutable") :
      (refusal.toError n).Refuses

theorem Error.Refuses.spares {err : Error} (h : err.Refuses) : err.isExhausted = false := by
  cases h with
  | plain hplain => cases err <;> first | rfl | cases hplain
  | guard => rfl

theorem Error.Refuses.ne_guardRail {err : Error} (h : err.Refuses) (node message : String) :
    err ≠ .guardRail node "acceptance_immutable" message := by
  rintro rfl
  generalize heq : Error.guardRail node "acceptance_immutable" message = err at h
  cases h with
  | plain hplain =>
      subst heq
      cases hplain
  | guard n hother => exact hother (Error.guardRail.inj heq).2.1.symm

section

variable {α β : Type} {P Q : Error → Prop} {r : Except Error α}

theorem fails_ok (a : α) : Fails P (.ok a) := fun _ h => (by cases h)

theorem fails_error {err : Error} (h : P err) : Fails P (.error err : Except Error α) :=
  fun _ heq => Except.error.inj heq ▸ h

theorem Fails.mono (h : Fails P r) (hPQ : ∀ err, P err → Q err) : Fails Q r :=
  fun err heq => hPQ err (h err heq)

theorem Fails.bind {f : α → Except Error β} (hr : Fails P r)
    (hf : ∀ a, r = .ok a → Fails P (f a)) : Fails P (r >>= f) := by
  cases r with
  | error err => exact fails_error (hr err rfl)
  | ok a => exact hf a rfl

theorem fails_mapM {f : α → Except Error β} (h : ∀ a, Fails P (f a)) (l : List α) :
    Fails P (l.mapM f) := by
  induction l with
  | nil => exact fails_ok _
  | cons a l ih =>
      rw [List.mapM_cons]
      exact (h a).bind fun _ _ => ih.bind fun _ _ => fails_ok _

end

namespace Pipeline

theorem fails_wordAttr {α : Type} (ofName? : String → Option α) (unknown : String → String)
    (attrs : Attrs) (key : String) (line : Nat) :
    Fails (·.isPlain) (wordAttr ofName? unknown attrs key line) := by
  unfold wordAttr
  split
  · exact fails_ok _
  · split
    · exact fails_ok _
    · exact fails_error rfl

theorem fails_countAttr (bound : Nat) (attrs : Attrs) (key : String) (line : Nat) :
    Fails (·.isPlain) (countAttr bound attrs key line) := by
  unfold countAttr
  split
  · exact fails_ok _
  · dsimp only
    split
    · split
      · exact fails_ok _
      · exact fails_error rfl
    · exact fails_error rfl

theorem fails_flagAttr (attrs : Attrs) (key : String) (line : Nat) :
    Fails (·.isPlain) (flagAttr attrs key line) := by
  unfold flagAttr
  split
  · exact fails_ok _
  · split
    · exact fails_ok _
    · exact fails_error rfl

theorem fails_nodeOf (n : Digraph.Node) : Fails (·.isPlain) (nodeOf n) := by
  unfold nodeOf
  refine (fails_wordAttr _ _ _ _ _).bind fun _ _ => ?_
  refine (fails_wordAttr _ _ _ _ _).bind fun _ _ => ?_
  refine (fails_wordAttr _ _ _ _ _).bind fun _ _ => ?_
  refine (fails_countAttr _ _ _ _).bind fun _ _ => ?_
  exact (fails_flagAttr _ _ _).bind fun _ _ => fails_ok _

theorem fails_checkEndpoint (ids : List String) (e : Digraph.Edge) (endpoint : String) :
    Fails (·.isPlain) (checkEndpoint ids e endpoint) := by
  unfold checkEndpoint
  split
  · exact fails_ok _
  · exact fails_error rfl

theorem fails_edgeOf (ids : List String) (e : Digraph.Edge) : Fails (·.isPlain) (edgeOf ids e) := by
  unfold edgeOf
  refine (fails_checkEndpoint _ _ _).bind fun _ _ => ?_
  refine (fails_checkEndpoint _ _ _).bind fun _ _ => ?_
  exact (fails_wordAttr _ _ _ _ _).bind fun _ _ => fails_ok _

theorem fails_parse (text : String) : Fails (·.isPlain) (parse text) := by
  unfold parse ofDigraph Digraph.read
  refine Fails.bind ?_ fun g _ => ?_
  · cases Digraph.parse text with
    | error fault => exact fails_error rfl
    | ok g => exact fails_ok g
  · refine (fails_countAttr _ _ _ _).bind fun _ _ => ?_
    refine (fails_mapM fails_nodeOf _).bind fun _ _ => ?_
    exact (fails_mapM (fails_edgeOf _) _).bind fun _ _ => fails_ok _

theorem spares_parse (text : String) : Spares (parse text) :=
  (fails_parse text).mono fun _ h => (Error.Refuses.plain h).spares

theorem fails_requireValid (p : Pipeline) : Fails (·.isPlain) p.requireValid := by
  unfold requireValid
  split
  · exact fails_ok _
  · exact fails_error rfl

end Pipeline

namespace Guard

theorem fails_checkMerging (n : Node) (target : Status) :
    Fails Error.Refuses ((checkMerging n target).mapError (·.toError n)) := by
  unfold checkMerging
  split
  · split
    · exact fails_error (.guard n (by simp [Refusal.rule]))
    · split
      · exact fails_error (.guard n (by simp [Refusal.rule]))
      · exact fails_ok _
  · exact fails_ok _

theorem fails_checkSeparation (n : Node) (target : Status) (actor : String) :
    Fails Error.Refuses ((checkSeparation n target actor).mapError (·.toError n)) := by
  unfold checkSeparation
  split
  · exact fails_error (.guard n (by simp [Refusal.rule]))
  · exact fails_ok _

theorem fails_fileDigest (s : Store) (path : String) :
    Fails Error.Refuses (fileDigest s path) := by
  unfold fileDigest
  split
  · exact fails_ok _
  · exact fails_error (.plain rfl)

theorem fails_completedAt (n : Node) : Fails Error.Refuses (completedAt n) := by
  unfold completedAt
  split
  · exact fails_ok _
  · split
    · exact fails_ok _
    · exact fails_error (.plain rfl)

theorem fails_freshEvidence (s : Store) (n : Node) (path : String) :
    Fails Error.Refuses (freshEvidence s n path) := by
  unfold freshEvidence
  split
  · exact fails_error (.guard n (by simp [Refusal.rule]))
  · refine (fails_completedAt n).bind fun completed _ => ?_
    split
    · exact fails_fileDigest s path
    · split
      · exact fails_error (.guard n (by simp [Refusal.rule]))
      · exact fails_fileDigest s path

theorem fails_checkEvidence (s : Store) (n : Node) (target : Status) (evidence : Option String) :
    Fails Error.Refuses (checkEvidence s n target evidence) := by
  unfold checkEvidence
  split
  · split
    · exact fails_error (.guard n (by simp [Refusal.rule]))
    · exact fails_ok _
  · split
    · exact (fails_freshEvidence _ _ _).bind fun _ _ => fails_ok _
    · split
      · exact (fails_fileDigest _ _).bind fun _ _ => fails_ok _
      · exact fails_error (.guard n (by simp [Refusal.rule]))

/-- Where the guard of acceptance texts lets a step pass, no other refuses it in its name. -/
theorem fails_check {n : Node} (hpin : checkAcceptance n = .ok ()) (s : Store) (target : Status)
    (actor : String) (evidence : Option String) :
    Fails Error.Refuses (check s n target actor evidence) := by
  rw [check, hpin]
  refine (fails_checkMerging n target).bind fun _ _ => ?_
  exact (fails_checkSeparation n target actor).bind fun _ _ =>
    fails_checkEvidence s n target evidence

end Guard

namespace Guard

variable {s : Store} {n : Pipeline.Node} {target : Status} {actor : String}
  {evidence : Option String} {effects : Effects}

/-- The step to validation pins a node that is not pinned, and no other step does. -/
theorem acceptanceHash_of_check_eq (h : check s n target actor evidence = .ok effects) :
    effects.acceptanceHash
      = if target = .validated ∧ n.acceptanceHash = none then n.digest else none := by
  unfold check at h
  obtain ⟨_, -, h⟩ := bind_eq_ok.mp h
  obtain ⟨_, -, h⟩ := bind_eq_ok.mp h
  obtain ⟨_, -, h⟩ := bind_eq_ok.mp h
  unfold checkEvidence at h
  split at h
  · split at h
    · cases h
    · next htarget =>
      rw [← Except.ok.inj h, if_neg fun hboth => htarget hboth.1]
  · split at h
    · next htarget =>
      obtain ⟨hash, -, h⟩ := bind_eq_ok.mp h
      rw [← Except.ok.inj h]
      cases hpin : n.acceptanceHash <;> simp [htarget]
    · next htarget =>
      rw [if_neg fun hboth => htarget hboth.1]
      split at h
      · obtain ⟨hash, -, h⟩ := bind_eq_ok.mp h
        rw [← Except.ok.inj h]
      · cases h

end Guard

namespace Pipeline

/-! ### The node of an id -/

/-- Replacing the node of an id leaves the nodes before and after it as they are. -/
theorem modify_of_node? {p : Pipeline} {id : String} {n : Node} (h : p.node? id = some n)
    (f : Node → Node) : ∃ before after, p.nodes = before ++ n :: after ∧
      (∀ m ∈ before, m.id ≠ id) ∧ n.id = id ∧
      p.modify id f = { p with nodes := before ++ f n :: after } := by
  have hsplit : ∀ nodes : List Node, nodes.find? (·.id = id) = some n →
      ∃ before after, nodes = before ++ n :: after ∧ (∀ m ∈ before, m.id ≠ id) ∧ n.id = id ∧
        modifyFirst id f nodes = before ++ f n :: after := by
    intro nodes
    induction nodes with
    | nil => intro h; cases h
    | cons m rest ih =>
        intro hfind
        by_cases hm : m.id = id
        · rw [List.find?_cons_of_pos (by simpa using hm)] at hfind
          obtain rfl := Option.some.inj hfind
          exact ⟨[], rest, rfl, by simp, hm, by rw [modifyFirst, if_pos hm]; rfl⟩
        · rw [List.find?_cons_of_neg (by simpa using hm)] at hfind
          obtain ⟨before, after, hnodes, hbefore, hid, hmodify⟩ := ih hfind
          refine ⟨m :: before, after, by rw [hnodes]; rfl, ?_, hid, ?_⟩
          · exact List.forall_mem_cons.mpr ⟨hm, hbefore⟩
          · rw [modifyFirst, if_neg hm, hmodify]
            rfl
  obtain ⟨before, after, hnodes, hbefore, hid, hmodify⟩ := hsplit p.nodes h
  exact ⟨before, after, hnodes, hbefore, hid, by rw [modify, hmodify]⟩

/-! ### Verdicts -/

/-- What a verdict says about the node of the request. -/
inductive Judged (p : Pipeline) (s : Store) (now : Instant) (q : Request) (n : Node) :
    Verdict → Prop
  | granted (effects : Guard.Effects)
      (check : Guard.check s n q.target q.actor q.evidence = .ok effects) :
      Judged p s now q n (.granted (p.modify q.node (·.advance q effects now))
        ⟨now.stamp, q.node, n.status, q.target, q.actor, effects.evidenceHash⟩)
  | exhausted (failed : n.status = .failed) :
      Judged p s now q n (.exhausted (p.modify q.node ({ · with status := .stuck }))
        ⟨now.stamp, q.node, n.status, .stuck, q.actor, none⟩ n.retryCount)

/-- A verdict is about the node of the request, and about a legal step of it. -/
theorem judge_eq_ok {p : Pipeline} {maxRetries : UInt32} {s : Store} {now : Instant} {q : Request}
    {v : Verdict} (h : p.judge maxRetries s now q = .ok v) :
    ∃ n, p.node? q.node = some n ∧ n.status.canBecome q.target ∧ p.requireValid = .ok () ∧
      Judged p s now q n v := by
  unfold judge at h
  cases hnode : p.node? q.node with
  | none => rw [hnode] at h; cases h
  | some n =>
      rw [hnode] at h
      refine ⟨n, rfl, ?_⟩
      cases hlegal : n.status.canBecome q.target with
      | false =>
          simp only [hlegal, Bool.not_false, if_true] at h
          cases h
      | true =>
          simp only [hlegal, Bool.not_true, Bool.false_eq_true, if_false] at h
          obtain ⟨⟨⟩, hvalid, h⟩ := bind_eq_ok.mp h
          refine ⟨rfl, hvalid, ?_⟩
          split at h
          · next hexhausted => exact Except.ok.inj h ▸ .exhausted hexhausted.1
          · obtain ⟨effects, hcheck, h⟩ := bind_eq_ok.mp h
            exact Except.ok.inj h ▸ .granted effects hcheck

/-- What a request is refused with; a guard that looks at acceptance texts is not what refuses it,
since the pipeline was looked at before. -/
theorem fails_judge (p : Pipeline) (maxRetries : UInt32) (s : Store) (now : Instant)
    (q : Request) : Fails Error.Refuses (p.judge maxRetries s now q) := by
  unfold judge
  cases hnode : p.node? q.node with
  | none => exact fails_error (.plain rfl)
  | some n =>
      dsimp only
      split
      · exact fails_error (.plain rfl)
      · refine ((fails_requireValid p).mono fun _ => .plain).bind fun _ hvalid => ?_
        split
        · exact fails_ok _
        · have hpin := checkAcceptance_of_valid hvalid (List.mem_of_find?_eq_some hnode)
          exact (Guard.fails_check hpin _ _ _ _).bind fun _ _ => fails_ok _

theorem spares_judge (p : Pipeline) (maxRetries : UInt32) (s : Store) (now : Instant)
    (q : Request) : Spares (p.judge maxRetries s now q) :=
  (fails_judge p maxRetries s now q).mono fun _ => Error.Refuses.spares

end Pipeline

end Pipewright
