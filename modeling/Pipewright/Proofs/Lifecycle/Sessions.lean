import Mathlib.Algebra.GroupWithZero.Nat
import Pipewright.Proofs.Lifecycle.Conduct

/-!
# Sessions

A session is a list of calls of one engine on a graph file, granted and refused
ones, made by any processes at any times, while others do what they like with
all files but the graph file (`Session`). What was recorded in it are the
records that each call added to the end of the audit log (`Call.records`).

In a session in which the graph can be saved every node of the pipeline leads a
life: each record about it is that of a step from where it was before, and
nothing else happens to what transitions look at (`Life`). In one in which the
graph cannot be saved all nodes stay what they were (`Stalled`). It is one or
the other for a whole session (`Session.lived`), so what holds of nodes and
records is shown by induction on lives.
-/

namespace Pipewright

open Pipeline (Node Ruling Verdict)

/-- The records at the end of a log that were not there before. -/
def AuditLog.added (path : String) (s t : Store) : List AuditRecord :=
  let before := s.contents (s.place path)
  let after := t.contents (t.place path)
  ((String.fromUTF8? (after.extract before.size after.size)).bind
    (Json.readLines AuditRecord.ofDocument?)).getD []

theorem AuditLog.added_of_contents {path : String} {s t : Store} {records : List AuditRecord}
    (h : t.contents (t.place path)
      = s.contents (s.place path) ++ (Json.logText AuditRecord.toJson records).toUTF8) :
    added path s t = records := by
  simp only [added, h]
  rw [ByteArray.extract_append_eq_right rfl ByteArray.size_append, fromUTF8?_toUTF8,
    Option.bind_some, Json.readLines_logText AuditRecord.logged]
  rfl

namespace Pipeline.Node

variable {n m k : Node}

/-- What transitions look at: the node without its line and without the attributes that are not
interpreted. -/
def core (n : Node) : Node := { n with extra := ∅, line := 0 }

theorem exists_of_core (h : m.core = n.core) :
    ∃ extra line, m = { n with extra := extra, line := line } := by
  have hm : m = { m.core with extra := m.extra, line := m.line } := rfl
  rw [h] at hm
  exact ⟨m.extra, m.line, hm⟩

/-- A call that is recorded makes the node that it is about another one: it takes the step that
was asked for, or it is out of retries and becomes stuck. -/
inductive Moves (maxRetries : UInt32) (s : Store) (now : Instant) (q : Request) (n : Node) :
    AuditRecord → Except Error AuditRecord → Node → Prop
  | granted {effects : Guard.Effects} (legal : n.status.canBecome q.target)
      (retries : n.status = .failed → n.retryCount < maxRetries)
      (check : Guard.check s n q.target q.actor q.evidence = .ok effects) :
      Moves maxRetries s now q n
        ⟨now.stamp, q.node, n.status, q.target, q.actor, effects.evidenceHash⟩
        (.ok ⟨now.stamp, q.node, n.status, q.target, q.actor, effects.evidenceHash⟩)
        (n.advance q effects now)
  | exhausted (failed : n.status = .failed) (retries : maxRetries ≤ n.retryCount) :
      Moves maxRetries s now q n ⟨now.stamp, q.node, n.status, .stuck, q.actor, none⟩
        (.error (.retriesExhausted q.node n.retryCount.toNat)) { n with status := .stuck }

section

variable {maxRetries : UInt32} {s : Store} {now : Instant} {q : Request} {r : AuditRecord}
  {a : Except Error AuditRecord}

theorem Moves.id (h : n.Moves maxRetries s now q r a m) : m.id = n.id := by
  cases h <;> rfl

theorem Moves.kind (h : n.Moves maxRetries s now q r a m) : m.kind = n.kind := by
  cases h <;> rfl

/-- The record is about the node, and about the step from its old status to its new one. -/
theorem Moves.record (h : n.Moves maxRetries s now q r a m) :
    r.node = q.node ∧ r.actor = q.actor ∧ r.source = n.status ∧ r.target = m.status := by
  cases h <;> exact ⟨rfl, rfl, rfl, rfl⟩

end

end Pipeline.Node

namespace Pipeline

variable {p p' : Pipeline} {maxRetries : UInt32} {s : Store} {q : Request} {now : Instant}
  {v : Verdict} {n m : Node}

theorem id_of_node? {id : String} (h : p.node? id = some n) : n.id = id := by
  simpa using List.find?_some h

theorem node?_modify (f : Node → Node) (hf : ∀ n, (f n).id = n.id) {id : String}
    (hnode : p.node? id = some n) (other : String) :
    (p.modify id f).node? other = if other = id then some (f n) else p.node? other := by
  split
  · next hother =>
    obtain ⟨front, back, -, hfront, hid, hmodify⟩ := modify_of_node? hnode f
    have hnone : front.find? (·.id = id) = none := by
      rw [List.find?_eq_none]
      intro k hk
      simpa using hfront k hk
    rw [hother, hmodify, node?, List.find?_append, hnone]
    simp [hf, hid]
  · next hother => exact node?_modify_ne hf hother p

/-- What is ruled on a legal request about a node of a valid pipeline. -/
inductive Ruling.On (maxRetries : UInt32) (s : Store) (q : Request) (n : Node) : Ruling → Prop
  | granted {effects : Guard.Effects} (retries : n.status = .failed → n.retryCount < maxRetries)
      (check : Guard.check s n q.target q.actor q.evidence = .ok effects) :
      On maxRetries s q n (.granted n.status effects)
  | exhausted (failed : n.status = .failed) (retries : maxRetries ≤ n.retryCount) :
      On maxRetries s q n (.exhausted n.retryCount)

theorem rule_eq_ok {r : Ruling} : p.rule maxRetries s q = .ok r ↔
    ∃ n, p.node? q.node = some n ∧ n.status.canBecome q.target ∧ p.requireValid = .ok () ∧
      r.On maxRetries s q n := by
  constructor
  · intro h
    unfold rule at h
    cases hnode : p.node? q.node with
    | none => rw [hnode] at h; cases h
    | some n =>
        rw [hnode] at h
        dsimp only at h
        split at h
        · next hlegal =>
          obtain ⟨⟨⟩, hvalid, h⟩ := bind_eq_ok.mp h
          refine ⟨n, rfl, hlegal, hvalid, ?_⟩
          split at h
          · next hspent => exact Except.ok.inj h ▸ .exhausted hspent.1 hspent.2
          · next hspent =>
            cases hcheck : Guard.check s n q.target q.actor q.evidence with
            | error err => rw [hcheck] at h; cases h
            | ok effects =>
                rw [hcheck] at h
                exact Except.ok.inj h ▸
                  .granted (fun hfailed => UInt32.not_le.mp fun hle => hspent ⟨hfailed, hle⟩) hcheck
        · cases h
  · rintro ⟨n, hnode, hlegal, hvalid, hon⟩
    simp only [rule, hnode, hlegal, hvalid, if_true, bind, Except.bind]
    cases hon with
    | granted hretries hcheck =>
        rw [if_neg fun hspent => UInt32.not_le.mpr (hretries hspent.1) hspent.2, hcheck]
        rfl
    | exhausted hfailed hretries => rw [if_pos ⟨hfailed, hretries⟩]

theorem Ruling.On.moves {r : Ruling} (h : r.On maxRetries s q n)
    (hlegal : n.status.canBecome q.target) (now : Instant) :
    n.Moves maxRetries s now q (r.record q now) (r.answer q now) (r.step q now n) := by
  cases h with
  | granted hretries hcheck => exact .granted hlegal hretries hcheck
  | exhausted hfailed hretries =>
      have hmoves : n.Moves maxRetries s now q _ _ _ := .exhausted hfailed hretries
      rw [hfailed] at hmoves
      exact hmoves

/-- A verdict is about one node, which moves; all others stay what they were. -/
theorem moves_of_judge (h : p.judge maxRetries s now q = .ok v) :
    ∃ n m, p.node? q.node = some n ∧ n.Moves maxRetries s now q v.record (v.answer q) m ∧
      ∀ id, (GraphFile.bumped v.after).node? id = if id = q.node then some m else p.node? id := by
  rw [judge_eq] at h
  cases hrule : p.rule maxRetries s q with
  | error err => rw [hrule] at h; cases h
  | ok r =>
      rw [hrule] at h
      obtain rfl := Except.ok.inj h
      obtain ⟨n, hnode, hlegal, -, hon⟩ := rule_eq_ok.mp hrule
      rw [Ruling.record_verdict, Ruling.answer_verdict, Ruling.after_verdict]
      exact ⟨n, r.step q now n, hnode, hon.moves hlegal now,
        node?_modify (r.step q now) (id_step r q now) hnode⟩

theorem ids_of_judge (h : p.judge maxRetries s now q = .ok v) :
    (GraphFile.bumped v.after).ids = p.ids := by
  have hmodify : ∀ f : Node → Node, (∀ n, (f n).bare = n.bare) →
      (p.modify q.node f).ids = p.ids := by
    intro f hf
    rw [← ids_bare, bare_modify hf, ids_bare]
  obtain ⟨n, -, -, -, hjudged⟩ := judge_eq_ok h
  cases hjudged with
  | granted effects hcheck => exact hmodify _ fun _ => rfl
  | exhausted hfailed => exact hmodify _ fun _ => rfl

theorem ids_of_unlined (h : p'.unlined = p.shaped.unlined) : p'.ids = p.ids :=
  ids_of_statuses (statuses_of_unlined h)

end Pipeline

namespace Engine

/-! ## Calls -/

/-- A request that a process makes, and the store that it finds. -/
structure Call where
  request : Request
  host : Host
  before : Store

namespace Call

variable (c : Call) (e : Engine) (graph : String)

/-- What is answered, and the store that the call leaves. -/
def outcome : Except Error AuditRecord × Store :=
  (e.transition graph c.request).perform c.host c.before

def answer : Except Error AuditRecord := (c.outcome e graph).1

def after : Store := (c.outcome e graph).2

/-- The store in which the request is judged: the lock file has been opened. -/
def locked : Store := opened graph c.host c.before

def now : Instant := c.host.clock 0

/-- The records that the call adds to the audit log. -/
def records : List AuditRecord := AuditLog.added e.auditLog c.before (c.after e graph)

theorem home : (c.after e graph).home = c.before.home := by
  rw [after, outcome]
  exact (Action.within_transition e graph c.request c.host c.before).home

theorem place_after : (c.after e graph).place = c.before.place :=
  funext (Store.place_eq (c.home e graph))

end Call

variable {e : Engine} {graph : String} {c : Call} {cs ds : List Call} {s t u : Store}
  {p p' : Pipeline}

/-- What a call does to the pipeline that the graph file bears. -/
inductive Call.Step (c : Call) (e : Engine) (graph : String) (p : Pipeline) : Pipeline → Prop
  | idle (records : c.records e graph = []) (answer : saves (c.answer e graph) = 0) :
      Step c e graph p p
  | unsaved {v : Verdict} {fault : FileFault}
      (judged : p.judge e.maxRetries (c.locked graph) c.now c.request = .ok v)
      (full : saving graph c.before = .error fault) (records : c.records e graph = [v.record])
      (answer : c.answer e graph = .error (.file fault)) : Step c e graph p p
  | saved {v : Verdict} {p' : Pipeline}
      (judged : p.judge e.maxRetries (c.locked graph) c.now c.request = .ok v)
      (room : saving graph c.before = .ok ()) (records : c.records e graph = [v.record])
      (answer : c.answer e graph = v.answer c.request)
      (reread : p'.unlined = (GraphFile.bumped v.after).shaped.unlined) : Step c e graph p p'

theorem Call.step (hbears : GraphFile.Bears c.before graph p) (hplain : p.Plain)
    (hplaces : c.before.place graph ≠ c.before.place e.auditLog)
    (hseq : p.checkpointSeq.toNat + saves (c.answer e graph) < 2 ^ 63) :
    ∃ p', GraphFile.Bears (c.after e graph) graph p' ∧ p'.Plain ∧ c.Step e graph p p' ∧
      p'.checkpointSeq.toNat = p.checkpointSeq.toNat + saves (c.answer e graph) := by
  have hconduct := conduct hbears (.inl hplaces) c.request c.host
  have hadded : ∀ {r : AuditRecord}, (c.after e graph).contents ((c.after e graph).place e.auditLog)
      = c.before.contents (c.before.place e.auditLog) ++ r.line → c.records e graph = [r] := by
    intro r hlog
    refine AuditLog.added_of_contents ?_
    rw [hlog, Json.logText_singleton]
    rfl
  have hanswer : c.answer e graph = (c.outcome e graph).1 := rfl
  have hafter : c.after e graph = (c.outcome e graph).2 := rfl
  rw [← Call.outcome] at hconduct
  generalize c.outcome e graph = outcome at hconduct hanswer hafter
  cases hconduct with
  | refused hspared hkept hlog =>
      dsimp only at hanswer hafter
      rw [← hafter] at hkept hlog
      have hnone : saves (c.answer e graph) = 0 := hanswer ▸ saves_of_spared hspared
      refine ⟨p, hbears.of_keeps hkept, hplain, .idle (AuditLog.added_of_contents ?_) hnone,
        by omega⟩
      rw [hlog]
      exact ByteArray.append_empty.symm
  | unsaved hjudge hfull hkept hlog =>
      dsimp only at hanswer hafter
      rw [← hafter] at hkept hlog
      exact ⟨p, hbears.of_keeps hkept, hplain, .unsaved hjudge hfull (hadded hlog) hanswer,
        by rw [hanswer]; rfl⟩
  | @carriedOut v _ hjudge hroom hsaved hlog =>
      dsimp only at hanswer hafter
      rw [← hafter] at hsaved hlog
      have hone : saves (c.answer e graph) = 1 := by
        rw [hanswer]
        cases v <;> rfl
      rw [hone] at hseq ⊢
      obtain ⟨p', hbears', hplain', hread, hnum⟩ := hbears.rewritten hplain hjudge hsaved hseq
      exact ⟨p', hbears', hplain', .saved hjudge hroom (hadded (hlog hplaces)) hanswer hread, hnum⟩

/-- In the call a node moves, and the graph is saved with that. -/
structure Call.Moving (c : Call) (e : Engine) (graph : String) (p p' : Pipeline) (r : AuditRecord)
    (n m : Node) : Prop where
  records : c.records e graph = [r]
  node : p.node? c.request.node = some n
  moves : n.Moves e.maxRetries (c.locked graph) c.now c.request r (c.answer e graph) m
  ids : p'.ids = p.ids
  nodup : p'.ids.Nodup
  nodes : ∀ id, (p'.node? id).map Node.core
    = if id = c.request.node then some m.core else (p.node? id).map Node.core

theorem Call.Step.moving (h : c.Step e graph p p') (hroom : saving graph c.before = .ok ()) :
    (p' = p ∧ c.records e graph = [] ∧ saves (c.answer e graph) = 0) ∨
      ∃ r n m, c.Moving e graph p p' r n m := by
  cases h with
  | idle hrecords hanswer => exact .inl ⟨rfl, hrecords, hanswer⟩
  | unsaved _ hfull =>
      rw [hroom] at hfull
      cases hfull
  | saved hjudge _ hrecords hanswer hread =>
      obtain ⟨n, m, hnode, hmoves, hnodes⟩ := Pipeline.moves_of_judge hjudge
      have hvalid := Pipeline.requireValid_of_unlined (Pipeline.requireValid_of_judge hjudge) hread
      refine .inr ⟨_, n, m, hrecords, hnode, hanswer ▸ hmoves,
        (Pipeline.ids_of_unlined hread).trans (Pipeline.ids_of_judge hjudge),
        Pipeline.nodup_of_requireValid hvalid, fun id => ?_⟩
      have hcore := congrArg (Option.map Node.core) (Pipeline.node?_of_unlined hread id)
      rw [hnodes, Option.map_map, Option.map_map] at hcore
      refine hcore.trans ?_
      split <;> rfl

/-! ## Sessions -/

/-- The calls of an engine on a graph file from a store on, and the store that they lead to.
Others may change what they like in between, except for the graph file. -/
inductive Session (e : Engine) (graph : String) (s : Store) : List Call → Store → Prop
  | start : Session e graph s [] s
  | call {cs : List Call} {c : Call} (session : Session e graph s cs c.before) :
      Session e graph s (cs ++ [c]) (c.after e graph)
  | aside {cs : List Call} {t u : Store} (session : Session e graph s cs t)
      (others : t.Keeps graph u) : Session e graph s cs u

/-- How often the graph is saved in the calls. -/
def saved (e : Engine) (graph : String) (cs : List Call) : Nat :=
  (cs.map fun c => saves (c.answer e graph)).sum

def recorded (e : Engine) (graph : String) (cs : List Call) : List AuditRecord :=
  cs.flatMap (·.records e graph)

theorem saved_append (cs ds : List Call) :
    e.saved graph (cs ++ ds) = e.saved graph cs + e.saved graph ds := by
  simp [saved]

theorem saved_singleton (c : Call) : e.saved graph [c] = saves (c.answer e graph) := by
  simp [saved]

theorem saved_le_length (e : Engine) (graph : String) (cs : List Call) :
    e.saved graph cs ≤ cs.length := by
  induction cs with
  | nil => exact Nat.le_refl 0
  | cons c cs ih =>
      rw [← List.singleton_append, saved_append, saved_singleton, List.length_append,
        List.length_singleton]
      exact Nat.add_le_add (saves_le _) ih

theorem recorded_append (cs ds : List Call) :
    e.recorded graph (cs ++ ds) = e.recorded graph cs ++ e.recorded graph ds :=
  List.flatMap_append

theorem recorded_singleton (c : Call) : e.recorded graph [c] = c.records e graph := by
  simp [recorded]

/-- A call is the last one, or the last one comes after it. -/
theorem concat_eq_append_cons {α : Type} {l front back : List α} {a b : α} :
    l ++ [a] = front ++ b :: back ↔
      back = [] ∧ l = front ∧ a = b ∨ ∃ back', back = back' ++ [a] ∧ l = front ++ b :: back' := by
  constructor
  · intro h
    rcases List.eq_nil_or_concat back with rfl | ⟨back', z, rfl⟩
    · obtain ⟨rfl, hlast⟩ := List.append_inj' h rfl
      exact .inl ⟨rfl, rfl, List.singleton_inj.mp hlast⟩
    · rw [List.concat_eq_append, ← List.cons_append, ← List.append_assoc] at h
      obtain ⟨rfl, hlast⟩ := List.append_inj' h rfl
      obtain rfl := List.singleton_inj.mp hlast
      exact .inr ⟨back', List.concat_eq_append, rfl⟩
  · rintro (⟨rfl, rfl, rfl⟩ | ⟨back', rfl, rfl⟩) <;> simp

theorem Session.next (h : e.Session graph s cs t) (hbefore : c.before = t) :
    e.Session graph s (cs ++ [c]) (c.after e graph) := by
  subst hbefore
  exact h.call

theorem Session.home (h : e.Session graph s cs t) : t.home = s.home := by
  induction h with
  | start => rfl
  | @call _ c _ ih => exact (c.home e graph).trans ih
  | aside _ hothers ih => exact hothers.home.trans ih

/-- The calls of a session are a course of the graph file. -/
theorem Session.course (h : e.Session graph s cs t) (hplaces : s.place graph ≠ s.place e.auditLog) :
    Course graph s (e.saved graph cs) t := by
  induction h with
  | start => exact .start
  | @call cs c hsession ih =>
      rw [saved_append, saved_singleton]
      refine ih.call e c.host c.request (.inl ?_)
      rwa [Store.place_eq hsession.home, Store.place_eq hsession.home]
  | aside _ hothers ih => exact ih.aside hothers

/-- What comes before a call is a session that leads to it. -/
theorem Session.before {pre post : List Call} (h : e.Session graph s (pre ++ c :: post) t) :
    e.Session graph s pre c.before := by
  generalize hcs : pre ++ c :: post = cs at h
  induction h generalizing post with
  | start => simp at hcs
  | call hsession ih =>
      rcases concat_eq_append_cons.mp hcs.symm with ⟨-, rfl, rfl⟩ | ⟨post', -, hpre⟩
      · exact hsession
      · exact ih hpre.symm
  | aside _ _ ih => exact ih hcs

/-- What comes after a call is a session that begins in what the call leaves. -/
theorem Session.after {pre post : List Call} (h : e.Session graph s (pre ++ c :: post) t) :
    e.Session graph (c.after e graph) post t := by
  generalize hcs : pre ++ c :: post = cs at h
  induction h generalizing post with
  | start => simp at hcs
  | call _ ih =>
      rcases concat_eq_append_cons.mp hcs.symm with ⟨rfl, -, rfl⟩ | ⟨post', rfl, hpre⟩
      · exact .start
      · exact (ih hpre.symm).call
  | aside _ hothers ih => exact (ih hcs).aside hothers

/-! ## Lives -/

/-- The life of a node over the calls of a session: it moves in the calls that are recorded of
it, and in no other. -/
inductive Life (e : Engine) (graph : String) (n : Node) : List Call → Node → Prop
  | born : Life e graph n [] n
  | idle {cs : List Call} {c : Call} {m m' : Node} (life : Life e graph n cs m)
      (others : ∀ r ∈ c.records e graph, r.node ≠ n.id) (same : m'.core = m.core) :
      Life e graph n (cs ++ [c]) m'
  | moved {cs : List Call} {c : Call} {r : AuditRecord} {m k m' : Node}
      (life : Life e graph n cs m) (records : c.records e graph = [r])
      (about : c.request.node = n.id)
      (moves : m.Moves e.maxRetries (c.locked graph) c.now c.request r (c.answer e graph) k)
      (same : m'.core = k.core) : Life e graph n (cs ++ [c]) m'

theorem Life.id {n m : Node} (h : e.Life graph n cs m) : m.id = n.id := by
  induction h with
  | born => rfl
  | idle _ _ hsame ih => exact (congrArg Node.id hsame :).trans ih
  | moved _ _ _ hmoves hsame ih => exact (congrArg Node.id hsame :).trans (hmoves.id.trans ih)

theorem Life.kind {n m : Node} (h : e.Life graph n cs m) : m.kind = n.kind := by
  induction h with
  | born => rfl
  | idle _ _ hsame ih => exact (congrArg Node.kind hsame :).trans ih
  | moved _ _ _ hmoves hsame ih => exact (congrArg Node.kind hsame :).trans (hmoves.kind.trans ih)

/-- A node about which no call is made is as it was. -/
theorem Life.core_of_others {n m : Node} (h : e.Life graph n cs m)
    (hothers : ∀ c ∈ cs, c.request.node ≠ n.id) : m.core = n.core := by
  induction h with
  | born => rfl
  | idle _ _ hsame ih => exact hsame.trans (ih fun c hc => hothers c (by simp [hc]))
  | moved _ _ habout _ _ _ => exact absurd habout (hothers _ (by simp))

/-- Every node of a pipeline has led a life since the calls began. -/
structure Lived (e : Engine) (graph : String) (p : Pipeline) (cs : List Call) (p' : Pipeline) :
    Prop where
  ids : p'.ids = p.ids
  node : ∀ id m, p'.node? id = some m → ∃ n, p.node? id = some n ∧ e.Life graph n cs m
  lives : ∀ m ∈ p'.nodes, ∃ n ∈ p.nodes, e.Life graph n cs m

theorem Lived.survives (h : e.Lived graph p cs p') {id : String} {n : Node}
    (hnode : p.node? id = some n) : ∃ m, p'.node? id = some m ∧ e.Life graph n cs m := by
  have hmem : id ∈ p'.ids := by
    rw [h.ids, ← Pipeline.id_of_node? hnode]
    exact List.mem_map_of_mem (List.mem_of_find?_eq_some hnode)
  obtain ⟨k, hk, hkid⟩ := List.mem_map.mp hmem
  obtain ⟨m, hm⟩ : ∃ m, p'.node? id = some m :=
    Option.isSome_iff_exists.mp (List.find?_isSome.mpr ⟨k, hk, by simpa using hkid⟩)
  obtain ⟨n', hn', hlife⟩ := h.node id m hm
  obtain rfl := Option.some.inj (hnode.symm.trans hn')
  exact ⟨m, hm, hlife⟩

/-- In the calls nothing is saved, and what is recorded are steps that the nodes never took. -/
structure Stalled (e : Engine) (graph : String) (p : Pipeline) (cs : List Call) : Prop where
  answers : ∀ c ∈ cs, saves (c.answer e graph) = 0
  records : ∀ c ∈ cs, ∀ r ∈ c.records e graph, ∃ n ∈ p.nodes, r.source = n.status

theorem Lived.call (h : e.Lived graph p cs p') {p'' : Pipeline} (hstep : c.Step e graph p' p'')
    (hroom : saving graph c.before = .ok ()) : e.Lived graph p (cs ++ [c]) p'' := by
  rcases hstep.moving hroom with ⟨rfl, hrecords, -⟩ | ⟨r, n₀, m₀, hmoving⟩
  · have hidle : ∀ {n m}, e.Life graph n cs m → e.Life graph n (cs ++ [c]) m :=
      fun hlife => hlife.idle (by simp [hrecords]) rfl
    refine ⟨h.ids, fun id m hm => ?_, fun m hm => ?_⟩
    · obtain ⟨n, hn, hlife⟩ := h.node id m hm
      exact ⟨n, hn, hidle hlife⟩
    · obtain ⟨n, hn, hlife⟩ := h.lives m hm
      exact ⟨n, hn, hidle hlife⟩
  · have hnode : ∀ id m, p''.node? id = some m →
        ∃ n, p.node? id = some n ∧ e.Life graph n (cs ++ [c]) m := by
      intro id m hm
      have hsame := hmoving.nodes id
      rw [hm, Option.map_some] at hsame
      split at hsame
      · next hid =>
        obtain ⟨n, hn, hlife⟩ := h.node _ _ hmoving.node
        exact ⟨n, hid ▸ hn, hlife.moved hmoving.records (Pipeline.id_of_node? hn).symm hmoving.moves
          (Option.some.inj hsame)⟩
      · next hid =>
        obtain ⟨k, hk, hcore⟩ := Option.map_eq_some_iff.mp hsame.symm
        obtain ⟨n, hn, hlife⟩ := h.node id k hk
        refine ⟨n, hn, hlife.idle (fun r' hr' => ?_) hcore.symm⟩
        rw [hmoving.records] at hr'
        rw [List.mem_singleton.mp hr', hmoving.moves.record.1, Pipeline.id_of_node? hn]
        exact Ne.symm hid
    refine ⟨hmoving.ids.trans h.ids, hnode, fun m hm => ?_⟩
    obtain ⟨n, hn, hlife⟩ := hnode m.id m ((Pipeline.node?_eq_some_iff hmoving.nodup).mpr ⟨hm, rfl⟩)
    exact ⟨n, List.mem_of_find?_eq_some hn, hlife⟩

theorem Stalled.call (h : e.Stalled graph p cs) (hstep : c.Step e graph p p')
    (hfull : saving graph c.before ≠ .ok ()) : p' = p ∧ e.Stalled graph p (cs ++ [c]) := by
  have hnext : saves (c.answer e graph) = 0 →
      (∀ r ∈ c.records e graph, ∃ n ∈ p.nodes, r.source = n.status) →
      e.Stalled graph p (cs ++ [c]) := by
    intro hanswer hrecords
    constructor
    · rw [List.forall_mem_append, List.forall_mem_singleton]
      exact ⟨h.answers, hanswer⟩
    · rw [List.forall_mem_append, List.forall_mem_singleton]
      exact ⟨h.records, hrecords⟩
  cases hstep with
  | idle hrecords hanswer => exact ⟨rfl, hnext hanswer (by simp [hrecords])⟩
  | unsaved hjudge _ hrecords hanswer =>
      obtain ⟨n, m, hnode, hmoves, -⟩ := Pipeline.moves_of_judge hjudge
      refine ⟨rfl, hnext (by rw [hanswer]; rfl) fun r hr => ?_⟩
      rw [hrecords] at hr
      rw [List.mem_singleton.mp hr]
      exact ⟨n, List.mem_of_find?_eq_some hnode, hmoves.record.2.2.1⟩
  | saved _ hroom => exact absurd hroom hfull

/-- Over a session every node leads its life, or the graph cannot be saved and nothing happens. -/
theorem Session.lived (hsession : e.Session graph s cs t) (hbears : GraphFile.Bears s graph p)
    (hplain : p.Plain) (hplaces : s.place graph ≠ s.place e.auditLog)
    (hseq : p.checkpointSeq.toNat + e.saved graph cs < 2 ^ 63) :
    ∃ p', GraphFile.Bears t graph p' ∧ p'.Plain ∧
      p'.checkpointSeq.toNat = p.checkpointSeq.toNat + e.saved graph cs ∧
      (saving graph s = .ok () ∧ e.Lived graph p cs p' ∨
        saving graph s ≠ .ok () ∧ p' = p ∧ e.Stalled graph p cs) := by
  induction hsession with
  | start =>
      refine ⟨p, hbears, hplain, rfl, ?_⟩
      by_cases hroom : saving graph s = .ok ()
      · exact .inl ⟨hroom, rfl, fun id m hm => ⟨m, hm, .born⟩, fun m hm => ⟨m, hm, .born⟩⟩
      · exact .inr ⟨hroom, rfl, by simp, by simp⟩
  | @call cs c hsession ih =>
      rw [saved_append, saved_singleton] at hseq ⊢
      obtain ⟨p', hbears', hplain', hnum, hcase⟩ := ih (by omega)
      have hhome := hsession.home
      have hplaces' : c.before.place graph ≠ c.before.place e.auditLog := by
        rwa [Store.place_eq hhome, Store.place_eq hhome]
      obtain ⟨p'', hbears'', hplain'', hstep, hnum'⟩ := c.step hbears' hplain' hplaces' (by omega)
      refine ⟨p'', hbears'', hplain'', by omega, ?_⟩
      -- Whether there is room depends on the working directory, which no call changes.
      have hsaving : saving graph c.before = saving graph s := saving_of_home hhome
      rcases hcase with ⟨hroom, hlived⟩ | ⟨hfull, rfl, hstalled⟩
      · exact .inl ⟨hroom, hlived.call hstep (hsaving.trans hroom)⟩
      · exact .inr ⟨hfull, hstalled.call hstep fun h => hfull (hsaving.symm.trans h)⟩
  | aside _ hothers ih =>
      obtain ⟨p', hbears', hplain', hnum, hcase⟩ := ih hseq
      exact ⟨p', hbears'.of_keeps hothers, hplain', hnum, hcase⟩

/-! ## Sessions from the beginning -/

/-- The graph file before the calls: it bears a pipeline whose keys are dotted names and which has
no real numbers, all nodes are pending, the audit log is another file, and the sequence number has
63 bits over all the calls. -/
structure Opening (e : Engine) (graph : String) (s : Store) (p : Pipeline) (cs : List Call) :
    Prop where
  bears : GraphFile.Bears s graph p
  plain : p.Plain
  pending : ∀ n ∈ p.nodes, n.status = .pending
  apart : s.place graph ≠ s.place e.auditLog
  seq : p.checkpointSeq.toNat + e.saved graph cs < 2 ^ 63

theorem Opening.left (h : e.Opening graph s p (cs ++ ds)) : e.Opening graph s p cs where
  bears := h.bears
  plain := h.plain
  pending := h.pending
  apart := h.apart
  seq := by
    have hseq := h.seq
    rw [saved_append] at hseq
    omega

theorem Opening.lived (h : e.Opening graph s p cs) (hsession : e.Session graph s cs t) :
    ∃ p', GraphFile.Bears t graph p' ∧ p'.Plain ∧
      p'.checkpointSeq.toNat = p.checkpointSeq.toNat + e.saved graph cs ∧
      (saving graph s = .ok () ∧ e.Lived graph p cs p' ∨
        saving graph s ≠ .ok () ∧ p' = p ∧ e.Stalled graph p cs) :=
  hsession.lived h.bears h.plain h.apart h.seq

/-- What a call of a session finds and leaves, and what came of the calls before it. -/
theorem Opening.call {pre post : List Call} (h : e.Opening graph s p (pre ++ c :: post))
    (hsession : e.Session graph s (pre ++ c :: post) t) :
    ∃ p₁ p₂, GraphFile.Bears c.before graph p₁ ∧ GraphFile.Bears (c.after e graph) graph p₂ ∧
      p₂.Plain ∧ p₂.checkpointSeq.toNat + e.saved graph post < 2 ^ 63 ∧ c.Step e graph p₁ p₂ ∧
      (saving graph c.before = .ok () ∧ e.Lived graph p pre p₁ ∨
        saving graph c.before ≠ .ok () ∧ p₁ = p ∧ e.Stalled graph p pre) := by
  have hseq := h.seq
  rw [← List.singleton_append, saved_append, saved_append, saved_singleton] at hseq
  have hbefore := hsession.before
  have hhome := hbefore.home
  obtain ⟨p₁, hbears₁, hplain₁, hnum₁, hcase⟩ := h.left.lived hbefore
  have hplaces : c.before.place graph ≠ c.before.place e.auditLog := by
    rw [Store.place_eq hhome, Store.place_eq hhome]
    exact h.apart
  obtain ⟨p₂, hbears₂, hplain₂, hstep, hnum₂⟩ := c.step hbears₁ hplain₁ hplaces (by omega)
  have hsaving : saving graph c.before = saving graph s := saving_of_home hhome
  rw [← hsaving] at hcase
  exact ⟨p₁, p₂, hbears₁, hbears₂, hplain₂, by omega, hstep, hcase⟩

/-- A call of which a step is recorded that does not begin at pending. The node that it is about
has led its life up to the call, and moves in it. -/
theorem Opening.moving {pre post : List Call} {r : AuditRecord}
    (h : e.Opening graph s p (pre ++ c :: post)) (hsession : e.Session graph s (pre ++ c :: post) t)
    (hr : r ∈ c.records e graph) (hsource : r.source ≠ .pending) :
    ∃ p₁ p₂ n₀ n m, p.node? r.node = some n₀ ∧ e.Life graph n₀ pre n ∧
      GraphFile.Bears (c.after e graph) graph p₂ ∧ c.Moving e graph p₁ p₂ r n m := by
  obtain ⟨p₁, p₂, -, hbears₂, -, -, hstep, ⟨hroom, hlived⟩ | ⟨hfull, rfl, hstalled⟩⟩ :=
    h.call hsession
  · rcases hstep.moving hroom with ⟨-, hrecords, -⟩ | ⟨r', n, m, hmoving⟩
    · rw [hrecords] at hr
      cases hr
    · have hr' := hr
      rw [hmoving.records] at hr'
      obtain rfl := List.mem_singleton.mp hr'
      obtain ⟨n₀, hn₀, hlife⟩ := hlived.node _ _ hmoving.node
      rw [← hmoving.moves.record.1] at hn₀
      exact ⟨p₁, p₂, n₀, n, m, hn₀, hlife, hbears₂, hmoving⟩
  · obtain ⟨-, hnext⟩ := hstalled.call hstep hfull
    obtain ⟨n, hn, hpending⟩ := hnext.records c (by simp) r hr
    exact absurd (hpending.trans (h.pending n hn)) hsource

end Engine

end Pipewright
