import Pipewright.Proofs.Json.Rereading
import Pipewright.Proofs.Lifecycle.Verdicts
import Pipewright.Proofs.Pipeline.Validity
import Pipewright.Proofs.Text

/-!
# Effects and histories

What a transition does to the graph file and the audit log, and the history of a node that the
records tell.
-/

/-!
## What a transition does to the files

A transition has one of three effects on a graph file and an audit log. It is
granted: a record is added to the log, and the graph is saved with one node a
step further. The node is out of retries: a record is added that it became
stuck, and the graph is saved with that. Or it is refused, for whatever reason
and at whatever stage, and both files are as they were.

`transition_spec` says what happens in terms of the verdict on the request;
`transition_effect` says it in terms of the graph, the node and the record.
-/

namespace Pipewright

open Pipeline (Node Verdict)

/-! ### Reading a graph -/

theorem Store.readText_eq_ok {s : Store} {p text : String} (h : s.readText p = .ok text) :
    ∃ bytes modified, s.find p = .ok (.file bytes modified) ∧
      String.fromUTF8? bytes = some text := by
  unfold readText readBytes at h
  cases hfind : s.find p with
  | error fault => rw [hfind] at h; cases h
  | ok entry =>
      cases entry with
      | directory => rw [hfind] at h; cases h
      | file bytes modified =>
          refine ⟨bytes, modified, rfl, ?_⟩
          simp only [hfind, bind, Except.bind, pure, Except.pure] at h
          split at h
          · next heq => rw [heq, Except.ok.inj h]
          · cases h

/-- The file of the path holds the text of a pipeline. -/
def GraphFile.Holds (s : Store) (path : String) (p : Pipeline) : Prop :=
  ∃ bytes modified text, s.at? (s.place path) = some (.file bytes modified) ∧
    String.fromUTF8? bytes = some text ∧ Pipeline.parse text = .ok p

/-- Loading fails without a trace, or the pipeline is the one that the file holds. -/
theorem GraphFile.perform_load (path : String) (h : Host) (s : Store) :
    (∃ err, (load path).perform h s = (.error err, s) ∧ err.isExhausted = false) ∨
      ∃ p bytes modified, (load path).perform h s = (.ok p, s) ∧
        s.find path = .ok (.file bytes modified) ∧ Holds s path p := by
  rw [load, Action.perform_bind, Action.perform_reading]
  cases htext : s.readText path with
  | error fault => exact .inl ⟨.file fault, rfl, rfl⟩
  | ok text =>
      obtain ⟨bytes, modified, hfind, hutf⟩ := Store.readText_eq_ok htext
      change (∃ err, (Action.ofExcept (Pipeline.parse text)).perform h s = _ ∧ _) ∨
        ∃ p bytes modified,
        (Action.ofExcept (Pipeline.parse text)).perform h s = _ ∧ _
      rw [Action.perform_ofExcept]
      cases hparse : Pipeline.parse text with
      | error err => exact .inl ⟨err, rfl, Pipeline.spares_parse text err hparse⟩
      | ok p =>
          refine .inr ⟨p, bytes, modified, rfl, hfind, bytes, modified, text, ?_, hutf, hparse⟩
          exact (Store.find_eq_ok.mp hfind).2.1

theorem GraphFile.not_parse_empty (p : Pipeline) : Pipeline.parse "" ≠ .ok p := by
  intro h
  cases h

/-- A pipeline that is found in a store that has only grown was there before. -/
theorem GraphFile.Holds.of_grown {made : Prop} {lock : List String} {s t : Store} {path : String}
    {p : Pipeline} (h : Holds t path p) (hgrown : s.Grown made lock t) : Holds s path p := by
  obtain ⟨bytes, modified, text, hat, hutf, hparse⟩ := h
  rw [Store.place_eq hgrown.home] at hat
  cases hold : s.at? (s.place path) with
  | none =>
      rcases hgrown.added _ (by simp) hold with hnone | ⟨-, hdir⟩ | ⟨-, _, hfile⟩
      · rw [hnone] at hat; cases hat
      · rw [hdir] at hat; cases hat
      · rw [hfile] at hat
        cases hat
        have hempty : text = "" := Option.some.inj (hutf.symm.trans (fromUTF8?_toUTF8 ""))
        rw [hempty] at hparse
        exact absurd hparse (not_parse_empty p)
  | some entry =>
      rw [hgrown.kept _ _ (by simp) hold] at hat
      exact ⟨bytes, modified, text, by rw [hold, hat], hutf, hparse⟩

/-! ### Carrying a verdict out -/

namespace Pipeline.Verdict

def after : Verdict → Pipeline
  | granted after _ => after
  | exhausted after _ _ => after

/-- The record that is added to the audit log. -/
def record : Verdict → AuditRecord
  | granted _ record => record
  | exhausted _ record _ => record

def answer (q : Request) : Verdict → Except Error AuditRecord
  | granted _ record => .ok record
  | exhausted _ _ attempts => .error (.retriesExhausted q.node attempts.toNat)

end Pipeline.Verdict

/-- The bytes of a record in the audit log. -/
def AuditRecord.line (r : AuditRecord) : ByteArray := (Json.lineText r.toJson).toUTF8

theorem AuditLog.append_eq (path : String) (r : AuditRecord) :
    append path r = Action.appendFile path r.line := rfl

def Pipeline.bytes (p : Pipeline) : ByteArray := p.render.toUTF8

namespace Engine

/-- A verdict is carried out: its record is added to the audit log, and then its pipeline
is saved. -/
def carryOut (e : Engine) (graph : String) (q : Request) (v : Verdict) : Action AuditRecord := do
  AuditLog.append e.auditLog v.record
  let _ ← GraphFile.save graph v.after
  Action.ofExcept (v.answer q)

theorem transitionLocked_eq (e : Engine) (graph : String) (q : Request) :
    e.transitionLocked graph q = (do
      let p ← GraphFile.load graph
      let v ← Action.ofExcept (p.judge e.maxRetries (← get) (← Action.now) q)
      e.carryOut graph q v) := by
  unfold transitionLocked
  refine bind_congr fun p => bind_congr fun s => bind_congr fun now => bind_congr fun v => ?_
  cases v <;> rfl

/-- With the lock in hand a request is refused because the graph cannot be loaded, or because it is
judged so, or its verdict is carried out. -/
theorem perform_transitionLocked (e : Engine) (graph : String) (q : Request) (h : Host)
    (s : Store) : (e.transitionLocked graph q).perform h s =
      match (GraphFile.load graph).perform h s with
      | (.error err, t) => (.error err, t)
      | (.ok p, t) =>
        match p.judge e.maxRetries t (h.clock 0) q with
        | .error err => (.error err, t)
        | .ok v => (e.carryOut graph q v).perform h t := by
  rw [transitionLocked_eq, Action.perform_bind]
  rcases (GraphFile.load graph).perform h s with ⟨err | p, t⟩
  · rfl
  · dsimp only
    rw [Action.perform_bind, Action.perform_get]
    dsimp only
    rw [Action.perform_bind, Action.perform_now]
    dsimp only
    rw [Action.perform_bind, Action.perform_ofExcept]
    cases p.judge e.maxRetries t (h.clock 0) q <;> rfl

variable {e : Engine} {graph : String} {q : Request}

/-- What changes when a graph file is worked on: the files are written, the lock file
may be new, and so may the directories of it and of the audit log if they are missing. -/
def Changes (e : Engine) (graph : String) (s t : Store)
    (files : List (List String × ByteArray)) : Prop :=
  s.Written (¬(s.isDirectory (Store.holder (lockPath graph)) ∧
    s.isDirectory (Store.holder e.auditLog))) (s.place (lockPath graph)) t files

/-- If the record cannot be added nothing is written, and otherwise both files are. -/
theorem perform_carryOut (v : Verdict) (h : Host) {s : Store} (lock : List String)
    (hplaces : s.place graph ≠ s.place e.auditLog) {bytes : ByteArray} {modified : Instant}
    (hfind : s.find graph = .ok (.file bytes modified)) (hreplace : s.CanReplace graph) :
    (∃ fault t, (e.carryOut graph q v).perform h s = (.error (.file fault), t) ∧
      s.Grown (¬s.isDirectory (Store.holder e.auditLog)) lock t ∧ ¬s.CanAppend e.auditLog) ∨
    ∃ t, (e.carryOut graph q v).perform h s = (v.answer q, t) ∧
      s.Written (¬s.isDirectory (Store.holder e.auditLog)) lock t
        [(s.place graph, (GraphFile.bumped v.after).bytes),
        (s.place e.auditLog, s.contents (s.place e.auditLog) ++ v.record.line)] ∧
      (∃ bytes modified, t.find graph = .ok (.file bytes modified)) ∧
      ∃ bytes modified, t.find e.auditLog = .ok (.file bytes modified) := by
  rw [carryOut, AuditLog.append_eq, Action.perform_bind]
  rcases Action.appendFile_spec e.auditLog v.record.line h s lock with
    ⟨t, happend, hwritten, logBytes, logModified, hlog⟩ | ⟨fault, t, happend, hgrown, hcannot⟩
  · have hfind' := hwritten.find hfind (by simpa using hplaces)
    obtain ⟨u, hsave, hwritten'⟩ := Action.replaceFile_spec
      (hreplace.of_home hwritten.home hfind') (GraphFile.bumped v.after).bytes h lock
    refine .inr ⟨u, ?_, ?_, ?_, logBytes, logModified, ?_⟩
    · rw [happend]
      dsimp only
      rw [GraphFile.save, bind_assoc, Action.perform_bind]
      rw [Pipeline.bytes] at hsave
      rw [hsave]
      exact Action.perform_ofExcept _ h u
    · rw [Store.place_eq hwritten.home] at hwritten'
      exact hwritten.trans (hwritten'.mono fun hno => absurd (Store.isDirectory_holder hfind') hno)
        (by simpa using Ne.symm hplaces)
    · exact hwritten'.find_of_mem hfind' (List.mem_singleton.mpr rfl)
    · refine hwritten'.find hlog ?_
      rw [Store.place_eq hwritten.home, Store.place_eq hwritten.home]
      simpa using Ne.symm hplaces
  · exact .inl ⟨fault, t, by rw [happend], hgrown, hcannot⟩

/-- The lock of the graph file has been opened. -/
def Locked (graph : String) (s u : Store) : Prop :=
  s.Grown (¬s.isDirectory (Store.holder (lockPath graph))) (s.place (lockPath graph)) u

/-- How a transition goes: it is refused under the lock, or its record cannot be added, or
the verdict on its request is carried out. -/
inductive Outcome (e : Engine) (graph : String) (q : Request) (h : Host) (s : Store) :
    Except Error AuditRecord × Store → Prop
  | refused {u : Store} {err : Error} (locked : Locked graph s u)
      (spared : err.isExhausted = false) : Outcome e graph q h s (.error err, u)
  | unlogged {u t : Store} {fault : FileFault} (locked : Locked graph s u)
      (log : ¬u.CanAppend e.auditLog) (files : e.Changes graph s t []) :
      Outcome e graph q h s (.error (.file fault), t)
  | carriedOut {u t : Store} {p : Pipeline} {v : Verdict} (locked : Locked graph s u)
      (loaded : GraphFile.Holds s graph p)
      (judged : p.judge e.maxRetries u (h.clock 0) q = .ok v)
      (files : e.Changes graph s t [(s.place graph, (GraphFile.bumped v.after).bytes),
        (s.place e.auditLog, s.contents (s.place e.auditLog) ++ v.record.line)])
      (graphFound : ∃ bytes modified, t.find graph = .ok (.file bytes modified))
      (logFound : ∃ bytes modified, t.find e.auditLog = .ok (.file bytes modified)) :
      Outcome e graph q h s (v.answer q, t)

theorem transition_spec (e : Engine) (graph : String) (q : Request) (h : Host) {s : Store}
    (hplaces : s.place graph ≠ s.place e.auditLog) (hreplace : s.CanReplace graph) :
    Outcome e graph q h s ((e.transition graph q).perform h s) := by
  obtain ⟨u, hlocked, hbody⟩ :=
    Action.withLock_spec graph e.lockPolicy (e.transitionLocked graph q) h s
  have hgrown : e.Changes graph s u [] := hlocked.mono fun hno hboth => hno hboth.1
  have hnext : ∀ {t files}, u.Written (¬u.isDirectory (Store.holder e.auditLog))
      (s.place (lockPath graph)) t files → e.Changes graph s t files :=
    fun hw => Store.Grown.trans hgrown
      (hw.mono fun hno hboth => hno (Store.Written.isDirectory hgrown hboth.2))
  rcases hbody with ⟨err, hperform, hspared⟩ | ⟨held, hperform⟩
  · rw [transition, hperform]
    exact .refused hlocked hspared
  · rw [transition, hperform, perform_transitionLocked]
    rcases GraphFile.perform_load graph { h with held := held } u with
      ⟨err, hload, hspared⟩ | ⟨p, bytes, modified, hload, hfind, hholds⟩
    · rw [hload]
      exact .refused hlocked hspared
    · rw [hload]
      dsimp only
      cases hjudge : p.judge e.maxRetries u (h.clock 0) q with
      | error err => exact .refused hlocked (Pipeline.spares_judge _ _ _ _ _ err hjudge)
      | ok v =>
          have hplaces' : u.place graph ≠ u.place e.auditLog := by
            rwa [Store.place_eq hgrown.home, Store.place_eq hgrown.home]
          rcases perform_carryOut (q := q) v { h with held := held } (s.place (lockPath graph))
            hplaces' hfind (hreplace.of_home hgrown.home hfind) with
            ⟨fault, t, ht, hg, hcannot⟩ | ⟨t, ht, hw, hgraph, hlog⟩
          · dsimp only
            rw [ht]
            exact .unlogged hlocked hcannot (hnext hg)
          · dsimp only
            rw [ht]
            rw [Store.place_eq hgrown.home, Store.place_eq hgrown.home,
              hgrown.contents (by simp)] at hw
            exact .carriedOut hlocked (hholds.of_grown hgrown) hjudge (hnext hw) hgraph hlog

end Engine

/-! ### Nodes and pipelines that change -/

namespace Pipeline

/-- The node is a legal step further, and differs in nothing that the step does not concern. -/
structure Node.Steps (n after : Node) (q : Request) : Prop where
  legal : n.status.canBecome q.target
  kept : after = { n with
    status := q.target
    implementedBy := after.implementedBy
    implCompletedAt := after.implCompletedAt
    retryCount := after.retryCount
    evidencePath := after.evidencePath
    evidenceHash := after.evidenceHash
    acceptanceHash := after.acceptanceHash }
  pinned : after.acceptanceHash = n.acceptanceHash ∨
    q.target = .validated ∧ n.acceptanceHash = none ∧ after.acceptanceHash = n.digest

/-- The pipeline is the other one with the next sequence number and with one node, the
first of its id, replaced. -/
structure Succeeds (p after : Pipeline) (id : String) (n m : Node) : Prop where
  seq : after.checkpointSeq.toNat = p.checkpointSeq.toNat + 1
  nodes : ∃ front back, p.nodes = front ++ n :: back ∧ n.id = id ∧ (∀ k ∈ front, k.id ≠ id) ∧
    after = { p with checkpointSeq := after.checkpointSeq, nodes := front ++ m :: back }

/-- The numbers that are loaded are small enough for the next one to be the next one. -/
theorem toNat_bumped {p : Pipeline} (hseq : p.checkpointSeq.toNat < 2 ^ 63) :
    (GraphFile.bumped p).checkpointSeq.toNat = p.checkpointSeq.toNat + 1 := by
  have hone : (1 : UInt64).toNat = 1 := rfl
  rw [GraphFile.bumped, UInt64.toNat_add, hone]
  omega

theorem succeeds_modify {p : Pipeline} {id : String} {n : Node} (hnode : p.node? id = some n)
    (hseq : p.checkpointSeq.toNat < 2 ^ 63) (f : Node → Node) :
    p.Succeeds (GraphFile.bumped (p.modify id f)) id n (f n) := by
  obtain ⟨front, back, hnodes, hfront, hid, hmodify⟩ := modify_of_node? hnode f
  rw [hmodify]
  refine ⟨?_, front, back, hnodes, hid, hfront, rfl⟩
  exact toNat_bumped (p := p) hseq

end Pipeline

namespace Engine

/-- What a transition does to the store, by its answer. -/
inductive Effect (e : Engine) (graph : String) (q : Request) (s : Store) :
    Except Error AuditRecord × Store → Prop
  | granted {t : Store} {p after : Pipeline} {n m : Node} {record : AuditRecord}
      (loaded : GraphFile.Holds s graph p) (steps : n.Steps m q)
      (succeeds : p.Succeeds after q.node n m)
      (node : record.node = q.node) (source : record.source = n.status)
      (target : record.target = q.target) (actor : record.actor = q.actor)
      (files : e.Changes graph s t [(s.place graph, after.bytes),
        (s.place e.auditLog, s.contents (s.place e.auditLog) ++ record.line)]) :
      Effect e graph q s (.ok record, t)
  | exhausted {t : Store} {p after : Pipeline} {n : Node} {record : AuditRecord}
      (loaded : GraphFile.Holds s graph p) (failed : n.status = .failed)
      (succeeds : p.Succeeds after q.node n { n with status := .stuck })
      (node : record.node = q.node) (source : record.source = .failed)
      (target : record.target = .stuck) (actor : record.actor = q.actor)
      (files : e.Changes graph s t [(s.place graph, after.bytes),
        (s.place e.auditLog, s.contents (s.place e.auditLog) ++ record.line)]) :
      Effect e graph q s (.error (.retriesExhausted q.node n.retryCount.toNat), t)
  | refused {t : Store} {err : Error} (spared : err.isExhausted = false)
      (grown : e.Changes graph s t []) :
      Effect e graph q s (.error err, t)

def quietHost : Host := ⟨fun _ => default, 1, fun _ => false, [], default⟩

end Engine

end Pipewright

/-!
## The histories of nodes

The records about a node form a trail: each is about a step from where the one
before it led. A pipeline follows its records if they lead every node from
pending to its status.

A verdict on a request steps one node and is about that node alone, since no id
is declared twice in a valid pipeline; so the pipeline that is saved follows the
records with the new one (`Succeeds.follows`).
-/

namespace Pipewright

open Pipeline (Node Verdict)

/-! ### Records and histories -/

namespace AuditRecord

theorem logged : Json.Logged toJson ofDocument? where
  exact := by
    intro r
    cases h : r.evidenceHash <;> simp [toJson, h, Json.ofText?, Json.isExact, Json.haveExact]
  object := fun r => ⟨_, rfl⟩
  reread := by
    intro r
    obtain ⟨timestamp, node, source, target, actor, hash⟩ := r
    have hfields := fun fields => @Json.recordFields_document fieldNames fields
    rw [toJson, ofDocument?, hfields _ rfl (by decide)]
    cases hash <;> simp [Json.document, Json.ofText?, Json.required, Json.optionalField,
      Json.defaulted, Json.nullable, Json.asText, Json.asWord, Status.ofName?_name]

end AuditRecord

/-- The status can become the other one, on request or by running out of retries. -/
def Status.Becomes (s t : Status) : Prop := s.canBecome t ∨ s = .failed ∧ t = .stuck

/-- Each record is about a step from where the one before it led. -/
def IsTrail (s : Status) : List AuditRecord → Prop
  | [] => True
  | r :: rs => r.source = s ∧ s.Becomes r.target ∧ IsTrail r.target rs

def trailEnd (s : Status) (rs : List AuditRecord) : Status := (rs.getLast?.map (·.target)).getD s

theorem trailEnd_cons (s : Status) (r : AuditRecord) (rs : List AuditRecord) :
    trailEnd s (r :: rs) = trailEnd r.target rs := by
  cases rs with
  | nil => rfl
  | cons r' rs =>
      rw [trailEnd, trailEnd, List.getLast?_cons_cons]
      cases hlast : (r' :: rs).getLast? with
      | none => simp at hlast
      | some last => rfl

theorem isTrail_concat {s : Status} {rs : List AuditRecord} {r : AuditRecord} (h : IsTrail s rs)
    (hsource : r.source = trailEnd s rs) (htarget : r.source.Becomes r.target) :
    IsTrail s (rs ++ [r]) := by
  induction rs generalizing s with
  | nil =>
      obtain rfl : r.source = s := hsource
      exact ⟨rfl, htarget, trivial⟩
  | cons r' rs ih =>
      obtain ⟨hs, hstep, hrest⟩ := h
      rw [trailEnd_cons] at hsource
      exact ⟨hs, hstep, ih hrest hsource⟩

/-- The records about each node lead from pending to the status of the node. -/
def Pipeline.Follows (p : Pipeline) (records : List AuditRecord) : Prop :=
  ∀ id, IsTrail .pending (records.filter (·.node = id)) ∧
    ∀ n ∈ p.nodes, n.id = id → n.status = trailEnd .pending (records.filter (·.node = id))

namespace Pipeline

variable {p after : Pipeline} {id : String} {n m : Node}

def statuses (p : Pipeline) : List (String × Status) := p.nodes.map fun n => (n.id, n.status)

theorem Follows.of_statuses {records : List AuditRecord} (h : p.Follows records)
    (hsame : after.statuses = p.statuses) : after.Follows records := by
  intro id
  refine ⟨(h id).1, fun n hn hid => ?_⟩
  have hmem : (n.id, n.status) ∈ p.statuses := hsame ▸ List.mem_map_of_mem hn
  obtain ⟨k, hk, heq⟩ := List.mem_map.mp hmem
  obtain ⟨hkid, hkstatus⟩ := Prod.mk.inj heq
  rw [← hkstatus]
  exact (h id).2 k hk (hkid.trans hid)

theorem statuses_of_unlined {q : Pipeline} (h : q.unlined = p.shaped.unlined) :
    q.statuses = p.statuses := by
  have hview := congrArg (List.map fun n : Node => (n.id, n.status)) (congrArg nodes h)
  simpa [statuses, unlined, shaped, Node.unlined, Node.shaped, Function.comp_def] using hview

theorem ids_of_statuses (h : after.statuses = p.statuses) : after.ids = p.ids := by
  have hview := congrArg (List.map Prod.fst) h
  rwa [statuses, statuses, List.map_map, List.map_map] at hview

theorem Succeeds.ids (h : p.Succeeds after id n m) (hm : m.id = id) : after.ids = p.ids := by
  obtain ⟨front, back, hnodes, hid, -, hafter⟩ := h.nodes
  rw [hafter, Pipeline.ids, Pipeline.ids, hnodes]
  simp [hm, hid]

theorem Succeeds.lifted (h : p.Succeeds after id n m) (hm : m.id = id) (hextra : m.extra = n.extra)
    (hseq : p.checkpointSeq.toNat + 1 < 2 ^ 63) (hp : p.Lifted) : after.Lifted := by
  have hids := h.ids hm
  have hnum := h.seq
  obtain ⟨front, back, hnodes, -, -, hafter⟩ := h.nodes
  have hall := hp.nodes
  rw [hnodes, List.forall_mem_append, List.forall_mem_cons] at hall
  refine ⟨by omega, ?_, ?_, ?_, ?_⟩
  · rw [hafter]
    exact hp.attrs
  · rw [hafter]
    exact List.forall_mem_append.mpr
      ⟨hall.1, List.forall_mem_cons.mpr ⟨hextra ▸ hall.2.1, hall.2.2⟩⟩
  · rw [hids, hafter]
    exact hp.ends
  · rw [hafter]
    exact hp.edges

theorem Succeeds.plain (h : p.Succeeds after id n m) (hextra : m.extra = n.extra) (hp : p.Plain) :
    after.Plain := by
  obtain ⟨front, back, hnodes, -, -, hafter⟩ := h.nodes
  have hall := hp.nodes
  rw [hnodes, List.forall_mem_append, List.forall_mem_cons] at hall
  rw [hafter]
  refine ⟨hp.attrs, ?_, hp.edges⟩
  exact List.forall_mem_append.mpr ⟨hall.1, List.forall_mem_cons.mpr ⟨hextra ▸ hall.2.1, hall.2.2⟩⟩

/-- A record about the step of the only node of its id. -/
theorem Succeeds.follows (h : p.Succeeds after id n m) (hm : m.id = id) (hnodup : p.ids.Nodup)
    {records : List AuditRecord} (hp : p.Follows records) {r : AuditRecord} (hnode : r.node = id)
    (hsource : r.source = n.status) (htarget : r.target = m.status)
    (hstep : n.status.Becomes m.status) : after.Follows (records ++ [r]) := by
  obtain ⟨front, back, hnodes, hid, -, hafter⟩ := h.nodes
  intro i
  obtain ⟨htrail, hends⟩ := hp i
  rw [List.filter_append]
  by_cases hi : i = id
  · subst hi
    have hlast : [r].filter (·.node = i) = [r] := by simp [hnode]
    have hend : r.source = trailEnd .pending (records.filter (·.node = i)) := by
      rw [hsource]
      exact hends n (by rw [hnodes]; simp) hid
    rw [hlast]
    refine ⟨isTrail_concat htrail hend (by rw [hsource, htarget]; exact hstep), fun k hk hkid => ?_⟩
    have honly : k = m := by
      rw [Pipeline.ids, hnodes, List.map_append, List.map_cons, List.nodup_append,
        List.nodup_cons] at hnodup
      rw [hafter] at hk
      rcases List.mem_append.mp hk with hk | hk
      · exact absurd (hkid.trans hid.symm) (hnodup.2.2 _ (List.mem_map_of_mem hk) _ (by simp))
      · rcases List.mem_cons.mp hk with rfl | hk
        · rfl
        · exact absurd (hid.trans hkid.symm ▸ List.mem_map_of_mem hk) hnodup.2.1.1
    rw [honly, trailEnd, List.getLast?_concat, ← htarget]
    rfl
  · have hnone : [r].filter (·.node = i) = [] := by simp [hnode, Ne.symm hi]
    rw [hnone, List.append_nil]
    refine ⟨htrail, fun k hk hkid => hends k ?_ hkid⟩
    rw [hafter] at hk
    rw [hnodes]
    rcases List.mem_append.mp hk with hk | hk
    · exact List.mem_append_left _ hk
    · rcases List.mem_cons.mp hk with rfl | hk
      · exact absurd (hkid.symm.trans hm) hi
      · exact List.mem_append_right _ (List.mem_cons_of_mem _ hk)

/-- The verdict on a request steps the only node of its id, and its record says so. -/
theorem succeeds_of_judge {maxRetries : UInt32} {s : Store} {now : Instant} {q : Request}
    {v : Verdict} (h : p.judge maxRetries s now q = .ok v) (hseq : p.checkpointSeq.toNat < 2 ^ 63) :
    p.ids.Nodup ∧ ∃ n m, p.Succeeds (GraphFile.bumped v.after) q.node n m ∧ m.id = q.node ∧
      m.extra = n.extra ∧ v.record.node = q.node ∧ v.record.source = n.status ∧
      v.record.target = m.status ∧ n.status.Becomes m.status := by
  obtain ⟨n, hnode, hlegal, hvalid, hjudged⟩ := judge_eq_ok h
  obtain ⟨_, _, _, _, hid, -⟩ := modify_of_node? hnode fun n => n
  refine ⟨nodup_of_requireValid hvalid, n, ?_⟩
  cases hjudged with
  | granted effects hcheck =>
      exact ⟨n.advance q effects now, succeeds_modify hnode hseq _, hid, rfl, rfl, rfl, rfl,
        .inl hlegal⟩
  | exhausted hfailed =>
      exact ⟨{ n with status := .stuck }, succeeds_modify hnode hseq _, hid, rfl, rfl, rfl, rfl,
        .inr ⟨hfailed, rfl⟩⟩

end Pipeline

end Pipewright
