import Pipewright.Proofs.Engine.Actions
import Pipewright.Proofs.Lifecycle.Prospects

/-!
# Requests about different nodes

Two requests about two nodes of one graph file can be made in either order. Each
has the answer that it would have had in the other order, the graph file comes
to bear the same pipeline, and the audit log is added the same records, apart
from the order of these and the times in all of it (`transitions_commute`).

The evidence of a request must not be touched by the other one. That is not only
a matter of which file it is: a directory that is made for the audit log can
open up a path that led nowhere before, and through it to a file that was there
all the time. And where the directory of the log cannot be made, the attempt to
make it can change what the next attempt runs into. The log may be the graph file
itself only if the graph can be saved, so that no record stays in it.
`order_matters` shows what comes of the order where it is otherwise.
-/

namespace Pipewright

open Pipeline (Ruling)

namespace AuditRecord

def untimed (r : AuditRecord) : AuditRecord := { r with timestamp := "" }

end AuditRecord

namespace Engine

variable {e : Engine} {graph : String} {q q' : Request} {h h' later later' : Host} {s t : Store}
  {p : Pipeline}

/-! ## Answers and records -/

theorem untimed_record (r : Ruling) (q : Request) (now now' : Instant) :
    (r.record q now).untimed = (r.record q now').untimed := by
  cases r <;> simp only [AuditRecord.untimed, Ruling.record]

theorem untimed_records (q : Request) (now now' : Instant) (o : Option Ruling) :
    (records q now o).map AuditRecord.untimed = (records q now' o).map AuditRecord.untimed := by
  cases o with
  | none => simp only [records, Option.map_none]
  | some r =>
      simp only [records, Option.map_some, Option.toList_some, List.map_cons, List.map_nil]
      rw [untimed_record r q now now']

theorem untimed_answer (x : Prospect) (q : Request) (now now' : Instant) :
    (x.answer q now).map AuditRecord.untimed = (x.answer q now').map AuditRecord.untimed := by
  have hanswer : ∀ r : Ruling, (r.answer q now).map AuditRecord.untimed
      = (r.answer q now').map AuditRecord.untimed := by
    intro r
    cases r with
    | granted source effects =>
        simp only [Ruling.answer, Except.map, untimed_record (.granted source effects) q now now']
    | exhausted attempts => simp only [Ruling.answer]
  rcases x with ⟨err | r, fault | ⟨⟩, fault' | ⟨⟩⟩ <;>
    simp only [Prospect.answer_refused, Prospect.answer_unlogged, Prospect.answer_unsaved,
      Prospect.answer_carriedOut]
  exact hanswer r

/-- The answers are the same apart from the time, or both say that the audit log cannot be added
to, where its directory is missing. -/
def SameAnswer (e : Engine) (graph : String) (s : Store) (r r' : Except Error AuditRecord) : Prop :=
  r.map AuditRecord.untimed = r'.map AuditRecord.untimed ∨
    ¬s.isDirectory (Store.holder e.auditLog) ∧ ¬e.CanLog graph s ∧
      ∃ fault fault', r = .error (.file fault) ∧ r' = .error (.file fault')

theorem not_canLog {fault : FileFault} (hlogging : e.logging graph s = .error fault) :
    ¬e.CanLog graph s := by
  intro hcan
  have hok := hcan _ (s.create_spec (lockPath graph) default).1 .empty default
  rw [← logging, hlogging] at hok
  cases hok

/-- The prospect of a request afterwards, if its ruling is the same. -/
structure SameProspect (e : Engine) (graph : String) (s : Store) (x y : Prospect) : Prop where
  logged : y.logged = x.logged
  saved : y.saved = x.saved
  answer : ∀ q now now', e.SameAnswer graph s (x.answer q now) (y.answer q now')

theorem sameProspect (hruling : e.ruling graph q later t = e.ruling graph q h s)
    (hhome : t.home = s.home) (hrelogs : e.Relogs graph s t) :
    e.SameProspect graph s (e.prospect graph q h s) (e.prospect graph q later t) := by
  have hsaving : saving graph t = saving graph s := saving_of_home hhome
  rcases hrelogs with hsame | ⟨hdir, fault, fault', hfault, hfault'⟩
  · have heq : e.prospect graph q later t = e.prospect graph q h s := by
      rw [prospect, prospect, hruling, hsame, hsaving]
    rw [heq]
    exact ⟨rfl, rfl, fun q now now' => .inl (untimed_answer _ q now now')⟩
  · simp only [prospect, hruling, hsaving, hfault, hfault']
    refine ⟨by simp, by rw [Prospect.saved_of_logged (by simp), Prospect.saved_of_logged (by simp)],
      fun asked now now' => ?_⟩
    cases e.ruling graph q h s with
    | error err => exact .inl (by simp)
    | ok r => exact .inr ⟨hdir, not_canLog hfault, fault, fault', by simp, by simp⟩

/-! ## Two requests in turn -/

/-- The answers to two requests that are carried out one after the other, and the store after
both. -/
def inTurn (e : Engine) (graph : String) (q : Request) (h : Host) (q' : Request) (h' : Host)
    (s : Store) : (Except Error AuditRecord × Except Error AuditRecord) × Store :=
  let first := (e.transition graph q).perform h s
  let second := (e.transition graph q').perform h' first.2
  ((first.1, second.1), second.2)

theorem inTurn_first (e : Engine) (graph : String) (q : Request) (h : Host) (q' : Request)
    (h' : Host) (s : Store) :
    (e.inTurn graph q h q' h' s).1.1 = ((e.transition graph q).perform h s).1 := by
  rw [inTurn]

/-- The evidence of a request is not the lock file, and it is the same file in another store. -/
def SameEvidence (graph : String) (q : Request) (s t : Store) : Prop :=
  ∀ path ∈ q.evidence, t.file? path = s.file? path ∧ s.place path ≠ s.place (lockPath graph)

/-- Evidence that is there and is none of the files of the engine is not touched by a request. -/
theorem sameEvidence_of_found (e : Engine) (q' : Request) (h' : Host)
    (hfound : ∀ path ∈ q.evidence, s.Found path)
    (hfiles : ∀ path ∈ q.evidence, s.place path ∉ [e.auditLog, graph].map s.place)
    (hlock : ∀ path ∈ q.evidence, s.place path ≠ s.place (lockPath graph)) :
    SameEvidence graph q s ((e.transition graph q').perform h' s).2 := by
  intro path hpath
  refine ⟨?_, hlock path hpath⟩
  obtain ⟨bytes, modified, hfind⟩ := hfound path hpath
  have htouched := Action.within_transition e graph q' h' s
  have hkept := htouched.find hfind (hfiles path hpath)
  rw [Store.file?_eq_some.mpr hfind, Store.file?_eq_some.mpr hkept]

/-- What the audit log was added on a request: at most one record, about the node of the request,
which is the answer if the request was granted. -/
structure Recorded (q : Request) (result : Except Error AuditRecord) (l : List AuditRecord) :
    Prop where
  atMostOne : l.length ≤ 1
  about : ∀ r ∈ l, r.node = q.node
  answer : ∀ r, result = .ok r → l = [r]

/-- What two requests came to in the one order and in the other: the answers and the pipelines
are the same, and the log has the same records, in the order of the requests. -/
structure Agree (e : Engine) (graph : String) (q q' : Request) (s : Store)
    (x y : (Except Error AuditRecord × Except Error AuditRecord) × Store) : Prop where
  first : e.SameAnswer graph s x.1.1 y.1.2
  second : e.SameAnswer graph s x.1.2 y.1.1
  pipeline : (GraphFile.loaded x.2 graph).map (fun p => ((p.undated q).undated q').unlined)
    = (GraphFile.loaded y.2 graph).map (fun p => ((p.undated q).undated q').unlined)
  log : s.place graph ≠ s.place e.auditLog → ∃ l l' m m' : List AuditRecord,
    x.2.contents (s.place e.auditLog) = s.contents (s.place e.auditLog) ++
      (Json.logText AuditRecord.toJson (l ++ l')).toUTF8 ∧
    y.2.contents (s.place e.auditLog) = s.contents (s.place e.auditLog) ++
      (Json.logText AuditRecord.toJson (m' ++ m)).toUTF8 ∧
    m.map AuditRecord.untimed = l.map AuditRecord.untimed ∧
    m'.map AuditRecord.untimed = l'.map AuditRecord.untimed ∧
    Recorded q x.1.1 l ∧ Recorded q' x.1.2 l' ∧ Recorded q y.1.2 m ∧ Recorded q' y.1.1 m'

theorem recorded_answer (x : Prospect) (q : Request) (now : Instant) :
    Recorded q (x.answer q now) (records q now x.logged) where
  atMostOne := by cases x.logged <;> simp [records]
  about := by
    intro record hrecord
    cases hlogged : x.logged with
    | none => simp [records, hlogged] at hrecord
    | some r =>
        rw [hlogged, records, Option.map_some, Option.toList_some, List.mem_singleton] at hrecord
        rw [hrecord]
        cases r <;> rfl
  answer := by
    intro record hanswer
    rcases x with ⟨err | r, fault | ⟨⟩, fault' | ⟨⟩⟩
    case ok.ok.ok =>
      rw [Prospect.answer_carriedOut] at hanswer
      rw [Prospect.logged_logged, records, Option.map_some, Option.toList_some]
      cases r with
      | granted source effects => rw [Except.ok.inj hanswer]
      | exhausted attempts => cases hanswer
    all_goals simp at hanswer

/-- What two requests in turn come to, by the prospects that they had at first. -/
structure InTurn (e : Engine) (graph : String) (q : Request) (h : Host) (q' : Request) (h' : Host)
    (s : Store) (result : (Except Error AuditRecord × Except Error AuditRecord) × Store) :
    Prop where
  first : result.1.1 = (e.prospect graph q h s).answer q (h.clock 0)
  second : e.SameAnswer graph s ((e.prospect graph q' h' s).answer q' (h'.clock 0)) result.1.2
  log : s.place graph ≠ s.place e.auditLog →
    result.2.contents (s.place e.auditLog) = s.contents (s.place e.auditLog) ++
      (Json.logText AuditRecord.toJson (records q (h.clock 0) (e.prospect graph q h s).logged ++
        records q' (h'.clock 0) (e.prospect graph q' h' s).logged)).toUTF8
  firstLogged : Recorded q result.1.1 (records q (h.clock 0) (e.prospect graph q h s).logged)
  secondLogged : Recorded q' result.1.2 (records q' (h'.clock 0) (e.prospect graph q' h' s).logged)
  failed : ∀ err, GraphFile.loaded s graph = .error err →
    GraphFile.loaded result.2 graph = .error err
  loaded : ∀ p, GraphFile.loaded s graph = .ok p → ∃ x y, GraphFile.loaded result.2 graph = .ok y ∧
    Pipeline.Becomes q (h.clock 0) (e.prospect graph q h s).saved p x ∧
    Pipeline.Becomes q' (h'.clock 0) (e.prospect graph q' h' s).saved x y

theorem saved_of_failed {err : Error} (hfailed : GraphFile.loaded s graph = .error err) :
    (e.prospect graph q h s).saved = none := by
  cases hsaved : (e.prospect graph q h s).saved with
  | none => rfl
  | some r =>
      obtain ⟨-, -, p, hp, -⟩ := ruling_eq_ok (Prospect.saved_eq_some hsaved).1
      rw [hfailed] at hp
      cases hp

theorem inTurn_spec (hgraph : s.Found graph)
    (hplain : ∀ p, GraphFile.loaded s graph = .ok p →
      p.Plain ∧ p.checkpointSeq.toNat < 2 ^ 63 - 2)
    (hshelter : e.Sheltered graph s) (hne : q'.node ≠ q.node)
    (hevidence : ∀ path ∈ q.evidence, s.place path ≠ s.place (lockPath graph))
    (hevidence' : SameEvidence graph q' s ((e.transition graph q).perform h s).2) :
    InTurn e graph q h q' h' s (e.inTurn graph q h q' h' s) := by
  have hfirst := turn e q h hgraph hshelter hevidence
  rw [inTurn]
  generalize (e.transition graph q).perform h s = result at hfirst hevidence' ⊢
  obtain ⟨r, t⟩ := result
  dsimp only at hfirst hevidence' ⊢
  have hplace := Store.place_eq hfirst.home
  have hshelter' : e.Sheltered graph t := by
    rw [Sheltered, hplace, hplace, saving_of_home hfirst.home]
    exact hshelter
  have hsecond := turn e q' h' hfirst.found hshelter'
    (fun path hpath => by rw [hplace, hplace]; exact (hevidence' path hpath).2)
  generalize (e.transition graph q').perform h' t = result at hsecond ⊢
  obtain ⟨r', u⟩ := result
  dsimp only at hsecond ⊢
  have hseq : ∀ p, GraphFile.loaded s graph = .ok p →
      p.Plain ∧ p.checkpointSeq.toNat + 1 < 2 ^ 63 := by
    intro p hp
    obtain ⟨hp', hlt⟩ := hplain p hp
    exact ⟨hp', by omega⟩
  have hruling : e.ruling graph q' h' t = e.ruling graph q' h' s :=
    hfirst.ruling hne rfl (fun path hpath => (hevidence' path hpath).1) hseq
  -- What comes of the second request is told by the prospect that it had before the first one.
  have hsame := sameProspect hruling hfirst.home hfirst.logging
  refine ⟨hfirst.answer, ?_, fun hplaces => ?_, ?_, ?_, fun err herr => ?_, fun p hp => ?_⟩
  · rw [hsecond.answer]
    exact hsame.answer q' _ _
  · have hlog := hsecond.log
    rw [hplace, hplace, hfirst.log hplaces, hsame.logged] at hlog
    have hlog := hlog hplaces
    rw [hlog, Json.logText_append, toUTF8_append, ByteArray.append_assoc]
  · rw [hfirst.answer]
    exact recorded_answer _ q _
  · rw [hsecond.answer, ← hsame.logged]
    exact recorded_answer _ q' _
  · have hkept := (hfirst.kept (saved_of_failed herr)).trans herr
    exact (hsecond.kept (saved_of_failed hkept)).trans hkept
  · obtain ⟨x, hx, hbecomes, hplainx, hseqx⟩ := hfirst.becomes hp (hseq p hp).1 (hseq p hp).2
    have hlt := (hplain p hp).2
    obtain ⟨y, hy, hbecomes', -⟩ := hsecond.becomes hx hplainx (by omega)
    rw [hsame.saved] at hbecomes'
    exact ⟨x, y, hy, hbecomes, hbecomes'⟩

/-! ## Either order -/

theorem SameAnswer.symm {r r' : Except Error AuditRecord} (hsame : e.SameAnswer graph s r r') :
    e.SameAnswer graph s r' r := by
  rcases hsame with huntimed | ⟨hdir, hcan, fault, fault', hr, hr'⟩
  · exact .inl huntimed.symm
  · exact .inr ⟨hdir, hcan, fault', fault, hr', hr⟩

theorem SameAnswer.of_untimed {r r' r'' : Except Error AuditRecord}
    (huntimed : r.map AuditRecord.untimed = r'.map AuditRecord.untimed)
    (hsame : e.SameAnswer graph s r' r'') : e.SameAnswer graph s r r'' := by
  rcases hsame with hsame | ⟨hdir, hcan, fault, fault', rfl, rfl⟩
  · exact .inl (huntimed.trans hsame)
  · cases r with
    | ok record => cases huntimed
    | error err =>
        cases huntimed
        exact .inr ⟨hdir, hcan, fault, fault', rfl, rfl⟩

theorem SameAnswer.granted {r : AuditRecord} {answer : Except Error AuditRecord}
    (hsame : e.SameAnswer graph s (.ok r) answer) : ∃ r', answer = .ok r' := by
  rcases hsame with huntimed | ⟨-, -, _, _, hfault, -⟩
  · cases answer with
    | ok r' => exact ⟨r', rfl⟩
    | error err => cases huntimed
  · cases hfault

theorem prospect_of_held (hheld : later.held = h.held) :
    e.prospect graph q later s = e.prospect graph q h s := by
  simp only [prospect, ruling, hheld]

/-- Two requests about two nodes of a graph file can be made in either order, if the evidence of
each is not touched by the other one. -/
theorem transitions_commute (hgraph : s.Found graph)
    (hplain : ∀ p, GraphFile.loaded s graph = .ok p →
      p.Plain ∧ p.checkpointSeq.toNat < 2 ^ 63 - 2)
    (hshelter : e.Sheltered graph s) (hne : q.node ≠ q'.node)
    (hheld : later.held = h.held) (hheld' : later'.held = h'.held)
    (hevidence : SameEvidence graph q s ((e.transition graph q').perform later' s).2)
    (hevidence' : SameEvidence graph q' s ((e.transition graph q).perform h s).2) :
    e.Agree graph q q' s (e.inTurn graph q h q' h' s) (e.inTurn graph q' later' q later s) := by
  have hx : InTurn e graph q h q' h' s _ := inTurn_spec hgraph hplain hshelter hne.symm
    (fun path hpath => (hevidence path hpath).2) hevidence'
  have hy : InTurn e graph q' later' q later s _ := inTurn_spec hgraph hplain hshelter hne
    (fun path hpath => (hevidence' path hpath).2) hevidence
  generalize e.inTurn graph q h q' h' s = x at hx ⊢
  generalize e.inTurn graph q' later' q later s = y at hy ⊢
  refine ⟨?first, ?second, ?pipeline, ?log⟩
  case first =>
    have hsecond := hy.second
    rw [prospect_of_held hheld] at hsecond
    rw [hx.first]
    exact .of_untimed (untimed_answer _ q _ _) hsecond
  case second =>
    have hfirst := hy.first
    rw [prospect_of_held hheld'] at hfirst
    rw [hfirst]
    exact .symm (.of_untimed (untimed_answer _ q' _ _) hx.second)
  case pipeline =>
    cases hloaded : GraphFile.loaded s graph with
    | error err => rw [hx.failed err hloaded, hy.failed err hloaded]
    | ok p =>
        obtain ⟨x₁, x₂, hx₂, hfirst, hsecond⟩ := hx.loaded p hloaded
        obtain ⟨y₁, y₂, hy₂, hfirst', hsecond'⟩ := hy.loaded p hloaded
        rw [prospect_of_held hheld'] at hfirst'
        rw [prospect_of_held hheld] at hsecond'
        rw [hx₂, hy₂, Except.map, Except.map,
          Pipeline.becomes_comm hne hfirst hsecond hfirst' hsecond']
  case log =>
    intro hplaces
    have hlog := hy.log hplaces
    have hfirst := hy.firstLogged
    have hsecond := hy.secondLogged
    rw [prospect_of_held hheld', prospect_of_held hheld] at hlog
    rw [prospect_of_held hheld'] at hfirst
    rw [prospect_of_held hheld] at hsecond
    exact ⟨_, _, _, _, hx.log hplaces, hlog, untimed_records q _ _ _, untimed_records q' _ _ _,
      hx.firstLogged, hx.secondLogged, hsecond, hfirst⟩

/-- Two pieces of work in a graph file, beside another file. -/
def bareStore : Store where
  entries := [(["home", "p.dot"], .file Pipeline.twofold.bytes default),
    (["home", "ev.txt"], .file .empty default)]

/-- The request to take up a piece of work. -/
def takeUp (id : String) (evidence : Option String) : Request := ⟨id, .active, "dev", evidence⟩

/-- An engine with its audit log in a directory of its own. -/
def relayEngine : Engine := ⟨".relay/audit.jsonl", 3, .noWait⟩

/-- What becomes of the two pieces of work depends on the evidence only. -/
theorem loaded_bareStore : ∃ p, GraphFile.loaded bareStore "p.dot" = .ok p ∧ p.Plain ∧
    p.checkpointSeq = 0 ∧ ∀ id ∈ ["a", "b"], ∃ n : Pipeline.Node, n.id = id ∧
      ∀ (maxRetries : UInt32) (s : Store) (evidence : Option String),
        p.rule maxRetries s (takeUp id evidence)
          = (Guard.checkEvidence s n .active evidence).map (.granted .pending) := by
  obtain ⟨p, hbears, hplain, hvalid, hseq, hpending, hnodes⟩ := bears_twofold
  have hread : bareStore.readText "p.dot" = (homeStore .twofold).readText "p.dot" := rfl
  have hloaded : GraphFile.loaded bareStore "p.dot" = .ok p := by
    rw [GraphFile.loaded, hread]
    exact GraphFile.loaded_eq_ok.mpr hbears
  refine ⟨p, hloaded, hplain, hseq, fun id hid => ?_⟩
  obtain ⟨n, hnode, hpin, -⟩ := hnodes id hid
  have hid : n.id = id := by simpa using List.find?_some hnode
  exact ⟨n, hid, fun maxRetries s evidence => Pipeline.rule_takeUp hvalid hnode
    (hpending n (List.mem_of_find?_eq_some hnode)) hpin maxRetries s "dev" evidence⟩

theorem found_bareStore : bareStore.Found "p.dot" := ⟨_, _, rfl⟩

theorem site_bareStore : bareStore.site (lockPath "p.dot") = .ok ["home", "p.dot.lock"] := rfl

theorem ruling_takeUp {id : String} (hid : id ∈ ["a", "b"]) (e : Engine)
    (hsite : s.site (lockPath "p.dot") = .ok ["home", "p.dot.lock"])
    (hread : s.readText "p.dot" = bareStore.readText "p.dot") :
    e.ruling "p.dot" (takeUp id none) quietHost s = .ok (.granted .pending {}) := by
  obtain ⟨p, hloaded, -, -, hrule⟩ := loaded_bareStore
  obtain ⟨n, -, hrule⟩ := hrule id hid
  rw [ruling_of_site hsite rfl, GraphFile.loaded, hread, ← GraphFile.loaded, hloaded]
  change p.rule e.maxRetries s (takeUp id none) = _
  rw [hrule]
  rfl

theorem ruling_bareStore : relayEngine.ruling "p.dot" (takeUp "b" none) quietHost bareStore
    = .ok (.granted .pending {}) :=
  ruling_takeUp (by decide) relayEngine site_bareStore rfl

theorem logging_relayEngine : relayEngine.logging "p.dot" bareStore = .ok () := rfl

theorem saving_bareStore : saving "p.dot" bareStore = .ok () := rfl

/-- Work that is taken up with evidence is granted with the digest of that. -/
theorem ruling_evidence :
    relayEngine.ruling "p.dot" (takeUp "a" (some "ev.txt")) quietHost bareStore
      = .ok (.granted .pending { evidenceHash := some (sha256 .empty) }) := by
  obtain ⟨p, hloaded, -, -, hrule⟩ := loaded_bareStore
  obtain ⟨n, -, hrule⟩ := hrule "a" (by decide)
  rw [ruling_of_site site_bareStore rfl, hloaded]
  change p.rule relayEngine.maxRetries bareStore (takeUp "a" (some "ev.txt")) = _
  rw [hrule, Guard.checkEvidence_of_find (s := bareStore) rfl (by decide)]
  rfl

/-- Two pieces of work can be taken up in either order, one of them with evidence: both requests are
granted. -/
theorem transitions_commute_bareStore :
    (∃ p, GraphFile.loaded bareStore "p.dot" = .ok p ∧ p.Plain ∧
      p.checkpointSeq.toNat < 2 ^ 63 - 2) ∧
    (∃ r r', (relayEngine.inTurn "p.dot" (takeUp "a" (some "ev.txt")) quietHost (takeUp "b" none)
      quietHost bareStore).1 = (.ok r, .ok r')) ∧
    relayEngine.Agree "p.dot" (takeUp "a" (some "ev.txt")) (takeUp "b" none) bareStore
      (relayEngine.inTurn "p.dot" (takeUp "a" (some "ev.txt")) quietHost (takeUp "b" none) quietHost
        bareStore)
      (relayEngine.inTurn "p.dot" (takeUp "b" none) quietHost (takeUp "a" (some "ev.txt")) quietHost
        bareStore) := by
  obtain ⟨p, hloaded, hplain, hseq, -⟩ := loaded_bareStore
  have hbound : p.checkpointSeq.toNat < 2 ^ 63 - 2 := by rw [hseq]; decide
  have hall : ∀ p', GraphFile.loaded bareStore "p.dot" = .ok p' →
      p'.Plain ∧ p'.checkpointSeq.toNat < 2 ^ 63 - 2 := by
    intro p' hp'
    obtain rfl := Except.ok.inj (hloaded.symm.trans hp')
    exact ⟨hplain, hbound⟩
  have hlock : ∀ path ∈ (takeUp "a" (some "ev.txt")).evidence,
      bareStore.place path ≠ bareStore.place (lockPath "p.dot") := by
    rintro _ ⟨⟩
    decide
  have hevidence : SameEvidence "p.dot" (takeUp "a" (some "ev.txt")) bareStore
      ((relayEngine.transition "p.dot" (takeUp "b" none)).perform quietHost bareStore).2 := by
    refine sameEvidence_of_found relayEngine (takeUp "b" none) quietHost ?_ ?_ hlock
    · rintro _ ⟨⟩
      exact ⟨_, _, rfl⟩
    · rintro _ ⟨⟩
      decide
  have hturns : InTurn relayEngine "p.dot" (takeUp "a" (some "ev.txt")) quietHost (takeUp "b" none)
      quietHost bareStore _ :=
    inTurn_spec found_bareStore hall (.inl (by decide)) (by decide) hlock nofun
  have hfirst := hturns.first
  have hsecond := hturns.second
  rw [prospect, ruling_evidence, logging_relayEngine, saving_bareStore, Prospect.answer_carriedOut]
    at hfirst
  rw [prospect, ruling_bareStore, logging_relayEngine, saving_bareStore, Prospect.answer_carriedOut]
    at hsecond
  obtain ⟨r', hsecond⟩ := hsecond.granted
  exact ⟨⟨p, hloaded, hplain, hbound⟩, ⟨_, r', Prod.ext hfirst hsecond⟩,
    transitions_commute found_bareStore hall (.inl (by decide)) (by decide) rfl rfl hevidence nofun⟩

/-! ## Where the order is seen -/

/-- The request to take up a piece of work, with evidence whose path goes through
that directory. -/
def stray : Request := takeUp "a" (some ".relay/../ev.txt")

/-- An engine whose audit log cannot be made, since a file is in the way, but a directory that the
path goes through can. -/
def farEngine : Engine := ⟨"new/../ev.txt/sub/audit.jsonl", 3, .noWait⟩

/-- What is left of an attempt to add to that log. -/
def strandedStore : Store where
  entries := [(["home", "new"], .directory), (["home", "p.dot.lock"], .file .empty default),
    (["home", "p.dot"], .file Pipeline.twofold.bytes default),
    (["home", "ev.txt"], .file .empty default)]

theorem stray_refused : ((relayEngine.transition "p.dot" stray).perform quietHost bareStore).1
    = .error (.guardRail "a" "evidence_missing"
      "evidence file .relay/../ev.txt does not exist") := by
  obtain ⟨p, hloaded, -, -, hrule⟩ := loaded_bareStore
  obtain ⟨n, hid, hrule⟩ := hrule "a" (by decide)
  have hruling : relayEngine.ruling "p.dot" stray quietHost bareStore
      = .error (.guardRail "a" "evidence_missing"
        "evidence file .relay/../ev.txt does not exist") := by
    rw [ruling_of_site site_bareStore rfl, hloaded]
    change p.rule relayEngine.maxRetries bareStore (takeUp "a" (some ".relay/../ev.txt")) = _
    rw [hrule, Guard.checkEvidence_of_file? rfl, Guard.Refusal.toError, hid]
    rfl
  have hturn := turn relayEngine stray quietHost found_bareStore (.inl (by decide))
    (by rintro _ ⟨⟩; decide)
  rw [hturn.answer, prospect, hruling, Prospect.answer_refused]

theorem find_logged (line : ByteArray) :
    ((opened "p.dot" quietHost bareStore).append relayEngine.auditLog line
      (quietHost.clock 0)).2.find ".relay/../ev.txt" = .ok (.file .empty default) := rfl

/-- Once the other piece of work was taken up, the path of the evidence leads to the file that was
there all the time. -/
theorem find_stray : ((relayEngine.transition "p.dot" (takeUp "b" none)).perform quietHost
    bareStore).2.find ".relay/../ev.txt" = .ok (.file .empty default) := by
  have hruling := ruling_bareStore
  have hstage := stage_transition relayEngine (takeUp "b" none) quietHost found_bareStore nofun
  have hreplaced : ∀ {line bytes : ByteArray} {t u : Store} {r : Except FileFault Unit},
      (opened "p.dot" quietHost bareStore).append relayEngine.auditLog line (quietHost.clock 0)
        = (.ok (), t) → t.replace "p.dot" bytes (quietHost.clock 0) = (r, u) →
      u.find ".relay/../ev.txt" = .ok (.file .empty default) := by
    intro line bytes t u r happend hreplace
    have hfind := find_logged line
    have hhome : t.home = bareStore.home := by
      have hwrites := (opened "p.dot" quietHost bareStore).append_spec relayEngine.auditLog line
        (quietHost.clock 0)
      rw [happend] at hwrites
      exact (hwrites.touched []).home.trans (touched_opened "p.dot" quietHost bareStore).home
    have hwrites := t.replace_spec "p.dot" bytes (quietHost.clock 0)
    rw [happend] at hfind
    rw [hreplace] at hwrites
    refine (hwrites.touched []).find hfind ?_
    rw [Store.place_eq hhome, Store.place_eq hhome]
    decide
  generalize (relayEngine.transition "p.dot" (takeUp "b" none)).perform quietHost bareStore = result
    at hstage ⊢
  cases hstage with
  | refused hrefused =>
      rw [hruling] at hrefused
      cases hrefused
  | unlogged _ happend =>
      have hlogging := logging_relayEngine
      rw [← append_opened _ _ quietHost, happend] at hlogging
      cases hlogging
  | unsaved _ _ happend hreplace => exact hreplaced happend hreplace
  | carriedOut _ _ happend hreplace => exact hreplaced happend hreplace

theorem stray_granted : ∃ record, (relayEngine.inTurn "p.dot" (takeUp "b" none) quietHost stray
    quietHost bareStore).1.2 = .ok record := by
  obtain ⟨p, hloaded, hplain, hseq, hrule⟩ := loaded_bareStore
  obtain ⟨n, -, hruleA⟩ := hrule "a" (by decide)
  have hruling := ruling_bareStore
  have hturn :=
    turn relayEngine (takeUp "b" none) quietHost found_bareStore (.inl (by decide)) nofun
  have hfind := find_stray
  rw [inTurn]
  generalize (relayEngine.transition "p.dot" (takeUp "b" none)).perform quietHost bareStore = result
    at hturn hfind ⊢
  obtain ⟨r, t⟩ := result
  dsimp only at hturn hfind ⊢
  obtain ⟨-, -, p₀, hp₀, hruleB⟩ := ruling_eq_ok hruling
  obtain rfl := Except.ok.inj (hloaded.symm.trans hp₀)
  obtain ⟨p', hloaded', hbecomes, -⟩ := hturn.becomes hloaded hplain (by rw [hseq]; decide)
  have hruleA' : p'.rule relayEngine.maxRetries t stray
      = .ok (.granted .pending { evidenceHash := some (sha256 .empty) }) := by
    rw [prospect, hruling, logging_relayEngine, saving_bareStore, Prospect.saved_carriedOut]
      at hbecomes
    cases hbecomes with
    | saved _ hread =>
        rw [Pipeline.rule_of_step hruleB hread (by decide), stray, hruleA,
          Guard.checkEvidence_of_find hfind (by decide)]
        rfl
  have hrulingA : relayEngine.ruling "p.dot" stray quietHost t
      = .ok (.granted .pending { evidenceHash := some (sha256 .empty) }) := by
    rw [ruling_of_site (hturn.site.trans site_bareStore) rfl, hloaded']
    exact hruleA'
  have hlogging : relayEngine.logging "p.dot" t = .ok () := by
    rcases hturn.logging with hsame | ⟨-, fault, -, hfault, -⟩
    · exact hsame.trans logging_relayEngine
    · rw [logging_relayEngine] at hfault
      cases hfault
  have hplace := Store.place_eq hturn.home
  have hturnA := turn relayEngine stray quietHost hturn.found
    (.inl (by rw [hplace, hplace]; decide)) (by rintro _ ⟨⟩; rw [hplace, hplace]; decide)
  rw [hturnA.answer, prospect, hrulingA, hlogging,
    (saving_of_home hturn.home).trans saving_bareStore,
    Prospect.answer_carriedOut]
  exact ⟨_, rfl⟩

theorem logging_farEngine : farEngine.logging "p.dot" bareStore = .error .alreadyExists := rfl

theorem logging_strandedStore :
    farEngine.logging "p.dot" strandedStore = .error .notDirectory := rfl

theorem append_farEngine (line : ByteArray) : ((opened "p.dot" quietHost bareStore).append
    farEngine.auditLog line (quietHost.clock 0)).2 = strandedStore := rfl

/-- Whichever piece of work is taken up first is told something else than the other one. -/
theorem stranded {id id' : String} (hid : id ∈ ["a", "b"]) (hid' : id' ∈ ["a", "b"]) :
    (farEngine.inTurn "p.dot" (takeUp id none) quietHost (takeUp id' none) quietHost bareStore).1
      = (.error (.file .alreadyExists), .error (.file .notDirectory)) := by
  have hruling := ruling_takeUp (s := bareStore) hid farEngine site_bareStore rfl
  have hstage := stage_transition farEngine (takeUp id none) quietHost found_bareStore nofun
  have hlogging := logging_farEngine
  rw [inTurn]
  generalize (farEngine.transition "p.dot" (takeUp id none)).perform quietHost bareStore = result
    at hstage ⊢
  cases hstage with
  | refused hrefused =>
      rw [hruling] at hrefused
      cases hrefused
  | unsaved _ _ happend _ =>
      rw [← append_opened _ _ quietHost, happend] at hlogging
      cases hlogging
  | carriedOut _ _ happend _ =>
      rw [← append_opened _ _ quietHost, happend] at hlogging
      cases hlogging
  | @unlogged r fault t _ happend =>
      have hstore := append_farEngine (r.record (takeUp id none) (quietHost.clock 0)).line
      rw [happend] at hstore
      rw [← append_opened _ _ quietHost, happend] at hlogging
      cases hlogging
      dsimp only at hstore ⊢
      rw [hstore]
      have hfound : strandedStore.Found "p.dot" := ⟨_, _, rfl⟩
      have hturn := turn farEngine (takeUp id' none) quietHost hfound (.inl (by decide)) nofun
      have hruling' := ruling_takeUp (s := strandedStore) hid' farEngine rfl rfl
      rw [hturn.answer, prospect, hruling', logging_strandedStore, Prospect.answer_unlogged]

/-- An engine that takes the graph file for its audit log. -/
def selfEngine : Engine := ⟨"p.dot", 3, .noWait⟩

/-- The text of a graph file to which the record was added that a piece of work is taken up. -/
def spoiledText (id : String) : String :=
  (Pipeline.shortest 0 0).render ++
    Json.lineText ((Ruling.granted .pending {}).record (takeUp id none) (quietHost.clock 0)).toJson

theorem parse_spoiledText {id : String} (hid : id ∈ ["s", "e"]) :
    ∃ err, Pipeline.parse (spoiledText id) = .error err ∧ ∀ fault, err ≠ .file fault := by
  have hchars : ∀ id ∈ ["s", "e"], (Digraph.parseStripped (Digraph.stripComments
      ((Pipeline.shortest 0 0).toDigraph.renderChars ++ (Json.compactChars
        ((Ruling.granted .pending {}).record (takeUp id none) (quietHost.clock 0)).toJson ++
          ['\n'])))).isOk = false := by decide +kernel
  have htext : (spoiledText id).toList = (Pipeline.shortest 0 0).toDigraph.renderChars ++
      (Json.compactChars ((Ruling.granted .pending {}).record (takeUp id none)
        (quietHost.clock 0)).toJson ++ ['\n']) := by
    rw [spoiledText, Pipeline.render, Digraph.render, Json.lineText, Json.compact,
      String.toList_append, String.toList_append, String.toList_ofList, String.toList_ofList]
    rfl
  have hchars := hchars id hid
  rw [← htext] at hchars
  rw [Pipeline.parse, Digraph.read, Digraph.parse]
  cases hparse : Digraph.parseStripped (Digraph.stripComments (spoiledText id).toList) with
  | ok g =>
      rw [hparse] at hchars
      cases hchars
  | error fault => exact ⟨fault.toError, rfl, fun _ => by simp [Digraph.ParseFault.toError]⟩

theorem loaded_shortStore (home : List String) : ∃ l l', (Pipeline.shortest l l').shaped.Plain ∧
    GraphFile.loaded (shortStore home) "p.dot" = .ok (Pipeline.shortest l l').shaped := by
  obtain ⟨l, l', hfresh⟩ := fresh_shortStore home
  obtain ⟨text, g, htext, hread, hp, hkeys, hreals⟩ := hfresh.read
  refine ⟨l, l', Pipeline.plain_ofDigraph hp (Pipeline.isPlain_iff.mpr ⟨hkeys, hreals⟩), ?_⟩
  rw [GraphFile.loaded, htext]
  change Pipeline.parse text = _
  rw [Pipeline.parse, hread]
  exact hp

theorem found_lock_shortStore (home : List String) :
    (shortStore home).Found (lockPath "p.dot") := by
  have hlockPath : lockPath "p.dot" = "p.dot.lock" := by decide
  rw [hlockPath]
  exact ⟨_, _, (find_lock home).1⟩

theorem saving_deepHome : ∃ fault, saving "p.dot" (shortStore deepHome) = .error fault := by
  obtain ⟨fault, hdraft⟩ := origin_draft_deepHome
  have hholder : Store.holder "p.dot" = "." := by decide
  exact ⟨fault, by rw [saving, hholder, hdraft]; rfl⟩

theorem ruling_shortStore {id : String} (hid : id ∈ ["s", "e"]) (home : List String) :
    selfEngine.ruling "p.dot" (takeUp id none) quietHost (shortStore home)
      = .ok (.granted .pending {}) := by
  obtain ⟨l, l', -, hloaded⟩ := loaded_shortStore home
  have hnode : ∃ n, (Pipeline.shortest l l').shaped.node? id = some n ∧ n.status = .pending ∧
      n.acceptanceHash = none := by
    simp only [List.mem_cons, List.not_mem_nil, or_false] at hid
    rcases hid with rfl | rfl
    · exact ⟨_, rfl, rfl, rfl⟩
    · exact ⟨_, rfl, rfl, rfl⟩
  obtain ⟨n, hnode, hpending, hpin⟩ := hnode
  obtain ⟨_, _, hlock⟩ := found_lock_shortStore home
  have hsite := Store.site_of_find hlock
  rw [ruling_of_site hsite rfl, hloaded]
  change (Pipeline.shortest l l').shaped.rule selfEngine.maxRetries (shortStore home)
    (takeUp id none) = _
  rw [takeUp, Pipeline.rule_takeUp (Pipeline.requireValid_shortest l l') hnode hpending hpin]
  rfl

/-- Where there is no room to save the graph, the record of the first request stays in the graph
file. -/
theorem spoiled {id : String} (hid : id ∈ ["s", "e"]) : ∃ fault u,
    (selfEngine.transition "p.dot" (takeUp id none)).perform quietHost (shortStore deepHome)
      = (.error (.file fault), u) ∧ u.Found "p.dot" ∧ u.Found (lockPath "p.dot") ∧
    u.readText "p.dot" = .ok (spoiledText id) := by
  have hfind := (find_graph deepHome).1
  have hgraph : (shortStore deepHome).Found "p.dot" := ⟨_, _, hfind⟩
  have hlock := found_lock_shortStore deepHome
  have hruling := ruling_shortStore hid deepHome
  have hstage := stage_transition selfEngine (takeUp id none) quietHost hgraph nofun
  generalize (selfEngine.transition "p.dot" (takeUp id none)).perform quietHost
    (shortStore deepHome) = result at hstage ⊢
  have hlogging : selfEngine.logging "p.dot" (shortStore deepHome) = .ok () := by
    rw [logging_of_found hlock .empty default]
    exact Store.canAppend_of_find hfind .empty default
  obtain ⟨fault, hsaving⟩ := saving_deepHome
  cases hstage with
  | refused hrefused =>
      rw [hruling] at hrefused
      cases hrefused
  | unlogged _ happend =>
      rw [← append_opened _ _ quietHost, happend] at hlogging
      cases hlogging
  | carriedOut _ _ happend hreplace =>
      obtain ⟨hhome, hfound⟩ := found_append hgraph happend
      rw [← replace_of_found hfound hhome, hreplace] at hsaving
      cases hsaving
  | @unsaved r p fault t u hr _ happend hreplace =>
      obtain rfl := Except.ok.inj (hruling.symm.trans hr)
      obtain ⟨hhome, bytes, modified, hfound⟩ := found_append hgraph happend
      obtain ⟨_, _, hlockFind⟩ := hlock
      have hlock' := lock_append (Store.site_of_find hlockFind) happend
      have hwrites := t.replace_spec "p.dot" (p.settle (takeUp id none) (quietHost.clock 0)
        (some (.granted .pending {}))).bytes (quietHost.clock 0)
      rw [hreplace] at hwrites
      have hcontents : bytes = (spoiledText id).toUTF8 := by
        have hadded := contents_append happend
        have hplace : t.place "p.dot" = (shortStore deepHome).place selfEngine.auditLog :=
          Store.place_eq hhome "p.dot"
        rw [← hplace, Store.contents_of_find hfound, hplace] at hadded
        have hbefore :
            (shortStore deepHome).contents ((shortStore deepHome).place selfEngine.auditLog)
            = (Pipeline.shortest 0 0).bytes := Store.contents_of_find hfind
        rw [hadded, hbefore, spoiledText, toUTF8_append]
        rfl
      obtain ⟨modified', hkept⟩ := (hwrites.keeps rfl).has (some bytes) ⟨modified, hfound⟩
      rw [hcontents] at hkept
      exact ⟨fault, u, rfl, ⟨_, _, hkept⟩, hwrites.found hlock',
        Store.readText_of_find hkept (fromUTF8?_toUTF8 _)⟩

/-- The first request cannot save the graph, and the second one cannot read it. -/
theorem spoiled_inTurn {id : String} (hid : id ∈ ["s", "e"]) (id' : String) : ∃ fault err,
    (selfEngine.inTurn "p.dot" (takeUp id none) quietHost (takeUp id' none) quietHost
      (shortStore deepHome)).1 = (.error (.file fault), .error err) ∧
        ∀ fault, err ≠ .file fault := by
  obtain ⟨fault, u, hperform, hfound, ⟨_, _, hlock⟩, hread⟩ := spoiled hid
  obtain ⟨err, hparse, hother⟩ := parse_spoiledText hid
  have hruling : selfEngine.ruling "p.dot" (takeUp id' none) quietHost u = .error err := by
    generalize spoiledText id = text at hread hparse
    have hloaded : GraphFile.loaded u "p.dot" = .error err := by
      rw [GraphFile.loaded, hread]
      exact hparse
    rw [ruling_of_site (Store.site_of_find hlock) rfl, hloaded]
    rfl
  have hstage := stage_transition selfEngine (takeUp id' none) quietHost hfound (by simp [takeUp])
  refine ⟨fault, err, ?_, hother⟩
  rw [inTurn, hperform]
  dsimp only
  generalize (selfEngine.transition "p.dot" (takeUp id' none)).perform quietHost u
    = result at hstage ⊢
  cases hstage with
  | @refused err' hrefused =>
      rw [hruling] at hrefused
      cases hrefused
      rfl
  | unlogged hr _ =>
      rw [hruling] at hr
      cases hr
  | unsaved hr _ _ _ =>
      rw [hruling] at hr
      cases hr
  | carriedOut hr _ _ _ =>
      rw [hruling] at hr
      cases hr

/-- What the order is seen from, where the conditions do not hold. Evidence that a directory made
for the audit log opens the way to is missing for the first request and there for the second one.
Where the log cannot be made, the first request can run into something else than the second one.
And where the log is the graph file itself and the graph cannot be saved, the second request finds
a record in the graph. -/
theorem order_matters :
    ((∃ p, GraphFile.loaded bareStore "p.dot" = .ok p ∧ p.Plain ∧ p.checkpointSeq = 0) ∧
      bareStore.place ".relay/../ev.txt" ≠ bareStore.place "p.dot" ∧
      bareStore.place ".relay/../ev.txt" ≠ bareStore.place (lockPath "p.dot") ∧
      bareStore.place ".relay/../ev.txt" ≠ bareStore.place relayEngine.auditLog ∧
      ((relayEngine.transition "p.dot" (takeUp "b" none)).perform quietHost bareStore).2.at?
        (bareStore.place ".relay/../ev.txt") = bareStore.at? (bareStore.place ".relay/../ev.txt") ∧
      (relayEngine.inTurn "p.dot" stray quietHost (takeUp "b" none) quietHost bareStore).1.1
        = .error (.guardRail "a" "evidence_missing"
          "evidence file .relay/../ev.txt does not exist") ∧
      ∃ record, (relayEngine.inTurn "p.dot" (takeUp "b" none) quietHost stray quietHost
        bareStore).1.2 = .ok record) ∧
    ((farEngine.inTurn "p.dot" (takeUp "a" none) quietHost (takeUp "b" none) quietHost
        bareStore).1.1 = .error (.file .alreadyExists) ∧
      (farEngine.inTurn "p.dot" (takeUp "b" none) quietHost (takeUp "a" none) quietHost
        bareStore).1.2 = .error (.file .notDirectory)) ∧
    (∃ p, GraphFile.loaded (shortStore deepHome) "p.dot" = .ok p ∧ p.Plain ∧ p.checkpointSeq = 0) ∧
      (∃ fault, (selfEngine.inTurn "p.dot" (takeUp "s" none) quietHost (takeUp "e" none) quietHost
        (shortStore deepHome)).1.1 = .error (.file fault)) ∧
      ∃ err, (selfEngine.inTurn "p.dot" (takeUp "e" none) quietHost (takeUp "s" none) quietHost
        (shortStore deepHome)).1.2 = .error err ∧ ∀ fault, err ≠ .file fault := by
  obtain ⟨p, hloaded, hplain, hseq, -⟩ := loaded_bareStore
  have hturn :=
    turn relayEngine (takeUp "b" none) quietHost found_bareStore (.inl (by decide)) nofun
  have hat := (Store.find_eq_file.mp find_stray).2.1
  rw [Store.place_eq hturn.home] at hat
  obtain ⟨l, l', hplain', hloaded'⟩ := loaded_shortStore deepHome
  obtain ⟨fault, _, hfirst, -⟩ := spoiled_inTurn (by decide : "s" ∈ ["s", "e"]) "e"
  obtain ⟨_, err, hlast, hother⟩ := spoiled_inTurn (by decide : "e" ∈ ["s", "e"]) "s"
  refine ⟨⟨⟨p, hloaded, hplain, hseq⟩, by decide, by decide, by decide, hat, ?_, stray_granted⟩,
    ⟨?_, ?_⟩, ⟨_, hloaded', hplain', rfl⟩, ⟨fault, ?_⟩, err, ?_, hother⟩
  · exact (inTurn_first ..).trans stray_refused
  · rw [stranded (by decide) (by decide)]
  · rw [stranded (by decide) (by decide)]
  · rw [hfirst]
  · rw [hlast]

end Engine

end Pipewright
