import Pipewright.Proofs.Engine.RecordFiles
import Pipewright.Proofs.Lifecycle.Effect
import Pipewright.Proofs.Pipeline.WellFormed

/-!
# Histories over runs

The graph file and the audit log are in step over a run, and every node moves along the legal
steps.
-/

/-!
## Two files in step

The audit log and the graph file are two files, and only their order of writing
ties them together. They are *in step* if the log holds the records that the
graph follows (`InStep`).

A transition keeps them so, also through the saving and the loading of the graph
in between (`InStep.transition`). The graph file has to be one that can be
replaced: where it is not, a record is added of a step that is then not saved
(`transition_unsaved`).
-/

namespace Pipewright

/-! ### Reading the two files -/

/-- A graph file is loaded as the pipeline of its text. -/
theorem GraphFile.perform_load_of_find {s : Store} {path text : String} {bytes : ByteArray}
    {modified : Instant} {p : Pipeline} (hfind : s.find path = .ok (.file bytes modified))
    (hutf : String.fromUTF8? bytes = some text) (hparse : Pipeline.parse text = .ok p) (h : Host) :
    (load path).perform h s = (.ok p, s) := by
  rw [load, Action.perform_bind, Action.perform_reading, Store.readText_of_find hfind hutf]
  change (Action.ofExcept (Pipeline.parse text)).perform h s = _
  rw [Action.perform_ofExcept, hparse]

/-- A log that is found has the records of its text. -/
theorem AuditLog.perform_history {path : String} {s : Store} {records : List AuditRecord}
    (hfound : s.Found path)
    (hlog : s.contents (s.place path) = (Json.logText AuditRecord.toJson records).toUTF8)
    (id : String) (h : Host) :
    (history path id).perform h s = (.ok (records.filter (·.node = id)), s) := by
  have hall : (all path).perform h s = (.ok records, s) :=
    Action.perform_readLog AuditRecord.logged hfound hlog h
  rw [history, Action.perform_bind, hall]
  rfl

/-- Where no log is found there are no records, or there is no reading them. -/
theorem AuditLog.perform_history_of_not_found {path : String} {s : Store}
    (hnone : ¬s.Found path) (id : String) (h : Host) :
    (history path id).perform h s = (.ok [], s) ∨
    s.find path ≠ .error .notFound ∧
      ∃ fault, (history path id).perform h s = (.error (.file fault), s) := by
  have hread : ∀ fault, s.find path = .error fault → s.readText path = .error fault := by
    intro fault hfind
    simp only [Store.readText, Store.readBytes, hfind, bind, Except.bind]
  rw [history, all, Action.readLog, Action.perform_bind, Action.perform_bind,
    Action.perform_readingIfThere]
  cases hfind : s.find path with
  | error fault =>
      rw [hread fault hfind]
      cases fault <;> first | exact .inl rfl | exact .inr ⟨by simp, _, rfl⟩
  | ok entry =>
      cases entry with
      | file bytes modified => exact absurd ⟨bytes, modified, hfind⟩ hnone
      | directory =>
          simp only [Store.readText, Store.readBytes, hfind, bind, Except.bind]
          exact .inr ⟨by simp, _, rfl⟩

namespace Engine

variable {e : Engine} {graph : String} {logs : Prop} {s t : Store} {p : Pipeline}
  {records : List AuditRecord}

/-- The audit log can be added to, whether or not the lock file is there yet. -/
def CanLog (e : Engine) (graph : String) (s : Store) : Prop :=
  ∀ t, s.Grown False (s.place (lockPath graph)) t → t.CanAppend e.auditLog

/-- What others do touches neither file, and does not keep the log from being added to. -/
structure Aside (e : Engine) (graph : String) (s t : Store) : Prop where
  home : t.home = s.home
  file : t.find graph = s.find graph
  log : t.contents (s.place e.auditLog) = s.contents (s.place e.auditLog)
  logFound : s.Found e.auditLog → t.Found e.auditLog
  canLog : e.CanLog graph s → e.CanLog graph t

/-- The graph file and the audit log can be worked on and tell the same. If no record was
added yet, the log need not be there; that it can be added to may be known. -/
structure InStep (e : Engine) (graph : String) (logs : Prop) (s : Store) (p : Pipeline)
    (records : List AuditRecord) : Prop where
  found : ∃ bytes modified text, s.find graph = .ok (.file bytes modified) ∧
    String.fromUTF8? bytes = some text ∧ Pipeline.parse text = .ok p
  plain : p.Plain
  apart : s.place graph ≠ s.place e.auditLog
  replace : s.CanReplace graph
  contents : s.contents (s.place e.auditLog) = (Json.logText AuditRecord.toJson records).toUTF8
  log : s.Found e.auditLog ∨ records = [] ∧ (logs → e.CanLog graph s)
  follows : p.Follows records

theorem Aside.of_grown {made : Prop} {lock : List String} (hgrown : s.Grown made lock t)
    (hgraph : s.Found graph) (hcan : e.CanLog graph s → e.CanLog graph t) : e.Aside graph s t where
  home := hgrown.home
  file := by
    obtain ⟨bytes, modified, hfind⟩ := hgraph
    rw [hfind]
    exact hgrown.find hfind (by simp)
  log := hgrown.contents (by simp)
  logFound := fun ⟨bytes, modified, hfind⟩ => ⟨bytes, modified, hgrown.find hfind (by simp)⟩
  canLog := hcan

theorem InStep.aside (h : e.InStep graph logs s p records) (haside : e.Aside graph s t) :
    e.InStep graph logs t p records where
  found := by
    rw [haside.file]
    exact h.found
  plain := h.plain
  apart := by
    rw [Store.place_eq haside.home, Store.place_eq haside.home]
    exact h.apart
  replace := by
    obtain ⟨bytes, modified, _, hfind, -⟩ := h.found
    exact h.replace.of_home haside.home (haside.file.trans hfind)
  contents := by
    rw [Store.place_eq haside.home, haside.log]
    exact h.contents
  log := by
    rcases h.log with hfound | ⟨hnone, hcan⟩
    · exact .inl (haside.logFound hfound)
    · exact .inr ⟨hnone, fun hlogs => haside.canLog (hcan hlogs)⟩
  follows := h.follows

theorem InStep.perform_load (h : e.InStep graph logs s p records) (host : Host) :
    (GraphFile.load graph).perform host s = (.ok p, s) := by
  obtain ⟨bytes, modified, text, hfind, hutf, hparse⟩ := h.found
  exact GraphFile.perform_load_of_find hfind hutf hparse host

/-- The lock file is made beside the graph file, so nothing else is new. -/
theorem Locked.grown (h : Locked graph s t) (hgraph : s.Found graph) :
    s.Grown False (s.place (lockPath graph)) t := by
  obtain ⟨bytes, modified, hfind⟩ := hgraph
  refine Store.Written.mono h fun hno => hno ?_
  rw [Path.holder_lockPath (Store.find_eq_file.mp hfind).2.2]
  exact Store.isDirectory_holder hfind

theorem CanLog.of_grown (h : e.CanLog graph s)
    (hgrown : s.Grown False (s.place (lockPath graph)) t) :
    e.CanLog graph t := by
  intro u hu
  rw [Store.place_eq hgrown.home] at hu
  exact h u (hgrown.trans hu)

/-- How often the graph was saved in a transition, by its answer. -/
def saves : Except Error AuditRecord → Nat
  | .ok _ => 1
  | .error err => if err.isExhausted then 1 else 0

/-- The two files are in step after a transition if they were before. -/
theorem InStep.transition (h : e.InStep graph logs s p records) (host : Host) (q : Request)
    (hseq : p.checkpointSeq.toNat + saves ((e.transition graph q).perform host s).1 < 2 ^ 63) :
    ∃ p' records', e.InStep graph logs ((e.transition graph q).perform host s).2 p' records' ∧
      p'.ids = p.ids ∧ p'.checkpointSeq.toNat
        = p.checkpointSeq.toNat + saves ((e.transition graph q).perform host s).1 := by
  have houtcome := transition_spec e graph q host h.apart h.replace
  obtain ⟨bytes, modified, text, hfind, hutf, hparse⟩ := h.found
  have hgraph : s.Found graph := ⟨bytes, modified, hfind⟩
  generalize (e.transition graph q).perform host s = result at houtcome hseq ⊢
  cases houtcome with
  | @refused u err hlocked hspared =>
      have hgrown := Locked.grown hlocked hgraph
      refine ⟨p, records, h.aside (.of_grown hgrown hgraph (·.of_grown hgrown)), rfl, ?_⟩
      simp [saves, hspared]
  | @unlogged u t fault hlocked hlog hfiles =>
      have hcan : e.CanLog graph s → e.CanLog graph t :=
        fun hcan => absurd (hcan u (Locked.grown hlocked hgraph)) hlog
      exact ⟨p, records, h.aside (.of_grown hfiles hgraph hcan), rfl, rfl⟩
  | @carriedOut u t loaded v hlocked hholds hjudge hfiles hgraph' hlog' =>
      have hloaded : loaded = p := by
        obtain ⟨bytes', modified', text', hat, hutf', hparse'⟩ := hholds
        rw [(Store.find_eq_ok.mp hfind).2.1] at hat
        cases hat
        rw [hutf] at hutf'
        cases hutf'
        exact Except.ok.inj (hparse'.symm.trans hparse)
      subst hloaded
      have hsaved : saves (v.answer q) = 1 := by cases v <;> rfl
      rw [hsaved] at hseq ⊢
      have hlifted := Pipeline.lifted_of_parse hparse
      obtain ⟨hnodup, n, m, hsucceeds, hid, hextra, hnode, hsource, htarget, hstep⟩ :=
        Pipeline.succeeds_of_judge hjudge hlifted.seq
      obtain ⟨p', hread, hsame, -, hplain⟩ := Pipeline.parse_render_of_plain
        (hsucceeds.lifted hid hextra hseq hlifted) (hsucceeds.plain hextra h.plain)
      have hstatuses := Pipeline.statuses_of_unlined hsame
      obtain ⟨bytes', modified', hfind'⟩ := hgraph'
      have hbytes := Store.contents_of_find hfind'
      rw [Store.place_eq hfiles.home, hfiles.contents_of_mem (List.mem_cons_self ..)] at hbytes
      refine ⟨p', records ++ [v.record], ?_, ?_, ?_⟩
      · refine ⟨⟨bytes', modified', _, hfind', ?_, hread⟩, hplain, ?_, ?_, ?_, .inl hlog', ?_⟩
        · rw [← hbytes, Pipeline.bytes, fromUTF8?_toUTF8]
        · rw [Store.place_eq hfiles.home, Store.place_eq hfiles.home]
          exact h.apart
        · exact h.replace.of_home hfiles.home hfind'
        · have hlog := hfiles.contents_of_mem (List.mem_cons_of_mem _ (List.mem_cons_self ..))
          rw [Store.place_eq hfiles.home, hlog, h.contents, Json.logText_append,
            Json.logText_singleton, toUTF8_append]
          rfl
        · exact (hsucceeds.follows hid hnodup h.follows hnode hsource htarget hstep).of_statuses
            hstatuses
      · rw [Pipeline.ids_of_statuses hstatuses, hsucceeds.ids hid]
      · have hnum : p'.checkpointSeq = (GraphFile.bumped v.after).checkpointSeq :=
          (congrArg Pipeline.checkpointSeq hsame :)
        rw [hnum, hsucceeds.seq]

/-! ### Graphs that cannot be saved -/

/-- A verdict on a request about a graph that can be read and not be replaced: its record
is added to the audit log, and the graph stays as it was. -/
theorem transition_unsaved {bytes : ByteArray} {modified : Instant} {text : String} {q : Request}
    {v : Pipeline.Verdict} {host : Host} {fault : FileFault}
    (hfind : s.find graph = .ok (.file bytes modified)) (hutf : String.fromUTF8? bytes = some text)
    (hparse : Pipeline.parse text = .ok p) (hplaces : s.place graph ≠ s.place e.auditLog)
    (hlock : s.Found (lockPath graph))
    (hfree : host.held.contains (s.place (lockPath graph)) = false)
    (hlog : s.Found e.auditLog) (hdraft : s.origin (s.draft (Store.holder graph)) = .error fault)
    (hjudge : p.judge e.maxRetries s (host.clock 0) q = .ok v) :
    ∃ t, (e.transition graph q).perform host s = (.error (.file fault), t) ∧
      s.Written False [] t
        [(s.place e.auditLog, s.contents (s.place e.auditLog) ++ v.record.line)] ∧
      t.Found e.auditLog := by
  obtain ⟨logBytes, logModified, hlogFind⟩ := hlog
  rcases Action.appendFile_spec e.auditLog v.record.line
      { host with held := s.place (lockPath graph) :: host.held } s [] with
    ⟨t, happend, hwritten, hfound⟩ | ⟨_, _, _, _, hcannot⟩
  · refine ⟨t, ?_, hwritten.mono fun hno => hno (Store.isDirectory_holder hlogFind), hfound⟩
    have hgraph := hwritten.find hfind (by simpa using hplaces)
    have hreplace : ∀ bytes now, t.replace graph bytes now = (.error fault, t) := by
      intro bytes now
      rw [Store.replace, Store.makeDirs_of_isDirectory (Store.isDirectory_holder hgraph)]
      dsimp only
      rw [Store.draft_eq hwritten.home, Store.origin_eq_of_home hwritten.home, hdraft]
    rw [transition, Action.withLock, Action.withLockFile, Action.perform_bind,
      Action.perform_openLock hlock]
    dsimp only
    change ((if host.held.contains (s.place (lockPath graph)) then _ else _ : Action _)).perform
      host s = _
    rw [if_neg (by rw [hfree]; decide)]
    change (e.transitionLocked graph q).perform
      { host with held := s.place (lockPath graph) :: host.held } s = _
    rw [perform_transitionLocked, GraphFile.perform_load_of_find hfind hutf hparse]
    dsimp only
    rw [hjudge]
    dsimp only
    rw [carryOut, AuditLog.append_eq, Action.perform_bind, happend]
    dsimp only
    rw [GraphFile.save, bind_assoc, Action.perform_bind, Action.perform_replaceFile, hreplace]
    rfl
  · exact absurd (Store.canAppend_of_find hlogFind) hcannot

end Engine

/-!
## Runs of transitions

Over a run of transitions of a graph file, refused ones included, the graph file
and the audit log stay in step, as they do over a single one (`InStep.run`). So
the history of each node leads from pending, step by legal step, to the status
that the node has in the graph (`InStep.traced`).
-/

namespace Pipeline

/-! ### The shortest pipeline -/

def shortest (l l' : Nat) : Pipeline where
  name := "p"
  nodes := [{ id := "s", kind := .start, line := l },
    { id := "e", kind := .exitSuccess, line := l' }]

theorem read_shortest : ∃ g l l', Digraph.read (shortest 0 0).render = .ok g ∧
    ofDigraph g = .ok (shortest l l').shaped ∧ g.hasDottedKeys ∧ g.hasNoReals := by
  have hunadorned : (shortest 0 0).Unadorned := ⟨by decide, rfl, by decide, by decide, by decide⟩
  obtain ⟨g, p, hread, hg, hp, hsame⟩ := read_render_of_plain hunadorned.lifted hunadorned.plain
  obtain ⟨name, spec, seq, attrs, nodes, edges⟩ := p
  obtain ⟨rfl, rfl, rfl, rfl, hnodes, hedges⟩ := Pipeline.mk.injEq .. |>.mp hsame
  obtain ⟨n, _, rfl, hn, hrest⟩ := List.map_eq_cons_iff.mp hnodes
  obtain ⟨m, _, rfl, hm, hnil⟩ := List.map_eq_cons_iff.mp hrest
  obtain rfl := List.map_eq_nil_iff.mp hnil
  obtain rfl := List.map_eq_nil_iff.mp hedges
  have hn' : n = { n.unlined with line := n.line } := rfl
  have hm' : m = { m.unlined with line := m.line } := rfl
  refine ⟨g, n.line, m.line, hread, ?_, isPlain_iff.mp hg⟩
  rw [hp, hn', hm', hn, hm]
  rfl

theorem wellFormed_shortest (l l' : Nat) : (shortest l l').shaped.WellFormed where
  nodup := by simp [shortest, shaped, Node.shaped, ids]
  declared := nofun
  no_selfLoop := nofun
  acyclic v hcycle := by
    obtain ⟨w, ⟨e, he, -⟩, -⟩ := Relation.TransGen.head'_iff.mp hcycle
    cases he
  start := ⟨_, rfl, nofun⟩
  exit := ⟨_, List.mem_cons_of_mem _ (List.mem_cons_self ..), .inl rfl⟩
  exit_last _ _ _ := nofun
  work := by simp [shortest, shaped, Node.shaped]
  decision := by simp [shortest, shaped, Node.shaped]
  gate := by simp [shortest, shaped, Node.shaped]
  pin := by simp [shortest, shaped, Node.shaped]
  pinned := by simp [shortest, shaped, Node.shaped]

theorem requireValid_shortest (l l' : Nat) : (shortest l l').shaped.requireValid = .ok () :=
  requireValid_of_errors (errors_of_wellFormed (wellFormed_shortest l l'))

theorem judge_shortest (l l' : Nat) (maxRetries : UInt32) (s : Store) (now : Instant) :
    ∃ v, (shortest l l').shaped.judge maxRetries s now ⟨"s", .active, "dev", none⟩ = .ok v ∧
      v.record = ⟨now.stamp, "s", .pending, .active, "dev", none⟩ := by
  have hnode : (shortest l l').shaped.node? "s"
      = some ({ id := "s", kind := .start, line := l } : Node).shaped := rfl
  rw [judge, hnode]
  simp only [requireValid_shortest]
  exact ⟨_, rfl, rfl⟩

end Pipeline

namespace Engine

variable {e : Engine} {graph : String} {logs : Prop} {s t : Store} {p : Pipeline}
  {records : List AuditRecord}

/-! ### Runs -/

/-- What comes of transitions of a graph file, and how often the graph was saved. Any
process asks for them, at any time, and others may change other files in between. -/
inductive Run (e : Engine) (graph : String) (s : Store) : Nat → Store → Prop
  | start : Run e graph s 0 s
  | call {n : Nat} {t : Store} (run : Run e graph s n t) (host : Host) (q : Request) :
      Run e graph s (n + saves ((e.transition graph q).perform host t).1)
        ((e.transition graph q).perform host t).2
  | aside {n : Nat} {t u : Store} (run : Run e graph s n t) (others : e.Aside graph t u) :
      Run e graph s n u

theorem InStep.run (h : e.InStep graph logs s p records) {n : Nat} (hrun : e.Run graph s n t)
    (hseq : p.checkpointSeq.toNat + n < 2 ^ 63) :
    ∃ p' records', e.InStep graph logs t p' records' ∧ p'.ids = p.ids ∧
      p'.checkpointSeq.toNat = p.checkpointSeq.toNat + n := by
  induction hrun with
  | start => exact ⟨p, records, h, rfl, rfl⟩
  | @call n t _ host q ih =>
      obtain ⟨p', records', hstep, hids, hnum⟩ := ih (by omega)
      obtain ⟨p'', records'', hstep', hids', hnum'⟩ := hstep.transition host q (by omega)
      exact ⟨p'', records'', hstep', hids'.trans hids, by omega⟩
  | aside _ hothers ih =>
      obtain ⟨p', records', hstep, hids, hnum⟩ := ih hseq
      exact ⟨p', records', hstep.aside hothers, hids, hnum⟩

/-- A graph file before its first transition: it is a graph with dotted names for keys and
without real numbers, all its nodes are pending, and the audit log is another file and
empty. -/
structure Fresh (e : Engine) (graph : String) (s : Store) (p : Pipeline) : Prop where
  read : ∃ text g, s.readText graph = .ok text ∧ Digraph.read text = .ok g ∧
    Pipeline.ofDigraph g = .ok p ∧ g.hasDottedKeys ∧ g.hasNoReals
  pending : ∀ n ∈ p.nodes, n.status = .pending
  log : s.contents (s.place e.auditLog) = .empty
  apart : s.place graph ≠ s.place e.auditLog

theorem Fresh.inStep (h : e.Fresh graph s p) (hreplace : s.CanReplace graph) :
    e.InStep graph (e.CanLog graph s) s p [] := by
  obtain ⟨text, g, htext, hread, hp, hkeys, hreals⟩ := h.read
  obtain ⟨bytes, modified, hfind, hutf⟩ := Store.readText_eq_ok htext
  have hparse : Pipeline.parse text = .ok p := by
    rw [Pipeline.parse, hread]
    exact hp
  exact {
    found := ⟨bytes, modified, text, hfind, hutf, hparse⟩
    plain := Pipeline.plain_ofDigraph hp (Pipeline.isPlain_iff.mpr ⟨hkeys, hreals⟩)
    apart := h.apart
    replace := hreplace
    contents := h.log
    log := .inr ⟨rfl, fun hcan => hcan⟩
    follows := fun _ => ⟨trivial, fun n hn _ => h.pending n hn⟩ }

/-! ### Histories -/

/-- The history of a node leads from pending to its status in the graph. -/
def Traced (e : Engine) (h : Host) (s : Store) (p : Pipeline) (id : String) : Prop :=
  ∃ records, (AuditLog.history e.auditLog id).perform h s = (.ok records, s) ∧
    IsTrail .pending records ∧ ∀ n ∈ p.nodes, n.id = id → n.status = trailEnd .pending records

/-- The history of a node cannot be read, and neither this nor any other node has left
pending. -/
def Unread (e : Engine) (h : Host) (s : Store) (p : Pipeline) (id : String) : Prop :=
  (∃ fault, (AuditLog.history e.auditLog id).perform h s = (.error (.file fault), s)) ∧
    ∀ n ∈ p.nodes, n.status = .pending

theorem InStep.traced (h : e.InStep graph logs s p records) (host : Host) (id : String) :
    e.Traced host s p id ∨ ¬logs ∧ e.Unread host s p id := by
  by_cases hfound : s.Found e.auditLog
  · exact .inl ⟨_, AuditLog.perform_history hfound h.contents id host, h.follows id⟩
  · rcases h.log with hyes | ⟨rfl, hcan⟩
    · exact absurd hyes hfound
    · rcases AuditLog.perform_history_of_not_found hfound id host with hnone | ⟨hfault, hread⟩
      · exact .inl ⟨[], hnone, h.follows id⟩
      · refine .inr ⟨fun hlogs => ?_, hread, fun n hn => (h.follows n.id).2 n hn rfl⟩
        rcases (hcan hlogs s (.refl _ _ _)).find with hyes | hno
        · exact hfound hyes
        · exact hfault hno

/-! ### A graph file in its directory -/

/-- The shortest pipeline in a graph file in the working directory, beside its lock file and
an empty audit log. -/
def shortStore (home : List String) : Store where
  entries := [(home ++ ["p.dot"], .file (Pipeline.shortest 0 0).bytes default),
    (home ++ ["p.dot.lock"], .file .empty default), (home ++ ["audit.jsonl"], .file .empty default)]
  home := home

/-- An engine with its audit log in the working directory. -/
def localEngine : Engine := ⟨"audit.jsonl", 3, .noWait⟩

section

variable (home : List String)

theorem find_graph : (shortStore home).find "p.dot"
      = .ok (.file (Pipeline.shortest 0 0).bytes default) ∧
    (shortStore home).place "p.dot" = home ++ ["p.dot"] := by
  refine Store.find_of_name rfl (by decide) (by decide) (by decide) ?_
  exact ((shortStore home).at?_home_append _).trans (by simp [shortStore])

theorem find_lock : (shortStore home).find "p.dot.lock" = .ok (.file .empty default) ∧
    (shortStore home).place "p.dot.lock" = home ++ ["p.dot.lock"] := by
  refine Store.find_of_name rfl (by decide) (by decide) (by decide) ?_
  exact ((shortStore home).at?_home_append _).trans (by simp [shortStore, Keyed.lookup_cons_if])

theorem find_log : (shortStore home).find "audit.jsonl" = .ok (.file .empty default) ∧
    (shortStore home).place "audit.jsonl" = home ++ ["audit.jsonl"] := by
  refine Store.find_of_name rfl (by decide) (by decide) (by decide) ?_
  exact ((shortStore home).at?_home_append _).trans (by simp [shortStore, Keyed.lookup_cons_if])

theorem fresh_shortStore : ∃ l l',
    localEngine.Fresh "p.dot" (shortStore home) (Pipeline.shortest l l').shaped := by
  obtain ⟨g, l, l', hread, hp, hkeys, hreals⟩ := Pipeline.read_shortest
  obtain ⟨hgraph, hplace⟩ := find_graph home
  obtain ⟨hlog, hlogPlace⟩ := find_log home
  refine ⟨l, l', ⟨⟨_, g, Store.readText_of_find hgraph (fromUTF8?_toUTF8 _), hread, hp, hkeys,
    hreals⟩, ?_, Store.contents_of_find hlog, ?_⟩⟩
  · simp [Pipeline.shortest, Pipeline.shaped, Pipeline.Node.shaped]
  · change (shortStore home).place "p.dot" ≠ (shortStore home).place "audit.jsonl"
    rw [hplace, hlogPlace]
    simp

end

theorem saves_le (r : Except Error AuditRecord) : saves r ≤ 1 := by
  unfold saves
  split
  · exact Nat.le_refl 1
  · split <;> omega

/-- A working directory whose path has room for the graph file and for its lock file and
not for the file that is to replace it. -/
def deepHome : List String := List.replicate 18 (String.ofList (List.replicate 226 'd'))

theorem utf8ByteSize_intercalate (sep name : String) (n : Nat) :
    (sep.intercalate (List.replicate (n + 1) name)).utf8ByteSize
      = n * (name.utf8ByteSize + sep.utf8ByteSize) + name.utf8ByteSize := by
  induction n with
  | zero => simp
  | succ n ih =>
      rw [List.replicate_succ, List.replicate_succ, String.intercalate_cons_cons,
        ← List.replicate_succ, String.utf8ByteSize_append, String.utf8ByteSize_append, ih,
        Nat.succ_mul]
      omega

theorem origin_draft_deepHome :
    ∃ fault, (shortStore deepHome).origin ((shortStore deepHome).draft ".") = .error fault := by
  have hname : (String.ofList (List.replicate 226 'd')).utf8ByteSize = 226 := by decide +kernel
  have hslash : "/".utf8ByteSize = 1 := rfl
  have hdot : ".".utf8ByteSize = 1 := rfl
  have hrandom : ".tmp-xxxxxx".utf8ByteSize = 11 := rfl
  have hhome : ("/".intercalate deepHome).utf8ByteSize = 4085 := by
    rw [deepHome, utf8ByteSize_intercalate, hname, hslash]
  have hdir := Path.le_utf8ByteSize_join ("/" ++ "/".intercalate deepHome) "." (by decide)
  have hdraft :=
    Path.le_utf8ByteSize_join (Path.join ("/" ++ "/".intercalate deepHome) ".") ".tmp-xxxxxx"
    (by decide)
  rw [String.utf8ByteSize_append, hslash, hhome, hdot] at hdir
  have hlong : 4096 ≤ ((shortStore deepHome).draft ".").utf8ByteSize := by
    change 4096 ≤
      (Path.join (Path.join ("/" ++ "/".intercalate deepHome) ".") ".tmp-xxxxxx").utf8ByteSize
    omega
  exact Store.origin_of_long hlong

end Engine

end Pipewright
