import Pipewright.Proofs.Lifecycle.Mergeable
import Pipewright.Proofs.Merge.Turns

/-!
# The moves of nodes

A turn moves at most one node: putting a branch in the queue brings its node to
merge-ready, and recording that a branch is merged brings its node to merged.
`moved` says where in a turn that happens, in terms of a file that everything
else in the turn leaves as it is; it is used for the graph file and for the audit
log.
-/

namespace Pipewright

open Merge Pipewright.Action

namespace MergeQueue

variable {q : MergeQueue} {c : Turn} {es es' : List Entry} {s t u v : Store} {h : Host}
  {node path actor : String} {target : Status}

/-- The graph file is neither the audit log nor its own lock file. -/
theorem Apart.graph (h : q.Apart s) : s.place q.graph ≠ s.place q.engine.auditLog ∧
    s.place q.graph ≠ s.place (lockPath q.graph) := by
  simp only [Apart, files, List.map_cons, List.map_nil, List.nodup_cons, List.mem_cons, not_or] at h
  obtain ⟨-, -, -, ⟨hlog, -⟩, ⟨hlock, -⟩, -⟩ := h
  exact ⟨Ne.symm hlog, hlock⟩

/-! ## Bringing a node to a status -/

def logBytes (q : MergeQueue) (s : Store) : ByteArray := s.contents (s.place q.engine.auditLog)

/-- The request by which a node is brought to a status. -/
def request (node : String) (target : Status) (actor : String) : Request := { node, target, actor }

/-- How a node is brought to a status: nothing is written, as where it has the status; or a
record is added; or the graph is saved, too. -/
inductive Brought (q : MergeQueue) (node : String) (target : Status) (actor : String) (s : Store) :
    Except Error Unit × Store → Prop
  | still {r : Except Error Unit} {t : Store} (graph_kept : s.Keeps q.graph t)
      (log : q.logBytes t = q.logBytes s)
      (done : r = .ok () → ∃ p n, GraphFile.Bears s q.graph p ∧ p.node? node = some n ∧
        n.status = target) : Brought q node target actor s (r, t)
  | unsaved {p : Pipeline} {v : Pipeline.Verdict} {err : Error} {now : Instant} {u t : Store}
      (judged : p.judge q.engine.maxRetries u now (request node target actor) = .ok v)
      (graph_kept : s.Keeps q.graph t) (log : q.logBytes t = q.logBytes s ++ v.record.line) :
      Brought q node target actor s (.error err, t)
  | carriedOut {p : Pipeline} {v : Pipeline.Verdict} {now : Instant} {u t : Store}
      (kept : s.Keeps q.graph u) (loaded : GraphFile.Bears u q.graph p)
      (judged : p.judge q.engine.maxRetries u now (request node target actor) = .ok v)
      (saved : t.Has q.graph (some (GraphFile.bumped v.after).bytes))
      (log : q.logBytes t = q.logBytes s ++ v.record.line) :
      Brought q node target actor s ((v.answer (request node target actor)).map fun _ => (), t)

/-- The status of a node is that in the graph file. -/
theorem perform_statusOf (q : MergeQueue) (node : String) (h : Host) (s : Store) :
    (∃ err, (q.statusOf node).perform h s = (.error err, s)) ∨
      ∃ p n, (q.statusOf node).perform h s = (.ok n.status, s) ∧ GraphFile.Bears s q.graph p ∧
        p.node? node = some n := by
  rw [statusOf, perform_bind]
  rcases GraphFile.perform_load_cases q.graph h s with ⟨err, hload⟩ | ⟨p, hload, hbears⟩
  · exact .inl ⟨err, by rw [hload]⟩
  · rw [hload]
    dsimp only
    cases hnode : p.node? node with
    | none => exact .inl ⟨_, rfl⟩
    | some n => exact .inr ⟨p, n, rfl, hbears, hnode⟩

theorem brought (q : MergeQueue) (ha : q.Apart s) (node : String) (target : Status) (actor : String)
    (h : Host) : q.Brought node target actor s ((q.bring node target actor).perform h s) := by
  obtain ⟨hlog, hlock⟩ := ha.graph
  rw [bring, perform_bind]
  rcases q.perform_statusOf node h s with ⟨err, hstatus⟩ | ⟨p, n, hstatus, hbears, hnode⟩
  · rw [hstatus]
    exact .still (.refl _ _) rfl nofun
  · rw [hstatus]
    dsimp only
    by_cases hsame : n.status = target
    · rw [if_neg (not_not_intro hsame)]
      exact .still (.refl _ _) rfl fun _ => ⟨p, n, hbears, hnode, hsame⟩
    · rw [if_pos hsame, perform_bind]
      have hattempt := q.engine.transition_attempt (request node target actor) h hlog hlock
      unfold request at hattempt
      rcases hperform : (q.engine.transition q.graph { node, target, actor }).perform h
        s with ⟨r, t⟩
      rw [hperform] at hattempt
      cases hattempt with
      | refused kept log => exact .still kept log nofun
      | unsaved judged kept log => exact .unsaved judged kept log
      | @carriedOut p v u _ kept loaded judged saved log =>
          have hcarried := Brought.carriedOut (q := q) kept loaded judged saved log
          cases v <;> exact hcarried

/-- The records that bringing a node to a status adds are about that node. -/
theorem Brought.log {r : Except Error Unit} (hb : q.Brought node target actor s (r, t)) :
    ∃ added, q.logBytes t = q.logBytes s ++ (Json.logText AuditRecord.toJson added).toUTF8 ∧
      ∀ a ∈ added, a.node = node ∧ (a.target = target ∨ a.target = .stuck) := by
  have hrecord : ∀ {p : Pipeline} {v : Pipeline.Verdict} {now : Instant} {u : Store},
      p.judge q.engine.maxRetries u now (request node target actor) = .ok v →
      v.record.node = node ∧ (v.record.target = target ∨ v.record.target = .stuck) := by
    intro p v now u hjudge
    obtain ⟨n, -, -, -, hjudged⟩ := Pipeline.judge_eq_ok hjudge
    cases hjudged with
    | granted => exact ⟨rfl, .inl rfl⟩
    | exhausted => exact ⟨rfl, .inr rfl⟩
  have hone : ∀ {v : Pipeline.Verdict}, v.record.line
      = (Json.logText AuditRecord.toJson [v.record]).toUTF8 := by
    intro v
    rw [Json.logText_singleton, AuditRecord.line]
  cases hb with
  | still _ log => exact ⟨[], log.trans ByteArray.append_empty.symm, nofun⟩
  | unsaved judged _ log =>
      exact ⟨[_], by rw [log, hone], List.forall_mem_singleton.mpr (hrecord judged)⟩
  | carriedOut _ _ judged _ log =>
      exact ⟨[_], by rw [log, hone], List.forall_mem_singleton.mpr (hrecord judged)⟩

/-! ## Moves in turns -/

/-- Where in a turn a node is moved: `path` is a file that holds, up to the move, what it held
before the turn, and from there on what it holds after it. -/
inductive Moved (q : MergeQueue) (c : Turn) (es : List Entry) (path : String) : Prop
  | still (kept : c.before.Keeps path (c.after q)) (answer : (c.answer q).enqueued? = none)
  | ready {identity branch node : String} {u v : Store} {r : Except Error Unit}
      (ask : c.ask = .enqueue identity branch node) (before : c.before.Keeps path u)
      (brought : q.Brought node .mergeReady identity u (r, v)) (after : v.Keeps path (c.after q))
      (done : ∀ e, (c.answer q).enqueued? = some e → r = .ok () ∧ e.node = node)
  | merged {head e : Entry} {rest : List Entry} {u v : Store} {r : Except Error Unit}
      (ask : c.ask = .process) (entries : es = head :: rest) (mark : q.Marked c head e)
      (status : e.status = .merged) (before : c.before.Keeps path u)
      (brought : q.Brought e.node .merged MergeQueue.actor u (r, v))
      (after : v.Keeps path (c.after q))

/-- The files that tell of nodes are none of those that tell of entries. -/
theorem Apart.other (ha : q.Apart s) (hpath : path = q.graph ∨ path = q.engine.auditLog) :
    s.place path ≠ s.place q.queueFile ∧ s.place path ≠ s.place (lockPath q.queueFile) ∧
      s.place path ≠ s.place q.archive := by
  obtain ⟨-, -, hlog, hgraph, -⟩ := ha.queue
  obtain ⟨-, -, hlog', hgraph', -⟩ := ha.lock
  obtain ⟨-, -, hlog'', hgraph'', -⟩ := ha.archived
  rcases hpath with rfl | rfl
  · exact ⟨Ne.symm hgraph, Ne.symm hgraph', Ne.symm hgraph''⟩
  · exact ⟨Ne.symm hlog, Ne.symm hlog', Ne.symm hlog''⟩

theorem Shows.moved_enqueue (hs : q.Shows c.before es) (ha : q.Apart c.before)
    (hpath : path = q.graph ∨ path = q.engine.auditLog) {identity branch node : String}
    (hask : c.ask = .enqueue identity branch node) : q.Moved c es path := by
  have henqueued := hs.perform_enqueue ha identity branch node c.host
  rcases hperform : (q.enqueue identity branch node).perform c.host c.before with ⟨r, t⟩
  rw [hperform] at henqueued
  obtain ⟨hanswer, rfl⟩ := Turn.of_ask hask
    (show q.reply c.host c.before _ = (.enqueued r, t) by rw [reply, hperform])
  have hlocked : ∀ {u}, Store.Touched [] [c.before.place (lockPath q.queueFile)] c.before u →
      c.before.Keeps path u :=
    fun hu => hu.keeps (by simp) (by simpa using (ha.other hpath).2.1)
  have hwritten : ∀ {v t}, q.Apart v → Store.Touched [v.place q.queueFile] [] v t →
      v.Keeps path t :=
    fun hv ht => ht.keeps (by simpa using (hv.other hpath).1) (by simp)
  cases henqueued with
  | refused touched => exact .still (hlocked touched) (by rw [hanswer]; rfl)
  | @moved u v _ held _ err locked brought touched =>
      have hmove := q.brought (ha.of_home locked.home) node .mergeReady identity
        { c.host with held := held }
      have hhome :=
        (brought ▸ q.within_bring node .mergeReady identity { c.host with held := held } u).home
      rw [brought] at hmove
      refine .ready hask (hlocked locked) hmove
        (hwritten (ha.of_home (hhome.trans locked.home)) touched) ?_
      intro e he
      rw [hanswer] at he
      cases he
  | @added u v _ held e locked found brought touched new entry =>
      have hmove := q.brought (ha.of_home locked.home) node .mergeReady identity
        { c.host with held := held }
      have hhome :=
        (brought ▸ q.within_bring node .mergeReady identity { c.host with held := held } u).home
      rw [brought] at hmove
      refine .ready hask (hlocked locked) hmove
        (hwritten (ha.of_home (hhome.trans locked.home)) touched) ?_
      intro f hf
      rw [hanswer] at hf
      cases hf
      rw [entry]
      exact ⟨rfl, rfl⟩

/-- Recording that the branch of an entry is merged moves its node first. -/
theorem Recorded.brought {e : Entry} {r : Except Error Outcome}
    (hr : q.Recorded h s es e (r, t)) (ha : q.Apart s)
    (hpath : path = q.graph ∨ path = q.engine.auditLog) :
    ∃ r' v, q.Brought e.node .merged MergeQueue.actor s (r', v) ∧ v.Keeps path t := by
  have hmove := q.brought ha e.node .merged MergeQueue.actor h
  have hwithin := q.within_bring e.node .merged MergeQueue.actor h s
  cases hr with
  | unmoved brought =>
      rw [brought] at hmove
      exact ⟨_, _, hmove, .refl _ _⟩
  | @moved v _ r brought removed =>
      have hremoves := q.within_removeMerged e h v
      rw [removed] at hremoves
      rw [brought] at hmove hwithin
      obtain ⟨hqueue, hlock, harchive⟩ := (ha.of_home hwithin.home).other hpath
      exact ⟨_, _, hmove, hremoves.keeps (by simp [hqueue, harchive]) (by simp [hlock])⟩

theorem Shows.moved_process (hs : q.Shows c.before es) (ha : q.Apart c.before)
    (hi : q.integrator.Keeps q.queueFile) (hkeep : q.integrator.Keeps path)
    (hpath : path = q.graph ∨ path = q.engine.auditLog) (hask : c.ask = .process) :
    q.Moved c es path := by
  obtain ⟨p, t, hperform, hprocessed⟩ := hs.perform_process ha hi c.host
  obtain ⟨-, rfl⟩ := Turn.of_ask hask
    (show q.reply c.host c.before _ = (.processed (.ok p), t) by rw [reply, hperform])
  have hentry : (c.answer q).enqueued? = none := Turn.enqueued?_of_ask (by simp [hask])
  have hclaims := q.within_claim c.host c.before
  obtain ⟨hqueue, hlock, -⟩ := ha.other hpath
  have hclaimed : ∀ {r u}, q.claim.perform c.host c.before = (r, u) → c.before.Keeps path u := by
    intro r u hclaim
    rw [hclaim] at hclaims
    exact hclaims.keeps (by simpa using hqueue) (by simpa using hlock)
  cases hprocessed with
  | refused claimed => exact .still (hclaimed claimed) hentry
  | waiting claimed => exact .still (hclaimed claimed) hentry
  | recorded entries merged claimed shows performed recorded =>
      have hu := hclaimed claimed
      obtain ⟨r', v, hmove, hafter⟩ := recorded.brought (ha.of_home hu.home) hpath
      exact .merged hask entries (.unmarked (not_forwards_of_claim claimed (by simp))) merged hu
        hmove hafter
  | @integrated head e rest v u _ i r entries claim claimed ready integrate clear shows performed
      finished =>
      have hv := hclaimed claimed
      have hintegrates := hkeep.integrate e.branch q.integrationBranch c.host v
      rw [integrate] at hintegrates
      have hu : c.before.Keeps path u := hv.trans hintegrates
      have hupdates : ∀ {f r t}, (q.update f).perform c.host u = (r, t) → u.Keeps path t := by
        intro f r t hupdate
        have hwithin := q.within_update f c.host u
        rw [hupdate] at hwithin
        obtain ⟨hqueue, hlock, -⟩ := (ha.of_home hu.home).other hpath
        exact hwithin.keeps (by simpa using hqueue) (by simpa using hlock)
      cases finished with
      | unmarked id failed => exact .still (hu.trans (hupdates failed)) hentry
      | held obstacle marked => exact .still (hu.trans (hupdates marked)) hentry
      | merged hclear marked shows perform recorded =>
          have hu' := hu.trans (hupdates marked)
          obtain ⟨r', v', hmove, hafter⟩ := recorded.brought (ha.of_home hu'.home) hpath
          exact .merged hask entries (.merged claim ⟨hask, v, claimed, clear.mp hclear⟩) rfl
            hu' hmove
            hafter

/-- A turn moves at most one node, and leaves the files that tell of nodes as they are
otherwise. -/
theorem Shows.moved (hs : q.Shows c.before es) (ha : q.Apart c.before)
    (hi : q.integrator.Keeps q.queueFile) (hkeep : q.integrator.Keeps path)
    (hpath : path = q.graph ∨ path = q.engine.auditLog) : q.Moved c es path := by
  obtain ⟨hqueue, hlock, harchive⟩ := ha.other hpath
  cases hask : c.ask with
  | enqueue identity branch node => exact hs.moved_enqueue ha hpath hask
  | process => exact hs.moved_process ha hi hkeep hpath hask
  | resolve branch =>
      have hwithin := q.within_resolve branch c.host c.before
      refine .still ?_ (Turn.enqueued?_of_ask (by rw [hask]; nofun))
      rw [Turn.after, hask]
      dsimp only [reply]
      exact hwithin.keeps (by simpa using hqueue) (by simpa using hlock)
  | skip branch =>
      have hwithin := q.within_skip branch c.host c.before
      refine .still ?_ (Turn.enqueued?_of_ask (by rw [hask]; nofun))
      rw [Turn.after, hask]
      dsimp only [reply]
      exact hwithin.keeps (by simp [hqueue, harchive]) (by simpa using hlock)

end MergeQueue

end Pipewright
