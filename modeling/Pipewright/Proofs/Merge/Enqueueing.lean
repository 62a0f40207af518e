import Pipewright.Proofs.Lifecycle.Conduct
import Pipewright.Proofs.Merge.Progress
import Pipewright.Proofs.Store.Siblings

/-!
# Asking for a merge as a whole

Whoever asks for a merge changes three files: a record is added to the audit log,
the graph is saved with the node ready for merging, and the entry is written at
the end of the queue. What is refused is refused before the first of them is
written. So where the other two can be written once the first one is, all of them
change or none (`enqueue_all_or_nothing`): there has to be room to save the graph,
and the queue file has to be one that can be replaced.

Without room to save the graph the record stays in the log
(`enqueue_narrowStore`).
-/

namespace Pipewright

open Merge Pipewright.Action

/-! ## What is ruled on a node that is to be merged -/

theorem Status.canBecome_mergeReady {s : Status} : s.canBecome .mergeReady ↔ s = .validated := by
  cases s <;> decide

/-- A node becomes ready for merging out of the status of a validated one, and nothing else
changes its status. -/
theorem Pipeline.mergeReady_of_judge {p : Pipeline} {maxRetries : UInt32} {s : Store}
    {now : Instant}
    {node actor : String} {v : Verdict} (hseq : p.checkpointSeq.toNat < 2 ^ 63)
    (h : p.judge maxRetries s now ⟨node, .mergeReady, actor, none⟩ = .ok v) :
    v.answer ⟨node, .mergeReady, actor, none⟩ = .ok v.record ∧
      v.record = ⟨now.stamp, node, .validated, .mergeReady, actor, none⟩ ∧
      p.statusOf? node = some .validated ∧
      ∀ id, (GraphFile.bumped v.after).statusOf? id
        = if id = node then some .mergeReady else p.statusOf? id := by
  obtain ⟨-, n, m, hsucceeds, hid, -, -, hsource, htarget, -⟩ := succeeds_of_judge h hseq
  obtain ⟨n', -, hlegal, -, hjudged⟩ := judge_eq_ok h
  obtain ⟨hbefore, hafter⟩ := hsucceeds.statusOf? hid
  have hvalidated : n'.status = .validated := Status.canBecome_mergeReady.mp hlegal
  cases hjudged with
  | exhausted hfailed =>
      rw [hvalidated] at hfailed
      cases hfailed
  | granted effects hcheck =>
      have heffects : effects.evidenceHash = none := by
        unfold Guard.check at hcheck
        obtain ⟨_, -, hcheck⟩ := bind_eq_ok.mp hcheck
        obtain ⟨_, -, hcheck⟩ := bind_eq_ok.mp hcheck
        obtain ⟨_, -, hcheck⟩ := bind_eq_ok.mp hcheck
        rw [Guard.checkEvidence, if_neg (by rintro ⟨⟩)] at hcheck
        rw [← Except.ok.inj hcheck]
      have hrecord : AuditRecord.mk now.stamp node n'.status .mergeReady actor effects.evidenceHash
          = ⟨now.stamp, node, .validated, .mergeReady, actor, none⟩ := by
        rw [hvalidated, heffects]
      refine ⟨rfl, hrecord, ?_, fun id => ?_⟩
      · rw [hbefore, ← hsource]
        exact congrArg some hvalidated
      · rw [hafter, ← htarget]
        rfl

namespace MergeQueue

/-! ## The books of a queue -/

/-- The bytes of the files that tell of entries and of nodes. -/
structure Books where
  queue : Option ByteArray
  graph : Option ByteArray
  log : Option ByteArray

def books (q : MergeQueue) (s : Store) : Books :=
  ⟨s.bytes? q.queueFile, s.bytes? q.graph, s.bytes? q.engine.auditLog⟩

namespace Books

/-- The entries in the queue, none where there is no queue file. -/
def entries? (b : Books) : Option (List Entry) :=
  match b.queue with
  | none => some []
  | some bytes => Json.readRecordBytes queueOfDocument? bytes

def pipeline? (b : Books) : Option Pipeline := do
  let text ← String.fromUTF8? (← b.graph)
  (Pipeline.parse text).toOption

/-- How a node is made ready for merging: it is, and nothing changes; or it was validated, and the
graph is saved with its new status, and there is a record of that in the log. -/
inductive Readies (node actor : String) (now : Instant) (b b' : Books) : Prop
  | still {p : Pipeline} (stored : b.pipeline? = some p)
      (ready : p.statusOf? node = some .mergeReady)
      (graph : b'.graph = b.graph) (log : b'.log = b.log)
  | moved {p after : Pipeline} (stored : b.pipeline? = some p)
      (validated : p.statusOf? node = some .validated)
      (saved : b'.graph = some after.bytes)
      (statuses : ∀ id, after.statusOf? id
        = if id = node then some .mergeReady else p.statusOf? id)
      (log : b'.log = some (b.log.getD .empty
        ++ AuditRecord.line ⟨now.stamp, node, .validated, .mergeReady, actor, none⟩))
      (reread : p.Plain → p.checkpointSeq.toNat + 1 < 2 ^ 63 → ∃ p', b'.pipeline? = some p' ∧
        ∀ id, p'.statusOf? id = after.statusOf? id)

/-- How a branch is put in the queue: it was in no entry, its entry is the last one from now on,
and its node is made ready for merging. -/
structure Adds (h : Host) (identity branch node : String) (e : Entry) (b b' : Books) : Prop where
  entry : e = newEntry h identity branch node
  queue : ∃ es, b.entries? = some es ∧ (∀ f ∈ es, f.branch ≠ branch) ∧
      b'.entries? = some (es ++ [e])
  node : b.Readies node identity (h.clock 0) b'

end Books

variable {q : MergeQueue} {s t : Store} {es : List Entry} {p : Pipeline}
  {locks : List (List String)}

theorem Shows.entries? (hs : q.Shows s es) : (q.books s).entries? = some es := by
  rcases hs with ⟨bytes, hhas, hread⟩ | ⟨hhas, rfl⟩
  · have hbytes : (q.books s).queue = some bytes := Store.bytes?_of_has hhas
    simp only [Books.entries?, hbytes, hread]
  · have hbytes : (q.books s).queue = none := Store.bytes?_of_has hhas
    simp only [Books.entries?, hbytes]

theorem pipeline?_books (hbears : GraphFile.Bears s q.graph p) :
    (q.books s).pipeline? = some p := by
  obtain ⟨bytes, text, hhas, hutf, hparse⟩ := hbears
  have hbytes : (q.books s).graph = some bytes := Store.bytes?_of_has hhas
  simp only [Books.pipeline?, hbytes, hutf, hparse, bind, Option.bind, Except.toOption]

/-- Where the queue file can be replaced and its directory is there, reading the queue gives the
entries in it or fails. -/
theorem perform_entries_cases (hcan : s.CanReplace q.queueFile)
    (hdir : s.isDirectory (Store.holder q.queueFile)) (h : Host) :
    (∃ err, q.entries.perform h s = (.error err, s)) ∨
      ∃ es, q.entries.perform h s = (.ok es, s) ∧ (q.books s).entries? = some es := by
  obtain ⟨-, hno, hlocate, hend⟩ := Store.landing_eq_ok (hcan.landing hdir)
  rw [entries, perform_bind, readRecord?, perform_bind, perform_readingIfThere]
  cases hat : s.at? (s.place q.queueFile) with
  | none =>
      have hnone : (q.books s).queue = none := by
        rw [books, Store.bytes?, hat]
      have hread : s.readBytes q.queueFile = .error .notFound := by
        simp only [Store.readBytes, Store.find, hlocate, hat, bind, Except.bind]
        rfl
      rw [hread]
      exact .inr ⟨[], rfl, by rw [Books.entries?, hnone]⟩
  | some entry =>
      cases entry with
      | directory => exact absurd hat hno
      | file bytes modified =>
          have hfind := Store.find_eq_file.mpr ⟨hlocate, hat, hend⟩
          have hsome : (q.books s).queue = some bytes := Store.bytes?_of_at? hat
          have hread : s.readBytes q.queueFile = .ok bytes := by
            rw [Store.readBytes, hfind]
            rfl
          rw [hread]
          dsimp only
          cases hrecord : Json.readRecordBytes queueOfDocument? bytes with
          | none => exact .inl ⟨_, rfl⟩
          | some es => exact .inr ⟨es, rfl, by rw [Books.entries?, hsome]; exact hrecord⟩

/-! ## Where the files are -/

/-- The files that tell of entries and of nodes are different files and none of them is the lock
file of the graph, neither the queue file nor the audit log is that of the queue, and the audit log
is in the directory of the queue file. -/
structure Seated (q : MergeQueue) (s : Store) : Prop where
  beside : Store.holder q.engine.auditLog = Store.holder q.queueFile
  queue : s.place q.queueFile ≠ s.place q.graph ∧ s.place q.queueFile ≠ s.place q.engine.auditLog
  graph : s.place q.graph ≠ s.place q.engine.auditLog
  lock : s.place q.queueFile ≠ s.place (lockPath q.queueFile) ∧
    s.place q.engine.auditLog ≠ s.place (lockPath q.queueFile)
  graphLock : Path.ending q.graph = .name → s.place q.queueFile ≠ s.place (lockPath q.graph) ∧
    s.place q.engine.auditLog ≠ s.place (lockPath q.graph)

/-- The files of a configuration are like that, if its graph file is none of the others. -/
theorem seated_ofConfig {c : Config} {graph : String} (i : Integrator) (r : Option Registry)
    (hqueue : s.place graph ≠ s.place c.mergeQueue) (hlog : s.place graph ≠ s.place c.auditLog) :
    (ofConfig c graph i r).Seated s := by
  have hqueueName : Path.IsName "merge-queue.json" := ⟨by decide, 'n', rfl, by decide⟩
  have hlogName : Path.IsName "audit.jsonl" := ⟨by decide, 'l', rfl, by decide⟩
  have hapart : s.place c.mergeQueue ≠ s.place c.auditLog := fun heq =>
    absurd ((Store.place_join_inj hqueueName hlogName).mp heq) (by decide)
  have hlocks : ∀ path, Path.ending path = .name →
      s.place c.mergeQueue ≠ s.place (lockPath path) ∧
        s.place c.auditLog ≠ s.place (lockPath path) :=
    fun path hend => ⟨s.place_join_ne_lockPath c.stateDir hqueueName (by decide) hend,
      s.place_join_ne_lockPath c.stateDir hlogName (by decide) hend⟩
  exact ⟨(Path.holder_join c.stateDir hlogName).trans (Path.holder_join c.stateDir hqueueName).symm,
    ⟨hqueue.symm, hapart⟩, hlog, hlocks _ (Path.ending_join c.stateDir hqueueName), hlocks graph⟩

theorem Seated.of_home (hs : q.Seated s) (hhome : t.home = s.home) : q.Seated t := by
  have hplace : t.place = s.place := funext (Store.place_eq hhome)
  obtain ⟨hbeside, hqueue, hgraph, hlock, hgraphLock⟩ := hs
  rw [← hplace] at hqueue hgraph hlock hgraphLock
  exact ⟨hbeside, hqueue, hgraph, hlock, hgraphLock⟩

/-- Opening a lock leaves the books as they are, if the lock file is none of them or is the graph
file and there. -/
theorem books_of_touched {lock : List String} (ht : Store.Touched [] [lock] s t)
    (hlock : s.place q.queueFile ≠ lock ∧ s.place q.engine.auditLog ≠ lock)
    (hgraph : s.place q.graph = lock → (s.bytes? q.graph).isSome) : q.books t = q.books s := by
  have hqueue : t.bytes? q.queueFile = s.bytes? q.queueFile :=
    ht.bytes? (by simp) fun hmem => absurd (List.mem_singleton.mp hmem) hlock.1
  have hlog : t.bytes? q.engine.auditLog = s.bytes? q.engine.auditLog :=
    ht.bytes? (by simp) fun hmem => absurd (List.mem_singleton.mp hmem) hlock.2
  rw [books, hqueue, hlog, ht.bytes? (by simp) fun hmem => hgraph (List.mem_singleton.mp hmem)]
  rfl

/-! ## The steps under the lock -/

/-- A store in which the queue file can be written, and the graph file where it is there. -/
structure Sound (q : MergeQueue) (s : Store) : Prop where
  seated : q.Seated s
  directory : s.isDirectory (Store.holder q.queueFile)
  replace : s.CanReplace q.queueFile
  room : Engine.saving q.graph s = .ok ()

/-- The node is made ready for merging as a whole or not at all, and the queue file can be written
as before. -/
theorem Sound.bring (hs : q.Sound s) (node actor : String) (h : Host) :
    (∃ err t, (q.bring node .mergeReady actor).perform h s = (.error err, t) ∧
      q.books t = q.books s) ∨
    ∃ t, (q.bring node .mergeReady actor).perform h s = (.ok (), t) ∧ q.Sound t ∧
      (q.books t).queue = (q.books s).queue ∧
      (q.books s).Readies node actor (h.clock 0) (q.books t) := by
  rcases q.perform_statusOf node h s with ⟨err, hstatus⟩ | ⟨p, n, hstatus, hbears, hnode⟩
  · rw [MergeQueue.bring, perform_bind, hstatus]
    exact .inl ⟨err, s, rfl, rfl⟩
  · have hstored := pipeline?_books hbears
    by_cases hready : n.status = .mergeReady
    · rw [MergeQueue.bring, perform_bind, hstatus]
      dsimp only
      rw [if_neg (not_not_intro hready)]
      have hsame : p.statusOf? node = some .mergeReady := by
        rw [Pipeline.statusOf?, hnode, Option.map_some, hready]
      exact .inr ⟨s, rfl, hs, rfl, .still hstored hsame rfl rfl⟩
    · have hend : Path.ending q.graph = .name := by
        obtain ⟨_, _, hfind⟩ := hbears.found
        exact (Store.find_eq_file.mp hfind).2.2
      have hgraphLock := hs.seated.graphLock hend
      have hwhole := Engine.whole hbears hs.room hs.seated.graph ⟨node, .mergeReady, actor, none⟩ h
      rcases hperform : (q.engine.transition q.graph ⟨node, .mergeReady, actor, none⟩).perform h s
        with ⟨r, t⟩
      rw [perform_bring_of_bears hbears hnode hready hperform]
      rw [hperform] at hwhole
      cases hwhole with
      | refused touched =>
          exact .inl ⟨_, t, rfl, books_of_touched touched hgraphLock fun heq =>
            absurd heq (s.place_lockPath_ne hend)⟩
      | @carriedOut v _ judged touched saved logged directory =>
          have hlifted : p.Lifted := by
            obtain ⟨_, _, -, -, hparse⟩ := hbears
            exact Pipeline.lifted_of_parse hparse
          obtain ⟨hanswer, hrecord, hvalidated, hstatuses⟩ :=
            Pipeline.mergeReady_of_judge hlifted.seq judged
          have hqueue : (q.books t).queue = (q.books s).queue :=
            touched.bytes? (by simpa using hs.seated.queue) fun hmem =>
              absurd (List.mem_singleton.mp hmem) hgraphLock.1
          have hreplace : t.CanReplace q.queueFile := by
            obtain ⟨-, hno, -⟩ := Store.landing_eq_ok (hs.replace.landing hs.directory)
            refine hs.replace.of_touched hs.directory touched fun hnew => hno ?_
            exact directory (hs.seated.beside ▸ hs.directory) _ hnew
          rw [hanswer]
          refine .inr ⟨t, rfl, ⟨hs.seated.of_home touched.home, touched.isDirectory hs.directory,
            hreplace, (Engine.saving_of_home touched.home).trans hs.room⟩, hqueue,
            .moved hstored hvalidated (Store.bytes?_of_has saved) hstatuses (hrecord ▸ logged)
            fun hplain hseq => ?_⟩
          obtain ⟨p', hbears', -, -, hstatuses'⟩ := hbears.saved hplain judged saved fun _ => hseq
          refine ⟨p', pipeline?_books hbears', fun id => ?_⟩
          rw [hstatuses', hstatuses, hrecord]

/-- The readiness of the node does not depend on what becomes of the queue. -/
theorem Books.Readies.of_queue {node actor : String} {now : Instant} {b b' c c' : Books}
    (h : b.Readies node actor now b') (hgraph : c.graph = b.graph) (hlog : c.log = b.log)
    (hgraph' : c'.graph = b'.graph) (hlog' : c'.log = b'.log) : c.Readies node actor now c' := by
  obtain ⟨_, graph, log⟩ := c
  obtain ⟨_, graph', log'⟩ := c'
  obtain rfl : graph = b.graph := hgraph
  obtain rfl : log = b.log := hlog
  obtain rfl : graph' = b'.graph := hgraph'
  obtain rfl : log' = b'.log := hlog'
  cases h with
  | still stored ready hgraph hlog => exact .still stored ready hgraph hlog
  | moved stored validated saved statuses hlog reread =>
      exact .moved stored validated saved statuses hlog reread

theorem Sound.write (hs : q.Sound s) (es : List Entry) (h : Host) :
    ∃ t, (q.write es).perform h s = (.ok (), t) ∧ (q.books t).entries? = some es ∧
      (q.books t).graph = (q.books s).graph ∧ (q.books t).log = (q.books s).log := by
  obtain ⟨t, hwrite, hshows, -⟩ := perform_write_of_canReplace hs.replace es h
  have htouched := touched_of_write hwrite
  refine ⟨t, hwrite, hshows.entries?, ?_, ?_⟩
  · exact htouched.bytes? (by simpa using hs.seated.queue.1.symm) nofun
  · exact htouched.bytes? (by simpa using hs.seated.queue.2.symm) nofun

/-- When the lock has been opened the directory of the queue file is there, and the queue file can
be replaced as before. -/
theorem Seated.opened (hs : q.Seated s) (hreplace : s.CanReplace q.queueFile)
    (hroom : Engine.saving q.graph s = .ok ()) (h : Host) :
    q.Sound ((openLock (lockPath q.queueFile)).perform h s).2 := by
  obtain ⟨u, hmake, hdir, hcan⟩ := hreplace.makeDirs
  obtain ⟨-, hno, -, hend⟩ := Store.landing_eq_ok (hcan.landing hdir)
  obtain ⟨hgrown, -⟩ := u.create_spec (lockPath q.queueFile) (h.clock 0)
  have hopen : ((openLock (lockPath q.queueFile)).perform h s).2
      = (u.create (lockPath q.queueFile) (h.clock 0)).2 := by
    rw [perform_openLock_eq, Path.holder_lockPath hend, hmake]
  have hhome := (openLock_spec (lockPath q.queueFile) h s).1.home
  rw [hopen] at hhome ⊢
  generalize (u.create (lockPath q.queueFile) (h.clock 0)).2 = t at hgrown hhome
  exact ⟨hs.of_home hhome, hgrown.isDirectory hdir,
    hcan.of_touched hdir hgrown.touched fun hnew => hno (hgrown.directory_before hnew),
    (Engine.saving_of_home hhome).trans hroom⟩

/-- Asking for a merge fails with the books as they were, or puts the branch in the queue. -/
theorem Seated.enqueue (hs : q.Seated s)
    (hlock : s.place q.graph = s.place (lockPath q.queueFile) → (s.bytes? q.graph).isSome)
    (hreplace : s.CanReplace q.queueFile) (hroom : Engine.saving q.graph s = .ok ())
    (identity branch node : String) (h : Host) :
    (∃ err t, (q.enqueue identity branch node).perform h s = (.error err, t) ∧
      q.books t = q.books s) ∨
    ∃ e t, (q.enqueue identity branch node).perform h s = (.ok e, t) ∧
      (q.books s).Adds h identity branch node e (q.books t) := by
  have hreads := q.reads_checkRegistered identity h s
  rw [MergeQueue.enqueue, perform_bind]
  rcases hcheck : (q.checkRegistered identity).perform h s with ⟨err | ⟨⟩, s'⟩ <;>
    rw [hcheck] at hreads <;> obtain rfl : s' = s := hreads
  · exact .inl ⟨err, s', rfl, rfl⟩
  · dsimp only
    rw [locked, withLock]
    obtain ⟨u, hopen, htouched, ⟨err, hperform⟩ | ⟨-, -, hperform⟩⟩ :=
      withLockFile_cases (lockPath q.queueFile) q.lockPolicy h s'
    · rw [hperform]
      exact .inl ⟨err, u, rfl, books_of_touched htouched hs.lock hlock⟩
    · have hbooks := books_of_touched htouched hs.lock hlock
      have hsound : q.Sound u := hopen ▸ hs.opened hreplace hroom h
      rw [hperform, perform_bind]
      generalize u.place (lockPath q.queueFile) :: h.held = held
      rcases perform_entries_cases hsound.replace hsound.directory { h with held := held } with
        ⟨err, hread⟩ | ⟨es, hread, hes⟩
      · rw [hread]
        exact .inl ⟨err, u, rfl, hbooks⟩
      · rw [hread]
        dsimp only
        by_cases hany : es.any (·.branch = branch)
        · rw [if_pos hany]
          exact .inl ⟨_, u, rfl, hbooks⟩
        · have hnew : ∀ f ∈ es, f.branch ≠ branch := by simpa using hany
          rw [if_neg hany, perform_bind]
          rcases hsound.bring node identity { h with held := held } with
            ⟨err, v, hbring, hkept⟩ | ⟨v, hbring, hsound', hqueue, hready⟩
          · rw [hbring]
            exact .inl ⟨err, v, rfl, hkept.trans hbooks⟩
          · obtain ⟨t, hwrite, hlast, hgraph, hlog⟩ := hsound'.write
              (es ++ [newEntry h identity branch node]) { h with held := held }
            unfold newEntry at hwrite
            rw [hbring]
            dsimp only
            rw [perform_bind, perform_read]
            dsimp only
            rw [perform_bind, perform_now]
            dsimp only
            rw [perform_bind, hwrite]
            rw [hbooks] at hes hready
            exact .inr ⟨_, t, rfl, rfl, ⟨es, hes, hnew, hlast⟩, hready.of_queue rfl rfl hgraph hlog⟩

/-- Asking for a merge is done as a whole or not at all, if the queue file can be replaced and there
is room to save the graph. -/
theorem enqueue_all_or_nothing {c : Config} {graph : String} (i : Integrator) (r : Option Registry)
    (hqueue : s.place graph ≠ s.place c.mergeQueue) (hlog : s.place graph ≠ s.place c.auditLog)
    (hlock : s.place graph = s.place (lockPath c.mergeQueue) → (s.bytes? graph).isSome)
    (hreplace : s.CanReplace c.mergeQueue) (hroom : Engine.saving graph s = .ok ())
    (identity branch node : String) (h : Host) :
    let q := ofConfig c graph i r
    (∀ err t, (q.enqueue identity branch node).perform h s = (.error err, t) →
      q.books t = q.books s) ∧
    ∀ e t, (q.enqueue identity branch node).perform h s = (.ok e, t) →
      (q.books s).Adds h identity branch node e (q.books t) := by
  intro q
  have hseated : q.Seated s := seated_ofConfig i r hqueue hlog
  rcases hseated.enqueue hlock hreplace hroom identity branch node h with
    ⟨err, u, hperform, hkept⟩ | ⟨e, u, hperform, hadds⟩
  · constructor
    · intro err' t hanswer
      cases hperform.symm.trans hanswer
      exact hkept
    · intro e t hanswer
      cases hperform.symm.trans hanswer
  · constructor
    · intro err t hanswer
      cases hperform.symm.trans hanswer
    · intro e' t hanswer
      cases hperform.symm.trans hanswer
      exact hadds

/-- A branch is put in the queue, and whoever asks for that once more is refused. -/
theorem enqueue_all_or_nothing_acceptedStore : ∃ t,
    (smoothQueue.enqueue "dev" "b1" "w").perform someHost acceptedStore
      = (.ok (newEntry someHost "dev" "b1" "w"), t) ∧
    (smoothQueue.books acceptedStore).Adds someHost "dev" "b1" "w"
      (newEntry someHost "dev" "b1" "w") (smoothQueue.books t) ∧
    ((smoothQueue.enqueue "dev" "b1" "w").perform otherHost t).1
      = .error (.duplicateEntry "b1") ∧
    smoothQueue.books ((smoothQueue.enqueue "dev" "b1" "w").perform otherHost t).2
      = smoothQueue.books t := by
  obtain ⟨p, huntried, hprimed⟩ : ∃ p, Untried acceptedStore "pipeline.dot" p ∧
      smoothQueue.Primed acceptedStore [] p "w" .validated := primed_acceptedStore _
  have hseq : p.checkpointSeq.toNat + 1 < 2 ^ 63 := by
    rw [huntried.unsaved]
    decide
  have hroom : Engine.saving "pipeline.dot" acceptedStore = .ok () := rfl
  obtain ⟨hqueue, hlog, hlock⟩ : acceptedStore.place "pipeline.dot"
        ≠ acceptedStore.place (Config.mergeQueue {}) ∧
      acceptedStore.place "pipeline.dot" ≠ acceptedStore.place (Config.auditLog {}) ∧
      acceptedStore.place "pipeline.dot"
        ≠ acceptedStore.place (lockPath (Config.mergeQueue {})) := by
    decide
  obtain ⟨t, _, hadded, hprimed', -⟩ :=
    hprimed.enqueue (.inl rfl) rfl (h := someHost) rfl "dev" "b1"
    nofun hseq
  have hhome : t.home = acceptedStore.home := by
    have hwithin := (smoothQueue.within_enqueue "dev" "b1" "w" someHost acceptedStore).home
    rwa [hadded] at hwithin
  have hplace : t.place = acceptedStore.place := funext (Store.place_eq hhome)
  have hrefused : ((smoothQueue.enqueue "dev" "b1" "w").perform otherHost t).1
      = .error (.duplicateEntry "b1") := by
    have hready := hprimed'.unhindered.ready (h := otherHost) rfl
    have hopen : smoothQueue.registry = none := rfl
    rw [MergeQueue.enqueue, checkRegistered, hopen, perform_bind, perform_pure]
    exact congrArg Prod.fst (hprimed'.shows.perform_locked_of_ready hready _)
  refine ⟨t, hadded, ?_, hrefused, ?_⟩
  · exact (enqueue_all_or_nothing _ none hqueue hlog (absurd · hlock)
      canReplace_acceptedStore.2 hroom
      "dev" "b1" "w" someHost).2 _ t hadded
  · rw [← hplace] at hqueue hlog hlock
    exact (enqueue_all_or_nothing _ none hqueue hlog (absurd · hlock)
      hprimed'.unhindered.replaceQueue
      ((Engine.saving_of_home hhome).trans hroom) "dev" "b1" "w" otherHost).1 _ _
      (Prod.ext hrefused rfl)

end MergeQueue

/-! ## Where the graph cannot be saved -/

theorem AuditRecord.line_ne_empty (r : AuditRecord) : r.line ≠ .empty := by
  intro hempty
  have hsize : (r.toJson.compact ++ "\n").utf8ByteSize = 0 := congrArg ByteArray.size hempty
  have hnewline : "\n".utf8ByteSize = 1 := rfl
  rw [String.utf8ByteSize_append, hnewline] at hsize
  omega

namespace MergeQueue

variable {q : MergeQueue} {s t : Store} {es : List Entry}

/-- A record that was added to the audit log is seen in the books. -/
theorem books_ne_of_logged {made : Prop} {lock : List String} {r : AuditRecord}
    (hwritten : Store.Written made lock s t
      [(s.place q.engine.auditLog, s.contents (s.place q.engine.auditLog) ++ r.line)]) :
    q.books t ≠ q.books s := by
  intro hbooks
  have hafter := hwritten.bytes?_of_mem (List.mem_singleton_self _)
  have hsame : t.bytes? q.engine.auditLog = s.bytes? q.engine.auditLog := congrArg Books.log hbooks
  rw [hafter, Store.contents_place] at hsame
  cases hbytes : s.bytes? q.engine.auditLog with
  | none =>
      rw [hbytes] at hsame
      cases hsame
  | some bytes =>
      rw [hbytes] at hsame
      have hsize := congrArg ByteArray.size (Option.some.inj hsame)
      rw [Option.getD_some, ByteArray.size_append] at hsize
      exact r.line_ne_empty (ByteArray.size_eq_zero_iff.mp (by omega))

/-- Whoever asks for a merge is refused if the node cannot be made ready. -/
theorem Shows.enqueue_unbrought {h : Host} (hs : q.Shows s es) (hready : q.Ready h s)
    (hopen : q.registry = none) {identity branch node : String} (hnew : ∀ e ∈ es, e.branch ≠ branch)
    {err : Error} (hbring : (q.bring node .mergeReady identity).perform
      { h with held := s.place (lockPath q.queueFile) :: h.held } s = (.error err, t)) :
    (q.enqueue identity branch node).perform h s = (.error err, t) := by
  have hany : ¬es.any (·.branch = branch) := by simpa using hnew
  rw [MergeQueue.enqueue, checkRegistered, hopen, perform_bind, perform_pure]
  dsimp only
  rw [hs.perform_locked_of_ready hready, if_neg hany, perform_bind, hbring]

/-- A queue with its files in the root directory. -/
def rootQueue : MergeQueue :=
  .ofConfig { stateDir := "/" } "p.dot" (.still .clean ⟨true, ""⟩) none

theorem files_rootQueue : rootQueue.queueFile = "/merge-queue.json" ∧
    lockPath rootQueue.queueFile = "/merge-queue.json.lock" ∧
    rootQueue.engine.auditLog = "/audit.jsonl" ∧ lockPath rootQueue.graph = "p.dot.lock" := by
  decide

/-- The accepted pipeline in a working directory, and an empty queue in the root directory. -/
def rootStore (home : List String) : Store where
  entries := [(["merge-queue.json"], .file (Json.fileText (queueToJson [])).toUTF8 default),
    (["merge-queue.json.lock"], .file .empty default), (["audit.jsonl"], .file .empty default),
    (home ++ ["p.dot"], .file Pipeline.accepted.bytes default),
    (home ++ ["p.dot.lock"], .file .empty default)]
  home := home

section

variable {top : String} {below : List String}

theorem at?_rootStore {name : String} (hother : name ≠ top) :
    (rootStore (top :: below)).at? [name] = (rootStore (top :: below)).entries.lookup [name] := by
  have hoff : [name].isPrefixOf (top :: below) = false := by
    rw [List.isPrefixOf, beq_false_of_ne hother]
    rfl
  rw [Store.at?, if_neg (by rw [rootStore, hoff]; decide)]

/-- The files of the queue are found, if the working directory is below none of them. -/
theorem find_rootStore
    (htop : ∀ name ∈ ["merge-queue.json", "merge-queue.json.lock", "audit.jsonl"], name ≠ top) :
    ((rootStore (top :: below)).find "/merge-queue.json"
        = .ok (.file (Json.fileText (queueToJson [])).toUTF8 default) ∧
      (rootStore (top :: below)).place "/merge-queue.json" = ["merge-queue.json"]) ∧
    ((rootStore (top :: below)).find "/merge-queue.json.lock" = .ok (.file .empty default) ∧
      (rootStore (top :: below)).place "/merge-queue.json.lock" = ["merge-queue.json.lock"]) ∧
    (rootStore (top :: below)).find "/audit.jsonl" = .ok (.file .empty default) ∧
      (rootStore (top :: below)).place "/audit.jsonl" = ["audit.jsonl"] := by
  simp only [List.forall_mem_cons] at htop
  obtain ⟨hqueue, hlock, hlog, -⟩ := htop
  exact ⟨Store.find_of_rooted rfl rfl rfl rfl (at?_rootStore hqueue),
    Store.find_of_rooted rfl rfl rfl rfl (at?_rootStore hlock),
    Store.find_of_rooted rfl rfl rfl rfl (at?_rootStore hlog)⟩

theorem find_graph_rootStore :
    ((rootStore (top :: below)).find "p.dot" = .ok (.file Pipeline.accepted.bytes default) ∧
      (rootStore (top :: below)).place "p.dot" = top :: below ++ ["p.dot"]) ∧
    (rootStore (top :: below)).find "p.dot.lock" = .ok (.file .empty default) ∧
      (rootStore (top :: below)).place "p.dot.lock" = top :: below ++ ["p.dot.lock"] := by
  have hat := (rootStore (top :: below)).at?_home_append
  constructor
  · refine Store.find_of_name rfl rfl rfl rfl ((hat _).trans ?_)
    simp [rootStore, Keyed.lookup_cons_if]
  · refine Store.find_of_name rfl rfl rfl rfl ((hat _).trans ?_)
    simp [rootStore, Keyed.lookup_cons_if]

end

/-- The accepted pipeline in a working directory that has no room for the file that is to replace
it, and an empty queue. -/
def narrowStore : Store := rootStore Engine.deepHome

theorem find_narrowStore :
    (narrowStore.find rootQueue.queueFile
        = .ok (.file (Json.fileText (queueToJson [])).toUTF8 default) ∧
      narrowStore.place rootQueue.queueFile = ["merge-queue.json"]) ∧
    (narrowStore.find (lockPath rootQueue.queueFile) = .ok (.file .empty default) ∧
      narrowStore.place (lockPath rootQueue.queueFile) = ["merge-queue.json.lock"]) ∧
    narrowStore.find rootQueue.engine.auditLog = .ok (.file .empty default) ∧
      narrowStore.place rootQueue.engine.auditLog = ["audit.jsonl"] := by
  obtain ⟨hqueue, hlock, hlog, -⟩ := files_rootQueue
  rw [hlock, hqueue, hlog]
  exact find_rootStore (by decide +kernel)

theorem find_graph_narrowStore :
    (narrowStore.find rootQueue.graph = .ok (.file Pipeline.accepted.bytes default) ∧
      narrowStore.place rootQueue.graph = Engine.deepHome ++ ["p.dot"]) ∧
    narrowStore.find (lockPath rootQueue.graph) = .ok (.file .empty default) ∧
      narrowStore.place (lockPath rootQueue.graph) = Engine.deepHome ++ ["p.dot.lock"] := by
  rw [files_rootQueue.2.2.2]
  exact find_graph_rootStore

theorem shows_narrowStore : rootQueue.Shows narrowStore [] := by
  obtain ⟨⟨hqueue, -⟩, -⟩ := find_narrowStore
  exact .inl ⟨_, ⟨_, hqueue⟩, readRecordBytes_queueToJson []⟩

theorem bears_narrowStore : ∃ p n, GraphFile.Bears narrowStore rootQueue.graph p ∧ p.Plain ∧
    p.checkpointSeq = 0 ∧ p.Mergeable "w" n ∧ n.status = .validated := by
  obtain ⟨p, huntried, hprimed⟩ := primed_acceptedStore (.still .clean ⟨true, ""⟩)
  obtain ⟨n, hmergeable, hvalidated⟩ := hprimed.node
  obtain ⟨bytes, text, ⟨_, hfind⟩, hutf, hparse⟩ := hprimed.bears
  obtain ⟨rfl, -⟩ := Store.Entry.file.inj (Except.ok.inj (find_acceptedStore.1.symm.trans hfind))
  exact ⟨p, n, ⟨_, text, ⟨_, find_graph_narrowStore.1.1⟩, hutf, hparse⟩, hprimed.plain,
    huntried.unsaved, hmergeable, hvalidated⟩

/-- The queue file can be replaced, and the graph file cannot. -/
theorem room_narrowStore : narrowStore.CanReplace rootQueue.queueFile ∧
    ∃ fault, narrowStore.origin (narrowStore.draft (Store.holder rootQueue.graph))
      = .error fault := by
  obtain ⟨⟨hqueue, -⟩, -⟩ := find_narrowStore
  constructor
  · have hholder : Store.holder rootQueue.queueFile = "/" := by
      rw [files_rootQueue.1]
      decide
    have horigin : narrowStore.origin (narrowStore.draft (Store.holder rootQueue.queueFile))
        = .ok [] := by
      rw [hholder]
      rfl
    exact Store.canReplace_of_find hqueue horigin
  · obtain ⟨fault, hdraft⟩ := Engine.origin_draft_deepHome
    have hhome : narrowStore.home = (Engine.shortStore Engine.deepHome).home := rfl
    have hholder : Store.holder rootQueue.graph = "." := by decide
    rw [Store.draft_eq hhome, Store.origin_eq_of_home hhome, hholder]
    exact ⟨fault, hdraft⟩

theorem below_deepHome_ne (name name' : String) : Engine.deepHome ++ [name] ≠ [name'] := by
  intro heq
  have hlength := congrArg List.length heq
  rw [List.length_append, Engine.deepHome, List.length_replicate] at hlength
  cases hlength

theorem apart_narrowStore :
    narrowStore.place rootQueue.graph ≠ narrowStore.place rootQueue.queueFile ∧
    narrowStore.place rootQueue.graph ≠ narrowStore.place rootQueue.engine.auditLog ∧
    narrowStore.place (lockPath rootQueue.graph)
      ≠ narrowStore.place (lockPath rootQueue.queueFile) := by
  obtain ⟨⟨-, hqueue⟩, ⟨-, hlock⟩, -, hlog⟩ := find_narrowStore
  obtain ⟨⟨-, hgraph⟩, -, hgraphLock⟩ := find_graph_narrowStore
  rw [hgraph, hgraphLock, hqueue, hlock, hlog]
  exact ⟨below_deepHome_ne _ _, below_deepHome_ne _ _, below_deepHome_ne _ _⟩

/-- Who asks for a merge there is refused after the record of the step was added to the log. -/
theorem logged_narrowStore {h : Host} (hheld : h.held = []) : ∃ err t,
    (rootQueue.enqueue "dev" "b1" "w").perform h narrowStore = (.error err, t) ∧
      rootQueue.books t ≠ rootQueue.books narrowStore := by
  obtain ⟨p, n, hbears, -, -, hmergeable, hvalidated⟩ := bears_narrowStore
  obtain ⟨⟨hqueue, -⟩, ⟨hlock, -⟩, hlog, -⟩ := find_narrowStore
  obtain ⟨-, hgraphLock, -⟩ := find_graph_narrowStore
  obtain ⟨-, hlogApart, hlockApart⟩ := apart_narrowStore
  obtain ⟨hreplace, fault, hfull⟩ := room_narrowStore
  have hready : rootQueue.Ready h narrowStore :=
    ⟨⟨_, _, hlock⟩, by rw [hheld]; rfl, ⟨_, _, hqueue⟩, hreplace⟩
  have hfree : { h with held := narrowStore.place (lockPath rootQueue.queueFile) :: h.held
      }.held.contains (narrowStore.place (lockPath rootQueue.graph)) = false := by
    simpa [hheld] using hlockApart
  have hlegal : n.status.canBecome .mergeReady := Status.canBecome_mergeReady.mpr hvalidated
  have hother : n.status ≠ .mergeReady := by
    rw [hvalidated]
    nofun
  have hjudge := hmergeable.judge hlegal (.inl rfl) rootQueue.engine.maxRetries narrowStore
    (h.clock 0) "dev"
  obtain ⟨bytes, text, ⟨_, hgraph⟩, hutf, hparse⟩ := hbears
  obtain ⟨t, htransition, hwritten, -⟩ := Engine.transition_unsaved hgraph hutf hparse hlogApart
    ⟨_, _, hgraphLock⟩ hfree ⟨_, _, hlog⟩ hfull hjudge
  have hbring := perform_bring_of_bears ⟨bytes, text, ⟨_, hgraph⟩, hutf, hparse⟩ hmergeable.node
    hother htransition
  exact ⟨.file fault, t, shows_narrowStore.enqueue_unbrought hready rfl nofun hbring,
    books_ne_of_logged hwritten⟩

/-- Without room to save the graph whoever asks for a merge can be refused, and yet there is a
record of the step in the audit log. -/
theorem enqueue_narrowStore :
    (narrowStore.place rootQueue.graph ≠ narrowStore.place rootQueue.queueFile ∧
      narrowStore.place rootQueue.graph ≠ narrowStore.place rootQueue.engine.auditLog ∧
      narrowStore.CanReplace rootQueue.queueFile ∧
      ∃ p, GraphFile.Bears narrowStore rootQueue.graph p ∧ p.Plain ∧ p.checkpointSeq = 0) ∧
    ∃ err t, (rootQueue.enqueue "dev" "b1" "w").perform someHost narrowStore = (.error err, t) ∧
      rootQueue.books t ≠ rootQueue.books narrowStore := by
  obtain ⟨hqueue, hlog, -⟩ := apart_narrowStore
  obtain ⟨p, -, hbears, hplain, hunsaved, -⟩ := bears_narrowStore
  exact ⟨⟨hqueue, hlog, room_narrowStore.1, p, hbears, hplain, hunsaved⟩, logged_narrowStore rfl⟩

end MergeQueue

end Pipewright
