import Pipewright.Merge.Queue
import Pipewright.Proofs.Engine.Actions
import Pipewright.Proofs.Engine.RecordFiles
import Pipewright.Proofs.Json.Layout

/-!
# The files of the merge queue

Records of the queue are read back, the queue file shows its entries, and an integration says what
became of a branch.
-/

/-!
## The records of the merge queue read back

The queue file holds the entries it was made of, and so does a line of the
archive: nothing about an entry is lost between two calls, whatever its texts
are and whichever process is at work on it.
-/

namespace Pipewright

namespace Merge

open Json

theorem EntryStatus.ofName?_name (s : EntryStatus) : ofName? s.name = some s := by
  cases s <;> decide

theorem Disposition.ofName?_name (d : Disposition) : ofName? d.name = some d := by
  cases d <;> decide

namespace Entry

theorem isExact_toJson (e : Entry) : e.toJson.isExact := by
  have htexts := isExact_texts e.conflictingFiles
  cases hreason : e.reason <;> cases hprocessor : e.processor <;>
    simp [toJson, hreason, hprocessor, ofText?, ofUInt32?, nat, isExact, haveExact, htexts]

theorem ofDocument?_document (e : Entry) : ofDocument? e.toJson.document = some e := by
  obtain ⟨id, identityName, branch, node, requestedAt, status, files, reason, processor⟩ := e
  have hfields := fun fields => @recordFields_document fieldNames fields
  have hfiles := asList_texts files
  have hprocessor := optionalField_ofUInt32? processor
  have hreason := optionalField_ofText? reason
  rw [toJson, ofDocument?, hfields _ rfl (by decide)]
  simp [document, required, asText, asWord, defaulted, EntryStatus.ofName?_name, hfiles, hreason,
    hprocessor]

end Entry

theorem Archived.logged : Json.Logged toJson ofDocument? where
  exact := by
    intro a
    simp [toJson, isExact, haveExact, a.entry.isExact_toJson]
  object := fun a => ⟨_, rfl⟩
  reread := by
    intro a
    obtain ⟨entry, archivedAt, disposition⟩ := a
    have hfields := fun fields => @Json.recordFields_document fieldNames fields
    rw [toJson, ofDocument?, hfields _ rfl (by decide)]
    simp [document, required, asText, asWord, Disposition.ofName?_name,
      Entry.ofDocument?_document]

theorem queue_logged : Json.Logged queueToJson queueOfDocument? where
  exact := by
    intro entries
    have hentries : areExact (entries.map Entry.toJson) := by
      rw [areExact_iff]
      intro v hv
      obtain ⟨e, -, rfl⟩ := List.mem_map.mp hv
      exact e.isExact_toJson
    simp [queueToJson, isExact, haveExact, hentries]
  object := fun entries => ⟨_, rfl⟩
  reread := by
    intro entries
    have hfields := fun fields => @recordFields_document ["entries"] fields
    rw [queueToJson, queueOfDocument?, hfields _ rfl (by decide)]
    exact asList_document Entry.ofDocument?_document entries

theorem readRecordBytes_queueToJson (entries : List Entry) :
    readRecordBytes queueOfDocument? (fileText (queueToJson entries)).toUTF8 = some entries := by
  rw [readRecordBytes_fileText (queue_logged.exact entries), queue_logged.reread]

end Merge

/-!
## The queue file

A store shows the entries that its queue file holds, and none where there is no
queue file (`MergeQueue.Shows`). Reading the queue gives the entries that are
shown, writing it shows the new ones, and whatever else an action on the queue
does, failing included, leaves them as they are.

The files of a queue have to be different files (`MergeQueue.Apart`), as they are
for the queue of a configuration whose graph is not kept in one of them.
-/

open Merge Pipewright.Action

namespace MergeQueue

variable {q : MergeQueue} {s t u : Store} {es es' : List Entry}

/-! ### The files of a queue -/

/-- The paths of all files that the calls of a queue write or make. -/
def files (q : MergeQueue) : List String :=
  [q.queueFile, lockPath q.queueFile, q.archive, q.engine.auditLog, q.graph, lockPath q.graph]

/-- The files of the queue are different files. -/
def Apart (q : MergeQueue) (s : Store) : Prop := (q.files.map s.place).Nodup

theorem Apart.of_home (h : q.Apart s) (hhome : t.home = s.home) : q.Apart t := by
  rwa [Apart, show t.place = s.place from funext (Store.place_eq hhome)]

theorem Apart.queue (h : q.Apart s) : s.place q.queueFile ≠ s.place (lockPath q.queueFile) ∧
    s.place q.queueFile ≠ s.place q.archive ∧ s.place q.queueFile ≠ s.place q.engine.auditLog ∧
    s.place q.queueFile ≠ s.place q.graph ∧ s.place q.queueFile ≠ s.place (lockPath q.graph) := by
  simp only [Apart, files, List.map_cons, List.map_nil, List.nodup_cons, List.mem_cons, not_or] at h
  obtain ⟨⟨hlock, harchive, hlog, hgraph, hgraphLock, -⟩, -⟩ := h
  exact ⟨hlock, harchive, hlog, hgraph, hgraphLock⟩

/-- The lock file of the queue is none of the others. -/
theorem Apart.lock (h : q.Apart s) : s.place (lockPath q.queueFile) ≠ s.place q.queueFile ∧
    s.place (lockPath q.queueFile) ≠ s.place q.archive ∧
    s.place (lockPath q.queueFile) ≠ s.place q.engine.auditLog ∧
    s.place (lockPath q.queueFile) ≠ s.place q.graph ∧
    s.place (lockPath q.queueFile) ≠ s.place (lockPath q.graph) := by
  simp only [Apart, files, List.map_cons, List.map_nil, List.nodup_cons, List.mem_cons, not_or] at h
  obtain ⟨⟨hqueue, -⟩, ⟨harchive, hlog, hgraph, hgraphLock, -⟩, -⟩ := h
  exact ⟨Ne.symm hqueue, harchive, hlog, hgraph, hgraphLock⟩

theorem Apart.archived (h : q.Apart s) : s.place q.archive ≠ s.place q.queueFile ∧
    s.place q.archive ≠ s.place (lockPath q.queueFile) ∧
    s.place q.archive ≠ s.place q.engine.auditLog ∧ s.place q.archive ≠ s.place q.graph ∧
    s.place q.archive ≠ s.place (lockPath q.graph) := by
  simp only [Apart, files, List.map_cons, List.map_nil, List.nodup_cons, List.mem_cons, not_or] at h
  obtain ⟨⟨-, hqueue, -⟩, ⟨hlock, -⟩, ⟨hlog, hgraph, hgraphLock, -⟩, -⟩ := h
  exact ⟨Ne.symm hqueue, Ne.symm hlock, hlog, hgraph, hgraphLock⟩

/-! ### What it shows -/

/-- The queue file holds the entries; there is none if there are none. -/
def Shows (q : MergeQueue) (s : Store) (es : List Entry) : Prop :=
  (∃ bytes, s.Has q.queueFile (some bytes) ∧
    Json.readRecordBytes queueOfDocument? bytes = some es) ∨
  s.Has q.queueFile none ∧ es = []

theorem Shows.unique (h : q.Shows s es) (h' : q.Shows s es') : es = es' := by
  rcases h with ⟨bytes, hhas, hread⟩ | ⟨hhas, rfl⟩
  · rcases h' with ⟨bytes', hhas', hread'⟩ | ⟨hhas', rfl⟩
    · cases hhas.unique hhas'
      exact Option.some.inj (hread.symm.trans hread')
    · cases hhas.unique hhas'
  · rcases h' with ⟨bytes', hhas', hread'⟩ | ⟨hhas', rfl⟩
    · cases hhas.unique hhas'
    · rfl

theorem Shows.of_keeps (h : q.Shows s es) (hkeeps : s.Keeps q.queueFile t) : q.Shows t es := by
  rcases h with ⟨bytes, hhas, hread⟩ | ⟨hhas, hnil⟩
  · exact .inl ⟨bytes, hkeeps.has _ hhas, hread⟩
  · exact .inr ⟨hkeeps.has _ hhas, hnil⟩

theorem Shows.found (h : q.Shows s es) (hne : es ≠ []) : s.Found q.queueFile := by
  rcases h with ⟨bytes, hhas, -⟩ | ⟨-, hnil⟩
  · exact hhas.found
  · exact absurd hnil hne

/-- Reading gives the entries that are shown; where the queue file is not there it may fail. -/
theorem Shows.perform_entries (hs : q.Shows s es) (h : Host) :
    q.entries.perform h s = (.ok es, s) ∨
      ¬s.Found q.queueFile ∧ ∃ err, q.entries.perform h s = (.error err, s) := by
  rw [entries, perform_bind, readRecord?, perform_bind, perform_readingIfThere]
  rcases hs with ⟨bytes, ⟨modified, hfind⟩, hread⟩ | ⟨hhas, rfl⟩
  · have hbytes : s.readBytes q.queueFile = .ok bytes := by
      rw [Store.readBytes, hfind]
      rfl
    rw [hbytes]
    simp only [hread]
    exact .inl rfl
  · have hlost : ¬s.Found q.queueFile := by
      intro hfound
      obtain ⟨bytes, hbytes⟩ := hfound.has
      cases hhas.unique hbytes
    cases hbytes : s.readBytes q.queueFile with
    | error fault => cases fault <;> first | exact .inl rfl | exact .inr ⟨hlost, _, rfl⟩
    | ok bytes =>
        unfold Store.readBytes at hbytes
        cases hfind : s.find q.queueFile with
        | error fault => rw [hfind] at hbytes; cases hbytes
        | ok entry =>
            cases entry with
            | directory => rw [hfind] at hbytes; cases hbytes
            | file bytes' modified => exact absurd ⟨bytes', modified, hfind⟩ hlost

/-- Reading a queue file that is there gives the entries that are shown. -/
theorem Shows.perform_entries_of_found (hs : q.Shows s es) (hfound : s.Found q.queueFile)
    (h : Host) : q.entries.perform h s = (.ok es, s) :=
  (hs.perform_entries h).resolve_right fun hlost => hlost.1 hfound

/-- Writing shows the new entries, and the queue file can be written again; or it fails, and
what the queue file holds is as it was. -/
theorem perform_write (q : MergeQueue) (es : List Entry) (h : Host) (s : Store) :
    (∃ t, (q.write es).perform h s = (.ok (), t) ∧ q.Shows t es ∧ t.CanReplace q.queueFile) ∨
    ∃ err t, (q.write es).perform h s = (.error err, t) ∧ s.Keeps q.queueFile t := by
  rcases perform_replaceFile_cases q.queueFile (Json.fileText (queueToJson es)).toUTF8 h s with
    ⟨t, hperform, hhas, hcan, -⟩ | ⟨err, t, hperform, -, htouched⟩
  · exact .inl ⟨t, hperform, .inl ⟨_, hhas, readRecordBytes_queueToJson es⟩, hcan⟩
  · exact .inr ⟨err, t, hperform, htouched.keeps (by simp) (by simp)⟩

theorem perform_write_of_canReplace (hreplace : s.CanReplace q.queueFile) (es : List Entry)
    (h : Host) : ∃ t, (q.write es).perform h s = (.ok (), t) ∧ q.Shows t es ∧
      t.CanReplace q.queueFile := by
  rcases q.perform_write es h s with hok | ⟨err, t, hperform, -⟩
  · exact hok
  · rw [write, writeRecord, perform_replaceFile, hreplace] at hperform
    cases hperform

/-! ### Footprints -/

variable {α : Type} {files locks : List String}

theorem within_entries (q : MergeQueue) : q.entries.Within files locks :=
  (within_readRecord? _ _).bind fun _ => within_pure _

theorem within_write (q : MergeQueue) (es : List Entry) :
    (q.write es).Within [q.queueFile] locks :=
  within_replaceFile _ _

theorem touched_of_write {h : Host} {r : Except Error Unit}
    (hwrite : (q.write es).perform h s = (r, t)) : Store.Touched [s.place q.queueFile] [] s t := by
  have hwithin : (q.write es).Within [q.queueFile] [] := q.within_write es
  have htouched := hwithin h s
  rwa [hwrite] at htouched

theorem within_archiveEntry (q : MergeQueue) (e : Entry) (d : Disposition) :
    (q.archiveEntry e d).Within [q.archive] locks :=
  within_now.bind fun _ => (within_appendFile _ _).bind fun _ => within_pure _

theorem within_locked {body : Action α} (hbody : body.Within files locks)
    (hlock : lockPath q.queueFile ∈ locks) : (q.locked body).Within files locks :=
  hbody.withLock hlock _

end MergeQueue

end Pipewright

/-!
## What an integration says

Nothing is known of an integrator but its answers. An integration meets no
obstacle exactly if the rebase was clean, then the tests passed, and then the
other branch was moved forward (`Integrator.Forwards`); in every other case the
other branch was not moved forward, since a call that does not succeed is the
last one before the end.
-/

namespace Pipewright.Merge

open Pipewright.Action

namespace Integrator

variable {i : Integrator} {path : String}

/-- The calls to the integrator leave what the path holds as it is. -/
structure Keeps (i : Integrator) (path : String) : Prop where
  rebase : ∀ branch onto, (i.rebase branch onto).Keeps path
  test : ∀ branch, (i.test branch).Keeps path
  fastForward : ∀ branch onto, (i.fastForward branch onto).Keeps path
  delete : ∀ branch, (i.delete branch).Keeps path

theorem Keeps.integrate (hi : i.Keeps path) (branch onto : String) :
    (i.integrate branch onto).Keeps path := by
  unfold Integrator.integrate
  refine (hi.rebase branch onto).attempt.bind fun rebased => ?_
  split
  · exact keeps_pure _
  · refine (hi.test branch).attempt.bind fun run => ?_
    split
    · exact keeps_pure _
    · refine (hi.fastForward branch onto).attempt.bind fun moved => ?_
      split
      · exact keeps_pure _
      · exact (hi.delete branch).attempt.bind fun _ => keeps_pure _

/-- The rebase of the branch answers that it was clean, then a run of its tests that they
passed, and then the other branch is moved forward to it. -/
def Forwards (i : Integrator) (branch onto : String) (h : Host) (s : Store) : Prop :=
  ∃ t u v run, (i.rebase branch onto).perform h s = (.ok .clean, t) ∧
    (i.test branch).perform h t = (.ok run, u) ∧ run.passed = true ∧
    (i.fastForward branch onto).perform h u = (.ok (), v)

theorem rebaseObstacle_eq_none {onto : String} {r : Except Error Rebased} :
    rebaseObstacle onto r = none ↔ r = .ok .clean := by
  rcases r with _ | _ | _ <;> simp [rebaseObstacle]

theorem testObstacle_eq_none {r : Except Error TestRun} :
    testObstacle r = none ↔ ∃ run, r = .ok run ∧ run.passed = true := by
  cases r <;> simp [testObstacle]

theorem forwardObstacle_eq_none {r : Except Error Unit} :
    forwardObstacle r = none ↔ r = .ok () := by
  cases r <;> simp [forwardObstacle]

/-- An integration always has an answer, and it meets no obstacle exactly if the other branch
was moved forward. -/
theorem perform_integrate (i : Integrator) (branch onto : String) (h : Host) (s : Store) :
    ∃ r t, (i.integrate branch onto).perform h s = (.ok r, t) ∧
      (r.obstacle = none ↔ i.Forwards branch onto h s) := by
  unfold Integrator.integrate
  rw [perform_bind, perform_attempt]
  rcases hrebase : (i.rebase branch onto).perform h s with ⟨rebased, t⟩
  dsimp only
  cases hrebased : rebaseObstacle onto rebased with
  | some o =>
      refine ⟨_, t, rfl, nofun, ?_⟩
      rintro ⟨_, _, _, _, hclean, -⟩
      obtain ⟨rfl, -⟩ := Prod.mk.inj (hrebase.symm.trans hclean)
      exact absurd (hrebased.symm.trans (rebaseObstacle_eq_none.mpr rfl)) nofun
  | none =>
      obtain rfl := rebaseObstacle_eq_none.mp hrebased
      dsimp only
      rw [perform_bind, perform_attempt]
      rcases htest : (i.test branch).perform h t with ⟨tested, u⟩
      dsimp only
      cases htested : testObstacle tested with
      | some o =>
          refine ⟨_, u, rfl, nofun, ?_⟩
          rintro ⟨_, _, _, run, hclean, hrun, hpassed, -⟩
          obtain ⟨-, rfl⟩ := Prod.mk.inj (hrebase.symm.trans hclean)
          obtain ⟨rfl, -⟩ := Prod.mk.inj (htest.symm.trans hrun)
          exact absurd (htested.symm.trans (testObstacle_eq_none.mpr ⟨run, rfl, hpassed⟩)) nofun
      | none =>
          obtain ⟨run, rfl, hpassed⟩ := testObstacle_eq_none.mp htested
          dsimp only
          rw [perform_bind, perform_attempt]
          rcases hforward : (i.fastForward branch onto).perform h u with ⟨moved, v⟩
          dsimp only
          cases hmoved : forwardObstacle moved with
          | some o =>
              refine ⟨_, v, rfl, nofun, ?_⟩
              rintro ⟨_, _, _, _, hclean, hrun, -, hok⟩
              obtain ⟨-, rfl⟩ := Prod.mk.inj (hrebase.symm.trans hclean)
              obtain ⟨-, rfl⟩ := Prod.mk.inj (htest.symm.trans hrun)
              obtain ⟨rfl, -⟩ := Prod.mk.inj (hforward.symm.trans hok)
              exact absurd (hmoved.symm.trans (forwardObstacle_eq_none.mpr rfl)) nofun
          | none =>
              obtain rfl := forwardObstacle_eq_none.mp hmoved
              dsimp only
              rw [perform_bind, perform_attempt]
              exact ⟨_, _, rfl, fun _ => ⟨t, u, v, run, hrebase, htest, hpassed, hforward⟩,
                fun _ => rfl⟩

/-- An integrator that always answers the same and leaves all files alone. -/
def still (rebased : Rebased) (run : TestRun) : Integrator where
  rebase _ _ := pure rebased
  test _ := pure run
  fastForward _ _ := pure ()
  delete _ := pure ()

theorem keeps_still (rebased : Rebased) (run : TestRun) : (still rebased run).Keeps path :=
  ⟨fun _ _ => keeps_pure _, fun _ => keeps_pure _, fun _ _ => keeps_pure _, fun _ => keeps_pure _⟩

end Integrator

end Pipewright.Merge
