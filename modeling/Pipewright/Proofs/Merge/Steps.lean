import Pipewright.Proofs.Merge.QueueFile

/-!
# The steps of the merge queue

What each action on the queue does to the entries that are shown, by its answer.
An action that fails has left the entries as they were, with one exception: an
entry that leaves the queue is taken out of the queue file first and archived
then, and where archiving fails it is in neither file (`Left.lost`).

The steps that move a node of the graph say where in them that happens, so that
what becomes of the graph and of the audit log can be told from the move alone.
-/

namespace Pipewright

open Merge Pipewright.Action

namespace Merge

/-- The bytes of an archived entry in the archive. -/
def Archived.line (a : Archived) : ByteArray := (Json.lineText a.toJson).toUTF8

end Merge

namespace MergeQueue

variable {α : Type} {q : MergeQueue} {s t u : Store} {es es' : List Entry}

def archiveBytes (q : MergeQueue) (s : Store) : ByteArray := s.contents (s.place q.archive)

theorem archiveBytes_of_touched {files locks : List (List String)}
    (h : Store.Touched files locks s t) (hplace : s.place q.archive ∉ files) :
    q.archiveBytes t = q.archiveBytes s := by
  rw [archiveBytes, archiveBytes, Store.place_eq h.home, h.contents hplace]

/-! ## Footprints -/

theorem reads_checkRegistered (q : MergeQueue) (identity : String) :
    (q.checkRegistered identity).Reads := by
  unfold checkRegistered
  split
  · refine (reads_findByName _ _).bind fun found => ?_
    split
    · exact reads_throw _
    · exact reads_pure _
  · exact reads_pure _

/-- Bringing a node to a status writes the audit log and the graph file. -/
theorem within_bring (q : MergeQueue) (node : String) (target : Status) (actor : String) :
    (q.bring node target actor).Within [q.engine.auditLog, q.graph] [lockPath q.graph] := by
  unfold bring statusOf
  refine Within.bind ((within_load q.graph).bind fun p => ?_) fun status => ?_
  · split
    · exact within_pure _
    · exact within_throw _
  · split
    · exact (within_transition _ _ _).bind fun _ => within_pure _
    · exact within_pure _

theorem within_enqueue (q : MergeQueue) (identity branch node : String) :
    (q.enqueue identity branch node).Within [q.queueFile, q.engine.auditLog, q.graph]
      [lockPath q.queueFile, lockPath q.graph] := by
  refine (q.reads_checkRegistered identity).within.bind fun _ => ?_
  refine within_locked (q.within_entries.bind fun entries => ?_) (by simp)
  have hbring : (q.bring node .mergeReady identity).Within
      [q.queueFile, q.engine.auditLog, q.graph] [lockPath q.queueFile, lockPath q.graph] :=
    (q.within_bring node .mergeReady identity).mono (by simp) (by simp)
  have hadd : ∀ e, (do q.write (entries ++ [e]); pure e : Action Entry).Within
      [q.queueFile, q.engine.auditLog, q.graph] [lockPath q.queueFile, lockPath q.graph] :=
    fun e => ((q.within_write _).mono (by simp) (fun _ h => h)).bind fun _ => within_pure _
  have hrest := hbring.bind fun _ => within_read.bind fun host => within_now.bind fun now =>
    hadd ⟨host.fresh.text, identity, branch, node, now.stamp, .queued, [], none, none⟩
  dsimp only
  split
  · exact (within_throw _).bind fun _ => hrest
  · exact hrest

theorem within_claim (q : MergeQueue) :
    q.claim.Within [q.queueFile] [lockPath q.queueFile] := by
  refine within_locked (q.within_entries.bind fun entries => ?_) (List.mem_singleton.mpr rfl)
  split
  · exact within_pure _
  · refine within_read.bind fun host => ?_
    dsimp only
    split
    · exact (q.within_write _).bind fun _ => within_pure _
    · exact within_pure _

theorem within_update (q : MergeQueue) (e : Entry) :
    (q.update e).Within [q.queueFile] [lockPath q.queueFile] := by
  refine within_locked (q.within_entries.bind fun entries => ?_) (List.mem_singleton.mpr rfl)
  split
  · exact q.within_write _
  · exact within_throw _

theorem within_leave (q : MergeQueue) (rest : List Entry) (e : Entry) (d : Disposition)
    {locks : List String} :
    (do q.write rest; q.archiveEntry e d : Action Archived).Within [q.queueFile, q.archive] locks :=
  ((q.within_write rest).mono (by simp) (fun _ h => h)).bind fun _ =>
    (q.within_archiveEntry e d).mono (by simp) (fun _ h => h)

theorem within_removeMerged (q : MergeQueue) (e : Entry) :
    (q.removeMerged e).Within [q.queueFile, q.archive] [lockPath q.queueFile] := by
  refine within_locked (q.within_entries.bind fun entries => ?_) (List.mem_singleton.mpr rfl)
  rw [← bind_assoc]
  exact Within.bind (q.within_leave _ e .merged) fun _ => within_pure _

theorem within_recordMerged (q : MergeQueue) (e : Entry) :
    (q.recordMerged e).Within [q.queueFile, q.archive, q.engine.auditLog, q.graph]
      [lockPath q.queueFile, lockPath q.graph] := by
  refine ((q.within_bring e.node .merged actor).mono (by simp) (by simp)).bind fun _ => ?_
  exact ((q.within_removeMerged e).mono (by simp) (by simp)).bind fun _ => within_pure _

theorem within_finish (q : MergeQueue) (e : Entry) (i : Integration) :
    (q.finish e i).Within [q.queueFile, q.archive, q.engine.auditLog, q.graph]
      [lockPath q.queueFile, lockPath q.graph] := by
  have hupdate : ∀ f, (q.update f).Within [q.queueFile, q.archive, q.engine.auditLog, q.graph]
      [lockPath q.queueFile, lockPath q.graph] :=
    fun f => (q.within_update f).mono (by simp) (by simp)
  unfold finish finishMerged finishConflict
  split
  · exact (hupdate _).bind fun _ => q.within_recordMerged _
  · exact (hupdate _).bind fun _ => within_pure _

theorem within_resolve (q : MergeQueue) (branch : String) :
    (q.resolve branch).Within [q.queueFile] [lockPath q.queueFile] := by
  refine within_locked (q.within_entries.bind fun entries => ?_) (List.mem_singleton.mpr rfl)
  split
  · exact (q.within_write _).bind fun _ => within_pure _
  · exact within_throw _

theorem within_skip (q : MergeQueue) (branch : String) :
    (q.skip branch).Within [q.queueFile, q.archive] [lockPath q.queueFile] := by
  refine within_locked (q.within_entries.bind fun entries => ?_) (List.mem_singleton.mpr rfl)
  split
  · exact within_throw _
  · next e rest _ =>
    have hrest : (do
        if e.isTaken (← read) then throw (.other ("branch '" ++ branch
          ++ "' is being integrated by another process"))
        q.write rest
        q.archiveEntry e .abandoned : Action Archived).Within [q.queueFile, q.archive]
          [lockPath q.queueFile] := by
      refine within_read.bind fun host => ?_
      dsimp only
      split
      · exact (within_throw _).bind fun _ => q.within_leave rest e .abandoned
      · exact q.within_leave rest e .abandoned
    dsimp only
    split
    · exact (within_throw _).bind fun _ => hrest
    · exact hrest

/-! ## Under the lock -/

/-- What is done with the entries under the lock of the queue is not begun, or it is done with
those that are shown. -/
theorem Shows.perform_locked (hs : q.Shows s es) (ha : q.Apart s) (body : List Entry → Action α)
    (h : Host) :
    (∃ err t, (q.locked (q.entries >>= body)).perform h s = (.error err, t) ∧
      Store.Touched [] [s.place (lockPath q.queueFile)] s t ∧ q.Shows t es) ∨
    ∃ u held, Store.Touched [] [s.place (lockPath q.queueFile)] s u ∧ q.Shows u es ∧
      u.Found (lockPath q.queueFile) ∧
      h.held.contains (u.place (lockPath q.queueFile)) = false ∧
      (q.locked (q.entries >>= body)).perform h s
        = (body es).perform { h with held := held } u := by
  have hshows : ∀ {t}, Store.Touched [] [s.place (lockPath q.queueFile)] s t → q.Shows t es :=
    fun ht => hs.of_keeps (ht.keeps (by simp) (by simpa using ha.queue.1))
  rcases withLock_cases q.queueFile q.lockPolicy (q.entries >>= body) h s with
    ⟨err, t, hperform, ht⟩ | ⟨u, held, hu, hfound, hfree, hperform⟩
  · exact .inl ⟨err, t, hperform, ht, hshows ht⟩
  · rw [perform_bind] at hperform
    rcases (hshows hu).perform_entries { h with held := held } with hread | ⟨-, err, hread⟩
    · rw [hread] at hperform
      exact .inr ⟨u, held, hu, hshows hu, hfound, hfree, hperform⟩
    · rw [hread] at hperform
      exact .inl ⟨err, u, hperform, hu, hshows hu⟩

/-- The queue can be locked, read and written by the process. -/
structure Ready (q : MergeQueue) (h : Host) (s : Store) : Prop where
  lock : s.Found (lockPath q.queueFile)
  free : h.held.contains (s.place (lockPath q.queueFile)) = false
  queue : s.Found q.queueFile
  replace : s.CanReplace q.queueFile

theorem Ready.of_keeps {h : Host} (hready : q.Ready h s) (hqueue : s.Keeps q.queueFile t)
    (hlock : s.Keeps (lockPath q.queueFile) t) : q.Ready h t where
  lock := hlock.found hready.lock
  free := by
    rw [Store.place_eq hlock.home]
    exact hready.free
  queue := hqueue.found hready.queue
  replace := Store.canReplace_of_replace (hready.replace .empty default) hqueue.home
    (hqueue.found hready.queue)

/-- Where the queue is ready, what is done with the entries is done under its lock. -/
theorem Shows.perform_locked_of_ready (hs : q.Shows s es) {h : Host} (hready : q.Ready h s)
    (body : List Entry → Action α) :
    (q.locked (q.entries >>= body)).perform h s
      = (body es).perform { h with held := s.place (lockPath q.queueFile) :: h.held } s := by
  rw [locked, perform_withLock hready.lock hready.free, perform_bind,
    hs.perform_entries_of_found hready.queue]

/-! ## Edits -/

/-- An entry is written in its place, or nothing has changed. -/
theorem Shows.perform_update (hs : q.Shows s es) (ha : q.Apart s) (e : Entry) (h : Host) :
    (∃ err t, (q.update e).perform h s = (.error err, t) ∧ q.Shows t es) ∨
    ∃ es' t, replaceEntry e es = some es' ∧ (q.update e).perform h s = (.ok (), t) ∧
      q.Shows t es' := by
  unfold update
  rcases hs.perform_locked ha _ h with ⟨err, t, hperform, -, ht⟩ | ⟨u, held, -, hu, -, -, hperform⟩
  · exact .inl ⟨err, t, hperform, ht⟩
  · rw [hperform]
    cases hreplace : replaceEntry e es with
    | none => exact .inl ⟨_, u, rfl, hu⟩
    | some es' =>
        rcases q.perform_write es' { h with held := held } u with
          ⟨t, hwrite, ht, -⟩ | ⟨err, t, hwrite, hkept⟩
        · exact .inr ⟨es', t, rfl, hwrite, ht⟩
        · exact .inl ⟨err, t, hwrite, hu.of_keeps hkept⟩

/-- Where the queue is ready, an entry that is in it is written in its place. -/
theorem Shows.perform_update_of_ready (hs : q.Shows s es) {h : Host} (hready : q.Ready h s)
    {e : Entry} (hreplace : replaceEntry e es = some es') :
    ∃ t, (q.update e).perform h s = (.ok (), t) ∧ q.Shows t es' := by
  rw [update, hs.perform_locked_of_ready hready]
  rw [hreplace]
  obtain ⟨t, hwrite, ht, -⟩ := perform_write_of_canReplace hready.replace es'
    { h with held := s.place (lockPath q.queueFile) :: h.held }
  exact ⟨t, hwrite, ht⟩

/-- A conflict is resolved in its place, or nothing has changed. -/
theorem Shows.perform_resolve (hs : q.Shows s es) (ha : q.Apart s) (branch : String) (h : Host) :
    (∃ err t, (q.resolve branch).perform h s = (.error err, t) ∧ q.Shows t es) ∨
    ∃ e es' t, resolveEntry branch es = some (e, es') ∧
      (q.resolve branch).perform h s = (.ok e, t) ∧ q.Shows t es' := by
  unfold resolve
  rcases hs.perform_locked ha _ h with ⟨err, t, hperform, -, ht⟩ | ⟨u, held, -, hu, -, -, hperform⟩
  · exact .inl ⟨err, t, hperform, ht⟩
  · rw [hperform]
    cases hresolve : resolveEntry branch es with
    | none => exact .inl ⟨_, u, rfl, hu⟩
    | some found =>
        obtain ⟨e, es'⟩ := found
        dsimp only
        rw [perform_bind]
        rcases q.perform_write es' { h with held := held } u with
          ⟨t, hwrite, ht, -⟩ | ⟨err, t, hwrite, hkept⟩
        · rw [hwrite]
          exact .inr ⟨e, es', t, rfl, rfl, ht⟩
        · rw [hwrite]
          exact .inl ⟨err, t, rfl, hu.of_keeps hkept⟩

/-! ## Leaving the queue -/

/-- How an entry leaves the queue: `es` is shown before and `rest` is what is left, and `a`
is what is archived. -/
inductive Left (q : MergeQueue) (s : Store) (es rest : List Entry) (a : Archived) :
    Except Error Archived × Store → Prop
  /-- It has not left. -/
  | kept {err : Error} {t : Store} (shows : q.Shows t es)
      (archive : q.archiveBytes t = q.archiveBytes s) : Left q s es rest a (.error err, t)
  /-- It has left the queue and is not archived. -/
  | lost {fault : FileFault} {t : Store} (shows : q.Shows t rest)
      (archive : q.archiveBytes t = q.archiveBytes s) : Left q s es rest a (.error (.file fault), t)
  | done {t : Store} (shows : q.Shows t rest)
      (archive : q.archiveBytes t = q.archiveBytes s ++ a.line) : Left q s es rest a (.ok a, t)

theorem Left.of_archiveBytes {rest : List Entry} {a : Archived} {r : Except Error Archived × Store}
    (h : q.Left u es rest a r) (hsame : q.archiveBytes u = q.archiveBytes s) :
    q.Left s es rest a r := by
  cases h with
  | kept shows archive => exact .kept shows (archive.trans hsame)
  | lost shows archive => exact .lost shows (archive.trans hsame)
  | done shows archive => exact .done shows (by rw [archive, hsame])

/-- Archiving adds a line to the archive, or it fails and the archive is as it was; the queue
file is not concerned. -/
theorem Shows.perform_archiveEntry (hs : q.Shows s es) (ha : q.Apart s) (e : Entry)
    (d : Disposition) (h : Host) :
    (∃ t, (q.archiveEntry e d).perform h s = (.ok ⟨e, (h.clock 0).stamp, d⟩, t) ∧ q.Shows t es ∧
      q.archiveBytes t = q.archiveBytes s ++ (⟨e, (h.clock 0).stamp, d⟩ : Archived).line) ∨
    ∃ fault t, (q.archiveEntry e d).perform h s = (.error (.file fault), t) ∧ q.Shows t es ∧
      q.archiveBytes t = q.archiveBytes s := by
  have hshows : ∀ {t}, Store.Touched [s.place q.archive] [] s t → q.Shows t es :=
    fun ht => hs.of_keeps (ht.keeps (by simpa using ha.queue.2.1) (by simp))
  have hspec := s.append_spec q.archive
    (Json.lineText (Archived.toJson ⟨e, (h.clock 0).stamp, d⟩)).toUTF8 (h.clock 0)
  have htouched := hshows (hspec.touched [])
  rw [archiveEntry, perform_bind, perform_now]
  dsimp only
  rw [perform_bind, appendRecord, perform_appendFile]
  rcases happend : s.append q.archive
      (Json.lineText (Archived.toJson ⟨e, (h.clock 0).stamp, d⟩)).toUTF8 (h.clock 0) with
    ⟨fault | ⟨⟩, t⟩ <;> rw [happend] at hspec htouched
  · have hgrown := (hspec (s.place q.archive)).2 fault rfl
    exact .inr ⟨fault, t, rfl, htouched, archiveBytes_of_touched hgrown.touched (by simp)⟩
  · have hwritten := (hspec (s.place q.archive)).1 rfl
    refine .inl ⟨t, rfl, htouched, ?_⟩
    rw [archiveBytes, Store.place_eq hwritten.home,
      hwritten.contents_of_mem (List.mem_singleton.mpr rfl), archiveBytes]
    rfl

/-- An entry leaves the queue: first the rest is written, and then the entry is archived. -/
theorem Shows.perform_leave (hs : q.Shows s es) (ha : q.Apart s) (rest : List Entry) (e : Entry)
    (d : Disposition) (h : Host) :
    q.Left s es rest ⟨e, (h.clock 0).stamp, d⟩
      ((do q.write rest; q.archiveEntry e d : Action Archived).perform h s) := by
  rw [perform_bind]
  rcases q.perform_write rest h s with ⟨t, hwrite, ht, -⟩ | ⟨err, t, hwrite, hkept⟩
  · have htouched := touched_of_write hwrite
    rw [hwrite]
    have harchive := archiveBytes_of_touched (q := q) htouched
      (by simpa using Ne.symm ha.queue.2.1)
    dsimp only
    rcases ht.perform_archiveEntry (ha.of_home htouched.home) e d h with
      ⟨u, hperform, hu, hbytes⟩ | ⟨fault, u, hperform, hu, hbytes⟩
    · rw [hperform]
      exact .done hu (by rw [hbytes, harchive])
    · rw [hperform]
      exact .lost hu (hbytes.trans harchive)
  · rw [hwrite]
    exact .kept (hs.of_keeps hkept)
      (archiveBytes_of_touched (touched_of_write hwrite) (by simpa using Ne.symm ha.queue.2.1))

/-- An entry is skipped, if it is there and neither merged nor being worked on. -/
theorem Shows.perform_skip (hs : q.Shows s es) (ha : q.Apart s) (branch : String) (h : Host) :
    (∃ err t, (q.skip branch).perform h s = (.error err, t) ∧ q.Shows t es ∧
      q.archiveBytes t = q.archiveBytes s) ∨
    ∃ e rest, takeEntry branch es = some (e, rest) ∧ e.status ≠ .merged ∧ e.isTaken h = false ∧
      q.Left s es rest ⟨e, (h.clock 0).stamp, .abandoned⟩ ((q.skip branch).perform h s) := by
  unfold skip
  have hsame : ∀ {t}, Store.Touched [] [s.place (lockPath q.queueFile)] s t →
      q.archiveBytes t = q.archiveBytes s := fun ht => archiveBytes_of_touched ht (by simp)
  rcases hs.perform_locked ha _ h with
    ⟨err, t, hperform, ht, hshows⟩ | ⟨u, held, hu, hshows, -, -, hperform⟩
  · exact .inl ⟨err, t, hperform, hshows, hsame ht⟩
  · rw [hperform]
    cases htake : takeEntry branch es with
    | none => exact .inl ⟨_, u, rfl, hshows, hsame hu⟩
    | some found =>
        obtain ⟨e, rest⟩ := found
        dsimp only
        by_cases hmerged : e.status = .merged
        · rw [if_pos hmerged]
          exact .inl ⟨_, u, rfl, hshows, hsame hu⟩
        · rw [if_neg hmerged]
          change (∃ err t, ((if e.isTaken h then _ else _ : Action Archived)).perform _ u = _ ∧ _) ∨
            ∃ e' rest', _ ∧ _ ∧ _ ∧ q.Left s es rest' _
              (((if e.isTaken h then _ else _ : Action Archived)).perform _ u)
          by_cases htaken : e.isTaken h
          · rw [if_pos htaken]
            exact .inl ⟨_, u, rfl, hshows, hsame hu⟩
          · rw [if_neg htaken]
            refine .inr ⟨e, rest, rfl, hmerged, Bool.eq_false_iff.mpr htaken, ?_⟩
            have hleft := hshows.perform_leave (ha.of_home hu.home) rest e .abandoned
              { h with held := held }
            exact hleft.of_archiveBytes (hsame hu)

theorem Shows.perform_removeMerged (hs : q.Shows s es) (ha : q.Apart s) (e : Entry) (h : Host) :
    ∃ r t, (q.removeMerged e).perform h s = (r.map fun _ => (), t) ∧
      q.Left s es (es.filter (·.id ≠ e.id)) ⟨e, (h.clock 0).stamp, .merged⟩ (r, t) := by
  unfold removeMerged
  have hsame : ∀ {t}, Store.Touched [] [s.place (lockPath q.queueFile)] s t →
      q.archiveBytes t = q.archiveBytes s := fun ht => archiveBytes_of_touched ht (by simp)
  rcases hs.perform_locked ha _ h with
    ⟨err, t, hperform, ht, hshows⟩ | ⟨u, held, hu, hshows, -, -, hperform⟩
  · exact ⟨.error err, t, hperform, .kept hshows (hsame ht)⟩
  · have hleft := (hshows.perform_leave (ha.of_home hu.home) (es.filter (·.id ≠ e.id)) e .merged
      { h with held := held }).of_archiveBytes (hsame hu)
    rcases hleave : (do q.write (es.filter (·.id ≠ e.id)); q.archiveEntry e .merged :
        Action Archived).perform { h with held := held } u with ⟨r, t⟩
    rw [hleave] at hleft
    refine ⟨r, t, ?_, hleft⟩
    rw [hperform, ← bind_assoc, perform_bind, hleave]
    cases r <;> rfl

/-! ## Moving nodes -/

theorem Apart.keeps_bring (ha : q.Apart s) (node : String) (target : Status) (actor : String)
    (h : Host) : s.Keeps q.queueFile ((q.bring node target actor).perform h s).2 := by
  obtain ⟨-, -, hlog, hgraph, hlock⟩ := ha.queue
  exact (q.within_bring node target actor h s).keeps (by simp [hlog, hgraph]) (by simp [hlock])

/-- How the merge of an entry is recorded: its node is moved, and then the entry leaves the
queue. -/
inductive Recorded (q : MergeQueue) (h : Host) (s : Store) (es : List Entry) (e : Entry) :
    Except Error Outcome × Store → Prop
  | unmoved {err : Error} {t : Store}
      (brought : (q.bring e.node .merged actor).perform h s = (.error err, t))
      (shows : q.Shows t es) : Recorded q h s es e (.error err, t)
  | moved {v t : Store} {r : Except Error Archived}
      (brought : (q.bring e.node .merged actor).perform h s = (.ok (), v))
      (removed : (q.removeMerged e).perform h v = (r.map fun _ => (), t))
      (left : q.Left v es (es.filter (·.id ≠ e.id)) ⟨e, (h.clock 0).stamp, .merged⟩ (r, t)) :
      Recorded q h s es e (r.map fun _ => .merged e, t)

theorem Shows.perform_recordMerged (hs : q.Shows s es) (ha : q.Apart s) (e : Entry) (h : Host) :
    q.Recorded h s es e ((q.recordMerged e).perform h s) := by
  have hkeeps := ha.keeps_bring e.node .merged actor h
  rw [recordMerged, perform_bind]
  rcases hbring : (q.bring e.node .merged actor).perform h s with ⟨err | ⟨⟩, v⟩ <;>
    rw [hbring] at hkeeps
  · exact .unmoved hbring (hs.of_keeps hkeeps)
  · obtain ⟨r, t, hperform, hleft⟩ :=
      (hs.of_keeps hkeeps).perform_removeMerged (ha.of_home hkeeps.home) e h
    dsimp only
    rw [perform_bind, hperform]
    have hrecorded := Recorded.moved hbring hperform hleft
    cases r <;> exact hrecorded

/-- A merged entry has not left the queue, or it has left as `Left` says. -/
theorem Recorded.left {h : Host} {e : Entry} {r : Except Error Outcome}
    (hr : q.Recorded h s es e (r, t)) (ha : q.Apart s) :
    ∃ r', r = r'.map (fun _ => .merged e) ∧
      q.Left s es (es.filter (·.id ≠ e.id)) ⟨e, (h.clock 0).stamp, .merged⟩ (r', t) := by
  have hbring := q.within_bring e.node .merged actor h s
  obtain ⟨-, -, hlog, hgraph, -⟩ := ha.archived
  have harchive := archiveBytes_of_touched (q := q) hbring (by simp [hlog, hgraph])
  cases hr with
  | unmoved brought shows =>
      rw [brought] at harchive
      exact ⟨.error _, rfl, .kept shows harchive⟩
  | moved brought _ left =>
      rw [brought] at harchive
      exact ⟨_, rfl, left.of_archiveBytes harchive⟩

/-! ## Asking for a merge -/

def newEntry (h : Host) (identity branch node : String) : Entry where
  id := h.fresh.text
  identityName := identity
  branch := branch
  node := node
  requestedAt := (h.clock 0).stamp
  status := .queued

/-- How a branch is put in the queue: its node is moved under the lock, and then the entry is
written at the end. -/
inductive Enqueued (q : MergeQueue) (h : Host) (identity branch node : String) (s : Store)
    (es : List Entry) : Except Error Entry × Store → Prop
  | refused {err : Error} {t : Store}
      (touched : Store.Touched [] [s.place (lockPath q.queueFile)] s t) (shows : q.Shows t es) :
      Enqueued q h identity branch node s es (.error err, t)
  | moved {u v t : Store} {held : List (List String)} {r : Except Error Unit} {err : Error}
      (locked : Store.Touched [] [s.place (lockPath q.queueFile)] s u)
      (brought : (q.bring node .mergeReady identity).perform { h with held := held } u = (r, v))
      (touched : Store.Touched [v.place q.queueFile] [] v t) (shows : q.Shows t es) :
      Enqueued q h identity branch node s es (.error err, t)
  | added {u v t : Store} {held : List (List String)} {e : Entry}
      (locked : Store.Touched [] [s.place (lockPath q.queueFile)] s u)
      (found : u.Found (lockPath q.queueFile))
      (brought : (q.bring node .mergeReady identity).perform { h with held := held } u
          = (.ok (), v))
      (touched : Store.Touched [v.place q.queueFile] [] v t)
      (new : ∀ f ∈ es, f.branch ≠ branch)
      (entry : e = newEntry h identity branch node)
      (shows : q.Shows t (es ++ [e])) (replace : t.CanReplace q.queueFile) :
          Enqueued q h identity branch node s es (.ok e, t)

theorem Shows.perform_enqueue (hs : q.Shows s es) (ha : q.Apart s) (identity branch node : String)
    (h : Host) : q.Enqueued h identity branch node s es
      ((q.enqueue identity branch node).perform h s) := by
  have hregistry : (q.checkRegistered identity).Within [] [lockPath q.queueFile] :=
    (q.reads_checkRegistered identity).within
  have htouched := hregistry h s
  rw [MergeQueue.enqueue, perform_bind]
  rcases hcheck : (q.checkRegistered identity).perform h s with ⟨err | ⟨⟩, s'⟩
  all_goals
    rw [hcheck] at htouched
    have hs' := hs.of_keeps (htouched.keeps (by simp) (by simpa using ha.queue.1))
    have ha' := ha.of_home htouched.home
  · exact .refused htouched hs'
  · have hlockPlace := Store.place_eq htouched.home (lockPath q.queueFile)
    dsimp only
    rcases hs'.perform_locked ha' _ h with
      ⟨err, t, hperform, ht, hshows⟩ | ⟨u, held, hu, hshows, hfound, -, hperform⟩
    · rw [hlockPlace] at ht
      rw [hperform]
      exact .refused (htouched.trans ht) hshows
    · rw [hlockPlace] at hu
      have hlocked := htouched.trans hu
      have hu' := ha.of_home hlocked.home
      have hkeeps := hu'.keeps_bring node .mergeReady identity { h with held := held }
      rw [hperform]
      by_cases hany : es.any (·.branch = branch)
      · rw [if_pos hany]
        exact .refused hlocked hshows
      · rw [if_neg hany]
        have hnew : ∀ f ∈ es, f.branch ≠ branch := by
          intro f hf heq
          exact hany (List.any_eq_true.mpr ⟨f, hf, by simpa using heq⟩)
        rw [perform_bind]
        rcases hbring : (q.bring node .mergeReady identity).perform { h with held := held } u with
          ⟨err | ⟨⟩, v⟩ <;> rw [hbring] at hkeeps
        · exact .moved hlocked hbring (.refl _ _ v) (hshows.of_keeps hkeeps)
        · have hv := hshows.of_keeps hkeeps
          dsimp only
          rw [perform_bind, perform_read]
          dsimp only
          rw [perform_bind, perform_now]
          dsimp only
          rw [perform_bind]
          rcases q.perform_write (es ++ [newEntry h identity branch node])
            { h with held := held } v with ⟨t, hwrite, ht, hreplace⟩ | ⟨err, t, hwrite, hkept⟩
          · have hwrites := touched_of_write hwrite
            unfold newEntry at hwrite
            rw [hwrite]
            exact .added hlocked hfound hbring hwrites hnew rfl ht hreplace
          · have hwrites := touched_of_write hwrite
            unfold newEntry at hwrite
            rw [hwrite]
            exact .moved hlocked hbring hwrites (hv.of_keeps hkept)

/-! ## Merging -/

inductive Claimed (q : MergeQueue) (h : Host) (s : Store) (es : List Entry) :
    Except Error (Option Claim) × Store → Prop
  | refused {err : Error} {t : Store} (shows : q.Shows t es) : Claimed q h s es (.error err, t)
  | empty {t : Store} (shows : q.Shows t es) (nothing : es = []) : Claimed q h s es (.ok none, t)
  /-- The head is the process's own from now on. -/
  | own {head e : Entry} {rest : List Entry} {t : Store} (entries : es = head :: rest)
      (claim : head.claim h = .own e) (shows : q.Shows t (e :: rest)) (ready : q.Ready h t) :
      Claimed q h s es (.ok (some (.own e)), t)
  | seen {head : Entry} {rest : List Entry} {t : Store} (entries : es = head :: rest)
      (claim : ∀ e, head.claim h ≠ .own e) (shows : q.Shows t es) :
      Claimed q h s es (.ok (some (head.claim h)), t)

theorem Shows.perform_claim (hs : q.Shows s es) (ha : q.Apart s) (h : Host) :
    q.Claimed h s es (q.claim.perform h s) := by
  unfold MergeQueue.claim
  rcases hs.perform_locked ha _ h with
    ⟨err, t, hperform, -, hshows⟩ | ⟨u, held, hu, hshows, hfound, hfree, hperform⟩
  · rw [hperform]
    exact .refused hshows
  · rw [hperform]
    cases es with
    | nil => exact .empty hshows rfl
    | cons head rest =>
        have hclaim : head.claim { h with held := held } = head.claim h := rfl
        have hseen : ∀ {c}, head.claim h = c → (∀ e, c ≠ .own e) →
            q.Claimed h s (head :: rest) (.ok (some c), u) := by
          rintro c rfl hne
          exact .seen rfl hne hshows
        dsimp only
        rw [perform_bind, perform_read]
        dsimp only
        rw [hclaim]
        cases hc : head.claim h with
        | own e =>
            dsimp only
            rw [perform_bind]
            rcases q.perform_write (e :: rest) { h with held := held } u with
              ⟨t, hwrite, ht, hreplace⟩ | ⟨err, t, hwrite, hkept⟩
            · have hwrites := touched_of_write hwrite
              rw [hwrite]
              have hlock : t.Found (lockPath q.queueFile) :=
                hwrites.found hfound (by simpa using (ha.of_home hu.home).lock.1)
              refine .own rfl hc ht ⟨hlock, ?_, ht.found (by simp), hreplace⟩
              rw [Store.place_eq hwrites.home]
              exact hfree
            · rw [hwrite]
              exact .refused (hshows.of_keeps hkept)
        | integrated e => exact hseen hc nofun
        | blocked e => exact hseen hc nofun
        | busy e => exact hseen hc nofun

/-- What follows from an integration of the head: it is marked, and if it is merged that is
recorded. -/
inductive Finished (q : MergeQueue) (h : Host) (s : Store) (e : Entry) (rest : List Entry)
    (i : Integration) : Except Error Outcome × Store → Prop
  | unmarked {f : Entry} {err : Error} {t : Store} (id : f.id = e.id)
      (failed : (q.update f).perform h s = (.error err, t)) (shows : q.Shows t (e :: rest)) :
      Finished q h s e rest i (.error err, t)
  | held {o : Obstacle} {t : Store} (obstacle : i.obstacle = some o)
      (marked : (q.update (e.asConflict o)).perform h s = (.ok (), t))
      (shows : q.Shows t (e.asConflict o :: rest)) :
      Finished q h s e rest i (.ok (.conflict (e.asConflict o) o.files), t)
  | merged {v : Store} {r : Except Error Outcome × Store} (clear : i.obstacle = none)
      (marked : (q.update e.asMerged).perform h s = (.ok (), v))
      (shows : q.Shows v (e.asMerged :: rest))
      (perform : (q.recordMerged e.asMerged).perform h v = r)
      (recorded : q.Recorded h v (e.asMerged :: rest) e.asMerged r) : Finished q h s e rest i r

theorem replaceEntry_head {e f : Entry} (hid : f.id = e.id) (rest : List Entry) :
    replaceEntry f (e :: rest) = some (f :: rest) := by
  rw [replaceEntry, if_pos hid.symm]

theorem Shows.perform_finish {e : Entry} {rest : List Entry} (hs : q.Shows s (e :: rest))
    (ha : q.Apart s) (i : Integration) (h : Host) :
    q.Finished h s e rest i ((q.finish e i).perform h s) := by
  unfold MergeQueue.finish
  split
  · next hclear =>
    have hupdate := q.within_update e.asMerged h s
    rw [finishMerged, perform_bind]
    rcases hs.perform_update ha e.asMerged h with
      ⟨err, t, hperform, ht⟩ | ⟨es', v, hes, hperform, hv⟩
    · rw [hperform]
      exact .unmarked (show e.asMerged.id = e.id from rfl) hperform ht
    · rw [replaceEntry_head (show e.asMerged.id = e.id from rfl)] at hes
      obtain rfl := Option.some.inj hes
      rw [hperform] at hupdate ⊢
      exact .merged hclear hperform hv rfl (hv.perform_recordMerged (ha.of_home hupdate.home) _ h)
  · next o hobstacle =>
    rw [finishConflict, perform_bind]
    rcases hs.perform_update ha (e.asConflict o) h with
      ⟨err, t, hperform, ht⟩ | ⟨es', v, hes, hperform, hv⟩
    · rw [hperform]
      exact .unmarked (show (e.asConflict o).id = e.id from rfl) hperform ht
    · rw [replaceEntry_head (show (e.asConflict o).id = e.id from rfl)] at hes
      obtain rfl := Option.some.inj hes
      rw [hperform]
      exact .held hobstacle hperform hv

/-- How the head of the queue is processed. -/
inductive Processed (q : MergeQueue) (h : Host) (s : Store) (es : List Entry) :
    Processing × Store → Prop
  | refused {err : Error} {t : Store} (claimed : q.claim.perform h s = (.error err, t))
      (shows : q.Shows t es) : Processed q h s es (⟨[], .error err⟩, t)
  /-- There is nothing to do, or the head is held or in other hands. -/
  | waiting {claim : Option Claim} {o : Outcome} {t : Store}
      (claimed : q.claim.perform h s = (.ok claim, t)) (free : ∀ e, claim ≠ some (.own e))
      (shows : q.Shows t es) (outcome : ∀ e, o ≠ .merged e) : Processed q h s es (⟨[], .ok o⟩, t)
  /-- The head was merged before, and that is recorded. -/
  | recorded {head : Entry} {rest : List Entry} {u t : Store} {r : Except Error Outcome}
      (entries : es = head :: rest) (merged : head.status = .merged)
      (claimed : q.claim.perform h s = (.ok (some (.integrated head)), u)) (shows : q.Shows u es)
      (performed : (q.recordMerged head).perform h u = (r, t))
      (recorded : q.Recorded h u es head (r, t)) : Processed q h s es (⟨[], r⟩, t)
  /-- The head is claimed and integrated. -/
  | integrated {head e : Entry} {rest : List Entry} {v u t : Store} {i : Integration}
      {r : Except Error Outcome} (entries : es = head :: rest) (claim : head.claim h = .own e)
      (claimed : q.claim.perform h s = (.ok (some (.own e)), v)) (ready : q.Ready h v)
      (integrate : (q.integrator.integrate e.branch q.integrationBranch).perform h v = (.ok i, u))
      (clear : i.obstacle = none ↔ q.integrator.Forwards e.branch q.integrationBranch h v)
      (shows : q.Shows u (e :: rest)) (performed : (q.finish e i).perform h u = (r, t))
      (finished : q.Finished h u e rest i (r, t)) : Processed q h s es (⟨i.calls, r⟩, t)

theorem status_of_claim {e f : Entry} {h : Host} (hclaim : e.claim h = .integrated f) :
    e = f ∧ e.status = .merged := by
  unfold Entry.claim at hclaim
  split at hclaim
  · cases hclaim
  · next hstatus => exact ⟨Claim.integrated.inj hclaim, hstatus⟩
  · split at hclaim <;> cases hclaim
  · cases hclaim

theorem Shows.perform_process (hs : q.Shows s es) (ha : q.Apart s)
    (hi : q.integrator.Keeps q.queueFile) (h : Host) :
    ∃ p t, q.process.perform h s = (.ok p, t) ∧ q.Processed h s es (p, t) := by
  have hclaimed := hs.perform_claim ha h
  rw [MergeQueue.process, perform_bind, perform_attempt]
  rcases hclaim : q.claim.perform h s with ⟨c, t⟩
  rw [hclaim] at hclaimed
  have ht : t.home = s.home := by
    have hwithin := (q.within_claim h s).home
    rwa [hclaim] at hwithin
  dsimp only
  cases hclaimed with
  | refused shows => exact ⟨_, _, rfl, .refused hclaim shows⟩
  | empty shows hnil => exact ⟨_, _, rfl, .waiting hclaim nofun shows nofun⟩
  | seen entries hno shows =>
      rename_i head rest
      dsimp only
      cases hc : head.claim h with
      | own e => exact absurd hc (hno e)
      | blocked e =>
          rw [hc] at hclaim
          exact ⟨_, _, rfl, .waiting hclaim nofun shows nofun⟩
      | busy e =>
          rw [hc] at hclaim
          exact ⟨_, _, rfl, .waiting hclaim nofun shows nofun⟩
      | integrated e =>
          obtain ⟨rfl, hmerged⟩ := status_of_claim hc
          rw [hc] at hclaim
          have hrecorded := shows.perform_recordMerged (ha.of_home ht) head h
          rcases hperform : (q.recordMerged head).perform h t with ⟨r, u⟩
          rw [hperform] at hrecorded
          rw [processClaim, perform_bind, perform_attempt, hperform]
          exact ⟨_, _, rfl, .recorded entries hmerged hclaim shows hperform hrecorded⟩
  | own entries hown shows ready =>
      rename_i head e rest
      obtain ⟨i, u, hintegrate, hclear⟩ :=
        q.integrator.perform_integrate e.branch q.integrationBranch h t
      have hkeeps := hi.integrate e.branch q.integrationBranch h t
      rw [hintegrate] at hkeeps
      have hshows := shows.of_keeps hkeeps
      have hfinished := hshows.perform_finish (ha.of_home (hkeeps.home.trans ht)) i h
      rcases hperform : (q.finish e i).perform h u with ⟨r, v⟩
      rw [hperform] at hfinished
      dsimp only
      rw [processClaim, perform_bind, hintegrate]
      dsimp only
      rw [perform_bind, perform_attempt, hperform]
      exact ⟨_, _, rfl, .integrated entries hown hclaim ready hintegrate hclear hshows
        hperform hfinished⟩

end MergeQueue

end Pipewright
