import Mathlib.Logic.Function.Iterate
import Pipewright.Proofs.Merge.Order

/-!
# The stages of processing

The queue is not locked from the beginning of a call of `process` to its end: the
head is claimed under the lock, its branch is integrated without it, the entry is
marked under the lock, the node is moved under the lock of its graph, and the
entry is taken out under the lock of the queue again. In between others can do
what they like. A `Stage` says how far a process has got, and `MergeQueue.next`
goes on to the next one; six of these steps, one right after the other, are
what `process` does (`iterate_next_process`).

What a step does to the entries in the queue, to what the process has in hand and
to the archive is said once (`Worked`), and so is what the other calls do
(`Called`).
-/

namespace Pipewright

open Merge Pipewright.Action

namespace Merge

/-- How far a process has got with the head of the queue. -/
inductive Stage where
  /-- It has not begun. -/
  | idle
  /-- The entry is its own, and the branch is yet to be integrated. -/
  | integrating (e : Entry)
  /-- The integration is over, and the entry is yet to be marked. -/
  | finishing (e : Entry) (i : Integration)
  /-- The entry is marked as merged, and its node is yet to be looked at. -/
  | recording (e : Entry)
  /-- The node is yet to be moved. -/
  | moving (e : Entry)
  /-- The entry is yet to be taken out of the queue. -/
  | removing (e : Entry)
  /-- It has answered. -/
  | done (r : Except Error Outcome)

/-- The entry after its branch was integrated or was not. -/
def Entry.marked (e : Entry) (i : Integration) : Entry :=
  match i.obstacle with
  | none => e.asMerged
  | some o => e.asConflict o

theorem Entry.id_marked (e : Entry) (i : Integration) : (e.marked i).id = e.id := by
  unfold marked
  split <;> rfl

namespace Stage

/-- The entry that the process has claimed and not yet marked. -/
def owned? : Stage → Option Entry
  | integrating e => some e
  | finishing e _ => some e
  | _ => none

def recorded? : Stage → Option Entry
  | recording e => some e
  | moving e => some e
  | removing e => some e
  | _ => none

def afterClaim : Option Claim → Stage
  | none => done (.ok .empty)
  | some (.blocked e) => done (.ok (.blocked e))
  | some (.busy e) => done (.ok (.busy e))
  | some (.integrated e) => recording e
  | some (.own e) => integrating e

def afterMark (e : Entry) (i : Integration) : Stage :=
  match i.obstacle with
  | none => recording e.asMerged
  | some o => done (.ok (.conflict (e.asConflict o) o.files))

def ofAnswer : Except Error Stage → Stage
  | .ok st => st
  | .error err => done (.error err)

theorem owned?_afterMark (e : Entry) (i : Integration) : (afterMark e i).owned? = none := by
  unfold afterMark
  split <;> rfl

/-- What is being recorded after an entry was marked is the entry, and it is marked as merged. -/
theorem recorded?_afterMark {e f : Entry} {i : Integration}
    (h : (afterMark e i).recorded? = some f) : f = e.marked i ∧ f.status = .merged := by
  unfold afterMark at h
  unfold Entry.marked
  split at h
  · cases h
    exact ⟨rfl, rfl⟩
  · cases h

end Stage

end Merge

namespace MergeQueue

variable {q : MergeQueue} {h : Host} {s t : Store} {es es' : List Entry} {e : Entry}
  {i : Integration} {st st' : Stage} {gone : List Archived}

/-! ## Step by step -/

def advance (q : MergeQueue) : Stage → Action Stage
  | .idle => return .afterClaim (← q.claim)
  | .integrating e => return .finishing e (← q.integrator.integrate e.branch q.integrationBranch)
  | .finishing e i => do
    q.update (e.marked i)
    return .afterMark e i
  | .recording e => do
    if (← q.statusOf e.node) ≠ .merged then return .moving e else return .removing e
  | .moving e => do
    let _ ← q.engine.transition q.graph { node := e.node, target := .merged, actor }
    return .removing e
  | .removing e => do
    q.removeMerged e
    return .done (.ok (.merged e))
  | .done r => return .done r

def next (q : MergeQueue) (h : Host) : Stage × Store → Stage × Store
  | (st, s) =>
    let r := (q.advance st).perform h s
    (Stage.ofAnswer r.1, r.2)

theorem next_of_perform {r : Except Error Stage} (hperform : (q.advance st).perform h s = (r, t)) :
    q.next h (st, s) = (Stage.ofAnswer r, t) := by
  rw [next, hperform]

theorem iterate_next_done (r : Except Error Outcome) (h : Host) (s : Store) (n : Nat) :
    (q.next h)^[n] (.done r, s) = (.done r, s) :=
  Function.iterate_fixed rfl n

theorem next_removing (q : MergeQueue) (e : Entry) (h : Host) (s : Store) :
    q.next h (.removing e, s)
      = (.done ((do q.removeMerged e; return .merged e : Action Outcome).perform h s).1,
        ((do q.removeMerged e; return .merged e : Action Outcome).perform h s).2) := by
  rw [next, advance, perform_bind, perform_bind]
  rcases (q.removeMerged e).perform h s with ⟨err | ⟨⟩, t⟩ <;> rfl

theorem iterate_next_recording (q : MergeQueue) (e : Entry) (h : Host) (s : Store) :
    (q.next h)^[3] (.recording e, s)
      = (.done ((q.recordMerged e).perform h s).1, ((q.recordMerged e).perform h s).2) := by
  rw [Function.iterate_succ_apply, recordMerged, perform_bind, bring, perform_bind]
  rcases hstatus : (q.statusOf e.node).perform h s with ⟨err | status, t⟩
  · rw [next_of_perform (show _ = (.error err, t) by rw [advance, perform_bind, hstatus])]
    exact iterate_next_done _ _ _ 2
  · by_cases hmerged : status = .merged
    · have hnext : q.next h (.recording e, s) = (.removing e, t) :=
        next_of_perform (r := .ok (.removing e)) (by
          rw [advance, perform_bind, hstatus]
          dsimp only
          rw [if_neg (not_not_intro hmerged), perform_pure])
      dsimp only
      rw [hnext, if_neg (not_not_intro hmerged), perform_pure, Function.iterate_succ_apply,
        next_removing]
      exact iterate_next_done _ _ _ 1
    · have hnext : q.next h (.recording e, s) = (.moving e, t) :=
        next_of_perform (r := .ok (.moving e)) (by
          rw [advance, perform_bind, hstatus]
          dsimp only
          rw [if_pos hmerged, perform_pure])
      dsimp only
      rw [hnext, if_pos hmerged, perform_bind, Function.iterate_succ_apply]
      rcases hmoved : (q.engine.transition q.graph ⟨e.node, .merged, actor, none⟩).perform h t with
        ⟨err | record, u⟩
      · rw [next_of_perform (show _ = (.error err, u) by rw [advance, perform_bind, hmoved])]
        exact iterate_next_done _ _ _ 1
      · rw [next_of_perform (show _ = (.ok (.removing e), u) by
          rw [advance, perform_bind, hmoved]
          rfl)]
        exact q.next_removing e h u

theorem iterate_next_finishing (q : MergeQueue) (e : Entry) (i : Integration) (h : Host)
    (s : Store) : (q.next h)^[4] (.finishing e i, s)
      = (.done ((q.finish e i).perform h s).1, ((q.finish e i).perform h s).2) := by
  rw [Function.iterate_succ_apply, next, advance, perform_bind, finish, Entry.marked,
    Stage.afterMark]
  cases i.obstacle with
  | none =>
      dsimp only
      rw [finishMerged, perform_bind]
      rcases (q.update e.asMerged).perform h s with ⟨err | ⟨⟩, t⟩
      · exact iterate_next_done _ _ _ 3
      · exact q.iterate_next_recording e.asMerged h t
  | some o =>
      dsimp only
      rw [finishConflict, perform_bind]
      rcases (q.update (e.asConflict o)).perform h s with ⟨err | ⟨⟩, t⟩
      · exact iterate_next_done _ _ _ 3
      · exact iterate_next_done _ _ _ 3

/-- Six steps, one right after the other, are a call of `process`. -/
theorem iterate_next_process (q : MergeQueue) (h : Host) (s : Store) :
    ∃ p t, q.process.perform h s = (.ok p, t) ∧
      (q.next h)^[6] (.idle, s) = (.done p.outcome, t) := by
  rw [Function.iterate_succ_apply, next, advance, perform_bind, process, perform_bind,
    perform_attempt]
  rcases q.claim.perform h s with ⟨err | claim, t⟩
  · exact ⟨_, t, rfl, iterate_next_done _ _ _ 5⟩
  · dsimp only
    rw [perform_pure, Stage.ofAnswer]
    rcases claim with _ | e | e | e | e
    · exact ⟨_, t, rfl, iterate_next_done _ _ _ 5⟩
    · obtain ⟨i, u, hintegrate, -⟩ :=
        q.integrator.perform_integrate e.branch q.integrationBranch h t
      rw [processClaim, perform_bind, hintegrate]
      dsimp only
      rw [perform_bind, perform_attempt]
      refine ⟨_, _, rfl, ?_⟩
      rw [Stage.afterClaim, Function.iterate_succ_apply, next, advance, perform_bind, hintegrate]
      exact q.iterate_next_finishing e i h u
    · rw [processClaim, perform_bind, perform_attempt]
      refine ⟨_, _, rfl, ?_⟩
      rw [Stage.afterClaim, Function.iterate_add_apply (q.next h) 2 3, iterate_next_recording]
      exact iterate_next_done _ _ _ 2
    · exact ⟨_, t, rfl, iterate_next_done _ _ _ 5⟩
    · exact ⟨_, t, rfl, iterate_next_done _ _ _ 5⟩

end MergeQueue

/-! ## What a step does -/

namespace Merge

/-- What a step does to the entries in the queue and to what the process has in hand, and which
entries it archives. -/
inductive Worked (h : Host) (es : List Entry) (st : Stage) :
    List Entry → Stage → List Archived → Prop
  /-- The entries are as they were, and nothing new is taken in hand. -/
  | kept {st' : Stage} (owned : ∀ e, st'.owned? = some e → st.owned? = some e)
      (recorded : ∀ e, st'.recorded? = some e → st.recorded? = some e) : Worked h es st es st' []
  | claimed {head e : Entry} {rest : List Entry} (entries : es = head :: rest)
      (claim : head.claim h = .own e) : Worked h es st (e :: rest) (.integrating e) []
  /-- The head is merged already. -/
  | seen {head : Entry} {rest : List Entry} (entries : es = head :: rest)
      (merged : head.status = .merged) : Worked h es st es (.recording head) []
  | marked {e : Entry} {i : Integration} {es' : List Entry} (owned : st.owned? = some e)
      (replaced : replaceEntry (e.marked i) es = some es') : Worked h es st es' (.afterMark e i) []
  | removed {e : Entry} {r : Except Error Outcome} {gone : List Archived}
      (recorded : st.recorded? = some e)
      (archived : gone = [] ∨ ∃ stamp, gone = [⟨e, stamp, .merged⟩]) :
      Worked h es st (es.filter (·.id ≠ e.id)) (.done r) gone

/-- What the calls other than `process` do to the entries in the queue, and which entries they
archive. -/
inductive Called (h : Host) (es : List Entry) : List Entry → List Archived → Prop
  | kept : Called h es es []
  | added (identity branch node : String) :
      Called h es (es ++ [MergeQueue.newEntry h identity branch node]) []
  | resolved {front back : List Entry} {old : Entry} (entries : es = front ++ old :: back)
      (conflict : old.status = .conflict) : Called h es (front ++ old.asResolved :: back) []
  | skipped {front back : List Entry} {e : Entry} {gone : List Archived}
      (entries : es = front ++ e :: back) (unmerged : e.status ≠ .merged)
      (free : e.isTaken h = false)
      (archived : gone = [] ∨ ∃ stamp, gone = [⟨e, stamp, .abandoned⟩]) :
      Called h es (front ++ back) gone

theorem Worked.over (h : Host) (es : List Entry) (st : Stage) (r : Except Error Outcome) :
    Worked h es st es (.done r) [] :=
  .kept nofun nofun

end Merge

namespace MergeQueue

variable {q : MergeQueue} {h : Host} {s t : Store} {es es' : List Entry} {e : Entry}
  {st st' : Stage} {gone : List Archived} {r : Except Error Stage}

def Archives (q : MergeQueue) (s : Store) (archived : List Archived) : Prop :=
  q.archiveBytes s = (Json.logText Archived.toJson archived).toUTF8

def Files (q : MergeQueue) (s t : Store) (gone : List Archived) : Prop :=
  q.archiveBytes t = q.archiveBytes s ++ (Json.logText Archived.toJson gone).toUTF8

theorem files_nil (hsame : q.archiveBytes t = q.archiveBytes s) : q.Files s t [] := by
  rw [Files, hsame]
  exact ByteArray.append_empty.symm

theorem Files.archives {archived : List Archived} (h : q.Files s t gone)
    (harchive : q.Archives s archived) : q.Archives t (archived ++ gone) := by
  rw [Archives, h, harchive, Json.logText_append, toUTF8_append]

/-- The store after a step or a call shows the entries, and others were archived. -/
structure Leaves (q : MergeQueue) (s t : Store) (es : List Entry) (gone : List Archived) :
    Prop where
  home : t.home = s.home
  shows : q.Shows t es
  files : q.integrator.Keeps q.archive → q.Files s t gone

/-- An entry has not left the queue, or it has and is archived or is not. -/
theorem Left.leaves {rest : List Entry} {a : Archived} {r : Except Error Archived}
    (hleft : q.Left s es rest a (r, t)) (hhome : t.home = s.home) :
    q.Leaves s t es [] ∨ ∃ gone, (gone = [] ∨ gone = [a]) ∧ q.Leaves s t rest gone := by
  rcases hleft.cases with ⟨shows, same, -⟩ | ⟨shows, ⟨grown, -⟩ | ⟨same, -⟩⟩
  · exact .inl ⟨hhome, shows, fun _ => files_nil same⟩
  · refine .inr ⟨[a], .inr rfl, hhome, shows, fun _ => ?_⟩
    rw [Files, Json.logText_singleton]
    exact grown
  · exact .inr ⟨[], .inl rfl, hhome, shows, fun _ => files_nil same⟩

theorem leaves_of_touched {files locks : List (List String)}
    (htouched : Store.Touched files locks s t) (hplace : s.place q.archive ∉ files)
    (hshows : q.Shows t es) : q.Leaves s t es [] :=
  ⟨htouched.home, hshows, fun _ => files_nil (archiveBytes_of_touched htouched hplace)⟩

/-! ## One step of processing -/

theorem Shows.worked_idle (hs : q.Shows s es) (ha : q.Apart s)
    (hperform : (q.advance .idle).perform h s = (r, t)) :
    ∃ es', q.Leaves s t es' [] ∧ Worked h es .idle es' (Stage.ofAnswer r) [] := by
  have hclaimed := hs.perform_claim ha h
  have hwithin := q.within_claim h s
  rw [advance, perform_bind] at hperform
  rcases hclaim : q.claim.perform h s with ⟨claim, u⟩
  rw [hclaim] at hperform hclaimed hwithin
  have hleaves : ∀ {es'}, q.Shows u es' → q.Leaves s u es' [] :=
    leaves_of_touched hwithin (by simpa using ha.archived.1)
  cases hclaimed with
  | refused shows =>
      cases hperform
      exact ⟨es, hleaves shows, .over ..⟩
  | empty shows nothing =>
      cases hperform
      exact ⟨es, hleaves shows, .over ..⟩
  | own entries claim shows ready =>
      cases hperform
      exact ⟨_, hleaves shows, .claimed entries claim⟩
  | @seen head rest _ entries claim shows =>
      cases hperform
      refine ⟨es, hleaves shows, ?_⟩
      cases hc : head.claim h with
      | own e => exact absurd hc (claim e)
      | blocked e => exact .over ..
      | busy e => exact .over ..
      | integrated e =>
          obtain ⟨rfl, hmerged⟩ := status_of_claim hc
          exact .seen entries hmerged

theorem Shows.worked_integrating (hs : q.Shows s es) (hi : q.integrator.Keeps q.queueFile)
    (hperform : (q.advance (.integrating e)).perform h s = (r, t)) :
    q.Leaves s t es [] ∧ Worked h es (.integrating e) es (Stage.ofAnswer r) [] := by
  have hkeeps := hi.integrate e.branch q.integrationBranch h s
  obtain ⟨i, u, hintegrate, -⟩ := q.integrator.perform_integrate e.branch q.integrationBranch h s
  rw [hintegrate] at hkeeps
  rw [advance, perform_bind, hintegrate] at hperform
  cases hperform
  refine ⟨⟨hkeeps.home, hs.of_keeps hkeeps, fun hi => files_nil ?_⟩, .kept (fun _ => id) nofun⟩
  have harchive := hi.integrate e.branch q.integrationBranch h s
  rw [hintegrate] at harchive
  exact harchive.contents

theorem Shows.worked_finishing (hs : q.Shows s es) (ha : q.Apart s) {i : Integration}
    (hperform : (q.advance (.finishing e i)).perform h s = (r, t)) :
    ∃ es', q.Leaves s t es' [] ∧ Worked h es (.finishing e i) es' (Stage.ofAnswer r) [] := by
  have hwithin := q.within_update (e.marked i) h s
  rw [advance, perform_bind] at hperform
  rcases hs.perform_update ha (e.marked i) h with
    ⟨err, u, hupdate, hshows⟩ | ⟨es', u, hreplaced, hupdate, hshows⟩
  all_goals
    rw [hupdate] at hperform hwithin
    cases hperform
    have hleaves := leaves_of_touched hwithin (by simpa using ha.archived.1) hshows
  · exact ⟨es, hleaves, .over ..⟩
  · exact ⟨es', hleaves, .marked rfl hreplaced⟩

theorem Shows.worked_recording (hs : q.Shows s es)
    (hperform : (q.advance (.recording e)).perform h s = (r, t)) :
    q.Leaves s t es [] ∧ Worked h es (.recording e) es (Stage.ofAnswer r) [] := by
  have hleaves : q.Leaves s s es [] := ⟨rfl, hs, fun _ => files_nil rfl⟩
  rw [advance, perform_bind] at hperform
  rcases q.perform_statusOf e.node h s with ⟨err, hstatus⟩ | ⟨p, n, hstatus, -⟩
  all_goals
    rw [hstatus] at hperform
    dsimp only at hperform
  · cases hperform
    exact ⟨hleaves, .over ..⟩
  · split at hperform
    all_goals
      cases hperform
      exact ⟨hleaves, .kept nofun fun _ => id⟩

theorem Shows.worked_moving (hs : q.Shows s es) (ha : q.Apart s)
    (hperform : (q.advance (.moving e)).perform h s = (r, t)) :
    q.Leaves s t es [] ∧ Worked h es (.moving e) es (Stage.ofAnswer r) [] := by
  have hwithin := within_transition q.engine q.graph ⟨e.node, .merged, actor, none⟩ h s
  obtain ⟨-, -, hlog, hgraph, hlock⟩ := ha.queue
  obtain ⟨-, -, hlog', hgraph', -⟩ := ha.archived
  have hshows := hs.of_keeps (hwithin.keeps (by simp [hlog, hgraph]) (by simp [hlock]))
  have hleaves := leaves_of_touched (q := q) hwithin (by simp [hlog', hgraph']) hshows
  rw [advance, perform_bind] at hperform
  rcases hmoved : (q.engine.transition q.graph ⟨e.node, .merged, actor, none⟩).perform h s with
    ⟨err | record, u⟩
  all_goals
    rw [hmoved] at hperform hleaves
    cases hperform
  · exact ⟨hleaves, .over ..⟩
  · exact ⟨hleaves, .kept nofun fun _ => id⟩

theorem Shows.worked_removing (hs : q.Shows s es) (ha : q.Apart s)
    (hperform : (q.advance (.removing e)).perform h s = (r, t)) :
    ∃ es' gone, q.Leaves s t es' gone ∧ Worked h es (.removing e) es' (Stage.ofAnswer r) gone := by
  have hhome := (q.within_removeMerged e h s).home
  obtain ⟨removed, u, hremove, hleft⟩ := hs.perform_removeMerged ha e h
  rw [hremove] at hhome
  rw [advance, perform_bind, hremove] at hperform
  have hover : u = t ∧ ∃ o, Stage.ofAnswer r = .done o := by
    cases removed <;> cases hperform <;> exact ⟨rfl, _, rfl⟩
  obtain ⟨rfl, o, hdone⟩ := hover
  rw [hdone]
  rcases hleft.leaves hhome with hleaves | ⟨gone, hgone, hleaves⟩
  · exact ⟨es, [], hleaves, .over ..⟩
  · exact ⟨_, gone, hleaves, .removed rfl (hgone.imp_right fun heq => ⟨_, heq⟩)⟩

theorem Shows.worked (hs : q.Shows s es) (ha : q.Apart s) (hi : q.integrator.Keeps q.queueFile)
    (hnext : q.next h (st, s) = (st', t)) :
    ∃ es' gone, q.Leaves s t es' gone ∧ Worked h es st es' st' gone := by
  rcases hperform : (q.advance st).perform h s with ⟨r, u⟩
  rw [next_of_perform hperform] at hnext
  cases hnext
  cases st with
  | idle =>
      obtain ⟨es', hworked⟩ := hs.worked_idle ha hperform
      exact ⟨es', [], hworked⟩
  | integrating e => exact ⟨es, [], hs.worked_integrating hi hperform⟩
  | finishing e i =>
      obtain ⟨es', hworked⟩ := hs.worked_finishing ha hperform
      exact ⟨es', [], hworked⟩
  | recording e => exact ⟨es, [], hs.worked_recording hperform⟩
  | moving e => exact ⟨es, [], hs.worked_moving ha hperform⟩
  | removing e => exact hs.worked_removing ha hperform
  | done r =>
      cases hperform
      exact ⟨es, [], ⟨rfl, hs, fun _ => files_nil rfl⟩, .over ..⟩

/-- A head that is not the process's own is seen and left as it is. -/
theorem Shows.perform_claim_of_ready {head : Entry} {rest : List Entry}
    (hs : q.Shows s (head :: rest)) (hready : q.Ready h s) (hother : ∀ e, head.claim h ≠ .own e) :
    q.claim.perform h s = (.ok (some (head.claim h)), s) := by
  rw [claim, hs.perform_locked_of_ready hready]
  dsimp only
  rw [perform_bind, perform_read]
  dsimp only
  rw [show head.claim { h with held := s.place (lockPath q.queueFile) :: h.held } = head.claim h
    from rfl]
  cases hc : head.claim h with
  | own e => exact absurd hc (hother e)
  | integrated e => rfl
  | blocked e => rfl
  | busy e => rfl

/-! ## The other calls -/

theorem Shows.called_enqueue (hs : q.Shows s es) (ha : q.Apart s) (identity branch node : String)
    (h : Host) : ∃ es', q.Leaves s (q.reply h s (.enqueue identity branch node)).2 es' [] ∧
      Called h es es' [] := by
  have henqueued := hs.perform_enqueue ha identity branch node h
  have hwithin := q.within_enqueue identity branch node h s
  obtain ⟨hqueue, -, hlog, hgraph, -⟩ := ha.archived
  dsimp only [reply]
  rcases hperform : (q.enqueue identity branch node).perform h s with ⟨r, t⟩
  rw [hperform] at henqueued hwithin
  have hleaves : ∀ {es'}, q.Shows t es' → q.Leaves s t es' [] :=
    leaves_of_touched hwithin (by simp [hqueue, hlog, hgraph])
  cases henqueued with
  | refused _ shows => exact ⟨es, hleaves shows, .kept⟩
  | moved _ _ _ shows => exact ⟨es, hleaves shows, .kept⟩
  | added _ _ _ _ new entry shows =>
      subst entry
      exact ⟨_, hleaves shows, .added identity branch node⟩

theorem Shows.called_resolve (hs : q.Shows s es) (ha : q.Apart s) (branch : String) (h : Host) :
    ∃ es', q.Leaves s (q.reply h s (.resolve branch)).2 es' [] ∧ Called h es es' [] := by
  have hwithin := q.within_resolve branch h s
  dsimp only [reply]
  rcases hs.perform_resolve ha branch h with
    ⟨err, t, hperform, hshows⟩ | ⟨e, es', t, hfound, hperform, hshows⟩
  all_goals
    rw [hperform] at hwithin ⊢
    have hleaves := leaves_of_touched hwithin (by simpa using ha.archived.1) hshows
  · exact ⟨es, hleaves, .kept⟩
  · obtain ⟨front, old, back, hes, rfl, -, -, hconflict⟩ := resolveEntry_eq_some hfound
    exact ⟨_, hleaves, .resolved hes hconflict⟩

theorem Shows.called_skip (hs : q.Shows s es) (ha : q.Apart s) (branch : String) (h : Host) :
    ∃ es' gone, q.Leaves s (q.reply h s (.skip branch)).2 es' gone ∧ Called h es es' gone := by
  have hhome := (q.within_skip branch h s).home
  dsimp only [reply]
  rcases hs.perform_skip ha branch h with
    ⟨err, t, hperform, hshows, hsame⟩ | ⟨e, rest, hfound, hunmerged, hfree, hleft⟩
  · rw [hperform] at hhome ⊢
    exact ⟨es, [], ⟨hhome, hshows, fun _ => files_nil hsame⟩, .kept⟩
  · obtain ⟨front, back, hes, rfl, -⟩ := takeEntry_eq_some hfound
    rcases hperform : (q.skip branch).perform h s with ⟨r, t⟩
    rw [hperform] at hhome hleft
    rcases hleft.leaves hhome with hleaves | ⟨gone, hgone, hleaves⟩
    · exact ⟨es, [], hleaves, .kept⟩
    · exact ⟨_, gone, hleaves, .skipped hes hunmerged hfree (hgone.imp_right fun heq => ⟨_, heq⟩)⟩

/-- A call other than `process` does one of the things that `Called` lists. -/
theorem Shows.called (hs : q.Shows s es) (ha : q.Apart s) {ask : Ask} (hask : ask ≠ .process)
    (h : Host) : ∃ es' gone, q.Leaves s (q.reply h s ask).2 es' gone ∧ Called h es es' gone := by
  cases ask with
  | enqueue identity branch node =>
      obtain ⟨es', hcalled⟩ := hs.called_enqueue ha identity branch node h
      exact ⟨es', [], hcalled⟩
  | process => exact absurd rfl hask
  | resolve branch =>
      obtain ⟨es', hcalled⟩ := hs.called_resolve ha branch h
      exact ⟨es', [], hcalled⟩
  | skip branch => exact hs.called_skip ha branch h

end MergeQueue

end Pipewright
