import Mathlib.Data.List.Nodup
import Pipewright.Proofs.Lifecycle.Mergeable
import Pipewright.Proofs.Merge.Moves

/-!
# What an unhindered queue does

Where all files of a queue are there and can be written and its locks are free
(`Unhindered`), the calls do what they are for: a branch is put in the queue and
its node becomes ready for merging (`Primed.enqueue`), a head that meets no obstacle
is merged and its node with it (`Primed.process`), and any other is held
(`Primed.stopped`).

The queue takes several branches for one node. When the first of them is merged
the others wait with a node that is merged (`overtaken_acceptedStore`).
-/

namespace Pipewright

open Merge Pipewright.Action

/-- The entry while a process is at work on it. -/
def Merge.Entry.asClaimed (e : Entry) (h : Host) : Entry :=
  { e with status := .processing, processor := some h.pid }

namespace MergeQueue

variable {q : MergeQueue} {h : Host} {s t u : Store} {es es' : List Entry} {p : Pipeline}
  {cs : List Turn} {n : Pipeline.Node} {node : String} {status target : Status}

/-! ## Unhindered queues -/

/-- The files and the lock files of the queue are there, and the queue file and the graph file
can be replaced. -/
structure Unhindered (q : MergeQueue) (s : Store) : Prop where
  apart : q.Apart s
  found : ∀ path ∈ q.files, s.Found path
  replaceQueue : s.CanReplace q.queueFile
  replaceGraph : s.CanReplace q.graph

theorem Unhindered.of_found (hu : q.Unhindered s) (hhome : t.home = s.home)
    (hfound : ∀ path ∈ q.files, t.Found path) : q.Unhindered t where
  apart := hu.apart.of_home hhome
  found := hfound
  replaceQueue := Store.canReplace_of_replace (hu.replaceQueue .empty default) hhome
    (hfound _ (by simp [files]))
  replaceGraph := Store.canReplace_of_replace (hu.replaceGraph .empty default) hhome
    (hfound _ (by simp [files]))

/-- A queue is still unhindered after some of its files were written, if these are found. -/
theorem Unhindered.of_touched {written locks : List String} (hu : q.Unhindered s)
    (ht : Store.Touched (written.map s.place) (locks.map s.place) s t) (hsub : written ⊆ q.files)
    (hfound : ∀ path ∈ written, t.Found path) : q.Unhindered t := by
  refine hu.of_found ht.home fun path hpath => ?_
  by_cases hwritten : path ∈ written
  · exact hfound path hwritten
  · refine ht.found (hu.found path hpath) fun hplace => hwritten ?_
    obtain ⟨other, hother, heq⟩ := List.mem_map.mp hplace
    rwa [← List.inj_on_of_nodup_map hu.apart (hsub hother) hpath heq]

theorem Unhindered.of_keeps (hu : q.Unhindered s) (hkeeps : ∀ path ∈ q.files, s.Keeps path t) :
    q.Unhindered t :=
  hu.of_found (hkeeps q.graph (by simp [files])).home fun path hpath =>
    (hkeeps path hpath).found (hu.found path hpath)

theorem Unhindered.ready (hu : q.Unhindered s) (hheld : h.held = []) : q.Ready h s where
  lock := hu.found _ (by simp [files])
  free := by simp [hheld]
  queue := hu.found _ (by simp [files])
  replace := hu.replaceQueue

theorem found_of_write (hwrite : (q.write es).perform h s = (.ok (), t)) : t.Found q.queueFile := by
  rw [write, writeRecord, perform_replaceFile] at hwrite
  rcases hreplace : s.replace q.queueFile (Json.fileText (queueToJson es)).toUTF8 (h.clock 0) with
    ⟨fault | ⟨⟩, u⟩ <;> rw [hreplace] at hwrite
  · cases hwrite
  · cases hwrite
    have hok : (s.replace q.queueFile (Json.fileText (queueToJson es)).toUTF8 (h.clock 0)).1
        = .ok () := by rw [hreplace]
    have hfind := Store.find_replace hok
    rw [hreplace] at hfind
    exact ⟨_, _, hfind⟩

/-! ## Queues with a node that can be merged -/

/-- The queue is unhindered and shows the entries, and the node has the status in its graph file
and can be merged. -/
structure Primed (q : MergeQueue) (s : Store) (es : List Entry) (p : Pipeline) (node : String)
    (status : Status) : Prop where
  unhindered : q.Unhindered s
  shows : q.Shows s es
  bears : GraphFile.Bears s q.graph p
  plain : p.Plain
  node : ∃ n, p.Mergeable node n ∧ n.status = status

theorem Primed.statusOf? (hp : q.Primed s es p node status) : p.statusOf? node = some status := by
  obtain ⟨n, hn, rfl⟩ := hp.node
  rw [Pipeline.statusOf?, hn.node]
  rfl

/-- The queue is still primed after the entries in it were changed. -/
theorem Primed.edited {written locks : List String} (hp : q.Primed s es p node status)
    (ht : Store.Touched (written.map s.place) (locks.map s.place) s t)
    (hwritten : written ⊆ [q.queueFile, q.archive]) (hlocks : locks ⊆ [lockPath q.queueFile])
    (hfound : ∀ path ∈ written, t.Found path) (hshows : q.Shows t es') :
    q.Primed t es' p node status where
  unhindered := by
    refine hp.unhindered.of_touched ht (fun path hpath => ?_) hfound
    have hown := hwritten hpath
    simp only [List.mem_cons, List.not_mem_nil, or_false] at hown
    rcases hown with rfl | rfl <;> simp [files]
  shows := hshows
  bears := by
    obtain ⟨hqueue, hlock, harchive⟩ := hp.unhindered.apart.other (.inl rfl)
    refine hp.bears.of_keeps (ht.keeps ?_ ?_)
    · intro hmem
      obtain ⟨path, hpath, heq⟩ := List.mem_map.mp hmem
      have hown := hwritten hpath
      simp only [List.mem_cons, List.not_mem_nil, or_false] at hown
      rcases hown with rfl | rfl
      · exact hqueue heq.symm
      · exact harchive heq.symm
    · intro hmem
      obtain ⟨path, hpath, heq⟩ := List.mem_map.mp hmem
      rw [List.mem_singleton.mp (hlocks hpath)] at heq
      exact hlock heq.symm
  plain := hp.plain
  node := hp.node

theorem Primed.written (hp : q.Primed s es p node status)
    (hwrite : (q.write es').perform h s = (.ok (), t)) (hshows : q.Shows t es') :
    q.Primed t es' p node status := by
  have htouched : Store.Touched ([q.queueFile].map s.place) (([] : List String).map s.place) s t :=
    touched_of_write hwrite
  exact hp.edited htouched (by simp) (by simp)
    (List.forall_mem_singleton.mpr (found_of_write hwrite)) hshows

theorem Primed.of_keeps (hp : q.Primed s es p node status)
    (hkeeps : ∀ path ∈ q.files, s.Keeps path t) : q.Primed t es p node status where
  unhindered := hp.unhindered.of_keeps hkeeps
  shows := hp.shows.of_keeps (hkeeps _ (by simp [files]))
  bears := hp.bears.of_keeps (hkeeps _ (by simp [files]))
  plain := hp.plain
  node := hp.node

/-! ## Moving the node -/

theorem perform_statusOf_of_bears (hbears : GraphFile.Bears s q.graph p)
    (hnode : p.node? node = some n) (h : Host) :
    (q.statusOf node).perform h s = (.ok n.status, s) := by
  obtain ⟨bytes, text, ⟨modified, hfind⟩, hutf, hparse⟩ := hbears
  rw [statusOf, perform_bind, GraphFile.perform_load_of_find hfind hutf hparse]
  dsimp only
  rw [hnode]
  rfl

/-- A node with another status is moved as the engine moves it. -/
theorem perform_bring_of_bears (hbears : GraphFile.Bears s q.graph p)
    (hnode : p.node? node = some n)
    (hother : n.status ≠ target) {actor : String} {h : Host} {answer : Except Error AuditRecord}
    (hperform : (q.engine.transition q.graph ⟨node, target, actor, none⟩).perform h s
      = (answer, t)) :
    (q.bring node target actor).perform h s = (answer.map fun _ => (), t) := by
  rw [bring, perform_bind, perform_statusOf_of_bears hbears hnode]
  dsimp only
  rw [if_pos hother, perform_bind, hperform]
  cases answer <;> rfl

theorem Primed.bring_done (hp : q.Primed s es p node status) (actor : String) (h : Host) :
    (q.bring node status actor).perform h s = (.ok (), s) := by
  obtain ⟨n, hm, rfl⟩ := hp.node
  rw [bring, perform_bind, perform_statusOf_of_bears hp.bears hm.node]
  dsimp only
  rw [if_neg (not_not_intro rfl)]
  rfl

theorem Primed.bring (hp : q.Primed s es p node status) (hlegal : status.canBecome target)
    (htarget : target = .mergeReady ∨ target = .merged) (actor : String)
    (hfree : h.held.contains (s.place (lockPath q.graph)) = false)
    (hseq : p.checkpointSeq.toNat + 1 < 2 ^ 63) :
    ∃ t p', (q.bring node target actor).perform h s = (.ok (), t) ∧
      q.Primed t es p' node target ∧ p'.checkpointSeq.toNat = p.checkpointSeq.toNat + 1 := by
  obtain ⟨n, hm, rfl⟩ := hp.node
  have hu := hp.unhindered
  have hother : n.status ≠ target := by
    intro heq
    rw [heq] at hlegal
    rcases htarget with rfl | rfl <;> cases hlegal
  have hjudge := hm.judge hlegal htarget q.engine.maxRetries s (h.clock 0) actor
  obtain ⟨t, hperform, hlog, hsaved⟩ := Engine.transition_granted hp.bears hu.apart.graph.1
    (hu.found _ (by simp [files])) hfree (hu.found q.engine.auditLog (by simp [files]))
    hu.replaceGraph hjudge
  have hbring : (q.bring node target actor).perform h s = (.ok (), t) :=
    perform_bring_of_bears hp.bears hm.node hother hperform
  have hwithin := q.within_bring node target actor h s
  have hkeeps := hu.apart.keeps_bring node target actor h
  rw [hbring] at hwithin hkeeps
  have hlifted : p.Lifted := by
    obtain ⟨_, _, -, -, hparse⟩ := hp.bears
    exact Pipeline.lifted_of_parse hparse
  have hsucceeds := Pipeline.succeeds_modify hm.node hlifted.seq
    (·.advance ⟨node, target, actor, none⟩ {} (h.clock 0))
  obtain ⟨_, _, _, _, hid, -⟩ := Pipeline.modify_of_node? hm.node fun n => n
  obtain ⟨p', hread, hsame, -, hplain⟩ := Pipeline.parse_render_of_plain
    (hsucceeds.lifted hid rfl hseq hlifted) (hsucceeds.plain rfl hp.plain)
  have hmoved : (GraphFile.bumped (p.modify node
      (·.advance ⟨node, target, actor, none⟩ {} (h.clock 0)))).Mergeable node _ :=
    hm.modify (fun _ => rfl) rfl rfl
  obtain ⟨m, hm', hstatus⟩ := hmoved.reread hsame
  refine ⟨t, p', hbring, ⟨hu.of_touched hwithin (by simp [files]) ?_, hp.shows.of_keeps hkeeps,
    ⟨_, _, hsaved, fromUTF8?_toUTF8 _, hread⟩, hplain, m, hm', hstatus⟩, ?_⟩
  · simp only [List.forall_mem_cons]
    exact ⟨hlog, hsaved.found, by simp⟩
  · have hnum : p'.checkpointSeq = p.checkpointSeq + 1 := (congrArg Pipeline.checkpointSeq hsame :)
    rw [hnum]
    exact hsucceeds.seq

/-! ## Putting a branch in the queue -/

/-- A branch that is new is put in the queue, and its node becomes ready for merging unless it
is. -/
theorem Primed.enqueue (hp : q.Primed s es p node status)
    (hstatus : status = .validated ∨ status = .mergeReady) (hopen : q.registry = none)
    (hheld : h.held = []) (identity branch : String) (hnew : ∀ f ∈ es, f.branch ≠ branch)
    (hseq : p.checkpointSeq.toNat + 1 < 2 ^ 63) :
    ∃ t p', (q.enqueue identity branch node).perform h s
      = (.ok (newEntry h identity branch node), t) ∧
      q.Primed t (es ++ [newEntry h identity branch node]) p' node .mergeReady ∧
      p'.checkpointSeq.toNat ≤ p.checkpointSeq.toNat + 1 := by
  have hu := hp.unhindered
  have hready := hu.ready hheld
  let host : Host := { h with held := s.place (lockPath q.queueFile) :: h.held }
  have hfree : host.held.contains (s.place (lockPath q.graph)) = false := by
    obtain ⟨-, -, -, -, hlocks⟩ := hu.apart.lock
    simpa [host, hheld] using Ne.symm hlocks
  have hany : ¬es.any (·.branch = branch) := by
    simpa using hnew
  obtain ⟨u, p', hbring, hp', hseq'⟩ : ∃ u p',
      (q.bring node .mergeReady identity).perform host s = (.ok (), u) ∧
      q.Primed u es p' node .mergeReady ∧ p'.checkpointSeq.toNat ≤ p.checkpointSeq.toNat + 1 := by
    rcases hstatus with rfl | rfl
    · obtain ⟨u, p', hbring, hp', hnum⟩ := hp.bring rfl (.inl rfl) identity hfree hseq
      exact ⟨u, p', hbring, hp', by omega⟩
    · exact ⟨s, p, hp.bring_done identity host, hp, by omega⟩
  obtain ⟨t, hwrite, hshows, -⟩ := perform_write_of_canReplace hp'.unhindered.replaceQueue
    (es ++ [newEntry h identity branch node]) host
  have hperform : (q.enqueue identity branch node).perform h s
      = (.ok (newEntry h identity branch node), t) := by
    rw [MergeQueue.enqueue, checkRegistered, hopen, perform_bind, perform_pure]
    dsimp only
    rw [hp.shows.perform_locked_of_ready hready]
    rw [if_neg hany, perform_bind, hbring]
    dsimp only
    rw [perform_bind, perform_read]
    dsimp only
    rw [perform_bind, perform_now]
    dsimp only
    unfold newEntry at hwrite
    rw [perform_bind, hwrite]
    rfl
  exact ⟨t, p', hperform, hp'.written hwrite hshows, hseq'⟩

/-! ## Merging the head -/

theorem Primed.claim {head e : Entry} {rest : List Entry}
    (hp : q.Primed s (head :: rest) p node status) (hheld : h.held = [])
    (hclaim : head.claim h = .own e) :
    ∃ t, q.claim.perform h s = (.ok (some (.own e)), t) ∧ q.Primed t (e :: rest) p node status := by
  have hready := hp.unhindered.ready hheld
  let host : Host := { h with held := s.place (lockPath q.queueFile) :: h.held }
  have hown : head.claim host = .own e := hclaim
  obtain ⟨t, hwrite, hshows, -⟩ := perform_write_of_canReplace hready.replace (e :: rest) host
  refine ⟨t, ?_, hp.written hwrite hshows⟩
  rw [MergeQueue.claim, hp.shows.perform_locked_of_ready hready]
  dsimp only
  rw [perform_bind, perform_read]
  dsimp only
  rw [hown]
  dsimp only
  rw [perform_bind, hwrite]
  rfl

theorem Primed.update {e f : Entry} {rest : List Entry}
    (hp : q.Primed s (e :: rest) p node status) (hheld : h.held = []) (hid : f.id = e.id) :
    ∃ t, (q.update f).perform h s = (.ok (), t) ∧ q.Primed t (f :: rest) p node status := by
  obtain ⟨t, hupdate, hshows⟩ := hp.shows.perform_update_of_ready (hp.unhindered.ready hheld)
    (replaceEntry_head hid rest)
  have htouched := q.within_update f h s
  rw [hupdate] at htouched
  refine ⟨t, hupdate, hp.edited htouched (by simp) (by simp) ?_ hshows⟩
  exact List.forall_mem_singleton.mpr (hshows.found (List.cons_ne_nil _ _))

/-- The archive is there, so an entry is added to it. -/
theorem Primed.archiveEntry (hp : q.Primed s es p node status) (e : Entry) (d : Disposition)
    (h : Host) : ∃ a t, (q.archiveEntry e d).perform h s = (.ok a, t) ∧
      q.Primed t es p node status := by
  obtain ⟨bytes, modified, hfind⟩ := hp.unhindered.found q.archive (by simp [files])
  have hwithin : (q.archiveEntry e d).Within [q.archive] [] := q.within_archiveEntry e d
  have htouched := hwithin h s
  rcases Action.appendFile_spec q.archive
    (Json.lineText (Archived.toJson ⟨e, (h.clock 0).stamp, d⟩)).toUTF8 h s [] with
    ⟨t, happend, -, hfound⟩ | ⟨_, _, _, _, hcannot⟩
  · have hperform : (q.archiveEntry e d).perform h s = (.ok ⟨e, (h.clock 0).stamp, d⟩, t) := by
      rw [MergeQueue.archiveEntry, perform_bind, perform_now]
      dsimp only
      rw [perform_bind, appendRecord, happend]
      rfl
    rw [hperform] at htouched
    have hkeeps := htouched.keeps (by simpa using hp.unhindered.apart.queue.2.1) (by simp)
    exact ⟨_, t, hperform, hp.edited htouched (by simp) (by simp)
      (List.forall_mem_singleton.mpr hfound) (hp.shows.of_keeps hkeeps)⟩
  · exact absurd (Store.canAppend_of_find hfind) hcannot

theorem Primed.removeMerged (hp : q.Primed s es p node status) (hheld : h.held = []) (e : Entry) :
    ∃ t, (q.removeMerged e).perform h s = (.ok (), t) ∧
      q.Primed t (es.filter (·.id ≠ e.id)) p node status := by
  have hready := hp.unhindered.ready hheld
  let host : Host := { h with held := s.place (lockPath q.queueFile) :: h.held }
  obtain ⟨u, hwrite, hshows, -⟩ := perform_write_of_canReplace hready.replace
    (es.filter (·.id ≠ e.id)) host
  obtain ⟨a, t, harchive, hp'⟩ := (hp.written hwrite hshows).archiveEntry e .merged host
  refine ⟨t, ?_, hp'⟩
  rw [MergeQueue.removeMerged, hp.shows.perform_locked_of_ready hready]
  rw [perform_bind, hwrite]
  dsimp only
  rw [perform_bind, harchive]
  rfl

/-- The head is claimed and its branch integrated, and the outcome is what follows from that. -/
theorem Primed.own {head : Entry} {rest : List Entry}
    (hp : q.Primed s (head :: rest) p node status) (hqueued : head.status = .queued)
    (hkeeps : ∀ path ∈ q.files, q.integrator.Keeps path) (hheld : h.held = []) :
    ∃ i t u, (i.obstacle = none ↔ q.integrator.Forwards head.branch q.integrationBranch h t) ∧
      q.Primed u (head.asClaimed h :: rest) p node status ∧
      ∀ outcome v, (q.finish (head.asClaimed h) i).perform h u = (outcome, v) →
        q.process.perform h s = (.ok ⟨i.calls, outcome⟩, v) := by
  have hclaim : head.claim h = .own (head.asClaimed h) := by
    rw [Entry.claim, hqueued]
    rfl
  obtain ⟨t, hclaimed, hp'⟩ := hp.claim hheld hclaim
  obtain ⟨i, u, hintegrate, hclear⟩ := q.integrator.perform_integrate (head.asClaimed h).branch
    q.integrationBranch h t
  have hkept := hp'.of_keeps fun path hpath => by
    have hkept := (hkeeps path hpath).integrate (head.asClaimed h).branch q.integrationBranch h t
    rwa [hintegrate] at hkept
  refine ⟨i, t, u, hclear, hkept, fun outcome v hfinish => ?_⟩
  rw [MergeQueue.process, perform_bind, perform_attempt, hclaimed]
  dsimp only
  rw [processClaim, perform_bind, hintegrate]
  dsimp only
  rw [perform_bind, perform_attempt, hfinish]
  rfl

/-- The head of the queue is merged if its branch can be integrated, and its node is merged
with it. -/
theorem Primed.process {head : Entry} {rest : List Entry}
    (hp : q.Primed s (head :: rest) p head.node .mergeReady) (hqueued : head.status = .queued)
    (hkeeps : ∀ path ∈ q.files, q.integrator.Keeps path)
    (hforwards : ∀ h s, q.integrator.Forwards head.branch q.integrationBranch h s)
    (hheld : h.held = []) (hseq : p.checkpointSeq.toNat + 1 < 2 ^ 63) :
    ∃ calls t p', q.process.perform h s
        = (.ok ⟨calls, .ok (.merged (head.asClaimed h).asMerged)⟩, t) ∧
      q.Primed t (rest.filter (·.id ≠ head.id)) p' head.node .merged := by
  let e : Entry := (head.asClaimed h).asMerged
  obtain ⟨i, t, u, hclear, hp₁, hprocess⟩ := hp.own hqueued hkeeps hheld
  have hnone := hclear.mpr (hforwards h t)
  obtain ⟨u₁, hupdate, hp₂⟩ := hp₁.update hheld (show e.id = (head.asClaimed h).id from rfl)
  obtain ⟨u₂, p', hbring, hp₃, -⟩ := hp₂.bring rfl (.inr rfl) actor (h := h) (by simp [hheld]) hseq
  obtain ⟨v, hremove, hp₄⟩ := hp₃.removeMerged hheld e
  have hrest : (e :: rest).filter (·.id ≠ e.id) = rest.filter (·.id ≠ e.id) := by
    simp
  rw [hrest] at hp₄
  have hrecord : (q.recordMerged e).perform h u₁ = (.ok (.merged e), v) := by
    have hmoved : (q.bring e.node .merged actor).perform h u₁ = (.ok (), u₂) := hbring
    rw [recordMerged, perform_bind, hmoved]
    dsimp only
    rw [perform_bind, hremove]
    rfl
  refine ⟨i.calls, v, p', hprocess _ _ ?_, hp₄⟩
  rw [finish, hnone]
  dsimp only
  rw [finishMerged, perform_bind, hupdate]
  exact hrecord

/-- The head of the queue is held if its branch cannot be integrated. -/
theorem Primed.stopped {head : Entry} {rest : List Entry}
    (hp : q.Primed s (head :: rest) p node status) (hqueued : head.status = .queued)
    (hkeeps : ∀ path ∈ q.files, q.integrator.Keeps path)
    (hstops : ∀ h s, ¬q.integrator.Forwards head.branch q.integrationBranch h s)
    (hheld : h.held = []) :
    ∃ calls o t, q.process.perform h s
        = (.ok ⟨calls, .ok (.conflict ((head.asClaimed h).asConflict o) o.files)⟩, t) ∧
      q.Primed t ((head.asClaimed h).asConflict o :: rest) p node status := by
  obtain ⟨i, t, u, hclear, hp₁, hprocess⟩ := hp.own hqueued hkeeps hheld
  cases hobstacle : i.obstacle with
  | none => exact absurd (hclear.mp hobstacle) (hstops h t)
  | some o =>
      obtain ⟨v, hupdate, hp₂⟩ := hp₁.update hheld
        (show ((head.asClaimed h).asConflict o).id = (head.asClaimed h).id from rfl)
      refine ⟨i.calls, o, v, hprocess _ _ ?_, hp₂⟩
      rw [finish, hobstacle]
      dsimp only
      rw [finishConflict, perform_bind, hupdate]
      rfl

/-! ## Two branches for one node -/

theorem Run.then {ask : Ask} {h : Host} {kept : List String} {u : Store} (hrun : q.Run kept s cs t)
    (hafter : (q.reply h t ask).2 = u) : q.Run kept s (cs ++ [⟨ask, h, t⟩]) u :=
  hafter ▸ hrun.call ask h

theorem Primed.bounded (hp : q.Primed s es p node status)
    (hseq : p.checkpointSeq.toNat + 1 < 2 ^ 63) :
    ∀ p, GraphFile.Bears s q.graph p → p.checkpointSeq.toNat + 1 < 2 ^ 63 := by
  intro p' hbears
  rwa [hbears.unique hp.bears]

theorem Primed.pair (hp : q.Primed s [] p node .validated) (hopen : q.registry = none)
    (identity : String) {b₁ b₂ : String} (hother : b₁ ≠ b₂) {h₁ h₂ : Host}
    (hfree₁ : h₁.held = []) (hfree₂ : h₂.held = []) (hseq : p.checkpointSeq.toNat + 3 < 2 ^ 63)
    (kept : List String) :
    ∃ cs t p', q.Run kept s cs t ∧
      cs.map (·.ask) = [.enqueue identity b₁ node, .enqueue identity b₂ node] ∧
      q.enqueued cs = [newEntry h₁ identity b₁ node, newEntry h₂ identity b₂ node] ∧
      (∀ c ∈ cs, ∀ p, GraphFile.Bears c.before q.graph p → p.checkpointSeq.toNat + 1 < 2 ^ 63) ∧
      q.Primed t [newEntry h₁ identity b₁ node, newEntry h₂ identity b₂ node] p' node .mergeReady ∧
      p'.checkpointSeq.toNat + 1 < 2 ^ 63 := by
  obtain ⟨t₁, p₁, hperform₁, hp₁, hseq₁⟩ := hp.enqueue (.inl rfl) hopen hfree₁ identity b₁
    (by simp) (by omega)
  obtain ⟨t₂, p₂, hperform₂, hp₂, hseq₂⟩ := hp₁.enqueue (.inr rfl) hopen hfree₂ identity b₂
    (by simpa [newEntry] using hother) (by omega)
  have hrun₁ : q.Run kept s [⟨.enqueue identity b₁ node, h₁, s⟩] t₁ :=
    Run.then .start (by rw [reply, hperform₁])
  have hrun₂ : q.Run kept s [⟨.enqueue identity b₁ node, h₁, s⟩,
      ⟨.enqueue identity b₂ node, h₂, t₁⟩] t₂ := hrun₁.then (by rw [reply, hperform₂])
  refine ⟨_, t₂, p₂, hrun₂, rfl, ?_, ?_, hp₂, by omega⟩
  · have hanswer₁ : ((⟨.enqueue identity b₁ node, h₁, s⟩ : Turn).answer q).enqueued?
        = some (newEntry h₁ identity b₁ node) := by
      rw [Turn.answer, reply, hperform₁]
      rfl
    have hanswer₂ : ((⟨.enqueue identity b₂ node, h₂, t₁⟩ : Turn).answer q).enqueued?
        = some (newEntry h₂ identity b₂ node) := by
      rw [Turn.answer, reply, hperform₂]
      rfl
    simp only [enqueued, List.filterMap_cons, hanswer₁, hanswer₂, List.filterMap_nil]
  · simp only [List.forall_mem_cons]
    exact ⟨hp.bounded (by omega), hp₁.bounded (by omega), by simp⟩

end MergeQueue

/-! ## A queue beside its graph -/

/-- A pipeline of which the only work is accepted. -/
def Pipeline.accepted : Pipeline where
  name := "p"
  nodes := [{ id := "s", kind := .start, status := .validated },
    { Node.work "w" "dev" "ok" with
      status := .validated, acceptanceHash := some (sha256Text "ok") },
    { id := "e", kind := .exitSuccess }]
  edges := [{ source := "s", target := "w" }, { source := "w", target := "e" }]

namespace MergeQueue

theorem mergeable_accepted : ∃ n, Pipeline.accepted.Mergeable "w" n ∧ n.status = .validated := by
  have hbare : Pipeline.accepted.bare.requireValid = .ok () := by decide +kernel
  have hvalid : Pipeline.accepted.requireValid = .ok () := by
    refine Pipeline.requireValid_of_bare (p := Pipeline.accepted.bare) rfl ?_ hbare
    simp [Pipeline.accepted, Pipeline.pinFinding, Pipeline.Node.requiresPin, Pipeline.Node.digest,
      Pipeline.Node.work]
  exact ⟨_, ⟨rfl, hvalid, rfl, rfl, _, rfl, rfl⟩, rfl⟩

/-- The accepted pipeline in a working directory, beside an empty queue. -/
def acceptedStore : Store where
  entries := [(["home", "pipeline.dot"], .file Pipeline.accepted.bytes default),
    (["home", "pipeline.dot.lock"], .file .empty default),
    (["home", ".relay"], .directory),
    (["home", ".relay", "merge-queue.json"],
      .file (Json.fileText (queueToJson [])).toUTF8 default),
    (["home", ".relay", "merge-queue.json.lock"], .file .empty default),
    (["home", ".relay", "merge-archive.jsonl"], .file .empty default),
    (["home", ".relay", "audit.jsonl"], .file .empty default)]

theorem find_acceptedStore :
    acceptedStore.find "pipeline.dot" = .ok (.file Pipeline.accepted.bytes default) ∧
    acceptedStore.find "pipeline.dot.lock" = .ok (.file .empty default) ∧
    acceptedStore.find ".relay/merge-queue.json"
      = .ok (.file (Json.fileText (queueToJson [])).toUTF8 default) ∧
    acceptedStore.find ".relay/merge-queue.json.lock" = .ok (.file .empty default) ∧
    acceptedStore.find ".relay/merge-archive.jsonl" = .ok (.file .empty default) ∧
    acceptedStore.find ".relay/audit.jsonl" = .ok (.file .empty default) :=
  ⟨rfl, rfl, rfl, rfl, rfl, rfl⟩

theorem canReplace_acceptedStore : acceptedStore.CanReplace "pipeline.dot" ∧
    acceptedStore.CanReplace ".relay/merge-queue.json" := by
  obtain ⟨hgraph, -, hqueue, -⟩ := find_acceptedStore
  have hholder : Store.holder ".relay/merge-queue.json" = ".relay" := by decide
  have hdraft : acceptedStore.origin
      (acceptedStore.draft (Store.holder ".relay/merge-queue.json")) = .ok [] := by
    rw [hholder]
    rfl
  exact ⟨Store.canReplace_of_find hgraph rfl, Store.canReplace_of_find hqueue hdraft⟩

theorem unhindered_acceptedStore (i : Integrator) : (localQueue i).Unhindered acceptedStore := by
  obtain ⟨hgraph, hgraphLock, hqueue, hlock, harchive, hlog⟩ := find_acceptedStore
  obtain ⟨hreplace, hreplace'⟩ := canReplace_acceptedStore
  have hfound : ∀ path ∈ (localQueue i).files, acceptedStore.Found path := by
    rw [files_localQueue]
    simp only [List.forall_mem_cons]
    exact ⟨⟨_, _, hqueue⟩, ⟨_, _, hlock⟩, ⟨_, _, harchive⟩, ⟨_, _, hlog⟩, ⟨_, _, hgraph⟩,
      ⟨_, _, hgraphLock⟩, nofun⟩
  have hfile : (localQueue i).queueFile = ".relay/merge-queue.json" :=
    (List.cons.inj (files_localQueue i)).1
  exact ⟨(apart_localQueue i).of_home rfl, hfound, hfile ▸ hreplace', hreplace⟩

theorem shows_acceptedStore (i : Integrator) : (localQueue i).Shows acceptedStore [] := by
  have hfile : (localQueue i).queueFile = ".relay/merge-queue.json" :=
    (List.cons.inj (files_localQueue i)).1
  obtain ⟨-, -, hqueue, -⟩ := find_acceptedStore
  rw [← hfile] at hqueue
  exact .inl ⟨_, ⟨_, hqueue⟩, readRecordBytes_queueToJson []⟩

/-- A graph file as it is before any branch is put in the queue: it is a valid graph with dotted
names for keys and without real numbers, all its nodes are pending or validated, and it has not
been saved yet. -/
structure Untried (s : Store) (path : String) (p : Pipeline) : Prop where
  read : ∃ text g, s.readText path = .ok text ∧ Digraph.read text = .ok g ∧
    Pipeline.ofDigraph g = .ok p ∧ g.hasDottedKeys ∧ g.hasNoReals
  valid : p.requireValid = .ok ()
  statuses : ∀ n ∈ p.nodes, n.status = .pending ∨ n.status = .validated
  unsaved : p.checkpointSeq = 0

theorem primed_acceptedStore (i : Integrator) : ∃ p, Untried acceptedStore "pipeline.dot" p ∧
    (localQueue i).Primed acceptedStore [] p "w" .validated := by
  have hunadorned : Pipeline.accepted.Unadorned := ⟨by decide, rfl, by decide, by decide, by decide⟩
  obtain ⟨g, p, hread, hg, hp, hsame⟩ :=
    Pipeline.read_render_of_plain hunadorned.lifted hunadorned.plain
  obtain ⟨hkeys, hreals⟩ := Pipeline.isPlain_iff.mp hg
  obtain ⟨n, hm, hstatus⟩ := mergeable_accepted
  obtain ⟨m, hm', hstatus'⟩ := hm.reread hsame
  obtain ⟨hgraph, -⟩ := find_acceptedStore
  have hparse : Pipeline.parse Pipeline.accepted.render = .ok p := by
    rw [Pipeline.parse, hread]
    exact hp
  have hstatuses : ∀ n ∈ p.nodes, n.status = .pending ∨ n.status = .validated := by
    intro n hn
    have hmem : (n.id, n.status) ∈ Pipeline.accepted.statuses :=
      Pipeline.statuses_of_unlined hsame ▸ List.mem_map_of_mem hn
    obtain ⟨k, hk, heq⟩ := List.mem_map.mp hmem
    rw [← (Prod.mk.inj heq).2]
    simp only [Pipeline.accepted, List.mem_cons, List.not_mem_nil, or_false] at hk
    rcases hk with rfl | rfl | rfl
    · exact .inr rfl
    · exact .inr rfl
    · exact .inl rfl
  have htext : acceptedStore.readText "pipeline.dot" = .ok Pipeline.accepted.render :=
    Store.readText_of_find hgraph (fromUTF8?_toUTF8 _)
  have hunsaved : p.checkpointSeq = 0 := (congrArg Pipeline.checkpointSeq hsame :)
  refine ⟨p, ⟨⟨_, g, htext, hread, hp, hkeys, hreals⟩, hm'.valid, hstatuses, hunsaved⟩, ?_⟩
  exact ⟨unhindered_acceptedStore i, shows_acceptedStore i,
    ⟨_, _, ⟨_, hgraph⟩, fromUTF8?_toUTF8 _, hparse⟩, Pipeline.plain_ofDigraph hp hg, m, hm',
    hstatus'.trans hstatus⟩

def otherHost : Host := { someHost with fresh := ⟨0, 1⟩ }

/-- In the working directory two branches are put in the queue for the same work. -/
theorem pair_acceptedStore (i : Integrator) (kept : List String) : ∃ p cs t p' e f,
    Untried acceptedStore "pipeline.dot" p ∧
    (localQueue i).Primed acceptedStore [] p "w" .validated ∧
    (localQueue i).Run kept acceptedStore cs t ∧
    cs.map (·.ask) = [.enqueue "dev" "b1" "w", .enqueue "dev" "b2" "w"] ∧
    (∀ c ∈ cs, ∀ p, GraphFile.Bears c.before "pipeline.dot" p →
      p.checkpointSeq.toNat + 1 < 2 ^ 63) ∧
    (localQueue i).enqueued cs = [e, f] ∧ e.id ≠ f.id ∧
    e.status = .queued ∧ f.status = .queued ∧ e.node = "w" ∧ f.node = "w" ∧
    (localQueue i).Primed t [e, f] p' "w" .mergeReady ∧ p'.checkpointSeq.toNat + 1 < 2 ^ 63 := by
  obtain ⟨p, huntried, hprimed⟩ := primed_acceptedStore i
  have hseq : p.checkpointSeq.toNat + 3 < 2 ^ 63 := by
    rw [huntried.unsaved]
    decide
  have hother : "b1" ≠ "b2" := by decide
  have hids : (newEntry someHost "dev" "b1" "w").id ≠ (newEntry otherHost "dev" "b2" "w").id := by
    decide
  have hfree₁ : someHost.held = [] := rfl
  have hfree₂ : otherHost.held = [] := rfl
  obtain ⟨cs, t, p', hrun, hasks, henqueued, hbounds, hafter, hseq'⟩ :=
    hprimed.pair rfl "dev" hother hfree₁ hfree₂ hseq kept
  exact ⟨p, cs, t, p', _, _, huntried, hprimed, hrun, hasks, hbounds, henqueued, hids, rfl, rfl,
    rfl, rfl, hafter, hseq'⟩

def smoothQueue : MergeQueue := localQueue (.still .clean ⟨true, ""⟩)

def roughQueue : MergeQueue := localQueue (.still (.conflict ["a.rs"]) ⟨true, ""⟩)

/-- One of the two branches is merged, and the other one waits with a merged node. -/
theorem overtaken_acceptedStore (kept : List String) : ∃ p cs t p' e f,
    Untried acceptedStore "pipeline.dot" p ∧ smoothQueue.Primed acceptedStore [] p "w" .validated ∧
    smoothQueue.Run kept acceptedStore cs t ∧
    cs.map (·.ask) = [.enqueue "dev" "b1" "w", .enqueue "dev" "b2" "w", .process] ∧
    (∀ c ∈ cs, ∀ p, GraphFile.Bears c.before "pipeline.dot" p →
      p.checkpointSeq.toNat + 1 < 2 ^ 63) ∧
    smoothQueue.enqueued cs = [e, f] ∧ e.id ≠ f.id ∧
    (∃ before c g, cs = before ++ [c] ∧ (c.answer smoothQueue).merged? = some g ∧ g.id = e.id) ∧
    smoothQueue.Primed t [f] p' "w" .merged ∧ f.node = "w" ∧ f.status = .queued := by
  obtain ⟨p, cs, t, p', e, f, huntried, hprimed, hrun, hasks, hbounds, henqueued, hids, hqueued,
    hqueued', hnode, hnode', hafter, hseq⟩ := pair_acceptedStore (.still .clean ⟨true, ""⟩) kept
  have hrun' : smoothQueue.Run kept acceptedStore cs t := hrun
  have hafter' : smoothQueue.Primed t (e :: [f]) p' e.node .mergeReady := hnode.symm ▸ hafter
  obtain ⟨calls, u, p'', hperform, hmerged⟩ := hafter'.process hqueued
    (fun _ _ => Integrator.keeps_still _ _) (fun _ s => ⟨s, s, s, _, rfl, rfl, rfl, rfl⟩)
    (h := someHost) rfl hseq
  have hrest : [f].filter (·.id ≠ e.id) = [f] := by
    simp [Ne.symm hids]
  rw [hrest, hnode] at hmerged
  have hanswer : ((⟨.process, someHost, t⟩ : Turn).answer smoothQueue).merged?
      = some (e.asClaimed someHost).asMerged := by
    rw [Turn.answer, reply, hperform]
    rfl
  have hnone : ((⟨.process, someHost, t⟩ : Turn).answer smoothQueue).enqueued? = none :=
    Turn.enqueued?_of_ask (by simp)
  have hmore : smoothQueue.Run kept acceptedStore (cs ++ [⟨.process, someHost, t⟩]) u :=
    hrun'.then (by rw [reply, hperform])
  refine ⟨p, _, u, p'', e, f, huntried, hprimed, hmore, ?_, ?_, ?_, hids,
    ⟨cs, _, _, rfl, hanswer, rfl⟩,
    hmerged, hnode', hqueued'⟩
  · rw [List.map_append, hasks]
    rfl
  · exact List.forall_mem_append.mpr ⟨hbounds, List.forall_mem_singleton.mpr (hafter.bounded hseq)⟩
  · rw [enqueued_append, enqueued_singleton, hnone]
    exact (List.append_nil _).trans henqueued

/-- The first of the two branches cannot be merged, and is held. -/
theorem stopped_acceptedStore (kept : List String) : ∃ p cs t p' e f,
    roughQueue.Primed acceptedStore [] p "w" .validated ∧
    roughQueue.Run kept acceptedStore cs t ∧
    cs.map (·.ask) = [.enqueue "dev" "b1" "w", .enqueue "dev" "b2" "w", .process] ∧
    roughQueue.Primed t [e, f] p' "w" .mergeReady ∧ e.status = .conflict := by
  obtain ⟨p, cs, t, p', e, f, -, hprimed, hrun, hasks, -, -, -, hqueued, -, -, -, hafter, -⟩ :=
    pair_acceptedStore (.still (.conflict ["a.rs"]) ⟨true, ""⟩) kept
  have hrun' : roughQueue.Run kept acceptedStore cs t := hrun
  have hafter' : roughQueue.Primed t [e, f] p' "w" .mergeReady := hafter
  have hstops :
      ∀ h s, ¬roughQueue.integrator.Forwards e.branch roughQueue.integrationBranch h s := by
    rintro h s ⟨_, _, _, _, hclean, -⟩
    cases hclean
  obtain ⟨calls, o, u, hperform, hheld⟩ := hafter'.stopped hqueued
    (fun _ _ => Integrator.keeps_still _ _) hstops (h := someHost) rfl
  have hmore : roughQueue.Run kept acceptedStore (cs ++ [⟨.process, someHost, t⟩]) u :=
    hrun'.then (by rw [reply, hperform])
  refine ⟨p, _, u, p', _, f, hprimed, hmore, ?_, hheld, rfl⟩
  rw [List.map_append, hasks]
  rfl

end MergeQueue

end Pipewright
