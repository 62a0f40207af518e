import Pipewright.Proofs.Merge.Progress

/-!
# Order and accounts of the queue

Entries are processed in their order, and every one of them is accounted for.
-/

/-!
## The order of the queue

The entries stand in the queue in the order in which they were put in it, each
branch once, and all but the head are queued (`InOrder`). Every turn preserves
that, since an entry changes only at the head, and its branch never does.

A head that is in conflict holds up the queue: whatever other calls are made, it
stays where it is, every attempt to process it is refused and leaves all files
alone, and resolving it gives it back as it was put in the queue (`HeldUp`).
-/

namespace Pipewright

open Merge Pipewright.Action

namespace Merge

/-! ### Entries that are found by their branch -/

theorem resolveEntry_eq_some {branch : String} {es es' : List Entry} {e : Entry}
    (h : resolveEntry branch es = some (e, es')) :
    ∃ front old back, es = front ++ old :: back ∧ es' = front ++ old.asResolved :: back ∧
      e = old.asResolved ∧ old.branch = branch ∧ old.status = .conflict := by
  induction es generalizing es' with
  | nil => cases h
  | cons f rest ih =>
      rw [resolveEntry] at h
      split at h
      · next hfound =>
        cases h
        exact ⟨[], f, rest, rfl, rfl, rfl, hfound⟩
      · obtain ⟨⟨r, others⟩, hrest, heq⟩ := Option.map_eq_some_iff.mp h
        cases heq
        obtain ⟨front, old, back, rfl, rfl, hfound⟩ := ih hrest
        exact ⟨f :: front, old, back, rfl, rfl, hfound⟩

theorem takeEntry_eq_some {branch : String} {es rest : List Entry} {e : Entry}
    (h : takeEntry branch es = some (e, rest)) :
    ∃ front back, es = front ++ e :: back ∧ rest = front ++ back ∧ e.branch = branch ∧
      ∀ f ∈ front, f.branch ≠ branch := by
  induction es generalizing rest with
  | nil => cases h
  | cons f others ih =>
      rw [takeEntry] at h
      split at h
      · next hfound =>
        cases h
        exact ⟨[], _, rfl, rfl, hfound, nofun⟩
      · next hother =>
        obtain ⟨⟨r, left⟩, hrest, heq⟩ := Option.map_eq_some_iff.mp h
        cases heq
        obtain ⟨front, back, rfl, rfl, hbranch, hfront⟩ := ih hrest
        exact ⟨f :: front, back, rfl, rfl, hbranch, List.forall_mem_cons.mpr ⟨hother, hfront⟩⟩

theorem Entry.branch_of_asEnqueued {e f : Entry} (h : e.asEnqueued = f.asEnqueued) :
    e.branch = f.branch := by
  have hbranch : e.asEnqueued.branch = f.asEnqueued.branch := by rw [h]
  exact hbranch

theorem Entry.asEnqueued_of_claim {e f : Entry} {h : Host} (hclaim : e.claim h = .own f) :
    f.asEnqueued = e.asEnqueued := by
  unfold Entry.claim at hclaim
  split at hclaim
  · cases hclaim
  · cases hclaim
  · split at hclaim
    · cases hclaim
    · cases hclaim
      rfl
  · cases hclaim
    rfl

end Merge

namespace MergeQueue

variable {q : MergeQueue} {c : Turn} {asked es es' : List Entry} {gone : List Archived}
  {head e : Entry} {rest : List Entry} {s t u : Store}

/-! ### Order -/

/-- The entries are in the order in which they were put in the queue, each branch once, and
all but the head are queued. No process is at work on one in conflict. -/
structure InOrder (asked es : List Entry) : Prop where
  branches : (es.map (·.branch)).Nodup
  tail : ∀ e ∈ es.tail, e.status = .queued
  order : (es.map Entry.asEnqueued).Sublist asked
  idle : ∀ e ∈ es, e.status = .conflict → e.processor = none

theorem inOrder_nil : InOrder [] [] :=
  ⟨List.nodup_nil, nofun, .slnil, nofun⟩

theorem InOrder.sublist (h : InOrder asked es) (hsub : es'.Sublist es) : InOrder asked es' where
  branches := h.branches.sublist (hsub.map _)
  tail := fun e he => h.tail e (hsub.tail.subset he)
  order := (hsub.map _).trans h.order
  idle := fun e he => h.idle e (hsub.subset he)

theorem InOrder.more (h : InOrder asked es) (more : List Entry) : InOrder (asked ++ more) es :=
  { h with order := h.order.trans (List.sublist_append_left asked more) }

/-- The head can change in all but what was asked for. -/
theorem InOrder.replace (h : InOrder asked (head :: rest)) (hsame : e.asEnqueued = head.asEnqueued)
    (hidle : e.status = .conflict → e.processor = none) : InOrder asked (e :: rest) where
  branches := by
    have hbranches := h.branches
    rwa [List.map_cons, ← Entry.branch_of_asEnqueued hsame] at hbranches
  tail := h.tail
  order := by
    have horder := h.order
    rwa [List.map_cons, ← hsame] at horder
  idle := List.forall_mem_cons.mpr ⟨hidle, (List.forall_mem_cons.mp h.idle).2⟩

theorem InOrder.concat (h : InOrder asked es) (hnew : ∀ f ∈ es, f.branch ≠ e.branch)
    (hqueued : e.status = .queued) (hsame : e.asEnqueued = e) :
    InOrder (asked ++ [e]) (es ++ [e]) where
  branches := by
    rw [List.map_append, List.map_singleton, List.nodup_append]
    refine ⟨h.branches, List.pairwise_singleton _ _, ?_⟩
    rintro _ hmem _ hlast rfl
    obtain ⟨f, hf, hbranch⟩ := List.mem_map.mp hmem
    exact hnew f hf (hbranch.trans (List.mem_singleton.mp hlast))
  tail := by
    intro f hf
    cases es with
    | nil => cases hf
    | cons head rest =>
        rcases List.mem_append.mp hf with hf | hf
        · exact h.tail f hf
        · rw [List.mem_singleton.mp hf, hqueued]
  order := by
    rw [List.map_append, List.map_singleton, hsame]
    exact h.order.append_right [e]
  idle := by
    intro f hf hconflict
    rcases List.mem_append.mp hf with hf | hf
    · exact h.idle f hf hconflict
    · rw [List.mem_singleton.mp hf, hqueued] at hconflict
      cases hconflict

theorem InOrder.resolve (h : InOrder asked es) {branch : String}
    (hfound : resolveEntry branch es = some (e, es')) :
    ∃ head rest, es = head :: rest ∧ head.branch = branch ∧ head.status = .conflict ∧
      e = head.asEnqueued ∧ es' = e :: rest := by
  obtain ⟨front, old, back, rfl, rfl, rfl, hbranch, hconflict⟩ := resolveEntry_eq_some hfound
  cases front with
  | nil =>
      have hidle := h.idle old (List.mem_cons_self ..) hconflict
      have hsame : old.asResolved = old.asEnqueued := by
        rw [Entry.asResolved, Entry.asEnqueued, hidle]
      exact ⟨old, back, rfl, hbranch, hconflict, hsame, rfl⟩
  | cons f front =>
      have hqueued := h.tail old (List.mem_append_right _ (List.mem_cons_self ..))
      rw [hconflict] at hqueued
      cases hqueued

/-- A head that is processed changes in no more than where it stands. -/
theorem Marked.same (h : q.Marked c head e) : e.asEnqueued = head.asEnqueued := by
  cases h with
  | unmarked => rfl
  | held o claim =>
      rw [← Entry.asEnqueued_of_claim claim]
      rfl
  | merged claim =>
      rw [← Entry.asEnqueued_of_claim claim]
      rfl

theorem Marked.eq_of_conflict (h : q.Marked c head e) (hconflict : head.status = .conflict) :
    e = head := by
  have hblocked : head.claim c.host = .blocked head := by
    rw [Entry.claim, hconflict]
  cases h with
  | unmarked => rfl
  | held o claim => rw [hblocked] at claim; cases claim
  | merged claim => rw [hblocked] at claim; cases claim

theorem InOrder.edited (h : InOrder asked es) (hedit : q.Edited c es es' gone) :
    InOrder (asked ++ q.enqueued [c]) es' := by
  cases hedit with
  | same => exact h.more _
  | added ask answer new entry =>
      subst entry
      rw [enqueued_singleton, answer]
      exact h.concat new rfl rfl
  | resolved ask found =>
      obtain ⟨head, rest, rfl, -, -, rfl, rfl⟩ := h.resolve found
      have hsame : head.asEnqueued.asEnqueued = head.asEnqueued := rfl
      have hqueued : head.asEnqueued.status = .queued := rfl
      exact (h.replace hsame
        (fun hconflict => by rw [hqueued] at hconflict; cases hconflict)).more _
  | skipped ask found =>
      obtain ⟨front, back, rfl, rfl, -⟩ := takeEntry_eq_some found
      exact (h.sublist ((List.Sublist.refl front).append (List.sublist_cons_self ..))).more _
  | marked ask entries mark =>
      subst entries
      refine (h.replace mark.same ?_).more _
      cases mark with
      | unmarked => exact h.idle _ (List.mem_cons_self ..)
      | held => exact fun _ => rfl
      | merged => nofun
  | recorded ask entries =>
      subst entries
      exact (h.sublist (List.filter_sublist.trans (List.sublist_cons_self ..))).more _

end MergeQueue

/-- The call is about the branch and can end its conflict. -/
def Merge.Turn.Settles (c : Turn) (branch : String) : Prop :=
  c.ask = .resolve branch ∨ c.ask = .skip branch

namespace MergeQueue

variable {q : MergeQueue} {c : Turn} {cs ds : List Turn} {asked es es' : List Entry}
  {gone : List Archived} {head : Entry} {rest : List Entry} {s t u : Store}

theorem InOrder.head_of_conflict (h : InOrder asked (head :: rest))
    (hconflict : head.status = .conflict) (hedit : q.Edited c (head :: rest) es' gone)
    (hsettles : ¬c.Settles head.branch) : ∃ rest', es' = head :: rest' := by
  cases hedit with
  | same => exact ⟨rest, rfl⟩
  | added => exact ⟨_, rfl⟩
  | resolved ask found =>
      obtain ⟨_, _, heq, rfl, -⟩ := h.resolve found
      cases heq
      exact absurd (.inl ask) hsettles
  | skipped ask found =>
      obtain ⟨front, back, heq, rfl, rfl, -⟩ := takeEntry_eq_some found
      cases front with
      | nil =>
          cases heq
          exact absurd (.inr ask) hsettles
      | cons f front =>
          cases heq
          exact ⟨_, rfl⟩
  | marked ask entries mark =>
      cases entries
      exact ⟨rest, by rw [mark.eq_of_conflict hconflict]⟩
  | recorded ask entries mark status =>
      cases entries
      rw [mark.eq_of_conflict hconflict, hconflict] at status
      cases status

/-! ### A queue in order -/

def own (q : MergeQueue) : List String := [q.queueFile, lockPath q.queueFile]

/-- The process finds the lock of the queue free. -/
def Free (q : MergeQueue) (h : Host) (s : Store) : Prop :=
  h.held.contains (s.place (lockPath q.queueFile)) = false

/-- The store shows the entries in order, and where there are any it can be locked and written. -/
structure Standing (q : MergeQueue) (asked : List Entry) (s : Store) (es : List Entry) : Prop where
  apart : q.Apart s
  shows : q.Shows s es
  order : InOrder asked es
  lock : es ≠ [] → s.Found (lockPath q.queueFile)
  replace : es ≠ [] → s.CanReplace q.queueFile

theorem Standing.ready (h : q.Standing asked s es) (hne : es ≠ []) {host : Host}
    (hfree : q.Free host s) : q.Ready host s :=
  ⟨h.lock hne, hfree, h.shows.found hne, h.replace hne⟩

theorem Standing.aside (h : q.Standing asked s es) (hothers : ∀ path ∈ q.own, s.Keeps path t) :
    q.Standing asked t es := by
  have hqueue := hothers q.queueFile (List.mem_cons_self ..)
  have hlock := hothers (lockPath q.queueFile) (List.mem_cons_of_mem _ (List.mem_cons_self ..))
  have hshows := h.shows.of_keeps hqueue
  refine ⟨h.apart.of_home hqueue.home, hshows, h.order, fun hne => hlock.found (h.lock hne), ?_⟩
  intro hne
  exact Store.canReplace_of_replace (h.replace hne .empty default) hqueue.home (hshows.found hne)

/-- A queue in which an entry was put can be locked and written. -/
theorem Shows.usable_of_enqueued (hs : q.Shows c.before es) (ha : q.Apart c.before)
    {identity branch node : String} {e : Entry} (hask : c.ask = .enqueue identity branch node)
    (hanswer : (c.answer q).enqueued? = some e) :
    (c.after q).Found (lockPath q.queueFile) ∧ (c.after q).CanReplace q.queueFile := by
  have henqueued := hs.perform_enqueue ha identity branch node c.host
  rcases hperform : (q.enqueue identity branch node).perform c.host c.before with ⟨r, t⟩
  rw [hperform] at henqueued
  obtain ⟨hanswered, rfl⟩ := Turn.of_ask hask
    (show q.reply c.host c.before _ = (.enqueued r, t) by rw [reply, hperform])
  rw [hanswered] at hanswer
  cases henqueued with
  | refused => cases hanswer
  | moved => cases hanswer
  | @added u v _ held e locked found brought touched new entry shows replace =>
      have hbring := q.within_bring node .mergeReady identity { c.host with held := held } u
      rw [brought] at hbring
      have hu := ha.of_home locked.home
      obtain ⟨-, -, hlog, hgraph, -⟩ := hu.lock
      have hv := hbring.found found (by simp [hlog, hgraph])
      exact ⟨touched.found hv (by simpa using (hu.of_home hbring.home).lock.1), replace⟩

theorem Standing.turn (h : q.Standing asked c.before es)
    (hi : ∀ path ∈ q.own, q.integrator.Keeps path) :
    ∃ es' gone, q.Standing (asked ++ q.enqueued [c]) (c.after q) es' ∧ q.Edited c es es' gone := by
  have hqueue := hi q.queueFile (List.mem_cons_self ..)
  have hlock := hi (lockPath q.queueFile) (List.mem_cons_of_mem _ (List.mem_cons_self ..))
  obtain ⟨es', gone, hturned⟩ := h.shows.turned h.apart hqueue hlock
  obtain ⟨hhome, hfound⟩ := stays_turn h.apart hlock
  have husable : es' ≠ [] → (c.after q).Found (lockPath q.queueFile) ∧
      (c.after q).CanReplace q.queueFile := by
    intro hne
    by_cases hnil : es = []
    · subst hnil
      cases hturned.edited with
      | same => exact absurd rfl hne
      | added ask answer => exact h.shows.usable_of_enqueued h.apart ask answer
      | resolved ask found => cases found
      | skipped ask found => cases found
      | marked ask entries => cases entries
      | recorded ask entries => cases entries
    · exact ⟨hfound (h.lock hnil), Store.canReplace_of_replace (h.replace hnil .empty default) hhome
        (hturned.shows.found hne)⟩
  exact ⟨es', gone, ⟨h.apart.of_home hhome, hturned.shows, h.order.edited hturned.edited,
    fun hne => (husable hne).1, fun hne => (husable hne).2⟩, hturned.edited⟩

theorem Standing.run (h : q.Standing asked s es) (hi : ∀ path ∈ q.own, q.integrator.Keeps path)
    (hrun : q.Run q.own s cs t) : ∃ es', q.Standing (asked ++ q.enqueued cs) t es' := by
  induction hrun with
  | start => exact ⟨es, by rwa [enqueued, List.filterMap_nil, List.append_nil]⟩
  | call _ ask host ih =>
      obtain ⟨es', hstanding⟩ := ih
      obtain ⟨es'', -, hturned, -⟩ := Standing.turn (c := ⟨ask, host, _⟩) hstanding hi
      rw [enqueued_append, ← List.append_assoc]
      exact ⟨es'', hturned⟩
  | aside _ hothers ih =>
      obtain ⟨es', hstanding⟩ := ih
      exact ⟨es', hstanding.aside hothers⟩

/-- A head in conflict is still at the head after a run that does not settle it. -/
theorem Standing.run_of_conflict (h : q.Standing asked s (head :: rest))
    (hconflict : head.status = .conflict) (hi : ∀ path ∈ q.own, q.integrator.Keeps path)
    (hrun : q.Run q.own s cs t) (hsettles : ∀ c ∈ cs, ¬c.Settles head.branch) :
    ∃ asked' rest', q.Standing asked' t (head :: rest') := by
  induction hrun with
  | start => exact ⟨asked, rest, h⟩
  | call _ ask host ih =>
      obtain ⟨hbefore, hlast⟩ := List.forall_mem_append.mp hsettles
      obtain ⟨asked', rest', hstanding⟩ := ih hbefore
      obtain ⟨es', _, hturned, hedit⟩ := Standing.turn (c := ⟨ask, host, _⟩) hstanding hi
      obtain ⟨rest'', rfl⟩ := hstanding.order.head_of_conflict hconflict hedit
        (hlast _ (List.mem_singleton.mpr rfl))
      exact ⟨_, rest'', hturned⟩
  | aside _ hothers ih =>
      obtain ⟨asked', rest', hstanding⟩ := ih hsettles
      exact ⟨asked', rest', hstanding.aside hothers⟩

/-! ### A head in conflict -/

/-- The queue is held up by its head: processing it is refused and changes nothing, and
resolving it puts it in the queue again as it was and where it was. -/
structure HeldUp (q : MergeQueue) (s : Store) (head : Entry) (rest : List Entry) : Prop where
  shows : q.Shows s (head :: rest)
  blocked : ∀ h, q.Free h s → q.process.perform h s = (.ok ⟨[], .ok (.blocked head)⟩, s)
  resolved : ∀ h, q.Free h s → ∃ t, (q.resolve head.branch).perform h s = (.ok head.asEnqueued, t) ∧
    q.Shows t (head.asEnqueued :: rest)

theorem Shows.perform_process_of_conflict (hs : q.Shows s (head :: rest)) {h : Host}
    (hready : q.Ready h s) (hconflict : head.status = .conflict) :
    q.process.perform h s = (.ok ⟨[], .ok (.blocked head)⟩, s) := by
  have hblocked : ∀ held, head.claim { h with held := held } = .blocked head := by
    intro held
    rw [Entry.claim, hconflict]
  have hclaim : q.claim.perform h s = (.ok (some (.blocked head)), s) := by
    rw [MergeQueue.claim, hs.perform_locked_of_ready hready]
    dsimp only
    rw [perform_bind, perform_read]
    dsimp only
    rw [hblocked]
    rfl
  rw [MergeQueue.process, perform_bind, perform_attempt, hclaim]
  rfl

theorem Shows.perform_resolve_of_conflict (hs : q.Shows s (head :: rest)) {h : Host}
    (hready : q.Ready h s) (hconflict : head.status = .conflict) :
    ∃ t, (q.resolve head.branch).perform h s = (.ok head.asResolved, t) ∧
      q.Shows t (head.asResolved :: rest) := by
  have hfound : resolveEntry head.branch (head :: rest)
      = some (head.asResolved, head.asResolved :: rest) := by
    rw [resolveEntry, if_pos ⟨rfl, hconflict⟩]
  rw [resolve, hs.perform_locked_of_ready hready]
  rw [hfound]
  dsimp only
  obtain ⟨t, hwrite, ht, -⟩ := perform_write_of_canReplace hready.replace
    (head.asResolved :: rest) { h with held := s.place (lockPath q.queueFile) :: h.held }
  rw [perform_bind, hwrite]
  exact ⟨t, rfl, ht⟩

theorem Standing.heldUp (h : q.Standing asked s (head :: rest))
    (hconflict : head.status = .conflict) :
    q.HeldUp s head rest where
  shows := h.shows
  blocked := fun _ hfree =>
    h.shows.perform_process_of_conflict (h.ready (List.cons_ne_nil _ _) hfree) hconflict
  resolved := by
    intro host hfree
    have hidle := h.order.idle head (List.mem_cons_self ..) hconflict
    have hsame : head.asResolved = head.asEnqueued := by
      rw [Entry.asResolved, Entry.asEnqueued, hidle]
    rw [← hsame]
    exact h.shows.perform_resolve_of_conflict (h.ready (List.cons_ne_nil _ _) hfree) hconflict

/-- After every run that begins with an empty queue, the entries stand in the order in which
they were put in the queue, each branch once and all but the head queued; and a head in
conflict holds up the queue until a call is made that can settle it. -/
theorem run_in_order (ha : q.Apart s) (hs : q.Shows s [])
    (hi : ∀ path ∈ q.own, q.integrator.Keeps path) (hrun : q.Run q.own s cs t) :
    ∃ es, q.Shows t es ∧ (es.map (·.branch)).Nodup ∧ (∀ e ∈ es.tail, e.status = .queued) ∧
      (es.map Entry.asEnqueued).Sublist (q.enqueued cs) ∧
      ∀ head rest, es = head :: rest → head.status = .conflict → ∀ ds u, q.Run q.own t ds u →
        (∀ d ∈ ds, ¬d.Settles head.branch) → ∃ rest', q.HeldUp u head rest' := by
  have hstart : q.Standing [] s [] := ⟨ha, hs, inOrder_nil, (absurd rfl ·), (absurd rfl ·)⟩
  obtain ⟨es, hstanding⟩ := hstart.run hi hrun
  refine ⟨es, hstanding.shows, hstanding.order.branches, hstanding.order.tail,
    hstanding.order.order, ?_⟩
  rintro head rest rfl hconflict ds u hmore hsettles
  obtain ⟨asked, rest', hlater⟩ := hstanding.run_of_conflict hconflict hi hmore hsettles
  exact ⟨rest', hlater.heldUp hconflict⟩

theorem run_in_order_acceptedStore : ∃ q s cs t head rest, Apart q s ∧ q.Shows s [] ∧
    (∀ path ∈ q.own, q.integrator.Keeps path) ∧ q.Run q.own s cs t ∧
    cs.map (·.ask) = [.enqueue "dev" "b1" "w", .enqueue "dev" "b2" "w", .process] ∧
    q.Shows t (head :: rest) ∧ rest.length = 1 ∧ head.status = .conflict ∧
    ((head :: rest).map (·.branch)).Nodup ∧ (∀ e ∈ rest, e.status = .queued) ∧
    ((head :: rest).map Entry.asEnqueued).Sublist (q.enqueued cs) ∧
    ∃ rest', q.HeldUp t head rest' := by
  obtain ⟨p, cs, t, p', e, f, hprimed, hrun, hasks, hafter, hconflict⟩ :=
    stopped_acceptedStore roughQueue.own
  have ha := hprimed.unhindered.apart
  have hi : ∀ path ∈ roughQueue.own, roughQueue.integrator.Keeps path :=
    fun _ _ => Integrator.keeps_still _ _
  obtain ⟨es, hshows, hbranches, htail, horder, hheld⟩ := run_in_order ha hprimed.shows hi hrun
  obtain rfl := hshows.unique hafter.shows
  exact ⟨roughQueue, _, cs, t, e, [f], ha, hprimed.shows, hi, hrun, hasks, hshows, rfl, hconflict,
    hbranches, htail, horder, hheld e [f] rfl hconflict [] t .start nofun⟩

end MergeQueue

end Pipewright

/-!
## The accounts of the queue

Every entry that was put in the queue is in the queue file, or in the archive, or
lost, and in one of them only (`Accounts`). An entry is lost where it has been
taken out of the queue file and then cannot be archived; the call that loses it
answers that a file could not be written, and it loses no other.

That it can happen is shown by `Shows.skip_lost`.
-/

namespace Pipewright

open Merge Pipewright.Action

namespace Store

theorem append_of_directory {s : Store} {path : String}
    (hdir : s.at? (s.place path) = some .directory)
    (bytes : ByteArray) (now : Instant) : ∃ fault, (s.append path bytes now).1 = .error fault := by
  have hspec := s.append_spec path bytes now []
  have hfind := s.find_append path bytes now
  rcases happend : s.append path bytes now with ⟨fault | ⟨⟩, t⟩
  · exact ⟨fault, rfl⟩
  · rw [happend] at hspec hfind
    obtain ⟨bytes', modified, hfile⟩ := hfind rfl
    have hstays := (hspec.1 rfl).directory hdir
    have hat := (find_eq_ok.mp hfile).2.1
    rw [place_eq (hspec.1 rfl).home, hstays] at hat
    cases hat

end Store

namespace MergeQueue

variable {q : MergeQueue} {c : Turn} {cs : List Turn} {asked es es' : List Entry}
  {archived lost gone : List Archived} {s t : Store}

/-- What a turn leaves in the queue and what it takes out is what was there and what it puts
in. -/
theorem Edited.perm (h : q.Edited c es es' gone) (hids : (es.map (·.id)).Nodup) :
    (es'.map Entry.asEnqueued ++ gone.map (·.entry.asEnqueued)).Perm
      (es.map Entry.asEnqueued ++ q.enqueued [c]) := by
  have hnone : (c.answer q).enqueued? = none → q.enqueued [c] = [] := by
    intro hanswer
    rw [enqueued_singleton, hanswer]
    rfl
  cases h with
  | same answer =>
      rw [hnone answer]
      simp
  | added ask answer new entry =>
      subst entry
      rw [enqueued_singleton, answer]
      simp [newEntry, Entry.asEnqueued]
  | resolved ask found =>
      obtain ⟨front, old, back, rfl, rfl, -⟩ := resolveEntry_eq_some found
      rw [hnone (Turn.enqueued?_of_ask (by simp [ask]))]
      simp [Entry.asEnqueued, Entry.asResolved]
  | skipped ask found entry =>
      obtain ⟨front, back, rfl, rfl, -⟩ := takeEntry_eq_some found
      rw [hnone (Turn.enqueued?_of_ask (by simp [ask])), List.append_nil]
      rw [List.map_singleton, entry, List.map_append, List.map_append, List.append_assoc,
        List.map_cons]
      exact (List.perm_append_singleton _ _).append_left _
  | marked ask entries mark =>
      subst entries
      rw [hnone (Turn.enqueued?_of_ask (by simp [ask]))]
      simp [mark.same]
  | @recorded head e rest a ask entries mark status entry =>
      subst entries
      rw [hnone (Turn.enqueued?_of_ask (by simp [ask])), List.append_nil]
      have hid : e.id = head.id := by
        have hsame : e.asEnqueued.id = head.asEnqueued.id := by rw [mark.same]
        exact hsame
      have hrest : rest.filter (·.id ≠ e.id) = rest := by
        rw [List.filter_eq_self]
        intro f hf
        rw [List.map_cons, List.nodup_cons] at hids
        have hne : f.id ≠ e.id := fun heq => hids.1 (List.mem_map.mpr ⟨f, hf, heq.trans hid⟩)
        simpa using hne
      rw [hrest, List.map_singleton, entry, mark.same]
      exact List.perm_append_singleton _ _

/-- The queue file, the archive and what is lost make up what was put in the queue. -/
structure Accounts (q : MergeQueue) (asked : List Entry) (s : Store) (es : List Entry)
    (archived lost : List Archived) : Prop where
  apart : q.Apart s
  shows : q.Shows s es
  archive : q.archiveBytes s = (Json.logText Archived.toJson archived).toUTF8
  all : (es.map Entry.asEnqueued ++ archived.map (·.entry.asEnqueued)
    ++ lost.map (·.entry.asEnqueued)).Perm asked

theorem Accounts.ids (h : q.Accounts asked s es archived lost) (hfresh : (asked.map (·.id)).Nodup) :
    (es.map (·.id)).Nodup := by
  have hall := ((h.all.map (·.id)).nodup_iff).mpr hfresh
  rw [List.append_assoc, List.map_append] at hall
  have hes := (List.nodup_append.mp hall).1
  rwa [List.map_map, show ((·.id) ∘ Entry.asEnqueued) = (·.id) from rfl] at hes

theorem Accounts.aside (h : q.Accounts asked s es archived lost) (hqueue : s.Keeps q.queueFile t)
    (harchive : s.Keeps q.archive t) : q.Accounts asked t es archived lost where
  apart := h.apart.of_home hqueue.home
  shows := h.shows.of_keeps hqueue
  archive := harchive.contents.trans h.archive
  all := h.all

theorem Edited.length_gone (h : q.Edited c es es' gone) : gone.length ≤ 1 := by
  cases h <;> simp

/-- A turn keeps the accounts; what it loses, it loses by a file that could not be written. -/
theorem Accounts.turn (h : q.Accounts asked c.before es archived lost)
    (hi : ∀ path ∈ [q.queueFile, lockPath q.queueFile, q.archive], q.integrator.Keeps path)
    (hfresh : (asked.map (·.id)).Nodup) :
    ∃ es' archived' lost', q.Accounts (asked ++ q.enqueued [c]) (c.after q) es' archived' lost' ∧
      lost'.length ≤ lost.length + ([c].filter fun c => (c.answer q).isFault).length := by
  have hlock := hi (lockPath q.queueFile) (by simp)
  obtain ⟨es', gone, hturned⟩ := h.shows.turned h.apart (hi q.queueFile (by simp)) hlock
  have hapart := h.apart.of_home (stays_turn h.apart hlock).1
  have hperm := hturned.edited.perm (h.ids hfresh)
  rcases hturned.filed (hi q.archive (by simp)) with harchive | ⟨harchive, hfault⟩
  · refine ⟨es', archived ++ gone, lost, ⟨hapart, hturned.shows, ?_, ?_⟩, Nat.le_add_right ..⟩
    · rw [harchive, h.archive, Json.logText_append]
      exact (String.toByteArray_append ..).symm
    · rw [List.perm_iff_count]
      intro e
      have hbefore := h.all.count_eq e
      have hturn := hperm.count_eq e
      simp only [List.map_append, List.count_append] at *
      omega
  · refine ⟨es', archived, lost ++ gone, ⟨hapart, hturned.shows, harchive.trans h.archive, ?_⟩, ?_⟩
    · rw [List.perm_iff_count]
      intro e
      have hbefore := h.all.count_eq e
      have hturn := hperm.count_eq e
      simp only [List.map_append, List.count_append] at *
      omega
    · have hone := hturned.edited.length_gone
      simp only [List.length_append, List.filter_cons, hfault, if_true, List.filter_nil,
        List.length_singleton]
      omega

/-- After every run that begins with an empty queue and an empty archive, each entry that was
put in the queue is in the queue file, or in the archive, or lost; and a run loses no more
entries than it has calls that answer that a file could not be read or written. -/
theorem run_accounts (ha : q.Apart s) (hs : q.Shows s []) (harchive : q.archiveBytes s = .empty)
    (hi : ∀ path ∈ [q.queueFile, lockPath q.queueFile, q.archive], q.integrator.Keeps path)
    (hrun : q.Run [q.queueFile, q.archive] s cs t)
    (hfresh : ((q.enqueued cs).map (·.id)).Nodup) :
    ∃ es archived lost, q.Accounts (q.enqueued cs) t es archived lost ∧
      lost.length ≤ (cs.filter fun c => (c.answer q).isFault).length := by
  induction hrun with
  | start =>
      refine ⟨[], [], [], ⟨ha, hs, ?_, .nil⟩, Nat.le_refl 0⟩
      rw [harchive]
      rfl
  | call _ ask host ih =>
      rw [enqueued_append, List.map_append] at hfresh
      obtain ⟨es, archived, lost, haccounts, hlost⟩ := ih (List.nodup_append.mp hfresh).1
      obtain ⟨es', archived', lost', hturn, hmore⟩ :=
        Accounts.turn (c := ⟨ask, host, _⟩) haccounts hi
        (List.nodup_append.mp hfresh).1
      refine ⟨es', archived', lost', ?_, ?_⟩
      · rwa [enqueued_append]
      · rw [List.filter_append, List.length_append]
        exact hmore.trans (Nat.add_le_add_right hlost _)
  | aside _ hothers ih =>
      obtain ⟨es, archived, lost, haccounts, hlost⟩ := ih hfresh
      exact ⟨es, archived, lost,
        haccounts.aside (hothers q.queueFile (by simp)) (hothers q.archive (by simp)), hlost⟩

/-- Of two entries one waits and the other one is archived, and none is lost. -/
theorem run_accounts_acceptedStore : ∃ q s cs t, Apart q s ∧ q.Shows s [] ∧
    q.archiveBytes s = .empty ∧
    (∀ path ∈ [q.queueFile, lockPath q.queueFile, q.archive], q.integrator.Keeps path) ∧
    q.Run [q.queueFile, q.archive] s cs t ∧ ((q.enqueued cs).map (·.id)).Nodup ∧
    cs.map (·.ask) = [.enqueue "dev" "b1" "w", .enqueue "dev" "b2" "w", .process] ∧
    (q.enqueued cs).length = 2 ∧ ∃ e a, q.Accounts (q.enqueued cs) t [e] [a] [] := by
  obtain ⟨p, cs, t, p', e, f, -, hprimed, hrun, hasks, -, henqueued, hids,
    ⟨before, c, g, hcs, hmerged, -⟩, hafter, -⟩ :=
    overtaken_acceptedStore [smoothQueue.queueFile, smoothQueue.archive]
  have ha := hprimed.unhindered.apart
  have harchive : smoothQueue.archiveBytes acceptedStore = .empty := rfl
  have hi : ∀ path ∈ [smoothQueue.queueFile, lockPath smoothQueue.queueFile, smoothQueue.archive],
      smoothQueue.integrator.Keeps path := fun _ _ => Integrator.keeps_still _ _
  have hfresh : ((smoothQueue.enqueued cs).map (·.id)).Nodup := by
    rw [henqueued]
    simpa using hids
  obtain ⟨es, archived, lost, haccounts, hlost⟩ :=
    run_accounts ha hprimed.shows harchive hi hrun hfresh
  obtain rfl := haccounts.shows.unique hafter.shows
  -- The third call merges an entry, and the two before it have put one in the queue each.
  have hfaults : (cs.filter fun c => (c.answer smoothQueue).isFault).length = 0 := by
    obtain ⟨hcalm, hnone⟩ := Answer.isFault_of_merged? hmerged
    have hle := smoothQueue.length_enqueued_add_faults_le before
    have hlength := congrArg List.length hasks
    have hentered := congrArg List.length henqueued
    rw [hcs, enqueued_append, enqueued_singleton, hnone] at hentered
    rw [hcs] at hlength ⊢
    simp only [List.length_map, List.length_append, List.length_cons, List.length_nil,
      Option.toList_none, List.filter_append, List.filter_cons, hcalm, List.filter_nil,
      Bool.false_eq_true, if_false] at hlength hentered ⊢
    omega
  obtain rfl := List.length_eq_zero_iff.mp (Nat.le_zero.mp (hfaults ▸ hlost))
  have hall := haccounts.all.length_eq
  rw [henqueued] at hall
  obtain ⟨a, rfl⟩ : ∃ a, archived = [a] := by
    refine List.length_eq_one_iff.mp ?_
    simpa using hall
  exact ⟨smoothQueue, _, cs, t, ha, hprimed.shows, harchive, hi, hrun, hfresh, hasks,
    by rw [henqueued]; rfl, f, a, haccounts⟩

/-- Where the archive is a directory, skipping the head of the queue loses it. -/
theorem Shows.skip_lost {e : Entry} {rest : List Entry} {h : Host} (hs : q.Shows s (e :: rest))
    (ha : q.Apart s) (hready : q.Ready h s) (hqueued : e.status = .queued)
    (hdir : s.at? (s.place q.archive) = some .directory) :
    ∃ fault t, (q.skip e.branch).perform h s = (.error (.file fault), t) ∧ q.Shows t rest ∧
      q.archiveBytes t = q.archiveBytes s := by
  have htaken : ∀ held, e.isTaken { h with held := held } = false := by
    intro held
    rw [Entry.isTaken, hqueued]
    rfl
  have hfound : takeEntry e.branch (e :: rest) = some (e, rest) := by
    rw [takeEntry, if_pos rfl]
  obtain ⟨t, hwrite, ht, -⟩ := perform_write_of_canReplace hready.replace rest
    { h with held := s.place (lockPath q.queueFile) :: h.held }
  have hwrites := touched_of_write hwrite
  have harchive := archiveBytes_of_touched (q := q) hwrites (by simpa using ha.archived.1)
  have hdir' : t.at? (t.place q.archive) = some .directory := by
    rw [Store.place_eq hwrites.home]
    exact hwrites.directory _ hdir
  rw [skip, hs.perform_locked_of_ready hready]
  dsimp only
  rw [hfound]
  dsimp only
  rw [if_neg (by rw [hqueued]; decide), perform_bind, perform_read]
  dsimp only
  rw [htaken, if_neg Bool.false_ne_true, perform_bind, hwrite]
  dsimp only
  obtain ⟨fault, hfault⟩ := Store.append_of_directory hdir'
    (Json.lineText (Archived.toJson ⟨e, (h.clock 0).stamp, .abandoned⟩)).toUTF8 (h.clock 0)
  rcases ht.perform_archiveEntry (ha.of_home hwrites.home) e .abandoned
    { h with held := s.place (lockPath q.queueFile) :: h.held } with
    ⟨u, hok, -⟩ | ⟨fault, u, hperform, hshows, hsame⟩
  · rw [archiveEntry, perform_bind, perform_now] at hok
    dsimp only at hok
    rw [perform_bind, appendRecord, perform_appendFile, hfault] at hok
    cases hok
  · exact ⟨fault, u, hperform, hshows, hsame.trans harchive⟩

end MergeQueue

end Pipewright
