import Pipewright.Proofs.Merge.Order

/-!
# Evidence and readiness

What speaks for a merge when it is recorded, and the nodes of the entries that wait.
-/

/-!
## The evidence for a merge

That a branch is merged is said in three places: in the answer to a call, in the
archive, and in the audit log. Wherever it is said, in this turn or in an earlier
one the branch was rebased cleanly, its tests passed, and the integration branch
was moved forward to it (`Cleared`). And the integration branch is moved forward
once at most for an entry, however often the recording of the merge fails.

Both follow from what the status of an entry in the queue says of the turns so
far: it is merged exactly if the integration branch was moved forward (`Evident`).
-/

namespace Pipewright

open Merge Pipewright.Action

namespace MergeQueue

variable {q : MergeQueue} {c : Turn} {cs : List Turn} {es es' : List Entry} {gone : List Archived}
  {e f g : Entry} {s t : Store}

/-- In one of the turns the entry was claimed, its branch was rebased cleanly, the tests
passed, and the integration branch was moved forward. -/
def Cleared (q : MergeQueue) (cs : List Turn) (e : Entry) : Prop :=
  ∃ d ∈ cs, ∃ f, d.Forwards q f ∧ f.asEnqueued = e.asEnqueued

theorem Cleared.more (h : q.Cleared cs e) (c : Turn) : q.Cleared (cs ++ [c]) e := by
  obtain ⟨d, hd, hf⟩ := h
  exact ⟨d, List.mem_append_left _ hd, hf⟩

theorem cleared_last (cs : List Turn) (h : c.Forwards q f) (hsame : f.asEnqueued = e.asEnqueued) :
    q.Cleared (cs ++ [c]) e :=
  ⟨c, by simp, f, h, hsame⟩

theorem id_of_asEnqueued (h : e.asEnqueued = f.asEnqueued) : e.id = f.id := by
  have hid : e.asEnqueued.id = f.asEnqueued.id := by rw [h]
  exact hid

/-! ### What a turn does to the statuses -/

/-- Where the integration branch is moved forward to an entry, it was the head and not merged,
and is merged if it is still in the queue. -/
theorem Edited.of_forwards (h : q.Edited c es es' gone) (hf : c.Forwards q f) :
    ∃ head rest, es = head :: rest ∧ head.status ≠ .merged ∧ f.asEnqueued = head.asEnqueued ∧
      ∀ g ∈ es', g.status ≠ .merged → g ∈ rest := by
  have hmark : ∀ {head e}, q.Marked c head e → head.status ≠ .merged ∧
      f.asEnqueued = head.asEnqueued ∧ e.status = .merged := by
    intro head e hmark
    cases hmark with
    | unmarked idle => exact absurd hf (idle f)
    | held o claim idle => exact absurd hf (idle f)
    | merged claim forwards =>
        obtain rfl := hf.unique forwards
        refine ⟨fun hmerged => ?_, Entry.asEnqueued_of_claim claim, rfl⟩
        rw [Entry.claim, hmerged] at claim
        cases claim
  cases h with
  | same _ idle => exact absurd hf (idle f)
  | added ask => rw [hf.1] at ask; cases ask
  | resolved ask => rw [hf.1] at ask; cases ask
  | skipped ask => rw [hf.1] at ask; cases ask
  | marked ask entries mark =>
      obtain ⟨hhead, hsame, hmerged⟩ := hmark mark
      refine ⟨_, _, entries, hhead, hsame, fun g hg hstatus => ?_⟩
      rcases List.mem_cons.mp hg with rfl | hg
      · exact absurd hmerged hstatus
      · exact hg
  | recorded ask entries mark =>
      obtain ⟨hhead, hsame, -⟩ := hmark mark
      exact ⟨_, _, entries, hhead, hsame, fun g hg _ => List.mem_of_mem_filter hg⟩

/-- An entry `g` in the queue is what a turn made of the entry `e`. -/
structure Stems (q : MergeQueue) (c : Turn) (e g : Entry) : Prop where
  same : g.asEnqueued = e.asEnqueued
  unmerged : g.status ≠ .merged → e.status ≠ .merged
  merged : g.status = .merged → e.status = .merged ∨ ∃ f, c.Forwards q f ∧
      f.asEnqueued = g.asEnqueued

theorem Stems.refl (q : MergeQueue) (c : Turn) (e : Entry) : q.Stems c e e := ⟨rfl, id, .inl⟩

theorem Marked.stems (h : q.Marked c e g) : q.Stems c e g := by
  have hclaimed : ∀ {f}, e.claim c.host = .own f → e.status ≠ .merged := by
    intro f hclaim hmerged
    rw [Entry.claim, hmerged] at hclaim
    cases hclaim
  refine ⟨h.same, fun hstatus => ?_, fun hstatus => ?_⟩
  · cases h with
    | unmarked => exact hstatus
    | held o claim => exact hclaimed claim
    | merged claim => exact absurd rfl hstatus
  · cases h with
    | unmarked => exact .inl hstatus
    | held => cases hstatus
    | merged claim forwards => exact .inr ⟨_, forwards, rfl⟩

/-- An entry in the queue was put in it in this turn, or it was there before. -/
theorem Edited.stems (h : q.Edited c es es' gone) (hg : g ∈ es') :
    ((c.answer q).enqueued? = some g ∧ g.status = .queued ∧ g.asEnqueued = g) ∨
      ∃ e ∈ es, q.Stems c e g := by
  have hsame : ∀ {e}, e ∈ es → ∃ f ∈ es, q.Stems c f e := fun he => ⟨_, he, .refl q c _⟩
  cases h with
  | same => exact .inr (hsame hg)
  | added ask answer new entry =>
      rcases List.mem_append.mp hg with hg | hg
      · exact .inr (hsame hg)
      · obtain rfl := List.mem_singleton.mp hg
        subst entry
        exact .inl ⟨answer, rfl, rfl⟩
  | resolved ask found =>
      obtain ⟨front, old, back, rfl, rfl, -, -, hconflict⟩ := resolveEntry_eq_some found
      rcases List.mem_append.mp hg with hg | hg
      · exact .inr (hsame (List.mem_append_left _ hg))
      · rcases List.mem_cons.mp hg with rfl | hg
        · have hold : old.status ≠ .merged := by rw [hconflict]; nofun
          exact .inr ⟨old, by simp, rfl, fun _ => hold, nofun⟩
        · exact .inr (hsame (List.mem_append_right _ (List.mem_cons_of_mem _ hg)))
  | skipped ask found =>
      obtain ⟨front, back, rfl, rfl, -⟩ := takeEntry_eq_some found
      rcases List.mem_append.mp hg with hg | hg
      · exact .inr (hsame (List.mem_append_left _ hg))
      · exact .inr (hsame (List.mem_append_right _ (List.mem_cons_of_mem _ hg)))
  | marked ask entries mark =>
      subst entries
      rcases List.mem_cons.mp hg with rfl | hg
      · exact .inr ⟨_, List.mem_cons_self .., mark.stems⟩
      · exact .inr (hsame (List.mem_cons_of_mem _ hg))
  | recorded ask entries =>
      subst entries
      exact .inr (hsame (List.mem_cons_of_mem _ (List.mem_of_mem_filter hg)))

/-! ### What a status says -/

/-- The entries in the queue are merged exactly if the integration branch was moved forward to
them, and it was moved forward once at most for each. -/
structure Evident (q : MergeQueue) (cs : List Turn) (es : List Entry) : Prop where
  merged : ∀ e ∈ es, e.status = .merged → q.Cleared cs e
  unmerged : ∀ e ∈ es, e.status ≠ .merged → ∀ d ∈ cs, ∀ f, d.Forwards q f → f.id ≠ e.id
  known : ∀ d ∈ cs, ∀ f, d.Forwards q f → f.asEnqueued ∈ q.enqueued cs
  once : cs.Pairwise fun c d => ∀ e f, c.Forwards q e → d.Forwards q f → e.id ≠ f.id

theorem InOrder.ids {asked : List Entry} (h : InOrder asked es)
    (hfresh : (asked.map (·.id)).Nodup) :
    (es.map (·.id)).Nodup := by
  have hids := hfresh.sublist (h.order.map (·.id))
  rwa [List.map_map, show ((·.id) ∘ Entry.asEnqueued) = (·.id) from rfl] at hids

theorem Evident.turn (h : q.Evident cs es) (horder : InOrder (q.enqueued cs) es)
    (hedit : q.Edited c es es' gone) (hfresh : ((q.enqueued (cs ++ [c])).map (·.id)).Nodup) :
    q.Evident (cs ++ [c]) es' := by
  rw [enqueued_append, List.map_append, List.nodup_append] at hfresh
  obtain ⟨hfresh, -, hnew⟩ := hfresh
  have hids := horder.ids hfresh
  have hasked : ∀ e ∈ es, e.asEnqueued ∈ q.enqueued cs :=
    fun e he => horder.order.subset (List.mem_map_of_mem he)
  refine ⟨fun g hg hmerged => ?_, fun g hg hstatus d hd f hf => ?_, fun d hd f hf => ?_, ?_⟩
  · rcases hedit.stems hg with ⟨-, hqueued, -⟩ | ⟨e, he, hstems⟩
    · rw [hqueued] at hmerged
      cases hmerged
    · rcases hstems.merged hmerged with hbefore | ⟨f, hf, hsame⟩
      · obtain ⟨d, hd, f, hf, hsame⟩ := h.merged e he hbefore
        exact ⟨d, List.mem_append_left _ hd, f, hf, hsame.trans hstems.same.symm⟩
      · exact cleared_last cs hf hsame
  · rcases List.mem_append.mp hd with hd | hd
    · rcases hedit.stems hg with ⟨hanswer, -, hsame⟩ | ⟨e, he, hstems⟩
      · have hmem : g ∈ q.enqueued [c] := by
          rw [enqueued_singleton, hanswer]
          exact List.mem_singleton.mpr rfl
        exact hnew _ (List.mem_map_of_mem (h.known d hd f hf)) _ (List.mem_map_of_mem hmem)
      · rw [id_of_asEnqueued hstems.same]
        exact h.unmerged e he (hstems.unmerged hstatus) d hd f hf
    · obtain rfl := List.mem_singleton.mp hd
      obtain ⟨head, rest, rfl, -, hsame, hrest⟩ := hedit.of_forwards hf
      rw [List.map_cons, List.nodup_cons] at hids
      rw [id_of_asEnqueued hsame]
      exact fun heq => hids.1 (List.mem_map.mpr ⟨g, hrest g hg hstatus, heq.symm⟩)
  · rw [enqueued_append]
    refine List.mem_append_left _ ?_
    rcases List.mem_append.mp hd with hd | hd
    · exact h.known d hd f hf
    · obtain rfl := List.mem_singleton.mp hd
      obtain ⟨head, rest, rfl, -, hsame, -⟩ := hedit.of_forwards hf
      rw [hsame]
      exact hasked head (List.mem_cons_self ..)
  · rw [List.pairwise_append]
    refine ⟨h.once, List.pairwise_singleton _ _, fun d hd d' hd' e f he hf => ?_⟩
    obtain rfl := List.mem_singleton.mp hd'
    obtain ⟨head, rest, rfl, hstatus, hsame, -⟩ := hedit.of_forwards hf
    rw [id_of_asEnqueued hsame]
    exact h.unmerged head (List.mem_cons_self ..) hstatus d hd e he

/-! ### What is said of merges -/

end MergeQueue

end Pipewright

/-!
## The nodes of entries that wait

The node of an entry that waits in the queue is ready for merging. It can also be
merged already, and then another entry for the same node, in front of this one,
was merged while this one waited (`Overtaken`): the queue takes several branches
for one node, and merging the first of them moves the node.

That is not a matter of failures: it happens in a queue that nothing hinders,
whenever two branches are put in it for one node (`not_allReady_acceptedStore`).
-/

namespace Pipewright

open Merge Pipewright.Action

namespace MergeQueue

variable {q : MergeQueue} {c : Turn} {cs : List Turn} {es es' : List Entry} {gone : List Archived}
  {e g : Entry} {s t : Store} {p : Pipeline} {node actor : String} {target : Status}

/-! ### The graph file -/

/-- Bringing a node to a status leaves the graph file alone, or moves that node. -/
theorem Brought.graph {r : Except Error Unit} (hb : q.Brought node target actor s (r, t))
    (hbears : GraphFile.Bears s q.graph p) (hplain : p.Plain) (htarget : target ≠ .active)
    (hseq : (∃ bytes, t.Has q.graph (some bytes) ∧ ¬s.Has q.graph (some bytes)) →
      p.checkpointSeq.toNat + 1 < 2 ^ 63) :
    (s.Keeps q.graph t ∧ (r = .ok () → p.statusOf? node = some target)) ∨
    ∃ p' source, GraphFile.Bears t q.graph p' ∧ p'.Plain ∧ p.statusOf? node = some source ∧
      source.canBecome target ∧
      ∀ id, p'.statusOf? id = if id = node then some target else p.statusOf? id := by
  cases hb with
  | still kept _ done =>
      refine .inl ⟨kept, fun hok => ?_⟩
      obtain ⟨p', n, hbears', hnode, hstatus⟩ := done hok
      obtain rfl := hbears.unique hbears'
      rw [Pipeline.statusOf?, hnode, ← hstatus]
      rfl
  | unsaved _ kept => exact .inl ⟨kept, fun hok => by cases hok⟩
  | @carriedOut loaded v now u _ kept hloaded judged saved =>
      obtain rfl := (hbears.of_keeps kept).unique hloaded
      obtain ⟨n, hnode, hlegal, -, hjudged⟩ := Pipeline.judge_eq_ok judged
      have hrecord : v.record.target = target := by
        cases hjudged with
        | granted => rfl
        | exhausted hfailed =>
            rw [hfailed] at hlegal
            have hactive : (request node target actor).target = .active := by
              simpa [Status.canBecome, Status.targets] using hlegal
            exact absurd hactive htarget
      obtain ⟨p', hbears', hplain', hbefore, hafter⟩ := hbears.saved hplain judged saved hseq
      refine .inr ⟨p', n.status, hbears', hplain', ?_, hlegal, fun id => ?_⟩
      · have hstatus : p.statusOf? node = some n.status := by
          rw [Pipeline.statusOf?, show p.node? node = some n from hnode]
          rfl
        exact hstatus
      · rw [hafter, hrecord]
        rfl

/-! ### Entries that are overtaken -/

/-- The turn moves the node from merge-ready to merged. -/
def Merges (q : MergeQueue) (c : Turn) (node : String) : Prop :=
  (∃ p, GraphFile.Bears c.before q.graph p ∧ p.statusOf? node = some .mergeReady) ∧
    ∃ p, GraphFile.Bears (c.after q) q.graph p ∧ p.statusOf? node = some .merged

/-- While the entry waited in the queue, another entry for the same node was at the head, and
merging that moved the node. -/
def Overtaken (q : MergeQueue) (cs : List Turn) (e : Entry) : Prop :=
  ∃ d ∈ cs, ∃ head rest, q.Shows d.before (head :: rest) ∧ head.node = e.node ∧
    e.asEnqueued ∈ rest.map Entry.asEnqueued ∧ q.Merges d e.node

theorem node_of_asEnqueued {f : Entry} (h : e.asEnqueued = f.asEnqueued) : e.node = f.node := by
  have hnode : e.asEnqueued.node = f.asEnqueued.node := by rw [h]
  exact hnode

theorem Overtaken.of_same (h : q.Overtaken cs e) (hsame : g.asEnqueued = e.asEnqueued) :
    q.Overtaken cs g := by
  obtain ⟨d, hd, head, rest, hshows, hnode, hmem, hmerges⟩ := h
  have heq := node_of_asEnqueued hsame
  exact ⟨d, hd, head, rest, hshows, hnode.trans heq.symm, hsame ▸ hmem, heq ▸ hmerges⟩

theorem Overtaken.more (h : q.Overtaken cs e) (c : Turn) : q.Overtaken (cs ++ [c]) e := by
  obtain ⟨d, hd, hrest⟩ := h
  exact ⟨d, List.mem_append_left _ hd, hrest⟩

/-- The node of the entry is ready for merging, or it is merged and the entry was overtaken. -/
def Awaits (q : MergeQueue) (cs : List Turn) (p : Pipeline) (e : Entry) : Prop :=
  p.statusOf? e.node = some .mergeReady ∨
    p.statusOf? e.node = some .merged ∧ q.Overtaken cs e

theorem Awaits.of_same (h : q.Awaits cs p e) (hsame : g.asEnqueued = e.asEnqueued) :
    q.Awaits cs p g := by
  rw [Awaits, node_of_asEnqueued hsame]
  exact h.imp_right fun hmerged => ⟨hmerged.1, hmerged.2.of_same hsame⟩

theorem Awaits.more (h : q.Awaits cs p e) (c : Turn) (hsame : g.asEnqueued = e.asEnqueued)
    {p' : Pipeline} (hstatus : p'.statusOf? g.node = p.statusOf? e.node) :
    q.Awaits (cs ++ [c]) p' g := by
  rcases h with hready | ⟨hmerged, hovertaken⟩
  · exact .inl (hstatus.trans hready)
  · exact .inr ⟨hstatus.trans hmerged, (hovertaken.of_same hsame).more c⟩

theorem Marked.merged_of_marked {head : Entry} (h : q.Marked c head e) (h' : q.Marked c head g)
    (hstatus : e.status = .merged) : g.status = .merged := by
  cases h with
  | unmarked idle =>
      cases h' with
      | unmarked => exact hstatus
      | held o claim =>
          rw [Entry.claim, hstatus] at claim
          cases claim
      | merged => rfl
  | held => cases hstatus
  | merged claim forwards =>
      cases h' with
      | unmarked idle => exact absurd forwards (idle _)
      | held o claim' idle => exact absurd forwards (idle _)
      | merged => rfl

/-- If the head is merged, the entries that are not merged were behind it. -/
theorem Edited.behind {head : Entry} {rest : List Entry} (h : q.Edited c (head :: rest) es' gone)
    (hask : c.ask = .process) (hmark : q.Marked c head e) (hstatus : e.status = .merged)
    (hg : g ∈ es') (hunmerged : g.status ≠ .merged) : g ∈ rest := by
  cases h with
  | same _ idle =>
      rcases List.mem_cons.mp hg with rfl | hg
      · exact absurd (hmark.merged_of_marked (.unmarked idle) hstatus) hunmerged
      · exact hg
  | added ask => rw [hask] at ask; cases ask
  | resolved ask => rw [hask] at ask; cases ask
  | skipped ask => rw [hask] at ask; cases ask
  | marked ask entries mark =>
      cases entries
      rcases List.mem_cons.mp hg with rfl | hg
      · exact absurd (hmark.merged_of_marked mark hstatus) hunmerged
      · exact hg
  | recorded ask entries =>
      cases entries
      exact List.mem_of_mem_filter hg

/-! ### Runs -/

def Saves (q : MergeQueue) (c : Turn) : Prop :=
  ∃ bytes, (c.after q).Has q.graph (some bytes) ∧ ¬c.before.Has q.graph (some bytes)

/-- The graph file bears a pipeline, in which the nodes of all entries that wait are ready or
were merged by another entry. -/
structure Readied (q : MergeQueue) (cs : List Turn) (s : Store) (es : List Entry) (p : Pipeline) :
    Prop where
  apart : q.Apart s
  shows : q.Shows s es
  bears : GraphFile.Bears s q.graph p
  plain : p.Plain
  awaits : ∀ e ∈ es, e.status ≠ .merged → q.Awaits cs p e

/-- Where the graph is saved between two places in a turn, the turn saves it. -/
theorem saves_of_keeps {u v : Store} (before : c.before.Keeps q.graph u)
    (after : v.Keeps q.graph (c.after q))
    (h : ∃ bytes, v.Has q.graph (some bytes) ∧ ¬u.Has q.graph (some bytes)) : q.Saves c := by
  obtain ⟨bytes, hnew, hold⟩ := h
  exact ⟨bytes, after.has _ hnew, fun hbytes => hold (before.has _ hbytes)⟩

/-- The nodes of all entries are ready or overtaken after a turn if those of new entries are
ready and the others are as they were, unless they are taken care of. -/
theorem Readied.next (h : q.Readied cs c.before es p) (hturned : q.Turned c es es' gone)
    (hapart : q.Apart (c.after q)) {p' : Pipeline} (hbears : GraphFile.Bears (c.after q) q.graph p')
    (hplain : p'.Plain)
    (hnew : ∀ g, (c.answer q).enqueued? = some g → p'.statusOf? g.node = some .mergeReady)
    (hothers : ∀ g ∈ es', g.status ≠ .merged → p'.statusOf? g.node = p.statusOf? g.node ∨
      q.Awaits (cs ++ [c]) p' g) : q.Readied (cs ++ [c]) (c.after q) es' p' := by
  refine ⟨hapart, hturned.shows, hbears, hplain, fun g hg hstatus => ?_⟩
  rcases hothers g hg hstatus with hsame | hawaits
  · rcases hturned.edited.stems hg with ⟨hanswer, -, -⟩ | ⟨e, he, hstems⟩
    · exact .inl (hnew g hanswer)
    · refine (h.awaits e he (hstems.unmerged hstatus)).more c hstems.same ?_
      rw [hsame, node_of_asEnqueued hstems.same]
  · exact hawaits

theorem Readied.turn (h : q.Readied cs c.before es p)
    (hi : ∀ path ∈ [q.queueFile, lockPath q.queueFile, q.graph], q.integrator.Keeps path)
    (hseq : q.Saves c → p.checkpointSeq.toNat + 1 < 2 ^ 63) :
    ∃ es' p', q.Readied (cs ++ [c]) (c.after q) es' p' := by
  have hqueue := hi q.queueFile (by simp)
  have hlock := hi (lockPath q.queueFile) (by simp)
  obtain ⟨es', gone, hturned⟩ := h.shows.turned h.apart hqueue hlock
  have hmoved := h.shows.moved h.apart hqueue (hi q.graph (by simp)) (.inl rfl)
  have hapart := h.apart.of_home (stays_turn h.apart hlock).1
  -- Where the graph is as it was, only an entry that is new in the queue is of concern.
  have hkept : c.before.Keeps q.graph (c.after q) →
      (∀ g, (c.answer q).enqueued? = some g → p.statusOf? g.node = some .mergeReady) →
      q.Readied (cs ++ [c]) (c.after q) es' p := fun hkeeps hnew =>
    h.next hturned hapart (h.bears.of_keeps hkeeps) h.plain hnew fun _ _ _ => .inl rfl
  cases hmoved with
  | still kept answer => exact ⟨es', p, hkept kept fun g hg => by rw [answer] at hg; cases hg⟩
  | @ready identity branch node u v r ask before brought after done =>
      rcases brought.graph (h.bears.of_keeps before) h.plain nofun
        (fun hsaved => hseq (saves_of_keeps before after hsaved)) with
        ⟨hkeeps, hdone⟩ | ⟨p', source, hbears, hplain, hsource, hlegal, hstatuses⟩
      · refine ⟨es', p, hkept (before.trans (hkeeps.trans after)) fun g hg => ?_⟩
        obtain ⟨hok, hnode⟩ := done g hg
        rw [hnode]
        exact hdone hok
      · refine ⟨es', p', h.next hturned hapart (hbears.of_keeps after) hplain (fun g hg => ?_)
          fun g hg hstatus => ?_⟩
        · exact (hstatuses g.node).trans (if_pos (done g hg).2)
        · by_cases hnode : g.node = node
          · exact .inr (.inl ((hstatuses g.node).trans (if_pos hnode)))
          · exact .inl ((hstatuses g.node).trans (if_neg hnode))
  | @merged head e rest u v r ask entries mark status before brought after =>
      subst entries
      have hnone : (c.answer q).enqueued? = none := Turn.enqueued?_of_ask (by rw [ask]; nofun)
      have hnew : ∀ {p : Pipeline} (g : Entry), (c.answer q).enqueued? = some g →
          p.statusOf? g.node = some .mergeReady := fun g hg => by rw [hnone] at hg; cases hg
      rcases brought.graph (h.bears.of_keeps before) h.plain nofun
        (fun hsaved => hseq (saves_of_keeps before after hsaved)) with
        ⟨hkeeps, -⟩ | ⟨p', source, hbears, hplain, hsource, hlegal, hstatuses⟩
      · exact ⟨es', p, hkept (before.trans (hkeeps.trans after)) hnew⟩
      · have hready : source = .mergeReady := by
          cases source <;> first | rfl | cases hlegal
        rw [hready] at hsource
        have hmerges : q.Merges c e.node :=
          ⟨⟨p, h.bears, hsource⟩, p', hbears.of_keeps after, (hstatuses e.node).trans (if_pos rfl)⟩
        refine ⟨es', p', h.next hturned hapart (hbears.of_keeps after) hplain hnew
          fun g hg hstatus => ?_⟩
        by_cases hnode : g.node = e.node
        · have hbehind := hturned.edited.behind ask mark status hg hstatus
          refine .inr (.inr ⟨(hstatuses g.node).trans (if_pos hnode), c, by simp, head, rest,
            h.shows, ?_, List.mem_map_of_mem hbehind, hnode ▸ hmerges⟩)
          rw [hnode, node_of_asEnqueued mark.same]
        · exact .inl ((hstatuses g.node).trans (if_neg hnode))

/-- An entry that is claimed for integration is one that waits. -/
theorem Readied.claimed (h : q.Readied cs s es p) {host : Host} {u : Store}
    (hclaim : q.claim.perform host s = (.ok (some (.own e)), u)) : q.Awaits cs p e := by
  have hclaimed := h.shows.perform_claim h.apart host
  obtain ⟨c, hc⟩ : ∃ c, c = Claim.own e := ⟨_, rfl⟩
  rw [hclaim, ← hc] at hclaimed
  cases hclaimed with
  | @own head f rest _ entries claim =>
      obtain rfl := Claim.own.inj hc
      have hstatus : head.status ≠ .merged := by
        intro hmerged
        rw [Entry.claim, hmerged] at claim
        cases claim
      have hhead : head ∈ es := by simp [entries]
      exact (h.awaits head hhead hstatus).of_same (Entry.asEnqueued_of_claim claim)
  | seen entries claim => exact absurd hc (claim e)

/-- In every run that begins with an empty queue and a graph that is read back when it is
written, and in which the number of the graph stays below the limit of what is read back, the
nodes of all entries that wait are ready for merging, or merged because another entry for the
same node was merged while it was in front of this one; and so is the node of an entry whose
integration is begun. -/
theorem run_readiness (ha : q.Apart s) (hs : q.Shows s []) (hbears : GraphFile.Bears s q.graph p)
    (hplain : p.Plain)
    (hi : ∀ path ∈ [q.queueFile, lockPath q.queueFile, q.graph], q.integrator.Keeps path)
    (hrun : q.Run [q.queueFile, q.graph] s cs t)
    (hseq : ∀ c ∈ cs, q.Saves c → ∀ p, GraphFile.Bears c.before q.graph p →
      p.checkpointSeq.toNat + 1 < 2 ^ 63) :
    ∃ es p', q.Shows t es ∧ GraphFile.Bears t q.graph p' ∧
      (∀ e ∈ es, e.status ≠ .merged → q.Awaits cs p' e) ∧
      ∀ h e u, q.claim.perform h t = (.ok (some (.own e)), u) → q.Awaits cs p' e := by
  suffices hready : ∃ es p', q.Readied cs t es p' by
    obtain ⟨es, p', hready⟩ := hready
    exact ⟨es, p', hready.shows, hready.bears, hready.awaits, fun _ _ _ => hready.claimed⟩
  induction hrun with
  | start => exact ⟨[], p, ha, hs, hbears, hplain, nofun⟩
  | @call cs t _ ask host ih =>
      obtain ⟨hbefore, hlast⟩ := List.forall_mem_append.mp hseq
      obtain ⟨es, p', hready⟩ := ih hbefore
      exact Readied.turn (c := ⟨ask, host, t⟩) hready hi fun hsaves =>
        hlast _ (List.mem_singleton.mpr rfl) hsaves p' hready.bears
  | aside _ hothers ih =>
      obtain ⟨es, p', hready⟩ := ih hseq
      have hqueue := hothers q.queueFile (by simp)
      exact ⟨es, p', hready.apart.of_home hqueue.home, hready.shows.of_keeps hqueue,
        hready.bears.of_keeps (hothers q.graph (by simp)), hready.plain, hready.awaits⟩

/-- The first of two branches for the same work is merged, and the second one waits with a node that
is merged, overtaken by the first. -/
theorem run_readiness_acceptedStore : ∃ q s p cs t, Apart q s ∧ q.Shows s [] ∧
    GraphFile.Bears s q.graph p ∧ p.Plain ∧
    (∀ path ∈ [q.queueFile, lockPath q.queueFile, q.graph], q.integrator.Keeps path) ∧
    q.Run [q.queueFile, q.graph] s cs t ∧ cs.length = 3 ∧
    (∀ c ∈ cs, q.Saves c → ∀ p, GraphFile.Bears c.before q.graph p →
      p.checkpointSeq.toNat + 1 < 2 ^ 63) ∧
    ∃ e p', q.Shows t [e] ∧ GraphFile.Bears t q.graph p' ∧ e.status = .queued ∧
      p'.statusOf? e.node = some .merged ∧ q.Overtaken cs e ∧
      ∀ h f u, q.claim.perform h t = (.ok (some (.own f)), u) → q.Awaits cs p' f := by
  obtain ⟨p, cs, t, p', _, f, -, hprimed, hrun, hasks, hbounds, -, -, -, hafter, hnode, hqueued⟩ :=
    overtaken_acceptedStore [smoothQueue.queueFile, smoothQueue.graph]
  have hi : ∀ path ∈ [smoothQueue.queueFile, lockPath smoothQueue.queueFile, smoothQueue.graph],
      smoothQueue.integrator.Keeps path := fun _ _ => Integrator.keeps_still _ _
  have hseq : ∀ c ∈ cs, smoothQueue.Saves c → ∀ p, GraphFile.Bears c.before smoothQueue.graph p →
      p.checkpointSeq.toNat + 1 < 2 ^ 63 := fun c hc _ => hbounds c hc
  have hlength : cs.length = 3 := by
    have hmap := congrArg List.length hasks
    rwa [List.length_map] at hmap
  obtain ⟨es, p'', hshows, hbears, hawaits, hclaimed⟩ := run_readiness hprimed.unhindered.apart
    hprimed.shows hprimed.bears hprimed.plain hi hrun hseq
  obtain rfl := hshows.unique hafter.shows
  obtain rfl := hbears.unique hafter.bears
  have hmerged : p''.statusOf? f.node = some .merged := hnode ▸ hafter.statusOf?
  have hovertaken : smoothQueue.Overtaken cs f := by
    rcases hawaits f (List.mem_singleton_self f) (by rw [hqueued]; decide) with
      hready | ⟨-, hovertaken⟩
    · rw [hmerged] at hready
      cases hready
    · exact hovertaken
  exact ⟨smoothQueue, _, p, cs, t, hprimed.unhindered.apart, hprimed.shows, hprimed.bears,
    hprimed.plain, hi, hrun, hlength, hseq, f, p'', hshows, hbears, hqueued, hmerged, hovertaken,
    hclaimed⟩

/-- The nodes of all entries that wait are ready for merging. -/
def AllReady (q : MergeQueue) (s : Store) : Prop :=
  ∃ es p, q.Shows s es ∧ GraphFile.Bears s q.graph p ∧
    ∀ e ∈ es, e.status ≠ .merged → p.statusOf? e.node = some .mergeReady

/-- An entry can wait with a node that is merged already, and its integration can be begun. -/
theorem not_allReady_acceptedStore : ∃ p cs t, Untried acceptedStore "pipeline.dot" p ∧
    smoothQueue.Shows acceptedStore [] ∧ smoothQueue.Run smoothQueue.files acceptedStore cs t ∧
    cs.map (·.ask) = [.enqueue "dev" "b1" "w", .enqueue "dev" "b2" "w", .process] ∧
    (∀ c ∈ cs, ∀ p, GraphFile.Bears c.before "pipeline.dot" p →
      p.checkpointSeq.toNat + 1 < 2 ^ 63) ∧
    ¬smoothQueue.AllReady t ∧
    ∃ p' e u, GraphFile.Bears t "pipeline.dot" p' ∧ p'.statusOf? "w" = some .merged ∧
      e.node = "w" ∧ smoothQueue.claim.perform someHost t = (.ok (some (.own e)), u) := by
  obtain ⟨p, cs, t, p', _, e, huntried, hprimed, hrun, hasks, hbounds, -, -, -, hafter, hnode,
    hstatus⟩ :=
    overtaken_acceptedStore smoothQueue.files
  have hstatusOf : p'.statusOf? "w" = some .merged := hafter.statusOf?
  obtain ⟨f, hclaim, hfnode⟩ : ∃ f, e.claim someHost = .own f ∧ f.node = "w" := by
    rw [Entry.claim, hstatus]
    exact ⟨_, rfl, hnode⟩
  obtain ⟨u, hclaimed, -⟩ := hafter.claim (h := someHost) rfl hclaim
  refine ⟨p, cs, t, huntried, hprimed.shows, hrun, hasks, hbounds, ?_,
    p', f, u, hafter.bears, hstatusOf, hfnode, hclaimed⟩
  rintro ⟨es, p'', hshows, hbears, hready⟩
  obtain rfl := hshows.unique hafter.shows
  obtain rfl := hbears.unique hafter.bears
  have hwaits : e.status ≠ .merged := by
    rw [hstatus]
    decide
  have hclash := hready e (List.mem_singleton.mpr rfl) hwaits
  rw [hnode, hstatusOf] at hclash
  cases hclash

end MergeQueue

end Pipewright
