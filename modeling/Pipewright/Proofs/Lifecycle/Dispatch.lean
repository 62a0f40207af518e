import Pipewright.Proofs.Lifecycle.Completion
import Pipewright.Proofs.Pipeline.Readiness

/-!
# Nodes that are handed out

Who asks which nodes can be handed out holds no lock, so others may have moved
before the answer is acted on. A node that could be handed out can still be
handed out after any transition of another node, except that one which waits for
a validated node is held up while that is put up for merging
(`stays_dispatchable`): validated and merged nodes let others go on, and what is
on its way from the one to the other does not. Over a session the exception is
the same (`Session.dispatchable`).

Where nothing is in the way a node that can be handed out is given to whoever
asks for it, and to nobody after that (`takes_dispatchable`). The graph file has
to be one that can be replaced (`untaken_crampedStore`).
-/

namespace Pipewright

open Pipeline (Node Ruling Verdict)

theorem Status.ne_pending_of_canBecome {s t : Status} (h : s.canBecome t) : t ≠ .pending := by
  rintro rfl
  cases s <;> cases h

namespace Pipeline

variable {p p' : Pipeline} {maxRetries : UInt32} {s : Store} {now : Instant} {q : Request}
  {r : AuditRecord} {a : Except Error AuditRecord} {v : Verdict} {n m : Node} {id : String}

/-! ## One verdict -/

theorem Node.Moves.status_ne_pending (h : n.Moves maxRetries s now q r a m) :
    m.status ≠ .pending := by
  cases h with
  | granted hlegal => exact Status.ne_pending_of_canBecome hlegal
  | exhausted => nofun

/-- A node that lets others go on still does so when it has moved, unless it was validated and is
put up for merging. -/
theorem Node.Moves.lets_on_iff (h : n.Moves maxRetries s now q r a m)
    (hon : (n.kind == .start || n.status.isSuccess) = true) :
    (m.kind == .start || m.status.isSuccess) = true ↔
      ¬(n.status = .validated ∧ q.target = .mergeReady) := by
  cases h with
  | exhausted hfailed =>
      rw [hfailed] at hon ⊢
      simpa [Status.isSuccess] using hon
  | granted hlegal _ hcheck =>
      change (n.kind == .start || q.target.isSuccess) = true ↔ _
      by_cases hstart : n.kind = .start
      · have htarget : q.target ≠ .mergeReady := by
          intro htarget
          rw [(Guard.merges_of_check hcheck (.inl htarget)).1] at hstart
          cases hstart
        simp [hstart, htarget]
      · have hother : (n.kind == .start) = false := by simpa using hstart
        rw [hother, Bool.false_or] at hon ⊢
        revert hlegal hon
        cases n.status <;> cases q.target <;> decide

theorem edges_of_judge (h : p.judge maxRetries s now q = .ok v) :
    (GraphFile.bumped v.after).edges = p.edges := by
  obtain ⟨n, -, -, -, hjudged⟩ := judge_eq_ok h
  cases hjudged <;> rfl

/-- What is saved differs from what was loaded in the node of the request, which has moved. -/
theorem differs_of_judge (h : p.judge maxRetries s now q = .ok v) :
    ∃ n m, p.node? q.node = some n ∧ n.Moves maxRetries s now q v.record (v.answer q) m ∧
      p.Differs (GraphFile.bumped v.after) q.node m := by
  obtain ⟨n, m, hnode, hmoves, hnodes⟩ := moves_of_judge h
  obtain ⟨-, -, -, hvalid, -⟩ := judge_eq_ok h
  exact ⟨n, m, hnode, hmoves, nodup_of_requireValid hvalid, ids_of_judge h,
    edges_of_judge h, hnodes⟩

/-- A node that could be handed out can still be handed out after a verdict on another one, unless
it waits for that and that goes from validated to merge-ready. -/
theorem mem_dispatchable_of_judge (h : p.judge maxRetries s now q = .ok v)
    (hnode : p.node? q.node = some n) (hid : id ∈ p.dispatchable) (hne : id ≠ q.node) :
    id ∈ (GraphFile.bumped v.after).dispatchable ↔
      ¬(n.status = .validated ∧ q.target = .mergeReady ∧ p.Feeds q.node id) := by
  obtain ⟨n', m, hnode', hmoves, hdiffers⟩ := differs_of_judge h
  obtain rfl := Option.some.inj (hnode.symm.trans hnode')
  rw [hdiffers.mem_dispatchable_iff hne hid, hdiffers.isSatisfied_self]
  have hbefore : p.Feeds q.node id → (n.kind == .start || n.status.isSuccess) = true := by
    obtain ⟨-, -, -, hall⟩ := (mem_dispatchable_iff_node? hdiffers.nodup).mp hid
    intro hfeeds
    have hon := hall q.node hfeeds
    rwa [isSatisfied, hnode] at hon
  constructor
  · rintro hon ⟨hvalidated, htarget, hfeeds⟩
    exact (hmoves.lets_on_iff (hbefore hfeeds)).mp (hon hfeeds) ⟨hvalidated, htarget⟩
  · intro hspared hfeeds
    exact (hmoves.lets_on_iff (hbefore hfeeds)).mpr fun hboth =>
      hspared ⟨hboth.1, hboth.2, hfeeds⟩

/-- The node that a verdict is about cannot be handed out afterwards. -/
theorem not_mem_dispatchable_of_judge (h : p.judge maxRetries s now q = .ok v) :
    q.node ∉ (GraphFile.bumped v.after).dispatchable := by
  obtain ⟨_, m, -, hmoves, hdiffers⟩ := differs_of_judge h
  exact hdiffers.not_mem_dispatchable hmoves.status_ne_pending

end Pipeline

namespace Engine

variable {e : Engine} {graph id : String} {q : Request} {h : Host} {s t : Store}
  {p p' p'' : Pipeline} {c : Call} {cs : List Call}

/-! ## Nodes that are left alone -/

/-- What could be handed out can still be handed out after a transition of another node, unless it
waits for that and that goes from validated to merge-ready. -/
theorem stays_dispatchable (hbears : GraphFile.Bears s graph p)
    (hmade : (∃ record, ((e.transition graph q).perform h s).1 = .ok record) ∨
      ∃ node attempts, ((e.transition graph q).perform h s).1
        = .error (.retriesExhausted node attempts)) :
    ∃ n after, p.node? q.node = some n ∧
      ((e.transition graph q).perform h s).2.Has graph (some (Pipeline.bytes after)) ∧
      (∀ id ∈ p.dispatchable, id ≠ q.node → (id ∈ after.dispatchable ↔
        ¬(n.status = .validated ∧ q.target = .mergeReady ∧ p.Feeds q.node id))) ∧
      (p.Plain → p.checkpointSeq.toNat + 1 < 2 ^ 63 → ∃ p',
        GraphFile.Bears ((e.transition graph q).perform h s).2 graph p' ∧
          p'.dispatchable = after.dispatchable) := by
  obtain ⟨u, p₀, v, hlock, hbears₀, hjudge, hsaved⟩ := saved_of_saves (saves_eq_one_iff.mpr hmade)
  obtain rfl := (hbears.of_keeps (hbears.keeps_of_locked hlock)).unique hbears₀
  obtain ⟨n, -, hnode, -⟩ := Pipeline.differs_of_judge hjudge
  refine ⟨n, GraphFile.bumped v.after, hnode, hsaved, fun id hid hne =>
    Pipeline.mem_dispatchable_of_judge hjudge hnode hid hne, fun hplain hseq => ?_⟩
  obtain ⟨p', hbears', -, hread, -⟩ := hbears.rewritten hplain hjudge hsaved hseq
  exact ⟨p', hbears', Pipeline.dispatchable_of_unlined hread⟩

theorem dispatchable_twofold (hbears : GraphFile.Bears (homeStore .twofold) "p.dot" p) :
    p.dispatchable = ["a", "b"] := by
  obtain ⟨p₀, hbears₀, -, hread⟩ := read_twofold
  obtain rfl := hbears.unique hbears₀
  rw [Pipeline.dispatchable_of_unlined hread]
  decide

/-- Of the two pieces of work that do not wait for each other the second can be handed out when the
first has been taken up. -/
theorem stays_dispatchable_twofold : ∃ p p' record,
    GraphFile.Bears (homeStore .twofold) "p.dot" p ∧ "b" ∈ p.dispatchable ∧
    ((localEngine.transition "p.dot" ⟨"a", .active, "dev", none⟩).perform quietHost
      (homeStore .twofold)).1 = .ok record ∧
    GraphFile.Bears ((localEngine.transition "p.dot" ⟨"a", .active, "dev", none⟩).perform quietHost
      (homeStore .twofold)).2 "p.dot" p' ∧ "b" ∈ p'.dispatchable := by
  obtain ⟨p, hbears, hplain, hvalid, hseq, hpending, hnodes⟩ := bears_twofold
  obtain ⟨n, hnode, -⟩ := hnodes "a" (by decide)
  have hpending := hpending n (List.mem_of_find?_eq_some hnode)
  have hclear : localEngine.Clear "p.dot" quietHost (homeStore .twofold) := clear_homeStore _ rfl
  obtain ⟨-, -, hanswer, -⟩ := hclear.granted .active "dev" hbears hvalid hnode
    (by rw [hpending]; rfl) (by simp) (by simp) (by simp [hpending]) (by simp [hpending])
  have hid : "b" ∈ p.dispatchable := by simp [dispatchable_twofold hbears]
  obtain ⟨n', after, hnode', -, hothers, hreread⟩ := stays_dispatchable hbears (.inl ⟨_, hanswer⟩)
  obtain rfl := Option.some.inj (hnode.symm.trans hnode')
  obtain ⟨p', hbears', hsame⟩ := hreread hplain (by rw [hseq]; decide)
  refine ⟨p, p', _, hbears, hid, hanswer, hbears', ?_⟩
  rw [hsame]
  exact (hothers "b" hid (by decide)).mpr (by simp [hpending])

/-- Accepted work, and work that can be handed out and waits for that, are read back from their
file. -/
theorem bears_halfway : ∃ p n, GraphFile.Bears (homeStore .halfway) "p.dot" p ∧ p.Plain ∧
    p.errors = [] ∧ p.checkpointSeq = 0 ∧ p.node? "a" = some n ∧ n.status = .validated ∧
    n.integrates = true ∧ "b" ∈ p.dispatchable ∧ p.Feeds "a" "b" := by
  have hunadorned : Pipeline.halfway.Unadorned := ⟨by decide, rfl, by decide, by decide, by decide⟩
  obtain ⟨p, hbears, hplain, hread⟩ := bears_homeStore hunadorned.lifted hunadorned.plain
  have hvalid := Pipeline.requireValid_of_errors
    (Pipeline.errors_of_wellFormed Pipeline.wellFormed_halfway)
  have hwork : Pipeline.halfway.node? "a" = some _ := rfl
  have hnode := Pipeline.node?_of_unlined hread "a"
  rw [hwork] at hnode
  obtain ⟨n, hn, heq⟩ := Option.map_eq_some_iff.mp hnode
  refine ⟨p, n, hbears, hplain,
    Pipeline.errors_of_requireValid (Pipeline.requireValid_of_unlined hvalid hread),
    (congrArg Pipeline.checkpointSeq hread :), hn, (congrArg Node.status heq :),
    (congrArg Node.integrates heq :), ?_, ?_⟩
  · rw [Pipeline.dispatchable_of_unlined hread]
    decide
  · rw [Pipeline.feeds_of_unlined hread]
    exact ⟨⟨"a", "b", .unconditional, ∅, 0⟩, by simp [Pipeline.halfway], .inl rfl, rfl, rfl⟩

/-- Work that waits for accepted work can be handed out until that is put up for merging. -/
theorem held_up_halfway : ∃ p p' record,
    GraphFile.Bears (homeStore .halfway) "p.dot" p ∧ p.errors = [] ∧
    ((localEngine.transition "p.dot" ⟨"a", .mergeReady, "dev", none⟩).perform quietHost
      (homeStore .halfway)).1 = .ok record ∧
    GraphFile.Bears ((localEngine.transition "p.dot" ⟨"a", .mergeReady, "dev", none⟩).perform
      quietHost (homeStore .halfway)).2 "p.dot" p' ∧
    ¬∀ id ∈ p.dispatchable, id ≠ "a" → id ∈ p'.dispatchable := by
  obtain ⟨p, n, hbears, hplain, herrors, hseq, hnode, hstatus, hmerges, hid, hfeeds⟩ :=
    bears_halfway
  have hclear : localEngine.Clear "p.dot" quietHost (homeStore .halfway) := clear_homeStore _ rfl
  obtain ⟨v, hjudge, hanswer, hsaved⟩ := hclear.granted .mergeReady "dev" hbears
    (Pipeline.requireValid_of_errors herrors) hnode (by rw [hstatus]; rfl) (by simp)
    (fun _ => hmerges) (by simp [hstatus]) (by simp [hstatus])
  obtain ⟨p', hbears', -, hread, -⟩ := hbears.rewritten hplain hjudge hsaved (by rw [hseq]; decide)
  refine ⟨p, p', _, hbears, herrors, hanswer, hbears', fun hall => ?_⟩
  have hstill := hall "b" hid (by decide)
  rw [Pipeline.dispatchable_of_unlined hread] at hstill
  exact (Pipeline.mem_dispatchable_of_judge hjudge hnode hid (by decide)).mp hstill
    ⟨hstatus, rfl, hfeeds⟩

theorem Call.Step.dispatchable (h : c.Step e graph p p') (hid : id ∈ p.dispatchable)
    (hne : id ≠ c.request.node)
    (hspared : ¬(c.request.target = .mergeReady ∧ p.Feeds c.request.node id)) :
    p'.Feeds = p.Feeds ∧ id ∈ p'.dispatchable := by
  cases h with
  | idle => exact ⟨rfl, hid⟩
  | unsaved => exact ⟨rfl, hid⟩
  | saved hjudge _ _ _ hread =>
      obtain ⟨n, m, hnode, -, hdiffers⟩ := Pipeline.differs_of_judge hjudge
      rw [Pipeline.feeds_of_unlined hread, Pipeline.dispatchable_of_unlined hread]
      exact ⟨hdiffers.feeds, (Pipeline.mem_dispatchable_of_judge hjudge hnode hid hne).mpr
        fun hheld => hspared hheld.2⟩

/-- Over a session a node that could be handed out can still be handed out, unless somebody asks
for it or asks that what it waits for is put up for merging. -/
theorem Session.dispatchable (hsession : e.Session graph s cs t)
    (hbears : GraphFile.Bears s graph p)
    (hplain : p.Plain) (hplaces : s.place graph ≠ s.place e.auditLog)
    (hseq : p.checkpointSeq.toNat + e.saved graph cs < 2 ^ 63) (hid : id ∈ p.dispatchable)
    (hothers : ∀ c ∈ cs, id ≠ c.request.node ∧
      ¬(c.request.target = .mergeReady ∧ p.Feeds c.request.node id)) :
    ∃ p', GraphFile.Bears t graph p' ∧ p'.Plain ∧
      p'.checkpointSeq.toNat = p.checkpointSeq.toNat + e.saved graph cs ∧ p'.Feeds = p.Feeds ∧
      id ∈ p'.dispatchable := by
  induction hsession with
  | start => exact ⟨p, hbears, hplain, rfl, rfl, hid⟩
  | @call cs c hsession ih =>
      rw [List.forall_mem_append, List.forall_mem_singleton] at hothers
      rw [saved_append, saved_singleton] at hseq ⊢
      obtain ⟨p', hbears', hplain', hnum, hfeeds, hid'⟩ := ih (by omega) hothers.1
      have hhome := hsession.home
      have hplaces' : c.before.place graph ≠ c.before.place e.auditLog := by
        rwa [Store.place_eq hhome, Store.place_eq hhome]
      obtain ⟨p'', hbears'', hplain'', hstep, hnum'⟩ := c.step hbears' hplain' hplaces' (by omega)
      obtain ⟨hfeeds', hid''⟩ :=
        hstep.dispatchable hid' hothers.2.1 (by rw [hfeeds]; exact hothers.2.2)
      exact ⟨p'', hbears'', hplain'', by omega, hfeeds'.trans hfeeds, hid''⟩
  | aside _ hkept ih =>
      obtain ⟨p', hbears', hrest⟩ := ih hseq hothers
      exact ⟨p', hbears'.of_keeps hkept, hrest⟩

/-! ## Nodes that are asked for -/

/-- Where nothing is in the way a node that can be handed out is given to whoever asks for it, and
to nobody after that. -/
theorem takes_dispatchable (hbears : GraphFile.Bears s graph p) (herrors : p.errors = [])
    (hclear : e.Clear graph h s) (hid : id ∈ p.dispatchable) (actor : String) :
    ((e.transition graph ⟨id, .active, actor, none⟩).perform h s).1
      = .ok ⟨(h.clock 0).stamp, id, .pending, .active, actor, none⟩ ∧
    ∃ after : Pipeline, ((e.transition graph ⟨id, .active, actor, none⟩).perform h s).2.Has graph
        (some after.bytes) ∧
      id ∉ after.dispatchable ∧
      (p.Plain → p.checkpointSeq.toNat + 1 < 2 ^ 63 → ∃ p',
        GraphFile.Bears ((e.transition graph ⟨id, .active, actor, none⟩).perform h s).2 graph p' ∧
          id ∉ p'.dispatchable) := by
  have hvalid := Pipeline.requireValid_of_errors herrors
  obtain ⟨n, hnode, hcandidate, -⟩ :=
    (Pipeline.mem_dispatchable_iff_node? (Pipeline.nodup_of_requireValid hvalid)).mp hid
  have hpending := (Pipeline.isCandidate_iff.mp hcandidate).1
  obtain ⟨v, hjudge, hanswer, hsaved⟩ := hclear.granted .active actor hbears hvalid hnode
    (by rw [hpending]; rfl) (by simp) (by simp) (by simp [hpending]) (by simp [hpending])
  rw [hpending] at hanswer
  have hgone := Pipeline.not_mem_dispatchable_of_judge hjudge
  refine ⟨hanswer, GraphFile.bumped v.after, hsaved, hgone, fun hplain hseq => ?_⟩
  obtain ⟨p', hbears', -, hread, -⟩ := hbears.rewritten hplain hjudge hsaved hseq
  exact ⟨p', hbears', by rwa [Pipeline.dispatchable_of_unlined hread]⟩

/-- A piece of work that can be handed out is taken up. -/
theorem takes_dispatchable_twofold : ∃ p, GraphFile.Bears (homeStore .twofold) "p.dot" p ∧
    p.errors = [] ∧ localEngine.Clear "p.dot" quietHost (homeStore .twofold) ∧
    "a" ∈ p.dispatchable ∧
    ((localEngine.transition "p.dot" ⟨"a", .active, "dev", none⟩).perform quietHost
      (homeStore .twofold)).1
        = .ok ⟨(quietHost.clock 0).stamp, "a", .pending, .active, "dev", none⟩ ∧
    ∃ p', GraphFile.Bears ((localEngine.transition "p.dot" ⟨"a", .active, "dev", none⟩).perform
      quietHost (homeStore .twofold)).2 "p.dot" p' ∧ "a" ∉ p'.dispatchable := by
  obtain ⟨p, hbears, hplain, hvalid, hseq, -⟩ := bears_twofold
  have herrors := Pipeline.errors_of_requireValid hvalid
  have hclear : localEngine.Clear "p.dot" quietHost (homeStore .twofold) := clear_homeStore _ rfl
  have hid : "a" ∈ p.dispatchable := by simp [dispatchable_twofold hbears]
  obtain ⟨hanswer, -, -, -, hreread⟩ := takes_dispatchable hbears herrors hclear hid "dev"
  exact ⟨p, hbears, herrors, hclear, hid, hanswer, hreread hplain (by rw [hseq]; decide)⟩

/-! ## Where the graph cannot be saved -/

/-- Two pieces of work in a graph file that there is no room to replace: they were written over what
was in it before. -/
def crampedStore : Store :=
  ((shortStore deepHome).putFile "p.dot" default fun _ => Pipeline.twofold.bytes).2

theorem crampedStore_written : ∃ modified,
    crampedStore.find "p.dot" = .ok (.file Pipeline.twofold.bytes modified) ∧
    Store.Written False [] (shortStore deepHome) crampedStore
      [((shortStore deepHome).place "p.dot", Pipeline.twofold.bytes)] := by
  have hok : ((shortStore deepHome).putFile "p.dot" default fun _ => Pipeline.twofold.bytes).1
      = .ok () := by
    rw [Store.putFile_fst, Store.site_of_find (find_graph deepHome).1]
    rfl
  obtain ⟨-, -, modified, hfind⟩ := Store.find_putFile hok
  exact ⟨modified, hfind, ((shortStore deepHome).putFile_spec "p.dot" default _ []).1 hok⟩

/-- A piece of work that can be handed out and is given to nobody: the lock of its graph file is
free and the audit log can be added to, but there is no room to save the graph. -/
theorem untaken_crampedStore : ∃ p, GraphFile.Bears crampedStore "p.dot" p ∧ p.errors = [] ∧
    crampedStore.site (lockPath "p.dot") = .ok (crampedStore.place (lockPath "p.dot")) ∧
    quietHost.held.contains (crampedStore.place (lockPath "p.dot")) = false ∧
    localEngine.logging "p.dot" crampedStore = .ok () ∧ "a" ∈ p.dispatchable ∧
    ∀ record, ((localEngine.transition "p.dot" ⟨"a", .active, "dev", none⟩).perform quietHost
      crampedStore).1 ≠ .ok record := by
  obtain ⟨modified, hgraph, hwritten⟩ := crampedStore_written
  obtain ⟨p, ⟨bytes, text, ⟨_, hfind⟩, hutf, hparse⟩, -, hread⟩ := read_twofold
  have hbytes : (homeStore .twofold).find "p.dot"
      = .ok (.file Pipeline.twofold.bytes default) := rfl
  rw [hbytes] at hfind
  obtain ⟨rfl, -⟩ := Store.Entry.file.inj (Except.ok.inj hfind)
  have hbears : GraphFile.Bears crampedStore "p.dot" p := ⟨_, text, ⟨_, hgraph⟩, hutf, hparse⟩
  have hvalid := Pipeline.requireValid_of_unlined Pipeline.requireValid_twofold hread
  have hlog := hwritten.find (find_log deepHome).1 (by
    rw [(find_graph deepHome).2, (find_log deepHome).2]
    simp)
  have hlock : crampedStore.Found (lockPath "p.dot") := by
    have hlockPath : lockPath "p.dot" = "p.dot.lock" := by decide
    rw [hlockPath]
    refine ⟨_, _, hwritten.find (find_lock deepHome).1 ?_⟩
    rw [(find_graph deepHome).2, (find_lock deepHome).2]
    simp
  have hplaces : crampedStore.place "p.dot" ≠ crampedStore.place localEngine.auditLog := by
    change crampedStore.place "p.dot" ≠ crampedStore.place "audit.jsonl"
    rw [Store.place_eq hwritten.home, Store.place_eq hwritten.home, (find_graph deepHome).2,
      (find_log deepHome).2]
    simp
  have hlogging : localEngine.logging "p.dot" crampedStore = .ok () := by
    rw [logging_of_found hlock .empty default]
    exact Store.canAppend_of_find hlog .empty default
  obtain ⟨_, _, hlockFind⟩ := hlock
  refine ⟨p, hbears, Pipeline.errors_of_requireValid hvalid, Store.site_of_find hlockFind, rfl,
    hlogging, ?_, fun record hanswer => ?_⟩
  · rw [Pipeline.dispatchable_of_unlined hread]
    decide
  · have hconduct := conduct hbears (.inl hplaces) ⟨"a", .active, "dev", none⟩ quietHost
    generalize (localEngine.transition "p.dot" ⟨"a", .active, "dev", none⟩).perform quietHost
      crampedStore = result at hconduct hanswer
    cases hconduct with
    | refused => cases hanswer
    | unsaved => cases hanswer
    | carriedOut _ hroom =>
        obtain ⟨fault, hfull⟩ := saving_deepHome
        rw [saving_of_home hwritten.home, hfull] at hroom
        cases hroom

end Engine

end Pipewright
