import Pipewright.Proofs.Lifecycle.Sessions

/-!
# Requests with nothing in their way

A call finds the way clear if the lock of the graph file is free, the audit log
can be added to and there is room to save the graph. Then what was ruled on its
request is done, and the way is as clear as before (`Clear.call`).

What is ruled depends on the guards alone, and in a valid pipeline the first of
them has nothing to say: the acceptance text of every node is the one that it is
pinned to (`check_of_valid`).

Where calls are carried out the history of a node leads to its status, as it does
over any run (`history_follows`). Where there is no room to save the graph it gets
ahead of it (`history_ahead`).
-/

namespace Pipewright

open Pipeline (Node Ruling Verdict)

namespace Pipeline

variable {p : Pipeline} {maxRetries : UInt32} {s : Store} {q : Request} {now : Instant} {n : Node}
  {target : Status} {actor : String}

/-! ## Guards -/

/-- Only the evidence can be in the way of a step, if none leads towards merging a node that is
not to be merged, and none is a judgement by the one whom the node remembers. -/
theorem check_of_valid (hvalid : p.requireValid = .ok ()) (hn : n ∈ p.nodes)
    (hmerges : target = .mergeReady ∨ target = .merged → n.integrates = true)
    (hseparate : n.status = .implComplete → n.implementedBy ≠ some actor) (s : Store)
    (evidence : Option String) :
    Guard.check s n target actor evidence = Guard.checkEvidence s n target evidence := by
  have hmerging : Guard.checkMerging n target = .ok () := by
    rw [Guard.checkMerging]
    split
    · next htarget =>
      obtain ⟨hwork, hmerge⟩ := Bool.and_eq_true_iff.mp (hmerges htarget)
      rw [if_neg (not_not_intro (beq_iff_eq.mp hwork)), hmerge]
      rfl
    · rfl
  have hseparation : Guard.checkSeparation n target actor = .ok () := by
    rw [Guard.checkSeparation, if_neg]
    rintro ⟨hstatus, -, hown⟩
    exact hseparate hstatus hown
  rw [Guard.check, checkAcceptance_of_valid hvalid hn, hmerging, hseparation]
  rfl

theorem rule_of_valid (hvalid : p.requireValid = .ok ()) (hnode : p.node? q.node = some n)
    (hlegal : n.status.canBecome q.target)
    (htarget : q.target ≠ .validated)
    (hmerges : q.target = .mergeReady ∨ q.target = .merged → n.integrates = true)
    (hevidence : q.evidence = none)
    (hseparate : n.status = .implComplete → n.implementedBy ≠ some q.actor)
    (hretries : n.status = .failed → n.retryCount < maxRetries) (s : Store) :
    p.rule maxRetries s q = .ok (.granted n.status {}) := by
  refine rule_eq_ok.mpr ⟨n, hnode, hlegal, hvalid, .granted hretries ?_⟩
  rw [check_of_valid hvalid (List.mem_of_find?_eq_some hnode) hmerges hseparate, hevidence,
    Guard.checkEvidence, if_neg htarget]

end Pipeline

namespace Engine

variable {e : Engine} {graph : String} {h : Host} {s t : Store} {p : Pipeline} {c : Call} {n : Node}
  {r : Ruling}

/-! ## The way is clear -/

/-- The lock of the graph file is free, the audit log can be added to, and there is room to save
the graph. -/
structure Clear (e : Engine) (graph : String) (h : Host) (s : Store) : Prop where
  site : s.site (lockPath graph) = .ok (s.place (lockPath graph))
  free : h.held.contains (s.place (lockPath graph)) = false
  logging : e.logging graph s = .ok ()
  saving : saving graph s = .ok ()

theorem Clear.prospect {q : Request} (hclear : e.Clear graph h s)
    (hbears : GraphFile.Bears s graph p)
    (hrule : p.rule e.maxRetries s q = .ok r) :
    e.prospect graph q h s = ⟨.ok r, .ok (), .ok ()⟩ := by
  have hruling : e.ruling graph q h s = .ok r := by
    rw [ruling_of_site hclear.site hclear.free, GraphFile.loaded_eq_ok.mpr hbears]
    exact hrule
  rw [Engine.prospect, hruling, hclear.logging, hclear.saving]

/-- With nothing in the way what is ruled is answered and saved. -/
theorem Clear.carriedOut {q : Request} (hclear : e.Clear graph h s)
    (hbears : GraphFile.Bears s graph p)
    (hevidence : ∀ path ∈ q.evidence, s.place path ≠ s.place (lockPath graph))
    (hrule : p.rule e.maxRetries s q = .ok r) :
    ((e.transition graph q).perform h s).1 = r.answer q (h.clock 0) ∧
      ((e.transition graph q).perform h s).2.Has graph
        (some (p.settle q (h.clock 0) (some r)).bytes) := by
  have hturn := turn e q h hbears.found (.inr hclear.saving) hevidence
  have hprospect := hclear.prospect hbears hrule
  obtain ⟨p', hloaded, hsaved⟩ := hturn.saved r (by rw [hprospect, Prospect.saved_carriedOut])
  obtain rfl := (GraphFile.loaded_eq_ok.mp hloaded).unique hbears
  refine ⟨?_, hsaved⟩
  rw [hturn.answer, hprospect, Prospect.answer_carriedOut]

/-- With nothing in the way a legal step is granted and saved that needs no evidence, unless a node
is to be merged that may not be, is judged by the one whom it remembers or is out of retries. -/
theorem Clear.granted {id : String} (hclear : e.Clear graph h s) (target : Status) (actor : String)
    (hbears : GraphFile.Bears s graph p) (hvalid : p.requireValid = .ok ())
    (hnode : p.node? id = some n) (hlegal : n.status.canBecome target)
    (htarget : target ≠ .validated)
    (hmerges : target = .mergeReady ∨ target = .merged → n.integrates = true)
    (hseparate : n.status = .implComplete → n.implementedBy ≠ some actor)
    (hretries : n.status = .failed → n.retryCount < e.maxRetries) :
    ∃ v, p.judge e.maxRetries s (h.clock 0) ⟨id, target, actor, none⟩ = .ok v ∧
      ((e.transition graph ⟨id, target, actor, none⟩).perform h s).1
        = .ok ⟨(h.clock 0).stamp, id, n.status, target, actor, none⟩ ∧
      ((e.transition graph ⟨id, target, actor, none⟩).perform h s).2.Has graph
        (some (GraphFile.bumped v.after).bytes) := by
  have hrule : p.rule e.maxRetries s ⟨id, target, actor, none⟩ = .ok (.granted n.status {}) :=
    Pipeline.rule_of_valid hvalid hnode hlegal htarget hmerges rfl hseparate hretries s
  obtain ⟨hanswer, hsaved⟩ := hclear.carriedOut hbears (by simp) hrule
  refine ⟨Ruling.verdict p ⟨id, target, actor, none⟩ (h.clock 0) (.granted n.status {}), ?_,
    hanswer,
    ?_⟩
  · rw [Pipeline.judge_eq, hrule]
    rfl
  · rw [Ruling.after_verdict]
    exact hsaved

/-- The call is carried out as was ruled. -/
structure Call.Done (c : Call) (e : Engine) (graph : String) (p p' : Pipeline) (r : Ruling)
    (n : Node) : Prop where
  answer : c.answer e graph = r.answer c.request c.now
  bears : GraphFile.Bears (c.after e graph) graph p'
  plain : p'.Plain
  valid : p'.requireValid = .ok ()
  seq : p'.checkpointSeq.toNat ≤ p.checkpointSeq.toNat + 1
  nodes : ∀ id, (p'.node? id).map Node.core
    = if id = c.request.node then some (r.step c.request c.now n).core
      else (p.node? id).map Node.core
  records : c.before.place graph ≠ c.before.place e.auditLog →
    c.records e graph = [r.record c.request c.now]
  clear : e.Clear graph c.host (c.after e graph)

theorem Clear.call (hclear : e.Clear graph c.host c.before)
    (hbears : GraphFile.Bears c.before graph p) (hplain : p.Plain)
    (hseq : p.checkpointSeq.toNat + 1 < 2 ^ 63)
    (hevidence : ∀ path ∈ c.request.evidence,
      c.before.place path ≠ c.before.place (lockPath graph))
    (hnode : p.node? c.request.node = some n)
    (hrule : p.rule e.maxRetries c.before c.request = .ok r) :
    ∃ p', c.Done e graph p p' r n := by
  have hloaded := GraphFile.loaded_eq_ok.mpr hbears
  have hprospect := hclear.prospect hbears hrule
  have hturn := turn e c.request c.host hbears.found (.inr hclear.saving) hevidence
  have hturn : Turn e graph c.request c.host c.before (c.answer e graph) (c.after e graph) := hturn
  obtain ⟨p', hloaded', hbecomes, hplain', hle⟩ := hturn.becomes hloaded hplain hseq
  have hjudge : p.judge e.maxRetries c.before c.now c.request
      = .ok (r.verdict p c.request c.now) := by
    rw [Pipeline.judge_eq, hrule]
    rfl
  have hvalid := Pipeline.requireValid_of_judge hjudge
  rw [Ruling.after_verdict] at hvalid
  have hsame : (c.after e graph).place (lockPath graph) = c.before.place (lockPath graph) :=
    Store.place_eq hturn.home _
  rw [hprospect] at hbecomes
  cases hbecomes with
  | saved _ hread =>
      refine ⟨p', ?_, GraphFile.loaded_eq_ok.mp hloaded', hplain',
        Pipeline.requireValid_of_unlined hvalid hread, hle, fun id => ?_, fun hplaces => ?_, ?_, ?_,
        ?_, ?_⟩
      · rw [hturn.answer, hprospect, Prospect.answer_carriedOut]
        rfl
      · have hcore := congrArg (Option.map Node.core) (Pipeline.node?_of_unlined hread id)
        have hmodify : (p.settle c.request (c.host.clock 0) (some r)).node? id = _ :=
          Pipeline.node?_modify (r.step c.request c.now) (Pipeline.id_step r c.request c.now) hnode
            id
        rw [hmodify, Option.map_map, Option.map_map] at hcore
        refine hcore.trans ?_
        split <;> rfl
      · refine AuditLog.added_of_contents ?_
        rw [Store.place_eq hturn.home, hturn.log hplaces, hprospect, Prospect.logged_logged]
        rfl
      · rw [hturn.site, hsame]
        exact hclear.site
      · rw [hsame]
        exact hclear.free
      · rcases hturn.logging with hlogging | ⟨-, fault, _, hfault, -⟩
        · exact hlogging.trans hclear.logging
        · rw [hclear.logging] at hfault
          cases hfault
      · exact (saving_of_home hturn.home).trans hclear.saving

theorem Call.Done.node {p' : Pipeline} (hdone : c.Done e graph p p' r n) :
    ∃ m, p'.node? c.request.node = some m ∧ m.core = (r.step c.request c.now n).core := by
  have hnode := hdone.nodes c.request.node
  rw [if_pos rfl] at hnode
  exact Option.map_eq_some_iff.mp hnode

/-- With nothing in the way a legal step is made that needs no evidence, unless a node is to be
merged that may not be, is judged by the one whom it remembers or is out of retries. -/
theorem Clear.advance {id actor : String} {target : Status} (hclear : e.Clear graph c.host c.before)
    (hbears : GraphFile.Bears c.before graph p) (hplain : p.Plain)
    (hvalid : p.requireValid = .ok ())
    (hseq : p.checkpointSeq.toNat + 1 < 2 ^ 63) (hrequest : c.request = ⟨id, target, actor, none⟩)
    (hnode : p.node? id = some n) (hlegal : n.status.canBecome target)
    (htarget : target ≠ .validated)
    (hmerges : target = .mergeReady ∨ target = .merged → n.integrates = true)
    (hseparate : n.status = .implComplete → n.implementedBy ≠ some actor)
    (hretries : n.status = .failed → n.retryCount < e.maxRetries) :
    ∃ p' m, c.Done e graph p p' (.granted n.status {}) n ∧ p'.node? id = some m ∧
      m.core = (n.advance ⟨id, target, actor, none⟩ {} c.now).core := by
  have hrule : p.rule e.maxRetries c.before c.request = .ok (.granted n.status {}) := by
    rw [hrequest]
    exact Pipeline.rule_of_valid hvalid hnode hlegal htarget hmerges rfl hseparate hretries _
  obtain ⟨p', hdone⟩ := hclear.call hbears hplain hseq (by simp [hrequest])
    (by rw [hrequest]; exact hnode) hrule
  obtain ⟨m, hnode', hcore⟩ := hdone.node
  rw [hrequest] at hnode' hcore
  exact ⟨p', m, hdone, hnode', hcore⟩

/-- With nothing in the way a pending node is taken up by anyone, and then reported complete by
anyone. -/
theorem Clear.reported {c₁ : Call} {id taker maker : String}
    (hclear : e.Clear graph c₁.host c₁.before) (c₂ : Call)
    (hbears : GraphFile.Bears c₁.before graph p)
    (hplain : p.Plain) (hvalid : p.requireValid = .ok ())
    (hseq : p.checkpointSeq.toNat + 2 < 2 ^ 63)
    (hplaces : c₁.before.place graph ≠ c₁.before.place e.auditLog) (hnode : p.node? id = some n)
    (hpending : n.status = .pending) (htaken : c₁.request = ⟨id, .active, taker, none⟩)
    (hmade : c₂.request = ⟨id, .implComplete, maker, none⟩) (hhost : c₂.host = c₁.host)
    (hbefore : c₂.before = c₁.after e graph) :
    ∃ p₂ m, c₁.records e graph = [⟨c₁.now.stamp, id, .pending, .active, taker, none⟩] ∧
      c₂.records e graph = [⟨c₂.now.stamp, id, .active, .implComplete, maker, none⟩] ∧
      GraphFile.Bears (c₂.after e graph) graph p₂ ∧ p₂.Plain ∧ p₂.requireValid = .ok () ∧
      p₂.checkpointSeq.toNat ≤ p.checkpointSeq.toNat + 2 ∧
        e.Clear graph c₂.host (c₂.after e graph) ∧
      p₂.node? id = some m ∧ m.status = .implComplete ∧ m.implementedBy = some maker ∧
      m.implCompletedAt = some c₂.now.stamp ∧ m.retryCount = n.retryCount := by
  obtain ⟨p₁, n₁, hdone₁, hnode₁, hcore₁⟩ := hclear.advance hbears hplain hvalid (by omega) htaken
    hnode (by rw [hpending]; rfl) (by simp) (by simp) (by simp [hpending]) (by simp [hpending])
  have hactive : n₁.status = .active := (congrArg Node.status hcore₁ :)
  have hle₁ := hdone₁.seq
  have hclear₁ : e.Clear graph c₂.host c₂.before := by
    rw [hhost, hbefore]
    exact hdone₁.clear
  have hplaces₁ : c₂.before.place graph ≠ c₂.before.place e.auditLog := by
    rwa [hbefore, c₁.place_after]
  obtain ⟨p₂, m, hdone₂, hnode₂, hcore₂⟩ := hclear₁.advance (hbefore ▸ hdone₁.bears) hdone₁.plain
    hdone₁.valid (by omega) hmade hnode₁ (by rw [hactive]; rfl) (by simp) (by simp)
    (by simp [hactive]) (by simp [hactive])
  have hle₂ := hdone₂.seq
  have hretries₁ : n₁.retryCount = n.retryCount := by
    refine (congrArg Node.retryCount hcore₁ :).trans ?_
    simp [Node.advance, Node.core, hpending]
  have hretries₂ : m.retryCount = n₁.retryCount := by
    refine (congrArg Node.retryCount hcore₂ :).trans ?_
    simp [Node.advance, Node.core, hactive]
  refine ⟨p₂, m, ?_, ?_, hdone₂.bears, hdone₂.plain, hdone₂.valid, by omega, hdone₂.clear, hnode₂,
    (congrArg Node.status hcore₂ :), (congrArg Node.implementedBy hcore₂ :),
    (congrArg Node.implCompletedAt hcore₂ :), hretries₂.trans hretries₁⟩
  · rw [hdone₁.records hplaces, htaken, hpending]
    rfl
  · rw [hdone₂.records hplaces₁, hmade, hactive]
    rfl

/-- With nothing in the way a node that was reported complete is failed by anyone but the one who
reported that. -/
theorem Clear.failed {c₁ : Call} {id taker maker judge : String}
    (hclear : e.Clear graph c₁.host c₁.before) (c₂ c₃ : Call)
    (hbears : GraphFile.Bears c₁.before graph p)
    (hplain : p.Plain) (hvalid : p.requireValid = .ok ())
    (hseq : p.checkpointSeq.toNat + 3 < 2 ^ 63)
    (hplaces : c₁.before.place graph ≠ c₁.before.place e.auditLog) (hnode : p.node? id = some n)
    (hpending : n.status = .pending) (htaken : c₁.request = ⟨id, .active, taker, none⟩)
    (hmade : c₂.request = ⟨id, .implComplete, maker, none⟩)
    (hjudged : c₃.request = ⟨id, .failed, judge, none⟩) (hother : maker ≠ judge)
    (hhost₂ : c₂.host = c₁.host) (hbefore₂ : c₂.before = c₁.after e graph)
    (hhost₃ : c₃.host = c₁.host) (hbefore₃ : c₃.before = c₂.after e graph) :
    ∃ p₃ m, c₁.records e graph = [⟨c₁.now.stamp, id, .pending, .active, taker, none⟩] ∧
      c₂.records e graph = [⟨c₂.now.stamp, id, .active, .implComplete, maker, none⟩] ∧
      c₃.records e graph = [⟨c₃.now.stamp, id, .implComplete, .failed, judge, none⟩] ∧
      GraphFile.Bears (c₃.after e graph) graph p₃ ∧ p₃.Plain ∧ p₃.requireValid = .ok () ∧
      p₃.checkpointSeq.toNat ≤ p.checkpointSeq.toNat + 3 ∧
        e.Clear graph c₃.host (c₃.after e graph) ∧
      p₃.node? id = some m ∧ m.status = .failed ∧ m.retryCount = n.retryCount := by
  obtain ⟨p₂, n₂, hrecord₁, hrecord₂, hbears₂, hplain₂, hvalid₂, hle₂, hclear₂, hnode₂, hdone,
    himplementer, -, hretries₂⟩ := hclear.reported c₂ hbears hplain hvalid (by omega) hplaces
      hnode hpending htaken hmade hhost₂ hbefore₂
  have hclear₃ : e.Clear graph c₃.host c₃.before := by
    rw [hhost₃, hbefore₃, ← hhost₂]
    exact hclear₂
  have hplaces₃ : c₃.before.place graph ≠ c₃.before.place e.auditLog := by
    rwa [hbefore₃, c₂.place_after, hbefore₂, c₁.place_after]
  obtain ⟨p₃, m, hdone₃, hnode₃, hcore₃⟩ := hclear₃.advance (hbefore₃ ▸ hbears₂) hplain₂ hvalid₂
    (by omega) hjudged hnode₂ (by rw [hdone]; rfl) (by simp) (by simp)
    (by simp [himplementer, hother]) (by simp [hdone])
  have hle₃ := hdone₃.seq
  have hretries₃ : m.retryCount = n₂.retryCount := by
    refine (congrArg Node.retryCount hcore₃ :).trans ?_
    simp [Node.advance, Node.core, hdone]
  refine ⟨p₃, m, hrecord₁, hrecord₂, ?_, hdone₃.bears, hdone₃.plain, hdone₃.valid, by omega,
    hdone₃.clear, hnode₃, (congrArg Node.status hcore₃ :), hretries₃.trans hretries₂⟩
  rw [hdone₃.records hplaces₃, hjudged, hdone]
  rfl

/-! ## A piece of work that fails -/

/-- Nothing is in the way where the graph file lies beside its lock file and an empty log. -/
theorem clear_homeStore (p : Pipeline) (hlog : e.auditLog = "audit.jsonl") :
    e.Clear "p.dot" quietHost (homeStore p) where
  site := rfl
  free := rfl
  logging := by
    rw [Engine.logging, hlog]
    rfl
  saving := by
    have hroom : saving "p.dot" (homeStore .twofold) = .ok () := rfl
    rw [← hroom]
    exact saving_of_home rfl

/-- Three calls in which a piece of the work is taken up, reported complete and failed, and the
pipeline and the node that they lead to. -/
structure Failing (e : Engine) (taker maker judge : String) (p : Pipeline) (c₁ c₂ c₃ : Call)
    (p' : Pipeline) (m : Node) : Prop where
  bears : GraphFile.Bears (homeStore .twofold) "p.dot" p
  plain : p.Plain
  pending : ∀ n ∈ p.nodes, n.status = .pending
  seq : p.checkpointSeq.toNat = 0
  first : c₁.before = homeStore .twofold
  second : c₂.before = c₁.after e "p.dot"
  third : c₃.before = c₂.after e "p.dot"
  apart : (homeStore .twofold).place "p.dot" ≠ (homeStore .twofold).place e.auditLog
  session : e.Session "p.dot" (homeStore .twofold) [c₁, c₂, c₃] (c₃.after e "p.dot")
  about : ∀ c ∈ [c₁, c₂, c₃], c.request.node = "a"
  records : e.recorded "p.dot" [c₁, c₂] = [⟨c₁.now.stamp, "a", .pending, .active, taker, none⟩,
    ⟨c₂.now.stamp, "a", .active, .implComplete, maker, none⟩]
  failure : c₃.records e "p.dot" = [⟨c₃.now.stamp, "a", .implComplete, .failed, judge, none⟩]
  bears' : GraphFile.Bears (c₃.after e "p.dot") "p.dot" p'
  plain' : p'.Plain
  valid' : p'.requireValid = .ok ()
  seq' : p'.checkpointSeq.toNat ≤ 3
  clear' : e.Clear "p.dot" quietHost (c₃.after e "p.dot")
  node : p'.node? "a" = some m
  failed : m.status = .failed
  retries : ∃ n ∈ p.nodes, m.retryCount = n.retryCount

/-- Anyone may take the work up and anyone may report it complete, and anyone else fail it. -/
theorem failing_twofold (hlog : e.auditLog = "audit.jsonl") (taker : String) {maker judge : String}
    (hother : maker ≠ judge) : ∃ p c₁ c₂ c₃ p' m, e.Failing taker maker judge p c₁ c₂ c₃ p' m := by
  obtain ⟨p, hbears, hplain, hvalid, hseq, hpending, hnodes⟩ := bears_twofold
  obtain ⟨n, hnode, -⟩ := hnodes "a" (by decide)
  have hn := List.mem_of_find?_eq_some hnode
  have hseq : p.checkpointSeq.toNat = 0 := congrArg UInt64.toNat hseq
  have hplaces : (homeStore .twofold).place "p.dot"
      ≠ (homeStore .twofold).place e.auditLog := by
    rw [hlog]
    decide
  -- The calls are given names, as what they leave is known by the lemmas and not by running them.
  obtain ⟨c₁, hc₁⟩ : ∃ c : Call, c = ⟨⟨"a", .active, taker, none⟩, quietHost, homeStore .twofold⟩ :=
    ⟨_, rfl⟩
  obtain ⟨c₂, hc₂⟩ : ∃ c : Call, c = ⟨⟨"a", .implComplete, maker, none⟩, quietHost,
    c₁.after e "p.dot"⟩ := ⟨_, rfl⟩
  obtain ⟨c₃, hc₃⟩ : ∃ c : Call, c = ⟨⟨"a", .failed, judge, none⟩, quietHost,
    c₂.after e "p.dot"⟩ := ⟨_, rfl⟩
  have hclear : e.Clear "p.dot" c₁.host c₁.before := by
    rw [hc₁]
    exact clear_homeStore _ hlog
  obtain ⟨p', m, hrecord₁, hrecord₂, hrecord₃, hbears', hplain', hvalid', hle, hclear', hnode',
    hfailed, hretries⟩ := hclear.failed c₂ c₃ (by rw [hc₁]; exact hbears) hplain hvalid (by omega)
      (by rw [hc₁]; exact hplaces) hnode (hpending n hn) (by rw [hc₁]) (by rw [hc₂]) (by rw [hc₃])
      hother (by rw [hc₁, hc₂]) (by rw [hc₂]) (by rw [hc₁, hc₃]) (by rw [hc₃])
  have hstart : e.Session "p.dot" (homeStore .twofold) [] (homeStore .twofold) := .start
  have hsession := ((hstart.next (c := c₁) (by rw [hc₁])).next (c := c₂) (by rw [hc₂])).next
    (c := c₃) (by rw [hc₃])
  have hhost : c₃.host = quietHost := by rw [hc₃]
  exact ⟨p, c₁, c₂, c₃, p', m, hbears, hplain, hpending, hseq, by rw [hc₁], by rw [hc₂],
    by rw [hc₃], hplaces, hsession,
    by simp [hc₁, hc₂, hc₃],
    by simp [recorded, hrecord₁, hrecord₂], hrecord₃, hbears', hplain', hvalid', by omega,
    hhost ▸ hclear', hnode', hfailed, n, hn, hretries⟩

/-- What was there before is a beginning of any four calls. -/
theorem Failing.opening {taker maker judge : String} {c₁ c₂ c₃ : Call} {p' : Pipeline} {m : Node}
    (h : e.Failing taker maker judge p c₁ c₂ c₃ p' m) {cs : List Call} (hlength : cs.length ≤ 4) :
    e.Opening "p.dot" (homeStore .twofold) p cs where
  bears := h.bears
  plain := h.plain
  pending := h.pending
  apart := h.apart
  seq := by
    have hseq := h.seq
    have hle := saved_le_length e "p.dot" cs
    omega

theorem retryCount_twofold (hbears : GraphFile.Bears (homeStore .twofold) "p.dot" p) :
    ∀ n ∈ p.nodes, n.retryCount = 0 := by
  obtain ⟨p', hbears', -, hread⟩ := read_twofold
  obtain rfl := hbears.unique hbears'
  intro n hn
  obtain ⟨k, hk, heq⟩ := Pipeline.mem_of_unlined hread hn
  have hzero : ∀ k ∈ Pipeline.twofold.nodes, k.retryCount = 0 := by
    simp [Pipeline.twofold, Node.work]
  exact (congrArg Node.retryCount heq.symm :).trans (hzero k hk)

def onceEngine : Engine := ⟨"audit.jsonl", 0, .noWait⟩

/-- Where no retries are allowed the node becomes stuck when it is to be taken up again. -/
theorem Failing.stuck {taker maker judge : String} {c₁ c₂ c₃ : Call} {p' : Pipeline} {m : Node}
    (h : onceEngine.Failing taker maker judge p c₁ c₂ c₃ p' m) : ∃ c₄ p₄ k,
      onceEngine.Session "p.dot" (homeStore .twofold) [c₁, c₂, c₃, c₄]
        (c₄.after onceEngine "p.dot") ∧
      (∀ c ∈ [c₁, c₂, c₃, c₄], c.request.node = "a") ∧
      c₄.answer onceEngine "p.dot" = .error (.retriesExhausted "a" 0) ∧
      GraphFile.Bears (c₄.after onceEngine "p.dot") "p.dot" p₄ ∧
      onceEngine.Clear "p.dot" quietHost (c₄.after onceEngine "p.dot") ∧
      p₄.node? "a" = some k ∧ k.status = .stuck := by
  have hspent : m.retryCount = 0 := by
    obtain ⟨n, hn, hretries⟩ := h.retries
    rw [hretries, retryCount_twofold h.bears n hn]
  obtain ⟨c₄, hc₄⟩ : ∃ c : Call, c = ⟨⟨"a", .active, taker, none⟩, quietHost,
    c₃.after onceEngine "p.dot"⟩ := ⟨_, rfl⟩
  have hclear : onceEngine.Clear "p.dot" c₄.host c₄.before := by
    rw [hc₄]
    exact h.clear'
  have hrule : p'.rule onceEngine.maxRetries c₄.before c₄.request
      = .ok (.exhausted m.retryCount) := by
    rw [hc₄]
    refine Pipeline.rule_eq_ok.mpr
      ⟨m, h.node, by rw [h.failed]; rfl, h.valid', .exhausted h.failed ?_⟩
    exact UInt32.le_iff_toNat_le.mpr (Nat.zero_le _)
  have hseq := h.seq'
  obtain ⟨p₄, hdone⟩ := hclear.call (by rw [hc₄]; exact h.bears') h.plain' (by omega)
    (by simp [hc₄]) (by rw [hc₄]; exact h.node) hrule
  obtain ⟨k, hk, hcore⟩ := hdone.node
  have hhost : c₄.host = quietHost := by rw [hc₄]
  have hrequest : c₄.request.node = "a" := by rw [hc₄]
  refine ⟨c₄, p₄, k, h.session.next (c := c₄) (by rw [hc₄]), ?_, ?_, hdone.bears,
    hhost ▸ hdone.clear, hrequest ▸ hk, (congrArg Node.status hcore :)⟩
  · simpa [hrequest] using h.about
  · rw [hdone.answer, hc₄, hspent]
    rfl

/-! ## Histories -/

theorem Run.next {n : Nat} (hrun : e.Run graph s n t) (hbefore : c.before = t) :
    e.Run graph s (n + saves (c.answer e graph)) (c.after e graph) := by
  subst hbefore
  exact hrun.call c.host c.request

/-- The calls begin with a graph file that is new. -/
theorem Failing.fresh {taker maker judge : String} {c₁ c₂ c₃ : Call} {p' : Pipeline} {m : Node}
    (h : e.Failing taker maker judge p c₁ c₂ c₃ p' m) (hlog : e.auditLog = "audit.jsonl") :
    e.Fresh "p.dot" (homeStore .twofold) p where
  read := by
    have hunadorned : Pipeline.twofold.Unadorned :=
      ⟨by decide, rfl, by decide, by decide, by decide⟩
    obtain ⟨g, p₀, hread, hg, hp, -⟩ :=
      Pipeline.read_render_of_plain hunadorned.lifted hunadorned.plain
    obtain ⟨hkeys, hreals⟩ := Pipeline.isPlain_iff.mp hg
    have hparse : Pipeline.parse Pipeline.twofold.render = .ok p₀ := by
      rw [Pipeline.parse, hread]
      exact hp
    obtain rfl := h.bears.unique ⟨_, _, ⟨default, rfl⟩, fromUTF8?_toUTF8 _, hparse⟩
    exact ⟨_, g, Store.readText_of_find (s := homeStore .twofold) rfl (fromUTF8?_toUTF8 _), hread,
      hp, hkeys, hreals⟩
  pending := h.pending
  log := by
    rw [hlog]
    rfl
  apart := h.apart

/-- At every point of a run the graph file is read, and the history of every node leads
from pending to the status of the node. Only a log that could not be added to from the
start may fail to be read, while all nodes are pending. -/
theorem history_follows {n : Nat} (hfresh : e.Fresh graph s p) (hreplace : s.CanReplace graph)
    (hrun : e.Run graph s n t) (hseq : p.checkpointSeq.toNat + n < 2 ^ 63) (h : Host) :
    ∃ p', (GraphFile.load graph).perform h t = (.ok p', t) ∧ p'.ids = p.ids ∧
      ∀ id, e.Traced h t p' id ∨ ¬e.CanLog graph s ∧ e.Unread h t p' id := by
  obtain ⟨p', records, hstep, hids, -⟩ := (hfresh.inStep hreplace).run hrun hseq
  exact ⟨p', hstep.perform_load h, hids, hstep.traced h⟩

/-- The history of work that was taken up, reported complete and failed leads to where it failed. -/
theorem history_follows_twofold : ∃ p n t p' m records,
    localEngine.Fresh "p.dot" (homeStore .twofold) p ∧ (homeStore .twofold).CanReplace "p.dot" ∧
    localEngine.Run "p.dot" (homeStore .twofold) n t ∧ p.checkpointSeq.toNat + n < 2 ^ 63 ∧
    (GraphFile.load "p.dot").perform quietHost t = (.ok p', t) ∧ p'.ids = p.ids ∧
    p'.node? "a" = some m ∧ m.status = .failed ∧
    (AuditLog.history localEngine.auditLog "a").perform quietHost t = (.ok records, t) ∧
    IsTrail .pending records ∧ trailEnd .pending records = .failed := by
  obtain ⟨p, c₁, c₂, c₃, p', m, h⟩ :=
    failing_twofold (e := localEngine) rfl "dev" (by decide : "dev" ≠ "judge")
  have hfresh : localEngine.Fresh "p.dot" (homeStore .twofold) p := h.fresh rfl
  have hreplace : (homeStore .twofold).CanReplace "p.dot" :=
    Store.canReplace_of_find (s := homeStore .twofold) rfl rfl
  have hrun := ((Run.start.next h.first).next h.second).next h.third
  have hle₁ := saves_le (c₁.answer localEngine "p.dot")
  have hle₂ := saves_le (c₂.answer localEngine "p.dot")
  have hle₃ := saves_le (c₃.answer localEngine "p.dot")
  have hseq := h.seq
  have hbound : p.checkpointSeq.toNat + (0 + saves (c₁.answer localEngine "p.dot")
      + saves (c₂.answer localEngine "p.dot") + saves (c₃.answer localEngine "p.dot"))
      < 2 ^ 63 := by
    omega
  obtain ⟨p'', hload, hids, htraced⟩ := history_follows hfresh hreplace hrun hbound quietHost
  have hloaded := GraphFile.perform_load_eq "p.dot" quietHost (c₃.after localEngine "p.dot")
  rw [GraphFile.loaded_eq_ok.mpr h.bears'] at hloaded
  obtain rfl := Except.ok.inj (congrArg Prod.fst (hload.symm.trans hloaded))
  have hm := List.mem_of_find?_eq_some h.node
  obtain ⟨records, hhistory, htrail, hend⟩ : ∃ records,
      (AuditLog.history localEngine.auditLog "a").perform quietHost (c₃.after localEngine "p.dot")
        = (.ok records, c₃.after localEngine "p.dot") ∧
      IsTrail .pending records ∧ m.status = trailEnd .pending records := by
    rcases htraced "a" with ⟨records, hhistory, htrail, hend⟩ | ⟨-, -, hpending⟩
    · exact ⟨records, hhistory, htrail, hend m hm (Pipeline.id_of_node? h.node)⟩
    · have hnone := hpending m hm
      rw [h.failed] at hnone
      cases hnone
  exact ⟨p, _, _, p'', m, records, hfresh, hreplace, hrun, hbound, hload, hids, h.node, h.failed,
    hhistory, htrail, hend.symm.trans h.failed⟩

/-- Where the graph cannot be saved, the history of a node gets ahead of its status. -/
theorem history_ahead : ∃ p, localEngine.Fresh "p.dot" (shortStore deepHome) p ∧
    ¬∀ n t, localEngine.Run "p.dot" (shortStore deepHome) n t → p.checkpointSeq.toNat + n < 2 ^ 63 →
      ∀ h, ∃ p', (GraphFile.load "p.dot").perform h t = (.ok p', t) ∧
        ∀ id, localEngine.Traced h t p' id := by
  obtain ⟨l, l', hfresh⟩ := fresh_shortStore deepHome
  obtain ⟨fault, hdraft⟩ := origin_draft_deepHome
  obtain ⟨hlock, -⟩ := find_lock deepHome
  obtain ⟨hlog, -⟩ := find_log deepHome
  obtain ⟨text, g, htext, hread, hp, -, -⟩ := hfresh.read
  obtain ⟨bytes, modified, hfind, hutf⟩ := Store.readText_eq_ok htext
  have hparse : Pipeline.parse text = .ok (Pipeline.shortest l l').shaped := by
    rw [Pipeline.parse, hread]
    exact hp
  obtain ⟨v, hjudge, hrecord⟩ := Pipeline.judge_shortest l l' localEngine.maxRetries
    (shortStore deepHome) (quietHost.clock 0)
  have hlockPath : lockPath "p.dot" = "p.dot.lock" := by decide
  obtain ⟨t, hperform, hwritten, hfound⟩ := transition_unsaved hfind hutf hparse hfresh.apart
    ⟨_, _, hlockPath ▸ hlock⟩ (show quietHost.held.contains _ = false from rfl) ⟨_, _, hlog⟩ hdraft
    hjudge
  refine ⟨_, hfresh, fun hall => ?_⟩
  have hstart : localEngine.Run "p.dot" (shortStore deepHome) 0 (shortStore deepHome) := .start
  have hrun := hstart.call quietHost ⟨"s", .active, "dev", none⟩
  rw [hperform] at hrun
  obtain ⟨p', hload, htraced⟩ := hall _ _ hrun (by decide : 0 < 2 ^ 63) quietHost
  have hstays := GraphFile.perform_load_of_find
    (hwritten.find hfind (by simpa using hfresh.apart)) hutf hparse quietHost
  obtain rfl := Except.ok.inj (Prod.mk.inj (hload.symm.trans hstays)).1
  have hcontents : t.contents (t.place localEngine.auditLog)
      = (Json.logText AuditRecord.toJson [v.record]).toUTF8 := by
    rw [Store.place_eq hwritten.home, hwritten.contents_of_mem (List.mem_cons_self ..), hfresh.log,
      Json.logText_singleton]
    exact ByteArray.empty_append
  obtain ⟨records, hhistory, -, hstatus⟩ := htraced "s"
  have hknown := AuditLog.perform_history hfound hcontents "s" quietHost
  obtain rfl := Except.ok.inj (Prod.mk.inj (hhistory.symm.trans hknown)).1
  have hactive := hstatus _ (List.mem_cons_self ..) rfl
  rw [hrecord] at hactive
  cases hactive

end Engine

end Pipewright
