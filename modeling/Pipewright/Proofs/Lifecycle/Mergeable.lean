import Pipewright.Proofs.Engine.Actions
import Pipewright.Proofs.Lifecycle.Effect
import Pipewright.Proofs.Lifecycle.Runs
import Pipewright.Proofs.Pipeline.Validity

/-!
# Attempts and mergeable nodes

What becomes of both files when a transition is attempted, and the nodes for which every step
towards merging is granted.
-/

/-!
## Attempts at a transition

A transition of a graph file of which nothing is known, not even that it can be
written, either does not come to a verdict or its record cannot be added, and
both files are as they were; or the record is added and the graph cannot be
saved; or the verdict is carried out (`Engine.Attempt`).
-/

namespace Pipewright

open Pipeline (Verdict)

/-! ### The statuses of nodes -/

namespace Pipeline

variable {p after : Pipeline} {id : String} {n m : Node}

/-- The status of the node of an id, if there is one. -/
def statusOf? (p : Pipeline) (id : String) : Option Status := (p.node? id).map (·.status)

theorem statusOf?_of_statuses (h : after.statuses = p.statuses) (id : String) :
    after.statusOf? id = p.statusOf? id := by
  have hfind : ∀ p : Pipeline, p.statusOf? id = (p.statuses.find? (·.1 = id)).map (·.2) := by
    intro p
    rw [statuses, List.find?_map, Option.map_map]
    rfl
  rw [hfind, hfind, h]

/-- A pipeline that succeeds another one differs in the status of one node. -/
theorem Succeeds.statusOf? (h : p.Succeeds after id n m) (hm : m.id = id) :
    p.statusOf? id = some n.status ∧
      ∀ other, after.statusOf? other = if other = id then some m.status else p.statusOf? other := by
  obtain ⟨front, back, hnodes, hid, hfront, hafter⟩ := h.nodes
  have hnone : front.find? (·.id = id) = none := by
    rw [List.find?_eq_none]
    intro k hk
    simpa using hfront k hk
  refine ⟨by simp [Pipeline.statusOf?, node?, hnodes, hnone, hid], fun other => ?_⟩
  rw [hafter]
  simp only [Pipeline.statusOf?, node?, hnodes, List.find?_append]
  by_cases hother : other = id
  · rw [hother, hnone, if_pos rfl]
    simp [hm]
  · rw [if_neg hother]
    simp [hm, hid, Ne.symm hother]

/-- What is said of a sequence number that was written as a negative one. -/
def seqFault (seq : UInt64) : Error :=
  faultAt 1 ("checkpoint_seq must be a non-negative integer, got "
    ++ String.ofList (Digraph.renderValue (.integer seq.toInt64)))

/-- A pipeline whose sequence number has 64 bits is written with a negative one, which is refused.
-/
theorem parse_render_of_le_seq (hattrs : Lacks graphKeys p.attrs) (hplain : p.Plain)
    (hseq : 2 ^ 63 ≤ p.checkpointSeq.toNat) :
    parse p.render = .error (seqFault p.checkpointSeq) := by
  obtain ⟨hkeys, hreals⟩ := isPlain_iff.mp (plain_toDigraph hplain)
  obtain ⟨g, hread, hg⟩ := Digraph.parse_render_of_rereads (Digraph.rereads_id hkeys hreals)
  rw [Digraph.mapValues_id] at hg
  have hattrs' : g.attrs = p.toDigraph.attrs := (congrArg Digraph.attrs hg :)
  have hget : g.attrs.get? "checkpoint_seq" = some (.integer p.checkpointSeq.toInt64) :=
    hattrs' ▸ (get?_graphAttrs hattrs).1
  have hneg : ¬0 ≤ p.checkpointSeq.toInt64.toInt := by
    change ¬0 ≤ p.checkpointSeq.toBitVec.toInt
    have hle : 2 ^ 63 ≤ p.checkpointSeq.toBitVec.toNat := hseq
    have hlt : p.checkpointSeq.toBitVec.toNat < 2 ^ 64 := p.checkpointSeq.toBitVec.isLt
    rw [BitVec.toInt_eq_toNat_cond]
    split <;> omega
  have hcount : countAttr UInt64.size g.attrs "checkpoint_seq" 1
      = .error (seqFault p.checkpointSeq) := by
    rw [countAttr, hget]
    simp only [AttrValue.asInt?]
    rw [if_neg fun h => hneg h.1]
    rfl
  rw [parse, render, Digraph.read, hread]
  change ofDigraph g = _
  rw [ofDigraph, hcount]
  rfl

/-- A pipeline whose sequence number has 64 bits is not read back. -/
theorem seq_lt_of_parse_render (hattrs : Lacks graphKeys p.attrs) (hplain : p.Plain) {p' : Pipeline}
    (hparse : parse p.render = .ok p') : p.checkpointSeq.toNat < 2 ^ 63 := by
  by_contra hseq
  rw [parse_render_of_le_seq hattrs hplain (Nat.le_of_not_lt hseq)] at hparse
  cases hparse

end Pipeline

/-! ### What a graph file bears -/

namespace GraphFile

variable {s t : Store} {path : String} {p p' : Pipeline}

/-- The file of the path is found, and its text is that of the pipeline. -/
def Bears (s : Store) (path : String) (p : Pipeline) : Prop :=
  ∃ bytes text, s.Has path (some bytes) ∧ String.fromUTF8? bytes = some text ∧
    Pipeline.parse text = .ok p

theorem Bears.of_keeps (h : Bears s path p) (hkeeps : s.Keeps path t) : Bears t path p := by
  obtain ⟨bytes, text, hhas, htext⟩ := h
  exact ⟨bytes, text, hkeeps.has _ hhas, htext⟩

theorem Bears.unique (h : Bears s path p) (h' : Bears s path p') : p = p' := by
  obtain ⟨bytes, text, hhas, hutf, hparse⟩ := h
  obtain ⟨bytes', text', hhas', hutf', hparse'⟩ := h'
  cases hhas.unique hhas'
  cases hutf.symm.trans hutf'
  exact Except.ok.inj (hparse.symm.trans hparse')

/-- Loading changes nothing, and what is loaded is what the file bears. -/
theorem perform_load_cases (path : String) (h : Host) (s : Store) :
    (∃ err, (load path).perform h s = (.error err, s)) ∨
      ∃ p, (load path).perform h s = (.ok p, s) ∧ Bears s path p := by
  rcases perform_load path h s with ⟨err, hload, -⟩ | ⟨p, bytes, modified, hload, hfind, hholds⟩
  · exact .inl ⟨err, hload⟩
  · obtain ⟨bytes', modified', text, hat, hutf, hparse⟩ := hholds
    cases (Store.find_eq_ok.mp hfind).2.1.symm.trans hat
    exact .inr ⟨p, hload, bytes, text, ⟨modified, hfind⟩, hutf, hparse⟩

/-- What a graph file bears after a verdict was carried out: one node has another status. It is
read back unless it bears another text than before and the number of that has 64 bits. -/
theorem Bears.saved {maxRetries : UInt32} {u : Store} {now : Instant} {q : Request} {v : Verdict}
    (h : Bears s path p) (hplain : p.Plain) (hjudge : p.judge maxRetries u now q = .ok v)
    (hsaved : t.Has path (some (bumped v.after).bytes))
    (hseq : (∃ bytes, t.Has path (some bytes) ∧ ¬s.Has path (some bytes)) →
      p.checkpointSeq.toNat + 1 < 2 ^ 63) :
    ∃ p', Bears t path p' ∧ p'.Plain ∧ p.statusOf? q.node = some v.record.source ∧
      ∀ id, p'.statusOf? id = if id = q.node then some v.record.target else p.statusOf? id := by
  obtain ⟨bytes, text, hhas, hutf, hparse⟩ := h
  have hlifted := Pipeline.lifted_of_parse hparse
  obtain ⟨-, n, m, hsucceeds, hid, hextra, -, hsource, htarget, -⟩ :=
    Pipeline.succeeds_of_judge hjudge hlifted.seq
  have hnext := hsucceeds.plain hextra hplain
  have hnum : p.checkpointSeq.toNat + 1 < 2 ^ 63 := by
    by_cases hsame : bytes = (bumped v.after).bytes
    · have htext : text = (bumped v.after).render := by
        rw [hsame, Pipeline.bytes, fromUTF8?_toUTF8] at hutf
        exact (Option.some.inj hutf).symm
      have hattrs : Pipeline.Lacks Pipeline.graphKeys (bumped v.after).attrs := by
        obtain ⟨_, _, -, -, -, hafter⟩ := hsucceeds.nodes
        rw [hafter]
        exact hlifted.attrs
      rw [htext] at hparse
      rw [← hsucceeds.seq]
      exact Pipeline.seq_lt_of_parse_render hattrs hnext hparse
    · exact hseq ⟨_, hsaved, fun hbefore => hsame (Option.some.inj (hhas.unique hbefore))⟩
  obtain ⟨p', hread, hsame, -, hplain'⟩ := Pipeline.parse_render_of_plain
    (hsucceeds.lifted hid hextra hnum hlifted) hnext
  obtain ⟨hbefore, hafter⟩ := hsucceeds.statusOf? hid
  refine ⟨p', ⟨_, _, hsaved, fromUTF8?_toUTF8 _, hread⟩, hplain', ?_, fun id => ?_⟩
  · rw [hbefore, hsource]
  · rw [Pipeline.statusOf?_of_statuses (Pipeline.statuses_of_unlined hsame), hafter, htarget]

end GraphFile

namespace Engine

variable {e : Engine} {graph : String} {q : Request} {h : Host} {s t u : Store}

inductive Attempt (e : Engine) (graph : String) (q : Request) (h : Host) (s : Store) :
    Except Error AuditRecord × Store → Prop
  | refused {err : Error} {t : Store} (graph_kept : s.Keeps graph t)
      (log : t.contents (t.place e.auditLog) = s.contents (s.place e.auditLog)) :
      Attempt e graph q h s (.error err, t)
  | unsaved {p : Pipeline} {v : Verdict} {err : Error} {u t : Store}
      (judged : p.judge e.maxRetries u (h.clock 0) q = .ok v) (graph_kept : s.Keeps graph t)
      (log : t.contents (t.place e.auditLog) = s.contents (s.place e.auditLog) ++ v.record.line) :
      Attempt e graph q h s (.error err, t)
  | carriedOut {p : Pipeline} {v : Verdict} {u t : Store} (kept : s.Keeps graph u)
      (loaded : GraphFile.Bears u graph p)
      (judged : p.judge e.maxRetries u (h.clock 0) q = .ok v)
      (saved : t.Has graph (some (GraphFile.bumped v.after).bytes))
      (log : t.contents (t.place e.auditLog) = s.contents (s.place e.auditLog) ++ v.record.line) :
      Attempt e graph q h s (v.answer q, t)

theorem contents_of_touched {files locks : List (List String)} (h : Store.Touched files locks s t)
    {path : String} (hpath : s.place path ∉ files) :
    t.contents (t.place path) = s.contents (s.place path) := by
  rw [Store.place_eq h.home, h.contents hpath]

/-- A verdict is carried out, or its record cannot be added, or the graph cannot be saved. -/
theorem attempt_carryOut {p : Pipeline} {v : Verdict} (held : List (List String))
    (hplaces : u.place graph ≠ u.place e.auditLog) (hkeeps : s.Keeps graph u)
    (hlog : u.contents (u.place e.auditLog) = s.contents (s.place e.auditLog))
    (hloaded : GraphFile.Bears u graph p) (hjudge : p.judge e.maxRetries u (h.clock 0) q = .ok v) :
    Attempt e graph q h s ((e.carryOut graph q v).perform { h with held := held } u) := by
  have happends : (Action.appendFile e.auditLog v.record.line).Within [e.auditLog] [] :=
    Action.within_appendFile _ _
  have htouched := happends { h with held := held } u
  rw [carryOut, AuditLog.append_eq, Action.perform_bind]
  rcases Action.appendFile_spec e.auditLog v.record.line { h with held := held } u [] with
    ⟨t, happend, hwritten, -⟩ | ⟨fault, t, happend, hgrown, -⟩
  · rw [happend] at htouched ⊢
    have hkeeps' := hkeeps.trans (htouched.keeps (by simpa using hplaces) (by simp))
    have hlog' : t.contents (t.place e.auditLog)
        = s.contents (s.place e.auditLog) ++ v.record.line := by
      rw [Store.place_eq hwritten.home, hwritten.contents_of_mem (List.mem_singleton.mpr rfl), hlog]
    dsimp only
    rw [GraphFile.save, bind_assoc, Action.perform_bind, Action.perform_replaceFile]
    have hspec := t.replace_spec graph (GraphFile.bumped v.after).render.toUTF8
      (({ h with held := held } : Host).clock 0)
    have hother : t.place e.auditLog ∉ [t.place graph] := by
      rw [Store.place_eq hwritten.home, Store.place_eq hwritten.home]
      simpa using Ne.symm hplaces
    have hlogs := contents_of_touched (hspec.touched []) hother
    rcases hreplace : t.replace graph (GraphFile.bumped v.after).render.toUTF8
      (({ h with held := held } : Host).clock 0) with ⟨fault | ⟨⟩, t'⟩
    · rw [hreplace] at hspec hlogs
      exact .unsaved hjudge (hkeeps'.trans (hspec.keeps rfl)) (hlogs.trans hlog')
    · have hok : (t.replace graph (GraphFile.bumped v.after).render.toUTF8
          (({ h with held := held } : Host).clock 0)).1 = .ok () := by rw [hreplace]
      have hfind := Store.find_replace hok
      rw [hreplace] at hfind hlogs
      have hsaved : t'.Has graph (some (GraphFile.bumped v.after).bytes) := ⟨_, hfind⟩
      have hanswer : (Action.ofExcept (v.answer q)).perform { h with held := held } t'
          = (v.answer q, t') := Action.perform_ofExcept _ _ _
      change Attempt e graph q h s
        ((Action.ofExcept (v.answer q)).perform { h with held := held } t')
      rw [hanswer]
      exact .carriedOut hkeeps hloaded hjudge hsaved (hlogs.trans hlog')
  · rw [happend] at htouched ⊢
    refine .refused (hkeeps.trans (htouched.keeps (by simpa using hplaces) (by simp))) ?_
    rw [contents_of_touched hgrown.touched (by simp), hlog]

theorem transition_attempt (e : Engine) (q : Request) (h : Host)
    (hplaces : s.place graph ≠ s.place e.auditLog)
    (hlock : s.place graph ≠ s.place (lockPath graph)) :
    Attempt e graph q h s ((e.transition graph q).perform h s) := by
  rcases Action.withLock_cases graph e.lockPolicy (e.transitionLocked graph q) h s with
    ⟨err, t, hperform, ht⟩ | ⟨u, held, hu, -, -, hperform⟩
  · rw [transition, hperform]
    exact .refused (ht.keeps (by simp) (by simpa using hlock)) (contents_of_touched ht (by simp))
  · have hkeeps : s.Keeps graph u := hu.keeps (by simp) (by simpa using hlock)
    have hlog : u.contents (u.place e.auditLog) = s.contents (s.place e.auditLog) :=
      contents_of_touched hu (by simp)
    rw [transition, hperform, perform_transitionLocked]
    rcases GraphFile.perform_load_cases graph { h with held := held } u with
      ⟨err, hload⟩ | ⟨p, hload, hbears⟩
    · rw [hload]
      exact .refused hkeeps hlog
    · rw [hload]
      dsimp only
      cases hjudge : p.judge e.maxRetries u (h.clock 0) q with
      | error err => exact .refused hkeeps hlog
      | ok v =>
          have hplaces' : u.place graph ≠ u.place e.auditLog := by
            rw [Store.place_eq hu.home, Store.place_eq hu.home]
            exact hplaces
          exact attempt_carryOut held hplaces' hkeeps hlog hbears hjudge

end Engine

end Pipewright

/-!
## Nodes that can be merged

A node of work that is to be merged and is pinned to its acceptance text can be
merged as far as the pipeline is concerned, if that is valid (`Mergeable`): every
legal step towards merging is granted, and after the step, and after the graph
was saved and loaded, the node can be merged as before. Where the files of the
engine can be written the step is made (`transition_granted`).
-/

namespace Pipewright

open Pipewright.Action

/-- The pipeline is valid, and the node is one of work that is to be merged and is pinned to
its acceptance text. -/
structure Pipeline.Mergeable (p : Pipeline) (id : String) (n : Pipeline.Node) : Prop where
  node : p.node? id = some n
  valid : p.requireValid = .ok ()
  work : n.kind = .work
  merge : n.merge = true
  pinned : ∃ pin, n.acceptanceHash = some pin ∧ n.digest = some pin

theorem Pipeline.Mergeable.judge {p : Pipeline} {id : String} {n : Pipeline.Node}
    {target : Status} (h : p.Mergeable id n) (hlegal : n.status.canBecome target)
    (htarget : target = .mergeReady ∨ target = .merged) (maxRetries : UInt32) (s : Store)
    (now : Instant) (actor : String) : p.judge maxRetries s now ⟨id, target, actor, none⟩
      = .ok (.granted (p.modify id (·.advance ⟨id, target, actor, none⟩ {} now))
        ⟨now.stamp, id, n.status, target, actor, none⟩) := by
  obtain ⟨pin, hpin, hdigest⟩ := h.pinned
  have hacceptance : Guard.checkAcceptance n = .ok () := by
    rw [Guard.checkAcceptance, hpin]
    exact if_pos hdigest
  have hmerging : Guard.checkMerging n target = .ok () := by
    rw [Guard.checkMerging, if_pos htarget, if_neg (not_not_intro h.work), h.merge]
    rfl
  have hseparation : Guard.checkSeparation n target actor = .ok () := by
    rw [Guard.checkSeparation, if_neg]
    rintro ⟨-, hjudges, -⟩
    rcases htarget with rfl | rfl <;> simp at hjudges
  have hevidence : Guard.checkEvidence s n target none = .ok {} := by
    rw [Guard.checkEvidence, if_neg]
    rcases htarget with rfl | rfl <;> nofun
  have hfailed : n.status ≠ .failed := by
    intro hfailed
    rw [hfailed] at hlegal
    rcases htarget with rfl | rfl <;> cases hlegal
  simp only [Pipeline.judge, h.node, hlegal, h.valid, hfailed, Guard.check, hacceptance, hmerging,
    hseparation, hevidence, Except.mapError, bind, Except.bind, pure, Except.pure, Bool.not_true,
    false_and, if_false]
  rfl

namespace Pipeline.Mergeable

variable {p p' : Pipeline} {id : String} {n m : Node}

theorem pinFinding (h : p.Mergeable id n) (hhash : m.acceptanceHash = n.acceptanceHash)
    (hdigest : m.digest = n.digest) : pinFinding m = [] := by
  obtain ⟨pin, hpin, hpinned⟩ := h.pinned
  rw [Pipeline.pinFinding, hhash, hpin, hdigest, hpinned]
  exact if_pos rfl

/-- A node that can be merged can be merged after a step that leaves its text and its pin. -/
theorem modify (h : p.Mergeable id n) {f : Node → Node} (hf : ∀ n, (f n).bare = n.bare)
    (hmerge : (f n).merge = n.merge) (hhash : (f n).acceptanceHash = n.acceptanceHash) :
    (GraphFile.bumped (p.modify id f)).Mergeable id (f n) := by
  have hdigest : (f n).digest = n.digest := by
    have hacceptance : (f n).acceptance = n.acceptance := (congrArg Node.acceptance (hf n) :)
    rw [Node.digest, hacceptance, Node.digest]
  have hpin := h.pinFinding hhash hdigest
  obtain ⟨front, back, hnodes, hfront, hid, hmodify⟩ := modify_of_node? h.node f
  have hid' : (f n).id = id := (congrArg Node.id (hf n)).trans hid
  have hvalid := requireValid_modify h.valid hf h.node hpin
  have hbare : (GraphFile.bumped (p.modify id f)).bare = (p.modify id f).bare := by
    simp only [GraphFile.bumped, bare]
  have hbumped : (GraphFile.bumped (p.modify id f)).requireValid = .ok () := by
    refine requireValid_of_bare hbare ?_ hvalid
    dsimp only [GraphFile.bumped]
    exact pinFinding_of_requireValid hvalid
  refine ⟨?_, hbumped, (congrArg Node.kind (hf n)).trans h.work, hmerge.trans h.merge, ?_⟩
  · have hnone : front.find? (·.id = id) = none := by
      rw [List.find?_eq_none]
      intro k hk
      simpa using hfront k hk
    rw [GraphFile.bumped, hmodify, node?, List.find?_append, hnone]
    simp [hid']
  · rw [hhash, hdigest]
    exact h.pinned

/-- It can be merged when the pipeline is read back from its file. -/
theorem reread (h : p.Mergeable id n) (hread : p'.unlined = p.shaped.unlined) :
    ∃ m, p'.Mergeable id m ∧ m.status = n.status := by
  have hsome := node?_of_unlined hread id
  rw [h.node] at hsome
  obtain ⟨m, hm, heq⟩ := Option.map_eq_some_iff.mp hsome
  obtain ⟨pin, hpin, hdigest⟩ := h.pinned
  have hacceptance : m.acceptance = n.acceptance := (congrArg Node.acceptance heq :)
  refine ⟨m, ⟨hm, requireValid_of_unlined h.valid hread, ?_, ?_, pin, ?_, ?_⟩, ?_⟩
  · exact (congrArg Node.kind heq).trans h.work
  · exact (congrArg Node.merge heq).trans h.merge
  · exact (congrArg Node.acceptanceHash heq).trans hpin
  · rw [Node.digest, hacceptance]
    exact hdigest
  · exact (congrArg Node.status heq :)

end Pipeline.Mergeable

namespace Engine

variable {e : Engine} {graph : String} {q : Request} {h : Host} {s : Store} {p : Pipeline}
  {v : Pipeline.Verdict}

/-- A verdict is carried out where the lock is free and the files can be written. -/
theorem transition_granted (hbears : GraphFile.Bears s graph p)
    (hplaces : s.place graph ≠ s.place e.auditLog) (hlock : s.Found (lockPath graph))
    (hfree : h.held.contains (s.place (lockPath graph)) = false) (hlog : s.Found e.auditLog)
    (hreplace : s.CanReplace graph) (hjudge : p.judge e.maxRetries s (h.clock 0) q = .ok v) :
    ∃ t, (e.transition graph q).perform h s = (v.answer q, t) ∧ t.Found e.auditLog ∧
      t.Has graph (some (GraphFile.bumped v.after).bytes) := by
  obtain ⟨bytes, text, ⟨modified, hfind⟩, hutf, hparse⟩ := hbears
  have hperform : (e.transition graph q).perform h s = (e.carryOut graph q v).perform
      { h with held := s.place (lockPath graph) :: h.held } s := by
    rw [transition, perform_withLock hlock hfree, perform_transitionLocked,
      GraphFile.perform_load_of_find hfind hutf hparse]
    dsimp only
    rw [hjudge]
  rcases perform_carryOut (q := q) v { h with held := s.place (lockPath graph) :: h.held }
    [] hplaces
    hfind hreplace with
      ⟨fault, t, -, -, hcannot⟩ | ⟨t, hcarried, hwritten, ⟨bytes', modified', hgraph⟩, hlog'⟩
  · obtain ⟨logBytes, logModified, hlogFind⟩ := hlog
    exact absurd (Store.canAppend_of_find hlogFind) hcannot
  · refine ⟨t, hperform.trans hcarried, hlog', modified', ?_⟩
    have hcontents := hwritten.contents_of_mem (List.mem_cons_self ..)
    rw [← Store.place_eq hwritten.home, Store.contents_of_find hgraph] at hcontents
    rw [hgraph, hcontents]

end Engine

end Pipewright
