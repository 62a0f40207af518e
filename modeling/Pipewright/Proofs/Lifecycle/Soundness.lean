import Pipewright.Proofs.Lifecycle.Mergeable
import Pipewright.Proofs.Lifecycle.Runs
import Pipewright.Proofs.Pipeline.WellFormed

/-!
# Sound pipelines

Transitions keep a pipeline sound, and an acceptance text that was changed is reported.
-/

/-!
## Transitions keep a pipeline sound

A transition is granted on a valid pipeline only, and what it changes of a node is
its status, its pin and what goes with them. So the pipeline that it saves is
valid again: a node of work is pinned on its way to validation, which is the only
way to all later statuses, and its acceptance text is there to be pinned because
the pipeline was valid.

That a node on its way into the repository is one that may be merged is not a
matter of validity. It is seen to by the guard of those steps, and holds of all
nodes of a pipeline that has only been changed by transitions (`Sound`).
-/

namespace Pipewright

open Pipeline (Node Verdict)

/-! ### What the guards see to -/

namespace Guard

variable {s : Store} {n : Node} {target : Status} {actor : String} {evidence : Option String}
  {effects : Effects}

theorem merges_of_check (h : check s n target actor evidence = .ok effects)
    (htarget : target = .mergeReady ∨ target = .merged) : n.kind = .work ∧ n.merge = true := by
  unfold check at h
  obtain ⟨_, -, h⟩ := bind_eq_ok.mp h
  obtain ⟨_, hmerging, -⟩ := bind_eq_ok.mp h
  unfold checkMerging at hmerging
  rw [if_pos htarget] at hmerging
  split at hmerging
  · cases hmerging
  · next hwork =>
    split at hmerging
    · cases hmerging
    · next hmerge => exact ⟨not_not.mp hwork, by simpa using hmerge⟩

end Guard

namespace Pipeline

variable {p p' : Pipeline} {s u : Store} {q : Request} {now : Instant} {maxRetries : UInt32}
  {v : Verdict} {n : Node} {effects : Guard.Effects}

/-! ### Validity -/

theorem acceptanceHash_advance (h : Guard.check s n q.target q.actor q.evidence = .ok effects)
    (now : Instant) :
    (n.advance q effects now).acceptanceHash
      = if q.target = .validated ∧ n.acceptanceHash = none then n.digest else n.acceptanceHash := by
  rw [Node.advance, Guard.acceptanceHash_of_check_eq h]
  by_cases hpins : q.target = .validated ∧ n.acceptanceHash = none
  · rw [if_pos hpins, if_pos hpins, hpins.2]
    cases n.digest <;> rfl
  · rw [if_neg hpins, if_neg hpins]
    rfl

theorem pinFinding_advance (hp : p.WellFormed) (hn : n ∈ p.nodes)
    (hlegal : n.status.canBecome q.target)
    (hcheck : Guard.check s n q.target q.actor q.evidence = .ok effects) :
    pinFinding (n.advance q effects now) = [] := by
  have hhash := acceptanceHash_advance hcheck now
  rw [pinFinding_eq_nil_iff]
  constructor
  · intro pin hpin
    rw [hhash] at hpin
    split at hpin
    · obtain ⟨text, htext, hsame⟩ := Option.map_eq_some_iff.mp hpin
      exact ⟨text, htext, hsame⟩
    · exact hp.pin n hn pin hpin
  · intro hwork htarget
    have hbefore : q.target ≠ .validated → ∃ pin, n.acceptanceHash = some pin := by
      intro hne
      refine hp.pinned n hn hwork ?_
      change q.target = .validated ∨ q.target = .mergeReady ∨ q.target = .merged at htarget
      revert hlegal
      rcases htarget with htarget | htarget | htarget
      · exact absurd htarget hne
      all_goals
        rw [htarget]
        cases n.status <;> decide
    rw [hhash]
    by_cases hvalidated : q.target = .validated
    · obtain ⟨-, text, htext, -⟩ := hp.work n hn hwork
      cases hpin : n.acceptanceHash with
      | none => exact ⟨sha256Text text, by rw [if_pos ⟨hvalidated, rfl⟩, Node.digest, htext]; rfl⟩
      | some pin => exact ⟨pin, by rw [if_neg (by simp)]⟩
    · rw [if_neg fun hboth => hvalidated hboth.1]
      exact hbefore hvalidated

theorem requireValid_bumped (h : p.requireValid = .ok ()) :
    (GraphFile.bumped p).requireValid = .ok () := by
  have hpins : ∀ n ∈ (GraphFile.bumped p).nodes, pinFinding n = [] := by
    intro n hn
    exact pinFinding_of_requireValid h n hn
  exact requireValid_of_bare (p := p) rfl hpins h

theorem wellFormed_of_requireValid (h : p.requireValid = .ok ()) : p.WellFormed :=
  wellFormed_of_errors (errors_of_requireValid h)

theorem requireValid_of_judge (h : p.judge maxRetries u now q = .ok v) :
    (GraphFile.bumped v.after).requireValid = .ok () := by
  obtain ⟨n, hnode, hlegal, hvalid, hjudged⟩ := judge_eq_ok h
  have hmem : n ∈ p.nodes := List.mem_of_find?_eq_some hnode
  refine requireValid_bumped ?_
  cases hjudged with
  | granted effects hcheck =>
      refine requireValid_modify hvalid (fun _ => rfl) hnode ?_
      exact pinFinding_advance (wellFormed_of_requireValid hvalid) hmem hlegal hcheck
  | exhausted hfailed =>
      refine requireValid_modify hvalid (fun _ => rfl) hnode ?_
      have hpin := (pinFinding_eq_nil_iff.mp (pinFinding_of_requireValid hvalid n hmem)).1
      exact pinFinding_eq_nil_iff.mpr ⟨hpin, by simp⟩

/-! ### Soundness -/

/-- The pipeline is valid, and what is to be merged or has been may be. -/
structure Sound (p : Pipeline) : Prop where
  valid : p.requireValid = .ok ()
  merging : ∀ n ∈ p.nodes, n.status = .mergeReady ∨ n.status = .merged →
    n.kind = .work ∧ n.merge = true

theorem Sound.judge (h : p.Sound) (hjudge : p.judge maxRetries u now q = .ok v) :
    (GraphFile.bumped v.after).Sound := by
  refine ⟨requireValid_of_judge hjudge, ?_⟩
  obtain ⟨n, hnode, -, -, hjudged⟩ := judge_eq_ok hjudge
  cases hjudged with
  | granted effects hcheck =>
      intro m hm hstatus
      rcases mem_modifyFirst hm with hm | ⟨k, hk, rfl⟩
      · exact h.merging m hm hstatus
      · obtain rfl := Option.some.inj (hnode.symm.trans hk)
        have hmerges : n.kind = .work ∧ n.merge = true := Guard.merges_of_check hcheck hstatus
        exact hmerges
  | exhausted hfailed =>
      intro m hm hstatus
      rcases mem_modifyFirst hm with hm | ⟨k, hk, rfl⟩
      · exact h.merging m hm hstatus
      · rcases hstatus with hstatus | hstatus <;> cases hstatus

theorem Sound.reread (h : p.Sound) (hread : p'.unlined = p.shaped.unlined) : p'.Sound := by
  refine ⟨requireValid_of_unlined h.valid hread, fun m hm hstatus => ?_⟩
  obtain ⟨n, hn, heq⟩ := mem_of_unlined hread hm
  have hsame : n.status = m.status ∧ n.kind = m.kind ∧ n.merge = m.merge :=
    ⟨(congrArg Node.status heq :), (congrArg Node.kind heq :), (congrArg Node.merge heq :)⟩
  rw [← hsame.1] at hstatus
  rw [← hsame.2.1, ← hsame.2.2]
  exact h.merging n hn hstatus

/-- What holds of a pipeline holds of it after a transition, and when it is read back from its
file. -/
structure Lasting (I : Pipeline → Prop) : Prop where
  judge : ∀ {p : Pipeline} {maxRetries : UInt32} {u : Store} {now : Instant} {q : Request}
    {v : Verdict}, I p → p.judge maxRetries u now q = .ok v → I (GraphFile.bumped v.after)
  reread : ∀ {p p' : Pipeline}, I p → p'.unlined = p.shaped.unlined → I p'

theorem lasting_sound : Lasting Sound := ⟨Sound.judge, Sound.reread⟩

theorem sound_of_pending (herrors : p.errors = []) (hpending : ∀ n ∈ p.nodes, n.status = .pending) :
    p.Sound := by
  refine ⟨requireValid_of_errors herrors, fun n hn hstatus => ?_⟩
  rw [hpending n hn] at hstatus
  rcases hstatus with hstatus | hstatus <;> cases hstatus

/-- In a sound pipeline accepted work is pinned to its acceptance text. -/
theorem Sound.pinned (h : p.Sound) (hn : n ∈ p.nodes) (hwork : n.kind = .work)
    (hstatus : n.status = .validated ∨ n.status = .mergeReady ∨ n.status = .merged) :
    ∃ pin, n.acceptanceHash = some pin ∧ n.digest = some pin := by
  have hp := wellFormed_of_requireValid h.valid
  obtain ⟨pin, hpin⟩ := hp.pinned n hn hwork hstatus
  obtain ⟨text, htext, rfl⟩ := hp.pin n hn pin hpin
  exact ⟨_, hpin, by rw [Node.digest, htext]; rfl⟩

end Pipeline

/-! ### Graph files -/

namespace GraphFile

variable {s t u : Store} {path : String} {p : Pipeline} {maxRetries : UInt32} {now : Instant}
  {q : Request} {v : Verdict}

theorem Bears.rewritten (h : Bears s path p) (hplain : p.Plain)
    (hjudge : p.judge maxRetries u now q = .ok v)
    (hsaved : t.Has path (some (bumped v.after).bytes))
    (hseq : p.checkpointSeq.toNat + 1 < 2 ^ 63) :
    ∃ p', Bears t path p' ∧ p'.Plain ∧ p'.unlined = (bumped v.after).shaped.unlined ∧
      p'.checkpointSeq.toNat = p.checkpointSeq.toNat + 1 := by
  obtain ⟨bytes, text, -, -, hparse⟩ := h
  have hlifted := Pipeline.lifted_of_parse hparse
  obtain ⟨-, n, m, hsucceeds, hid, hextra, -⟩ := Pipeline.succeeds_of_judge hjudge hlifted.seq
  obtain ⟨p', hread, hsame, -, hplain'⟩ := Pipeline.parse_render_of_plain
    (hsucceeds.lifted hid hextra hseq hlifted) (hsucceeds.plain hextra hplain)
  refine ⟨p', ⟨_, _, hsaved, fromUTF8?_toUTF8 _, hread⟩, hplain', hsame, ?_⟩
  have hnum : p'.checkpointSeq = (bumped v.after).checkpointSeq :=
    (congrArg Pipeline.checkpointSeq hsame :)
  rw [hnum, hsucceeds.seq]

theorem Bears.ending (h : Bears s path p) : Path.ending path = .name := by
  obtain ⟨bytes, text, ⟨modified, hfind⟩, -⟩ := h
  exact (Store.find_eq_file.mp hfind).2.2

theorem Bears.keeps_of_locked (h : Bears s path p)
    (hlock : Store.Touched [] [s.place (lockPath path)] s u) : s.Keeps path u := by
  refine hlock.keeps (by simp) ?_
  simpa using s.place_lockPath_ne h.ending

end GraphFile

namespace Engine

variable {e : Engine} {graph : String} {q : Request} {h : Host} {s t : Store} {p : Pipeline}

theorem saves_eq_one_iff {r : Except Error AuditRecord} : saves r = 1 ↔
    (∃ record, r = .ok record) ∨
      ∃ node attempts, r = .error (.retriesExhausted node attempts) := by
  constructor
  · intro hsaves
    cases r with
    | ok record => exact .inl ⟨record, rfl⟩
    | error err =>
        cases err
        case retriesExhausted node attempts => exact .inr ⟨node, attempts, rfl⟩
        all_goals cases hsaves
  · rintro (⟨record, rfl⟩ | ⟨node, attempts, rfl⟩) <;> rfl

theorem saves_of_spared {err : Error} (hspared : err.isExhausted = false) :
    saves (.error err) = 0 := by
  rw [saves, hspared]
  rfl

theorem saved_of_carryOut {v : Verdict}
    (hsaves : saves ((e.carryOut graph q v).perform h s).1 = 1) :
    ((e.carryOut graph q v).perform h s).2.Has graph (some (GraphFile.bumped v.after).bytes) := by
  rw [carryOut, AuditLog.append_eq, Action.perform_bind] at hsaves ⊢
  rcases Action.appendFile_spec e.auditLog v.record.line h s [] with
    ⟨t, happend, -⟩ | ⟨fault, t, happend, -⟩
  · rw [happend] at hsaves ⊢
    dsimp only at hsaves ⊢
    rw [GraphFile.save, bind_assoc, Action.perform_bind, Action.perform_replaceFile] at hsaves ⊢
    have hfind : (t.replace graph (GraphFile.bumped v.after).bytes (h.clock 0)).1 = .ok () → _ :=
      Store.find_replace
    rw [Pipeline.bytes] at hfind
    rcases hreplace : t.replace graph (GraphFile.bumped v.after).render.toUTF8 (h.clock 0) with
      ⟨fault | ⟨⟩, t'⟩
    · rw [hreplace] at hsaves
      cases hsaves
    · rw [hreplace] at hfind
      change ((Action.ofExcept (v.answer q)).perform h t').2.Has graph _
      rw [Action.perform_ofExcept]
      exact ⟨_, hfind rfl⟩
  · rw [happend] at hsaves
    cases hsaves

/-- A transition that says that the graph was saved has saved the pipeline of its verdict. -/
theorem saved_of_saves (hsaves : saves ((e.transition graph q).perform h s).1 = 1) :
    ∃ u p v, Store.Touched [] [s.place (lockPath graph)] s u ∧ GraphFile.Bears u graph p ∧
      p.judge e.maxRetries u (h.clock 0) q = .ok v ∧
      ((e.transition graph q).perform h s).2.Has graph (some (GraphFile.bumped v.after).bytes) := by
  have hno : ∀ {err : Error}, err.isExhausted = false → saves (.error err) ≠ 1 := by
    intro err hspared
    rw [saves_of_spared hspared]
    decide
  obtain ⟨u, hlocked, hbody⟩ :=
    Action.withLock_spec graph e.lockPolicy (e.transitionLocked graph q) h s
  rcases hbody with ⟨err, hperform, hspared⟩ | ⟨held, hperform⟩
  · rw [transition, hperform] at hsaves
    exact absurd hsaves (hno hspared)
  rw [transition, hperform, perform_transitionLocked] at hsaves ⊢
  rcases GraphFile.perform_load graph { h with held := held } u with
    ⟨err, hload, hspared⟩ | ⟨p, bytes, modified, hload, hfind, hholds⟩
  · rw [hload] at hsaves
    exact absurd hsaves (hno hspared)
  have hbears : GraphFile.Bears u graph p := by
    obtain ⟨bytes', modified', text, hat, hutf, hparse⟩ := hholds
    cases (Store.find_eq_ok.mp hfind).2.1.symm.trans hat
    exact ⟨bytes, text, ⟨modified, hfind⟩, hutf, hparse⟩
  rw [hload] at hsaves ⊢
  dsimp only at hsaves ⊢
  cases hjudge : p.judge e.maxRetries u (h.clock 0) q with
  | error err =>
      rw [hjudge] at hsaves
      exact absurd hsaves (hno (Pipeline.spares_judge _ _ _ _ _ err hjudge))
  | ok v =>
      rw [hjudge] at hsaves
      exact ⟨u, p, v, hlocked.touched, hbears, hjudge, saved_of_carryOut hsaves⟩

/-- A transition that does not save the graph keeps the graph file, if the audit log is another
one. -/
theorem keeps_of_not_saves (hbears : GraphFile.Bears s graph p)
    (hplaces : s.place graph ≠ s.place e.auditLog)
    (hsaves : saves ((e.transition graph q).perform h s).1 ≠ 1) :
    s.Keeps graph ((e.transition graph q).perform h s).2 := by
  have hattempt := transition_attempt e q h hplaces (s.place_lockPath_ne hbears.ending)
  generalize (e.transition graph q).perform h s = result at hattempt hsaves ⊢
  cases hattempt with
  | refused hkept => exact hkept
  | unsaved _ hkept => exact hkept
  | @carriedOut p v u t =>
      refine absurd ?_ hsaves
      cases v <;> rfl

/-! ### Courses of transitions -/

/-- What becomes of a graph file, and how often it was saved, when transitions are asked for, by
any processes with engines of their own, and others change other files in between. Where an
engine keeps its audit log in the graph file itself, only calls that save the graph count. -/
inductive Course (graph : String) (s : Store) : Nat → Store → Prop
  | start : Course graph s 0 s
  | call {n : Nat} {t : Store} (course : Course graph s n t) (e : Engine) (host : Host)
      (q : Request)
      (log : t.place graph ≠ t.place e.auditLog ∨
        saves ((e.transition graph q).perform host t).1 = 1) :
      Course graph s (n + saves ((e.transition graph q).perform host t).1)
        ((e.transition graph q).perform host t).2
  | aside {n : Nat} {t u : Store} (course : Course graph s n t) (others : t.Keeps graph u) :
      Course graph s n u

theorem lasting_transition {I : Pipeline → Prop} (hlasting : Pipeline.Lasting I)
    (hbears : GraphFile.Bears s graph p) (hplain : p.Plain) (hp : I p)
    (hlog : s.place graph ≠ s.place e.auditLog ∨ saves ((e.transition graph q).perform h s).1 = 1)
    (hseq : p.checkpointSeq.toNat + saves ((e.transition graph q).perform h s).1 < 2 ^ 63) :
    ∃ p', GraphFile.Bears ((e.transition graph q).perform h s).2 graph p' ∧ p'.Plain ∧ I p' ∧
      p'.checkpointSeq.toNat
        = p.checkpointSeq.toNat + saves ((e.transition graph q).perform h s).1 := by
  by_cases hsaves : saves ((e.transition graph q).perform h s).1 = 1
  · obtain ⟨u, p₀, v, hlock, hloaded, hjudge, hsaved⟩ := saved_of_saves hsaves
    obtain rfl := (hbears.of_keeps (hbears.keeps_of_locked hlock)).unique hloaded
    rw [hsaves] at hseq ⊢
    obtain ⟨p', hbears', hplain', hread, hnum⟩ := hbears.rewritten hplain hjudge hsaved hseq
    exact ⟨p', hbears', hplain', hlasting.reread (hlasting.judge hp hjudge) hread, hnum⟩
  · have hkeeps := keeps_of_not_saves hbears (hlog.resolve_right hsaves) hsaves
    have hnone : saves ((e.transition graph q).perform h s).1 = 0 := by
      have hle := saves_le ((e.transition graph q).perform h s).1
      omega
    exact ⟨p, hbears.of_keeps hkeeps, hplain, hp, by rw [hnone, Nat.add_zero]⟩

/-- What lasts over transitions holds of the pipeline in a graph file over a whole course. -/
theorem Course.lasting {I : Pipeline → Prop} (hlasting : Pipeline.Lasting I) {n : Nat}
    (hcourse : Course graph s n t) (hbears : GraphFile.Bears s graph p) (hplain : p.Plain)
    (hp : I p)
    (hseq : p.checkpointSeq.toNat + n < 2 ^ 63) :
    ∃ p', GraphFile.Bears t graph p' ∧ p'.Plain ∧ I p' ∧
      p'.checkpointSeq.toNat = p.checkpointSeq.toNat + n := by
  induction hcourse with
  | start => exact ⟨p, hbears, hplain, hp, rfl⟩
  | @call n t _ e host q hlog ih =>
      obtain ⟨p', hbears', hplain', hp', hnum⟩ := ih (by omega)
      obtain ⟨p'', hbears'', hplain'', hp'', hnum'⟩ :=
        lasting_transition hlasting hbears' hplain' hp' hlog (by omega)
      exact ⟨p'', hbears'', hplain'', hp'', by omega⟩
  | aside _ hothers ih =>
      obtain ⟨p', hbears', hplain', hp', hnum⟩ := ih hseq
      exact ⟨p', hbears'.of_keeps hothers, hplain', hp', hnum⟩

end Engine

/-! ### A graph file with work to be done -/

namespace Pipeline

/-- Two pieces of work that do not wait for each other. -/
def twofold : Pipeline where
  name := "p"
  nodes := [{ id := "s", kind := .start }, .work "a" "dev" "it builds", .work "b" "dev" "it runs",
    { id := "e", kind := .exitSuccess }]
  edges := [{ source := "s", target := "a" }, { source := "s", target := "b" },
    { source := "a", target := "e" }, { source := "b", target := "e" }]

theorem requireValid_twofold : twofold.requireValid = .ok () := by
  have hbare : twofold.bare.requireValid = .ok () := by decide +kernel
  exact requireValid_of_bare (p := twofold.bare) rfl (by decide) hbare

/-- Only the evidence can be in the way when a pending node is to be taken up. -/
theorem check_takeUp {n : Node} (hpending : n.status = .pending) (hpin : n.acceptanceHash = none)
    (s : Store) (actor : String) (evidence : Option String) :
    Guard.check s n .active actor evidence = Guard.checkEvidence s n .active evidence := by
  have hacceptance : Guard.checkAcceptance n = .ok () := by
    rw [Guard.checkAcceptance, hpin]
    exact if_neg (by simp [Node.requiresPin, hpending])
  have hseparation : Guard.checkSeparation n .active actor = .ok () := by
    rw [Guard.checkSeparation, if_neg (by simp)]
  rw [Guard.check, hacceptance, hseparation]
  rfl

end Pipeline

namespace Engine

/-- A pipeline in a graph file in the working directory, beside its lock file and an empty audit
log. -/
def homeStore (p : Pipeline) : Store where
  entries := [(["home", "p.dot"], .file p.bytes default),
    (["home", "p.dot.lock"], .file .empty default), (["home", "audit.jsonl"], .file .empty default)]

theorem bears_homeStore {p : Pipeline} (hlifted : p.Lifted) (hplain : p.Plain) :
    ∃ p', GraphFile.Bears (homeStore p) "p.dot" p' ∧ p'.Plain ∧ p'.unlined = p.shaped.unlined := by
  obtain ⟨p', hread, hsame, -, hplain'⟩ := Pipeline.parse_render_of_plain hlifted hplain
  exact ⟨p', ⟨p.bytes, p.render, ⟨default, rfl⟩, fromUTF8?_toUTF8 _, hread⟩, hplain', hsame⟩

/-- The pipeline with two pieces of work is read back from its file. -/
theorem read_twofold : ∃ p, GraphFile.Bears (homeStore .twofold) "p.dot" p ∧ p.Plain ∧
    p.unlined = Pipeline.twofold.shaped.unlined := by
  have hunadorned : Pipeline.twofold.Unadorned := ⟨by decide, rfl, by decide, by decide, by decide⟩
  exact bears_homeStore hunadorned.lifted hunadorned.plain

/-- The file of the pipeline with two pieces of work, each of which can be taken up. -/
theorem bears_twofold : ∃ p, GraphFile.Bears (homeStore .twofold) "p.dot" p ∧ p.Plain ∧
    p.requireValid = .ok () ∧ p.checkpointSeq = 0 ∧ (∀ n ∈ p.nodes, n.status = .pending) ∧
    ∀ id ∈ ["a", "b"], ∃ n, p.node? id = some n ∧ n.acceptanceHash = none ∧ n.kind = .work := by
  obtain ⟨p, hbears, hplain, hread⟩ := read_twofold
  refine ⟨p, hbears, hplain, Pipeline.requireValid_of_unlined Pipeline.requireValid_twofold hread,
    (congrArg Pipeline.checkpointSeq hread :), ?_, ?_⟩
  · intro n hn
    obtain ⟨m, hm, heq⟩ := Pipeline.mem_of_unlined hread hn
    have hpending : ∀ m ∈ Pipeline.twofold.nodes, m.status = .pending := by
      simp [Pipeline.twofold, Node.work]
    exact (congrArg Node.status heq.symm :).trans (hpending m hm)
  · intro id hid
    have hwork : ∃ acceptance, Pipeline.twofold.node? id = some (.work id "dev" acceptance) := by
      simp only [List.mem_cons, List.not_mem_nil, or_false] at hid
      rcases hid with rfl | rfl
      · exact ⟨_, rfl⟩
      · exact ⟨_, rfl⟩
    obtain ⟨acceptance, hwork⟩ := hwork
    have hnode := Pipeline.node?_of_unlined hread id
    rw [hwork] at hnode
    obtain ⟨n, hn, heq⟩ := Option.map_eq_some_iff.mp hnode
    exact ⟨n, hn, (congrArg Node.acceptanceHash heq :), (congrArg Node.kind heq :)⟩

end Engine

end Pipewright

/-!
## Acceptance texts that were changed

The acceptance text of a node is changed behind the back of the engine, or its
pin is taken away. The rules for whole pipelines report this, and so no step of
any node of the pipeline is even looked at by the guards: the guard that would
refuse a step of just this node never gets to speak (`tampering_reported`).
-/

namespace Pipewright

open Pipeline (Node Verdict PinBroken)

namespace Pipeline

variable {p : Pipeline} {n m : Node} {q : Request}

theorem filter_errors_pins (p : Pipeline) :
    p.errors.filter (·.rule = "acceptance_immutable") = p.lintPins := by
  rw [filter_errors fun rule => rule = "acceptance_immutable"]
  simp [rules, advises]

/-- A pipeline with a node that the guard refuses is not valid. -/
theorem requireValid_of_isRefused (hm : m ∈ p.nodes) (hrefused : m.isRefused) :
    ∃ report, p.requireValid = .error (.invalid report) := by
  cases herrors : p.errors with
  | nil =>
      rw [Node.isRefused, checkAcceptance_of_valid (requireValid_of_errors herrors) hm] at hrefused
      cases hrefused
  | cons f rest => exact ⟨_, by rw [requireValid, herrors]⟩

theorem judge_of_isRefused (hm : m ∈ p.nodes) (hrefused : m.isRefused)
    (hnode : p.node? q.node = some n) (hlegal : n.status.canBecome q.target)
    (maxRetries : UInt32) (s : Store) (now : Instant) :
    ∃ report, p.judge maxRetries s now q = .error (.invalid report) := by
  obtain ⟨report, hinvalid⟩ := requireValid_of_isRefused hm hrefused
  refine ⟨report, ?_⟩
  rw [judge, hnode]
  simp only [hlegal, hinvalid, Bool.not_true, Bool.false_eq_true, if_false]
  rfl

end Pipeline

namespace Engine

variable {e : Engine} {graph : String} {q : Request} {h : Host} {s : Store} {p : Pipeline}

/-- What a request can be refused with, or the answer that retries are used up. -/
def Answers (err : Error) : Prop := err.Refuses ∨ err.isExhausted

theorem throws_carryOut (e : Engine) (graph : String) (q : Request) (v : Verdict) :
    (e.carryOut graph q v).Throws Answers := by
  have hfile : ∀ fault, Answers (.file fault) := fun _ => .inl (.plain rfl)
  have hanswer : ∀ err, v.answer q = .error err → Answers err := by
    intro err herr
    cases v with
    | granted => cases herr
    | exhausted => exact .inr (Except.error.inj herr ▸ rfl)
  have hsave : (GraphFile.save graph v.after).Throws Answers :=
    (Action.throws_replaceFile hfile _ _).bind fun _ => Action.throws_pure _
  exact (Action.throws_appendFile hfile _ _).bind fun _ => hsave.bind fun _ =>
    Action.throws_ofExcept hanswer

/-- Whatever is in the way of a transition: its error is one with which a request can be refused,
or it says that retries are used up. -/
theorem throws_transition (e : Engine) (graph : String) (q : Request) :
    (e.transition graph q).Throws Answers := by
  have hfile : ∀ fault, Answers (.file fault) := fun _ => .inl (.plain rfl)
  have hload : (GraphFile.load graph).Throws Answers :=
    (Action.throws_reading hfile _).bind fun text =>
      Action.throws_ofExcept fun err herr => .inl (.plain (Pipeline.fails_parse text err herr))
  have hget : (get : Action Store).Throws Answers := fun _ _ _ heq => by cases heq
  have hnow : Action.now.Throws Answers := fun _ _ _ heq => by cases heq
  refine Action.Throws.withLock hfile (fun _ _ => .inl (.plain rfl)) ?_ graph e.lockPolicy
  rw [transitionLocked_eq]
  refine hload.bind fun p => hget.bind fun s => hnow.bind fun now => ?_
  refine Action.Throws.bind (Action.throws_ofExcept fun err herr => ?_) (throws_carryOut e graph q)
  exact .inl (Pipeline.fails_judge p e.maxRetries s now q err herr)

/-- A legal step of any node is refused because the pipeline is not valid, if the lock of the graph
file can be had. -/
theorem transition_of_isRefused {n m : Node} (hbears : GraphFile.Bears s graph p)
    (hm : m ∈ p.nodes) (hrefused : m.isRefused) (hnode : p.node? q.node = some n)
    (hlegal : n.status.canBecome q.target) (e : Engine) (h : Host) :
    (∃ err, ∀ body : Action AuditRecord,
      ((Action.withLock graph e.lockPolicy body).perform h s).1 = .error err) ∨
    ∃ report, ((e.transition graph q).perform h s).1 = .error (.invalid report) := by
  obtain ⟨u, -, htouched, ⟨err, hfail⟩ | ⟨-, -, hperform⟩⟩ :=
    Action.withLockFile_cases (lockPath graph) e.lockPolicy h s
  · exact .inl ⟨err, fun body => by rw [Action.withLock, hfail]⟩
  · obtain ⟨bytes, text, ⟨modified, hfind⟩, hutf, hparse⟩ :=
      hbears.of_keeps (hbears.keeps_of_locked htouched)
    obtain ⟨report, hjudge⟩ :=
      Pipeline.judge_of_isRefused hm hrefused hnode hlegal e.maxRetries u (h.clock 0)
    refine .inr ⟨report, ?_⟩
    rw [transition, Action.withLock, hperform, perform_transitionLocked,
      GraphFile.perform_load_of_find hfind hutf hparse]
    dsimp only
    rw [hjudge]

/-- Of every pipeline: the rule about acceptance texts reports one error for each node, in order, of
which the guard of acceptance texts would refuse a step, and no other. And whatever the files and
the request are, it is never this guard in whose name a transition is refused: in such a pipeline a
legal step of any node is refused because the pipeline is not valid, unless the lock of the graph
file cannot be had. -/
theorem tampering_reported (p : Pipeline) (e : Engine) (graph : String) (q : Request) (h : Host)
    (s : Store) :
    List.Forall₂ (fun n finding => ∃ refusal, Guard.checkAcceptance n = .error refusal ∧
        PinBroken n refusal finding)
      (p.nodes.filter Node.isRefused) (p.errors.filter (·.rule = "acceptance_immutable")) ∧
    (∀ node message, ((e.transition graph q).perform h s).1
      ≠ .error (.guardRail node "acceptance_immutable" message)) ∧
    ∀ n m, GraphFile.Bears s graph p → m ∈ p.nodes → m.isRefused → p.node? q.node = some n →
      n.status.canBecome q.target →
        (∃ err, ∀ body : Action AuditRecord,
          ((Action.withLock graph e.lockPolicy body).perform h s).1 = .error err) ∨
        ∃ report, ((e.transition graph q).perform h s).1 = .error (.invalid report) := by
  refine ⟨?_, fun node message heq => ?_, fun n m hbears hm hrefused hnode hlegal =>
    transition_of_isRefused hbears hm hrefused hnode hlegal e h⟩
  · rw [Pipeline.filter_errors_pins]
    exact Pipeline.reported_refused p.nodes
  · rcases throws_transition e graph q h s _ heq with hrefuses | hexhausted
    · exact hrefuses.ne_guardRail node message rfl
    · cases hexhausted

end Engine

/-- A piece of work with a pin and without the text that it is pinned to, beside another one. -/
def Pipeline.stripped : Pipeline where
  name := "p"
  nodes := [{ id := "a", kind := .work }, { id := "b", kind := .work, acceptanceHash := some "0" }]

namespace Engine

theorem bears_stripped : ∃ p n m, GraphFile.Bears (homeStore .stripped) "p.dot" p ∧
    p.node? "a" = some n ∧ n.status = .pending ∧ m ∈ p.nodes ∧ m.isRefused := by
  have hunadorned : Pipeline.stripped.Unadorned := ⟨by decide, rfl, by decide, by decide, by decide⟩
  obtain ⟨p, hbears, -, hread⟩ := bears_homeStore hunadorned.lifted hunadorned.plain
  have ha := Pipeline.node?_of_unlined hread "a"
  have hb := Pipeline.node?_of_unlined hread "b"
  obtain ⟨n, hn, hsame⟩ := Option.map_eq_some_iff.mp ha
  obtain ⟨m, hm, hsame'⟩ := Option.map_eq_some_iff.mp hb
  exact ⟨p, n, m, hbears, hn, (congrArg Node.status hsame :), List.mem_of_find?_eq_some hm,
    (congrArg Node.isRefused hsame' :)⟩

/-- The other piece of work is not taken up. -/
theorem tampering_reported_stripped : ∃ p m report,
    GraphFile.Bears (homeStore .stripped) "p.dot" p ∧ m ∈ p.nodes ∧ m.isRefused ∧
    ((localEngine.transition "p.dot" ⟨"a", .active, "dev", none⟩).perform quietHost
      (homeStore .stripped)).1 = .error (.invalid report) := by
  obtain ⟨p, n, m, hbears, hnode, hpending, hm, hrefused⟩ := bears_stripped
  have hlegal : n.status.canBecome .active := by
    rw [hpending]
    decide
  rcases (tampering_reported p localEngine "p.dot" ⟨"a", .active, "dev", none⟩ quietHost
    (homeStore .stripped)).2.2 n m hbears hm hrefused hnode hlegal
    with ⟨err, hfail⟩ | ⟨report, hanswer⟩
  · have hfree := hfail (pure ⟨"", "a", .pending, .active, "dev", none⟩)
    cases hfree
  · exact ⟨p, m, report, hbears, hm, hrefused, hanswer⟩

end Engine

end Pipewright
