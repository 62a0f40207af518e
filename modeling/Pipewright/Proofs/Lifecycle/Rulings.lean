import Pipewright.Proofs.Lifecycle.Soundness

/-!
# What a judgement depends on

A judgement on a request can be had without the time and without the pipeline
that comes of it: a `Ruling` says what becomes of the node, and the rest follows
from it (`judge_eq`). A ruling looks at the node of the request, at the validity
of the pipeline and at the file of the evidence. So it is the same before and
after a step of another node, also when the pipeline was saved and read back in
between (`rule_of_step`).

The steps of two nodes can be made in either order (`modify_comm`).
-/

namespace Pipewright

open Pipeline (Node Verdict)

/-! ## Evidence -/

/-- The file of a path, and when it was last written. -/
def Store.file? (s : Store) (path : String) : Option (ByteArray × Instant) :=
  match s.find path with
  | .ok (.file bytes modified) => some (bytes, modified)
  | _ => none

theorem Store.file?_eq_some {s : Store} {path : String} {bytes : ByteArray} {modified : Instant} :
    s.file? path = some (bytes, modified) ↔ s.find path = .ok (.file bytes modified) := by
  unfold Store.file?
  split
  · next heq => rw [heq]; simp
  · next hno => exact ⟨nofun, fun h => absurd h (hno _ _)⟩

theorem Store.modified?_eq (s : Store) (path : String) :
    s.modified? path = (s.file? path).map (·.2) := by
  rw [modified?, file?]
  rcases s.find path with fault | ⟨bytes, modified⟩ | _ <;> rfl

theorem Store.isFile_eq (s : Store) (path : String) : s.isFile path = (s.file? path).isSome := by
  rw [isFile, file?]
  rcases s.find path with fault | ⟨bytes, modified⟩ | _ <;> rfl

namespace Guard

variable {s t : Store} {n : Node} {target : Status} {actor : String} {evidence : Option String}

theorem fileDigest_eq_of_find {path : String} (h : t.find path = s.find path) :
    fileDigest t path = fileDigest s path := by
  rw [fileDigest, fileDigest, Store.readBytes, Store.readBytes, h]

theorem checkEvidence_of_file? {path : String} (h : s.file? path = none) :
    checkEvidence s n target (some path) = .error ((Refusal.missingEvidence path).toError n) := by
  have hnone : s.modified? path = none ∧ s.isFile path = false := by
    rw [Store.modified?_eq, Store.isFile_eq, h]
    exact ⟨rfl, rfl⟩
  rw [checkEvidence]
  split
  · rw [freshEvidence, hnone.1]
    rfl
  · rw [hnone.2]
    rfl

theorem checkEvidence_of_find {path : String} {bytes : ByteArray} {modified : Instant}
    (hfind : s.find path = .ok (.file bytes modified)) (htarget : target ≠ .validated) :
    checkEvidence s n target (some path) = .ok { evidenceHash := some (sha256 bytes) } := by
  have hdigest : fileDigest s path = .ok (sha256 bytes) := by
    rw [fileDigest, Store.readBytes, hfind]
    rfl
  rw [checkEvidence]
  simp only [if_neg htarget, Store.isFile, hfind, if_true, hdigest]
  rfl

theorem checkEvidence_eq_of_file? (h : ∀ path ∈ evidence, t.file? path = s.file? path) :
    checkEvidence t n target evidence = checkEvidence s n target evidence := by
  cases evidence with
  | none => rfl
  | some path =>
      have hpath := h path rfl
      rcases hfile : s.file? path with _ | ⟨bytes, modified⟩
      · rw [checkEvidence_of_file? hfile, checkEvidence_of_file? (hpath.trans hfile)]
      · have hfind : t.find path = s.find path := by
          rw [Store.file?_eq_some.mp hfile, Store.file?_eq_some.mp (hpath.trans hfile)]
        simp only [checkEvidence, freshEvidence, Store.modified?_eq, Store.isFile_eq, hpath,
          fileDigest_eq_of_find hfind]

theorem check_eq_of_file? (h : ∀ path ∈ evidence, t.file? path = s.file? path) :
    check t n target actor evidence = check s n target actor evidence := by
  rw [check, check, checkEvidence_eq_of_file? h]

end Guard

namespace Pipeline

variable {p p' : Pipeline} {maxRetries : UInt32} {s t : Store} {q q' : Request} {now : Instant}

/-! ## Rulings -/

/-- What becomes of the node of a request: it steps from a status, or it becomes stuck. -/
inductive Ruling where
  | granted (source : Status) (effects : Guard.Effects)
  | exhausted (attempts : UInt32)

def rule (p : Pipeline) (maxRetries : UInt32) (s : Store) (q : Request) : Except Error Ruling :=
  match p.node? q.node with
  | none => .error (.nodeNotFound q.node)
  | some n =>
    if n.status.canBecome q.target then
      p.requireValid >>= fun _ =>
        if n.status = .failed ∧ maxRetries ≤ n.retryCount then .ok (.exhausted n.retryCount)
        else (Guard.check s n q.target q.actor q.evidence).map (.granted n.status)
    else .error (.illegalTransition q.node n.status.name q.target.name)

namespace Ruling

def step (q : Request) (now : Instant) : Ruling → Node → Node
  | granted _ effects, n => n.advance q effects now
  | exhausted _, n => { n with status := .stuck }

def record (q : Request) (now : Instant) : Ruling → AuditRecord
  | granted source effects => ⟨now.stamp, q.node, source, q.target, q.actor, effects.evidenceHash⟩
  | exhausted _ => ⟨now.stamp, q.node, .failed, .stuck, q.actor, none⟩

def answer (q : Request) (now : Instant) : Ruling → Except Error AuditRecord
  | granted source effects => .ok ((granted source effects).record q now)
  | exhausted attempts => .error (.retriesExhausted q.node attempts.toNat)

def verdict (p : Pipeline) (q : Request) (now : Instant) (r : Ruling) : Verdict :=
  match r with
  | granted .. => .granted (p.modify q.node (r.step q now)) (r.record q now)
  | exhausted attempts => .exhausted (p.modify q.node (r.step q now)) (r.record q now) attempts

variable (p : Pipeline) (q : Request) (now : Instant) (r : Ruling)

@[simp] theorem after_verdict : (r.verdict p q now).after = p.modify q.node (r.step q now) := by
  cases r <;> rfl

@[simp] theorem record_verdict : (r.verdict p q now).record = r.record q now := by
  cases r <;> rfl

@[simp] theorem answer_verdict : (r.verdict p q now).answer q = r.answer q now := by
  cases r <;> rfl

end Ruling

theorem judge_eq (p : Pipeline) (maxRetries : UInt32) (s : Store) (now : Instant) (q : Request) :
    p.judge maxRetries s now q = (p.rule maxRetries s q).map (·.verdict p q now) := by
  rw [judge, rule]
  cases p.node? q.node with
  | none => rfl
  | some n =>
      dsimp only
      cases n.status.canBecome q.target with
      | false => rfl
      | true =>
          simp only [Bool.not_true, Bool.false_eq_true, if_false, if_true]
          cases p.requireValid with
          | error err => rfl
          | ok _ =>
              simp only [bind, Except.bind, pure, Except.pure]
              split
              · next hexhausted =>
                rw [hexhausted.1]
                rfl
              · cases Guard.check s n q.target q.actor q.evidence <;> rfl

/-- Only the evidence can be in the way when a pending node of a valid pipeline is to be taken
up. -/
theorem rule_takeUp {id : String} {n : Node} (hvalid : p.requireValid = .ok ())
    (hnode : p.node? id = some n) (hpending : n.status = .pending) (hpin : n.acceptanceHash = none)
    (maxRetries : UInt32) (s : Store) (actor : String) (evidence : Option String) :
    p.rule maxRetries s ⟨id, .active, actor, evidence⟩
      = (Guard.checkEvidence s n .active evidence).map (.granted .pending) := by
  simp only [rule, hnode, hvalid, hpending, check_takeUp hpending hpin]
  rfl

theorem rule_eq_of_file? (h : ∀ path ∈ q.evidence, t.file? path = s.file? path) :
    p.rule maxRetries t q = p.rule maxRetries s q := by
  simp only [rule, Guard.check_eq_of_file? h]

/-- A ruling looks at one node only, apart from validity, and neither at its shape nor at its
line. -/
theorem rule_eq_of_node? {n m : Node} (hn : p.node? q.node = some n) (hm : p'.node? q.node = some m)
    (hsame : m.unlined = n.shaped.unlined) (hvalid : p'.requireValid = p.requireValid) :
    p'.rule maxRetries s q = p.rule maxRetries s q := by
  have hstatus : m.status = n.status := (congrArg Node.status hsame :)
  have hretries : m.retryCount = n.retryCount := (congrArg Node.retryCount hsame :)
  have hcheck : Guard.check s m q.target q.actor q.evidence
      = Guard.check s n q.target q.actor q.evidence :=
    (congrArg (Guard.check s · q.target q.actor q.evidence) hsame :)
  rw [rule, rule, hn, hm]
  simp only [hstatus, hretries, hcheck, hvalid]

/-! ## Steps of different nodes -/

theorem id_step (r : Ruling) (q : Request) (now : Instant) (n : Node) : (r.step q now n).id
    = n.id := by
  cases r <;> rfl

theorem node?_modify_ne {f : Node → Node} (hf : ∀ n, (f n).id = n.id) {id other : String}
    (hne : other ≠ id) (p : Pipeline) : (p.modify id f).node? other = p.node? other := by
  have hnodes : ∀ nodes : List Node,
      (modifyFirst id f nodes).find? (·.id = other) = nodes.find? (·.id = other) := by
    intro nodes
    induction nodes with
    | nil => rfl
    | cons n rest ih =>
        rw [modifyFirst]
        split
        · next hid =>
          have hn : n.id ≠ other := fun heq => hne (heq.symm.trans hid)
          have hfn : (f n).id ≠ other := by rwa [hf n]
          rw [List.find?_cons_of_neg (by simpa using hfn),
            List.find?_cons_of_neg (by simpa using hn)]
        · rw [List.find?_cons, List.find?_cons, ih]
  exact hnodes p.nodes

theorem modify_comm {f g : Node → Node} (hf : ∀ n, (f n).id = n.id) (hg : ∀ n, (g n).id = n.id)
    {id other : String} (hne : id ≠ other) (p : Pipeline) :
    (p.modify id f).modify other g = (p.modify other g).modify id f := by
  have hnodes : ∀ nodes : List Node,
      modifyFirst other g (modifyFirst id f nodes)
        = modifyFirst id f (modifyFirst other g nodes) := by
    intro nodes
    induction nodes with
    | nil => rfl
    | cons n rest ih =>
        by_cases hid : n.id = id
        · have hother : n.id ≠ other := fun heq => hne (hid.symm.trans heq)
          simp only [modifyFirst, hf, if_pos hid, if_neg hother]
        · by_cases hother : n.id = other
          · simp only [modifyFirst, hg, if_neg hid, if_pos hother]
          · simp only [modifyFirst, if_neg hid, if_neg hother, ih]
  simp only [modify, hnodes]

theorem modify_modify {f g : Node → Node} (hf : ∀ n, (f n).id = n.id) (id : String) (p : Pipeline) :
    (p.modify id f).modify id g = p.modify id fun n => g (f n) := by
  have hnodes : ∀ nodes : List Node,
      modifyFirst id g (modifyFirst id f nodes) = modifyFirst id (fun n => g (f n)) nodes := by
    intro nodes
    induction nodes with
    | nil => rfl
    | cons n rest ih =>
        by_cases hid : n.id = id
        · simp only [modifyFirst, hf, if_pos hid]
        · simp only [modifyFirst, if_neg hid, ih]
  simp only [modify, hnodes]

/-- A ruling is the same after a step of another node, in the pipeline that is read back. -/
theorem rule_of_step {u : Store} {r : Ruling} (hrule : p.rule maxRetries s q = .ok r)
    (hread : p'.unlined = (GraphFile.bumped (p.modify q.node (r.step q now))).shaped.unlined)
    (hne : q'.node ≠ q.node) : p'.rule maxRetries u q' = p.rule maxRetries u q' := by
  have hjudge : p.judge maxRetries s now q = .ok (r.verdict p q now) := by
    rw [judge_eq, hrule]
    rfl
  obtain ⟨-, -, -, hvalid, -⟩ := judge_eq_ok hjudge
  have hafter := requireValid_of_judge hjudge
  rw [Ruling.after_verdict] at hafter
  have hvalid' := requireValid_of_unlined hafter hread
  have hnode := node?_of_unlined hread q'.node
  have hkept : (GraphFile.bumped (p.modify q.node (r.step q now))).node? q'.node
      = p.node? q'.node :=
    node?_modify_ne (id_step r q now) hne p
  rw [hkept] at hnode
  cases hn : p.node? q'.node with
  | none =>
      rw [hn, Option.map_none, Option.map_eq_none_iff] at hnode
      rw [rule, rule, hn, hnode]
  | some n =>
      rw [hn] at hnode
      obtain ⟨m, hm, hsame⟩ := Option.map_eq_some_iff.mp hnode
      exact rule_eq_of_node? hn hm hsame (hvalid'.trans hvalid.symm)

/-! ## Pipelines that are read back -/

/-- The pipeline as it is read back from its file, its lines forgotten. -/
def stored (p : Pipeline) : Pipeline := p.shaped.unlined

theorem shaped_shaped (n : Node) : n.shaped.shaped = n.shaped := by
  have htwice : ∀ (key : String) (value : AttrValue) (attrs : Attrs),
      putDefault key value (putDefault key value attrs) = putDefault key value attrs := by
    intro key value attrs
    refine Keyed.ext_get? fun k => ?_
    simp only [get?_putDefault]
    split <;> rfl
  simp only [Node.shaped, htwice]

theorem stored_of_unlined (h : p'.unlined = p.stored) : p'.stored = p.stored := by
  have hshaped : ∀ p : Pipeline, p.stored = p.unlined.shaped := by
    intro p
    simp only [stored, shaped, unlined, List.map_map]
    rfl
  have htwice : p.stored.shaped = p.stored := by
    simp only [stored, shaped, unlined, List.map_map]
    congr 1
    refine List.map_congr_left fun n _ => ?_
    exact congrArg Node.unlined (shaped_shaped n)
  rw [hshaped, h, htwice]

theorem map_modifyFirst {f g : Node → Node} (hid : ∀ n, (g n).id = n.id)
    (hcomm : ∀ n, g (f n) = f (g n)) (id : String) (nodes : List Node) :
    (modifyFirst id f nodes).map g = modifyFirst id f (nodes.map g) := by
  induction nodes with
  | nil => rfl
  | cons n rest ih =>
      rw [List.map_cons, modifyFirst, modifyFirst, hid]
      split
      · rw [List.map_cons, hcomm]
      · rw [List.map_cons, ih]

theorem stored_modify {f : Node → Node} (hf : ∀ n, (f n).shaped.unlined = f n.shaped.unlined)
    (p : Pipeline) (id : String) : (p.modify id f).stored = p.stored.modify id f := by
  have hnodes := map_modifyFirst (g := fun n => n.shaped.unlined) (fun _ => rfl) hf id p.nodes
  simp only [stored, shaped, unlined, modify, List.map_map]
  exact congrArg (fun nodes => { p with nodes, edges := p.edges.map Edge.unlined }) hnodes

theorem stored_step (r : Ruling) (q : Request) (now : Instant) (n : Node) :
    (r.step q now n).shaped.unlined = r.step q now n.shaped.unlined := by
  cases r <;> rfl

/-! ## Two requests about two nodes -/

/-- The pipeline that is saved after a request, if it came to that. -/
def settle (q : Request) (now : Instant) : Option Ruling → Pipeline → Pipeline
  | none, p => p
  | some r, p => GraphFile.bumped (p.modify q.node (r.step q now))

/-- What the graph file bears after a request: the one that it bore before, or the pipeline that
was saved, read back. -/
inductive Becomes (q : Request) (now : Instant) : Option Ruling → Pipeline → Pipeline → Prop
  | kept (p : Pipeline) : Becomes q now none p p
  | saved (r : Ruling) {p p' : Pipeline} (reread : p'.unlined = (p.settle q now (some r)).stored) :
      Becomes q now (some r) p p'

/-- The node without the time at which its implementation was completed, if the request is
about that. -/
def Node.undated (q : Request) (n : Node) : Node :=
  if q.target = .implComplete then { n with implCompletedAt := none } else n

/-- The pipeline without the time that the request recorded in it. -/
def undated (q : Request) (p : Pipeline) : Pipeline := p.modify q.node (Node.undated q)

theorem id_undated (q : Request) (n : Node) : (n.undated q).id = n.id := by
  rw [Node.undated]
  split <;> rfl

theorem undated_step (q : Request) (now later : Instant) (r : Ruling) (n : Node) :
    (r.step q now n).undated q = (r.step q later n).undated q := by
  cases r with
  | exhausted attempts => rfl
  | granted source effects =>
      simp only [Ruling.step, Node.undated, Node.advance]
      split <;> rfl

theorem undated_settle (q : Request) (now later : Instant) (o : Option Ruling) (p : Pipeline) :
    (p.settle q now o).undated q = (p.settle q later o).undated q := by
  cases o with
  | none => rfl
  | some r =>
      have hstep : (p.modify q.node (r.step q now)).undated q
          = (p.modify q.node (r.step q later)).undated q := by
        rw [undated, undated, modify_modify (id_step r q now), modify_modify (id_step r q later)]
        exact congrArg (p.modify q.node) (funext fun n => undated_step q now later r n)
      exact congrArg GraphFile.bumped hstep

theorem settle_undated (h : q.node ≠ q'.node) (o : Option Ruling) (p : Pipeline) :
    (p.settle q' now o).undated q = (p.undated q).settle q' now o := by
  cases o with
  | none => rfl
  | some r =>
      have hmodify := modify_comm (id_step r q' now) (id_undated q) h.symm p
      exact congrArg GraphFile.bumped hmodify

theorem settle_comm (h : q.node ≠ q'.node) {later : Instant} (o o' : Option Ruling) (p : Pipeline) :
    (p.settle q now o).settle q' later o' = (p.settle q' later o').settle q now o := by
  cases o with
  | none => rfl
  | some r =>
      cases o' with
      | none => rfl
      | some r' =>
          have hmodify := modify_comm (id_step r q now) (id_step r' q' later) h p
          exact congrArg (fun p => GraphFile.bumped (GraphFile.bumped p)) hmodify

/-- The order of two requests and their times are not seen but for the times. -/
theorem settle_settle (h : q.node ≠ q'.node) (now now' later later' : Instant)
    (o o' : Option Ruling) (p : Pipeline) :
    (((p.settle q now o).settle q' now' o').undated q).undated q'
      = (((p.settle q' later' o').settle q later o).undated q).undated q' := by
  have hne := h.symm
  calc
    _ = (((p.settle q now o).undated q).settle q' now' o').undated q' := by rw [settle_undated h]
    _ = (((p.settle q later o).undated q).settle q' now' o').undated q' := by
      rw [undated_settle q now later]
    _ = (((p.settle q later o).undated q).settle q' later' o').undated q' := by
      rw [undated_settle q' now' later']
    _ = (((p.settle q later o).settle q' later' o').undated q).undated q' := by
      rw [settle_undated h]
    _ = _ := by rw [settle_comm h]

theorem unlined_undated (q : Request) (p : Pipeline) :
    (p.undated q).unlined = p.unlined.undated q := by
  have hnode : ∀ n : Node, (n.undated q).unlined = n.unlined.undated q := by
    intro n
    simp only [Node.undated]
    split <;> rfl
  have hnodes := map_modifyFirst (g := Node.unlined) (fun _ => rfl) hnode q.node p.nodes
  exact congrArg (fun nodes => { p with nodes, edges := p.edges.map Edge.unlined }) hnodes

theorem stored_settle (q : Request) (now : Instant) (o : Option Ruling) (p : Pipeline) :
    (p.settle q now o).stored = p.stored.settle q now o := by
  cases o with
  | none => rfl
  | some r =>
      have hmodify := stored_modify (stored_step r q now) p q.node
      exact congrArg GraphFile.bumped hmodify

theorem Becomes.stored {o : Option Ruling} (h : Becomes q now o p p') :
    p'.stored = p.stored.settle q now o := by
  cases h with
  | kept => rfl
  | saved r reread => rw [← stored_settle, stored_of_unlined reread]

/-- A pipeline that was read back once is left as it is by being read back again. -/
theorem Becomes.settled {o : Option Ruling} (h : Becomes q now o p p')
    (hsettled : o = none → p.unlined = p.stored) : p'.unlined = p'.stored := by
  cases h with
  | kept => exact hsettled rfl
  | saved r reread => rw [reread, ← stored_of_unlined reread]

/-- Two requests about two nodes leave the same pipeline in either order, apart from the times
that they record. -/
theorem becomes_comm (h : q.node ≠ q'.node) {now' later later' : Instant} {o o' : Option Ruling}
    {x y x' y' : Pipeline} (hx : Becomes q now o p x) (hy : Becomes q' now' o' x y)
    (hx' : Becomes q' later' o' p x') (hy' : Becomes q later o x' y') :
    ((y.undated q).undated q').unlined = ((y'.undated q).undated q').unlined := by
  have hstored : y.stored = (p.stored.settle q now o).settle q' now' o' := by
    rw [hy.stored, hx.stored]
  have hstored' : y'.stored = (p.stored.settle q' later' o').settle q later o := by
    rw [hy'.stored, hx'.stored]
  rw [unlined_undated, unlined_undated, unlined_undated, unlined_undated]
  by_cases hnone : o = none ∧ o' = none
  · obtain ⟨rfl, rfl⟩ := hnone
    cases hx
    cases hy
    cases hx'
    cases hy'
    rfl
  · have hy₁ : y.unlined = y.stored :=
      hy.settled fun ho' => hx.settled fun ho => (hnone ⟨ho, ho'⟩).elim
    have hy₂ : y'.unlined = y'.stored :=
      hy'.settled fun ho => hx'.settled fun ho' => (hnone ⟨ho, ho'⟩).elim
    rw [hy₁, hy₂, hstored, hstored', settle_settle h now now' later later']

end Pipeline

end Pipewright
