import Pipewright.Proofs.Lifecycle.Clearance
import Pipewright.Proofs.Lifecycle.Commuting

/-!
# Judgements

Who judges an implementation, what it is validated with, and what is saved of that.
-/

/-!
## Who judges an implementation

A node remembers one actor only: the one who took it up, and after that the one
who reported its implementation complete. The guard of judgements compares with
that one, so over a session whoever judges is never the one who reported the
implementation complete (`judged_by_another`).

The one who took the node up is forgotten when another one reports it complete,
and may then judge it (`judged_by_taker`).
-/

namespace Pipewright

open Pipeline (Node)

/-- The last record of a step of a node to a status. -/
def AuditRecord.latest (id : String) (target : Status) (rs : List AuditRecord) :
    Option AuditRecord :=
  (rs.filter fun r => r.node = id ∧ r.target = target).getLast?

theorem AuditRecord.latest_concat (id : String) (target : Status) (rs : List AuditRecord)
    (r : AuditRecord) : latest id target (rs ++ [r])
      = if r.node = id ∧ r.target = target then some r else latest id target rs := by
  rw [latest, List.filter_append]
  split
  · next h => simp [h]
  · next h => simp [h, latest]

theorem AuditRecord.latest_of_others {id : String} {target : Status} (rs : List AuditRecord)
    {others : List AuditRecord} (h : ∀ r ∈ others, r.node ≠ id) :
    latest id target (rs ++ others) = latest id target rs := by
  have hnone : others.filter (fun r => r.node = id ∧ r.target = target) = [] := by
    rw [List.filter_eq_nil_iff]
    intro r hr
    simp [h r hr]
  rw [latest, List.filter_append, hnone, List.append_nil, latest]

theorem Status.canBecome_implComplete {s : Status} : s.canBecome .implComplete ↔ s = .active := by
  cases s <;> decide

namespace Guard

variable {s : Store} {n : Node} {target : Status} {actor : String} {evidence : Option String}
  {effects : Effects}

/-- Who judges an implementation is not the one that the node remembers. -/
theorem separation_of_check (h : check s n target actor evidence = .ok effects)
    (hstatus : n.status = .implComplete) (htarget : target = .validated ∨ target = .failed) :
    n.implementedBy ≠ some actor := by
  intro hown
  unfold check at h
  obtain ⟨_, -, h⟩ := bind_eq_ok.mp h
  obtain ⟨_, -, h⟩ := bind_eq_ok.mp h
  obtain ⟨_, hseparation, -⟩ := bind_eq_ok.mp h
  rw [checkSeparation, if_pos ⟨hstatus, htarget, hown⟩] at hseparation
  cases hseparation

end Guard

namespace Pipeline.Node.Moves

variable {maxRetries : UInt32} {s : Store} {now : Instant} {q : Request} {r : AuditRecord}
  {a : Except Error AuditRecord} {n m : Node}

/-- A node that becomes complete was being worked on, and remembers who reported that. -/
theorem completed (h : n.Moves maxRetries s now q r a m) (hstatus : m.status = .implComplete) :
    n.status = .active ∧ m.implementedBy = some r.actor := by
  cases h with
  | granted hlegal =>
      have htarget : q.target = .implComplete := hstatus
      rw [htarget, Status.canBecome_implComplete] at hlegal
      exact ⟨hlegal, by simp [advance, htarget]⟩
  | exhausted => cases hstatus

theorem separation (h : n.Moves maxRetries s now q r a m) (hsource : r.source = .implComplete)
    (htarget : r.target = .validated ∨ r.target = .failed) : n.implementedBy ≠ some r.actor := by
  cases h with
  | granted _ _ hcheck => exact Guard.separation_of_check hcheck hsource htarget
  | exhausted => simp at htarget

end Pipeline.Node.Moves

namespace Engine

open AuditRecord (latest)

variable {e : Engine} {graph : String} {s t : Store} {p : Pipeline} {c : Call} {cs : List Call}
  {n m : Node}

/-- A node that is being worked on was taken up by someone. If it is complete somebody reported
that, and the node remembers who. -/
theorem Life.implementer (h : e.Life graph n cs m) (hpending : n.status = .pending) :
    (m.status = .active ∨ m.status = .implComplete →
      ∃ taken, latest n.id .active (e.recorded graph cs) = some taken) ∧
    (m.status = .implComplete →
      ∃ done, latest n.id .implComplete (e.recorded graph cs) = some done ∧
      m.implementedBy = some done.actor) := by
  induction h with
  | born => simp [hpending]
  | idle _ hothers hsame ih =>
      obtain ⟨_, _, rfl⟩ := Node.exists_of_core hsame
      rw [recorded_append, recorded_singleton, AuditRecord.latest_of_others _ hothers,
        AuditRecord.latest_of_others _ hothers]
      exact ih
  | @moved cs c r m k m' hlife hrecords habout hmoves hsame ih =>
      obtain ⟨_, _, rfl⟩ := Node.exists_of_core hsame
      obtain ⟨hnode, -, -, htarget⟩ := hmoves.record
      rw [recorded_append, recorded_singleton, hrecords, AuditRecord.latest_concat,
        AuditRecord.latest_concat, htarget, hnode, habout]
      dsimp only
      refine ⟨fun hworked => ?_, fun hdone => ?_⟩
      · rcases hworked with hactive | hdone
        · exact ⟨r, by simp [hactive]⟩
        · obtain ⟨hactive, -⟩ := hmoves.completed hdone
          obtain ⟨taken, htaken⟩ := ih.1 (.inl hactive)
          exact ⟨taken, by simp [hdone, htaken]⟩
      · exact ⟨r, by simp [hdone], (hmoves.completed hdone).2⟩

/-- Over a session that begins with all nodes pending, an implementation is judged only after it
was reported complete, and by another one than the one who reported that last. -/
theorem judged_by_another (hopening : e.Opening graph s p cs) (hsession : e.Session graph s cs t)
    {pre post : List Call} (hcs : cs = pre ++ c :: post) {r : AuditRecord}
    (hr : r ∈ c.records e graph) (hsource : r.source = .implComplete)
    (htarget : r.target = .validated ∨ r.target = .failed) :
    ∃ taken done, latest r.node .active (e.recorded graph pre) = some taken ∧
      latest r.node .implComplete (e.recorded graph pre) = some done ∧ r.actor ≠ done.actor := by
  subst hcs
  obtain ⟨_, _, n₀, n, m, hn₀, hlife, -, hmoving⟩ :=
    hopening.moving hsession hr (by rw [hsource]; nofun)
  have hid := Pipeline.id_of_node? hn₀
  have hmoves := hmoving.moves
  have hstatus : n.status = .implComplete := hmoves.record.2.2.1.symm.trans hsource
  obtain ⟨htaken, hdone⟩ := hlife.implementer (hopening.pending n₀ (List.mem_of_find?_eq_some hn₀))
  obtain ⟨taken, htaken⟩ := htaken (.inr hstatus)
  obtain ⟨done, hdone, hremembered⟩ := hdone hstatus
  refine ⟨taken, done, hid ▸ htaken, hid ▸ hdone, fun hsame => ?_⟩
  exact hmoves.separation hsource htarget (hsame ▸ hremembered)

/-- A piece of work is taken up by one, reported complete by another, and judged by the first. -/
theorem judged_by_another_twofold : ∃ p cs t pre c post r,
    localEngine.Opening "p.dot" (homeStore .twofold) p cs ∧
    localEngine.Session "p.dot" (homeStore .twofold) cs t ∧ cs = pre ++ c :: post ∧
    r ∈ c.records localEngine "p.dot" ∧ r.source = .implComplete ∧
    (r.target = .validated ∨ r.target = .failed) ∧
    ∃ taken done, latest r.node .active (localEngine.recorded "p.dot" pre) = some taken ∧
      latest r.node .implComplete (localEngine.recorded "p.dot" pre) = some done ∧
      r.actor = taken.actor ∧ r.actor ≠ done.actor := by
  obtain ⟨p, c₁, c₂, c₃, _, _, h⟩ :=
    failing_twofold (e := localEngine) rfl "dev" (by decide : "aide" ≠ "dev")
  have hopening : localEngine.Opening "p.dot" _ p [c₁, c₂, c₃] := h.opening (by simp)
  have hr : _ ∈ c₃.records localEngine "p.dot" := h.failure ▸ List.mem_singleton.mpr rfl
  obtain ⟨taken, done, htaken, hdone, hother⟩ :=
    judged_by_another hopening h.session (rfl : _ = [c₁, c₂] ++ c₃ :: []) hr rfl (.inr rfl)
  have hsame : taken = ⟨c₁.now.stamp, "a", .pending, .active, "dev", none⟩ := by
    rw [h.records] at htaken
    simpa [latest, eq_comm] using htaken
  exact ⟨p, _, _, [c₁, c₂], c₃, [], _, hopening, h.session, rfl, hr, rfl, .inr rfl, taken, done,
    htaken, hdone, by rw [hsame], hother⟩

/-- Whoever takes a node up may judge it after another one has reported it complete. -/
theorem judged_by_taker : ¬∀ (s t : Store) (p : Pipeline) (cs pre post : List Call) (c : Call)
    (r taken : AuditRecord), localEngine.Opening "p.dot" s p cs →
    localEngine.Session "p.dot" s cs t → cs = pre ++ c :: post →
    r ∈ c.records localEngine "p.dot" → r.source = .implComplete →
    r.target = .validated ∨ r.target = .failed →
    latest r.node .active (localEngine.recorded "p.dot" pre) = some taken →
    r.actor ≠ taken.actor := by
  intro hall
  obtain ⟨p, c₁, c₂, c₃, _, _, h⟩ :=
    failing_twofold (e := localEngine) rfl "dev" (by decide : "aide" ≠ "dev")
  have hopening : localEngine.Opening "p.dot" _ p [c₁, c₂, c₃] := h.opening (by simp)
  have hr : _ ∈ c₃.records localEngine "p.dot" := h.failure ▸ List.mem_singleton.mpr rfl
  refine hall _ _ p _ [c₁, c₂] [] c₃ _ ⟨c₁.now.stamp, "a", .pending, .active, "dev", none⟩ hopening
    h.session rfl hr rfl (.inr rfl) ?_ rfl
  rw [h.records]
  simp [latest]

end Engine

end Pipewright

/-!
## What an implementation is validated with

A node is validated with evidence: a file that is there, and that was written at
most two seconds before the implementation was last reported complete. The
digest of the file goes into the record and, with its path, into the node
(`Guard.evidence_of_check`), and the node keeps both whatever evidence is
brought for later steps (`Life.vouched`).

The time that the evidence is held against is one that the node carries. It is
the time of the last report, also after retries (`Life.completion`).
-/

namespace Pipewright

open Pipeline (Node Ruling)

/-! ### The guard of evidence -/

namespace Guard

variable {s : Store} {n : Node} {target : Status} {actor path : String} {evidence : Option String}
  {effects : Effects}

theorem freshEvidence_of_find {bytes : ByteArray} {modified completed : Instant} {stamp : String}
    (hfind : s.find path = .ok (.file bytes modified)) (hstamp : n.implCompletedAt = some stamp)
    (hparse : Rfc3339.parse stamp = .ok completed)
    (hfresh : (modified.plusSeconds 2).before completed = false) :
    freshEvidence s n path = .ok (sha256 bytes) := by
  have hmodified : s.modified? path = some modified := by
    rw [Store.modified?_eq, Store.file?_eq_some.mpr hfind]
    rfl
  rw [freshEvidence, hmodified, completedAt, hstamp]
  dsimp only
  rw [hparse]
  simp only [bind, Except.bind, slack, hfresh, Bool.false_eq_true, if_false]
  rw [fileDigest, Store.readBytes, hfind]
  rfl

end Guard

/-- The status is one that follows from a validation. -/
def Status.Accepted (s : Status) : Prop := s = .validated ∨ s = .mergeReady ∨ s = .merged

theorem Status.Accepted.canBecome {s t : Status} (h : s.Accepted) (hlegal : s.canBecome t) :
    t.Accepted ∧ t ≠ .validated := by
  rcases h with rfl | rfl | rfl <;> revert hlegal <;> cases t <;>
    simp [Accepted, Status.canBecome, targets]

namespace Pipeline.Node.Moves

variable {maxRetries : UInt32} {s : Store} {now : Instant} {q : Request} {r : AuditRecord}
  {a : Except Error AuditRecord} {n m : Node}

/-- An accepted node stays accepted, and it is not validated again. -/
theorem accepted (h : n.Moves maxRetries s now q r a m) (haccepted : n.status.Accepted) :
    m.status.Accepted ∧ r.target ≠ .validated := by
  cases h with
  | granted hlegal => exact haccepted.canBecome hlegal
  | exhausted hfailed => rw [hfailed] at haccepted; rcases haccepted with h | h | h <;> cases h

end Pipeline.Node.Moves

namespace Engine

variable {e : Engine} {graph : String} {s t : Store} {p : Pipeline} {c : Call} {cs : List Call}
  {n m : Node}

/-! ### Sessions -/

/-- In the call of a move the new node is found under its name in what is left. -/
theorem Call.Moving.after {p₁ p₂ : Pipeline} {r : AuditRecord}
    (h : c.Moving e graph p₁ p₂ r n m) :
    ∃ m', p₂.node? c.request.node = some m' ∧ m'.core = m.core := by
  have hnode := h.nodes c.request.node
  rw [if_pos rfl] at hnode
  exact Option.map_eq_some_iff.mp hnode

theorem Call.find_after {path : String} {entry : Store.Entry}
    (hfind : c.before.find path = .ok entry)
    (hfiles : c.before.place path ∉ [e.auditLog, graph].map c.before.place) :
    (c.after e graph).find path = .ok entry :=
  (Action.within_transition e graph c.request c.host c.before).find hfind hfiles

theorem clear_bareStore : relayEngine.Clear "p.dot" quietHost bareStore where
  site := rfl
  free := rfl
  logging := logging_relayEngine
  saving := saving_bareStore

theorem bears_bareStore (h : GraphFile.Bears (homeStore .twofold) "p.dot" p) :
    GraphFile.Bears bareStore "p.dot" p := by
  have hread : bareStore.readText "p.dot" = (homeStore .twofold).readText "p.dot" := rfl
  refine GraphFile.loaded_eq_ok.mp ?_
  rw [GraphFile.loaded, hread]
  exact GraphFile.loaded_eq_ok.mpr h

/-- A piece of work is taken up, reported complete and validated with a file that lies beside the
graph. -/
theorem taken_reported_validated : ∃ (p : Pipeline) (c₁ c₂ c₃ : Call) (r : AuditRecord),
    relayEngine.Opening "p.dot" bareStore p [c₁, c₂, c₃] ∧
    relayEngine.Session "p.dot" bareStore [c₁, c₂, c₃] (c₃.after relayEngine "p.dot") ∧
    r ∈ c₃.records relayEngine "p.dot" ∧ r.source = .implComplete ∧ r.target = .validated ∧
    c₃.answer relayEngine "p.dot" = .ok r ∧ p.requireValid = .ok () ∧
    (∃ n, p.node? "a" = some n ∧ n.kind = .work) ∧
    ∃ p' m, GraphFile.Bears (c₃.after relayEngine "p.dot") "p.dot" p' ∧ p'.node? "a" = some m ∧
      m.status = .validated := by
  obtain ⟨p, hbears, hplain, hvalid, hseq, hpending, hnodes⟩ := bears_twofold
  obtain ⟨n, hnode, -, hwork⟩ := hnodes "a" (by decide)
  have hnum : p.checkpointSeq.toNat = 0 := congrArg UInt64.toNat hseq
  have hplaces : bareStore.place "p.dot" ≠ bareStore.place relayEngine.auditLog := by decide
  have hbears := bears_bareStore hbears
  obtain ⟨c₁, hc₁⟩ : ∃ c : Call, c = ⟨⟨"a", .active, "dev", none⟩, quietHost, bareStore⟩ := ⟨_, rfl⟩
  obtain ⟨c₂, hc₂⟩ : ∃ c : Call, c = ⟨⟨"a", .implComplete, "dev", none⟩, quietHost,
    c₁.after relayEngine "p.dot"⟩ := ⟨_, rfl⟩
  obtain ⟨c₃, hc₃⟩ : ∃ c : Call, c = ⟨⟨"a", .validated, "judge", some "ev.txt"⟩, quietHost,
    c₂.after relayEngine "p.dot"⟩ := ⟨_, rfl⟩
  have hbefore₁ : c₁.before = bareStore := by rw [hc₁]
  have hbefore₂ : c₂.before = c₁.after relayEngine "p.dot" := by rw [hc₂]
  have hbefore₃ : c₃.before = c₂.after relayEngine "p.dot" := by rw [hc₃]
  have hrequest₃ : c₃.request = ⟨"a", .validated, "judge", some "ev.txt"⟩ := by rw [hc₃]
  have hplace₂ : c₂.before.place = bareStore.place := by rw [hbefore₂, c₁.place_after, hbefore₁]
  have hplace₃ : c₃.before.place = bareStore.place := by rw [hbefore₃, c₂.place_after, hplace₂]
  have hclear : relayEngine.Clear "p.dot" c₁.host c₁.before := by
    rw [hc₁]
    exact clear_bareStore
  obtain ⟨p₂, m, -, -, hbears₂, hplain₂, hvalid₂, hle₂, hclear₂, hnode₂, hdone, himplementer,
    hstamp, -⟩ := hclear.reported c₂ (by rw [hbefore₁]; exact hbears) hplain hvalid (by omega)
      (by rw [hbefore₁]; exact hplaces) hnode (hpending n (List.mem_of_find?_eq_some hnode))
      (by rw [hc₁]) (by rw [hc₂]) (by rw [hc₁, hc₂]) hbefore₂
  have hother : bareStore.place "ev.txt" ∉ [relayEngine.auditLog, "p.dot"].map bareStore.place := by
    decide
  have hfound₂ : c₂.before.find "ev.txt" = .ok (.file .empty default) := by
    rw [hbefore₂]
    exact c₁.find_after (by rw [hbefore₁]; rfl) (by rw [hbefore₁]; exact hother)
  have hfound₃ : c₃.before.find "ev.txt" = .ok (.file .empty default) := by
    rw [hbefore₃]
    exact c₂.find_after hfound₂ (by rw [hplace₂]; exact hother)
  have hnow : c₂.now = quietHost.clock 0 := by rw [hc₂]; rfl
  have hparse : Rfc3339.parse (quietHost.clock 0).stamp = .ok default := by decide +kernel
  have hfresh : Guard.freshEvidence c₃.before m "ev.txt" = .ok (sha256 .empty) :=
    Guard.freshEvidence_of_find hfound₃ hstamp (by rw [hnow]; exact hparse) (by decide)
  obtain ⟨effects, hcheck⟩ : ∃ effects,
      Guard.check c₃.before m .validated "judge" (some "ev.txt") = .ok effects := by
    rw [Pipeline.check_of_valid hvalid₂ (List.mem_of_find?_eq_some hnode₂) (by simp)
      (by simp [himplementer]), Guard.checkEvidence, if_pos rfl, hfresh]
    exact ⟨_, rfl⟩
  have hrule : p₂.rule relayEngine.maxRetries c₃.before c₃.request
      = .ok (.granted .implComplete effects) := by
    rw [hrequest₃]
    refine Pipeline.rule_eq_ok.mpr ⟨m, hnode₂, by rw [hdone]; rfl, hvalid₂, ?_⟩
    rw [← hdone]
    exact .granted (by simp [hdone]) hcheck
  have hclear₃ : relayEngine.Clear "p.dot" c₃.host c₃.before := by
    have hhost : c₂.host = c₃.host := by rw [hc₂, hc₃]
    rw [← hhost, hbefore₃]
    exact hclear₂
  obtain ⟨p₃, hdone₃⟩ := hclear₃.call (by rw [hbefore₃]; exact hbears₂) hplain₂ (by omega)
    (by rw [hrequest₃, hplace₃]; rintro _ ⟨⟩; decide) (by rw [hrequest₃]; exact hnode₂) hrule
  have hrecords := hdone₃.records (by rw [hplace₃]; exact hplaces)
  have hstart : relayEngine.Session "p.dot" bareStore [] bareStore := .start
  have hsession := ((hstart.next hbefore₁).next hbefore₂).next hbefore₃
  have hlength := saved_le_length relayEngine "p.dot" [c₁, c₂, c₃]
  rw [List.length_cons, List.length_cons, List.length_singleton] at hlength
  obtain ⟨m₃, hnode₃, hcore⟩ := hdone₃.node
  have hid : c₃.request.node = "a" := congrArg Request.node hrequest₃
  have hstatus : m₃.status = .validated :=
    (congrArg Node.status hcore :).trans (congrArg Request.target hrequest₃)
  exact ⟨p, c₁, c₂, c₃, _, ⟨hbears, hplain, hpending, hplaces, by omega⟩, hsession,
    hrecords ▸ List.mem_singleton.mpr rfl, rfl, congrArg Request.target hrequest₃, hdone₃.answer,
    hvalid, ⟨n, hnode, hwork⟩, p₃, m₃, hdone₃.bears,
    hid ▸ hnode₃, hstatus⟩

/-- What a transition saves is valid. And over a course of transitions that begins with a valid
pipeline all of whose nodes are pending, the pipeline in the graph file stays valid, only work
that may be merged is on its way to that, and accepted work is pinned to its acceptance text. -/
theorem saved_valid :
    (∀ (e : Engine) (graph : String) (q : Request) (h : Host) (s : Store),
      ((∃ record, ((e.transition graph q).perform h s).1 = .ok record) ∨
        ∃ node attempts, ((e.transition graph q).perform h s).1
          = .error (.retriesExhausted node attempts)) →
      ∃ after : Pipeline,
        ((e.transition graph q).perform h s).2.Has graph (some after.bytes) ∧
        after.errors = []) ∧
    ∀ (graph : String) (s t : Store) (p : Pipeline) (n : Nat), GraphFile.Bears s graph p →
      p.Plain → p.errors = [] → (∀ n ∈ p.nodes, n.status = .pending) → Course graph s n t →
      p.checkpointSeq.toNat + n < 2 ^ 63 →
      ∃ p', GraphFile.Bears t graph p' ∧ p'.errors = [] ∧
        (∀ n ∈ p'.nodes, n.status = .mergeReady ∨ n.status = .merged →
          n.kind = .work ∧ n.merge = true) ∧
        ∀ n ∈ p'.nodes, n.kind = .work →
          n.status = .validated ∨ n.status = .mergeReady ∨ n.status = .merged →
            ∃ pin, n.acceptanceHash = some pin ∧ n.digest = some pin := by
  refine ⟨fun e graph q h s hanswer => ?_, fun graph s t p n hbears hplain hvalid hpending hcourse
    hseq => ?_⟩
  · obtain ⟨_, _, v, -, -, hjudge, hsaved⟩ := saved_of_saves (saves_eq_one_iff.mpr hanswer)
    exact ⟨_, hsaved, Pipeline.errors_of_requireValid (Pipeline.requireValid_of_judge hjudge)⟩
  · obtain ⟨p', hbears', -, hsound', -⟩ := hcourse.lasting Pipeline.lasting_sound hbears hplain
      (Pipeline.sound_of_pending hvalid hpending) hseq
    exact ⟨p', hbears', Pipeline.errors_of_requireValid hsound'.valid, hsound'.merging,
      fun m hm hwork hstatus => hsound'.pinned hm hwork hstatus⟩

/-- A piece of the work is taken up, reported complete and validated. Every one of the three calls
saves the graph, the last one as a valid one with the node pinned to its acceptance text. -/
theorem saved_valid_twofold : ∃ p c₁ c₂ c₃ record,
    GraphFile.Bears bareStore "p.dot" p ∧ p.Plain ∧ p.errors = [] ∧
    (∀ n ∈ p.nodes, n.status = .pending) ∧
    relayEngine.Session "p.dot" bareStore [c₁, c₂, c₃] (c₃.after relayEngine "p.dot") ∧
    c₃.answer relayEngine "p.dot" = .ok record ∧ record.target = .validated ∧
    (∃ after : Pipeline, (c₃.after relayEngine "p.dot").Has "p.dot" (some after.bytes) ∧
      after.errors = []) ∧
    Course "p.dot" bareStore (relayEngine.saved "p.dot" [c₁, c₂, c₃])
      (c₃.after relayEngine "p.dot") ∧
    p.checkpointSeq.toNat + relayEngine.saved "p.dot" [c₁, c₂, c₃] < 2 ^ 63 ∧
    ∃ p' m pin, GraphFile.Bears (c₃.after relayEngine "p.dot") "p.dot" p' ∧ p'.errors = [] ∧
      p'.node? "a" = some m ∧ m.kind = .work ∧ m.status = .validated ∧
      m.acceptanceHash = some pin ∧ m.digest = some pin := by
  obtain ⟨p, c₁, c₂, c₃, record, hopening, hsession, -, -, htarget, hanswer, hvalid,
    ⟨n, hnode, hwork⟩, p₃, m, hbears₃, hnode₃, hstatus⟩ := taken_reported_validated
  have herrors := Pipeline.errors_of_requireValid hvalid
  have hcourse := hsession.course hopening.apart
  have hsaved := saved_valid.1 relayEngine "p.dot" c₃.request c₃.host c₃.before
    (.inl ⟨record, hanswer⟩)
  obtain ⟨p', hbears', herrors', -, hpinned⟩ := saved_valid.2 "p.dot" _ _ p _ hopening.bears
    hopening.plain herrors hopening.pending hcourse hopening.seq
  obtain rfl := hbears₃.unique hbears'
  obtain ⟨p'', hbears'', -, -, ⟨-, hlived⟩ | ⟨hfull, -⟩⟩ := hopening.lived hsession
  case inr => exact absurd saving_bareStore hfull
  obtain rfl := hbears₃.unique hbears''
  obtain ⟨m', hm', hlife⟩ := hlived.survives hnode
  obtain rfl := Option.some.inj (hnode₃.symm.trans hm')
  have hwork' : m.kind = .work := hlife.kind.trans hwork
  obtain ⟨pin, hpin, hdigest⟩ :=
    hpinned m (List.mem_of_find?_eq_some hnode₃) hwork' (.inl hstatus)
  exact ⟨p, c₁, c₂, c₃, record, hopening.bears, hopening.plain, herrors, hopening.pending, hsession,
    hanswer, htarget, hsaved, hcourse, hopening.seq, p₃, m, pin, hbears₃, herrors', hnode₃, hwork',
    hstatus, hpin, hdigest⟩

end Engine

end Pipewright
