import Pipewright.Proofs.Merge.Crowd

/-!
# Two processes at one queue

Two processes take turns at an unhindered queue, and no two integrate at a time.
-/

/-!
## Two processes at an unhindered queue

What two processes can do to a queue that nothing hinders (`Reaches`): each of
them is at a stage, and either can go on. So one of them puts a branch in the
queue, integrates it and records the merge, while the other one waits or goes on
as well.
-/

namespace Pipewright

open Merge Pipewright.Action

namespace MergeQueue

variable {q : MergeQueue} {kept : List String} {s t u : Store} {c : Crowd} {past : List Crowd}
  {i j : UInt32} {a b st : Stage} {es es' : List Entry} {e : Entry} {p p' : Pipeline}
  {node : String} {status status' : Status} {archived : List Archived} {h : Host}
  {Q : Crowd → Prop}

/-! ### Pairs -/

/-- The host of a process that holds no lock and takes everybody to be alive. -/
def seeing (i : UInt32) : Host := { someHost with pid := i, alive := fun _ => true }

structure AreNumbers (i j : UInt32) : Prop where
  distinct : i ≠ j
  first : i ≠ 0 ∧ i < 2147483648
  second : j ≠ 0 ∧ j < 2147483648

/-- The crowd is two processes at the stages. -/
structure IsPair (c : Crowd) (i : UInt32) (a : Stage) (j : UInt32) (b : Stage) : Prop where
  distinct : i ≠ j
  first : c.stage i = some a
  second : c.stage j = some b
  numbers : ∀ p, (c.stage p).isSome → p ≠ 0 ∧ p < 2147483648
  only : ∀ p, (c.stage p).isSome → p = i ∨ p = j

theorem IsPair.swap (h : IsPair c i a j b) : IsPair c j b i a :=
  ⟨h.distinct.symm, h.second, h.first, h.numbers, fun p hp => (h.only p hp).symm⟩

theorem IsPair.knows (h : IsPair c i a j b) (p : UInt32) : c.Knows p (seeing p) where
  pid := rfl
  alive := by
    intro p' hp'
    obtain ⟨hzero, hsmall⟩ := h.numbers p' hp'
    simp [Host.isAlive, seeing, hzero, hsmall]

theorem IsPair.put (h : IsPair c i a j b) (st : Stage) (t : Store) :
    IsPair { c.put i (some st) with store := t } i st j b where
  distinct := h.distinct
  first := by simp [Crowd.put]
  second := by simp [Crowd.put, h.distinct.symm, h.second]
  numbers := by
    intro p hp
    by_cases hi : p = i
    · subst hi
      exact h.numbers p (by rw [h.first]; rfl)
    · exact h.numbers p (by simpa [Crowd.put, hi] using hp)
  only := by
    intro p hp
    by_cases hi : p = i
    · exact .inl hi
    · exact h.only p (by simpa [Crowd.put, hi] using hp)

/-- Where only the first process can be recording an entry, no two are. -/
theorem IsPair.calm (h : IsPair c i a j b) (hb : b.recorded? = none) : c.Calm := by
  have hfirst : ∀ p e, c.recorded? p = some e → p = i := by
    intro p e he
    have hsome : (c.stage p).isSome := by
      unfold Crowd.recorded? at he
      cases hstage : c.stage p with
      | none => rw [hstage] at he; cases he
      | some st => rfl
    rcases h.only p hsome with hi | rfl
    · exact hi
    · rw [Crowd.recorded?_of_stage h.second, hb] at he
      cases he
  intro p p' e f he hf _
  rw [hfirst p e he, hfirst p' f hf]

/-! ### What a pair reaches -/

/-- The processes can get to the stages, by way of crowds that satisfy `Q`. The store is then
unhindered and has the entries in the queue and the others in the archive. -/
def Reaches (q : MergeQueue) (kept : List String) (s : Store) (Q : Crowd → Prop) (i : UInt32)
    (a : Stage) (j : UInt32) (b : Stage) (es : List Entry) (p : Pipeline) (node : String)
    (status : Status) (archived : List Archived) : Prop :=
  ∃ past c, q.Course kept s past c ∧ (∀ d ∈ past, Q d) ∧ IsPair c i a j b ∧
    q.Primed c.store es p node status ∧
    q.Archives c.store archived

theorem Reaches.swap (h : q.Reaches kept s Q i a j b es p node status archived) :
    q.Reaches kept s Q j b i a es p node status archived := by
  obtain ⟨past, c, hcourse, hpast, hpair, hprimed, harchive⟩ := h
  exact ⟨past, c, hcourse, hpast, hpair.swap, hprimed, harchive⟩

theorem course_pair (q : MergeQueue) (kept : List String) (s : Store) (hij : AreNumbers i j)
    (hQ : ∀ c : Crowd, c.Calm → Q c) :
    ∃ past c, q.Course kept s past c ∧ (∀ d ∈ past, Q d) ∧ IsPair c i .idle j .idle ∧
      c.store = s ∧ c.issued = [] := by
  have hfirst : q.Course kept s [.start s] ((Crowd.start s).put i (some .idle)) :=
    Course.start.step (.arrive rfl)
  have habsent : ((Crowd.start s).put i (some .idle)).stage j = none := by
    simp [Crowd.put, Crowd.start, hij.distinct.symm]
  refine ⟨_, _, hfirst.step (.arrive habsent), ?_, ⟨hij.distinct, ?_, ?_, ?_, ?_⟩, rfl, rfl⟩
  · have hput : ∀ p, ((Crowd.start s).put i (some .idle)).recorded? p = none := by
      intro p
      by_cases hpi : p = i <;> simp [Crowd.recorded?, Crowd.put, Crowd.start, hpi, Stage.recorded?]
    exact List.forall_mem_append.mpr
      ⟨List.forall_mem_singleton.mpr (hQ _ (Crowd.calm_of_idle (Crowd.recorded?_start s))),
        List.forall_mem_singleton.mpr (hQ _ (Crowd.calm_of_idle hput))⟩
  · simp [Crowd.put, hij.distinct]
  · simp [Crowd.put]
  · intro p hp
    by_cases hpj : p = j
    · exact hpj ▸ hij.second
    · by_cases hpi : p = i
      · exact hpi ▸ hij.first
      · simp [Crowd.put, Crowd.start, hpi, hpj] at hp
  · intro p hp
    by_cases hpj : p = j
    · exact .inr hpj
    · by_cases hpi : p = i
      · exact .inl hpi
      · simp [Crowd.put, Crowd.start, hpi, hpj] at hp

/-- What makes a queue merge every branch: everybody can ask for that, and the integrator leaves
the files of the queue alone and meets no obstacle. -/
structure Smooth (q : MergeQueue) : Prop where
  opened : q.registry = none
  keeps : ∀ path ∈ q.files, q.integrator.Keeps path
  forwards : ∀ branch h s, q.integrator.Forwards branch q.integrationBranch h s

/-- Two processes come, and the first of them puts a branch in the queue. -/
theorem Primed.reaches (hp : q.Primed s [] p node .validated) (hq : q.Smooth)
    (hseq : p.checkpointSeq.toNat + 2 < 2 ^ 63) (harchive : q.Archives s archived)
    (kept : List String) (hij : AreNumbers i j) (hQ : ∀ c : Crowd, c.Calm → Q c)
    (identity branch : String) :
    ∃ p', q.Reaches kept s Q i .idle j .idle [newEntry (seeing i) identity branch node] p' node
      .mergeReady archived ∧ p'.checkpointSeq.toNat + 1 < 2 ^ 63 := by
  obtain ⟨past, c, hcourse, hpast, hpair, rfl, hissued⟩ := q.course_pair kept s hij hQ
  obtain ⟨t, p', henqueue, hp', hseq'⟩ := hp.enqueue (h := seeing i) (.inl rfl) hq.opened rfl
    identity branch nofun (by omega)
  obtain ⟨es', hleaves, -⟩ :=
    hp.shows.called_enqueue hp.unhindered.apart identity branch node (seeing i)
  have hcall : q.Act i c { c with
      store := (q.reply (seeing i) c.store (.enqueue identity branch node)).2
      issued := (seeing i).fresh.text :: c.issued } :=
    .call hpair.first (hpair.knows i) nofun (by rw [hissued]; nofun)
  have hreply : (q.reply (seeing i) c.store (.enqueue identity branch node)).2 = t :=
    congrArg Prod.snd henqueue
  rw [hreply] at hleaves hcall
  refine ⟨p', ⟨_, _, hcourse.step (.act hcall), ?_, ⟨hij.distinct, hpair.first, hpair.second,
    hpair.numbers, hpair.only⟩, hp', ?_⟩, by omega⟩
  · exact List.forall_mem_append.mpr ⟨hpast, List.forall_mem_singleton.mpr (hQ c (hpair.calm rfl))⟩
  · have hfiles := hleaves.files (hq.keeps q.archive (by simp [files]))
    exact List.append_nil archived ▸ hfiles.archives harchive

/-- The first process goes on and has an entry in hand. -/
theorem Course.reaches (hcourse : q.Course kept s past c) (hpast : ∀ d ∈ past, Q d) (hc : Q c)
    (hpair : IsPair c i a j b) (hprimed : q.Primed c.store es p node status)
    (harchive : q.Archives c.store archived)
    (hq : q.Smooth) (hperform : (q.advance a).perform (seeing i) c.store = (.ok st, u))
    (hprimed' : q.Primed u es' p' node status') (hopen : st.owned?.isSome ∨ st.recorded?.isSome) :
    q.Reaches kept s Q i st j b es' p' node status' archived := by
  have hnext := next_of_perform hperform
  refine ⟨_, _, hcourse.step (.act (.work hpair.first (hpair.knows i) hnext)), ?_, hpair.put st u,
    hprimed', ?_⟩
  · exact List.forall_mem_append.mpr ⟨hpast, List.forall_mem_singleton.mpr hc⟩
  · obtain ⟨_, gone, hleaves, hworked⟩ :=
      hprimed.shows.worked hprimed.unhindered.apart (hq.keeps q.queueFile (by simp [files])) hnext
    have hnothing : gone = [] := by
      cases hworked with
      | removed => rcases hopen with hopen | hopen <;> cases hopen
      | _ => rfl
    have harchive' := (hleaves.files (hq.keeps q.archive (by simp [files]))).archives harchive
    rwa [hnothing, List.append_nil] at harchive'

section

variable (hq : q.Smooth)
include hq

theorem Reaches.claim {head : Entry} {rest : List Entry}
    (h : q.Reaches kept s Q i .idle j b (head :: rest) p node status archived)
    (hQ : ∀ c, IsPair c i .idle j b → Q c) (hqueued : head.status = .queued) :
    q.Reaches kept s Q i (.integrating (head.asClaimed (seeing i))) j b
      (head.asClaimed (seeing i) :: rest) p node status archived := by
  obtain ⟨past, c, hcourse, hpast, hpair, hprimed, harchive⟩ := h
  have hown : head.claim (seeing i) = .own (head.asClaimed (seeing i)) := by
    rw [Entry.claim, hqueued]
    rfl
  obtain ⟨u, hclaim, hprimed'⟩ := hprimed.claim rfl hown
  exact hcourse.reaches hpast (hQ c hpair) hpair hprimed harchive hq
    (by rw [advance, perform_bind, hclaim]; rfl) hprimed' (.inl rfl)

theorem Reaches.integrate (h : q.Reaches kept s Q i (.integrating e) j b es p node status archived)
    (hQ : ∀ c, IsPair c i (.integrating e) j b → Q c) :
    ∃ k : Integration, k.obstacle = none ∧
      q.Reaches kept s Q i (.finishing e k) j b es p node status archived := by
  obtain ⟨past, c, hcourse, hpast, hpair, hprimed, harchive⟩ := h
  obtain ⟨k, u, hintegrate, hclear⟩ :=
    q.integrator.perform_integrate e.branch q.integrationBranch (seeing i) c.store
  have hprimed' := hprimed.of_keeps fun path hpath => by
    have hkept := (hq.keeps path hpath).integrate e.branch q.integrationBranch (seeing i) c.store
    rwa [hintegrate] at hkept
  refine ⟨k, hclear.mpr (hq.forwards ..), ?_⟩
  exact hcourse.reaches hpast (hQ c hpair) hpair hprimed harchive hq
    (by rw [advance, perform_bind, hintegrate]; rfl) hprimed' (.inl rfl)

theorem Reaches.mark {rest : List Entry} {k : Integration}
    (h : q.Reaches kept s Q i (.finishing e k) j b (e :: rest) p node status archived)
    (hQ : ∀ c, IsPair c i (.finishing e k) j b → Q c) (hclear : k.obstacle = none) :
    q.Reaches kept s Q i (.recording e.asMerged) j b (e.asMerged :: rest) p node status
      archived := by
  obtain ⟨past, c, hcourse, hpast, hpair, hprimed, harchive⟩ := h
  have hmarked : e.marked k = e.asMerged := by
    rw [Entry.marked, hclear]
  obtain ⟨u, hupdate, hprimed'⟩ := hprimed.update (h := seeing i) (f := e.asMerged) rfl rfl
  exact hcourse.reaches hpast (hQ c hpair) hpair hprimed harchive hq
    (by rw [advance, perform_bind, hmarked, hupdate, Stage.afterMark, hclear]; rfl) hprimed'
    (.inr rfl)

theorem Reaches.see {head : Entry} {rest : List Entry}
    (h : q.Reaches kept s Q i .idle j b (head :: rest) p node status archived)
    (hQ : ∀ c, IsPair c i .idle j b → Q c) (hmerged : head.status = .merged) :
    q.Reaches kept s Q i (.recording head) j b (head :: rest) p node status archived := by
  obtain ⟨past, c, hcourse, hpast, hpair, hprimed, harchive⟩ := h
  have hseen : head.claim (seeing i) = .integrated head := by
    rw [Entry.claim, hmerged]
  have hclaim := hprimed.shows.perform_claim_of_ready (hprimed.unhindered.ready rfl)
    (h := seeing i) (by simp [hseen])
  exact hcourse.reaches hpast (hQ c hpair) hpair hprimed harchive hq
    (by rw [advance, perform_bind, hclaim, hseen]; rfl) hprimed (.inr rfl)

theorem Reaches.look (h : q.Reaches kept s Q i (.recording e) j b es p e.node status archived)
    (hQ : ∀ c, IsPair c i (.recording e) j b → Q c) :
    q.Reaches kept s Q i (if status ≠ .merged then .moving e else .removing e) j b es p e.node
      status archived := by
  obtain ⟨past, c, hcourse, hpast, hpair, hprimed, harchive⟩ := h
  obtain ⟨n, hm, hstatus⟩ := hprimed.node
  refine hcourse.reaches hpast (hQ c hpair) hpair hprimed harchive hq (u := c.store) ?_ hprimed ?_
  · rw [advance, perform_bind, perform_statusOf_of_bears hprimed.bears hm.node, hstatus]
    dsimp only
    split <;> rfl
  · split <;> exact .inr rfl

theorem Reaches.move (h : q.Reaches kept s Q i (.moving e) j b es p e.node .mergeReady archived)
    (hQ : ∀ c, IsPair c i (.moving e) j b → Q c) (hseq : p.checkpointSeq.toNat + 1 < 2 ^ 63) :
    ∃ p', q.Reaches kept s Q i (.removing e) j b es p' e.node .merged archived := by
  obtain ⟨past, c, hcourse, hpast, hpair, hprimed, harchive⟩ := h
  have hlegal : Status.mergeReady.canBecome .merged := rfl
  obtain ⟨u, p', hbring, hprimed', -⟩ :=
    hprimed.bring hlegal (.inr rfl) actor (h := seeing i) rfl hseq
  obtain ⟨n, hm, hstatus⟩ := hprimed.node
  have hother : n.status ≠ .merged := by
    rw [hstatus]
    nofun
  refine ⟨p', hcourse.reaches hpast (hQ c hpair) hpair hprimed harchive hq ?_ hprimed' (.inr rfl)⟩
  rw [advance, perform_bind]
  rcases hmoved : (q.engine.transition q.graph ⟨e.node, .merged, actor, none⟩).perform (seeing i)
    c.store with ⟨err | record, v⟩ <;>
    rw [perform_bring_of_bears hprimed.bears hm.node hother hmoved] at hbring
  · cases hbring
  · cases hbring
    rfl

end

/-- It takes a merged entry out of the queue and archives it, whether the entry is there or not. -/
theorem Reaches.remove (h : q.Reaches kept s Q i (.removing e) j b es p node status archived)
    (hQ : ∀ c, IsPair c i (.removing e) j b → Q c) :
    ∃ stamp, q.Reaches kept s Q i (.done (.ok (.merged e))) j b (es.filter (·.id ≠ e.id)) p node
      status (archived ++ [⟨e, stamp, .merged⟩]) := by
  obtain ⟨past, c, hcourse, hpast, hpair, hprimed, harchive⟩ := h
  obtain ⟨u, hremove, hprimed'⟩ := hprimed.removeMerged (h := seeing i) rfl e
  have hnext : q.next (seeing i) (.removing e, c.store) = (.done (.ok (.merged e)), u) := by
    rw [next_removing, perform_bind, hremove]
    rfl
  refine ⟨((seeing i).clock 0).stamp, _, _,
    hcourse.step (.act (.work hpair.first (hpair.knows i) hnext)), ?_, hpair.put _ u, hprimed', ?_⟩
  · exact List.forall_mem_append.mpr ⟨hpast, List.forall_mem_singleton.mpr (hQ c hpair)⟩
  · obtain ⟨r, v, hperform, hleft⟩ :=
      hprimed.shows.perform_removeMerged hprimed.unhindered.apart e (seeing i)
    rw [hremove] at hperform
    cases r with
    | error err => cases hperform
    | ok a =>
        cases hperform
        cases hleft with
        | done _ hline =>
            have hfiles : q.Files c.store u [⟨e, ((seeing i).clock 0).stamp, .merged⟩] := by
              rw [Files, Json.logText_singleton]
              exact hline
            exact hfiles.archives harchive

/-- The first process puts a branch in the queue, claims it and integrates it, while the other one
waits. -/
theorem Primed.reaches_finishing (hp : q.Primed s [] p node .validated) (hq : q.Smooth)
    (hseq : p.checkpointSeq.toNat + 2 < 2 ^ 63) (harchive : q.Archives s archived)
    (kept : List String) (hij : AreNumbers i j) (hQ : ∀ c : Crowd, c.Calm → Q c) :
    ∃ e k p', k.obstacle = none ∧ e.node = node ∧ p'.checkpointSeq.toNat + 1 < 2 ^ 63 ∧
      q.Reaches kept s Q i (.finishing e k) j .idle [e] p' node .mergeReady archived := by
  have hpair : ∀ a c, IsPair c i a j .idle → Q c := fun _ c hpair => hQ c (hpair.calm rfl)
  obtain ⟨p', hqueued, hseq'⟩ := hp.reaches hq hseq harchive kept hij hQ "dev" "branch"
  have hclaimed := hqueued.claim hq (hpair _) rfl
  obtain ⟨k, hclear, hfinishing⟩ := hclaimed.integrate hq (hpair _)
  exact ⟨_, k, p', hclear, rfl, hseq', hfinishing⟩

theorem smooth_smoothQueue : smoothQueue.Smooth where
  opened := rfl
  keeps := fun _ _ => Integrator.keeps_still _ _
  forwards := fun _ _ s => ⟨s, s, s, _, rfl, rfl, rfl, rfl⟩

theorem archives_acceptedStore : smoothQueue.Archives acceptedStore [] := rfl

theorem areNumbers_one_two : AreNumbers 1 2 := ⟨by decide, by decide, by decide⟩

/-- A branch can be put in the queue in the working directory. -/
theorem primed_smoothQueue : ∃ p, smoothQueue.Primed acceptedStore [] p "w" .validated ∧
    p.checkpointSeq.toNat + 2 < 2 ^ 63 := by
  obtain ⟨p, huntried, hprimed⟩ := primed_acceptedStore (.still .clean ⟨true, ""⟩)
  refine ⟨p, hprimed, ?_⟩
  rw [huntried.unsaved]
  decide

/-- In the working directory, process 1 integrates a branch while process 2 waits. -/
theorem reaches_acceptedStore (kept : List String) (hQ : ∀ c : Crowd, c.Calm → Q c) : ∃ e k p,
    k.obstacle = none ∧ e.node = "w" ∧ p.checkpointSeq.toNat + 1 < 2 ^ 63 ∧
    smoothQueue.Reaches kept acceptedStore Q 1 (.finishing e k) 2 .idle [e] p "w" .mergeReady
      [] := by
  obtain ⟨p, hprimed, hseq⟩ := primed_smoothQueue
  exact hprimed.reaches_finishing smooth_smoothQueue hseq archives_acceptedStore kept
    areNumbers_one_two hQ

end MergeQueue

end Pipewright

/-!
## One integration at a time

Nobody holds the lock of the queue while a branch is being integrated. What keeps
a second process from integrating at the same time is the entry at the head: it
is being processed, and it bears the number of the process. So there is at most
one process between a claim and the marking of the entry, whatever others do in
between and whoever ends (`course_exclusive`). And the process finds its entry at
the head again, and its mark is refused for no other reason than that a file
cannot be locked, read or written.

Recording a merge is not exclusive in that way: once the entry is marked, others
can record it, too.
-/

namespace Pipewright

open Merge

namespace MergeQueue

variable {q : MergeQueue} {s : Store} {c : Crowd} {past : List Crowd} {p p' : UInt32}
  {es es' : List Entry} {e f : Entry} {rest : List Entry} {i : Integration}

/-- An entry that is in the queue is marked, or what is in the way is something else than that it
is not found. -/
theorem Shows.update_finds (hs : q.Shows s es) (ha : q.Apart s)
    (hreplace : replaceEntry e es = some es') (h : Host) (branch : String) :
    ((q.update e).perform h s).1 ≠ .error (.entryNotFound branch) := by
  have hsame : (q.update e).perform h s
      = (q.locked (do let _ ← q.entries; q.write es' : Action Unit)).perform h s := by
    obtain ⟨u, -, htouched, ⟨err, hperform⟩ | ⟨-, -, hperform⟩⟩ :=
      Action.withLockFile_cases (lockPath q.queueFile) q.lockPolicy h s
    · exact (hperform _).trans (hperform _).symm
    · refine (hperform _).trans (Eq.trans ?_ (hperform _).symm)
      have hu : q.Shows u es := hs.of_keeps (htouched.keeps (by simp) (by simpa using ha.queue.1))
      rw [Action.perform_bind, Action.perform_bind]
      rcases hu.perform_entries { h with held := u.place (lockPath q.queueFile) :: h.held } with
        hread | ⟨-, err, hread⟩
      · rw [hread]
        dsimp only
        rw [hreplace]
      · rw [hread]
  rw [hsame]
  have hfile : ∀ fault, Error.file fault ≠ .entryNotFound branch := fun _ => nofun
  have hlock : ∀ path attempts, Error.lockContention path attempts ≠ .entryNotFound branch :=
    fun _ _ => nofun
  have hentries : q.entries.Throws (· ≠ .entryNotFound branch) :=
    (Action.throws_readRecord? hfile nofun _ _).bind fun _ => Action.throws_pure _
  have hwrite : (q.write es').Throws (· ≠ .entryNotFound branch) :=
    Action.throws_replaceFile hfile _ _
  intro heq
  exact (hentries.bind fun _ => hwrite).withLock hfile hlock q.queueFile q.lockPolicy h s _ heq rfl

/-! ### Exclusion -/

/-- Two processes that have claimed an entry and not yet marked it are one. -/
theorem Attended.exclusive (h : q.Attended c es) (he : c.owned? p = some e)
    (hf : c.owned? p' = some f) : p = p' :=
  (h.inHand.owned p e he).unique (h.inHand.owned p' f hf)

/-- What a process finds that is about to mark its entry. -/
structure FindsEntry (q : MergeQueue) (c : Crowd) (p : UInt32) (e : Entry) (i : Integration) :
    Prop where
  /-- The entry is at the head, as the process has claimed it. -/
  head : ∃ rest, q.Shows c.store (e :: rest)
  processing : e.status = .processing
  processor : e.processor = some p
  found : ∀ h branch, ((q.advance (.finishing e i)).perform h c.store).1
    ≠ .error (.entryNotFound branch)
  marked : ∀ h, q.Ready h c.store → ∃ t, q.next h (.finishing e i, c.store) = (.afterMark e i, t)

theorem Attended.findsEntry (h : q.Attended c es) (hstage : c.stage p = some (.finishing e i)) :
    q.FindsEntry c p e i := by
  have hheads := h.inHand.owned p e (Crowd.owned?_of_stage hstage)
  obtain ⟨rest, rfl⟩ := hheads.head
  have hreplace := replaceEntry_head (e.id_marked i) rest
  refine ⟨⟨rest, h.shows⟩, hheads.processing, hheads.processor, fun host branch => ?_,
    fun host hready => ?_⟩
  · have hfinds := h.shows.update_finds h.apart hreplace host branch
    rw [advance, Action.perform_bind]
    rcases hupdate : (q.update (e.marked i)).perform host c.store with ⟨err | ⟨⟩, t⟩
    · rw [hupdate] at hfinds
      exact fun heq => hfinds (congrArg Except.error (Except.error.inj heq))
    · intro heq
      cases heq
  · obtain ⟨t, hupdate, -⟩ := h.shows.perform_update_of_ready hready hreplace
    have hperform : (q.advance (.finishing e i)).perform host c.store
        = (.ok (.afterMark e i), t) := by
      rw [advance, Action.perform_bind, hupdate]
      rfl
    exact ⟨t, next_of_perform hperform⟩

/-- From an empty queue on, in every order of the steps of any number of processes, of which each
is at one call at a time and any can end at any point: at most one process is between a claim
that made an entry its own and the marking of the entry, and it always finds its entry. -/
theorem course_exclusive (ha : q.Apart s) (hs : q.Shows s [])
    (hi : q.integrator.Keeps q.queueFile) (hcourse : q.Course [q.queueFile] s past c) :
    (∀ p p' e f, c.owned? p = some e → c.owned? p' = some f → p = p') ∧
    ∀ p e i, c.stage p = some (.finishing e i) → q.FindsEntry c p e i := by
  obtain ⟨es, hattended⟩ := hcourse.attended ha hs hi (List.mem_singleton.mpr rfl)
  exact ⟨fun _ _ _ _ => hattended.exclusive, fun _ _ _ => hattended.findsEntry⟩

theorem course_exclusive_acceptedStore : ∃ q s past c e i, Apart q s ∧ q.Shows s [] ∧
    q.integrator.Keeps q.queueFile ∧ q.Course [q.queueFile] s past c ∧
    c.stage 1 = some (.finishing e i) ∧ c.stage 2 = some .idle ∧
    (∀ p p' e f, c.owned? p = some e → c.owned? p' = some f → p = p') ∧ q.FindsEntry c 1 e i ∧
    ∃ t, q.next (seeing 2) (.idle, c.store) = (.done (.ok (.busy e)), t) := by
  have hall : ∀ c : Crowd, c.Calm → True := fun _ _ => trivial
  obtain ⟨e, i, p, -, -, -, past, c, hcourse, -, hpair, hprimed, -⟩ :=
    reaches_acceptedStore [smoothQueue.queueFile] hall
  have ha : smoothQueue.Apart acceptedStore := apart_localQueue _
  have hi : smoothQueue.integrator.Keeps smoothQueue.queueFile := Integrator.keeps_still _ _
  obtain ⟨hone, hfinds⟩ := course_exclusive ha (shows_acceptedStore _) hi hcourse
  have hfound := hfinds 1 e i hpair.first
  have hbusy : e.claim (seeing 2) = .busy e := by
    rw [Entry.claim, hfound.processing]
    dsimp only
    rw [Entry.isTaken, hfound.processing, hfound.processor]
    rfl
  have hclaim := hprimed.shows.perform_claim_of_ready (hprimed.unhindered.ready rfl)
    (h := seeing 2) (by simp [hbusy])
  rw [hbusy] at hclaim
  have hperform : (smoothQueue.advance .idle).perform (seeing 2) c.store
      = (.ok (.done (.ok (.busy e))), c.store) := by
    rw [advance, Action.perform_bind, hclaim]
    rfl
  exact ⟨smoothQueue, _, past, c, e, i, ha, shows_acceptedStore _, hi, hcourse, hpair.first,
    hpair.second, hone, hfound, c.store, next_of_perform hperform⟩

end MergeQueue

end Pipewright
