import Pipewright.Proofs.Merge.Steps

/-!
# Turns and runs

A turn is one call of the queue: what is asked, the process that asks, and the
store it finds. A run is a list of turns, each of which begins in what the one
before it left, or in what others made of that; what others keep is said by a
list of paths (`Run`).

`turned` lists all that one turn can do to the entries in the queue and to the
archive. Whatever is invariant over the turns of a queue is shown by going
through that list, and over a run by induction.
-/

namespace Pipewright

open Merge Pipewright.Action

namespace Merge

/-! ## Calls of the queue -/

/-- What is asked of a queue. -/
inductive Ask where
  | enqueue (identity branch node : String)
  | process
  | resolve (branch : String)
  | skip (branch : String)
  deriving DecidableEq, Repr

inductive Answer where
  | enqueued (r : Except Error Entry)
  | processed (r : Except Error Processing)
  | resolved (r : Except Error Entry)
  | skipped (r : Except Error Archived)

namespace Answer

def enqueued? : Answer → Option Entry
  | enqueued (.ok e) => some e
  | _ => none

def merged? : Answer → Option Entry
  | processed (.ok ⟨_, .ok (.merged e)⟩) => some e
  | _ => none

def isFault : Answer → Bool
  | enqueued (.error (.file _)) => true
  | processed (.ok ⟨_, .error (.file _)⟩) => true
  | resolved (.error (.file _)) => true
  | skipped (.error (.file _)) => true
  | _ => false

theorem isFault_of_enqueued? {a : Answer} {e : Entry} (h : a.enqueued? = some e) :
    a.isFault = false := by
  cases a with
  | enqueued r =>
      cases r with
      | ok e => rfl
      | error err => cases h
  | processed r => cases h
  | resolved r => cases h
  | skipped r => cases h

theorem isFault_of_merged? {a : Answer} {e : Entry} (h : a.merged? = some e) :
    a.isFault = false ∧ a.enqueued? = none := by
  unfold merged? at h
  split at h
  · exact ⟨rfl, rfl⟩
  · cases h

end Answer

/-- The entry as it was when it was put in the queue. -/
def Entry.asEnqueued (e : Entry) : Entry :=
  { e with status := .queued, conflictingFiles := [], reason := none, processor := none }

structure Turn where
  ask : Ask
  host : Host
  before : Store

end Merge

namespace MergeQueue

/-- What a process answers that is asked something, and the store it leaves. -/
def reply (q : MergeQueue) (h : Host) (s : Store) : Ask → Answer × Store
  | .enqueue identity branch node =>
      let r := (q.enqueue identity branch node).perform h s
      (.enqueued r.1, r.2)
  | .process =>
      let r := q.process.perform h s
      (.processed r.1, r.2)
  | .resolve branch =>
      let r := (q.resolve branch).perform h s
      (.resolved r.1, r.2)
  | .skip branch =>
      let r := (q.skip branch).perform h s
      (.skipped r.1, r.2)

end MergeQueue

namespace Merge.Turn

variable {q : MergeQueue} {c : Turn} {e f : Entry}

def answer (c : Turn) (q : MergeQueue) : Answer := (q.reply c.host c.before c.ask).1

def after (c : Turn) (q : MergeQueue) : Store := (q.reply c.host c.before c.ask).2

/-- In the turn the entry is claimed, and the integration branch is moved forward to it. -/
def Forwards (c : Turn) (q : MergeQueue) (e : Entry) : Prop :=
  c.ask = .process ∧ ∃ v, q.claim.perform c.host c.before = (.ok (some (.own e)), v) ∧
    q.integrator.Forwards e.branch q.integrationBranch c.host v

theorem Forwards.unique (h : c.Forwards q e) (h' : c.Forwards q f) : e = f := by
  obtain ⟨-, v, hclaim, -⟩ := h
  obtain ⟨-, v', hclaim', -⟩ := h'
  rw [hclaim] at hclaim'
  cases hclaim'
  rfl

theorem not_forwards_of_ask (hask : c.ask ≠ .process) (e : Entry) : ¬c.Forwards q e :=
  fun h => hask h.1

theorem enqueued?_of_ask (hask : ∀ identity branch node, c.ask ≠ .enqueue identity branch node) :
    (c.answer q).enqueued? = none := by
  unfold answer
  cases hcase : c.ask with
  | enqueue identity branch node => exact absurd hcase (hask identity branch node)
  | process => rfl
  | resolve branch => rfl
  | skip branch => rfl

theorem of_ask {ask : Ask} (hask : c.ask = ask) {r : Answer} {t : Store}
    (hreply : q.reply c.host c.before ask = (r, t)) : c.answer q = r ∧ c.after q = t := by
  subst hask
  exact Prod.mk.inj hreply

theorem merged?_of_ask (hask : c.ask ≠ .process) : (c.answer q).merged? = none := by
  unfold answer
  cases hcase : c.ask with
  | process => exact absurd hcase hask
  | enqueue identity branch node => rfl
  | resolve branch => rfl
  | skip branch => rfl

end Merge.Turn

namespace MergeQueue

variable {q : MergeQueue} {kept : List String} {s t u : Store} {cs : List Turn}
  {es es' : List Entry}

/-! ## Runs -/

/-- The turns that a queue takes from a store on, and the store they lead to. Others may
change what they like in between, except for what the paths `kept` hold. -/
inductive Run (q : MergeQueue) (kept : List String) (s : Store) : List Turn → Store → Prop
  | start : Run q kept s [] s
  | call {cs : List Turn} {t : Store} (run : Run q kept s cs t) (ask : Ask) (host : Host) :
      Run q kept s (cs ++ [⟨ask, host, t⟩]) ((⟨ask, host, t⟩ : Turn).after q)
  | aside {cs : List Turn} {t u : Store} (run : Run q kept s cs t)
      (others : ∀ path ∈ kept, t.Keeps path u) : Run q kept s cs u

/-- The entries that the turns put in the queue. -/
def enqueued (q : MergeQueue) (cs : List Turn) : List Entry :=
  cs.filterMap fun c => (c.answer q).enqueued?

theorem enqueued_append (q : MergeQueue) (cs ds : List Turn) :
    q.enqueued (cs ++ ds) = q.enqueued cs ++ q.enqueued ds :=
  List.filterMap_append

theorem enqueued_singleton (q : MergeQueue) (c : Turn) :
    q.enqueued [c] = (c.answer q).enqueued?.toList := by
  rw [enqueued, List.filterMap_cons]
  cases (c.answer q).enqueued? <;> rfl

/-- A call that puts an entry in the queue answers with no fault. -/
theorem length_enqueued_add_faults_le (q : MergeQueue) (cs : List Turn) :
    (q.enqueued cs).length + (cs.filter fun c => (c.answer q).isFault).length ≤ cs.length := by
  induction cs with
  | nil => exact Nat.le_refl 0
  | cons c rest ih =>
      have happend := q.enqueued_append [c] rest
      rw [List.singleton_append, enqueued_singleton] at happend
      rw [happend, List.length_append, List.filter_cons, List.length_cons]
      cases hnew : (c.answer q).enqueued? with
      | none =>
          rw [Option.toList_none, List.length_nil]
          split
          · rw [List.length_cons]
            omega
          · omega
      | some e =>
          rw [if_neg (Bool.eq_false_iff.mp (Answer.isFault_of_enqueued? hnew)), Option.toList_some,
            List.length_singleton]
          omega

/-! ## One turn -/

/-- What becomes of the head when it is processed. -/
inductive Marked (q : MergeQueue) (c : Turn) (head : Entry) : Entry → Prop
  | unmarked (idle : ∀ f, ¬c.Forwards q f) : Marked q c head head
  | held {e : Entry} (o : Obstacle) (claim : head.claim c.host = .own e)
      (idle : ∀ f, ¬c.Forwards q f) : Marked q c head (e.asConflict o)
  | merged {e : Entry} (claim : head.claim c.host = .own e) (forwards : c.Forwards q e) :
      Marked q c head e.asMerged

/-- What a turn does to the entries in the queue, and which entries it takes out. -/
inductive Edited (q : MergeQueue) (c : Turn) (es : List Entry) : List Entry → List Archived → Prop
  | same (answer : (c.answer q).enqueued? = none) (idle : ∀ f, ¬c.Forwards q f) :
      Edited q c es es []
  | added {e : Entry} {identity branch node : String} (ask : c.ask = .enqueue identity branch node)
      (answer : (c.answer q).enqueued? = some e) (new : ∀ f ∈ es, f.branch ≠ branch)
      (entry : e = newEntry c.host identity branch node) : Edited q c es (es ++ [e]) []
  | resolved {branch : String} {e : Entry} {es' : List Entry} (ask : c.ask = .resolve branch)
      (found : resolveEntry branch es = some (e, es')) : Edited q c es es' []
  | skipped {branch : String} {e : Entry} {rest : List Entry} {a : Archived}
      (ask : c.ask = .skip branch) (found : takeEntry branch es = some (e, rest))
      (entry : a.entry = e) (status : e.status ≠ .merged)
      (disposition : a.disposition = .abandoned) :
      Edited q c es rest [a]
  | marked {head e : Entry} {rest : List Entry} (ask : c.ask = .process)
      (entries : es = head :: rest) (mark : Marked q c head e) : Edited q c es (e :: rest) []
  | recorded {head e : Entry} {rest : List Entry} {a : Archived} (ask : c.ask = .process)
      (entries : es = head :: rest) (mark : Marked q c head e) (status : e.status = .merged)
      (entry : a.entry = e) (disposition : a.disposition = .merged) :
      Edited q c es (rest.filter (·.id ≠ e.id)) [a]

/-- The entries that a turn takes out are archived, or that fails and the answer says so. -/
def Filed (q : MergeQueue) (c : Turn) (gone : List Archived) : Prop :=
  q.archiveBytes (c.after q) = q.archiveBytes c.before ++
    (Json.logText Archived.toJson gone).toUTF8 ∨
    q.archiveBytes (c.after q) = q.archiveBytes c.before ∧ (c.answer q).isFault

/-- What comes of a turn that finds the entries `es`. -/
structure Turned (q : MergeQueue) (c : Turn) (es es' : List Entry) (gone : List Archived) :
    Prop where
  shows : q.Shows (c.after q) es'
  edited : q.Edited c es es' gone
  filed : q.integrator.Keeps q.archive → q.Filed c gone
  merged : ∀ e, (c.answer q).merged? = some e → ∃ a ∈ gone, a.entry = e ∧ a.disposition = .merged

theorem filed_nil {c : Turn} (h : q.archiveBytes (c.after q) = q.archiveBytes c.before) :
    q.Filed c [] :=
  .inl (by rw [h]; exact ByteArray.append_empty.symm)

section

variable {c : Turn}

theorem Turned.of_ask {gone : List Archived} (hask : c.ask ≠ .process)
    (shows : q.Shows (c.after q) es') (edited : q.Edited c es es' gone) (filed : q.Filed c gone) :
    q.Turned c es es' gone where
  shows := shows
  edited := edited
  filed := fun _ => filed
  merged := by
    intro e he
    rw [Turn.merged?_of_ask hask] at he
    cases he

theorem Shows.turned_enqueue (hs : q.Shows c.before es) (ha : q.Apart c.before)
    {identity branch node : String} (hask : c.ask = .enqueue identity branch node) :
    ∃ es' gone, q.Turned c es es' gone := by
  have henqueued := hs.perform_enqueue ha identity branch node c.host
  obtain ⟨hqueue, -, hlog, hgraph, -⟩ := ha.archived
  have harchive := archiveBytes_of_touched (q := q)
    (q.within_enqueue identity branch node c.host c.before) (by simp [hqueue, hlog, hgraph])
  have hother : c.ask ≠ .process := by rw [hask]; nofun
  have hidle := Turn.not_forwards_of_ask (q := q) hother
  rcases hperform : (q.enqueue identity branch node).perform c.host c.before with ⟨r, t⟩
  rw [hperform] at henqueued harchive
  obtain ⟨hanswer, rfl⟩ := Turn.of_ask hask
    (show q.reply c.host c.before _ = (.enqueued r, t) by rw [reply, hperform])
  have hentry : (c.answer q).enqueued? = (Answer.enqueued r).enqueued? := by rw [hanswer]
  cases henqueued with
  | refused _ shows =>
      exact ⟨es, [], .of_ask hother shows (.same hentry hidle) (filed_nil harchive)⟩
  | moved _ _ _ shows =>
      exact ⟨es, [], .of_ask hother shows (.same hentry hidle) (filed_nil harchive)⟩
  | added _ _ _ _ new entry shows =>
      exact ⟨_, [], .of_ask hother shows (.added hask hentry new entry) (filed_nil harchive)⟩

theorem Shows.turned_resolve (hs : q.Shows c.before es) (ha : q.Apart c.before) {branch : String}
    (hask : c.ask = .resolve branch) : ∃ es' gone, q.Turned c es es' gone := by
  have hresolved := hs.perform_resolve ha branch c.host
  have harchive := archiveBytes_of_touched (q := q)
    (q.within_resolve branch c.host c.before) (by simpa using ha.archived.1)
  have hother : c.ask ≠ .process := by rw [hask]; nofun
  rcases hperform : (q.resolve branch).perform c.host c.before with ⟨r, t⟩
  rw [hperform] at hresolved harchive
  obtain ⟨hanswer, rfl⟩ := Turn.of_ask hask
    (show q.reply c.host c.before _ = (.resolved r, t) by rw [reply, hperform])
  rcases hresolved with ⟨err, t', heq, shows⟩ | ⟨e, es', t', found, heq, shows⟩
  · obtain ⟨rfl, rfl⟩ := Prod.mk.inj heq
    have hsame : q.Edited c es es [] :=
      .same (by rw [hanswer]; rfl) (Turn.not_forwards_of_ask hother)
    exact ⟨es, [], .of_ask hother shows hsame (filed_nil harchive)⟩
  · obtain ⟨rfl, rfl⟩ := Prod.mk.inj heq
    exact ⟨es', [], .of_ask hother shows (.resolved hask found) (filed_nil harchive)⟩

/-- An entry has not left, or it is archived, or it is lost by a fault. -/
theorem Left.cases {rest : List Entry} {a : Archived} {r : Except Error Archived} {t : Store}
    (h : q.Left s es rest a (r, t)) :
    (q.Shows t es ∧ q.archiveBytes t = q.archiveBytes s ∧ ∃ err, r = .error err) ∨
    q.Shows t rest ∧ (q.archiveBytes t = q.archiveBytes s ++ a.line ∧ r = .ok a ∨
      q.archiveBytes t = q.archiveBytes s ∧ ∃ fault, r = .error (.file fault)) := by
  cases h with
  | kept shows archive => exact .inl ⟨shows, archive, _, rfl⟩
  | lost shows archive => exact .inr ⟨shows, .inr ⟨archive, _, rfl⟩⟩
  | done shows archive => exact .inr ⟨shows, .inl ⟨archive, rfl⟩⟩

theorem filed_singleton {a : Archived}
    (h : q.archiveBytes (c.after q) = q.archiveBytes c.before ++ a.line) : q.Filed c [a] :=
  .inl (by rw [h, Json.logText_singleton, Archived.line])

theorem Shows.turned_skip (hs : q.Shows c.before es) (ha : q.Apart c.before) {branch : String}
    (hask : c.ask = .skip branch) : ∃ es' gone, q.Turned c es es' gone := by
  have hskipped := hs.perform_skip ha branch c.host
  have hother : c.ask ≠ .process := by rw [hask]; nofun
  rcases hperform : (q.skip branch).perform c.host c.before with ⟨r, t⟩
  rw [hperform] at hskipped
  obtain ⟨hanswer, rfl⟩ := Turn.of_ask hask
    (show q.reply c.host c.before _ = (.skipped r, t) by rw [reply, hperform])
  have hsame : q.Edited c es es [] :=
    .same (by rw [hanswer]; rfl) (Turn.not_forwards_of_ask hother)
  rcases hskipped with ⟨err, t', heq, shows, harchive⟩ | ⟨e, rest, found, status, -, hleft⟩
  · obtain ⟨rfl, rfl⟩ := Prod.mk.inj heq
    exact ⟨es, [], .of_ask hother shows hsame (filed_nil harchive)⟩
  · have hgone : q.Edited c es rest [⟨e, (c.host.clock 0).stamp, .abandoned⟩] :=
      .skipped hask found rfl status rfl
    rcases hleft.cases with ⟨shows, harchive, -⟩ | ⟨shows, ⟨harchive, -⟩ | ⟨harchive, fault, rfl⟩⟩
    · exact ⟨es, [], .of_ask hother shows hsame (filed_nil harchive)⟩
    · exact ⟨rest, _, .of_ask hother shows hgone (filed_singleton harchive)⟩
    · have hfault : (c.answer q).isFault := by rw [hanswer]; rfl
      exact ⟨rest, _, .of_ask hother shows hgone (.inr ⟨harchive, hfault⟩)⟩

theorem turned_of_left {head e : Entry} {rest : List Entry} {calls : List Call} {stamp : String}
    {r : Except Error Archived} (hask : c.ask = .process) (hes : es = head :: rest)
    (hmark : q.Marked c head e) (hstatus : e.status = .merged)
    (hanswer : c.answer q = .processed (.ok ⟨calls, r.map fun _ => .merged e⟩))
    (harchive : q.integrator.Keeps q.archive → q.archiveBytes s = q.archiveBytes c.before)
    (hleft : q.Left s (e :: rest) ((e :: rest).filter (·.id ≠ e.id)) ⟨e, stamp, .merged⟩
      (r, c.after q)) : ∃ es' gone, q.Turned c es es' gone := by
  have hrest : (e :: rest).filter (·.id ≠ e.id) = rest.filter (·.id ≠ e.id) := by simp
  rw [hrest] at hleft
  have hgone : q.Edited c es (rest.filter (·.id ≠ e.id)) [⟨e, stamp, .merged⟩] :=
    .recorded hask hes hmark hstatus rfl rfl
  rcases hleft.cases with ⟨shows, hsame, err, rfl⟩ | ⟨shows, ⟨hsame, rfl⟩ | ⟨hsame, fault, rfl⟩⟩
  · refine ⟨e :: rest, [], shows, .marked hask hes hmark, fun hi => filed_nil ?_, ?_⟩
    · rw [hsame, harchive hi]
    · rw [hanswer]
      nofun
  · refine ⟨_, _, shows, hgone, fun hi => filed_singleton ?_, ?_⟩
    · rw [hsame, harchive hi]
    · intro f hf
      rw [hanswer] at hf
      obtain rfl : e = f := Option.some.inj hf
      exact ⟨_, List.mem_singleton.mpr rfl, rfl, rfl⟩
  · refine ⟨_, _, shows, hgone, fun hi => .inr ⟨?_, ?_⟩, ?_⟩
    · rw [hsame, harchive hi]
    · rw [hanswer]
      rfl
    · rw [hanswer]
      nofun

/-- An integrated head is marked, and if it is merged it leaves the queue. -/
theorem Shows.turned_of_finished {head e : Entry} {rest : List Entry} {i : Integration}
    {r : Except Error Outcome} (hs : q.Shows s (e :: rest)) (ha : q.Apart s)
    (hready : q.Ready c.host s) (hask : c.ask = .process) (hes : es = head :: rest)
    (hclaim : head.claim c.host = .own e) (hclear : i.obstacle = none → c.Forwards q e)
    (hidle : i.obstacle ≠ none → ∀ f, ¬c.Forwards q f)
    (hanswer : c.answer q = .processed (.ok ⟨i.calls, r⟩))
    (harchive : q.integrator.Keeps q.archive → q.archiveBytes s = q.archiveBytes c.before)
    (hfinished : q.Finished c.host s e rest i (r, c.after q)) :
    ∃ es' gone, q.Turned c es es' gone := by
  have hupdated : ∀ {f r t}, (q.update f).perform c.host s = (r, t) →
      q.archiveBytes t = q.archiveBytes s := by
    intro f r t hupdate
    have hwithin := q.within_update f c.host s
    rw [hupdate] at hwithin
    exact archiveBytes_of_touched hwithin (by simpa using ha.archived.1)
  cases hfinished with
  | @unmarked f err _ id failed shows =>
      obtain ⟨t, hdone, -⟩ := hs.perform_update_of_ready hready (replaceEntry_head id rest)
      rw [failed] at hdone
      cases hdone
  | held obstacle marked shows =>
      have hheld := hidle (by rw [obstacle]; nofun)
      refine ⟨_, [], shows, .marked hask hes (.held _ hclaim hheld), fun hi => filed_nil ?_, ?_⟩
      · rw [hupdated marked, harchive hi]
      · rw [hanswer]
        nofun
  | merged clear marked shows perform recorded =>
      have hhome := (marked ▸ q.within_update e.asMerged c.host s).home
      obtain ⟨r', rfl, hleft⟩ := recorded.left (ha.of_home hhome)
      exact turned_of_left hask hes (.merged hclaim (hclear clear)) rfl hanswer
        (fun hi => (hupdated marked).trans (harchive hi)) hleft

/-- Where no entry is claimed the integration branch is not moved. -/
theorem not_forwards_of_claim {r : Except Error (Option Claim)}
    (hclaim : q.claim.perform c.host c.before = (r, t)) (hne : ∀ e, r ≠ .ok (some (.own e)))
    (f : Entry) : ¬c.Forwards q f := by
  rintro ⟨-, v, hown, -⟩
  rw [hown] at hclaim
  exact hne f (Prod.mk.inj hclaim).1.symm

theorem Shows.turned_process (hs : q.Shows c.before es) (ha : q.Apart c.before)
    (hi : q.integrator.Keeps q.queueFile) (hl : q.integrator.Keeps (lockPath q.queueFile))
    (hask : c.ask = .process) : ∃ es' gone, q.Turned c es es' gone := by
  obtain ⟨p, t, hperform, hprocessed⟩ := hs.perform_process ha hi c.host
  obtain ⟨hanswer, rfl⟩ := Turn.of_ask hask
    (show q.reply c.host c.before _ = (.processed (.ok p), t) by rw [reply, hperform])
  have hentry : (c.answer q).enqueued? = none := Turn.enqueued?_of_ask (by rw [hask]; nofun)
  have hclaims := q.within_claim c.host c.before
  have hclaimed : ∀ {r u}, q.claim.perform c.host c.before = (r, u) →
      q.archiveBytes u = q.archiveBytes c.before := by
    intro r u hclaim
    rw [hclaim] at hclaims
    exact archiveBytes_of_touched hclaims (by simpa using ha.archived.1)
  cases hprocessed with
  | refused claimed shows =>
      refine ⟨es, [], shows, .same hentry (not_forwards_of_claim claimed nofun),
        fun _ => filed_nil (hclaimed claimed), ?_⟩
      rw [hanswer]
      nofun
  | @waiting _ o _ claimed free shows outcome =>
      have hne : ∀ e, (Except.ok _ : Except Error (Option Claim)) ≠ .ok (some (.own e)) :=
        fun e heq => free e (Except.ok.inj heq)
      refine ⟨es, [], shows, .same hentry (not_forwards_of_claim claimed hne),
        fun _ => filed_nil (hclaimed claimed), ?_⟩
      intro e he
      rw [hanswer] at he
      cases o with
      | merged f => exact absurd rfl (outcome f)
      | conflict f files => cases he
      | blocked f => cases he
      | busy f => cases he
      | empty => cases he
  | recorded entries merged claimed shows performed recorded =>
      have hhome := (claimed ▸ hclaims).home
      obtain ⟨r', rfl, hleft⟩ := recorded.left (ha.of_home hhome)
      rw [entries] at hleft
      exact turned_of_left hask entries (.unmarked (not_forwards_of_claim claimed nofun))
        merged hanswer
        (fun _ => hclaimed claimed) hleft
  | @integrated head e rest v u _ i r entries claim claimed ready integrate clear shows performed
      finished =>
      have hqueue := hi.integrate e.branch q.integrationBranch c.host v
      have hlock := hl.integrate e.branch q.integrationBranch c.host v
      rw [integrate] at hqueue hlock
      have hhome : u.home = c.before.home := hqueue.home.trans (claimed ▸ hclaims).home
      have harchive : q.integrator.Keeps q.archive →
          q.archiveBytes u = q.archiveBytes c.before := by
        intro hkeeps
        have hsame := (hkeeps.integrate e.branch q.integrationBranch c.host v).contents
        rw [integrate] at hsame
        exact hsame.trans (hclaimed claimed)
      have hforwards : ∀ f, c.Forwards q f → i.obstacle = none := by
        rintro f ⟨-, v', hown, hmoved⟩
        rw [claimed] at hown
        cases hown
        exact clear.mpr hmoved
      exact shows.turned_of_finished (ha.of_home hhome) (ready.of_keeps hqueue hlock) hask entries
        claim (fun hnone => ⟨hask, v, claimed, clear.mp hnone⟩)
        (fun hsome f hf => hsome (hforwards f hf)) hanswer harchive finished

theorem Shows.turned (hs : q.Shows c.before es) (ha : q.Apart c.before)
    (hi : q.integrator.Keeps q.queueFile) (hl : q.integrator.Keeps (lockPath q.queueFile)) :
    ∃ es' gone, q.Turned c es es' gone := by
  cases hask : c.ask with
  | enqueue identity branch node => exact hs.turned_enqueue ha hask
  | process => exact hs.turned_process ha hi hl hask
  | resolve branch => exact hs.turned_resolve ha hask
  | skip branch => exact hs.turned_skip ha hask

/-! ## What a turn leaves alone -/

/-- The home is the same, and where the file of the path was found it is found. -/
def Stays (path : String) (s t : Store) : Prop := t.home = s.home ∧ (s.Found path → t.Found path)

theorem Stays.trans {path : String} (h : Stays path s t) (h' : Stays path t u) : Stays path s u :=
  ⟨h'.1.trans h.1, fun hfound => h'.2 (h.2 hfound)⟩

theorem stays_of_keeps {path : String} (h : s.Keeps path t) : Stays path s t := ⟨h.home, h.found⟩

theorem stays_of_touched {path : String} {files locks : List (List String)}
    (h : Store.Touched files locks s t) (hplace : s.place path ∉ files) : Stays path s t :=
  ⟨h.home, fun hfound => h.found hfound hplace⟩

theorem stays_process (ha : q.Apart s) (hl : q.integrator.Keeps (lockPath q.queueFile)) (h : Host) :
    Stays (lockPath q.queueFile) s (q.process.perform h s).2 := by
  have hrest : ∀ {t}, q.Apart t → t.place (lockPath q.queueFile) ∉
      [q.queueFile, q.archive, q.engine.auditLog, q.graph].map t.place := by
    intro t ht
    obtain ⟨hqueue, harchive, hlog, hgraph, -⟩ := ht.lock
    simp [hqueue, harchive, hlog, hgraph]
  have hclaims := q.within_claim h s
  rw [MergeQueue.process, perform_bind, perform_attempt]
  rcases hclaim : q.claim.perform h s with ⟨r, u⟩
  rw [hclaim] at hclaims
  have hu : Stays (lockPath q.queueFile) s u :=
    stays_of_touched hclaims (by simpa using ha.lock.1)
  have ha' := ha.of_home hu.1
  rcases r with err | _ | ⟨e | e | e | e⟩
  · exact hu
  · exact hu
  · have hintegrate := hl.integrate e.branch q.integrationBranch h u
    obtain ⟨i, v, hperform, -⟩ := q.integrator.perform_integrate e.branch q.integrationBranch h u
    rw [hperform] at hintegrate
    have hv := stays_of_keeps hintegrate
    have hfinish := q.within_finish e i h v
    dsimp only
    rw [processClaim, perform_bind, hperform]
    dsimp only
    rw [perform_bind, perform_attempt]
    exact hu.trans (hv.trans (stays_of_touched hfinish (hrest (ha'.of_home hv.1))))
  · have hrecord := q.within_recordMerged e h u
    dsimp only
    rw [processClaim, perform_bind, perform_attempt]
    exact hu.trans (stays_of_touched hrecord (hrest ha'))
  · exact hu
  · exact hu

/-- The home is the same after a turn, and a lock file that was found is found. -/
theorem stays_turn (ha : q.Apart c.before) (hl : q.integrator.Keeps (lockPath q.queueFile)) :
    Stays (lockPath q.queueFile) c.before (c.after q) := by
  obtain ⟨hqueue, harchive, hlog, hgraph, -⟩ := ha.lock
  unfold Turn.after
  cases c.ask with
  | enqueue identity branch node =>
      have hwithin := q.within_enqueue identity branch node c.host c.before
      dsimp only [reply]
      exact stays_of_touched hwithin (by simp [hqueue, hlog, hgraph])
  | process =>
      dsimp only [reply]
      exact stays_process ha hl c.host
  | resolve branch =>
      have hwithin := q.within_resolve branch c.host c.before
      dsimp only [reply]
      exact stays_of_touched hwithin (by simp [hqueue])
  | skip branch =>
      have hwithin := q.within_skip branch c.host c.before
      dsimp only [reply]
      exact stays_of_touched hwithin (by simp [hqueue, harchive])

end

/-! ## A queue in the working directory -/

/-- The queue of the default configuration, for one graph file. -/
def localQueue (i : Integrator) : MergeQueue := .ofConfig {} "pipeline.dot" i none

theorem files_localQueue (i : Integrator) : (localQueue i).files =
    [".relay/merge-queue.json", ".relay/merge-queue.json.lock", ".relay/merge-archive.jsonl",
      ".relay/audit.jsonl", "pipeline.dot", "pipeline.dot.lock"] := by
  simp only [localQueue, files, ofConfig, Engine.ofConfig]
  decide

theorem apart_localQueue (i : Integrator) : (localQueue i).Apart {} := by
  rw [Apart, files_localQueue]
  decide

def someHost : Host := ⟨fun _ => default, 1, fun _ => false, [], default⟩

end MergeQueue

end Pipewright
