import Pipewright.Proofs.Merge.Stages

/-!
# Many processes at one queue

A `Crowd` is the processes that use a queue, each with the stage that it has
reached, and the store they share. Its steps are those of single processes, in
any order: a process goes on with processing, or makes another call, and it can
end at any time. A process is told who is alive, and it is told of everybody who
is; a number that is taken to be alive although its process has ended is no
matter.

What the processes have in hand and what the queue shows belong together
(`InHand`): an entry that a process has claimed is at the head, with the number
of the process in it, until the process marks it or ends, and an entry that is
being recorded is merged if it is still in the queue. Every step preserves that.
-/

namespace Pipewright

open Merge

namespace Merge

/-! ## Crowds -/

/-- The processes that use a queue. -/
structure Crowd where
  store : Store
  /-- How far the process with a number has got; nothing if there is none. -/
  stage : UInt32 → Option Stage
  /-- What has been given out to tell entries apart. -/
  issued : List String

namespace Crowd

variable {c : Crowd} {p p' : UInt32} {x : Option Stage} {e : Entry} {h : Host}

def start (s : Store) : Crowd := ⟨s, fun _ => none, []⟩

/-- The entry that the process has claimed and not yet marked. -/
def owned? (c : Crowd) (p : UInt32) : Option Entry := (c.stage p).bind Stage.owned?

def recorded? (c : Crowd) (p : UInt32) : Option Entry := (c.stage p).bind Stage.recorded?

/-- The process has got to a stage, or has ended. -/
def put (c : Crowd) (p : UInt32) (x : Option Stage) : Crowd :=
  { c with stage := Function.update c.stage p x }

/-- The host is that of the process, which is told of everybody who is alive. -/
structure Knows (c : Crowd) (p : UInt32) (h : Host) : Prop where
  pid : h.pid = p
  alive : ∀ p', (c.stage p').isSome → h.isAlive p'

/-- No two processes are recording entries with the same id. -/
def Calm (c : Crowd) : Prop :=
  ∀ p p' e f, c.recorded? p = some e → c.recorded? p' = some f → e.id = f.id → p = p'

@[simp]
theorem recorded?_start (s : Store) (p : UInt32) : (start s).recorded? p = none := rfl

theorem put_cases {α : Type} {f : Stage → Option α} {a : α}
    (h : ((c.put p x).stage p').bind f = some a) :
    p' = p ∧ x.bind f = some a ∨ p' ≠ p ∧ (c.stage p').bind f = some a := by
  by_cases hp : p' = p
  · subst hp
    exact .inl ⟨rfl, by simpa [put] using h⟩
  · exact .inr ⟨hp, by simpa [put, hp] using h⟩

theorem owned?_put (h : (c.put p x).owned? p' = some e) :
    p' = p ∧ x.bind Stage.owned? = some e ∨ p' ≠ p ∧ c.owned? p' = some e :=
  put_cases h

theorem recorded?_put (h : (c.put p x).recorded? p' = some e) :
    p' = p ∧ x.bind Stage.recorded? = some e ∨ p' ≠ p ∧ c.recorded? p' = some e :=
  put_cases h

theorem owned?_of_stage {st : Stage} (h : c.stage p = some st) : c.owned? p = st.owned? := by
  rw [owned?, h, Option.bind_some]

theorem recorded?_of_stage {st : Stage} (h : c.stage p = some st) :
    c.recorded? p = st.recorded? := by
  rw [recorded?, h, Option.bind_some]

theorem calm_of_idle (h : ∀ p, c.recorded? p = none) : c.Calm := by
  intro p p' e f he
  rw [h p] at he
  cases he

theorem Knows.isAlive (hknows : c.Knows p h) (howned : c.owned? p' = some e) : h.isAlive p' := by
  refine hknows.alive p' ?_
  unfold owned? at howned
  cases hstage : c.stage p' with
  | none =>
      rw [hstage] at howned
      cases howned
  | some st => rfl

end Crowd

end Merge

namespace MergeQueue

variable {q : MergeQueue} {kept : List String} {s : Store} {c c' : Crowd} {p : UInt32}

/-! ## Steps -/

/-- What a process does to the crowd. -/
inductive Act (q : MergeQueue) (p : UInt32) (c : Crowd) : Crowd → Prop
  /-- It goes on with processing the head. -/
  | work {st st' : Stage} {h : Host} {t : Store} (stage : c.stage p = some st) (knows : c.Knows p h)
      (next : q.next h (st, c.store) = (st', t)) : Act q p c { c.put p (some st') with store := t }
  /-- It makes another call, which may put a new entry in the queue. -/
  | call {ask : Ask} {h : Host} (stage : c.stage p = some .idle) (knows : c.Knows p h)
      (other : ask ≠ .process) (fresh : h.fresh.text ∉ c.issued) :
      Act q p c { c with store := (q.reply h c.store ask).2, issued := h.fresh.text :: c.issued }

/-- What happens to a crowd. Others may change what they like, except for what the paths `kept`
hold. -/
inductive Step (q : MergeQueue) (kept : List String) (c : Crowd) : Crowd → Prop
  | arrive {p : UInt32} (absent : c.stage p = none) : Step q kept c (c.put p (some .idle))
  | act {p : UInt32} {c' : Crowd} (act : q.Act p c c') : Step q kept c c'
  /-- A process that has answered can begin anew. -/
  | again {p : UInt32} {r : Except Error Outcome} (answered : c.stage p = some (.done r)) :
      Step q kept c (c.put p (some .idle))
  | leave (p : UInt32) : Step q kept c (c.put p none)
  /-- A process ends in the middle of an act, when it has written the queue file and not the
  archive. One that ends before that leaves both as they are, like others. -/
  | cut {p : UInt32} {c' : Crowd} {u : Store} (act : q.Act p c c')
      (queue : c'.store.Keeps q.queueFile u) (archive : c.store.Keeps q.archive u) :
      Step q kept c { c'.put p none with store := u }
  | aside {u : Store} (others : ∀ path ∈ kept, c.store.Keeps path u) :
      Step q kept c { c with store := u }

/-- The steps from a store on at which nobody is at the queue; `past` are the crowds that were
there before. -/
inductive Course (q : MergeQueue) (kept : List String) (s : Store) : List Crowd → Crowd → Prop
  | start : Course q kept s [] (.start s)
  | step {past : List Crowd} {c c' : Crowd} (course : Course q kept s past c)
      (step : q.Step kept c c') : Course q kept s (past ++ [c]) c'

end MergeQueue

namespace Merge

variable {c c' : Crowd} {p p' : UInt32} {x : Option Stage} {h : Host} {es es' : List Entry}
  {e f head : Entry} {rest : List Entry} {st st' : Stage} {gone : List Archived} {ids : List String}

/-- What an act does to the entries in the queue, and which entries it archives. -/
inductive Acted (p : UInt32) (c : Crowd) (es : List Entry) :
    Crowd → List Entry → List Archived → Prop
  | worked {h : Host} {st st' : Stage} {t : Store} {es' : List Entry} {gone : List Archived}
      (stage : c.stage p = some st) (knows : c.Knows p h) (worked : Worked h es st es' st' gone) :
      Acted p c es { c.put p (some st') with store := t } es' gone
  | called {h : Host} {t : Store} {es' : List Entry} {gone : List Archived}
      (stage : c.stage p = some .idle) (knows : c.Knows p h) (fresh : h.fresh.text ∉ c.issued)
      (called : Called h es es' gone) :
      Acted p c es { c with store := t, issued := h.fresh.text :: c.issued } es' gone

/-! ## Claims and edits -/

theorem Entry.claim_eq_own (hclaim : e.claim h = .own f) :
    f = e.asClaimed h ∧ e.status ≠ .merged ∧ e.isTaken h = false := by
  unfold Entry.claim at hclaim
  split at hclaim
  · cases hclaim
  · cases hclaim
  · next hstatus =>
    split at hclaim
    · cases hclaim
    · next htaken =>
      cases hclaim
      exact ⟨rfl, by rw [hstatus]; nofun, Bool.eq_false_iff.mpr htaken⟩
  · next hstatus =>
    cases hclaim
    refine ⟨rfl, by rw [hstatus]; nofun, ?_⟩
    rw [Entry.isTaken, hstatus]
    rfl

theorem map_id_of_replaceEntry (hreplace : replaceEntry e es = some es') :
    es'.map (·.id) = es.map (·.id) := by
  induction es generalizing es' with
  | nil => cases hreplace
  | cons f rest ih =>
      rw [replaceEntry] at hreplace
      split at hreplace
      · next hid =>
        cases hreplace
        rw [List.map_cons, List.map_cons, hid]
      · obtain ⟨others, hothers, rfl⟩ := Option.map_eq_some_iff.mp hreplace
        rw [List.map_cons, List.map_cons, ih hothers]

/-! ## What processes have in hand -/

/-- The entry is at the head, and the process is at work on it. -/
structure Heads (es : List Entry) (p : UInt32) (e : Entry) : Prop where
  head : ∃ rest, es = e :: rest
  processing : e.status = .processing
  processor : e.processor = some p

/-- The entry has been merged, and is marked as merged where it is still in the queue. -/
structure Settled (es : List Entry) (ids : List String) (e : Entry) : Prop where
  issued : e.id ∈ ids
  merged : e.status = .merged
  found : ∀ f ∈ es, f.id = e.id → f.status = .merged

/-- An entry at the head that another living process is at work on is taken. -/
theorem Heads.isTaken (hheads : Heads es p e) (halive : h.isAlive p) (hother : p ≠ h.pid) :
    e.isTaken h := by
  simp [Entry.isTaken, hheads.processing, hheads.processor, halive, hother]

theorem Heads.unique (hheads : Heads es p e) (hheads' : Heads es p' f) : p = p' := by
  obtain ⟨rest, rfl⟩ := hheads.head
  obtain ⟨rest', heq⟩ := hheads'.head
  cases heq
  exact Option.some.inj (hheads.processor.symm.trans hheads'.processor)

theorem Settled.mono (hsettled : Settled es ids e) (hsub : es' ⊆ es) : Settled es' ids e :=
  { hsettled with found := fun f hf => hsettled.found f (hsub hf) }

/-- What the processes have in hand fits what the queue shows. -/
structure InHand (c : Crowd) (es : List Entry) : Prop where
  ids : (es.map (·.id)).Nodup
  issued : ∀ e ∈ es, e.id ∈ c.issued
  owned : ∀ p e, c.owned? p = some e → Heads es p e
  recorded : ∀ p e, c.recorded? p = some e → Settled es c.issued e

theorem inHand_start (s : Store) : InHand (.start s) [] :=
  ⟨List.nodup_nil, nofun, nofun, nofun⟩

/-- The entries change and what a process has in hand, and what the others have in hand is left as
it is. -/
theorem InHand.edit (hin : InHand c es) (hids : (es'.map (·.id)).Nodup)
    (hissued : ∀ e ∈ es', e.id ∈ c.issued)
    (hothers : ∀ p' e, p' ≠ p → c.owned? p' = some e → Heads es' p' e)
    (hsettled : ∀ e, Settled es c.issued e → Settled es' c.issued e)
    (howned : ∀ e, x.bind Stage.owned? = some e → Heads es' p e)
    (hrecorded : ∀ e, x.bind Stage.recorded? = some e → Settled es' c.issued e) :
    InHand (c.put p x) es' where
  ids := hids
  issued := hissued
  owned := by
    intro p' e he
    rcases Crowd.owned?_put he with ⟨rfl, hself⟩ | ⟨hother, hold⟩
    · exact howned e hself
    · exact hothers p' e hother hold
  recorded := by
    intro p' e he
    rcases Crowd.recorded?_put he with ⟨rfl, hself⟩ | ⟨-, hold⟩
    · exact hrecorded e hself
    · exact hsettled e (hin.recorded p' e hold)

theorem InHand.put (hin : InHand c es)
    (howned : ∀ e, x.bind Stage.owned? = some e → c.owned? p = some e)
    (hrecorded : ∀ e, x.bind Stage.recorded? = some e → c.recorded? p = some e) :
    InHand (c.put p x) es :=
  hin.edit hin.ids hin.issued (fun p' e _ => hin.owned p' e) (fun _ => id)
    (fun e he => hin.owned p e (howned e he)) fun e he => hin.recorded p e (hrecorded e he)

/-- The head is claimed: nobody else had it, since everybody who is alive is known to be. -/
theorem InHand.claim (hin : InHand c (head :: rest)) (hknows : c.Knows p h)
    (hclaim : head.claim h = .own e) : InHand (c.put p (some (.integrating e))) (e :: rest) := by
  obtain ⟨rfl, hunmerged, hfree⟩ := Entry.claim_eq_own hclaim
  have hissued := List.forall_mem_cons.mp hin.issued
  refine hin.edit hin.ids (List.forall_mem_cons.mpr hissued) ?_ ?_ ?_ nofun
  · intro p' f hother hf
    have hheads := hin.owned p' f hf
    obtain ⟨rest', heq⟩ := hheads.head
    cases heq
    rw [hheads.isTaken (hknows.isAlive hf) (hknows.pid ▸ hother)] at hfree
    cases hfree
  · intro f hf
    refine { hf with found := List.forall_mem_cons.mpr ⟨fun hid => ?_, fun g hg => ?_⟩ }
    · exact absurd (hf.found head (List.mem_cons_self ..) hid) hunmerged
    · exact hf.found g (List.mem_cons_of_mem _ hg)
  · intro f hf
    cases hf
    exact ⟨⟨rest, rfl⟩, rfl, by rw [← hknows.pid]; rfl⟩

theorem InHand.see (hin : InHand c (head :: rest)) (hmerged : head.status = .merged) :
    InHand (c.put p (some (.recording head))) (head :: rest) := by
  refine hin.edit hin.ids hin.issued (fun p' f _ hf => hin.owned p' f hf) (fun _ => id) nofun ?_
  intro f hf
  cases hf
  refine ⟨hin.issued head (List.mem_cons_self ..), hmerged, ?_⟩
  obtain ⟨hhead, -⟩ := List.nodup_cons.mp hin.ids
  refine List.forall_mem_cons.mpr ⟨fun _ => hmerged, fun g hg hid => ?_⟩
  exact absurd (List.mem_map.mpr ⟨g, hg, hid⟩) hhead

/-- An entry is marked by the process that has claimed it. -/
theorem InHand.mark (hin : InHand c es) (howned : c.owned? p = some e) {i : Integration}
    (hreplace : replaceEntry (e.marked i) es = some es') :
    InHand (c.put p (some (.afterMark e i))) es' := by
  have hheads := hin.owned p e howned
  obtain ⟨rest, rfl⟩ := hheads.head
  rw [MergeQueue.replaceEntry_head (e.id_marked i)] at hreplace
  cases hreplace
  have hids : ((e.marked i :: rest).map (·.id)) = (e :: rest).map (·.id) := by
    rw [List.map_cons, e.id_marked i, List.map_cons]
  obtain ⟨hnew, hissued⟩ := List.forall_mem_cons.mp hin.issued
  have hbefore : ∀ f, Settled (e :: rest) c.issued f → f.id ≠ e.id := by
    intro f hf hid
    have hmerged := hf.found e (List.mem_cons_self ..) hid.symm
    rw [hheads.processing] at hmerged
    cases hmerged
  refine hin.edit (hids ▸ hin.ids) (List.forall_mem_cons.mpr ⟨e.id_marked i ▸ hnew, hissued⟩)
    ?_ ?_ ?_ ?_
  · intro p' f hother hf
    exact absurd ((hin.owned p' f hf).unique hheads) hother
  · intro f hf
    refine { hf with found := List.forall_mem_cons.mpr ⟨fun hid => ?_, fun g hg => ?_⟩ }
    · exact absurd ((e.id_marked i).symm.trans hid).symm (hbefore f hf)
    · exact hf.found g (List.mem_cons_of_mem _ hg)
  · intro f hf
    rw [Option.bind_some, Stage.owned?_afterMark] at hf
    cases hf
  · intro f hf
    obtain ⟨rfl, hmerged⟩ := Stage.recorded?_afterMark hf
    refine ⟨e.id_marked i ▸ hnew, hmerged, List.forall_mem_cons.mpr ⟨fun _ => hmerged, ?_⟩⟩
    intro g hg hid
    obtain ⟨hhead, -⟩ := List.nodup_cons.mp hin.ids
    exact absurd (List.mem_map.mpr ⟨g, hg, hid.trans (e.id_marked i)⟩) hhead

/-- A merged entry is taken out, and the head stays where it is if somebody is at work on it. -/
theorem InHand.remove (hin : InHand c es) (hrecorded : c.recorded? p = some e)
    (r : Except Error Outcome) :
    InHand (c.put p (some (.done r))) (es.filter (·.id ≠ e.id)) := by
  have hsettled := hin.recorded p e hrecorded
  have hsub : es.filter (·.id ≠ e.id) ⊆ es := List.filter_sublist.subset
  refine hin.edit (hin.ids.sublist (List.filter_sublist.map _)) (fun f hf => hin.issued f (hsub hf))
    ?_ (fun f hf => hf.mono hsub) nofun nofun
  intro p' f _ hf
  have hheads := hin.owned p' f hf
  obtain ⟨rest, rfl⟩ := hheads.head
  have hother : f.id ≠ e.id := by
    intro hid
    have hmerged := hsettled.found f (List.mem_cons_self ..) hid
    rw [hheads.processing] at hmerged
    cases hmerged
  refine { hheads with head := ⟨rest.filter (·.id ≠ e.id), ?_⟩ }
  rw [List.filter_cons_of_pos (by simpa using hother)]

theorem InHand.worked (hin : InHand c es) (hstage : c.stage p = some st) (hknows : c.Knows p h)
    (hworked : Worked h es st es' st' gone) : InHand (c.put p (some st')) es' := by
  have howned := Crowd.owned?_of_stage hstage
  have hrecorded := Crowd.recorded?_of_stage hstage
  cases hworked with
  | kept owned recorded =>
      exact hin.put (fun e he => howned.trans (owned e he)) fun e he =>
        hrecorded.trans (recorded e he)
  | claimed entries claim =>
      subst entries
      exact hin.claim hknows claim
  | seen entries merged =>
      subst entries
      exact hin.see merged
  | marked owned replaced => exact hin.mark (howned.trans owned) replaced
  | removed recorded => exact hin.remove (hrecorded.trans recorded) _

/-- The entries change by a call of a process that has nothing in hand. -/
theorem InHand.called (hin : InHand c es) (hstage : c.stage p = some .idle) (hknows : c.Knows p h)
    (hfresh : h.fresh.text ∉ c.issued) (hcalled : Called h es es' gone) :
    InHand { c with issued := h.fresh.text :: c.issued } es' := by
  have hissued : ∀ e ∈ es, e.id ∈ h.fresh.text :: c.issued :=
    fun e he => List.mem_cons_of_mem _ (hin.issued e he)
  have hothers : ∀ p' e, c.owned? p' = some e → p' ≠ h.pid := by
    rintro p' e he rfl
    rw [hknows.pid, Crowd.owned?_of_stage hstage] at he
    cases he
  have hmore : ∀ {e}, Settled es c.issued e → e.id ∈ h.fresh.text :: c.issued :=
    fun he => List.mem_cons_of_mem _ he.issued
  cases hcalled with
  | kept =>
      exact ⟨hin.ids, hissued, hin.owned, fun p' e he =>
        { hin.recorded p' e he with issued := hmore (hin.recorded p' e he) }⟩
  | added identity branch node =>
      have hnew : h.fresh.text ∉ es.map (·.id) := by
        intro hmem
        obtain ⟨e, he, hid⟩ := List.mem_map.mp hmem
        exact hfresh (hid ▸ hin.issued e he)
      refine ⟨?_, ?_, ?_, ?_⟩
      · rw [List.map_append, List.nodup_append]
        refine ⟨hin.ids, List.pairwise_singleton _ _, ?_⟩
        rintro id hid _ hlast rfl
        obtain rfl : id = h.fresh.text := List.mem_singleton.mp hlast
        exact hnew hid
      · refine List.forall_mem_append.mpr ⟨hissued, ?_⟩
        exact List.forall_mem_singleton.mpr (List.mem_cons_self ..)
      · intro p' e he
        have hheads := hin.owned p' e he
        obtain ⟨rest, rfl⟩ := hheads.head
        exact { hheads with head := ⟨_, rfl⟩ }
      · intro p' e he
        have hsettled := hin.recorded p' e he
        refine ⟨hmore hsettled, hsettled.merged, List.forall_mem_append.mpr ⟨hsettled.found, ?_⟩⟩
        refine List.forall_mem_singleton.mpr fun hid => ?_
        have hclash : h.fresh.text = e.id := hid
        exact absurd (hclash ▸ hsettled.issued) hfresh
  | @resolved front back old entries conflict =>
      subst entries
      have hids : (front ++ old.asResolved :: back).map (·.id)
          = (front ++ old :: back).map (·.id) := by
        simp [Entry.asResolved]
      refine ⟨hids ▸ hin.ids, ?_, ?_, ?_⟩
      · intro e he
        have hmem := List.mem_map_of_mem (f := (·.id)) he
        rw [hids] at hmem
        obtain ⟨f, hf, hid⟩ := List.mem_map.mp hmem
        exact hid ▸ hissued f hf
      · intro p' e he
        have hheads := hin.owned p' e he
        obtain ⟨rest, heq⟩ := hheads.head
        cases front with
        | nil =>
            cases heq
            rw [hheads.processing] at conflict
            cases conflict
        | cons f front =>
            cases heq
            exact { hheads with head := ⟨_, rfl⟩ }
      · intro p' e he
        have hsettled := hin.recorded p' e he
        refine ⟨hmore hsettled, hsettled.merged, ?_⟩
        obtain ⟨hfront, hback⟩ := List.forall_mem_append.mp hsettled.found
        obtain ⟨hold, hback⟩ := List.forall_mem_cons.mp hback
        refine List.forall_mem_append.mpr ⟨hfront, List.forall_mem_cons.mpr ⟨fun hid => ?_, hback⟩⟩
        rw [hold hid] at conflict
        cases conflict
  | @skipped front back e _ entries unmerged free =>
      subst entries
      have hsub : (front ++ back).Sublist (front ++ e :: back) :=
        (List.Sublist.refl front).append (List.sublist_cons_self ..)
      refine ⟨hin.ids.sublist (hsub.map _), fun f hf => hissued f (hsub.subset hf), ?_, ?_⟩
      · intro p' f hf
        have hheads := hin.owned p' f hf
        obtain ⟨rest, heq⟩ := hheads.head
        cases front with
        | nil =>
            cases heq
            rw [hheads.isTaken (hknows.isAlive hf) (hothers p' e hf)] at free
            cases free
        | cons g front =>
            cases heq
            exact { hheads with head := ⟨_, rfl⟩ }
      · intro p' f hf
        have hsettled := (hin.recorded p' f hf).mono hsub.subset
        exact { hsettled with issued := hmore (hin.recorded p' f hf) }

theorem InHand.acted (hin : InHand c es) (hacted : Acted p c es c' es' gone) : InHand c' es' := by
  cases hacted with
  | worked stage knows worked =>
      obtain ⟨ids, issued, owned, recorded⟩ := hin.worked stage knows worked
      exact ⟨ids, issued, owned, recorded⟩
  | called stage knows fresh called =>
      obtain ⟨ids, issued, owned, recorded⟩ := hin.called stage knows fresh called
      exact ⟨ids, issued, owned, recorded⟩

end Merge

namespace MergeQueue

variable {q : MergeQueue} {kept : List String} {s u : Store} {c c' : Crowd} {past : List Crowd}
  {p : UInt32} {x : Option Stage} {es es' : List Entry} {gone : List Archived}

/-! ## Courses -/

theorem Shows.acted (hs : q.Shows c.store es) (ha : q.Apart c.store)
    (hi : q.integrator.Keeps q.queueFile) (hact : q.Act p c c') :
    ∃ es' gone, q.Leaves c.store c'.store es' gone ∧ Acted p c es c' es' gone := by
  cases hact with
  | work stage knows next =>
      obtain ⟨es', gone, hleaves, hworked⟩ := hs.worked ha hi next
      exact ⟨es', gone, hleaves, .worked stage knows hworked⟩
  | @call ask h stage knows other fresh =>
      obtain ⟨es', gone, hleaves, hcalled⟩ := hs.called ha other h
      exact ⟨es', gone, hleaves, .called stage knows fresh hcalled⟩

/-- The queue shows the entries, and what the processes have in hand fits them. -/
structure Attended (q : MergeQueue) (c : Crowd) (es : List Entry) : Prop where
  apart : q.Apart c.store
  shows : q.Shows c.store es
  inHand : InHand c es

theorem Attended.act (h : q.Attended c es) (hleaves : q.Leaves c.store c'.store es' gone)
    (hacted : Acted p c es c' es' gone) : q.Attended c' es' :=
  ⟨h.apart.of_home hleaves.home, hleaves.shows, h.inHand.acted hacted⟩

/-- A process that has nothing in hand comes or begins anew, or one goes. -/
theorem Attended.put (h : q.Attended c es) (howned : x.bind Stage.owned? = none)
    (hrecorded : x.bind Stage.recorded? = none) : q.Attended (c.put p x) es := by
  refine ⟨h.apart, h.shows, h.inHand.put ?_ ?_⟩
  · rw [howned]
    nofun
  · rw [hrecorded]
    nofun

theorem Attended.aside (h : q.Attended c es) (hqueue : c.store.Keeps q.queueFile u) :
    q.Attended { c with store := u } es := by
  obtain ⟨ids, issued, owned, recorded⟩ := h.inHand
  exact ⟨h.apart.of_home hqueue.home, h.shows.of_keeps hqueue, ids, issued, owned, recorded⟩

theorem Attended.step (h : q.Attended c es) (hi : q.integrator.Keeps q.queueFile)
    (hkept : q.queueFile ∈ kept) (hstep : q.Step kept c c') : ∃ es', q.Attended c' es' := by
  cases hstep with
  | arrive absent => exact ⟨es, h.put rfl rfl⟩
  | act act =>
      obtain ⟨es', gone, hleaves, hacted⟩ := h.shows.acted h.apart hi act
      exact ⟨es', h.act hleaves hacted⟩
  | again answered => exact ⟨es, h.put rfl rfl⟩
  | leave p => exact ⟨es, h.put rfl rfl⟩
  | cut act queue archive =>
      obtain ⟨es', gone, hleaves, hacted⟩ := h.shows.acted h.apart hi act
      exact ⟨es', ((h.act hleaves hacted).put rfl rfl).aside queue⟩
  | aside others => exact ⟨es, h.aside (others q.queueFile hkept)⟩

/-- What the processes have in hand always fits what the queue shows, if it was empty when the
first of them came. -/
theorem Course.attended (ha : q.Apart s) (hs : q.Shows s []) (hi : q.integrator.Keeps q.queueFile)
    (hkept : q.queueFile ∈ kept) (hcourse : q.Course kept s past c) : ∃ es, q.Attended c es := by
  induction hcourse with
  | start => exact ⟨[], ha, hs, inHand_start s⟩
  | step _ hstep ih =>
      obtain ⟨es, hattended⟩ := ih
      exact hattended.step hi hkept hstep

end MergeQueue

end Pipewright
