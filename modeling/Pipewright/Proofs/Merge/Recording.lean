import Pipewright.Proofs.Engine.RecordFiles
import Pipewright.Proofs.Merge.Pairs

/-!
# Merges that are recorded twice

A merged entry stays in the queue until its node is merged too, and everybody who
finds it at the head records the merge. So two processes can record one entry at
the same time, and the second of them to take it out of the queue, where it is no
more, archives it again: that can happen in every queue that nothing hinders
(`Primed.recorded_twice`).

Where no two processes record one entry at the same time, every entry is archived
once at most, whatever the order of the steps and whoever ends
(`course_archived_once`).
-/

namespace Pipewright

open Merge Pipewright.Action

namespace Merge

variable {c c' : Crowd} {p : UInt32} {es es' : List Entry} {e : Entry} {st st' : Stage} {h : Host}
  {archived gone : List Archived} {a : Archived}

/-! ## Entries that are archived once -/

/-- Each of the entries was archived once, and it is neither in the queue nor being recorded. -/
structure Once (c : Crowd) (es : List Entry) (archived : List Archived) : Prop where
  issued : ∀ a ∈ archived, a.entry.id ∈ c.issued
  left : ∀ a ∈ archived, ∀ e ∈ es, e.id ≠ a.entry.id
  recorded : ∀ a ∈ archived, ∀ p e, c.recorded? p = some e → e.id ≠ a.entry.id
  once : (archived.map (·.entry.id)).Nodup

theorem once_start (s : Store) : Once (.start s) [] [] :=
  ⟨nofun, nofun, nofun, List.nodup_nil⟩

theorem Once.of_append (ho : Once c es (archived ++ gone)) : Once c es archived where
  issued := (List.forall_mem_append.mp ho.issued).1
  left := (List.forall_mem_append.mp ho.left).1
  recorded := (List.forall_mem_append.mp ho.recorded).1
  once := by
    have honce := ho.once
    rw [List.map_append] at honce
    exact (List.nodup_append.mp honce).1

/-- Nothing is archived, and what is in the queue or recorded then was in the queue or recorded
before, or is new. -/
theorem Once.edit (ho : Once c es archived) (hissued : c.issued ⊆ c'.issued)
    (hes : ∀ e ∈ es', e.id ∈ es.map (·.id) ∨ e.id ∉ c.issued)
    (hrecorded : ∀ p e, c'.recorded? p = some e →
      c.recorded? p = some e ∨ e.id ∈ es.map (·.id)) : Once c' es' archived := by
  have hleft : ∀ a ∈ archived, ∀ e : Entry, e.id ∈ es.map (·.id) → e.id ≠ a.entry.id := by
    intro a ha e he
    obtain ⟨f, hf, hid⟩ := List.mem_map.mp he
    exact hid ▸ ho.left a ha f hf
  refine ⟨fun a ha => hissued (ho.issued a ha), fun a ha e he => ?_, fun a ha p e he => ?_, ho.once⟩
  · rcases hes e he with hold | hnew
    · exact hleft a ha e hold
    · exact fun hid => hnew (hid ▸ ho.issued a ha)
  · rcases hrecorded p e he with hold | hqueued
    · exact ho.recorded a ha p e hold
    · exact hleft a ha e hqueued

/-- One more entry is archived, which is in no other place. -/
theorem Once.file (ho : Once c es archived) (hissued : a.entry.id ∈ c.issued)
    (hleft : ∀ e ∈ es, e.id ≠ a.entry.id)
    (hrecorded : ∀ p e, c.recorded? p = some e → e.id ≠ a.entry.id)
    (hnew : ∀ b ∈ archived, b.entry.id ≠ a.entry.id) : Once c es (archived ++ [a]) where
  issued := List.forall_mem_append.mpr ⟨ho.issued, List.forall_mem_singleton.mpr hissued⟩
  left := List.forall_mem_append.mpr ⟨ho.left, List.forall_mem_singleton.mpr hleft⟩
  recorded := List.forall_mem_append.mpr ⟨ho.recorded, List.forall_mem_singleton.mpr hrecorded⟩
  once := by
    rw [List.map_append, List.map_singleton, List.nodup_append]
    refine ⟨ho.once, List.pairwise_singleton _ _, ?_⟩
    rintro _ hmem _ hlast rfl
    obtain ⟨b, hb, hid⟩ := List.mem_map.mp hmem
    exact hnew b hb (hid.trans (List.mem_singleton.mp hlast))

theorem Once.put (ho : Once c es archived) {x : Option Stage}
    (hx : x.bind Stage.recorded? = none) : Once (c.put p x) es archived := by
  refine ho.edit (fun _ => id) (fun e he => .inl (List.mem_map_of_mem he)) fun p' e he => ?_
  rcases Crowd.recorded?_put he with ⟨-, hself⟩ | ⟨-, hold⟩
  · rw [hx] at hself
    cases hself
  · exact .inl hold

/-- An entry that is archived by the process that records it is recorded by no other one. -/
theorem Once.worked (ho : Once c es archived) (hin : InHand c es) (hcalm : c.Calm)
    (hstage : c.stage p = some st) (hworked : Worked h es st es' st' gone) :
    Once (c.put p (some st')) es' (archived ++ gone) := by
  have hrecords := Crowd.recorded?_of_stage hstage
  have hstays : ∀ {e}, e ∈ es → e.id ∈ es.map (·.id) ∨ e.id ∉ c.issued :=
    fun he => .inl (List.mem_map_of_mem he)
  cases hworked with
  | kept owned recorded =>
      rw [List.append_nil]
      refine ho.edit (fun _ => id) (fun e he => hstays he) fun p' e he => ?_
      rcases Crowd.recorded?_put he with ⟨rfl, hself⟩ | ⟨-, hold⟩
      · exact .inl (hrecords.trans (recorded e hself))
      · exact .inl hold
  | claimed entries claim =>
      subst entries
      obtain ⟨rfl, -⟩ := Entry.claim_eq_own claim
      rw [List.append_nil]
      refine ho.edit (fun _ => id) (fun e he => .inl ?_) fun p' e he => ?_
      · exact List.mem_map_of_mem (f := (·.id)) he
      · rcases Crowd.recorded?_put he with ⟨-, hself⟩ | ⟨-, hold⟩
        · cases hself
        · exact .inl hold
  | @seen head rest entries merged =>
      rw [List.append_nil]
      refine ho.edit (fun _ => id) (fun e he => hstays he) fun p' e he => ?_
      rcases Crowd.recorded?_put he with ⟨-, hself⟩ | ⟨-, hold⟩
      · cases hself
        exact .inr (List.mem_map_of_mem (by simp [entries]))
      · exact .inl hold
  | @marked e i _ owned replaced =>
      rw [List.append_nil]
      refine ho.edit (fun _ => id) (fun f hf => .inl ?_) fun p' f hf => ?_
      · exact map_id_of_replaceEntry replaced ▸ List.mem_map_of_mem hf
      · rcases Crowd.recorded?_put hf with ⟨-, hself⟩ | ⟨-, hold⟩
        · obtain ⟨rfl, -⟩ := Stage.recorded?_afterMark hself
          obtain ⟨rest, rfl⟩ := (hin.owned p e ((Crowd.owned?_of_stage hstage).trans owned)).head
          exact .inr (List.mem_map.mpr ⟨e, List.mem_cons_self .., (e.id_marked i).symm⟩)
        · exact .inl hold
  | @removed e r _ recorded archiving =>
      have hrecorded := hrecords.trans recorded
      have hrest : Once (c.put p (some (.done r))) (es.filter (·.id ≠ e.id)) archived := by
        refine ho.edit (fun _ => id) (fun f hf => hstays (List.mem_of_mem_filter hf))
          fun p' f hf => ?_
        rcases Crowd.recorded?_put hf with ⟨-, hself⟩ | ⟨-, hold⟩
        · cases hself
        · exact .inl hold
      rcases archiving with rfl | ⟨stamp, rfl⟩
      · rwa [List.append_nil]
      · refine hrest.file (hin.recorded p e hrecorded).issued ?_ ?_ ?_
        · intro f hf
          simpa using (List.mem_filter.mp hf).2
        · intro p' f hf
          rcases Crowd.recorded?_put hf with ⟨-, hself⟩ | ⟨hother, hold⟩
          · cases hself
          · exact fun hid => hother (hcalm p' p f e hold hrecorded hid)
        · exact fun b hb hid => ho.recorded b hb p e hrecorded hid.symm

/-- An entry that is skipped is not merged, so nobody records it. -/
theorem Once.called (ho : Once c es archived) (hin : InHand c es)
    (hfresh : h.fresh.text ∉ c.issued) (hcalled : Called h es es' gone) :
    Once { c with issued := h.fresh.text :: c.issued } es' (archived ++ gone) := by
  have hmore : c.issued ⊆ h.fresh.text :: c.issued := List.subset_cons_self ..
  cases hcalled with
  | kept =>
      rw [List.append_nil]
      exact ho.edit hmore (fun e he => .inl (List.mem_map_of_mem he)) fun _ _ => .inl
  | added identity branch node =>
      rw [List.append_nil]
      refine ho.edit hmore (List.forall_mem_append.mpr ⟨fun e he => ?_, ?_⟩) fun _ _ => .inl
      · exact .inl (List.mem_map_of_mem he)
      · exact List.forall_mem_singleton.mpr (.inr hfresh)
  | resolved entries conflict =>
      subst entries
      rw [List.append_nil]
      refine ho.edit hmore (fun e he => .inl ?_) fun _ _ => .inl
      have hmem := List.mem_map_of_mem (f := (·.id)) he
      simpa [Entry.asResolved] using hmem
  | @skipped front back e _ entries unmerged free archiving =>
      subst entries
      have hsub : (front ++ back).Sublist (front ++ e :: back) :=
        (List.Sublist.refl front).append (List.sublist_cons_self ..)
      have hmem : e ∈ front ++ e :: back := by simp
      have hrest : Once { c with issued := h.fresh.text :: c.issued } (front ++ back) archived :=
        ho.edit hmore (fun f hf => .inl (List.mem_map_of_mem (hsub.subset hf))) fun _ _ => .inl
      rcases archiving with rfl | ⟨stamp, rfl⟩
      · rwa [List.append_nil]
      · refine hrest.file (hmore (hin.issued e hmem)) ?_ ?_ ?_
        · have hids := hin.ids
          rw [List.map_append, List.map_cons, List.nodup_middle, ← List.map_append] at hids
          intro f hf hid
          exact (List.nodup_cons.mp hids).1 (List.mem_map.mpr ⟨f, hf, hid⟩)
        · intro p' f hf hid
          exact unmerged ((hin.recorded p' f hf).found e hmem hid.symm)
        · exact fun b hb hid => ho.left b hb e hmem hid.symm

theorem Once.acted (ho : Once c es archived) (hin : InHand c es) (hcalm : c.Calm)
    (hacted : Acted p c es c' es' gone) : Once c' es' (archived ++ gone) := by
  cases hacted with
  | worked stage knows worked =>
      obtain ⟨issued, left, recorded, once⟩ := ho.worked hin hcalm stage worked
      exact ⟨issued, left, recorded, once⟩
  | called stage knows fresh called =>
      obtain ⟨issued, left, recorded, once⟩ := ho.called hin fresh called
      exact ⟨issued, left, recorded, once⟩

end Merge

namespace MergeQueue

variable {q : MergeQueue} {kept : List String} {s t u : Store} {c c' : Crowd} {past : List Crowd}
  {es : List Entry} {archived : List Archived} {p : Pipeline} {node : String} {i j : UInt32}

/-! ## Reading the archive -/

theorem Archives.of_keeps (harchive : q.Archives s archived) (hkeeps : s.Keeps q.archive t) :
    q.Archives t archived :=
  hkeeps.contents.trans harchive

theorem Archives.perform_archived (harchive : q.Archives s archived) (hfound : s.Found q.archive)
    (h : Host) : q.archived.perform h s = (.ok archived, s) :=
  perform_readLog Archived.logged hfound harchive h

/-- Whatever reading the archive gives is what it holds, or nothing. -/
theorem Archives.read (harchive : q.Archives s archived) {h : Host} {as : List Archived}
    (hperform : q.archived.perform h s = (.ok as, t)) : as = archived ∨ as = [] := by
  by_cases hfound : s.Found q.archive
  · rw [harchive.perform_archived hfound] at hperform
    cases hperform
    exact .inl rfl
  · have hread : ∃ fault, s.readText q.archive = .error fault := by
      rw [Store.readText, Store.readBytes]
      rcases hfind : s.find q.archive with fault | ⟨bytes, modified⟩ | ⟨⟩
      · exact ⟨fault, rfl⟩
      · exact absurd ⟨bytes, modified, hfind⟩ hfound
      · exact ⟨.isDirectory, rfl⟩
    obtain ⟨fault, hread⟩ := hread
    rw [MergeQueue.archived, readLog, perform_bind, perform_readingIfThere, hread] at hperform
    cases fault with
    | notFound =>
        cases hperform
        exact .inr rfl
    | _ => cases hperform

/-! ## Courses in which no entry is recorded by two at once -/

/-- What is in the queue, in hand and in the archive belongs together, and nothing is archived
twice. -/
structure Filing (q : MergeQueue) (c : Crowd) (es : List Entry) (archived : List Archived) : Prop
    extends q.Attended c es where
  archive : q.Archives c.store archived
  once : Once c es archived

theorem Filing.step (h : q.Filing c es archived)
    (hi : ∀ path ∈ [q.queueFile, q.archive], q.integrator.Keeps path) (hcalm : c.Calm)
    (hstep : q.Step [q.queueFile, q.archive] c c') :
    ∃ es' archived', q.Filing c' es' archived' := by
  have hqueue := hi q.queueFile (by simp)
  cases hstep with
  | arrive absent => exact ⟨es, archived, h.toAttended.put rfl rfl, h.archive, h.once.put rfl⟩
  | act act =>
      obtain ⟨es', gone, hleaves, hacted⟩ := h.shows.acted h.apart hqueue act
      exact ⟨es', archived ++ gone, h.toAttended.act hleaves hacted,
        (hleaves.files (hi q.archive (by simp))).archives h.archive,
        h.once.acted h.inHand hcalm hacted⟩
  | again answered => exact ⟨es, archived, h.toAttended.put rfl rfl, h.archive, h.once.put rfl⟩
  | leave p => exact ⟨es, archived, h.toAttended.put rfl rfl, h.archive, h.once.put rfl⟩
  | cut act queue archive =>
      obtain ⟨es', gone, hleaves, hacted⟩ := h.shows.acted h.apart hqueue act
      obtain ⟨issued, left, recorded, once⟩ :=
        (h.once.acted h.inHand hcalm hacted).of_append.put (p := _) (x := none) rfl
      exact ⟨es', archived, ((h.toAttended.act hleaves hacted).put rfl rfl).aside queue,
        h.archive.of_keeps archive, issued, left, recorded, once⟩
  | aside others =>
      obtain ⟨issued, left, recorded, once⟩ := h.once
      exact ⟨es, archived, h.toAttended.aside (others q.queueFile (by simp)),
        h.archive.of_keeps (others q.archive (by simp)), issued, left, recorded, once⟩

/-- From an empty queue and an empty archive on, in every order of the steps of any number of
processes, of which any can end at any point, no entry is archived twice, if no two processes
are ever recording one entry at the same time. -/
theorem course_archived_once (ha : q.Apart s) (hs : q.Shows s []) (harchive : q.Archives s [])
    (hi : ∀ path ∈ [q.queueFile, q.archive], q.integrator.Keeps path)
    (hcourse : q.Course [q.queueFile, q.archive] s past c) (hcalm : ∀ d ∈ past, d.Calm) :
    ∃ archived, q.Archives c.store archived ∧ (archived.map (·.entry.id)).Nodup ∧
      ∀ h as t, q.archived.perform h c.store = (.ok as, t) → as = archived ∨ as = [] := by
  suffices hfiling : ∃ es archived, q.Filing c es archived by
    obtain ⟨es, archived, hfiling⟩ := hfiling
    exact ⟨archived, hfiling.archive, hfiling.once.once, fun _ _ _ => hfiling.archive.read⟩
  induction hcourse with
  | start => exact ⟨[], [], ⟨ha, hs, inHand_start s⟩, harchive, once_start s⟩
  | step _ hstep ih =>
      obtain ⟨hbefore, hlast⟩ := List.forall_mem_append.mp hcalm
      obtain ⟨es, archived, hfiling⟩ := ih hbefore
      exact hfiling.step hi (hlast _ (List.mem_singleton.mpr rfl)) hstep

theorem course_archived_once_acceptedStore : ∃ q s past c e a, Apart q s ∧ q.Shows s [] ∧
    q.Archives s [] ∧ (∀ path ∈ [q.queueFile, q.archive], q.integrator.Keeps path) ∧
    q.Course [q.queueFile, q.archive] s past c ∧ (∀ d ∈ past, d.Calm) ∧
    c.stage 1 = some (.done (.ok (.merged e))) ∧ c.stage 2 = some .idle ∧
    q.Archives c.store [a] ∧ a.entry = e ∧
    ∃ archived, q.Archives c.store archived ∧ (archived.map (·.entry.id)).Nodup ∧
      ∀ h as t, q.archived.perform h c.store = (.ok as, t) → as = archived ∨ as = [] := by
  have hq := smooth_smoothQueue
  have hcalm : ∀ a c, IsPair c 1 a 2 .idle → c.Calm := fun _ _ hpair => hpair.calm rfl
  obtain ⟨e, k, p, hclear, hnode, hseq, hfinishing⟩ :=
    reaches_acceptedStore [smoothQueue.queueFile, smoothQueue.archive] (Q := Crowd.Calm) fun _ => id
  rw [← hnode] at hfinishing
  have hmarked := hfinishing.mark hq (hcalm _) hclear
  have hmoving := hmarked.look hq (e := e.asMerged) (hcalm _)
  obtain ⟨p', hremoving⟩ := hmoving.move hq (hcalm _) hseq
  obtain ⟨stamp, past, c, hcourse, hpast, hpair, -, harchive⟩ := hremoving.remove (hcalm _)
  have ha : smoothQueue.Apart acceptedStore := apart_localQueue _
  have hi : ∀ path ∈ [smoothQueue.queueFile, smoothQueue.archive],
      smoothQueue.integrator.Keeps path := fun _ _ => Integrator.keeps_still _ _
  exact ⟨smoothQueue, _, past, c, e.asMerged, _, ha, shows_acceptedStore _, archives_acceptedStore,
    hi, hcourse, hpast, hpair.first, hpair.second, harchive, rfl,
    course_archived_once ha (shows_acceptedStore _) archives_acceptedStore hi hcourse hpast⟩

/-! ## Two records of one merge -/

/-- In every queue that nothing hinders, two processes can record the same merge: the second one
sees the merged head before the first one has taken it out of the queue. -/
theorem Primed.recorded_twice (hp : q.Primed s [] p node .validated) (hq : q.Smooth)
    (hseq : p.checkpointSeq.toNat + 2 < 2 ^ 63) (harchive : q.Archives s []) (kept : List String)
    (hij : AreNumbers i j) : ∃ past c e a b, q.Course kept s past c ∧
      c.stage i = some (.done (.ok (.merged e))) ∧ c.stage j = some (.done (.ok (.merged e))) ∧
      q.Shows c.store [] ∧ (∀ h, q.archived.perform h c.store = (.ok [a, b], c.store)) ∧
      a.entry = e ∧ b.entry = e := by
  obtain ⟨e, k, p₁, hclear, rfl, hseq₁, hfinishing⟩ :=
    hp.reaches_finishing hq hseq harchive kept hij (Q := fun _ => True) fun _ _ => trivial
  have hmarked := hfinishing.mark hq (fun _ _ => trivial) hclear
  have hseen := hmarked.swap.see hq (fun _ _ => trivial) rfl
  -- The first process records the merge to the end,
  have hmoving := hseen.swap.look hq (e := e.asMerged) (fun _ _ => trivial)
  obtain ⟨p₂, hremoving⟩ := hmoving.move hq (fun _ _ => trivial) hseq₁
  obtain ⟨stamp₁, hdone₁⟩ := hremoving.remove fun _ _ => trivial
  -- and the second one goes on with what it has seen.
  have hremoving' := hdone₁.swap.look hq (e := e.asMerged) (fun _ _ => trivial)
  obtain ⟨stamp₂, hdone₂⟩ := hremoving'.remove fun _ _ => trivial
  obtain ⟨past, c, hcourse, -, hpair, hprimed, harchive'⟩ := hdone₂
  have hnone : ([e.asMerged].filter (·.id ≠ e.asMerged.id)).filter (·.id ≠ e.asMerged.id) = [] := by
    simp
  have hshows := hprimed.shows
  rw [hnone] at hshows
  exact ⟨past, c, e.asMerged, _, _, hcourse, hpair.second, hpair.first, hshows,
    harchive'.perform_archived (hprimed.unhindered.found q.archive (by simp [files])), rfl, rfl⟩

/-- In the working directory the archive can tell of one merge twice. -/
theorem recorded_twice_acceptedStore : ∃ past c e a b,
    smoothQueue.Course smoothQueue.files acceptedStore past c ∧
    smoothQueue.Shows acceptedStore [] ∧ smoothQueue.Archives acceptedStore [] ∧
    c.stage 1 = some (.done (.ok (.merged e))) ∧ c.stage 2 = some (.done (.ok (.merged e))) ∧
    smoothQueue.archived.perform someHost c.store = (.ok [a, b], c.store) ∧
    a.entry.id = b.entry.id := by
  obtain ⟨p, hprimed, hseq⟩ := primed_smoothQueue
  obtain ⟨past, c, e, a, b, hcourse, hfirst, hsecond, -, hread, ha, hb⟩ :=
    hprimed.recorded_twice smooth_smoothQueue hseq archives_acceptedStore smoothQueue.files
      areNumbers_one_two
  exact ⟨past, c, e, a, b, hcourse, hprimed.shows, archives_acceptedStore, hfirst, hsecond,
    hread someHost, by rw [ha, hb]⟩

end MergeQueue

end Pipewright
