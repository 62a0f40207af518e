import Pipewright.Proofs.Signal.Shelves

/-!
# What the calls of a mailbox do

A store shows what is in a mailbox: the signals that wait, in the order of their
names, and those that have been taken (`Mail`). Sending puts one more signal at
the end of those that wait, and taking moves the first one that is looked for
from the one kind to the other; a call that does not do this changes neither.

The time in front of a new name has to be later than all others. This is what
makes the signal the last one, and keeps it apart from those that were taken.
-/

namespace Pipewright.Mailbox

open Pipewright.Action Signal Store

variable {dir name : String} {s t u : Store} {waiting taken front back : List Letter} {m : Letter}
  {h : Host}

/-! ## Letters that wait and letters that were taken -/

theorem isName_processed : Path.IsName "processed" := ⟨by decide, 'd', rfl, by decide⟩

theorem isPlainName_processed : IsPlainName "processed" := ⟨isName_processed, by decide, by decide⟩

/-- A letter that waits stands elsewhere than the directory for those that were taken. -/
theorem ne_processed (hname : isSignalFile name) : name ≠ "processed" := by
  rintro rfl
  exact absurd hname (by decide)

theorem place_processedDir (s : Store) (dir : String) :
    s.place (processedDir dir) = s.place dir ++ ["processed"] :=
  s.place_join dir isName_processed

/-- These signals wait in the mailbox, in order, and these have been taken from it. -/
structure Mail (dir : String) (s : Store) (waiting taken : List Letter) : Prop where
  there : s.isDirectory dir
  waits : Shelf dir s waiting
  archived : Shelf (processedDir dir) s taken
  /-- The directory of the signals that were taken is made when one is. -/
  archive : s.at? (s.place (processedDir dir)) = none ∨
      s.at? (s.place (processedDir dir)) = some .directory
  sorted : (waiting.map (·.1)).Pairwise (· < ·)
  nodup : ((waiting ++ taken).map (·.1)).Nodup

/-- There is room for the path of a signal of this name when it has been taken. -/
structure Fits (dir name : String) : Prop where
  short : (Path.join (processedDir dir) name).utf8ByteSize < 4096

/-- A file that looks like a signal is claimed, if there is room for it. -/
theorem perform_claim_of_hasRoom {bytes : ByteArray} (hdir : s.isDirectory dir)
    (hfile : isSignalFile name)
    (hhas : s.Has (Path.join dir name) (some bytes)) (hroom : s.HasRoom dir "processed" name)
    (h : Host) :
    ∃ t, (claim dir name).perform h s = (.ok (some (Path.join (processedDir dir) name)), t) ∧
      Altered (s.passage dir "processed" name) s t ∧ t.at? (s.place dir ++ [name]) = none ∧
      t.Has (Path.join (processedDir dir) name) (some bytes) ∧
      t.at? (s.place dir ++ ["processed"]) = some .directory := by
  obtain ⟨u, t, hmake, hmove, ht⟩ := moveInto_spec hdir isPlainName_processed
    (isName_of_isSignalFile hfile) (ne_processed hfile) hhas hroom
  refine ⟨t, ?_, ht⟩
  rw [claim, perform_bind, perform_makeDirs, processedDir, hmake]
  dsimp only [Except.mapError]
  rw [perform_bind, perform_get]
  dsimp only
  rw [hmove]
  rfl

namespace Mail

/-- The path to those that have been taken can be followed. -/
theorem origin_processedDir (hs : Mail dir s waiting taken) (hname : Path.IsName name)
    (hfits : Fits dir name) : ∃ start, s.origin (processedDir dir) = .ok start := by
  obtain ⟨start, horigin, -⟩ := locate_eq_ok.mp (isDirectory_iff.mp hs.there).1
  have hsize : (processedDir dir).utf8ByteSize < 4096 := by
    have hle := Path.le_utf8ByteSize_join (processedDir dir) name hname.head_ne
    have hshort := hfits.short
    omega
  exact ⟨start, origin_join horigin isName_processed (by decide) hsize⟩

theorem perm_move (front back taken : List Letter) (m : Letter) :
    ((front ++ back) ++ (taken ++ [m])).Perm ((front ++ m :: back) ++ taken) := by
  rw [← List.append_assoc, List.append_assoc front (m :: back), List.cons_append]
  refine (List.perm_append_singleton m _).trans ?_
  rw [List.append_assoc]
  exact List.perm_middle.symm

/-- A letter that waits has a name that no other one has. -/
theorem ne_of_mem (hs : Mail dir s (front ++ m :: back) taken) :
    (∀ m' ∈ front ++ back, m'.1 ≠ m.1) ∧ ∀ m' ∈ taken, m'.1 ≠ m.1 := by
  have hother : ∀ m' ∈ (front ++ back) ++ taken, m'.1 ≠ m.1 := by
    have hnodup := ((perm_move front back taken m).map (·.1)).nodup_iff.mpr hs.nodup
    rw [← List.append_assoc, List.map_append, List.nodup_append] at hnodup
    intro m' hm'
    exact hnodup.2.2 _ (List.mem_map_of_mem hm') _ (List.mem_singleton_self _)
  exact List.forall_mem_append.mp hother

/-- A letter that has been moved is among those that have been taken. -/
theorem moved (hs : Mail dir s (front ++ m :: back) taken)
    (haltered : Altered [s.place (processedDir dir), s.place dir ++ [m.1],
      s.place (processedDir dir) ++ [m.1]] s t)
    (hgone : t.at? (s.place dir ++ [m.1]) = none)
    (harrived : t.Has (Path.join (processedDir dir) m.1) (some (bytesOf m.2)))
    (hthere : t.at? (s.place (processedDir dir)) = some .directory) :
    Mail dir t (front ++ back) (taken ++ [m]) := by
  have hmail := hs.waits.mail m (by simp)
  obtain ⟨hwaiting, htaken⟩ := hs.ne_of_mem
  refine ⟨haltered.isDirectory hs.there, ?_, ?_, .inr ?_, ?_, ?_⟩
  · have hplaces : ∀ name, isSignalFile name →
        s.place dir ++ [name]
          ∉ [s.place (processedDir dir), s.place (processedDir dir) ++ [m.1]] := by
      intro name hname
      simpa [place_processedDir] using ne_processed hname
    exact hs.waits.remove (haltered.mono (by simp)) hplaces hwaiting hgone
  · have hplaces : ∀ name, isSignalFile name →
        s.place (processedDir dir) ++ [name]
          ∉ [s.place (processedDir dir), s.place dir ++ [m.1]] := by
      intro name _
      simp [place_processedDir]
    exact hs.archived.concat (haltered.mono (by simp)) hplaces hmail htaken harrived
  · rw [place_eq haltered.home, hthere]
  · have hsub : (front ++ back).Sublist (front ++ m :: back) :=
      List.Sublist.append_left (List.sublist_cons_self m back) front
    exact hs.sorted.sublist (hsub.map _)
  · exact ((perm_move front back taken m).map _).nodup_iff.mpr hs.nodup

/-- There is room for a letter that waits where the ones are that have been taken. -/
theorem hasRoom (hs : Mail dir s waiting taken) (hfile : isSignalFile name)
    (hnew : ∀ m' ∈ taken, m'.1 ≠ name) (hfits : Fits dir name) :
    s.HasRoom dir "processed" name where
  short := hfits.short
  within := by
    rw [IsClear, ← place_processedDir]
    exact hs.archive
  free := by
    have hnone := hs.archived.at?_eq_none hfile hnew
    rw [place_processedDir, List.append_assoc] at hnone
    change s.at? (s.place dir ++ (["processed"] ++ [name])) ≠ _
    rw [hnone]
    simp

/-- A letter that waits is claimed, and from then on it is among those that have been taken. -/
theorem perform_claim (hs : Mail dir s (front ++ m :: back) taken) (hfits : Fits dir m.1)
    (h : Host) :
    ∃ t, (claim dir m.1).perform h s = (.ok (some (Path.join (processedDir dir) m.1)), t) ∧
      Mail dir t (front ++ back) (taken ++ [m]) := by
  have hm : m ∈ front ++ m :: back := by simp
  have hfile := (hs.waits.mail m hm).file
  obtain ⟨t, hclaim, haltered, hgone, harrived, hthere⟩ := perform_claim_of_hasRoom hs.there hfile
    (hs.waits.holds m hm) (hs.hasRoom hfile hs.ne_of_mem.2 hfits) h
  refine ⟨t, hclaim, hs.moved ?_ hgone harrived ?_⟩
  · rw [place_processedDir, List.append_assoc]
    exact haltered
  · rwa [place_processedDir]

/-- The letters that have been taken are the ones that are read. -/
theorem perform_processed (hs : Mail dir s waiting taken) (hname : Path.IsName name)
    (hfits : Fits dir name) (h : Host) :
    ∃ ms, (processed dir).perform h s = (.ok ms, s) ∧ ∀ m, m ∈ ms ↔ m ∈ taken := by
  obtain ⟨start, horigin⟩ := hs.origin_processedDir hname hfits
  have hlocate : s.locate (processedDir dir) = .ok (s.place (processedDir dir)) := by
    rw [place_processedDir]
    exact locate_join hs.there isName_processed horigin (by decide)
  rcases hs.archive with hnone | hthere
  · have hlist : s.list (processedDir dir) = .error .notFound := by
      rw [list, Store.find, hlocate]
      simp only [bind, Except.bind, hnone]
      rfl
    have hnil : taken = [] := by
      rw [List.eq_nil_iff_forall_not_mem]
      intro m hm
      obtain ⟨modified, hfind⟩ := hs.archived.holds m hm
      obtain ⟨_, horigin, hfollow⟩ := locate_eq_ok.mp (find_eq_file.mp hfind).1
      have hheld := isHeld_follow (isHeld_origin horigin) hfollow
      rw [s.place_join _ (hs.archived.mail m hm).name] at hheld
      have hdir := hheld (s.place (processedDir dir)) (List.prefix_append ..) (by simp)
      rw [hnone] at hdir
      cases hdir
    rw [hnil, processed, perform_pending_of_missing hlist]
    exact ⟨[], rfl, fun m => Iff.rfl⟩
  · exact hs.archived.perform_pending (isDirectory_iff.mpr ⟨hlocate, hthere⟩) h

/-! ## Taking -/

/-- A letter that is not looked for is left where it is. -/
theorem perform_takeFrom_skip (hs : Mail dir s waiting taken) (hm : m ∈ waiting) {f : Filter}
    (hno : ¬f.accepts m.2) (names : List String) (h : Host) :
    (takeFrom dir f (m.1 :: names)).perform h s = (takeFrom dir f names).perform h s := by
  have hread : signalOf? (bytesOf m.2) = some m.2 := signalOf?_pretty (hs.waits.mail m hm).readable
  rw [takeFrom, perform_bind, perform_readFile?_of_has (hs.waits.holds m hm)]
  dsimp only
  rw [hread]
  dsimp only
  rw [if_neg hno]

theorem perform_takeFrom_take (hs : Mail dir s (front ++ m :: back) taken) (hfits : Fits dir m.1)
    {f : Filter} (haccepts : f.accepts m.2) (names : List String) (h : Host) :
    ∃ t, (takeFrom dir f (m.1 :: names)).perform h s
        = (.ok (some ⟨m.2, m.1, Path.join (processedDir dir) m.1⟩), t) ∧
      Mail dir t (front ++ back) (taken ++ [m]) := by
  have hm : m ∈ front ++ m :: back := by simp
  have hread : signalOf? (bytesOf m.2) = some m.2 := signalOf?_pretty (hs.waits.mail m hm).readable
  obtain ⟨t, hclaim, ht⟩ := hs.perform_claim hfits h
  have hfile := perform_readFile?_of_has (hs.waits.holds m hm) h
  exact ⟨t, perform_takeFrom_of_claim hfile hread haccepts hclaim names, ht⟩

/-- Of the letters with these names, which are in order, the first one that is looked for is taken.
-/
theorem perform_takeFrom (hs : Mail dir s waiting taken) (hfits : ∀ m ∈ waiting, Fits dir m.1)
    (f : Filter) {names : List String} (hnames : ∀ name ∈ names, ∃ m ∈ waiting, m.1 = name)
    (hsorted : names.Pairwise (· ≤ ·)) (h : Host) :
    ((takeFrom dir f names).perform h s = (.ok none, s) ∧
      ∀ m ∈ waiting, m.1 ∈ names → ¬f.accepts m.2) ∨
    ∃ front m back t, waiting = front ++ m :: back ∧ f.accepts m.2 ∧
      (∀ m' ∈ waiting, m'.1 ∈ names → f.accepts m'.2 → m.1 ≤ m'.1) ∧
      (takeFrom dir f names).perform h s
        = (.ok (some ⟨m.2, m.1, Path.join (processedDir dir) m.1⟩), t) ∧
      Mail dir t (front ++ back) (taken ++ [m]) := by
  induction names with
  | nil => exact .inl ⟨rfl, fun _ _ hmem => by cases hmem⟩
  | cons name names ih =>
    obtain ⟨m, hm, rfl⟩ := hnames name (List.mem_cons_self ..)
    obtain ⟨hleast, hrest⟩ := List.pairwise_cons.mp hsorted
    by_cases haccepts : f.accepts m.2
    · obtain ⟨front, back, rfl⟩ := List.append_of_mem hm
      obtain ⟨t, hperform, ht⟩ := hs.perform_takeFrom_take (hfits m hm) haccepts names h
      refine .inr ⟨front, m, back, t, rfl, haccepts, ?_, hperform, ht⟩
      intro m' _ hmem _
      rcases List.mem_cons.mp hmem with heq | hlater
      · exact heq ▸ String.le_refl _
      · exact hleast _ hlater
    · have hlater : ∀ m' ∈ waiting, m'.1 ∈ m.1 :: names → f.accepts m'.2 → m'.1 ∈ names := by
        intro m' hm' hmem haccepts'
        rcases List.mem_cons.mp hmem with heq | hlater
        · have hnodup : (waiting.map (·.1)).Nodup := hs.sorted.imp fun hlt => String.ne_of_lt hlt
          obtain rfl := List.inj_on_of_nodup_map hnodup hm' hm heq
          exact absurd haccepts' haccepts
        · exact hlater
      rw [hs.perform_takeFrom_skip hm haccepts]
      rcases ih (fun other hother => hnames other (List.mem_cons_of_mem _ hother)) hrest with
        ⟨hperform, hnone⟩ | ⟨front, m', back, t, hsplit, haccepts', hmin, hperform, ht⟩
      · refine .inl ⟨hperform, ?_⟩
        intro m' hm' hmem haccepts'
        exact hnone m' hm' (hlater m' hm' hmem haccepts') haccepts'
      · refine .inr ⟨front, m', back, t, hsplit, haccepts', ?_, hperform, ht⟩
        intro m'' hm'' hmem haccepts''
        exact hmin m'' hm'' (hlater m'' hm'' hmem haccepts'') haccepts''

/-- The first letter that is looked for is taken, and nothing is done if there is none. -/
theorem perform_take? (hs : Mail dir s waiting taken) (hfits : ∀ m ∈ waiting, Fits dir m.1)
    (f : Filter) (h : Host) :
    ((take? dir f).perform h s = (.ok none, s) ∧ ∀ m ∈ waiting, ¬f.accepts m.2) ∨
    ∃ front m back t, waiting = front ++ m :: back ∧ f.accepts m.2 ∧
      (∀ m' ∈ front, ¬f.accepts m'.2) ∧
      (take? dir f).perform h s = (.ok (some ⟨m.2, m.1, Path.join (processedDir dir) m.1⟩), t) ∧
      Mail dir t (front ++ back) (taken ++ [m]) := by
  obtain ⟨names, hfiles, hsorted, hmem⟩ := hs.waits.perform_files hs.there h
  have htake : (take? dir f).perform h s = (takeFrom dir f names).perform h s := by
    rw [take?, perform_bind, hfiles]
  rw [htake]
  rcases hs.perform_takeFrom hfits f (fun name hname => (hmem name).mp hname) hsorted h with
    ⟨hperform, hnone⟩ | ⟨front, m, back, t, rfl, haccepts, hmin, hperform, ht⟩
  · exact .inl ⟨hperform, fun m hm => hnone m hm ((hmem m.1).mpr ⟨m, hm, rfl⟩)⟩
  · refine .inr ⟨front, m, back, t, rfl, haccepts, ?_, hperform, ht⟩
    intro m' hm' haccepts'
    have hm : m' ∈ front ++ m :: back := List.mem_append_left _ hm'
    have hle := hmin m' hm ((hmem m'.1).mpr ⟨m', hm, rfl⟩) haccepts'
    have hlt : m'.1 < m.1 := by
      have hsorted := hs.sorted
      rw [List.map_append, List.pairwise_append] at hsorted
      exact hsorted.2.2 _ (List.mem_map_of_mem hm') _ (List.mem_cons_self ..)
    exact String.not_le.mpr hlt hle

/-- A letter that has been put behind all others is the last one that waits. -/
theorem concat (hs : Mail dir s waiting taken) (hm : m.IsMail)
    (hput : Altered [s.place (Path.join dir m.1)] s t)
    (hhas : t.Has (Path.join dir m.1) (some (bytesOf m.2))) (hlast : ∀ m' ∈ waiting, m'.1 < m.1)
    (hnew : ∀ m' ∈ taken, m'.1 ≠ m.1) : Mail dir t (waiting ++ [m]) taken := by
  have hplace := s.place_join dir hm.name
  have hnone : ∀ m' ∈ waiting, m'.1 ≠ m.1 := fun m' hm' => String.ne_of_lt (hlast m' hm')
  rw [hplace] at hput
  refine ⟨hput.isDirectory hs.there, ?_, ?_, ?_, ?_, ?_⟩
  · exact @Shelf.concat _ _ _ _ _ [] hs.waits hput (by simp) hm hnone hhas
  · exact hs.archived.of_altered hput fun name _ => by simp [place_processedDir]
  · rw [place_eq hput.home,
      hput.kept _ (by simpa [place_processedDir] using (ne_processed hm.file).symm)]
    exact hs.archive
  · rw [List.map_append, List.pairwise_append]
    exact ⟨hs.sorted, List.pairwise_singleton _ _, by simpa using fun name s hmem => hlast _ hmem⟩
  · have hperm := perm_move waiting [] taken m
    rw [List.append_nil, ← List.append_assoc] at hperm
    rw [← (hperm.map _).nodup_iff, List.map_append, List.nodup_append]
    refine ⟨hs.nodup, List.nodup_singleton _, ?_⟩
    intro name hname other hother
    obtain ⟨m', hm', rfl⟩ := List.mem_map.mp hname
    obtain rfl := List.mem_singleton.mp hother
    exact (List.mem_append.mp hm').elim (hnone m') (hnew m')

end Mail

/-! ## What can be taken -/

theorem fits_of_claim {target : String}
    (hclaim : (claim dir name).perform h s = (.ok (some target), t)) :
    Fits dir name := by
  rw [claim, perform_bind, perform_makeDirs] at hclaim
  rcases hmake : s.makeDirs (processedDir dir) with ⟨fault | ⟨⟩, u⟩ <;> rw [hmake] at hclaim
  · cases hclaim
  · dsimp only [Except.mapError] at hclaim
    rw [perform_bind, perform_get] at hclaim
    dsimp only at hclaim
    rcases hmove : u.move (Path.join dir name) (Path.join (processedDir dir) name) with
      ⟨fault | ⟨⟩, v⟩
    · rw [hmove] at hclaim
      cases fault <;> cases hclaim
    · exact ⟨lt_of_move hmove⟩

/-- What is taken is one of the files that were looked at, and there is room for its path. -/
theorem fits_of_takeFrom {f : Filter} {names : List String} {r : Received}
    (htake : (takeFrom dir f names).perform h s = (.ok (some r), t)) :
    r.fileName ∈ names ∧ Fits dir r.fileName := by
  induction names generalizing s with
  | nil => cases htake
  | cons name names ih =>
    have hlater : ∀ {u : Store}, (takeFrom dir f names).perform h u = (.ok (some r), t) →
        r.fileName ∈ name :: names ∧ Fits dir r.fileName :=
      fun hrest => (ih hrest).imp_left (List.mem_cons_of_mem name)
    rw [takeFrom, perform_bind] at htake
    rcases hread : (readFile? dir name).perform h s with ⟨err | bytes, u⟩ <;> rw [hread] at htake
    · cases htake
    · dsimp only at htake
      cases bytes with
      | none => exact hlater htake
      | some bytes =>
        dsimp only at htake
        cases hsignal : signalOf? bytes with
        | none =>
          rw [hsignal] at htake
          dsimp only at htake
          rw [perform_bind] at htake
          rcases hreject : (reject dir name).perform h u with
            ⟨err | ⟨⟩, v⟩ <;> rw [hreject] at htake
          · cases htake
          · exact hlater htake
        | some signal =>
          rw [hsignal] at htake
          dsimp only at htake
          split at htake
          · rw [perform_bind] at htake
            rcases hclaim : (claim dir name).perform h u with ⟨err | target, v⟩ <;>
              rw [hclaim] at htake
            · cases htake
            · cases target with
              | none => exact hlater htake
              | some target =>
                obtain ⟨hr, -⟩ := Prod.mk.inj htake
                obtain rfl := Option.some.inj (Except.ok.inj hr)
                exact ⟨List.mem_cons_self .., fits_of_claim hclaim⟩
          · exact hlater htake

/-- Only files with the names of signals are taken, and only if there is room for their paths. -/
theorem fits_of_take? {f : Filter} {r : Received}
    (htake : (take? dir f).perform h s = (.ok (some r), t)) :
    isSignalFile r.fileName ∧ Fits dir r.fileName := by
  rw [take?, perform_bind, files, perform_bind] at htake
  rcases hlist : (readingIfThere (·.list dir)).perform h s with ⟨err | names, u⟩ <;>
    rw [hlist] at htake
  · cases htake
  · obtain ⟨hmem, hfits⟩ := fits_of_takeFrom htake
    exact ⟨(List.mem_filter.mp hmem).2, hfits⟩

/-! ## Sending -/

/-- A signal that is sent at a time, under its name. -/
def letterOf (sender recipient : String) (type : SignalType) (payload : Json) (now : Instant) :
    Letter :=
  (fileName sender recipient type now, ⟨sender, recipient, type, payload, now.text⟩)

variable {sender recipient text : String} {type : SignalType} {payload : Json}

theorem isMail_letterOf {now : Instant} (hfree : payload.isFree) (hnesting : payload.nesting ≤ 126)
    (hdated : now.IsDated) : (letterOf sender recipient (.ofText text) payload now).IsMail where
  file := isSignalFile_fileName sender recipient _ hdated
  name := isName_fileName sender recipient _ now
  readable := ⟨SignalType.ofText_name text, hfree, hnesting⟩

/-- The letter has been put into the mailbox at one of the times that were read, and nothing else
has been changed, or the call was refused and nothing has happened. -/
def Posted (dir sender recipient : String) (type : SignalType) (payload : Json) (h : Host)
    (s : Store)
    (r : Except Error String × Store) : Prop :=
  (∃ err, r = (.error err, s)) ∨
  ∃ k t, r = (.ok (Path.join dir (letterOf sender recipient type payload (h.clock k)).1), t) ∧
    Altered [s.place (Path.join dir (letterOf sender recipient type payload (h.clock k)).1)] s t ∧
    t.Has (Path.join dir (letterOf sender recipient type payload (h.clock k)).1)
      (some (bytesOf (letterOf sender recipient type payload (h.clock k)).2))

/-- A file for the letter is written, or that is refused and nothing has happened. -/
theorem perform_put (dir : String) (m : Letter) (now : Instant) (h : Host) (s : Store) :
    (∃ err, (writing (·.putFile (Path.join dir m.1) now fun _ => bytesOf m.2)).perform h s
      = (.error err, s)) ∨
    ∃ t, (writing (·.putFile (Path.join dir m.1) now fun _ => bytesOf m.2)).perform h s
      = (.ok (), t) ∧
      Altered [s.place (Path.join dir m.1)] s t ∧
        t.Has (Path.join dir m.1) (some (bytesOf m.2)) := by
  have haltered := (s.putFile_spec (Path.join dir m.1) now fun _ => bytesOf m.2).altered
  have hhas := @find_putFile s (Path.join dir m.1) now fun _ => bytesOf m.2
  rw [perform_writing]
  rcases hput : s.putFile (Path.join dir m.1) now fun _ => bytesOf m.2 with ⟨fault | ⟨⟩, t⟩
  · rw [putFile_eq_error_snd hput]
    exact .inl ⟨_, rfl⟩
  · rw [hput] at haltered hhas
    exact .inr ⟨t, rfl, haltered, (hhas rfl).2.2⟩

theorem posted_sendFrom (dir sender recipient : String) (type : SignalType) (payload : Json)
    (h : Host)
    (s : Store) (left k : Nat) : Posted dir sender recipient type payload h s
      ((sendFrom dir sender recipient type payload left k).perform h s) := by
  induction left generalizing k with
  | zero => exact .inl ⟨_, rfl⟩
  | succ left ih =>
    have hput := perform_put dir (letterOf sender recipient type payload (h.clock k))
      (h.clock k) h s
    dsimp only [letterOf, bytesOf] at hput
    rw [sendFrom, perform_bind, perform_read]
    dsimp only
    rw [perform_bind, perform_get]
    dsimp only
    split
    · exact ih (k + 1)
    · rw [perform_bind]
      rcases hput with ⟨err, hput⟩ | ⟨t, hput, ht⟩ <;> rw [hput]
      · exact .inl ⟨err, rfl⟩
      · exact .inr ⟨k, t, rfl, ht⟩

theorem posted_send (hthere : s.isDirectory dir) (sender recipient : String) (type : SignalType)
    (payload : Json) (h : Host) : Posted dir sender recipient type payload h s
      ((send dir sender recipient type payload).perform h s) := by
  have hsend := posted_sendFrom dir sender recipient type payload h s sendAttempts 0
  rw [send, perform_bind, perform_makeDirs, makeDirs_of_isDirectory hthere]
  dsimp only [Except.mapError]
  rw [perform_bind, perform_reading]
  cases s.origin (s.draft dir) with
  | error fault => exact .inl ⟨_, rfl⟩
  | ok start =>
    dsimp only [Except.mapError]
    exact hsend

/-- A signal is sent if there is room for it and for its draft, and nothing stands in its place. -/
theorem perform_send_of_site {start place : List String} (hthere : s.isDirectory dir)
    (hdraft : s.origin (s.draft dir) = .ok start)
    (hsite : s.site (Path.join dir (fileName sender recipient type (h.clock 0))) = .ok place)
    (hnone : s.at? place = none) :
    ∃ t, (send dir sender recipient type payload).perform h s
      = (.ok (Path.join dir (fileName sender recipient type (h.clock 0))), t) := by
  obtain ⟨hlocate, -, -⟩ := site_eq_ok hsite
  have hmissing : s.exists? (Path.join dir (fileName sender recipient type (h.clock 0)))
      = false := by
    rw [exists?, Store.find, hlocate]
    simp only [bind, Except.bind, hnone]
    rfl
  have hput : ∀ f, (s.putFile (Path.join dir (fileName sender recipient type (h.clock 0)))
      (h.clock 0) f).1 = .ok () := by
    intro f
    rw [putFile, create, hsite]
    simp [hnone]
  rw [send, perform_bind, perform_makeDirs, makeDirs_of_isDirectory hthere]
  dsimp only [Except.mapError]
  rw [perform_bind, perform_reading, hdraft]
  dsimp only [Except.mapError]
  rw [sendAttempts, sendFrom, perform_bind, perform_read]
  dsimp only
  rw [perform_bind, perform_get]
  dsimp only
  rw [hmissing, if_neg Bool.false_ne_true, perform_bind, perform_writing, hput]
  exact ⟨_, rfl⟩

namespace Mail

/-- A signal is sent, or it is refused and nothing has happened. If it is later than all others it
is the last one that waits. -/
theorem perform_send (hs : Mail dir s waiting taken) (sender recipient text : String)
    (hfree : payload.isFree) (hnesting : payload.nesting ≤ 126)
    (hdated : ∀ k, (h.clock k).IsDated) :
    (∃ err, (send dir sender recipient (.ofText text) payload).perform h s = (.error err, s)) ∨
    ∃ m t, (send dir sender recipient (.ofText text) payload).perform h s
        = (.ok (Path.join dir m.1), t) ∧
      m.2 = ⟨sender, recipient, .ofText text, payload, m.2.timestamp⟩ ∧ m.IsMail ∧
      ((∀ m' ∈ waiting, m'.1 < m.1) → (∀ m' ∈ taken, m'.1 ≠ m.1) →
        Mail dir t (waiting ++ [m]) taken) := by
  rcases posted_send hs.there sender recipient (.ofText text) payload h with
    ⟨err, hperform⟩ | ⟨k, t, hperform, hput, hhas⟩
  · exact .inl ⟨err, hperform⟩
  · have hmail := @isMail_letterOf sender recipient text payload _ hfree hnesting (hdated k)
    exact .inr ⟨_, t, hperform, rfl, hmail, hs.concat hmail hput hhas⟩

end Mail

end Pipewright.Mailbox
