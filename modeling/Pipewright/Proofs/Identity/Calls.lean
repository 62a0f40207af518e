import Pipewright.Identity.Registry
import Pipewright.Proofs.Engine.RecordFiles
import Pipewright.Proofs.Json.Layout

/-!
# What the calls of a registry do

A store shows the identities of a registry, each under its id, and all that the
registry sees as records in its directory is these (`Registry.Standing`). So
looking for the active identity with a role and a name finds one exactly if one
of the identities that are shown is active and has them, and what is written is
written under the id that was read.

This is meant of a directory that is there or can be made. What stands in it is
said of the store after that, since nobody looks before: the first thing that
any call does is to make the directory of the lock, as far as it can.
-/

namespace Pipewright

open Pipewright.Action

theorem Presence.ofName?_name (p : Presence) : Presence.ofName? p.name = some p := by
  cases p <;> decide

namespace Identity

theorem logged : Json.Logged toJson ofDocument? where
  exact := by
    intro i
    have htext : ∀ text : Option String, (Json.ofText? text).isExact := by
      intro text
      cases text <;> rfl
    have hpid : (Json.ofUInt32? i.pid).isExact := by cases i.pid <;> rfl
    simp [toJson, Json.isExact, Json.haveExact, htext, hpid]
  object := fun i => ⟨_, rfl⟩
  reread := by
    intro i
    have hfields := fun fields => @Json.recordFields_document fieldNames fields
    rw [toJson, ofDocument?, hfields _ rfl (by decide)]
    simp [Json.document, Json.required, Json.asText, Json.asWord, Presence.ofName?_name,
      Json.optionalField_ofText?, Json.optionalField_ofUInt32?]

end Identity

/-- The second identity is the first one, apart from when it was seen last and where it stands. -/
def Identity.SameAs (i j : Identity) : Prop :=
    j = { i with lastSeen := j.lastSeen, status := j.status }

namespace Identity.SameAs

variable {i j k : Identity}

theorem refl (i : Identity) : i.SameAs i := rfl

theorem trans (h : i.SameAs j) (h' : j.SameAs k) : i.SameAs k := by
  rw [SameAs] at *
  rw [h', h]

theorem id_eq (h : i.SameAs j) : j.id = i.id := by rw [h]

theorem role_eq (h : i.SameAs j) : j.role = i.role := by rw [h]

theorem name_eq (h : i.SameAs j) : j.name = i.name := by rw [h]

end Identity.SameAs

namespace Registry

variable {r : Registry} {s t u : Store} {f g : String → Option Identity} {h : Host}

def lockFile (r : Registry) : String := Path.join r.dir ".registry.lock"

theorem isName_lockFile : Path.IsName ".registry.lock" := ⟨by decide, 'k', rfl, by decide⟩

/-- The store in which the registry's directory has been made, as far as it can be. -/
def opened (r : Registry) (s : Store) : Store := (s.makeDirs (Store.holder r.lockFile)).2

/-- The store shows the identities, each under its id. -/
abbrev Shows (r : Registry) (s : Store) (f : String → Option Identity) : Prop :=
  s.Records Identity.ofDocument? r.dir f

/-- The store shows the identities, and nothing else in the directory looks like one. -/
structure Standing (r : Registry) (s : Store) (f : String → Option Identity) : Prop where
  dir : r.dir ≠ ""
  shows : r.Shows s f
  ids : ∀ key i, f key = some i → i.id = key
  named : ∀ name, isRecordName name → (r.opened s).at? (s.place r.dir ++ [name]) ≠ none →
    ∃ key i, name = key ++ ".json" ∧ f key = some i

/-- The directory of the registry is there. -/
structure Ready (r : Registry) (s : Store) (f : String → Option Identity) : Prop
    extends r.Standing s f where
  listed : s.isDirectory r.dir
  made : s.isDirectory (Store.holder r.lockFile)

/-! ## The directory -/

theorem opened_of_isDirectory (h : s.isDirectory (Store.holder r.lockFile)) : r.opened s = s := by
  rw [opened, Store.makeDirs_of_isDirectory h]

theorem home_opened (r : Registry) (s : Store) : (r.opened s).home = s.home :=
  (Store.grown_makeDirs [] s (Store.holder r.lockFile)).home

theorem holder_recordFile {key : String} (hkey : isFileKey key) :
    Store.holder (recordFile r.dir key) = Store.holder r.lockFile := by
  rw [recordFile, lockFile, Path.holder_join _ (isName_of_isFileKey hkey),
    Path.holder_join _ isName_lockFile]

theorem place_lockFile (r : Registry) (s : Store) :
    s.place r.lockFile = s.place r.dir ++ [".registry.lock"] :=
  s.place_join r.dir isName_lockFile

/-- Opening the lock makes the directory and the lock file, and nothing else, and once this has
been tried no directory is made any more. -/
theorem at?_opened_openLock (r : Registry) (h : Host) (s : Store) {place : List String}
    (hne : place ≠ s.place r.lockFile) :
    (r.opened ((openLock r.lockFile).perform h s).2).at? place = (r.opened s).at? place := by
  have hhome := r.home_opened s
  have hagain := Store.makeDirs_makeDirs s (Store.holder r.lockFile)
  rw [perform_openLock_eq]
  rcases hmake : s.makeDirs (Store.holder r.lockFile) with ⟨fault | ⟨⟩, t⟩
  · rw [hmake] at hagain
    dsimp only at hagain ⊢
    rw [opened, hagain, opened, hmake]
  · have hopened : r.opened s = t := by rw [opened, hmake]
    have hdir : t.isDirectory (Store.holder r.lockFile) := by
      rw [Store.makeDirs, if_neg (Store.holder_ne_empty _)] at hmake
      exact Store.isDirectory_of_makeInner hmake
    have hgrown := (t.create_spec r.lockFile (h.clock 0)).1
    dsimp only
    rw [opened_of_isDirectory (hgrown.isDirectory hdir), hopened]
    refine hgrown.at?_of_ne id (by simp) ?_
    rwa [Store.place_eq (hopened ▸ hhome)]

theorem isRecordName_append {key : String} (hkey : isFileKey key) :
    isRecordName (key ++ ".json") := by
  have hne : key.toList ≠ [] := by
    intro hnil
    rw [isFileKey, hnil] at hkey
    cases hkey
  have hlength : 0 < key.length := by
    rw [← String.length_toList]
    exact List.length_pos_of_ne_nil hne
  rw [isRecordName, Bool.and_eq_true, List.isSuffixOf_iff_suffix, decide_eq_true_eq,
    String.length_append, String.toList_append]
  exact ⟨List.suffix_append _ _, Nat.lt_add_of_pos_left hlength⟩

/-- What is to be done under the lock is not begun, or it is done in a store whose directory is
there, and the identities are what they were. -/
theorem Standing.locked_cases (hs : r.Standing s f) (h : Host) :
    (∃ err t, r.Standing t f ∧ ∀ {β : Type} (body : Action β),
      (r.locked body).perform h s = (.error err, t)) ∨
    ∃ u held, r.Ready u f ∧ ∀ {β : Type} (body : Action β),
      (r.locked body).perform h s = body.perform { h with held := held } u := by
  obtain ⟨u, hopen, htouched, hcases⟩ := withLockFile_cases r.lockFile r.lockPolicy h s
  have hu : r.Standing u f := by
    refine ⟨hs.dir, hs.shows.of_touched htouched fun key hkey => ?_, hs.ids,
      fun name hname hat => ?_⟩
    · rw [List.mem_singleton, place_lockFile]
      exact Store.place_recordFile_ne hkey (by decide)
    · have hne : s.place r.dir ++ [name] ≠ s.place r.lockFile := by
        rw [place_lockFile, ne_eq, List.append_cancel_left_eq, List.singleton_inj]
        rintro rfl
        exact absurd hname (by decide)
      rw [Store.place_eq htouched.home, ← hopen, at?_opened_openLock r h s hne] at hat
      exact hs.named name hname hat
  rcases hcases with ⟨err, hperform⟩ | ⟨hfound, -, hperform⟩
  · exact .inl ⟨err, u, hu, hperform⟩
  · obtain ⟨bytes, modified, hfind⟩ := hfound
    have hlisted := Store.isDirectory_of_locate_join hs.dir isName_lockFile
      (Store.find_eq_file.mp hfind).1
    exact .inr ⟨u, _, ⟨hu, hlisted, Store.isDirectory_holder hfind⟩, hperform⟩

/-! ## Reading -/

theorem Ready.perform_readAll (hs : r.Ready s f) (h : Host) {names : List String}
    (hnames : ∀ name ∈ names, ∃ key i, name = key ++ ".json" ∧ f key = some i) :
    ∃ is, (r.readAll names).perform h s = (.ok is, s) ∧
      ∀ i, i ∈ is ↔ ∃ key, key ++ ".json" ∈ names ∧ f key = some i := by
  induction names with
  | nil => exact ⟨[], rfl, by simp⟩
  | cons name names ih =>
      obtain ⟨is, hrest, hmem⟩ := ih fun n hn => hnames n (List.mem_cons_of_mem _ hn)
      obtain ⟨key, i, rfl, hf⟩ := hnames name (List.mem_cons_self ..)
      have hholds := hs.shows.holds key (hs.shows.isKey key i hf)
      rw [hf] at hholds
      refine ⟨i :: is, ?_, fun j => ?_⟩
      · have hread := perform_readRecord? hholds h
        rw [readAll, perform_bind, show Path.join r.dir (key ++ ".json")
          = recordFile r.dir key from rfl,
          hread]
        dsimp only
        rw [perform_bind, hrest]
        rfl
      · rw [List.mem_cons, hmem]
        constructor
        · rintro (rfl | ⟨key', hkey', hj⟩)
          · exact ⟨key, List.mem_cons_self .., hf⟩
          · exact ⟨key', List.mem_cons_of_mem _ hkey', hj⟩
        · rintro ⟨key', hkey', hj⟩
          rcases List.mem_cons.mp hkey' with heq | hkey'
          · obtain rfl := (String.append_left_inj _).mp heq
            exact .inl (Option.some.inj (hj.symm.trans hf))
          · exact .inr ⟨key', hkey', hj⟩

/-- All identities that are shown are read, and no other ones. -/
theorem Ready.perform_all (hs : r.Ready s f) (h : Host) :
    ∃ is, r.all.perform h s = (.ok is, s) ∧ ∀ i, i ∈ is ↔ ∃ key, f key = some i := by
  obtain ⟨names, hlist, -, hthere, hfiles⟩ := Store.exists_list hs.listed
  have hnames : ∀ name ∈ names.filter isRecordName, ∃ key i, name = key ++ ".json" ∧
      f key = some i := by
    intro name hname
    obtain ⟨hmem, hrecord⟩ := List.mem_filter.mp hname
    refine hs.named name hrecord ?_
    rw [opened_of_isDirectory hs.made]
    exact hthere name hmem
  obtain ⟨is, hread, hmem⟩ := hs.perform_readAll h hnames
  refine ⟨is.mergeSort ordered, ?_, fun i => ?_⟩
  · rw [all, perform_bind, perform_readingIfThere, hlist]
    dsimp only
    rw [perform_bind, Option.getD_some, hread]
    rfl
  · rw [List.mem_mergeSort, hmem]
    refine exists_congr fun key => ⟨And.right, fun hf => ⟨List.mem_filter.mpr ⟨?_, ?_⟩, hf⟩⟩
    · obtain ⟨bytes, modified, hfind⟩ := hs.shows.found hf
      have hat := (Store.find_eq_file.mp hfind).2.1
      rw [recordFile, Store.place_join _ _ (isName_of_isFileKey (hs.shows.isKey key i hf))] at hat
      exact hfiles _ _ _ hat
    · exact isRecordName_append (hs.shows.isKey key i hf)

/-- The active identity with a role and a name is found, and nothing exactly if there is none. -/
theorem Ready.perform_findActive (hs : r.Ready s f) (role name : String) (h : Host) :
    ∃ x, (r.findActive role name).perform h s = (.ok x, s) ∧
      (x = none → ∀ key i, f key = some i → ¬(i.isActive ∧ i.role = role ∧ i.name = name)) ∧
      ∀ i, x = some i → f i.id = some i ∧ i.isActive ∧ i.role = role ∧ i.name = name := by
  obtain ⟨is, hall, hmem⟩ := hs.perform_all h
  refine ⟨is.find? fun i => i.isActive && i.role = role && i.name = name, ?_, ?_, ?_⟩
  · rw [findActive, perform_bind, hall]
    rfl
  · intro hnone key i hf
    have hno := List.find?_eq_none.mp hnone i ((hmem i).mpr ⟨key, hf⟩)
    simpa [and_assoc] using hno
  · intro i hsome
    obtain ⟨key, hf⟩ := (hmem i).mp (List.mem_of_find?_eq_some hsome)
    have hi := List.find?_some hsome
    simp only [Bool.and_eq_true, decide_eq_true_eq, and_assoc] at hi
    exact ⟨by rw [hs.ids key i hf, hf], hi⟩

/-- The identity with an id is read, or the call is refused. -/
theorem Standing.perform_get (hs : r.Standing s f) (id : String) (h : Host) :
    (∃ i, (r.get id).perform h s = (.ok i, s) ∧ f id = some i) ∨
      ∃ err, (r.get id).perform h s = (.error err, s) := by
  rw [get, perform_recordPath_bind]
  by_cases hkey : isFileKey id
  · rw [if_pos hkey, perform_bind]
    rcases readRecord?_spec (hs.shows.holds id hkey) h with hread | ⟨-, err, hread⟩ <;> rw [hread]
    · cases hf : f id with
      | none => exact .inr ⟨_, rfl⟩
      | some i => exact .inl ⟨i, rfl, rfl⟩
    · exact .inr ⟨err, rfl⟩
  · rw [if_neg hkey]
    exact .inr ⟨_, rfl⟩

/-! ## Writing -/

/-- An identity is written under its id, or that is refused and all are what they were. -/
theorem Ready.perform_write (hs : r.Ready s f) (i : Identity) (h : Host) :
    (∃ t, (r.write i).perform h s = (.ok (), t) ∧
      r.Standing t (Function.update f i.id (some i))) ∨
    ∃ err, (r.write i).perform h s = (.error err, s) := by
  rw [write, perform_recordPath_bind]
  by_cases hkey : isFileKey i.id
  · rw [if_pos hkey]
    have hdir : s.isDirectory (Store.holder (recordFile r.dir i.id)) := by
      rw [holder_recordFile hkey]
      exact hs.made
    rcases hs.shows.perform_write Identity.logged hkey i h with
      ⟨t, hperform, ht, htouched⟩ | ⟨err, t, hperform, -⟩
    · refine .inl ⟨t, hperform, hs.dir, ht, fun key j hf => ?_, fun name hname hsome => ?_⟩
      · by_cases heq : key = i.id
        · subst heq
          rw [Function.update_self] at hf
          rw [Option.some.inj hf]
        · rw [Function.update_of_ne heq] at hf
          exact hs.ids key j hf
      · rw [opened_of_isDirectory (htouched.isDirectory hs.made),
          Store.place_eq htouched.home] at hsome
        by_cases heq : name = i.id ++ ".json"
        · exact ⟨i.id, i, heq, Function.update_self ..⟩
        · have hne : s.place r.dir ++ [name] ≠ s.place (recordFile r.dir i.id) := by
            rw [recordFile, Store.place_join _ _ (isName_of_isFileKey hkey), ne_eq,
              List.append_cancel_left_eq, List.singleton_inj]
            exact heq
          have hat := at?_writeRecord hdir i.toJson h hne
          rw [hperform] at hat
          rw [hat] at hsome
          obtain ⟨key, j, rfl, hf⟩ :=
            hs.named name hname (by rwa [opened_of_isDirectory hs.made])
          have hother : key ≠ i.id := fun hsame => heq (by rw [hsame])
          exact ⟨key, j, rfl, by rw [Function.update_of_ne hother, hf]⟩
    · obtain rfl := perform_writeRecord_eq_error hdir hperform
      exact .inr ⟨err, hperform⟩
  · rw [if_neg hkey]
    exact .inr ⟨_, rfl⟩

/-! ## Registration -/

def entered (role name : String) (more : Particulars) (fresh : Uuid) (now : Instant) :
    Identity where
  id := Identity.newId role name fresh
  role := role
  name := name
  sessionRef := more.sessionRef
  pid := more.pid
  worktreePath := more.worktreePath
  hookRef := some (more.hookRef.getD (Identity.newId role name fresh))
  nodeId := more.nodeId
  createdAt := now.stamp
  lastSeen := now.stamp
  status := .active
  predecessor := more.predecessor

def enter (r : Registry) (role name : String) (more : Particulars) : Action Identity := do
  let i := entered role name more (← read).fresh (← Action.now)
  r.write i
  return i

def checkPredecessor (r : Registry) : Option String → Action Unit
  | some before => do let _ ← r.get before
  | none => return

/-- The hook of a new identity can have its key. -/
def checkHook : Option String → Action Unit
  | some key => Action.ofExcept (checkKey key)
  | none => return

theorem register_eq (r : Registry) (role name : String) (more : Particulars) :
    r.register role name more = r.locked (do
      match ← r.findActive role name with
      | some other => throw (.identityActive role name other.id)
      | none =>
        r.checkPredecessor more.predecessor
        checkHook more.hookRef
        r.enter role name more) := by
  rw [register]
  congr 1
  refine bind_congr fun found => ?_
  cases found with
  | some other => rfl
  | none =>
    obtain ⟨sessionRef, pid, worktreePath, key | _, nodeId, before | _⟩ := more <;>
      simp only [checkPredecessor, checkHook, enter, entered, pure_bind, bind_assoc]

theorem perform_enter (r : Registry) (role name : String) (more : Particulars) (h : Host)
    (s : Store) :
    (r.enter role name more).perform h s =
      ((((r.write (entered role name more h.fresh (h.clock 0))).perform h s).1.map
          fun _ => entered role name more h.fresh (h.clock 0)),
        ((r.write (entered role name more h.fresh (h.clock 0))).perform h s).2) := by
  rw [enter, perform_bind, perform_read]
  dsimp only
  rw [perform_bind, perform_now]
  dsimp only
  rw [perform_bind]
  rcases (r.write (entered role name more h.fresh (h.clock 0))).perform h s with
    ⟨err | ⟨⟩, t⟩ <;> rfl

theorem perform_checkHook (key : Option String) (h : Host) (s : Store) :
    ∃ x, (checkHook key).perform h s = (x, s) := by
  cases key with
  | none => exact ⟨_, rfl⟩
  | some key => exact ⟨_, perform_ofExcept _ h s⟩

theorem Ready.perform_checkPredecessor (hs : r.Ready s f) (predecessor : Option String) (h : Host) :
    ((r.checkPredecessor predecessor).perform h s = (.ok (), s) ∧
      ∀ p, predecessor = some p → ∃ j, f p = some j) ∨
    ∃ err, (r.checkPredecessor predecessor).perform h s = (.error err, s) := by
  cases predecessor with
  | none => exact .inl ⟨rfl, nofun⟩
  | some before =>
    rw [checkPredecessor, perform_bind]
    rcases hs.perform_get before h with ⟨i, hget, hf⟩ | ⟨err, hget⟩ <;> rw [hget]
    · refine .inl ⟨rfl, fun p hp => ?_⟩
      cases hp
      exact ⟨i, hf⟩
    · exact .inr ⟨err, rfl⟩

/-! ## The calls -/

/-- An active identity is entered, unless there is one with its role and its name or its
predecessor is unknown, or all are what they were. -/
theorem Standing.perform_register (hs : r.Standing s f) (role name : String) (more : Particulars)
    (h : Host) :
    (∃ err t, (r.register role name more).perform h s = (.error err, t) ∧ r.Standing t f) ∨
    ∃ i t, (r.register role name more).perform h s = (.ok i, t) ∧
      r.Standing t (Function.update f i.id (some i)) ∧
      (∀ key j, f key = some j → ¬(j.isActive ∧ j.role = i.role ∧ j.name = i.name)) ∧
      ∀ p, i.predecessor = some p → ∃ j, f p = some j := by
  rcases hs.locked_cases h with ⟨err, t, ht, hperform⟩ | ⟨u, held, hu, hperform⟩
  · exact .inl ⟨err, t, hperform _, ht⟩
  rw [register_eq, hperform, perform_bind]
  obtain ⟨found, hfind, hnone, -⟩ := hu.perform_findActive role name { h with held := held }
  rw [hfind]
  cases found with
  | some other => exact .inl ⟨_, u, rfl, hu.toStanding⟩
  | none =>
    have hfree := hnone rfl
    dsimp only
    rw [perform_bind]
    rcases hu.perform_checkPredecessor more.predecessor { h with held := held } with
      ⟨hcheck, hknown⟩ | ⟨err, hcheck⟩ <;> rw [hcheck]
    · obtain ⟨x, hhook⟩ := perform_checkHook more.hookRef { h with held := held } u
      dsimp only
      rw [perform_bind, hhook]
      rcases x with err | ⟨⟩
      · exact .inl ⟨err, u, rfl, hu.toStanding⟩
      dsimp only
      rw [perform_enter]
      rcases hu.perform_write (entered role name more h.fresh (h.clock 0))
        { h with held := held } with
        ⟨t, hwrite, ht⟩ | ⟨err, hwrite⟩ <;> rw [hwrite]
      · exact .inr ⟨_, t, rfl, ht, hfree, hknown⟩
      · exact .inl ⟨err, u, rfl, hu.toStanding⟩
    · exact .inl ⟨err, u, rfl, hu.toStanding⟩

/-- Something new is said of an active identity, or that is refused and all are what they were. -/
def Renews (r : Registry) (f : String → Option Identity) (a : Action Identity) (h : Host)
    (s : Store) :
    Prop :=
  (∃ err t, a.perform h s = (.error err, t) ∧ r.Standing t f) ∨
  ∃ i j t, a.perform h s = (.ok j, t) ∧ f i.id = some i ∧ i.isActive ∧ i.SameAs j ∧
    r.Standing t (Function.update f i.id (some j))

theorem Ready.perform_rewrite (hs : r.Ready s f) {i j : Identity} (hold : f i.id = some i)
    (hactive : i.isActive) (hsame : i.SameAs j) (h : Host) :
    r.Renews f (do r.write j; return j) h s := by
  rw [Renews, perform_bind]
  rcases hs.perform_write j h with ⟨t, hwrite, ht⟩ | ⟨err, hwrite⟩ <;> rw [hwrite]
  · rw [hsame.id_eq] at ht
    exact .inr ⟨i, j, t, rfl, hold, hactive, hsame, ht⟩
  · exact .inl ⟨err, s, rfl, hs.toStanding⟩

theorem Ready.perform_beat (hs : r.Ready s f) {i : Identity} (hold : f i.id = some i)
    (hactive : i.isActive) (h : Host) : r.Renews f (r.beat i) h s := by
  have hsame : i.SameAs { i with lastSeen := (h.clock 0).stamp } := rfl
  have hrenews := hs.perform_rewrite hold hactive hsame h
  rwa [Renews, show (r.beat i).perform h s = _ from perform_bind now _ h s]

theorem Standing.perform_heartbeat (hs : r.Standing s f) (role name : String) (h : Host) :
    r.Renews f (r.heartbeat role name) h s := by
  rcases hs.locked_cases h with ⟨err, t, ht, hperform⟩ | ⟨u, held, hu, hperform⟩
  · exact .inl ⟨err, t, hperform _, ht⟩
  rw [Renews, heartbeat, hperform, perform_bind]
  obtain ⟨found, hfind, -, hsome⟩ := hu.perform_findActive role name { h with held := held }
  rw [hfind]
  cases found with
  | none => exact .inl ⟨_, u, rfl, hu.toStanding⟩
  | some i =>
    obtain ⟨hold, hactive, -⟩ := hsome i rfl
    exact hu.perform_beat hold hactive _

theorem Standing.perform_heartbeatId (hs : r.Standing s f) (id : String) (h : Host) :
    r.Renews f (r.heartbeatId id) h s := by
  rcases hs.locked_cases h with ⟨err, t, ht, hperform⟩ | ⟨u, held, hu, hperform⟩
  · exact .inl ⟨err, t, hperform _, ht⟩
  rw [Renews, heartbeatId, hperform, perform_bind]
  rcases hu.perform_get id { h with held := held } with ⟨i, hget, hf⟩ | ⟨err, hget⟩ <;> rw [hget]
  · obtain rfl := hs.ids id i hf
    dsimp only
    by_cases hactive : i.isActive
    · rw [if_pos hactive]
      exact hu.perform_beat hf hactive _
    · rw [if_neg hactive]
      exact .inl ⟨_, u, rfl, hu.toStanding⟩
  · exact .inl ⟨err, u, rfl, hu.toStanding⟩

/-- An identity that has come to its end stays as it is. -/
theorem Standing.perform_finish (hs : r.Standing s f) (id : String) (status : Presence) (h : Host) :
    r.Renews f (r.finish id status) h s ∨
      ∃ i t, (r.finish id status).perform h s = (.ok i, t) ∧ r.Standing t f := by
  rcases hs.locked_cases h with ⟨err, t, ht, hperform⟩ | ⟨u, held, hu, hperform⟩
  · exact .inl (.inl ⟨err, t, hperform _, ht⟩)
  rw [Renews, finish, hperform, perform_bind]
  rcases hu.perform_get id { h with held := held } with ⟨i, hget, hf⟩ | ⟨err, hget⟩ <;> rw [hget]
  · obtain rfl := hs.ids id i hf
    dsimp only
    by_cases hactive : i.isActive
    · rw [if_pos hactive]
      have hsame : i.SameAs { i with status } := rfl
      exact .inl (hu.perform_rewrite hf hactive hsame _)
    · rw [if_neg hactive]
      exact .inr ⟨i, u, rfl, hu.toStanding⟩
  · exact .inl (.inl ⟨err, u, rfl, hu.toStanding⟩)

end Registry

end Pipewright
