import Mathlib.Logic.Function.Basic
import Pipewright.Engine
import Pipewright.Proofs.Engine.Actions
import Pipewright.Proofs.Json.Layout
import Pipewright.Proofs.Json.Rereading
import Pipewright.Proofs.Store.Siblings
import Pipewright.Proofs.Text

/-!
# Files of records and logs

A file of one record for each key, and a file with one record on each line.
-/

/-!
## Files of records

A store shows which record a path holds (`Store.Holds`), and which one is kept
under each key of a directory (`Store.Records`). Reading gives the record that
is shown. Writing one shows it from then on, and can be done again; or it fails,
and then every file holds what it held.

The files of different keys are different files, and none of them is a lock
file.
-/

namespace Pipewright

/-! ### Keys -/

/-- The file in which the record with a key is kept, if the key can be a file's name. -/
def recordFile (dir key : String) : String := Path.join dir (key ++ ".json")

theorem recordPath_eq (dir key : String) : recordPath dir key
    = if isFileKey key then .ok (recordFile dir key) else .error (.invalidId key) := by
  rw [recordPath, checkKey]
  split <;> rfl

/-- A text that can be no file's name is refused where a record is looked for. -/
theorem Action.perform_recordPath_bind {α : Type} (dir key : String) (body : String → Action α)
    (h : Host) (s : Store) : (Action.ofExcept (recordPath dir key) >>= body).perform h s
      = if isFileKey key then (body (recordFile dir key)).perform h s
        else (.error (.invalidId key), s) := by
  rw [perform_bind, perform_ofExcept, recordPath_eq]
  cases isFileKey key <;> rfl

/-- Where a record is looked for no file is named that a key cannot name. -/
theorem Action.within_recordPath {α : Type} {dir key : String} {body : String → Action α}
    {files locks : List String}
    (hbody : isFileKey key → (body (recordFile dir key)).Within files locks) :
    (Action.ofExcept (recordPath dir key) >>= body).Within files locks := by
  intro h s
  rw [perform_recordPath_bind]
  by_cases hkey : isFileKey key
  · rw [if_pos hkey]
    exact hbody hkey h s
  · rw [if_neg hkey]
    exact .refl _ _ s

theorem Action.within_writeRecord {path : String} {files locks : List String} (hpath : path ∈ files)
    (v : Json) : (Action.writeRecord path v).Within files locks :=
  (within_replaceFile path _).mono (by simpa using hpath) fun _ h => h

theorem slash_not_mem_of_isFileKey {key : String} (h : isFileKey key) : '/' ∉ key.toList := by
  simp only [isFileKey, Bool.and_eq_true, Bool.not_eq_true', List.contains_eq_mem,
    decide_eq_false_iff_not] at h
  exact h.1.1.1.2

theorem isName_of_isFileKey {key : String} (h : isFileKey key) : Path.IsName (key ++ ".json") :=
  .append (slash_not_mem_of_isFileKey h) ⟨by decide, 'n', rfl, by decide⟩

section

variable {dir key other : String}

theorem Store.place_recordFile_inj {s : Store} (hkey : isFileKey key) (hother : isFileKey other) :
    s.place (recordFile dir key) = s.place (recordFile dir other) ↔ key = other := by
  rw [recordFile, recordFile,
    place_join_inj (isName_of_isFileKey hkey) (isName_of_isFileKey hother), String.append_left_inj]

/-- A file whose name ends otherwise is not the file of a record. -/
theorem Store.place_recordFile_ne {s : Store} {name : String} (hkey : isFileKey key)
    (hname : name.toList.getLast? ≠ some 'n') :
    s.place (recordFile dir key) ≠ s.place dir ++ [name] := by
  rw [recordFile, place_join _ _ (isName_of_isFileKey hkey), ne_eq, List.append_cancel_left_eq,
    List.singleton_inj]
  rintro rfl
  rw [String.toList_append, List.getLast?_append] at hname
  exact hname rfl

theorem Store.place_recordFile_ne_lockPath {s : Store} (hkey : isFileKey key)
    (hother : isFileKey other) :
    s.place (recordFile dir key) ≠ s.place (lockPath (recordFile dir other)) := by
  have hlock := s.place_lockPath_join dir (isName_of_isFileKey hother)
  rw [show recordFile dir other = Path.join dir (other ++ ".json") from rfl, hlock]
  refine place_recordFile_ne hkey ?_
  rw [String.toList_append, List.getLast?_append]
  nofun

theorem Store.place_lockPath_recordFile_inj {s : Store} (hkey : isFileKey key)
    (hother : isFileKey other) : s.place (lockPath (recordFile dir key))
      = s.place (lockPath (recordFile dir other)) ↔ key = other := by
  rw [recordFile, recordFile, place_lockPath_join _ _ (isName_of_isFileKey hkey),
    place_lockPath_join _ _ (isName_of_isFileKey hother), List.append_cancel_left_eq,
    List.singleton_inj, String.append_left_inj, String.append_left_inj]

end

namespace Store

variable {α : Type} {read : Json.Document → Option α} {s t : Store} {path : String}
  {x y : Option α}

/-! ### What a path holds -/

/-- The record in the file of the path; `none` if no file stands in its place. -/
def Holds (s : Store) (read : Json.Document → Option α) (path : String) : Option α → Prop
  | some a => ∃ bytes, s.Has path (some bytes) ∧ Json.readRecordBytes read bytes = some a
  | none => s.Has path none

theorem Holds.not_found (h : s.Holds read path none) : ¬s.Found path := by
  rintro ⟨bytes, modified, hfind⟩
  exact h bytes modified (find_eq_ok.mp hfind).2.1

theorem Holds.unique (hx : s.Holds read path x) (hy : s.Holds read path y) : x = y := by
  cases x with
  | none =>
      cases y with
      | none => rfl
      | some b =>
          obtain ⟨bytes, hbytes, -⟩ := hy
          exact absurd hbytes.found hx.not_found
  | some a =>
      obtain ⟨bytes, hbytes, hread⟩ := hx
      cases y with
      | none => exact absurd hbytes.found hy.not_found
      | some b =>
          obtain ⟨bytes', hbytes', hread'⟩ := hy
          cases hbytes.unique hbytes'
          exact hread.symm.trans hread'

theorem Holds.of_keeps (h : s.Holds read path x) (hkeeps : s.Keeps path t) :
    t.Holds read path x := by
  cases x with
  | none => exact hkeeps.has none h
  | some a =>
      obtain ⟨bytes, hbytes, hread⟩ := h
      exact ⟨bytes, hkeeps.has _ hbytes, hread⟩

theorem Holds.found {a : α} (h : s.Holds read path (some a)) : s.Found path := by
  obtain ⟨bytes, hbytes, -⟩ := h
  exact hbytes.found

end Store

namespace Action

open Store

variable {α : Type} {read : Json.Document → Option α} {toJson : α → Json} {s : Store}
  {path : String}

theorem perform_readRecord? {a : α} (hs : s.Holds read path (some a)) (h : Host) :
    (readRecord? read path).perform h s = (.ok (some a), s) := by
  obtain ⟨bytes, ⟨modified, hfind⟩, hread⟩ := hs
  have hbytes : s.readBytes path = .ok bytes := by
    rw [readBytes, hfind]
    rfl
  rw [readRecord?, perform_bind, perform_readingIfThere, hbytes]
  simp only [hread]
  rfl

/-- Where there is no file no record is read; it may be that the way to it is blocked. -/
theorem perform_readRecord?_none (hs : s.Holds read path none) (h : Host) :
    (readRecord? read path).perform h s = (.ok none, s) ∨
      ∃ err, (readRecord? read path).perform h s = (.error err, s) := by
  rw [readRecord?, perform_bind, perform_readingIfThere]
  cases hbytes : s.readBytes path with
  | error fault => cases fault <;> first | exact .inl rfl | exact .inr ⟨_, rfl⟩
  | ok bytes =>
      unfold readBytes at hbytes
      cases hfind : s.find path with
      | error fault => rw [hfind] at hbytes; cases hbytes
      | ok entry =>
          cases entry with
          | directory => rw [hfind] at hbytes; cases hbytes
          | file bytes' modified => exact absurd ⟨bytes', modified, hfind⟩ hs.not_found

/-- What is read is what the path holds, and reading leaves the store as it is. -/
theorem readRecord?_spec {x : Option α} (hs : s.Holds read path x) (h : Host) :
    (readRecord? read path).perform h s = (.ok x, s) ∨
      x = none ∧ ∃ err, (readRecord? read path).perform h s = (.error err, s) := by
  cases x with
  | none => exact (perform_readRecord?_none hs h).imp_right fun hfail => ⟨rfl, hfail⟩
  | some a => exact .inl (perform_readRecord? hs h)

/-- Where its directory is there, writing a record changes nothing but its file. -/
theorem at?_writeRecord (hdir : s.isDirectory (holder path)) (v : Json) (h : Host)
    {other : List String} (hne : other ≠ s.place path) :
    ((writeRecord path v).perform h s).2.at? other = s.at? other := by
  rw [writeRecord, perform_replaceFile]
  exact (s.replace_spec path _ _).at?_of_ne (not_not.mpr hdir) hne

/-- Where its directory is there, a record that could not be written leaves the store as it is. -/
theorem perform_writeRecord_eq_error {v : Json} {h : Host} {err : Error} {t : Store}
    (hdir : s.isDirectory (holder path))
    (hwrite : (writeRecord path v).perform h s = (.error err, t)) :
    t = s := by
  rw [writeRecord, perform_replaceFile] at hwrite
  rcases hreplace : s.replace path (Json.fileText v).toUTF8 (h.clock 0) with ⟨fault | ⟨⟩, u⟩ <;>
    rw [hreplace] at hwrite
  · obtain ⟨-, rfl⟩ := Prod.mk.inj hwrite
    exact replace_eq_error_snd hdir hreplace
  · cases hwrite

/-- A file that is replaced has its new bytes and can be replaced again; or that fails, and every
file holds what it held. -/
theorem perform_replaceFile_cases (path : String) (bytes : ByteArray) (h : Host) (s : Store) :
    (∃ t, (replaceFile path bytes).perform h s = (.ok (), t) ∧ t.Has path (some bytes) ∧
      t.CanReplace path ∧ Touched [s.place path] [] s t) ∨
    ∃ err t, (replaceFile path bytes).perform h s = (.error err, t) ∧ ¬s.CanReplace path ∧
      Touched [] [] s t := by
  have hspec := s.replace_spec path bytes (h.clock 0)
  rw [perform_replaceFile]
  rcases hreplace : s.replace path bytes (h.clock 0) with ⟨fault | ⟨⟩, t⟩ <;> rw [hreplace] at hspec
  · have hcan : ¬s.CanReplace path := by
      intro hcan
      have hok := hcan bytes (h.clock 0)
      rw [hreplace] at hok
      cases hok
    exact .inr ⟨.file fault, t, rfl, hcan, hspec.untouched rfl⟩
  · have hok : (s.replace path bytes (h.clock 0)).1 = .ok () := by rw [hreplace]
    have hfind := find_replace hok
    rw [hreplace] at hfind
    have hhome := (hspec.touched []).home
    exact .inl ⟨t, rfl, ⟨_, hfind⟩, canReplace_of_replace hok hhome ⟨_, _, hfind⟩, hspec.touched []⟩

/-- A record that is written is there and can be written again; or writing it fails, and
every file holds what it held. -/
theorem perform_writeRecord {a : α} (hexact : (toJson a).isExact)
    (hread : read (toJson a).document = some a) (path : String) (h : Host) (s : Store) :
    (∃ t, (writeRecord path (toJson a)).perform h s = (.ok (), t) ∧ t.Holds read path (some a) ∧
      t.CanReplace path ∧ Touched [s.place path] [] s t) ∨
    ∃ err t, (writeRecord path (toJson a)).perform h s = (.error err, t) ∧ ¬s.CanReplace path ∧
      Touched [] [] s t := by
  refine (perform_replaceFile_cases path (Json.fileText (toJson a)).toUTF8 h s).imp_left ?_
  rintro ⟨t, hperform, hhas, hcan, htouched⟩
  refine ⟨t, hperform, ⟨_, hhas, ?_⟩, hcan, htouched⟩
  rw [Json.readRecordBytes_fileText hexact, hread]

end Action

/-! ### What a directory holds -/

namespace Store

/-- The records under the keys of a directory. Those that are there can be replaced, and there
is none under a text that can be no file's name. -/
structure Records {α : Type} (s : Store) (read : Json.Document → Option α) (dir : String)
    (f : String → Option α) : Prop where
  holds : ∀ key, isFileKey key → s.Holds read (recordFile dir key) (f key)
  isKey : ∀ key a, f key = some a → isFileKey key
  writable : ∀ key a, f key = some a → s.CanReplace (recordFile dir key)

namespace Records

variable {α : Type} {read : Json.Document → Option α} {toJson : α → Json} {s t : Store}
  {dir key : String} {f g : String → Option α} {locks : List (List String)}

theorem unique (h : s.Records read dir f) (h' : s.Records read dir g) : f = g := by
  have hnone : ∀ {f : String → Option α} {key}, s.Records read dir f → ¬isFileKey key →
      f key = none := by
    intro f key h hkey
    cases hf : f key with
    | none => rfl
    | some a => exact absurd (h.isKey key a hf) hkey
  funext key
  by_cases hkey : isFileKey key
  · exact (h.holds key hkey).unique (h'.holds key hkey)
  · rw [hnone h hkey, hnone h' hkey]

/-- A record that is there is one that has a file. -/
theorem found {a : α} (h : s.Records read dir f) (hf : f key = some a) :
    s.Found (recordFile dir key) := by
  have hholds := h.holds key (h.isKey key a hf)
  rw [hf] at hholds
  exact hholds.found

theorem of_touched (h : s.Records read dir f) (htouched : Touched [] locks s t)
    (hlocks : ∀ key, isFileKey key → s.place (recordFile dir key) ∉ locks) :
    t.Records read dir f where
  holds := fun key hkey => (h.holds key hkey).of_keeps (htouched.keeps (by simp) (hlocks key hkey))
  isKey := h.isKey
  writable := by
    intro key a hf
    obtain ⟨bytes, modified, hfind⟩ := h.found hf
    exact (h.writable key a hf).of_home htouched.home (htouched.find hfind (by simp))

/-- Where the file of one record was written the others are what they were. -/
theorem of_written {a : α} (h : s.Records read dir f) (hkey : isFileKey key)
    (htouched : Touched [s.place (recordFile dir key)] [] s t)
    (hholds : t.Holds read (recordFile dir key) (some a))
    (hwritable : t.CanReplace (recordFile dir key)) :
    t.Records read dir (Function.update f key (some a)) := by
  have hother : ∀ {other}, other ≠ key → isFileKey other →
      s.place (recordFile dir other) ∉ [s.place (recordFile dir key)] := by
    intro other hne hother hmem
    exact hne ((place_recordFile_inj hother hkey).mp (List.mem_singleton.mp hmem))
  constructor
  · intro other hotherKey
    by_cases hne : other = key
    · subst hne
      rwa [Function.update_self]
    · rw [Function.update_of_ne hne]
      exact (h.holds other hotherKey).of_keeps (htouched.keeps (hother hne hotherKey) (by simp))
  · intro other b hf
    by_cases hne : other = key
    · exact hne ▸ hkey
    · rw [Function.update_of_ne hne] at hf
      exact h.isKey other b hf
  · intro other b hf
    by_cases hne : other = key
    · exact hne ▸ hwritable
    · rw [Function.update_of_ne hne] at hf
      obtain ⟨bytes, modified, hfind⟩ := h.found hf
      exact (h.writable other b hf).of_home htouched.home
        (htouched.find hfind (hother hne (h.isKey other b hf)))

/-- A record is written and the others are what they were; or it was not there, and nothing
is changed. -/
theorem perform_write (h : s.Records read dir f) (hread : Json.Logged toJson read)
    (hkey : isFileKey key) (a : α) (host : Host) :
    (∃ t, (Action.writeRecord (recordFile dir key) (toJson a)).perform host s = (.ok (), t) ∧
      t.Records read dir (Function.update f key (some a)) ∧
      Touched [s.place (recordFile dir key)] [] s t) ∨
    ∃ err t, (Action.writeRecord (recordFile dir key) (toJson a)).perform host s = (.error err, t) ∧
      f key = none ∧ t.Records read dir f ∧ Touched [] [] s t := by
  rcases Action.perform_writeRecord (hread.exact a) (hread.reread a) (recordFile dir key)
    host s with
    ⟨t, hperform, hholds, hwritable, htouched⟩ | ⟨err, t, hperform, hcan, htouched⟩
  · exact .inl ⟨t, hperform, h.of_written hkey htouched hholds hwritable, htouched⟩
  · refine .inr ⟨err, t, hperform, ?_, h.of_touched htouched (by simp), htouched⟩
    cases hf : f key with
    | none => rfl
    | some b => exact absurd (h.writable key b hf) hcan

/-- What is to be done under a lock is not begun, or it is done where the records are what they
were and the lock file is found. -/
theorem withLockFile_cases (h : s.Records read dir f) {lock : String}
    (hlock : ∀ key, isFileKey key → s.place (recordFile dir key) ≠ s.place lock)
    (policy : LockPolicy) (host : Host) :
    (∃ err t, t.Records read dir f ∧ Touched [] [s.place lock] s t ∧ ∀ {β : Type} (body : Action β),
      (Action.withLockFile lock policy body).perform host s = (.error err, t)) ∨
    ∃ u, u.Records read dir f ∧ Touched [] [s.place lock] s u ∧ u.Found lock ∧
      host.held.contains (u.place lock) = false ∧ ∀ {β : Type} (body : Action β),
        (Action.withLockFile lock policy body).perform host s
          = body.perform { host with held := u.place lock :: host.held } u := by
  obtain ⟨u, -, htouched, hcases⟩ := Action.withLockFile_cases lock policy host s
  have hu : u.Records read dir f :=
    h.of_touched htouched fun key hkey => by simpa using hlock key hkey
  rcases hcases with ⟨err, hperform⟩ | ⟨hfound, hfree, hperform⟩
  · exact .inl ⟨err, u, hu, htouched, hperform⟩
  · exact .inr ⟨u, hu, htouched, hfound, hfree, hperform⟩

end Records

end Store

/-!
## Logs

A log is there with its records in it, one in each line, or it is not there yet
and can be made (`Store.Logs`). A record that is added is found behind the others,
and reading a log gives the records in the order in which they were added.

Who adds them does not matter, and neither does what else happens as long as the
log is left as it is: `Store.Recorded` has a step for each record and one for
everything else, and `Recorded.logs` is what the steps preserve.
-/

theorem Store.readText_of_find {s : Store} {path text : String} {bytes : ByteArray}
    {modified : Instant} (hfind : s.find path = .ok (.file bytes modified))
    (hutf : String.fromUTF8? bytes = some text) : s.readText path = .ok text := by
  simp only [readText, readBytes, hfind, bind, Except.bind, pure, Except.pure, hutf]

variable {α : Type} {toJson : α → Json} {read : Json.Document → Option α} {s t u : Store}
  {path : String} {records : List α}

/-! ### Reading -/

theorem Action.perform_readLog (hread : Json.Logged toJson read) (hfound : s.Found path)
    (hcontents : s.contents (s.place path) = (Json.logText toJson records).toUTF8) (h : Host) :
    (readLog read path).perform h s = (.ok records, s) := by
  obtain ⟨bytes, modified, hfind⟩ := hfound
  rw [Store.contents_of_find hfind] at hcontents
  have htext := Store.readText_of_find hfind (by rw [hcontents, fromUTF8?_toUTF8])
  rw [readLog, perform_bind, perform_readingIfThere, htext]
  simp only [Json.readLines_logText hread]
  rfl

theorem Action.perform_readLog_of_not_found (hfind : s.find path = .error .notFound) (h : Host) :
    (readLog read path).perform h s = (.ok [], s) := by
  have htext : s.readText path = .error .notFound := by
    simp only [Store.readText, Store.readBytes, hfind, bind, Except.bind]
  rw [readLog, perform_bind, perform_readingIfThere, htext]
  rfl

namespace Store

/-! ### What a log holds -/

/-- The records are in the log, and more can be added. Before the first of them there may be no log
yet. -/
structure Logs (s : Store) (toJson : α → Json) (path : String) (records : List α) : Prop where
  contents : s.contents (s.place path) = (Json.logText toJson records).toUTF8
  found : records ≠ [] → s.Found path
  writable : s.CanAppend path

/-- There are no records in a log that is still to be made. -/
theorem logs_nil (hwritable : s.CanAppend path) (hnone : s.Has path none) :
    s.Logs toJson path [] where
  contents := by
    rw [contents]
    split
    · next bytes modified hat => exact absurd hat (hnone bytes modified)
    · rfl
  found := fun hne => absurd rfl hne
  writable := hwritable

/-- A log holds its records as long as it is left as it is. -/
theorem Logs.of_keeps (h : s.Logs toJson path records) (hkeeps : s.Keeps path t)
    (hwritable : t.CanAppend path) : t.Logs toJson path records where
  contents := hkeeps.contents.trans h.contents
  found := fun hne => hkeeps.found (h.found hne)
  writable := hwritable

theorem Logs.perform_readLog (h : s.Logs toJson path records) (hread : Json.Logged toJson read)
    (host : Host) : (Action.readLog read path).perform host s = (.ok records, s) := by
  rcases h.writable.find with hfound | hnone
  · exact Action.perform_readLog hread hfound h.contents host
  · cases records with
    | nil => exact Action.perform_readLog_of_not_found hnone host
    | cons r records =>
        obtain ⟨bytes, modified, hfind⟩ := h.found (List.cons_ne_nil _ _)
        rw [hnone] at hfind
        cases hfind

theorem Logs.perform_appendRecord (h : s.Logs toJson path records) (a : α) (host : Host) :
    ∃ t, (Action.appendRecord path (toJson a)).perform host s = (.ok (), t) ∧
      t.Logs toJson path (records ++ [a]) := by
  rcases Action.appendFile_spec path (Json.lineText (toJson a)).toUTF8 host s [] with
    ⟨t, hperform, hwritten, hfound⟩ | ⟨-, -, -, -, hcannot⟩
  · obtain ⟨bytes, modified, hfind⟩ := hfound
    refine ⟨t, hperform, ?_, fun _ => ⟨bytes, modified, hfind⟩, canAppend_of_find hfind⟩
    rw [place_eq hwritten.home, hwritten.contents_of_mem (List.mem_singleton.mpr rfl), h.contents,
      Json.logText_append, Json.logText_singleton, toUTF8_append]
  · exact absurd h.writable hcannot

/-! ### Adding record by record -/

/-- Records are added one after the other, each by some process. In between other things may happen
that leave the log as it is, and leave the way to it open. -/
inductive Recorded (toJson : α → Json) (path : String) (s : Store) : List α → Store → Prop where
  | start : Recorded toJson path s [] s
  | add {records : List α} {t u : Store} (h : Host) (a : α) :
      Recorded toJson path s records t →
      (Action.appendRecord path (toJson a)).perform h t = (.ok (), u) →
      Recorded toJson path s (records ++ [a]) u
  | aside {records : List α} {t u : Store} :
      Recorded toJson path s records t → t.Keeps path u → (t.CanAppend path → u.CanAppend path) →
      Recorded toJson path s records u

theorem Recorded.logs (hrun : s.Recorded toJson path records t) (hs : s.Logs toJson path []) :
    t.Logs toJson path records := by
  induction hrun with
  | start => exact hs
  | add h a hrun hperform ih =>
      obtain ⟨u, hperform', hu⟩ := ih.perform_appendRecord a h
      obtain rfl := (Prod.mk.inj (hperform'.symm.trans hperform)).2
      exact hu
  | aside hrun hkeeps hwritable ih => exact ih.of_keeps hkeeps (hwritable ih.writable)

/-- Nothing keeps records from being added, whoever is to add them. -/
theorem Logs.exists_recorded (hs : s.Logs toJson path []) (h : Host) (records : List α) :
    ∃ t, s.Recorded toJson path records t := by
  induction records using List.reverseRecOn with
  | nil => exact ⟨s, .start⟩
  | append_singleton records a ih =>
      obtain ⟨t, hrun⟩ := ih
      obtain ⟨u, hperform, -⟩ := (hrun.logs hs).perform_appendRecord a h
      exact ⟨u, .add h a hrun hperform⟩

end Store

end Pipewright
