import Pipewright.Engine
import Pipewright.Identity.Registry
import Pipewright.Lifecycle.Transition
import Pipewright.Proofs.Store.Files

/-!
# Actions and their footprints

Each action by what it answers and leaves, and by the places that it can touch at all.
-/

/-!
## What actions do

The answer of an action and the store it leaves: one law for each way of
putting actions together, and one for each action on files. An action that
writes one file and fails has written none.

An action under a lock either fails before it begins or is done in a store that
has only grown, by the lock file and the directories that lead to it.
-/

namespace Pipewright

/-- The error says that the retries of a node are used up. -/
def Error.isExhausted : Error → Bool
  | .retriesExhausted .. => true
  | _ => false

/-- A process that holds no lock, on a host with no other process. -/
def Host.idle : Host := ⟨fun _ => default, 1, fun _ => false, [], default⟩

namespace Action

variable {α β : Type}

/-- An action goes on in the store that the one before it left, unless that failed. -/
theorem perform_bind (a : Action α) (f : α → Action β) (h : Host) (s : Store) :
    (a >>= f).perform h s =
      match a.perform h s with
      | (.ok x, t) => (f x).perform h t
      | (.error e, t) => (.error e, t) := by
  change ((ExceptT.bindCont (fun x => f x h)) (a h s).1) (a h s).2 = _
  unfold perform
  rcases a h s with ⟨x | x, t⟩ <;> rfl

/-- An answer of two actions, one after the other, is that of the second one. -/
theorem exists_of_perform_bind {a : Action α} {f : α → Action β} {h : Host} {s : Store} {y : β}
    (hok : ((a >>= f).perform h s).1 = .ok y) :
    ∃ x t, a.perform h s = (.ok x, t) ∧ ((f x).perform h t).1 = .ok y := by
  rw [perform_bind] at hok
  rcases hperform : a.perform h s with ⟨err | x, t⟩ <;> rw [hperform] at hok
  · cases hok
  · exact ⟨x, t, rfl, hok⟩

theorem perform_pure (x : α) (h : Host) (s : Store) :
    (pure x : Action α).perform h s = (.ok x, s) := rfl

theorem perform_get (h : Host) (s : Store) : (get : Action Store).perform h s = (.ok s, s) := rfl

theorem perform_read (h : Host) (s : Store) : (read : Action Host).perform h s = (.ok h, s) := rfl

theorem perform_now (h : Host) (s : Store) : now.perform h s = (.ok (h.clock 0), s) := rfl

theorem perform_ofExcept (r : Except Error α) (h : Host) (s : Store) :
    (ofExcept r).perform h s = (r, s) := by
  cases r <;> rfl

/-! ### Files -/

theorem perform_reading (f : Store → Except FileFault α) (h : Host) (s : Store) :
    (reading f).perform h s = ((f s).mapError .file, s) := by
  rw [reading, perform_bind, perform_get]
  dsimp only
  cases f s <;> rfl

theorem perform_readingIfThere (f : Store → Except FileFault α) (h : Host) (s : Store) :
    (readingIfThere f).perform h s =
      match f s with
      | .ok a => (.ok (some a), s)
      | .error .notFound => (.ok none, s)
      | .error fault => (.error (.file fault), s) := by
  rw [readingIfThere, perform_bind, perform_get]
  dsimp only
  rcases f s with fault | a
  · cases fault <;> rfl
  · rfl

theorem perform_writing (f : Store → Except FileFault Unit × Store) (h : Host) (s : Store) :
    (writing f).perform h s = ((f s).1.mapError .file, (f s).2) := by
  rw [writing, perform_bind, perform_get]
  rcases hf : f s with ⟨fault | a, t⟩ <;> simp only [hf] <;> rfl

theorem perform_replaceFile (path : String) (bytes : ByteArray) (h : Host) (s : Store) :
    (replaceFile path bytes).perform h s = ((s.replace path bytes (h.clock 0)).1.mapError .file,
      (s.replace path bytes (h.clock 0)).2) := by
  rw [replaceFile, perform_bind, perform_now]
  exact perform_writing _ h s

theorem perform_appendFile (path : String) (bytes : ByteArray) (h : Host) (s : Store) :
    (appendFile path bytes).perform h s = ((s.append path bytes (h.clock 0)).1.mapError .file,
      (s.append path bytes (h.clock 0)).2) := by
  rw [appendFile, perform_bind, perform_now]
  exact perform_writing _ h s

/-- Adding to a file adds to it, or it cannot be added to and is not touched. -/
theorem appendFile_spec (path : String) (bytes : ByteArray) (h : Host) (s : Store)
    (lock : List String) :
    (∃ t, (appendFile path bytes).perform h s = (.ok (), t) ∧
      s.Written (¬s.isDirectory (Store.holder path)) lock t
        [(s.place path, s.contents (s.place path) ++ bytes)] ∧
      ∃ bytes' modified, t.find path = .ok (.file bytes' modified)) ∨
    ∃ fault t, (appendFile path bytes).perform h s = (.error (.file fault), t) ∧
      s.Grown (¬s.isDirectory (Store.holder path)) lock t ∧ ¬s.CanAppend path := by
  have hspec := s.append_spec path bytes (h.clock 0) lock
  have hfind := s.find_append path bytes (h.clock 0)
  rw [perform_appendFile]
  rcases happend : s.append path bytes (h.clock 0) with ⟨fault | ⟨⟩, t⟩
  · rw [happend] at hspec
    refine .inr ⟨fault, t, rfl, hspec.2 fault rfl, fun hcan => ?_⟩
    have hok := hcan bytes (h.clock 0)
    rw [happend] at hok
    cases hok
  · rw [happend] at hspec hfind
    exact .inl ⟨t, rfl, hspec.1 rfl, hfind rfl⟩

theorem replaceFile_spec {path : String} {s : Store} (hreplace : s.CanReplace path)
    (bytes : ByteArray) (h : Host) (lock : List String) :
    ∃ t, (replaceFile path bytes).perform h s = (.ok (), t) ∧
      s.Written (¬s.isDirectory (Store.holder path)) lock t [(s.place path, bytes)] := by
  refine ⟨_, ?_, (s.replace_spec path bytes (h.clock 0) lock).1 (hreplace bytes _)⟩
  rw [perform_replaceFile, hreplace]
  rfl

/-! ### Locks -/

theorem perform_makeDirs (path : String) (h : Host) (s : Store) :
    (makeDirs path).perform h s = ((s.makeDirs path).1.mapError .file, (s.makeDirs path).2) :=
  perform_writing _ h s

theorem perform_lockFile {dirs : Action Unit} {path : String} {h : Host} {s : Store}
    (hdirs : dirs.perform h s
      = ((s.makeDirs (Store.holder path)).1.mapError .file, (s.makeDirs (Store.holder path)).2)) :
    (dirs >>= fun _ => do
      let now ← now
      let (r, s) := (← get).create path now
      set s
      match r with
      | .ok place => return place
      | .error fault => throw (Error.file fault)).perform h s =
      match s.makeDirs (Store.holder path) with
      | (.error fault, t) => (.error (.file fault), t)
      | (.ok _, t) =>
        ((t.create path (h.clock 0)).1.mapError .file, (t.create path (h.clock 0)).2) := by
  rw [perform_bind, hdirs]
  rcases s.makeDirs (Store.holder path) with ⟨fault | ⟨⟩, t⟩
  · rfl
  · change (now >>= _ : Action _).perform h t = _
    rw [perform_bind, perform_now]
    dsimp only
    rw [perform_bind, perform_get]
    dsimp only
    rcases t.create path (h.clock 0) with ⟨fault | place, u⟩ <;> rfl

/-- To open a lock is to make its directory and then the lock file. -/
theorem perform_openLock_eq (path : String) (h : Host) (s : Store) :
    (openLock path).perform h s =
      match s.makeDirs (Store.holder path) with
      | (.error fault, t) => (.error (.file fault), t)
      | (.ok _, t) =>
        ((t.create path (h.clock 0)).1.mapError .file, (t.create path (h.clock 0)).2) := by
  have hhere : Store.holder path = "." → (pure () : Action Unit).perform h s
      = ((s.makeDirs (Store.holder path)).1.mapError .file,
        (s.makeDirs (Store.holder path)).2) := by
    intro hholder
    rw [hholder, Store.makeDirs_of_isDirectory s.isDirectory_dot]
    rfl
  unfold openLock
  split
  · next hparent => exact perform_lockFile (hhere (by rw [Store.holder, hparent]))
  · next hparent => exact perform_lockFile (hhere (by rw [Store.holder, hparent]; rfl))
  · next dir hne hparent =>
    have hholder : Store.holder path = dir := by
      rw [Store.holder, hparent]
      exact if_neg hne
    refine perform_lockFile ?_
    rw [perform_makeDirs, hholder]

/-- The lock file and the directories that lead to it are all that opening it makes. -/
theorem openLock_spec (path : String) (h : Host) (s : Store) :
    s.Grown (¬s.isDirectory (Store.holder path)) (s.place path)
      ((openLock path).perform h s).2 ∧
    ∀ err, ((openLock path).perform h s).1 = .error err → err.isExhausted = false := by
  have hgrown := s.grown_makeDirs (s.place path) (Store.holder path)
  rw [perform_openLock_eq]
  rcases hmake : s.makeDirs (Store.holder path) with ⟨fault | ⟨⟩, t⟩ <;> rw [hmake] at hgrown
  · exact ⟨hgrown, fun err herr => Except.error.inj herr ▸ rfl⟩
  · have hmore := (t.create_spec path (h.clock 0)).1
    rw [Store.place_eq hgrown.home] at hmore
    refine ⟨hgrown.trans (hmore.mono False.elim), ?_⟩
    dsimp only
    rcases t.create path (h.clock 0) with ⟨fault | place, u⟩
    · exact fun err herr => Except.error.inj herr ▸ rfl
    · exact fun err herr => (by cases herr)

/-- Where the directory of a lock file is there, opening the lock makes at most the file. -/
theorem perform_openLock_of_isDirectory {path : String} {s : Store}
    (hdir : s.isDirectory (Store.holder path)) (host : Host) :
    (openLock path).perform host s
      = ((s.create path (host.clock 0)).1.mapError .file, (s.create path (host.clock 0)).2) := by
  rw [perform_openLock_eq, Store.makeDirs_of_isDirectory hdir]

/-- The lock of a lock file that is there is opened, and nothing is made. -/
theorem perform_openLock {path : String} {s : Store} (hfound : s.Found path) (host : Host) :
    (openLock path).perform host s = (.ok (s.place path), s) := by
  obtain ⟨bytes, modified, hfind⟩ := hfound
  rw [perform_openLock_of_isDirectory (Store.isDirectory_holder hfind), Store.create_of_find hfind]
  rfl

/-- An action under a lock fails before it begins, or it is done in a store that has only
grown and by a process that differs in the locks it holds. -/
theorem withLock_spec (path : String) (policy : LockPolicy) (body : Action α) (h : Host)
    (s : Store) : ∃ t, s.Grown (¬s.isDirectory (Store.holder (lockPath path)))
        (s.place (lockPath path)) t ∧
      ((∃ err, (withLock path policy body).perform h s = (.error err, t) ∧
          err.isExhausted = false) ∨
        ∃ held, (withLock path policy body).perform h s
          = body.perform { h with held := held } t) := by
  obtain ⟨hgrown, hspared⟩ := openLock_spec (lockPath path) h s
  rw [withLock, withLockFile, perform_bind]
  rcases hopen : (openLock (lockPath path)).perform h s with ⟨err | place, t⟩
  · rw [hopen] at hgrown hspared
    exact ⟨t, hgrown, .inl ⟨err, rfl, hspared err rfl⟩⟩
  · rw [hopen] at hgrown
    refine ⟨t, hgrown, ?_⟩
    dsimp only
    cases hheld : h.held.contains place with
    | true =>
        refine .inl ⟨.lockContention (lockPath path) (Nat.max policy.attempts 1), ?_, rfl⟩
        change ((if h.held.contains place then _ else _ : Action α)).perform h t = _
        rw [if_pos hheld]
        rfl
    | false =>
        refine .inr ⟨place :: h.held, ?_⟩
        change ((if h.held.contains place then _ else _ : Action α)).perform h t = _
        rw [if_neg (by rw [hheld]; decide)]
        rfl

/-! ### Errors -/

/-- Whoever does the action and on whatever store, if it answers with an error then with one of
these. -/
def Throws (P : Error → Prop) (a : Action α) : Prop :=
  ∀ h s err, (a.perform h s).1 = .error err → P err

section Throws

variable {P : Error → Prop}

theorem throws_pure (x : α) : (pure x : Action α).Throws P := fun _ _ _ heq => (by cases heq)

theorem throws_throw {err : Error} (herr : P err) : (throw err : Action α).Throws P :=
  fun _ _ _ heq => Except.error.inj heq ▸ herr

theorem throws_ofExcept {r : Except Error α} (hr : ∀ err, r = .error err → P err) :
    (ofExcept r).Throws P := by
  intro h s err heq
  rw [perform_ofExcept] at heq
  exact hr err heq

theorem Throws.bind {a : Action α} {f : α → Action β} (ha : a.Throws P)
    (hf : ∀ x, (f x).Throws P) : (a >>= f).Throws P := by
  intro h s err heq
  have hfirst := ha h s
  rw [perform_bind] at heq
  rcases hperform : a.perform h s with ⟨fault | x, t⟩ <;> rw [hperform] at heq hfirst
  · exact hfirst err (congrArg Except.error (Except.error.inj heq))
  · exact hf x h t err heq

variable (hfile : ∀ fault, P (.file fault))
include hfile

theorem of_mapError_file {r : Except FileFault α} {err : Error}
    (heq : r.mapError .file = .error err) : P err := by
  cases r with
  | error fault => exact Except.error.inj heq ▸ hfile fault
  | ok a => cases heq

theorem throws_reading (f : Store → Except FileFault α) : (reading f).Throws P := by
  intro h s err heq
  rw [perform_reading] at heq
  exact of_mapError_file hfile heq

theorem throws_replaceFile (path : String) (bytes : ByteArray) :
    (replaceFile path bytes).Throws P := by
  intro h s err heq
  rw [perform_replaceFile] at heq
  exact of_mapError_file hfile heq

theorem throws_appendFile (path : String) (bytes : ByteArray) :
    (appendFile path bytes).Throws P := by
  intro h s err heq
  rw [perform_appendFile] at heq
  exact of_mapError_file hfile heq

theorem throws_openLock (path : String) : (openLock path).Throws P := by
  intro h s err heq
  rw [perform_openLock_eq] at heq
  split at heq
  · exact Except.error.inj heq ▸ hfile _
  · exact of_mapError_file hfile heq

theorem throws_readingIfThere (f : Store → Except FileFault α) : (readingIfThere f).Throws P := by
  intro h s err heq
  rw [perform_readingIfThere] at heq
  split at heq
  · cases heq
  · cases heq
  · exact Except.error.inj heq ▸ hfile _

theorem throws_readRecord? (hjson : P .json) (read : Json.Document → Option α) (path : String) :
    (readRecord? read path).Throws P := by
  refine (throws_readingIfThere hfile _).bind fun found => ?_
  split
  · exact throws_pure none
  · split
    · exact throws_pure _
    · exact throws_throw hjson

/-- Under a lock nothing else goes wrong than what the lock file, the lock or the action itself
brings about. -/
theorem Throws.withLockFile (hlock : ∀ path attempts, P (.lockContention path attempts))
    {body : Action α} (hbody : body.Throws P) (path : String) (policy : LockPolicy) :
    (withLockFile path policy body).Throws P := by
  have hlocked : ∀ place,
      (withReader (fun h : Host => { h with held := place :: h.held }) body).Throws P :=
    fun place h => hbody _
  have hread : (read : Action Host).Throws P := fun _ _ _ heq => by cases heq
  unfold Action.withLockFile
  refine (throws_openLock hfile _).bind fun place => hread.bind fun host => ?_
  dsimp only
  split
  · exact (throws_throw (hlock _ _)).bind fun _ => hlocked place
  · exact hlocked place

theorem Throws.withLock (hlock : ∀ path attempts, P (.lockContention path attempts))
    {body : Action α} (hbody : body.Throws P) (path : String) (policy : LockPolicy) :
    (withLock path policy body).Throws P :=
  hbody.withLockFile hfile hlock (lockPath path) policy

end Throws

end Action

/-!
## Footprints of actions

An action stays within the files it may write and the lock files it may make,
whoever performs it, on whatever store, and whether it succeeds or not
(`Action.Within`). This passes through all ways of putting actions together, so
for an action that is put together from others it is read off its text.

Where the footprint of an action is not known, as with what answers the calls of
a queue, it can still be known to keep a file (`Action.Keeps`).
-/

namespace Action

variable {α β : Type} {files files' locks locks' : List String} {path : String}

/-! ### Footprints -/

/-- The action writes at most the files and makes at most the lock files. -/
def Within (files locks : List String) (a : Action α) : Prop :=
  ∀ h s, Store.Touched (files.map s.place) (locks.map s.place) s (a.perform h s).2

theorem Within.mono {a : Action α} (ha : a.Within files locks) (hfiles : files ⊆ files')
    (hlocks : locks ⊆ locks') : a.Within files' locks' :=
  fun h s => (ha h s).mono (List.map_subset _ hfiles) (List.map_subset _ hlocks)

/-- The action leaves the store as it is. -/
def Reads (a : Action α) : Prop := ∀ h s, (a.perform h s).2 = s

theorem Reads.within {a : Action α} (ha : a.Reads) : a.Within files locks := by
  intro h s
  rw [ha h s]
  exact .refl _ _ s

theorem reads_pure (x : α) : (pure x : Action α).Reads := fun _ _ => rfl

theorem reads_throw (e : Error) : (throw e : Action α).Reads := fun _ _ => rfl

theorem reads_readingIfThere (f : Store → Except FileFault α) : (readingIfThere f).Reads := by
  intro h s
  rw [perform_readingIfThere]
  cases f s with
  | ok a => rfl
  | error fault => cases fault <;> rfl

theorem Reads.bind {a : Action α} {f : α → Action β} (ha : a.Reads) (hf : ∀ x, (f x).Reads) :
    (a >>= f).Reads := by
  intro h s
  have hfirst := ha h s
  rw [perform_bind]
  rcases hperform : a.perform h s with ⟨e | x, t⟩
  · rw [hperform] at hfirst
    exact hfirst
  · rw [hperform] at hfirst
    obtain rfl : t = s := hfirst
    exact hf x h t

theorem reads_readRecord? (read : Json.Document → Option α) (path : String) :
    (readRecord? read path).Reads := by
  unfold readRecord?
  refine (reads_readingIfThere _).bind fun found => ?_
  split
  · exact reads_pure _
  · split
    · exact reads_pure _
    · exact reads_throw _

theorem within_pure (x : α) : (pure x : Action α).Within files locks :=
  (reads_pure x).within

theorem within_throw (e : Error) : (throw e : Action α).Within files locks :=
  (reads_throw e).within

theorem within_throw_bind (e : Error) (f : α → Action β) :
    (throw e >>= f : Action β).Within files locks :=
  Reads.within fun _ _ => rfl

theorem within_read : (read : Action Host).Within files locks :=
  Reads.within fun _ _ => rfl

theorem within_get : (get : Action Store).Within files locks :=
  Reads.within fun _ _ => rfl

theorem within_now : now.Within files locks :=
  Reads.within fun _ _ => rfl

theorem within_ofExcept (r : Except Error α) : (ofExcept r).Within files locks :=
  Reads.within fun h s => by rw [perform_ofExcept]

theorem within_reading (f : Store → Except FileFault α) : (reading f).Within files locks :=
  Reads.within fun h s => by rw [perform_reading]

theorem Within.bind {a : Action α} {f : α → Action β} (ha : a.Within files locks)
    (hf : ∀ x, (f x).Within files locks) : (a >>= f).Within files locks := by
  intro h s
  have hfirst := ha h s
  rw [perform_bind]
  rcases hperform : a.perform h s with ⟨e | x, t⟩
  · rw [hperform] at hfirst
    exact hfirst
  · rw [hperform] at hfirst
    have hsecond := hf x h t
    have hplace : t.place = s.place := funext (Store.place_eq hfirst.home)
    rw [hplace] at hsecond
    exact hfirst.trans hsecond

/-- What an attempt answers and leaves is what the action does. -/
theorem perform_attempt (a : Action α) (h : Host) (s : Store) :
    (attempt a).perform h s = (.ok (a.perform h s).1, (a.perform h s).2) := by
  have hbody := perform_bind a (fun x => (pure (.ok x) : Action (Except Error α))) h s
  unfold attempt perform at *
  simp only [tryCatch, tryCatchThe, MonadExceptOf.tryCatch, ExceptT.tryCatch, ExceptT.mk, bind,
    StateT.bind]
  rw [show ReaderT.bind a (fun x => (pure (.ok x) : Action (Except Error α))) h s = _ from hbody]
  rcases a h s with ⟨e | x, t⟩ <;> rfl

theorem Within.attempt {a : Action α} (ha : a.Within files locks) :
    (attempt a).Within files locks := by
  intro h s
  rw [perform_attempt]
  exact ha h s

theorem Within.withReader {a : Action α} (ha : a.Within files locks) (f : Host → Host) :
    (withReader f a : Action α).Within files locks :=
  fun h s => ha (f h) s

/-! ### Files -/

theorem within_replaceFile (path : String) (bytes : ByteArray) :
    (replaceFile path bytes).Within [path] locks := by
  intro h s
  rw [perform_replaceFile]
  exact (s.replace_spec path bytes (h.clock 0)).touched _

theorem within_appendFile (path : String) (bytes : ByteArray) :
    (appendFile path bytes).Within [path] locks := by
  intro h s
  rw [perform_appendFile]
  exact (s.append_spec path bytes (h.clock 0)).touched _

theorem within_openLock (path : String) : (openLock path).Within files [path] := by
  intro h s
  exact (openLock_spec path h s).1.touched.mono (by simp) (by simp)

theorem Within.withLockFile {body : Action α} (hbody : body.Within files locks)
    {path : String} (hpath : path ∈ locks) (policy : LockPolicy) :
    (withLockFile path policy body).Within files locks := by
  unfold Action.withLockFile
  have hopen : (openLock path).Within files locks :=
    (within_openLock path).mono (fun _ h => h) (show [path] ⊆ locks by simpa using hpath)
  refine hopen.bind fun place => within_read.bind fun host => ?_
  dsimp only
  split
  · exact (within_throw _).bind fun _ => hbody.withReader _
  · exact hbody.withReader _

theorem Within.withLock {body : Action α} (hbody : body.Within files locks) {path : String}
    (hpath : lockPath path ∈ locks) (policy : LockPolicy) :
    (withLock path policy body).Within files locks :=
  hbody.withLockFile hpath policy

theorem within_readRecord? (read : Json.Document → Option α) (path : String) :
    (readRecord? read path).Within files locks :=
  (reads_readRecord? read path).within

/-! ### Locks -/

/-- The lock file of an opened lock is found in its place. -/
theorem openLock_found {path : String} {h : Host} {s t : Store} {place : List String}
    (hopen : (openLock path).perform h s = (.ok place, t)) :
    t.Found path ∧ place = t.place path := by
  rw [perform_openLock_eq] at hopen
  split at hopen
  · cases hopen
  · next u _ =>
    have hspec := (u.create_spec path (h.clock 0)).1
    rcases hmade : u.create path (h.clock 0) with ⟨fault | dest, v⟩ <;> rw [hmade] at hopen hspec
    · cases hopen
    · cases hopen
      obtain ⟨hfound, hplace⟩ := Store.found_create hmade
      exact ⟨hfound, hplace.trans (Store.place_eq hspec.home path).symm⟩

/-- Whatever is to be done under a lock is not begun, or it is done in a store in which the lock
file is found and by a process that holds the lock besides those it held. -/
theorem withLockFile_cases (path : String) (policy : LockPolicy) (h : Host) (s : Store) :
    ∃ u, ((openLock path).perform h s).2 = u ∧ Store.Touched [] [s.place path] s u ∧
      ((∃ err, ∀ {β : Type} (body : Action β),
          (withLockFile path policy body).perform h s = (.error err, u)) ∨
        u.Found path ∧ h.held.contains (u.place path) = false ∧ ∀ {β : Type} (body : Action β),
          (withLockFile path policy body).perform h s
            = body.perform { h with held := u.place path :: h.held } u) := by
  have hopens : (openLock path).Within [] [path] := within_openLock _
  refine ⟨_, rfl, hopens h s, ?_⟩
  rcases hopen : (openLock path).perform h s with ⟨err | place, u⟩
  · refine .inl ⟨err, fun body => ?_⟩
    rw [withLockFile, perform_bind, hopen]
  · obtain ⟨hfound, rfl⟩ := openLock_found hopen
    cases hheld : h.held.contains (u.place path) with
    | true =>
        refine .inl ⟨.lockContention path (Nat.max policy.attempts 1), fun body => ?_⟩
        rw [withLockFile, perform_bind, hopen]
        change ((if h.held.contains (u.place path) then _ else _ : Action _)).perform h u = _
        rw [if_pos hheld]
        rfl
    | false =>
        refine .inr ⟨hfound, rfl, fun body => ?_⟩
        rw [withLockFile, perform_bind, hopen]
        change ((if h.held.contains (u.place path) then _ else _ : Action _)).perform h u = _
        rw [if_neg (by rw [hheld]; decide)]
        rfl

/-- An action under a lock is not begun, or it is done in a store in which the lock file is
found and by a process that differs in the locks it holds. -/
theorem withLock_cases (path : String) (policy : LockPolicy) (body : Action α) (h : Host)
    (s : Store) :
    (∃ err t, (withLock path policy body).perform h s = (.error err, t) ∧
      Store.Touched [] [s.place (lockPath path)] s t) ∨
    ∃ u held, Store.Touched [] [s.place (lockPath path)] s u ∧ u.Found (lockPath path) ∧
      h.held.contains (u.place (lockPath path)) = false ∧
      (withLock path policy body).perform h s = body.perform { h with held := held } u := by
  obtain ⟨u, -, htouched, ⟨err, hperform⟩ | ⟨hfound, hheld, hperform⟩⟩ :=
    withLockFile_cases (lockPath path) policy h s
  · exact .inl ⟨err, u, hperform body, htouched⟩
  · exact .inr ⟨u, _, htouched, hfound, hheld, hperform body⟩

/-- An action under a lock that is there and free is done. -/
theorem perform_withLock {path : String} {h : Host} {s : Store} (hfound : s.Found (lockPath path))
    (hfree : h.held.contains (s.place (lockPath path)) = false) (policy : LockPolicy)
    (body : Action α) : (withLock path policy body).perform h s
      = body.perform { h with held := s.place (lockPath path) :: h.held } s := by
  rw [withLock, withLockFile, perform_bind, perform_openLock hfound]
  change ((if h.held.contains (s.place (lockPath path)) then _ else _ : Action α)).perform h s = _
  rw [if_neg (by rw [hfree]; decide)]
  rfl

/-! ### Graph files and registries -/

theorem within_load (path : String) : (GraphFile.load path).Within files locks :=
  (within_reading _).bind fun _ => within_ofExcept _

theorem within_save (path : String) (p : Pipeline) :
    (GraphFile.save path p).Within [path] locks :=
  (within_replaceFile path _).bind fun _ => within_pure _

theorem within_transition (e : Engine) (graph : String) (q : Request) :
    (e.transition graph q).Within [e.auditLog, graph] [lockPath graph] := by
  have happend : ∀ r, (AuditLog.append e.auditLog r).Within [e.auditLog, graph] [lockPath graph] :=
    fun r => (within_appendFile e.auditLog _).mono (by simp) (fun _ h => h)
  have hsave : ∀ p, (GraphFile.save graph p).Within [e.auditLog, graph] [lockPath graph] :=
    fun p => (within_save graph p).mono (by simp) (fun _ h => h)
  unfold Engine.transition Engine.transitionLocked
  refine Within.withLock ?_ (List.mem_singleton.mpr rfl) _
  refine (within_load graph).bind fun p => within_get.bind fun s => within_now.bind fun now => ?_
  refine (within_ofExcept _).bind fun v => ?_
  cases v with
  | granted after record =>
      exact (happend record).bind fun _ => (hsave after).bind fun _ => within_pure _
  | exhausted after record attempts =>
      exact (happend record).bind fun _ => (hsave after).bind fun _ => within_throw _

theorem reads_findByName (r : Registry) (name : String) : (r.findByName name).Reads := by
  have hread : ∀ names, (r.readAll names).Reads := by
    intro names
    induction names with
    | nil => exact reads_pure _
    | cons n names ih =>
        exact (reads_readRecord? _ _).bind fun _ => ih.bind fun _ => reads_pure _
  refine Reads.bind ?_ fun _ => reads_pure _
  exact (reads_readingIfThere _).bind fun _ => (hread _).bind fun _ => reads_pure _

/-! ### Files that are kept -/

/-- The action leaves what the path holds as it is. -/
def Keeps (path : String) (a : Action α) : Prop :=
  ∀ h s, Store.Keeps path s (a.perform h s).2

theorem keeps_pure (x : α) : (pure x : Action α).Keeps path :=
  fun _ s => .refl path s

theorem Keeps.bind {a : Action α} {f : α → Action β} (ha : a.Keeps path)
    (hf : ∀ x, (f x).Keeps path) : (a >>= f).Keeps path := by
  intro h s
  have hfirst := ha h s
  rw [perform_bind]
  rcases hperform : a.perform h s with ⟨e | x, t⟩
  · rw [hperform] at hfirst
    exact hfirst
  · rw [hperform] at hfirst
    exact hfirst.trans (hf x h t)

theorem Keeps.attempt {a : Action α} (ha : a.Keeps path) : (attempt a).Keeps path := by
  intro h s
  rw [perform_attempt]
  exact ha h s

end Action

end Pipewright
