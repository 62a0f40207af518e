import Mathlib.Data.Set.Card
import Pipewright.Proofs.Signal.Delivery

/-!
# The archive of a mailbox

A signal that is taken is moved into the archive under the name that it has, and
a file that stood there under this name is gone then. Names are told apart only
from those of signals that still wait when one is sent. So it comes to this when
a clock is read twice alike or has been set back, or where somebody else has put
a file. What a call does to the archive is one of two things, whatever the
mailbox holds (`Filing`): nothing, or one file comes in from the signals that
wait, and every file of another name stays as it is. So over a run the archive
grows by one file for each signal that is received, less those that took the
place of another (`run_archive`).
-/

namespace Pipewright

open Pipewright.Action

/-! ## Files at places -/

namespace Store

variable {s t : Store} {place : List String} {files locks : List (List String)} {bytes : ByteArray}

/-- The bytes of the file at a place; none if no file stands there. -/
def fileAt? (s : Store) (place : List String) : Option ByteArray :=
  match s.at? place with
  | some (.file bytes _) => some bytes
  | _ => none

theorem fileAt?_of_at? {modified : Instant} (h : s.at? place = some (.file bytes modified)) :
    s.fileAt? place = some bytes := by
  rw [fileAt?, h]

theorem fileAt?_eq_some (h : s.fileAt? place = some bytes) :
    ∃ modified, s.at? place = some (.file bytes modified) := by
  rw [fileAt?] at h
  split at h
  · next hat => exact ⟨_, by rw [hat, Option.some.inj h]⟩
  · cases h

/-- What is written elsewhere leaves a file as it is, and makes none. -/
theorem Touched.fileAt? (h : Touched files locks s t) (hfile : place ∉ files)
    (hlock : place ∉ locks) :
    t.fileAt? place = s.fileAt? place := by
  rw [Store.fileAt?, Store.fileAt?]
  cases hat : s.at? place with
  | some entry => rw [h.kept place entry hfile hat]
  | none =>
    rcases h.added place hfile hat with hnone | hdir | ⟨hmem, -⟩
    · rw [hnone]
    · rw [hdir]
    · exact absurd hmem hlock

/-- A file is moved from the one place to the other, or nothing is done. -/
theorem move_cases (s : Store) (p q : String) :
    (∃ fault, s.move p q = (.error fault, s)) ∨
    ∃ bytes t, s.move p q = (.ok (), t) ∧ s.fileAt? (s.place p) = some bytes ∧
      t.fileAt? (s.place q) = some bytes ∧ (s.place p ≠ s.place q → t.at? (s.place p) = none) ∧
      Altered [s.place p, s.place q] s t := by
  rw [move]
  cases hlocate : s.locate p with
  | error fault => exact .inl ⟨fault, rfl⟩
  | ok a =>
    obtain rfl := locate_eq hlocate
    cases hlanding : s.landing q with
    | error fault => exact .inl ⟨fault, rfl⟩
    | ok b =>
      obtain ⟨hb, hno, -⟩ := landing_eq_ok hlanding
      subst hb
      dsimp only
      cases hat : s.at? (s.place p) with
      | none => exact .inl ⟨_, rfl⟩
      | some entry =>
        cases entry with
        | directory => exact .inl ⟨_, rfl⟩
        | file bytes modified =>
          have hsource : s.at? (s.place p) ≠ some .directory := by rw [hat]; simp
          have hremove := altered_remove hsource
          have hfree : (s.remove (s.place p)).at? (s.place q) ≠ some .directory := by
            rw [at?_remove (isPrefixOf_of_at? hsource)]
            split
            · simp
            · exact hno
          have hput := at?_put (isPrefixOf_of_at? hfree) (.file bytes modified)
          refine .inr ⟨bytes, _, rfl, fileAt?_of_at? hat, ?_, fun hne => ?_,
            hremove.trans (altered_put hfree _)⟩
          · exact fileAt?_of_at? (by rw [hput, if_pos rfl])
          · rw [hput, if_neg hne, at?_remove (isPrefixOf_of_at? hsource), if_pos rfl]

theorem fileAt?_makeDirs (s : Store) (p : String) (place : List String) :
    (s.makeDirs p).2.fileAt? place = s.fileAt? place := by
  have htouched := (grown_makeDirs [] s p).touched
  by_cases hroot : place = []
  · have hdir : ∀ u : Store, u.at? [] = some .directory := fun u => rfl
    rw [hroot, fileAt?, fileAt?, hdir, hdir]
  · exact htouched.fileAt? (by simp) (by simpa using hroot)

end Store

namespace Mailbox

open Signal Store

variable {dir name : String} {s t u : Store} {c : Turn} {cs : List Turn} {r : Received} {h : Host}

/-! ## Files in a mailbox -/

/-- The bytes of the file with a name in a directory. -/
def fileIn (d : String) (s : Store) (name : String) : Option ByteArray :=
  s.fileAt? (s.place d ++ [name])

/-- The archive is as it was, and every file that waits has waited before. -/
structure Aside (dir : String) (s t : Store) : Prop where
  home : t.home = s.home
  archive : ∀ name, fileIn (processedDir dir) t name = fileIn (processedDir dir) s name
  waits : ∀ name bytes, fileIn dir t name = some bytes → fileIn dir s name = some bytes

theorem Aside.refl (dir : String) (s : Store) : Aside dir s s := ⟨rfl, fun _ => rfl, fun _ _ => id⟩

theorem Aside.trans (h : Aside dir s t) (h' : Aside dir t u) : Aside dir s u where
  home := h'.home.trans h.home
  archive := fun name => (h'.archive name).trans (h.archive name)
  waits := fun name bytes hu => h.waits name bytes (h'.waits name bytes hu)

/-- A file that waited has been received: it is in the archive, with the bytes that it had, and
every file of another name that is there was there before and is the same. -/
structure Filed (dir : String) (s : Store) (r : Received) (t : Store) : Prop where
  path : r.archivedTo = Path.join (processedDir dir) r.fileName
  waited : ∃ bytes, fileIn dir s r.fileName = some bytes ∧ signalOf? bytes = some r.signal ∧
    fileIn (processedDir dir) t r.fileName = some bytes
  gone : fileIn dir t r.fileName = none
  others : ∀ name, name ≠ r.fileName →
    fileIn (processedDir dir) t name = fileIn (processedDir dir) s name

theorem Filed.after (h : Filed dir t r u) (haside : Aside dir s t) : Filed dir s r u where
  path := h.path
  waited := by
    obtain ⟨bytes, hstood, hread, harrived⟩ := h.waited
    exact ⟨bytes, haside.waits _ _ hstood, hread, harrived⟩
  gone := h.gone
  others := fun name hname => (h.others name hname).trans (haside.archive name)

/-! ## What taking does -/

theorem aside_makeDirs (dir : String) (s : Store) (p : String) : Aside dir s (s.makeDirs p).2 := by
  have hhome := (grown_makeDirs [] s p).home
  have hsame : ∀ d name, fileIn d (s.makeDirs p).2 name = fileIn d s name := by
    intro d name
    rw [fileIn, fileIn, place_eq hhome, fileAt?_makeDirs]
  exact ⟨hhome, hsame _, fun name bytes h => hsame dir name ▸ h⟩

/-- A file that waits is moved out of the mailbox, to where no file waits and none is archived. -/
theorem aside_move {q : String} (hname : Path.IsName name)
    (hq : ∀ other, s.place q ≠ s.place dir ++ [other] ∧
      s.place q ≠ s.place (processedDir dir) ++ [other]) :
    Aside dir s (s.move (Path.join dir name) q).2 := by
  rcases s.move_cases (Path.join dir name) q with
    ⟨fault, hmove⟩ | ⟨bytes, t, hmove, -, -, hgone, haltered⟩ <;> rw [hmove]
  · exact .refl dir s
  · rw [s.place_join dir hname] at hgone haltered
    refine ⟨haltered.home, fun other => ?_, fun other bytes hother => ?_⟩
    · rw [fileIn, fileIn, place_eq haltered.home]
      refine haltered.touched.fileAt? ?_ (by simp)
      simpa [place_processedDir] using (hq other).2.symm
    · rw [fileIn, place_eq haltered.home] at hother
      by_cases heq : other = name
      · rw [heq, fileAt?, hgone (hq name).1.symm] at hother
        cases hother
      · rwa [haltered.touched.fileAt? (by simpa [heq] using (hq other).1.symm) (by simp)] at hother

theorem perform_tryCatch (a : Action Unit) (h : Host) (s : Store) :
    (tryCatch a fun _ => pure ()).perform h s = (.ok (), (a.perform h s).2) := by
  unfold perform
  simp only [tryCatch, tryCatchThe, MonadExceptOf.tryCatch, ExceptT.tryCatch, ExceptT.mk, bind,
    StateT.bind]
  rcases a h s with ⟨err | ⟨⟩, t⟩ <;> rfl

/-- A file that is no signal is moved out of the way, or it stays. -/
theorem aside_reject (dir : String) (hname : Path.IsName name) (h : Host) (s : Store) :
    ∃ t, (reject dir name).perform h s = (.ok (), t) ∧ Aside dir s t := by
  have hmade := aside_makeDirs dir s (rejectedDir dir)
  refine ⟨_, by rw [reject, perform_tryCatch], ?_⟩
  rw [perform_bind, perform_makeDirs]
  rcases hmake : s.makeDirs (rejectedDir dir) with ⟨fault | ⟨⟩, u⟩ <;> rw [hmake] at hmade
  · exact hmade
  · have hplace : u.place (Path.join (rejectedDir dir) name) = u.place dir ++
        ["rejected", name] := by
      rw [u.place_join _ hname, rejectedDir, u.place_join dir ⟨by decide, 'd', rfl, by decide⟩,
        List.append_assoc]
      rfl
    dsimp only [Except.mapError]
    rw [perform_writing]
    refine hmade.trans (aside_move hname fun other => ?_)
    rw [hplace, place_processedDir]
    simp

/-- A file that waits is claimed, or it is left to others and the archive is as it was. -/
theorem perform_claim_cases (dir : String) (hname : Path.IsName name) (h : Host) (s : Store) :
    (∃ x t, (claim dir name).perform h s = (x, t) ∧ (∀ target, x ≠ .ok (some target)) ∧
      Aside dir s t) ∨
    ∃ bytes t, (claim dir name).perform h s = (.ok (some (Path.join (processedDir dir) name)), t) ∧
      fileIn dir s name = some bytes ∧ fileIn (processedDir dir) t name = some bytes ∧
      fileIn dir t name = none ∧ ∀ other, other ≠ name →
        fileIn (processedDir dir) t other = fileIn (processedDir dir) s other := by
  have hmade := aside_makeDirs dir s (processedDir dir)
  rw [claim, perform_bind, perform_makeDirs]
  rcases hmake : s.makeDirs (processedDir dir) with ⟨fault | ⟨⟩, u⟩ <;> rw [hmake] at hmade
  · exact .inl ⟨_, u, rfl, by simp, hmade⟩
  · dsimp only [Except.mapError]
    rw [perform_bind, perform_get]
    dsimp only
    rcases u.move_cases (Path.join dir name) (Path.join (processedDir dir) name) with
      ⟨fault, hmove⟩ | ⟨bytes, t, hmove, hstood, harrived, hgone, haltered⟩ <;> rw [hmove]
    · cases fault with
      | notFound => exact .inl ⟨.ok none, u, rfl, by simp, hmade⟩
      | _ => exact .inl ⟨_, u, rfl, by simp, hmade⟩
    · rw [u.place_join dir hname] at hstood hgone haltered
      rw [u.place_join (processedDir dir) hname] at harrived hgone haltered
      refine .inr ⟨bytes, t, rfl, hmade.waits _ _ hstood, ?_, ?_, fun other hother => ?_⟩
      · rwa [fileIn, place_eq haltered.home]
      · rw [fileIn, place_eq haltered.home, fileAt?, hgone (by simp [place_processedDir])]
      · rw [← hmade.archive other, fileIn, fileIn, place_eq haltered.home]
        refine haltered.touched.fileAt? ?_ (by simp)
        simp [place_processedDir, hother]

theorem fileIn_of_readBytes {bytes : ByteArray} (hname : Path.IsName name)
    (hread : s.readBytes (Path.join dir name) = .ok bytes) : fileIn dir s name = some bytes := by
  rw [readBytes] at hread
  rcases hfind : s.find (Path.join dir name) with
    fault | ⟨bytes', modified⟩ | - <;> rw [hfind] at hread
  · cases hread
  · obtain rfl : bytes' = bytes := Except.ok.inj hread
    have hat := (find_eq_file.mp hfind).2.1
    rw [s.place_join dir hname] at hat
    exact fileAt?_of_at? hat
  · cases hread

/-- Nothing is received and the archive is as it was, or one of the files that wait is received. -/
inductive Takes (dir : String) (s : Store) : Except Error (Option Received) × Store → Prop
  | nothing {x : Except Error (Option Received)} {t : Store} (answer : ∀ r, x ≠ .ok (some r))
      (aside : Aside dir s t) : Takes dir s (x, t)
  | one {r : Received} {t : Store} (filed : Filed dir s r t) : Takes dir s (.ok (some r), t)

theorem Takes.after {x : Except Error (Option Received) × Store} (h : Takes dir t x)
    (haside : Aside dir s t) : Takes dir s x := by
  cases h with
  | nothing answer aside => exact .nothing answer (haside.trans aside)
  | one filed => exact .one (filed.after haside)

theorem takes_takeFrom {f : Filter} {names : List String}
    (hnames : ∀ name ∈ names, Path.IsName name)
    (h : Host) (s : Store) : Takes dir s ((takeFrom dir f names).perform h s) := by
  induction names generalizing s with
  | nil => exact .nothing (by simp) (.refl dir s)
  | cons name names ih =>
    have hname := hnames name (List.mem_cons_self ..)
    have hlater := ih fun other hother => hnames other (List.mem_cons_of_mem _ hother)
    rw [takeFrom, perform_bind, readFile?, perform_readingIfThere]
    rcases hread : s.readBytes (Path.join dir name) with fault | bytes
    · cases fault with
      | notFound => exact hlater s
      | _ => exact .nothing (by simp) (.refl dir s)
    have hstood := fileIn_of_readBytes hname hread
    dsimp only
    cases hsignal : signalOf? bytes with
    | none =>
      obtain ⟨u, hreject, haside⟩ := aside_reject dir hname h s
      dsimp only
      rw [perform_bind, hreject]
      exact (hlater u).after haside
    | some signal =>
      dsimp only
      split
      · rw [perform_bind]
        rcases perform_claim_cases dir hname h s with
          ⟨err | target, u, hclaim, hno, haside⟩
            | ⟨bytes', t, hclaim, hclaimed, harrived, hgone, hothers⟩ <;>
          rw [hclaim]
        · exact .nothing (by simp) haside
        · cases target with
          | none => exact (hlater u).after haside
          | some target => exact absurd rfl (hno target)
        · obtain rfl : bytes' = bytes := Option.some.inj (hclaimed.symm.trans hstood)
          exact .one ⟨rfl, ⟨bytes', hstood, hsignal, harrived⟩, hgone, hothers⟩
      · exact hlater s

theorem takes_take? (dir : String) (f : Filter) (h : Host) (s : Store) :
    Takes dir s ((take? dir f).perform h s) := by
  rw [take?, perform_bind, files, perform_bind, perform_readingIfThere]
  rcases s.list dir with fault | names
  · cases fault <;> exact .nothing (by simp) (.refl dir s)
  · exact takes_takeFrom (fun name hname => isName_of_isSignalFile (List.mem_filter.mp hname).2) h s

theorem takes_await (dir : String) (f : Filter) (looks : Nat) (h : Host) (s : Store) :
    Takes dir s ((await dir f looks).perform h s) := by
  induction looks generalizing s with
  | zero => exact takes_take? dir f h s
  | succ looks ih =>
    have htake := takes_take? dir f h s
    rw [await, perform_bind]
    rcases hperform : (take? dir f).perform h s with ⟨err | _ | r, u⟩ <;> rw [hperform] at htake
    · cases htake with
      | nothing _ aside => exact .nothing (by simp) aside
    · cases htake with
      | nothing _ aside => exact (ih u).after aside
    · exact htake

/-! ## What a turn does -/

/-- Sending puts no file into the archive and takes none out. -/
theorem fileIn_send (dir sender recipient : String) (type : SignalType) (payload : Json) (h : Host)
    (s : Store) (name : String) :
    fileIn (processedDir dir) ((send dir sender recipient type payload).perform h s).2 name
      = fileIn (processedDir dir) s name := by
  have hmade := aside_makeDirs dir s dir
  rw [send, perform_bind, perform_makeDirs]
  rcases hmake : s.makeDirs dir with ⟨fault | ⟨⟩, u⟩ <;> rw [hmake] at hmade
  · exact hmade.archive name
  · dsimp only [Except.mapError]
    rw [perform_bind, perform_reading, ← hmade.archive name]
    cases u.origin (u.draft dir) with
    | error fault => rfl
    | ok start =>
      dsimp only [Except.mapError]
      rcases posted_sendFrom dir sender recipient type payload h u sendAttempts 0 with
        ⟨err, hperform⟩ | ⟨k, t, hperform, haltered, -⟩ <;> rw [hperform]
      rw [fileIn, fileIn, place_eq haltered.home]
      refine haltered.touched.fileAt? ?_ (by simp)
      rw [letterOf, u.place_join dir (isName_fileName ..), place_processedDir]
      simp

/-- A turn receives one of the files that wait, or the archive is as it was. -/
theorem Turn.filed (c : Turn) (dir : String) :
    (c.received? dir = none ∧ ∀ name, fileIn (processedDir dir) (c.after dir) name
      = fileIn (processedDir dir) c.before name) ∨
    ∃ r, c.received? dir = some r ∧ Filed dir c.before r (c.after dir) := by
  rw [Turn.received?, Turn.answer, Turn.after]
  cases hask : c.ask with
  | send sender recipient text payload => exact .inl ⟨rfl, fun name => fileIn_send ..⟩
  | await f looks =>
    have htakes := takes_await dir f looks c.host c.before
    rw [reply]
    dsimp only
    rcases hperform : (await dir f looks).perform c.host c.before with ⟨err | _ | r, t⟩ <;>
      rw [hperform] at htakes
    · cases htakes with
      | nothing _ aside => exact .inl ⟨rfl, aside.archive⟩
    · cases htakes with
      | nothing _ aside => exact .inl ⟨rfl, aside.archive⟩
    · cases htakes with
      | nothing answer => exact absurd rfl (answer r)
      | one filed => exact .inr ⟨r, rfl, filed⟩

/-! ## Counting -/

def archived (dir : String) (s : Store) : Set String :=
  {name | (fileIn (processedDir dir) s name).isSome}

/-- The call receives a signal, and a file stands in the archive already under its name. -/
def Turn.overwrites (c : Turn) (dir : String) : Bool :=
  match c.received? dir with
  | some r => (fileIn (processedDir dir) c.before r.fileName).isSome
  | none => false

theorem mem_archived :
    name ∈ archived dir s ↔ (fileIn (processedDir dir) s name).isSome := Iff.rfl

theorem finite_archived (dir : String) (s : Store) : (archived dir s).Finite := by
  have hinjective : Function.Injective fun name => s.place (processedDir dir) ++ [name] := by
    intro a b hab
    simpa using hab
  refine ((s.entries.map Prod.fst).finite_toSet.preimage hinjective.injOn).subset fun name
    hname => ?_
  obtain ⟨bytes, hbytes⟩ := Option.isSome_iff_exists.mp hname
  obtain ⟨modified, hat⟩ := fileAt?_eq_some hbytes
  exact List.mem_map_of_mem (f := Prod.fst) (mem_entries_of_file hat)

/-- The archive grows by the file that is received, unless that takes the place of another. -/
theorem Turn.ncard_archived (c : Turn) (dir : String) :
    (archived dir (c.after dir)).ncard + (if c.overwrites dir then 1 else 0)
      = (archived dir c.before).ncard + (c.received? dir).toList.length := by
  rcases c.filed dir with ⟨hnone, hsame⟩ | ⟨r, hsome, hfiled⟩
  · have harchived : archived dir (c.after dir) = archived dir c.before := by
      ext name
      rw [mem_archived, mem_archived, hsame]
    rw [Turn.overwrites, hnone, harchived]
    rfl
  · obtain ⟨bytes, -, -, harrived⟩ := hfiled.waited
    have harchived : archived dir (c.after dir) = insert r.fileName (archived dir c.before) := by
      ext name
      rw [Set.mem_insert_iff, mem_archived, mem_archived]
      by_cases hname : name = r.fileName
      · simp [hname, harrived]
      · simp [hname, hfiled.others name hname]
    rw [Turn.overwrites, hsome, harchived]
    dsimp only
    by_cases hthere : r.fileName ∈ archived dir c.before
    · rw [if_pos (mem_archived.mp hthere), Set.ncard_insert_of_mem hthere]
      rfl
    · rw [if_neg (mt mem_archived.mpr hthere),
        Set.ncard_insert_of_notMem hthere (finite_archived dir c.before)]
      rfl

theorem Run.ncard_archived (hrun : Run dir s cs t) :
    (archived dir t).ncard + cs.countP (·.overwrites dir)
      = (archived dir s).ncard + (received dir cs).length := by
  induction hrun with
  | start => rfl
  | @call cs t run ask host ih =>
    have hturn := Turn.ncard_archived ⟨ask, host, t⟩ dir
    dsimp only at hturn
    rw [List.countP_append, List.countP_singleton, received_concat, List.length_append]
    omega

/-- A file under whose name nothing is received stays in the archive. -/
theorem Run.fileIn_archive (hrun : Run dir s cs t)
    (hname : name ∉ (received dir cs).map (·.fileName)) :
    fileIn (processedDir dir) t name = fileIn (processedDir dir) s name := by
  induction hrun with
  | start => rfl
  | @call cs t run ask host ih =>
    rw [received_concat, List.map_append, List.mem_append, not_or] at hname
    rw [← ih hname.1]
    rcases Turn.filed ⟨ask, host, t⟩ dir with ⟨-, hsame⟩ | ⟨r, hsome, hfiled⟩
    · exact hsame name
    · refine hfiled.others name fun heq => hname.2 ?_
      rw [hsome, heq]
      exact List.mem_singleton_self _

/-- What becomes of the archive in any run of calls, whatever is in the mailbox and its archive, and
whatever the clocks show. A signal that is received was in a file that waited; this file is in the
archive then, and all files there that have other names are the same as before. So a file of the
archive is lost only where a signal is received under its name; and the archive grows by as many
files as signals are received if and only if no file is lost in this way. -/
theorem run_archive (hrun : Run dir s cs t) :
    (∀ c ∈ cs, ∀ r, c.received? dir = some r → Filed dir c.before r (c.after dir)) ∧
    (∀ name, name ∉ (received dir cs).map (·.fileName) →
      fileIn (processedDir dir) t name = fileIn (processedDir dir) s name) ∧
    (archived dir t).ncard + cs.countP (·.overwrites dir)
      = (archived dir s).ncard + (received dir cs).length ∧
    ((archived dir t).ncard = (archived dir s).ncard + (received dir cs).length ↔
      ∀ c ∈ cs, ¬c.overwrites dir) := by
  have hcount := hrun.ncard_archived
  refine ⟨fun c _ r hr => ?_, fun name hname => hrun.fileIn_archive hname, hcount, ?_⟩
  · rcases c.filed dir with ⟨hnone, -⟩ | ⟨r', hsome, hfiled⟩
    · rw [hnone] at hr
      cases hr
    · obtain rfl := Option.some.inj (hsome.symm.trans hr)
      exact hfiled
  · rw [← List.countP_eq_zero]
    omega

def twiceName : String := "19700101T000000000000Z-a-b-MERGED.json"

def earlySignal (payload : Json) : Signal :=
    ⟨"a", "b", .merged, payload, "1970-01-01T00:00:00+00:00"⟩

/-- A mailbox in which a signal waits under the name of one that has been taken. -/
def twiceStore : Store where
  entries := [(["home", "box"], .directory), (["home", "box", "processed"], .directory),
    (["home", "box", "processed", twiceName], .file (bytesOf (earlySignal .null)) default),
    (["home", "box", twiceName], .file (bytesOf (earlySignal (.text "again"))) default)]

def secondTurn : Turn := ⟨.await {} 0, .idle, twiceStore⟩

def secondReceived : Received :=
  ⟨earlySignal (.text "again"), twiceName, "box/processed/19700101T000000000000Z-a-b-MERGED.json"⟩

theorem shelf_twiceStore : Shelf "box" twiceStore [(twiceName, earlySignal (.text "again"))] where
  mail := List.forall_mem_singleton.mpr
    ⟨by decide, ⟨by decide, 'n', rfl, by decide⟩, ⟨by decide, by decide, by decide⟩⟩
  holds := List.forall_mem_singleton.mpr ⟨default, by rfl⟩
  only := by
    intro name hname hat
    by_cases heq : name = twiceName
    · exact ⟨_, List.mem_singleton_self _, heq.symm⟩
    · refine absurd ?_ hat
      have hother : name ≠ "processed" := ne_processed hname
      have hplace : twiceStore.place "box" ++ [name] = ["home", "box", name] := rfl
      rw [hplace]
      simp [Store.at?, twiceStore, heq, hother]

theorem claim_twiceStore : ∃ t, (claim "box" twiceName).perform .idle twiceStore =
    (.ok (some secondReceived.archivedTo), t) := ⟨_, by rfl⟩

theorem received?_secondTurn : secondTurn.received? "box" = some secondReceived := by
  have hmem := List.mem_singleton_self (twiceName, earlySignal (.text "again"))
  obtain ⟨names, hfiles, -, hnames⟩ := shelf_twiceStore.perform_files (by decide) .idle
  obtain ⟨rest, rfl⟩ : ∃ rest, names = twiceName :: rest := by
    cases names with
    | nil => exact absurd ((hnames twiceName).mpr ⟨_, hmem, rfl⟩) List.not_mem_nil
    | cons name rest =>
      obtain ⟨m, hm, rfl⟩ := (hnames name).mp (List.mem_cons_self ..)
      exact ⟨rest, by rw [List.mem_singleton.mp hm]⟩
  obtain ⟨t, hclaim⟩ := claim_twiceStore
  have htake : (take? "box" {}).perform .idle twiceStore = (.ok (some secondReceived), t) := by
    rw [take?, perform_bind, hfiles]
    exact perform_takeFrom_of_claim (perform_readFile?_of_has (shelf_twiceStore.holds _ hmem) .idle)
      (signalOf?_pretty (shelf_twiceStore.mail _ hmem).readable) (by decide) hclaim rest
  obtain ⟨hanswer, -⟩ := Turn.of_ask (c := secondTurn) rfl
    (show reply "box" .idle twiceStore (.await {} 0) = (.received (.ok (some secondReceived)), t) by
      rw [reply, await, htake])
  rw [Turn.received?, hanswer]

/-- The signal takes the place of the one that was taken before. -/
theorem run_archive_twiceStore :
    Run "box" twiceStore [secondTurn] (secondTurn.after "box") ∧ secondTurn.overwrites "box" ∧
    fileIn (processedDir "box") twiceStore twiceName = some (bytesOf (earlySignal .null)) ∧
    fileIn (processedDir "box") (secondTurn.after "box") twiceName
      = some (bytesOf (earlySignal (.text "again"))) ∧
    (archived "box" (secondTurn.after "box")).ncard = (archived "box" twiceStore).ncard := by
  have hrun : Run "box" twiceStore [secondTurn] (secondTurn.after "box") :=
    Run.start.call (.await {} 0) .idle
  have hold : fileIn (processedDir "box") twiceStore twiceName
      = some (bytesOf (earlySignal .null)) := by
    rfl
  have hwaits : fileIn "box" twiceStore twiceName
      = some (bytesOf (earlySignal (.text "again"))) := by rfl
  have hoverwrites : secondTurn.overwrites "box" := by
    rw [Turn.overwrites, received?_secondTurn]
    exact congrArg Option.isSome hold
  obtain ⟨hfiled, -, hcount, -⟩ := run_archive hrun
  obtain ⟨bytes, hstood, -, harrived⟩ :=
    (hfiled secondTurn (List.mem_singleton_self _) _ received?_secondTurn).waited
  obtain rfl := Option.some.inj (hwaits.symm.trans hstood)
  refine ⟨hrun, hoverwrites, hold, harrived, ?_⟩
  rw [List.countP_singleton, if_pos hoverwrites, received, List.filterMap_cons,
    received?_secondTurn]
    at hcount
  exact Nat.succ.inj hcount

end Mailbox

end Pipewright
