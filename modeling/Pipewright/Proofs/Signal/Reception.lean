import Pipewright.Proofs.Signal.Archive
import Pipewright.Proofs.Store.Siblings

/-!
# Looking through a mailbox

Whoever waits goes through the files of the mailbox in the order of their names. What can come of
one file is listed once (`Looked`): it cannot be read, or is no signal and is put aside, or is not
what is waited for, or is claimed. From this it follows what becomes of a file over any number of
looks. A signal that can be read stays where it is until it is received (`Waits.stays_await`), and
is received by whoever waits for it, unless another one comes first (`Legible.perform_await`); a
file that is no signal has been put aside when somebody has waited in vain (`rejects_await`).

Nothing is asked here of the files in the mailbox but that they can be read, whatever is in them.
-/

namespace Pipewright

open Pipewright.Action

/-! ## Moving into a directory inside, or failing to -/

namespace Store

variable {s t : Store} {dir inner name other : String} {x : Option ByteArray}

/-- Where a directory is there, making one in it alters nothing else. -/
theorem altered_makeDirs_join (hdir : s.isDirectory dir) (hname : Path.IsName name) :
    Altered [s.place dir ++ [name]] s (s.makeDirs (Path.join dir name)).2 := by
  have htouched := (grown_makeDirs [] s (Path.join dir name)).touched
  have hnew := newAt_makeDirs s (Path.join dir name)
  refine ⟨hnew.home, fun place hplace => ?_, htouched.directory⟩
  cases hat : s.at? place with
  | some entry => exact htouched.kept place entry (by simp) hat
  | none =>
    refine hnew.absent place (fun hstop => ?_) hat
    rcases mem_stops_join hname hstop with hstop | heq
    · rw [at?_of_mem_stops hdir hstop] at hat
      cases hat
    · exact hplace (List.mem_singleton.mpr heq)

theorem isClear_makeDirs {place : List String} (p : String) (h : s.IsClear place) :
    (s.makeDirs p).2.IsClear place := by
  have htouched := (grown_makeDirs [] s p).touched
  rcases h with hnone | hthere
  · by_cases hroot : place = []
    · exact .inr (by rw [hroot]; rfl)
    · exact (htouched.added place (by simp) hnone).imp_right fun h =>
        h.resolve_right fun hlock => hroot (List.mem_singleton.mp hlock.1)
  · exact .inr (htouched.directory place hthere)

/-- What is left when a file was to be moved into a directory inside: it stays, and this may have
been made, or it has been moved. -/
structure Attempted (dir inner name : String) (s t : Store) : Prop where
  altered : Altered (s.passage dir inner name) s t
  clear : s.IsClear (s.place dir ++ [inner]) → t.IsClear (s.place dir ++ [inner])
  source : t.at? (s.place dir ++ [name]) = none ∨ Altered [s.place dir ++ [inner]] s t

/-- There is still room for another file, there or in another directory inside. -/
theorem Attempted.hasRoom {into : String} (h : Attempted dir inner name s t)
    (hroom : s.HasRoom dir into other) (hinto : name ≠ into) (hother : other ≠ name) :
    t.HasRoom dir into other := by
  refine ⟨hroom.short, ?_, ?_⟩ <;> rw [place_eq h.altered.home]
  · by_cases hsame : into = inner
    · exact hsame ▸ h.clear (hsame ▸ hroom.within)
    · rw [IsClear, h.altered.kept _ (by simp [passage, hsame, hinto.symm])]
      exact hroom.within
  · rw [h.altered.kept _ (by simp [passage, hother])]
    exact hroom.free

theorem moveInto_cases (hdir : s.isDirectory dir) (hinner : Path.IsName inner)
    (hname : Path.IsName name)
    (hne : name ≠ inner) :
    ∃ u, (s.makeDirs (Path.join dir inner)).2 = u ∧ Altered [s.place dir ++ [inner]] s u ∧
      Attempted dir inner name s u ∧
      ((∃ fault, u.move (Path.join dir name) (Path.join (Path.join dir inner) name)
        = (.error fault, u)) ∨
      ∃ t, u.move (Path.join dir name) (Path.join (Path.join dir inner) name) = (.ok (), t) ∧
        Attempted dir inner name s t) := by
  have hmade := altered_makeDirs_join hdir hinner
  have hclear : s.IsClear (s.place dir ++ [inner]) → _ := isClear_makeDirs (Path.join dir inner)
  refine ⟨_, rfl, hmade, ⟨hmade.mono (by simp [passage]), hclear, .inr hmade⟩, ?_⟩
  generalize (s.makeDirs (Path.join dir inner)).2 = u at hmade hclear
  have hsource : u.place (Path.join dir name) = s.place dir ++ [name] := by
    rw [place_eq hmade.home, s.place_join dir hname]
  have htarget : u.place (Path.join (Path.join dir inner) name) = s.place dir ++ [inner, name] := by
    rw [place_eq hmade.home, s.place_join _ hname, s.place_join dir hinner, List.append_assoc]
    rfl
  rcases u.move_cases (Path.join dir name) (Path.join (Path.join dir inner) name) with
    hfault | ⟨-, t, hmove, -, -, hgone, haltered⟩
  · exact .inl hfault
  · rw [hsource, htarget] at hgone haltered
    refine .inr ⟨t, hmove, hmade.trans haltered, fun h => ?_, .inl (hgone (by simp))⟩
    rw [IsClear, haltered.kept _ (by simpa using hne.symm)]
    exact hclear h

theorem Altered.locate {places : List (List String)} {p : String} (h : Altered places s t)
    (hlocate : s.locate p = .ok (s.place p)) : t.locate p = .ok (t.place p) := by
  obtain ⟨start, horigin, hfollow⟩ := locate_eq_ok.mp hlocate
  rw [place_eq h.home]
  exact locate_eq_ok.mpr
    ⟨start, by rw [origin_eq_of_home h.home, horigin], h.touched.follow hfollow⟩

/-- What is on the way is on the way only for files of this name. -/
theorem Altered.has_of_passage (h : Altered (s.passage dir inner name) s t)
    (hother : Path.IsName other)
    (hinner : other ≠ inner) (hname : other ≠ name) (hx : s.Has (Path.join dir other) x) :
    t.Has (Path.join dir other) x := by
  refine h.has ?_ hx
  rw [s.place_join dir hother]
  simp [passage, hinner, hname]

end Store

namespace Mailbox

open Signal Store

variable {dir name other : String} {s t : Store} {bytes : ByteArray} {f : Filter} {m : Letter}
  {names front back : List String} {h : Host}

/-! ## Files that are put aside -/

theorem isPlainName_rejected : IsPlainName "rejected" :=
  ⟨⟨by decide, 'd', rfl, by decide⟩, by decide, by decide⟩

theorem ne_rejected (hname : isSignalFile name) : name ≠ "rejected" := by
  rintro rfl
  exact absurd hname (by decide)

/-- A file that is no signal is moved out of the way, or it stays. -/
theorem perform_reject_attempted (hdir : s.isDirectory dir) (hfile : isSignalFile name) (h : Host) :
    ∃ t, (reject dir name).perform h s = (.ok (), t) ∧ Attempted dir "rejected" name s t := by
  obtain ⟨u, hu, -, hmade, hmove⟩ := moveInto_cases hdir isPlainName_rejected.isName
    (isName_of_isSignalFile hfile) (ne_rejected hfile)
  refine ⟨_, by rw [reject, perform_tryCatch], ?_⟩
  rw [perform_bind, perform_makeDirs, rejectedDir, hu]
  cases (s.makeDirs (Path.join dir "rejected")).1 with
  | error fault => exact hmade
  | ok =>
    dsimp only [Except.mapError]
    rw [perform_writing]
    rcases hmove with ⟨fault, hmove⟩ | ⟨t, hmove, ht⟩ <;> rw [hmove]
    · exact hmade
    · exact ht

theorem perform_claim_attempted (hdir : s.isDirectory dir) (hfile : isSignalFile name) (h : Host) :
    ∃ x t, (claim dir name).perform h s = (x, t) ∧ Attempted dir "processed" name s t ∧
      (Altered [s.place dir ++ ["processed"]] s t ∧ (∀ target, x ≠ .ok (some target)) ∨
        x = .ok (some (Path.join (processedDir dir) name))) := by
  obtain ⟨u, hu, haltered, hmade, hmove⟩ := moveInto_cases hdir isName_processed
    (isName_of_isSignalFile hfile) (ne_processed hfile)
  rw [claim, perform_bind, perform_makeDirs, processedDir, hu]
  cases (s.makeDirs (Path.join dir "processed")).1 with
  | error fault => exact ⟨_, u, rfl, hmade, .inl ⟨haltered, by simp⟩⟩
  | ok =>
    dsimp only [Except.mapError]
    rw [perform_bind, perform_get]
    dsimp only
    rcases hmove with ⟨fault, hmove⟩ | ⟨t, hmove, ht⟩ <;> rw [hmove]
    · cases fault <;> exact ⟨_, u, rfl, hmade, .inl ⟨haltered, by simp⟩⟩
    · exact ⟨_, t, rfl, ht, .inr rfl⟩

/-! ## One file after another -/

/-- How looking goes on after a file was to be claimed; none if the next file is looked at. -/
def afterClaim (name : String) (signal : Signal) :
    Except Error (Option String) → Option (Except Error (Option Received))
  | .error err => some (.error err)
  | .ok none => none
  | .ok (some target) => some (.ok (some ⟨signal, name, target⟩))

/-- What comes of looking at a file: the answer, or none if the next file is looked at, and the
store that is left. -/
inductive Looked (dir : String) (f : Filter) (h : Host) (s : Store) (name : String) :
    Option (Except Error (Option Received)) → Store → Prop
  | unread {x : Option (Except Error (Option Received))} (answer : ∀ r, x ≠ some (.ok r))
      (unread : ∀ bytes, s.readBytes (Path.join dir name) ≠ .ok bytes) : Looked dir f h s name x s
  | rejected {bytes : ByteArray} {t : Store} (read : s.readBytes (Path.join dir name) = .ok bytes)
      (noSignal : signalOf? bytes = none) (reject : (reject dir name).perform h s = (.ok (), t)) :
      Looked dir f h s name none t
  | declined {bytes : ByteArray} {signal : Signal}
      (read : s.readBytes (Path.join dir name) = .ok bytes)
      (isSignal : signalOf? bytes = some signal) (declines : ¬f.accepts signal) :
    Looked dir f h s name none s
  | claimed {bytes : ByteArray} {signal : Signal} {x : Except Error (Option String)} {t : Store}
      (read : s.readBytes (Path.join dir name) = .ok bytes)
      (isSignal : signalOf? bytes = some signal)
      (accepts : f.accepts signal) (claim : (claim dir name).perform h s = (x, t)) :
      Looked dir f h s name (afterClaim name signal x) t

/-- The first file is looked at, and then perhaps the others. -/
theorem perform_takeFrom_cons (hdir : s.isDirectory dir) (hfile : isSignalFile name) (f : Filter)
    (names : List String) (h : Host) :
    ∃ x t, Looked dir f h s name x t ∧
      (takeFrom dir f (name :: names)).perform h s = x.elim ((takeFrom dir f names).perform h t)
      (·, t) := by
  rw [takeFrom, perform_bind, readFile?, perform_readingIfThere]
  rcases hread : s.readBytes (Path.join dir name) with fault | bytes
  · have hunread : ∀ bytes, s.readBytes (Path.join dir name) ≠ .ok bytes := by simp [hread]
    cases fault with
    | notFound => exact ⟨none, s, .unread (by simp) hunread, rfl⟩
    | _ => exact ⟨some (.error _), s, .unread (by simp) hunread, rfl⟩
  dsimp only
  cases hsignal : signalOf? bytes with
  | none =>
    obtain ⟨t, hreject, -⟩ := perform_reject_attempted hdir hfile h
    refine ⟨none, t, .rejected hread hsignal hreject, ?_⟩
    dsimp only
    rw [perform_bind, hreject]
    rfl
  | some signal =>
    dsimp only
    split
    · next haccepts =>
      rcases hclaim : (claim dir name).perform h s with ⟨x, t⟩
      refine ⟨_, t, .claimed hread hsignal haccepts hclaim, ?_⟩
      rw [perform_bind, hclaim]
      rcases x with err | _ | target <;> rfl
    · next hdeclines => exact ⟨none, s, .declined hread hsignal hdeclines, rfl⟩

theorem Looked.ne_nothing {x : Option (Except Error (Option Received))}
    (hlooked : Looked dir f h s name x t) : x ≠ some (.ok none) := by
  cases hlooked with
  | unread answer => exact answer none
  | @claimed bytes signal y => rcases y with err | _ | target <;> simp [afterClaim]
  | _ => simp

/-- Looking at a file leaves the store as it was, or as it is when a file was to be put aside or to
be claimed. -/
theorem Looked.attempted {x : Option (Except Error (Option Received))}
    (hlooked : Looked dir f h s name x t)
    (hdir : s.isDirectory dir) (hfile : isSignalFile name) :
    t = s ∨ Attempted dir "rejected" name s t ∨ Attempted dir "processed" name s t := by
  cases hlooked with
  | unread => exact .inl rfl
  | declined => exact .inl rfl
  | rejected _ _ hreject =>
    obtain ⟨u, hreject', hattempted⟩ := perform_reject_attempted hdir hfile h
    obtain rfl := (Prod.mk.inj (hreject.symm.trans hreject')).2
    exact .inr (.inl hattempted)
  | claimed _ _ _ hclaim =>
    obtain ⟨x, u, hclaim', hattempted, -⟩ := perform_claim_attempted hdir hfile h
    obtain rfl := (Prod.mk.inj (hclaim.symm.trans hclaim')).2
    exact .inr (.inr hattempted)

/-- Looking at a file alters nothing but what is on the way to where it may be put. -/
theorem Looked.altered {x : Option (Except Error (Option Received))}
    (hlooked : Looked dir f h s name x t)
    (hdir : s.isDirectory dir) (hfile : isSignalFile name) :
    Altered (s.passage dir "rejected" name ++ s.passage dir "processed" name) s t := by
  rcases hlooked.attempted hdir hfile with rfl | hattempted | hattempted
  · exact .refl _ t
  · exact hattempted.altered.mono (List.subset_append_left ..)
  · exact hattempted.altered.mono (List.subset_append_right ..)

theorem Looked.has {x : Option (Except Error (Option Received))}
    (hlooked : Looked dir f h s name x t)
    (hdir : s.isDirectory dir) (hfile : isSignalFile name) (hother : isSignalFile other)
    (hne : other ≠ name) (hhas : s.Has (Path.join dir other) (some bytes)) :
    t.Has (Path.join dir other) (some bytes) := by
  refine (hlooked.altered hdir hfile).has ?_ hhas
  rw [s.place_join dir (isName_of_isSignalFile hother)]
  simp [passage, ne_rejected hother, ne_processed hother, hne]

/-! ## Signals that stay -/

/-- The signal is where it was, unless it has been received. -/
def StaysOr (dir : String) (m : Letter) (r : Except Error (Option Received) × Store) : Prop :=
  r.2.isDirectory dir ∧ Waits dir r.2 m ∨ ∃ received, r.1 = .ok (some received) ∧
    received.letter = m

/-- Looking at the file of a signal leaves it where it is, unless the signal is received. -/
theorem Looked.stays {x : Option (Except Error (Option Received))}
    (hlooked : Looked dir f h s name x t)
    (hdir : s.isDirectory dir) (hfile : isSignalFile name) (hs : Waits dir s m) :
    Waits dir t m ∨ ∃ r, x = some (.ok (some r)) ∧ r.letter = m := by
  obtain ⟨bytes, hhas, hsignal⟩ := hs.readable
  by_cases hne : m.1 = name
  · subst hne
    have hbytes := readBytes_of_has hhas
    cases hlooked with
    | unread => exact .inl hs
    | declined => exact .inl hs
    | rejected hread hnone =>
      obtain rfl := Except.ok.inj (hread.symm.trans hbytes)
      rw [hsignal] at hnone
      cases hnone
    | claimed hread hfound _ hclaim =>
      obtain rfl := Except.ok.inj (hread.symm.trans hbytes)
      obtain rfl := Option.some.inj (hsignal.symm.trans hfound)
      obtain ⟨y, u, hclaim', -, ⟨haltered, -⟩ | rfl⟩ := perform_claim_attempted hdir hfile h <;>
        obtain ⟨rfl, rfl⟩ := Prod.mk.inj (hclaim.symm.trans hclaim')
      · refine .inl ⟨hs.file, _, haltered.has ?_ hhas, hsignal⟩
        rw [s.place_join dir (isName_of_isSignalFile hfile)]
        simpa using ne_processed hfile
      · exact .inr ⟨_, rfl, rfl⟩
  · exact .inl ⟨hs.file, bytes, hlooked.has hdir hfile hs.file hne hhas, hsignal⟩

theorem Waits.stays_takeFrom (hs : Waits dir s m) (hnames : ∀ name ∈ names, isSignalFile name)
    (hdir : s.isDirectory dir) (f : Filter) (h : Host) :
    StaysOr dir m ((takeFrom dir f names).perform h s) := by
  induction names generalizing s with
  | nil => exact .inl ⟨hdir, hs⟩
  | cons name names ih =>
    obtain ⟨hname, hnames⟩ := List.forall_mem_cons.mp hnames
    obtain ⟨x, t, hlooked, htake⟩ := perform_takeFrom_cons hdir hname f names h
    have hthere : t.isDirectory dir := (hlooked.altered hdir hname).isDirectory hdir
    rw [htake]
    rcases hlooked.stays hdir hname hs with hstays | ⟨r, rfl, hletter⟩
    · cases x with
      | none => exact ih hstays hnames hthere
      | some x => exact .inl ⟨hthere, hstays⟩
    · exact .inr ⟨r, rfl, hletter⟩

/-- A signal that can be read is never put aside, whoever waits for whatever and however long. -/
theorem Waits.stays_await (hs : Waits dir s m) (hdir : s.isDirectory dir) (f : Filter) (looks : Nat)
    (h : Host) : StaysOr dir m ((await dir f looks).perform h s) := by
  have htake : ∀ {t : Store}, t.isDirectory dir → Waits dir t m →
      StaysOr dir m ((take? dir f).perform h t) := by
    intro t hdir hs
    obtain ⟨names, hfiles, -, hnames, -⟩ := perform_files_of_isDirectory hdir h
    rw [take?, perform_bind, hfiles]
    exact hs.stays_takeFrom (fun name hname => (hnames name hname).1) hdir f h
  induction looks generalizing s with
  | zero => exact htake hdir hs
  | succ looks ih =>
    have hlook := htake hdir hs
    rw [await, perform_bind]
    rcases hperform : (take? dir f).perform h s with ⟨err | _ | r, t⟩ <;> rw [hperform] at hlook
    · exact hlook
    · rcases hlook with ⟨hdir, hs⟩ | ⟨r, hr, -⟩
      · exact ih hs hdir
      · cases hr
    · exact hlook

/-! ## Signals that are received -/

/-- Nothing that is waited for is in the file, whether it is still there or has been put aside. -/
structure Passed (dir : String) (f : Filter) (s : Store) (name : String) : Prop where
  file : isSignalFile name
  located : s.locate (Path.join dir name) = .ok (s.place (Path.join dir name))
  entry : s.at? (s.place dir ++ [name]) = none ∨ ∃ bytes, s.Has (Path.join dir name) (some bytes) ∧
    ∀ signal, signalOf? bytes = some signal → ¬f.accepts signal

/-- It stays so when a file is put aside, be it this one. -/
theorem Passed.attempted (hp : Passed dir f s other) (h : Attempted dir "rejected" name s t) :
    Passed dir f t other := by
  have hname := isName_of_isSignalFile hp.file
  have hrejected := ne_rejected hp.file
  have hhome := h.altered.home
  refine ⟨hp.file, h.altered.locate hp.located, ?_⟩
  rw [place_eq hhome]
  by_cases hgone : t.at? (s.place dir ++ [other]) = none
  · exact .inl hgone
  · have hkept : ∃ places, s.place dir ++ [other] ∉ places ∧ Altered places s t := by
      by_cases heq : other = name
      · exact ⟨_, by simpa using hrejected, h.source.resolve_left (heq ▸ hgone)⟩
      · exact ⟨_, by simp [passage, hrejected, heq], h.altered⟩
    obtain ⟨places, hplace, haltered⟩ := hkept
    rw [haltered.kept _ hplace]
    refine hp.entry.imp_right fun ⟨bytes, hhas, hno⟩ => ⟨bytes, haltered.has ?_ hhas, hno⟩
    rwa [s.place_join dir hname]

theorem perform_takeFrom_passed (hdir : s.isDirectory dir) (hs : Waits dir s m)
    (haccepts : f.accepts m.2)
    (hroom : s.HasRoom dir "processed" m.1)
    (hfront : ∀ name ∈ front, name ≠ m.1 ∧ Passed dir f s name) (h : Host) :
    ∃ t, (takeFrom dir f (front ++ m.1 :: back)).perform h s
      = (.ok (some ⟨m.2, m.1, Path.join (processedDir dir) m.1⟩), t) := by
  have hfile := hs.file
  induction front generalizing s with
  | nil =>
    obtain ⟨bytes, hhas, hsignal⟩ := hs.readable
    obtain ⟨t, hclaim, -⟩ := perform_claim_of_hasRoom hdir hfile hhas hroom h
    exact ⟨t, perform_takeFrom_of_claim (perform_readFile?_of_has hhas h) hsignal haccepts
      hclaim back⟩
  | cons other front ih =>
    obtain ⟨⟨hne, hpassed⟩, hfront⟩ := List.forall_mem_cons.mp hfront
    have hother := hpassed.file
    rw [List.cons_append, takeFrom, perform_bind]
    rcases hpassed.entry with hgone | ⟨found, hfound, hno⟩
    · have hread : s.readBytes (Path.join dir other) = .error .notFound := by
        rw [← s.place_join dir (isName_of_isSignalFile hother)] at hgone
        rw [readBytes, Store.find, hpassed.located]
        simp only [bind, Except.bind, hgone]
        rfl
      rw [readFile?, perform_readingIfThere, hread]
      exact ih hdir hs hroom hfront
    · rw [perform_readFile?_of_has hfound]
      dsimp only
      cases hread : signalOf? found with
      | none =>
        obtain ⟨t, hreject, hattempted⟩ := perform_reject_attempted hdir hother h
        have haltered := hattempted.altered
        have hroom := hattempted.hasRoom hroom (ne_processed hother) hne.symm
        obtain ⟨bytes, hhas, hsignal⟩ := hs.readable
        have hhas := haltered.has_of_passage (isName_of_isSignalFile hfile) (ne_rejected hfile)
          hne.symm hhas
        dsimp only
        rw [perform_bind, hreject]
        exact ih (haltered.isDirectory hdir) ⟨hfile, bytes, hhas, hsignal⟩ hroom
          fun later hlater =>
            ⟨(hfront later hlater).1, (hfront later hlater).2.attempted hattempted⟩
      | some signal =>
        dsimp only
        rw [if_neg (hno signal hread)]
        exact ih hdir hs hroom hfront

/-- Whoever waits for the signal receives it, unless another one comes first. -/
theorem Legible.perform_await (hs : Legible dir s) (hm : Waits dir s m) (haccepts : f.accepts m.2)
    (hroom : s.HasRoom dir "processed" m.1)
    (hfirst : ∀ m', Waits dir s m' → m'.1 < m.1 → ¬f.accepts m'.2) (looks : Nat) (h : Host) :
    ∃ t, (await dir f looks).perform h s
      = (.ok (some ⟨m.2, m.1, Path.join (processedDir dir) m.1⟩), t) := by
  obtain ⟨names, hfiles, hsorted, hthere, hnames⟩ := perform_files_of_isDirectory hs.there h
  obtain ⟨bytes, hhas, -⟩ := hm.readable
  obtain ⟨front, back, rfl, hnotin⟩ := List.eq_append_cons_of_mem (hnames _ _ hm.file hhas)
  have hfront : ∀ other ∈ front, other ≠ m.1 ∧ Passed dir f s other := by
    intro other hother
    have hne : other ≠ m.1 := fun heq => hnotin (heq ▸ hother)
    obtain ⟨hfile, hat⟩ := hthere other (List.mem_append_left _ hother)
    obtain ⟨found, hfound⟩ := hs.files other hfile hat
    have hle : other ≤ m.1 :=
      (List.pairwise_append.mp hsorted).2.2 other hother _ (List.mem_cons_self ..)
    have hlt : other < m.1 := String.not_le.mp fun hge => hne (String.le_antisymm hle hge)
    refine ⟨hne, hfile, ?_, .inr ⟨found, hfound, fun signal hread => ?_⟩⟩
    · obtain ⟨modified, hfind⟩ := hfound
      exact (find_eq_file.mp hfind).1
    · exact hfirst (other, signal) ⟨hfile, found, hfound, hread⟩ hlt
  obtain ⟨t, htake⟩ : ∃ t, (takeFrom dir f (front ++ m.1 :: back)).perform h s = _ :=
    perform_takeFrom_passed hs.there hm haccepts hroom hfront h
  have hlook : (take? dir f).perform h s
      = (.ok (some ⟨m.2, m.1, Path.join (processedDir dir) m.1⟩), t) := by
    rw [take?, perform_bind, hfiles]
    exact htake
  refine ⟨t, ?_⟩
  cases looks with
  | zero => exact hlook
  | succ looks =>
    rw [await, perform_bind, hlook]
    rfl

/-! ## Files that are no signals -/

/-- The file has been put aside. -/
structure Rejected (dir : String) (s : Store) (name : String) (bytes : ByteArray) : Prop where
  gone : s.at? (s.place dir ++ [name]) = none
  there : s.Has (Path.join (rejectedDir dir) name) (some bytes)

/-- A file that is no signal is put aside when it is looked at, if there is room for it. -/
theorem Looked.rejects {x : Option (Except Error (Option Received))}
    (hlooked : Looked dir f h s name x t)
    (hdir : s.isDirectory dir) (hfile : isSignalFile name) (hnone : signalOf? bytes = none)
    (hhas : s.Has (Path.join dir name) (some bytes)) (hroom : s.HasRoom dir "rejected" name) :
    x = none ∧ Rejected dir t name bytes := by
  have hbytes := readBytes_of_has hhas
  have hno : ∀ {found : ByteArray} {signal : Signal}, s.readBytes (Path.join dir name) = .ok found →
      signalOf? found ≠ some signal := by
    intro found signal hread
    rw [← Except.ok.inj (hbytes.symm.trans hread), hnone]
    simp
  cases hlooked with
  | unread _ hunread => exact absurd hbytes (hunread _)
  | declined hread hsignal => exact absurd hsignal (hno hread)
  | claimed hread hsignal => exact absurd hsignal (hno hread)
  | rejected _ _ hreject =>
    obtain ⟨u, v, hmake, hmove, haltered, hgone, harrived, -⟩ :=
      moveInto_spec hdir isPlainName_rejected
      (isName_of_isSignalFile hfile) (ne_rejected hfile) hhas hroom
    rw [reject, perform_tryCatch, perform_bind, perform_makeDirs, rejectedDir, hmake] at hreject
    dsimp only [Except.mapError] at hreject
    rw [perform_writing, hmove] at hreject
    obtain rfl : v = t := (Prod.mk.inj hreject).2
    exact ⟨rfl, by rwa [place_eq haltered.home], harrived⟩

/-- Looking at another file leaves room for it to be put aside. -/
theorem Looked.hasRoom {x : Option (Except Error (Option Received))}
    (hlooked : Looked dir f h s name x t)
    (hdir : s.isDirectory dir) (hfile : isSignalFile name) (hne : other ≠ name)
    (hroom : s.HasRoom dir "rejected" other) : t.HasRoom dir "rejected" other := by
  rcases hlooked.attempted hdir hfile with rfl | hattempted | hattempted
  · exact hroom
  · exact hattempted.hasRoom hroom (ne_rejected hfile) hne
  · exact hattempted.hasRoom hroom (ne_rejected hfile) hne

theorem Rejected.looked {x : Option (Except Error (Option Received))}
    (hs : Rejected dir s other bytes)
    (hlooked : Looked dir f h s name x t) (hdir : s.isDirectory dir) (hfile : isSignalFile name)
    (hother : isSignalFile other) : Rejected dir t other bytes := by
  by_cases heq : other = name
  · subst heq
    have hunread : ∀ found, s.readBytes (Path.join dir other) ≠ .ok found := by
      intro found hread
      have hin := fileIn_of_readBytes (isName_of_isSignalFile hfile) hread
      rw [fileIn, fileAt?, hs.gone] at hin
      cases hin
    cases hlooked with
    | unread => exact hs
    | declined hread => exact absurd hread (hunread _)
    | claimed hread => exact absurd hread (hunread _)
    | rejected hread => exact absurd hread (hunread _)
  · have haltered := hlooked.altered hdir hfile
    have hname := isName_of_isSignalFile hother
    refine ⟨?_, haltered.has ?_ hs.there⟩
    · rw [place_eq haltered.home,
        haltered.kept _ (by simp [passage, heq, ne_rejected hother, ne_processed hother])]
      exact hs.gone
    · rw [rejectedDir, s.place_join _ hname, s.place_join dir isPlainName_rejected.isName]
      simp [passage, heq]

theorem rejects_takeFrom (hfile : isSignalFile name) (hnone : signalOf? bytes = none)
    (hnames : ∀ name ∈ names, isSignalFile name) (hdir : s.isDirectory dir)
    (hs : Rejected dir s name bytes ∨ name ∈ names ∧ s.Has (Path.join dir name) (some bytes) ∧
      s.HasRoom dir "rejected" name)
    (htake : (takeFrom dir f names).perform h s = (.ok none, t)) :
    t.isDirectory dir ∧ Rejected dir t name bytes := by
  induction names generalizing s with
  | nil =>
    obtain ⟨-, rfl⟩ := Prod.mk.inj htake
    exact ⟨hdir, hs.resolve_right fun hmem => List.not_mem_nil hmem.1⟩
  | cons other names ih =>
    obtain ⟨hother, hnames⟩ := List.forall_mem_cons.mp hnames
    obtain ⟨x, u, hlooked, hperform⟩ := perform_takeFrom_cons hdir hother f names h
    have hthere : u.isDirectory dir := (hlooked.altered hdir hother).isDirectory hdir
    have hnext : Rejected dir u name bytes ∨ name ∈ names ∧
        u.Has (Path.join dir name) (some bytes) ∧
        u.HasRoom dir "rejected" name := by
      rcases hs with hs | ⟨hmem, hhas, hroom⟩
      · exact .inl (hs.looked hlooked hdir hother hfile)
      · by_cases heq : name = other
        · subst heq
          exact .inl (hlooked.rejects hdir hfile hnone hhas hroom).2
        · exact .inr ⟨(List.mem_cons.mp hmem).resolve_left heq,
            hlooked.has hdir hother hfile heq hhas,
            hlooked.hasRoom hdir hother heq hroom⟩
    rw [hperform] at htake
    cases x with
    | none => exact ih hnames hthere hnext htake
    | some x => exact absurd (congrArg some (Prod.mk.inj htake).1) hlooked.ne_nothing

/-- Whoever waits in vain has put the file aside, if there is room for it. -/
theorem rejects_await (hfile : isSignalFile name) (hnone : signalOf? bytes = none)
    (hdir : s.isDirectory dir)
    (hs : Rejected dir s name bytes ∨
      s.Has (Path.join dir name) (some bytes) ∧ s.HasRoom dir "rejected" name)
    {looks : Nat} (hawait : (await dir f looks).perform h s = (.ok none, t)) :
    Rejected dir t name bytes := by
  have htake : ∀ {s t : Store}, s.isDirectory dir → (Rejected dir s name bytes ∨
      s.Has (Path.join dir name) (some bytes) ∧ s.HasRoom dir "rejected" name) →
      (take? dir f).perform h s = (.ok none, t) → t.isDirectory dir ∧
        Rejected dir t name bytes := by
    intro s t hdir hs htake
    obtain ⟨names, hfiles, -, hthere, hnames⟩ := perform_files_of_isDirectory hdir h
    rw [take?, perform_bind, hfiles] at htake
    exact rejects_takeFrom hfile hnone (fun name hname => (hthere name hname).1) hdir
      (hs.imp_right fun hwaits => ⟨hnames _ _ hfile hwaits.1, hwaits⟩) htake
  induction looks generalizing s with
  | zero => exact (htake hdir hs hawait).2
  | succ looks ih =>
    rw [await, perform_bind] at hawait
    rcases hperform : (take? dir f).perform h s with ⟨err | _ | r, u⟩ <;> rw [hperform] at hawait
    · cases hawait
    · obtain ⟨hthere, hrejected⟩ := htake hdir hs hperform
      exact ih hthere (.inl hrejected) hawait
    · cases hawait

end Mailbox

end Pipewright
