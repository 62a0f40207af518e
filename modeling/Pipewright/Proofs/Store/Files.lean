import Pipewright.Proofs.Store.Growth

/-!
# Files that are written

What a write makes of the files, and the footprint that it leaves.
-/

/-!
## Files that are written

Adding to a file and replacing one write that file and nothing else, or fail and
write none. Whether they succeed is a property of the store: `CanReplace` and
`CanAppend`. A file that is found can be added to, and it can be replaced if the
path of the draft is not too long; conversely a log that can be added to is
found, or nothing is found in its place.
-/

namespace Pipewright.Store

variable {made : Prop} {lock : List String} {s t : Store}

/-! ### Writing -/

theorem site_eq_ok {p : String} {dest : List String} (h : s.site p = .ok dest) :
    s.locate p = .ok dest ∧ Path.ending p = .name ∧ s.at? dest ≠ some .directory := by
  unfold site at h
  simp only [bind, Except.bind, pure, Except.pure, throw, throwThe, MonadExceptOf.throw] at h
  split at h
  · split at h <;> cases h
  · next hslash =>
    cases hlocate : s.locate p with
    | error fault => rw [hlocate] at h; cases h
    | ok found =>
        rw [hlocate] at h
        dsimp only at h
        split at h
        · cases h
        · next hno =>
          rw [not_or] at hno
          obtain rfl := Except.ok.inj h
          refine ⟨rfl, ?_, hno.2⟩
          cases hend : Path.ending p with
          | name => rfl
          | slash => exact absurd hend hslash
          | dots => exact absurd hend hno.1

/-- A file can be moved to where a path with a name at its end leads, unless a directory stands
there. -/
theorem landing_of_locate {p : String} {dest : List String} (hlocate : s.locate p = .ok dest)
    (hend : Path.ending p = .name) (hno : s.at? dest ≠ some .directory) :
    s.landing p = .ok dest := by
  rw [landing, hlocate]
  simp only [bind, Except.bind, hend]
  rfl

theorem landing_of_find {p : String} {bytes : ByteArray} {modified : Instant}
    (hfind : s.find p = .ok (.file bytes modified)) : s.landing p = .ok (s.place p) := by
  obtain ⟨hlocate, hat, hend⟩ := find_eq_file.mp hfind
  exact landing_of_locate hlocate hend (by simp [hat])

theorem landing_eq_ok {p : String} {dest : List String} (h : s.landing p = .ok dest) :
    dest = s.place p ∧ s.at? dest ≠ some .directory ∧ s.locate p = .ok dest ∧
      Path.ending p = .name := by
  unfold landing at h
  cases hlocate : s.locate p with
  | error fault => rw [hlocate] at h; cases h
  | ok found =>
      rw [hlocate] at h
      simp only [bind, Except.bind] at h
      split at h
      · cases h
      · cases h
      · next hend =>
        split at h
        · cases h
        · next hno =>
          obtain rfl := Except.ok.inj h
          exact ⟨locate_eq hlocate, fun hdir => hno hdir, rfl, hend⟩

/-- A file that is opened to be written to is there afterwards, empty if it is new. -/
theorem create_spec (s : Store) (p : String) (now : Instant) :
    Grown False (s.place p) s (s.create p now).2 ∧
    ∀ dest, (s.create p now).1 = .ok dest → s.locate p = .ok dest ∧ Path.ending p = .name ∧
      (s.create p now).2.at? dest ≠ some .directory := by
  unfold create
  cases hsite : s.site p with
  | error fault => exact ⟨.refl _ _ s, fun _ h => (by cases h)⟩
  | ok found =>
      obtain ⟨hlocate, hend, hdir⟩ := site_eq_ok hsite
      dsimp only
      split
      · exact ⟨.refl _ _ s, fun dest h => Except.ok.inj h ▸ ⟨hlocate, hend, hdir⟩⟩
      · next hnone =>
        rw [Option.not_isSome_iff_eq_none] at hnone
        refine ⟨grown_put hnone (.inr ⟨locate_eq hlocate, now, rfl⟩), fun dest h => ?_⟩
        obtain rfl := Except.ok.inj h
        refine ⟨hlocate, hend, ?_⟩
        rw [at?_put (isPrefixOf_of_at? hdir), if_pos rfl]
        simp

theorem create_eq_error_snd {p : String} {now : Instant} {fault : FileFault}
    (h : s.create p now = (.error fault, t)) : t = s := by
  unfold create at h
  split at h
  · exact (Prod.mk.inj h).2.symm
  · split at h <;> cases h

/-- A file that was opened to be written to is found. -/
theorem found_create {p : String} {now : Instant} {dest : List String} {t : Store}
    (h : s.create p now = (.ok dest, t)) : t.Found p ∧ dest = s.place p := by
  have hspec := create_spec s p now
  rw [h] at hspec
  obtain ⟨hgrown, hplace⟩ := hspec
  obtain ⟨hlocate, hend, hdir⟩ := hplace dest rfl
  obtain rfl := locate_eq hlocate
  have hthere : (t.at? (s.place p)).isSome := by
    unfold create at h
    split at h
    · cases h
    · next found hsite =>
      obtain ⟨hfound, -, hno⟩ := site_eq_ok hsite
      obtain rfl := locate_eq hfound
      split at h
      · next hsome =>
        rw [← (Prod.mk.inj h).2]
        exact hsome
      · rw [← (Prod.mk.inj h).2, at?_put (isPrefixOf_of_at? hno), if_pos rfl]
        rfl
  cases hat : t.at? (s.place p) with
  | none => rw [hat] at hthere; cases hthere
  | some entry =>
      cases entry with
      | directory => exact absurd hat hdir
      | file bytes modified =>
          refine ⟨⟨bytes, modified, find_eq_file.mpr ?_⟩, rfl⟩
          rw [place_eq hgrown.home]
          exact ⟨hgrown.locate hlocate, hat, hend⟩

/-- What an operation that writes one file does, whether it succeeds or not. -/
def WritesOne (made : Prop) (s : Store) (place : List String) (bytes : ByteArray)
    (r : Except FileFault Unit × Store) : Prop :=
  ∀ lock, (r.1 = .ok () → Written made lock s r.2 [(place, bytes)]) ∧
    ∀ fault, r.1 = .error fault → Grown made lock s r.2

theorem putFile_spec (s : Store) (p : String) (now : Instant) (f : ByteArray → ByteArray) :
    WritesOne False s (s.place p) (f (s.contents (s.place p))) (s.putFile p now f) := by
  intro lock
  obtain ⟨hgrown, hplace⟩ := create_spec s p now
  unfold putFile
  split
  · next fault t hcreate =>
    rw [create_eq_error_snd hcreate]
    exact ⟨fun h => (by cases h), fun _ _ => .refl _ _ s⟩
  · next dest t hcreate =>
    rw [hcreate] at hgrown hplace
    obtain ⟨hlocate, -, hdir⟩ := hplace dest rfl
    obtain rfl := locate_eq hlocate
    refine ⟨fun _ => ?_, fun _ h => (by cases h)⟩
    have hold : t.contents (s.place p) = s.contents (s.place p) := hgrown.contents (by simp)
    rw [← hold]
    exact (hgrown.trans (written_put _ _ hdir (f (t.contents (s.place p))) now)).relock
      (by simp) lock

/-- A file is found after it was written, and in it what was written. -/
theorem find_putFile {p : String} {now : Instant} {f : ByteArray → ByteArray}
    (h : (s.putFile p now f).1 = .ok ()) :
    s.locate p = .ok (s.place p) ∧ Path.ending p = .name ∧
      ∃ modified,
        (s.putFile p now f).2.find p = .ok (.file (f (s.contents (s.place p))) modified) := by
  obtain ⟨hgrown, hplace⟩ := create_spec s p now
  have hwritten := (putFile_spec s p now f []).1 h
  unfold putFile at h
  split at h
  · cases h
  · next dest t hcreate =>
    rw [hcreate] at hplace
    obtain ⟨hlocate, hend, -⟩ := hplace dest rfl
    obtain rfl := locate_eq hlocate
    obtain ⟨modified, hat⟩ := hwritten.written _ (List.mem_singleton.mpr rfl)
    refine ⟨hlocate, hend, modified, find_eq_file.mpr ?_⟩
    rw [place_eq hwritten.home]
    exact ⟨hwritten.locate hlocate, hat, hend⟩

theorem append_spec (s : Store) (p : String) (bytes : ByteArray) (now : Instant) :
    WritesOne (¬s.isDirectory (holder p)) s (s.place p) (s.contents (s.place p) ++ bytes)
      (s.append p bytes now) := by
  intro lock
  have hgrown := grown_makeDirs lock s (holder p)
  unfold append update
  split
  · next fault t hmake =>
    rw [hmake] at hgrown
    exact ⟨fun h => (by cases h), fun _ _ => hgrown⟩
  · next t hmake =>
    rw [hmake] at hgrown
    have hput := putFile_spec t p now (· ++ bytes) lock
    rw [place_eq hgrown.home, hgrown.contents (by simp)] at hput
    exact ⟨fun h => hgrown.trans ((hput.1 h).mono False.elim),
      fun fault h => hgrown.trans ((hput.2 fault h).mono False.elim)⟩

theorem replace_spec (s : Store) (p : String) (bytes : ByteArray) (now : Instant) :
    WritesOne (¬s.isDirectory (holder p)) s (s.place p) bytes (s.replace p bytes now) := by
  intro lock
  have hgrown := grown_makeDirs lock s (holder p)
  unfold replace
  split
  · next fault t hmake =>
    rw [hmake] at hgrown
    exact ⟨fun h => (by cases h), fun _ _ => hgrown⟩
  · next t hmake =>
    rw [hmake] at hgrown
    split
    · exact ⟨fun h => (by cases h), fun _ _ => hgrown⟩
    · exact ⟨fun h => (by cases h), fun _ _ => hgrown⟩
    · next dest _ hlanding =>
      obtain ⟨rfl, hdir, -⟩ := landing_eq_ok hlanding
      refine ⟨fun _ => ?_, fun _ h => (by cases h)⟩
      rw [place_eq hgrown.home] at hdir ⊢
      exact hgrown.trans (written_put _ lock hdir bytes now)

/-- Where its directory is there, a file that could not be replaced leaves the store as it is. -/
theorem replace_eq_error_snd {p : String} {bytes : ByteArray} {now : Instant} {fault : FileFault}
    (hdir : s.isDirectory (holder p)) (h : s.replace p bytes now = (.error fault, t)) : t = s := by
  rw [replace, makeDirs_of_isDirectory hdir] at h
  dsimp only at h
  split at h
  · exact (Prod.mk.inj h).2.symm
  · exact (Prod.mk.inj h).2.symm
  · cases h

/-- A file that was replaced is found with its new bytes. -/
theorem find_replace {p : String} {bytes : ByteArray} {now : Instant}
    (h : (s.replace p bytes now).1 = .ok ()) :
    (s.replace p bytes now).2.find p = .ok (.file bytes now) := by
  unfold replace at h ⊢
  split at h
  · cases h
  · next u hmake =>
    split at h
    · cases h
    · cases h
    · next start dest horigin hlanding =>
      obtain ⟨rfl, hdir, hlocate, hend⟩ := landing_eq_ok hlanding
      have hput := at?_put (isPrefixOf_of_at? hdir) (.file bytes now)
      have hwritten := written_put False [] hdir bytes now
      refine find_eq_file.mpr ⟨?_, ?_, hend⟩
      · rw [place_eq hwritten.home]
        exact hwritten.locate hlocate
      · rw [place_eq hwritten.home, hput, if_pos rfl]

/-! ### Files that can be replaced -/

/-- The file of a path can be replaced, by any bytes and at any time. -/
def CanReplace (s : Store) (p : String) : Prop :=
  ∀ bytes now, (s.replace p bytes now).1 = .ok ()

theorem origin_of_replace {p : String} {bytes : ByteArray} {now : Instant}
    (hreplace : (s.replace p bytes now).1 = .ok ()) :
    ∃ start, s.origin (s.draft (holder p)) = .ok start := by
  have hgrown := grown_makeDirs [] s (holder p)
  unfold replace at hreplace
  split at hreplace
  · cases hreplace
  · next t hmake =>
    rw [hmake] at hgrown
    split at hreplace
    · cases hreplace
    · cases hreplace
    · next start dest horigin _ =>
      rw [draft_eq hgrown.home, origin_eq_of_home hgrown.home] at horigin
      exact ⟨start, horigin⟩

/-- A file can be replaced if its directory is there, the path of the draft is not too long, and
no directory stands in its place. -/
theorem canReplace_of_landing {p : String} (hdir : s.isDirectory (holder p))
    {start place : List String}
    (horigin : s.origin (s.draft (holder p)) = .ok start) (hlanding : s.landing p = .ok place) :
    CanReplace s p := by
  intro bytes now
  rw [replace, makeDirs_of_isDirectory hdir]
  dsimp only
  rw [horigin, hlanding]

/-- A file that is found can be replaced, if the path of the draft is not too long. -/
theorem canReplace_of_find {p : String} {bytes : ByteArray} {modified : Instant}
    (hfind : s.find p = .ok (.file bytes modified)) {start : List String}
    (horigin : s.origin (s.draft (holder p)) = .ok start) : CanReplace s p :=
  canReplace_of_landing (isDirectory_holder hfind) horigin (landing_of_find hfind)

/-- A file that was replaced once can be replaced as long as it is found. -/
theorem canReplace_of_replace {p : String} {bytes : ByteArray} {now : Instant}
    (h : (s.replace p bytes now).1 = .ok ()) (hhome : t.home = s.home) (hfound : t.Found p) :
    CanReplace t p := by
  obtain ⟨start, horigin⟩ := origin_of_replace h
  obtain ⟨bytes', modified, hfind⟩ := hfound
  have horigin' : t.origin (t.draft (holder p)) = .ok start := by
    rw [draft_eq hhome, origin_eq_of_home hhome, horigin]
  exact canReplace_of_find hfind horigin'

/-- What has been written since does not matter to a file that can be replaced. -/
theorem CanReplace.of_home {p : String} (h : CanReplace s p) (hhome : t.home = s.home)
    {bytes : ByteArray} {modified : Instant} (hfind : t.find p = .ok (.file bytes modified)) :
    CanReplace t p :=
  canReplace_of_replace (h .empty default) hhome ⟨bytes, modified, hfind⟩

/-! ### Files that can be added to -/

/-- The file of a path can be added to, any bytes and at any time. -/
def CanAppend (s : Store) (p : String) : Prop :=
  ∀ bytes now, (s.append p bytes now).1 = .ok ()

/-- Adding to a file makes its directory and then writes to it. -/
theorem append_eq_ok {p : String} {bytes : ByteArray} {now : Instant}
    (h : (s.append p bytes now).1 = .ok ()) :
    ∃ t, s.makeDirs (holder p) = (.ok (), t) ∧
      s.append p bytes now = t.putFile p now (· ++ bytes) := by
  unfold append update at h ⊢
  split at h
  · cases h
  · next t hmake => exact ⟨t, hmake, rfl⟩

theorem find_append (s : Store) (p : String) (bytes : ByteArray) (now : Instant)
    (h : (s.append p bytes now).1 = .ok ()) :
    ∃ bytes' modified, (s.append p bytes now).2.find p = .ok (.file bytes' modified) := by
  obtain ⟨t, -, happend⟩ := append_eq_ok h
  rw [happend] at h ⊢
  exact ⟨_, (find_putFile h).2.2⟩

theorem site_of_find {p : String} {bytes : ByteArray} {modified : Instant}
    (h : s.find p = .ok (.file bytes modified)) : s.site p = .ok (s.place p) := by
  obtain ⟨hlocate, hat, hend⟩ := find_eq_file.mp h
  rw [site, hlocate]
  simp [hend, hat, bind, Except.bind]
  rfl

theorem create_of_find {p : String} {bytes : ByteArray} {modified : Instant}
    (h : s.find p = .ok (.file bytes modified)) (now : Instant) :
    s.create p now = (.ok (s.place p), s) := by
  rw [create, site_of_find h]
  simp [(find_eq_file.mp h).2.1]

theorem canAppend_of_find {p : String} {bytes : ByteArray} {modified : Instant}
    (h : s.find p = .ok (.file bytes modified)) : CanAppend s p := by
  intro bytes' now
  rw [append, update, makeDirs_of_isDirectory (isDirectory_holder h)]
  dsimp only
  rw [putFile, create_of_find h]

theorem makeDir_eq_error {p : String} {fault : FileFault} {t : Store}
    (h : s.makeDir p = (.error fault, t)) : s.locate p = .error fault ∨ fault = .alreadyExists := by
  unfold makeDir at h
  split at h
  · next fault' hlocate =>
      exact .inl (hlocate.trans (congrArg _ (Except.error.inj (Prod.mk.inj h).1)))
  · split at h
    · exact .inr (Except.error.inj (Prod.mk.inj h).1).symm
    · cases h

theorem makeDir_eq_error_snd {p : String} {fault : FileFault} {t : Store}
    (h : s.makeDir p = (.error fault, t)) : t = s := by
  unfold makeDir at h
  split at h
  · exact (Prod.mk.inj h).2.symm
  · split at h
    · exact (Prod.mk.inj h).2.symm
    · cases h

theorem makeDir_eq_ok {p : String} {t : Store} (h : s.makeDir p = (.ok (), t)) :
    ∃ dest, s.locate p = .ok dest ∧ s.at? dest = none := by
  unfold makeDir at h
  split at h
  · cases h
  · next dest hlocate =>
    split at h
    · cases h
    · next hno =>
      rw [not_or, Option.not_isSome_iff_eq_none] at hno
      exact ⟨dest, hlocate, hno.2⟩

/-- A directory that is made was missing: it, or one around it, did not exist. -/
theorem missing_of_makeDirs {p : String} (hne : p ≠ "") {t : Store}
    (h : s.makeDirs p = (.ok (), t)) (hdir : ¬s.isDirectory p) :
    s.locate p = .error .notFound ∨ ∃ dest, s.locate p = .ok dest ∧ s.at? dest = none := by
  rw [makeDirs, if_neg hne, makeInner] at h
  split at h
  · next u hmake =>
    rcases makeDir_eq_error hmake with hlocate | hfault
    · exact .inl hlocate
    · cases hfault
  · next r hr =>
    rcases hmake : s.makeDir p with ⟨fault | ⟨⟩, u⟩
    · rw [hmake] at h
      have hsame := makeDir_eq_error_snd hmake
      rw [orDirectory, if_neg (by rw [hsame]; exact hdir)] at h
      cases h
    · exact .inr (makeDir_eq_ok hmake)

/-- A file that can be added to is found, or nothing is. -/
theorem CanAppend.find {p : String} (h : CanAppend s p) :
    (∃ bytes modified, s.find p = .ok (.file bytes modified)) ∨ s.find p = .error .notFound := by
  obtain ⟨t, hmake, happend⟩ := append_eq_ok (h .empty default)
  have hput := h .empty default
  rw [happend] at hput
  obtain ⟨hlocate, hend, -⟩ := find_putFile hput
  by_cases hdir : s.isDirectory (holder p)
  · rw [makeDirs_of_isDirectory hdir] at hmake
    obtain rfl := (Prod.mk.inj hmake).2
    have hno := ((putFile_spec s p default (· ++ .empty) []).1 hput).noDirectory _
      (List.mem_singleton.mpr rfl)
    cases hat : s.at? (s.place p) with
    | none =>
        rw [Store.find, hlocate]
        simp only [bind, Except.bind, hat]
        exact .inr rfl
    | some entry =>
        cases entry with
        | directory => exact absurd hat hno
        | file bytes modified => exact .inl ⟨bytes, modified, find_eq_file.mpr ⟨hlocate, hat, hend⟩⟩
  · right
    rcases Path.holder_of_ending hend with ⟨hholder, -, -⟩ | ⟨k, name, rest, hsteps, hne, hp⟩
    · rw [hholder] at hdir
      exact absurd s.isDirectory_dot hdir
    · have hhome : t.home = s.home := by
        have hgrown := grown_makeDirs [] s (holder p)
        rw [hmake] at hgrown
        exact hgrown.home
      obtain ⟨start, horigin, -⟩ := locate_eq_ok.mp hlocate
      rw [origin_eq_of_home hhome] at horigin
      have hmissing := missing_of_makeDirs hne hmake hdir
      have hlost : s.locate p = .error .notFound := by
        rw [locate_eq_follow (origin_of_append horigin hp hne)] at hmissing
        rw [locate_eq_follow horigin, hsteps, List.append_assoc, follow_append_eq]
        rcases hmissing with hlost | ⟨dest, hdest, hnone⟩
        · rw [hlost]
          rfl
        · rw [hdest]
          change s.follow dest _ = _
          cases k <;> simp [List.replicate_succ, follow, hnone]
      rw [Store.find, hlost]
      rfl

end Pipewright.Store

/-!
## Footprints

What an operation may change is a matter of the paths it is given, whether it
succeeds or not: the files it writes, the lock files it may make, and
directories (`Touched`). A file elsewhere is as it was before, and where there
was no file there is none (`Keeps`).

What a path holds is said for both cases at once: `s.Has path (some bytes)` if
its file is found with these bytes, and `s.Has path none` if no file stands in
its place.
-/

namespace Pipewright.Store

/-- Files were written at most at `files`, empty files made at most at `locks`, and no
directory is gone. -/
structure Touched (files locks : List (List String)) (s t : Store) : Prop where
  home : t.home = s.home
  kept : ∀ place entry, place ∉ files → s.at? place = some entry → t.at? place = some entry
  added : ∀ place, place ∉ files → s.at? place = none → t.at? place = none ∨
    t.at? place = some .directory ∨
    (place ∈ locks ∧ ∃ modified, t.at? place = some (.file .empty modified))
  directory : ∀ place, s.at? place = some .directory → t.at? place = some .directory

variable {files files' locks locks' : List (List String)} {s t u : Store} {path : String}

theorem Touched.refl (files locks : List (List String)) (s : Store) : Touched files locks s s :=
  ⟨rfl, fun _ _ _ h => h, fun _ _ h => .inl h, fun _ h => h⟩

theorem Touched.mono (h : Touched files locks s t) (hfiles : files ⊆ files')
    (hlocks : locks ⊆ locks') : Touched files' locks' s t where
  home := h.home
  kept := fun place entry hplace => h.kept place entry fun hmem => hplace (hfiles hmem)
  added := by
    intro place hplace hat
    rcases h.added place (fun hmem => hplace (hfiles hmem)) hat with hnone | hdir | ⟨hlock, hfile⟩
    · exact .inl hnone
    · exact .inr (.inl hdir)
    · exact .inr (.inr ⟨hlocks hlock, hfile⟩)
  directory := h.directory

theorem Touched.trans (h : Touched files locks s t) (h' : Touched files locks t u) :
    Touched files locks s u where
  home := h'.home.trans h.home
  kept := fun place entry hplace hat => h'.kept place entry hplace (h.kept place entry hplace hat)
  added := by
    intro place hplace hat
    rcases h.added place hplace hat with hnone | hdir | ⟨hlock, modified, hfile⟩
    · exact h'.added place hplace hnone
    · exact .inr (.inl (h'.kept _ _ hplace hdir))
    · exact .inr (.inr ⟨hlock, modified, h'.kept _ _ hplace hfile⟩)
  directory := fun place hdir => h'.directory place (h.directory place hdir)

theorem Written.touched {made : Prop} {lock : List String}
    {written : List (List String × ByteArray)} (h : Written made lock s t written) :
    Touched (written.map (·.1)) [lock] s t where
  home := h.home
  kept := h.kept
  added := by
    intro place hplace hat
    rcases h.added place hplace hat with hnone | ⟨-, hdir⟩ | ⟨heq, hfile⟩
    · exact .inl hnone
    · exact .inr (.inl hdir)
    · exact .inr (.inr ⟨List.mem_singleton.mpr heq, hfile⟩)
  directory := fun _ => h.directory

/-- What writes one file or nothing touches that file, with a result of either kind. -/
theorem WritesOne.touched {made : Prop} {place : List String} {bytes : ByteArray}
    {r : Except FileFault Unit × Store} (h : WritesOne made s place bytes r)
    (locks : List (List String)) : Touched [place] locks s r.2 := by
  have hplace := h place
  obtain ⟨result, t⟩ := r
  cases result with
  | ok _ =>
      have hwritten := (hplace.1 rfl).touched
      exact ⟨hwritten.home, hwritten.kept, fun other hother hat =>
        (hwritten.added other hother hat).imp_right fun hnew => hnew.imp_right fun hlock =>
          absurd hlock.1 hother, hwritten.directory⟩
  | error fault =>
      have hgrown := (hplace.2 fault rfl).touched
      exact ⟨hgrown.home, fun other entry _ hat => hgrown.kept other entry (by simp) hat,
        fun other hother hat => (hgrown.added other (by simp) hat).imp_right fun hnew =>
          hnew.imp_right fun hlock => absurd hlock.1 hother, hgrown.directory⟩

theorem Touched.follow (h : Touched files locks s t) {start dest steps : List String}
    (hfollow : s.follow start steps = .ok dest) : t.follow start steps = .ok dest := by
  induction steps generalizing start with
  | nil => exact hfollow
  | cons step rest ih =>
      obtain ⟨hdir, hlong, hrest⟩ := follow_cons.mp hfollow
      exact follow_cons.mpr ⟨h.directory _ hdir, hlong, ih hrest⟩

theorem Touched.isDirectory (h : Touched files locks s t) (hdir : s.isDirectory path) :
    t.isDirectory path := by
  obtain ⟨hlocate, hat⟩ := isDirectory_iff.mp hdir
  obtain ⟨start, horigin, hfollow⟩ := locate_eq_ok.mp hlocate
  rw [isDirectory_iff, place_eq h.home]
  exact ⟨locate_eq_ok.mpr ⟨start, by rw [origin_eq_of_home h.home, horigin], h.follow hfollow⟩,
    h.directory _ hat⟩

/-- What a path led to is still found, unless it was written. -/
theorem Touched.find (h : Touched files locks s t) {entry : Entry}
    (hfind : s.find path = .ok entry) (hplace : s.place path ∉ files) :
    t.find path = .ok entry := by
  obtain ⟨hlocate, hat, hend⟩ := find_eq_ok.mp hfind
  obtain ⟨start, horigin, hfollow⟩ := locate_eq_ok.mp hlocate
  refine find_eq_ok.mpr ⟨?_, ?_, hend⟩
  · rw [place_eq h.home]
    exact locate_eq_ok.mpr ⟨start, by rw [origin_eq_of_home h.home, horigin], h.follow hfollow⟩
  · rw [place_eq h.home]
    exact h.kept _ _ hplace hat

theorem Touched.found (h : Touched files locks s t) (hfound : s.Found path)
    (hplace : s.place path ∉ files) : t.Found path := by
  obtain ⟨bytes, modified, hfind⟩ := hfound
  exact ⟨bytes, modified, h.find hfind hplace⟩

theorem Touched.contents (h : Touched files locks s t) {place : List String}
    (hplace : place ∉ files) : t.contents place = s.contents place := by
  unfold Store.contents
  cases hat : s.at? place with
  | none =>
      rcases h.added place hplace hat with hnone | hdir | ⟨-, modified, hfile⟩
      · rw [hnone]
      · rw [hdir]
      · rw [hfile]
  | some entry => rw [h.kept _ _ hplace hat]

theorem WritesOne.found {made : Prop} {place : List String} {bytes : ByteArray}
    {r : Except FileFault Unit × Store} (h : WritesOne made s place bytes r)
    (hfound : s.Found path) :
    r.2.Found path := by
  obtain ⟨bytes', modified, hfind⟩ := hfound
  obtain ⟨result, t⟩ := r
  cases result with
  | error fault => exact ⟨bytes', modified, ((h []).2 fault rfl).find hfind (by simp)⟩
  | ok _ =>
      have hwritten := (h []).1 rfl
      by_cases hplace : s.place path = place
      · exact hwritten.find_of_mem hfind (List.mem_singleton.mpr (by rw [hplace]))
      · exact ⟨bytes', modified, hwritten.find hfind (by simpa using hplace)⟩

/-! ### What a path holds -/

/-- The bytes of the file that the path leads to; `none` if no file stands in its place. -/
def Has (s : Store) (path : String) : Option ByteArray → Prop
  | some bytes => ∃ modified, s.find path = .ok (.file bytes modified)
  | none => ∀ bytes modified, s.at? (s.place path) ≠ some (.file bytes modified)

theorem Has.unique {x y : Option ByteArray} (hx : s.Has path x) (hy : s.Has path y) : x = y := by
  have hno : ∀ {bytes}, s.Has path (some bytes) → ¬s.Has path none := by
    rintro bytes ⟨modified, hfind⟩ hnone
    exact hnone bytes modified (find_eq_ok.mp hfind).2.1
  cases x with
  | none =>
      cases y with
      | none => rfl
      | some bytes => exact absurd hx (hno hy)
  | some bytes =>
      cases y with
      | none => exact absurd hy (hno hx)
      | some bytes' =>
          obtain ⟨modified, hfind⟩ := hx
          obtain ⟨modified', hfind'⟩ := hy
          rw [hfind] at hfind'
          cases hfind'
          rfl

theorem Found.has (h : s.Found path) : ∃ bytes, s.Has path (some bytes) := by
  obtain ⟨bytes, modified, hfind⟩ := h
  exact ⟨bytes, modified, hfind⟩

theorem Has.found {bytes : ByteArray} (h : s.Has path (some bytes)) : s.Found path := by
  obtain ⟨modified, hfind⟩ := h
  exact ⟨bytes, modified, hfind⟩

/-- The path holds what it held. -/
structure Keeps (path : String) (s t : Store) : Prop where
  home : t.home = s.home
  has : ∀ x, s.Has path x → t.Has path x
  contents : t.contents (t.place path) = s.contents (s.place path)

theorem Keeps.refl (path : String) (s : Store) : Keeps path s s := ⟨rfl, fun _ h => h, rfl⟩

theorem Keeps.trans (h : Keeps path s t) (h' : Keeps path t u) : Keeps path s u :=
  ⟨h'.home.trans h.home, fun x hx => h'.has x (h.has x hx), h'.contents.trans h.contents⟩

theorem Keeps.found (h : Keeps path s t) (hfound : s.Found path) : t.Found path := by
  obtain ⟨bytes, hbytes⟩ := hfound.has
  exact (h.has _ hbytes).found

theorem Touched.keeps (h : Touched files locks s t) (hfile : s.place path ∉ files)
    (hlock : s.place path ∉ locks) : Keeps path s t where
  home := h.home
  contents := by rw [place_eq h.home, h.contents hfile]
  has := by
    intro x hx
    cases x with
    | some bytes =>
        obtain ⟨modified, hfind⟩ := hx
        exact ⟨modified, h.find hfind hfile⟩
    | none =>
        intro bytes modified hat
        rw [place_eq h.home] at hat
        cases hold : s.at? (s.place path) with
        | none =>
            rcases h.added _ hfile hold with hnone | hdir | ⟨hmem, -⟩
            · rw [hnone] at hat
              cases hat
            · rw [hdir] at hat
              cases hat
            · exact hlock hmem
        | some entry =>
            rw [h.kept _ _ hfile hold] at hat
            exact hx bytes modified (hold.trans hat)

/-- Where no directory was to be made, nothing changes but the one file. -/
theorem WritesOne.at?_of_ne {made : Prop} {place other : List String} {bytes : ByteArray}
    {r : Except FileFault Unit × Store} (h : WritesOne made s place bytes r) (hmade : ¬made)
    (hne : other ≠ place) : r.2.at? other = s.at? other := by
  have hplace := h place
  rcases r with ⟨fault | ⟨⟩, t⟩
  · exact (hplace.2 fault rfl).at?_of_ne hmade (by simp) hne
  · exact (hplace.1 rfl).at?_of_ne hmade (by simpa using hne) hne

/-- Where a file was to be written and was not at most directories are new. -/
theorem WritesOne.untouched {made : Prop} {place : List String} {bytes : ByteArray}
    {r : Except FileFault Unit × Store} (h : WritesOne made s place bytes r) {fault : FileFault}
    (hfault : r.1 = .error fault) : Touched [] [] s r.2 where
  home := ((h []).2 fault hfault).home
  kept := fun _ _ _ hat => ((h []).2 fault hfault).kept _ _ (by simp) hat
  added := by
    intro other _ hat
    -- What stands at the place is no lock file, since that may be elsewhere.
    rcases ((h (other ++ [""])).2 fault hfault).added other (by simp) hat with hnone | hdir | hlock
    · exact .inl hnone
    · exact .inr (.inl hdir.2)
    · exact absurd hlock.1 (by simp)
  directory := fun _ => ((h []).2 fault hfault).directory

/-- Where a file was to be written and was not every file holds what it held. -/
theorem WritesOne.keeps {made : Prop} {place : List String} {bytes : ByteArray}
    {r : Except FileFault Unit × Store} (h : WritesOne made s place bytes r) {fault : FileFault}
    (hfault : r.1 = .error fault) : Keeps path s r.2 :=
  (h.untouched hfault).keeps (by simp) (by simp)

end Pipewright.Store
