import Pipewright.Proofs.Store.Places

/-!
# What writing leaves alone

A store grows by files and directories, and what paths see of the rest of it stays the same.
-/

/-!
## What writing leaves alone

`Written made lock s t files` says that `t` came from `s` by writing some files
and nothing else: the files hold their bytes, and everything that stood
elsewhere is as it was. What is new elsewhere is at most an empty file at the
place `lock`, and directories, if `made` holds. Where no file is written the
store has only grown (`Grown`).

Every operation that a change of a graph consists of is of this kind, a failed
one included, and so is one after the other.
-/

namespace Pipewright.Store

/-- Only the files were written, and elsewhere at most the lock file and directories
are new. -/
structure Written (made : Prop) (lock : List String) (s t : Store)
    (files : List (List String × ByteArray)) : Prop where
  home : t.home = s.home
  written : ∀ f ∈ files, ∃ modified, t.at? f.1 = some (.file f.2 modified)
  /-- What was written over was no directory. -/
  noDirectory : ∀ f ∈ files, s.at? f.1 ≠ some .directory
  kept : ∀ place entry, place ∉ files.map (·.1) → s.at? place = some entry →
    t.at? place = some entry
  added : ∀ place, place ∉ files.map (·.1) → s.at? place = none → t.at? place = none ∨
    (made ∧ t.at? place = some .directory) ∨
    (place = lock ∧ ∃ modified, t.at? place = some (.file .empty modified))

abbrev Grown (made : Prop) (lock : List String) (s t : Store) : Prop := Written made lock s t []

/-- The bytes of the file at a place; none where there is no file. -/
def contents (s : Store) (place : List String) : ByteArray :=
  match s.at? place with
  | some (.file bytes _) => bytes
  | _ => .empty

variable {made made' : Prop} {lock : List String} {s t u : Store}
  {files more : List (List String × ByteArray)}

theorem Grown.refl (made : Prop) (lock : List String) (s : Store) : Grown made lock s s :=
  ⟨rfl, by simp, by simp, fun _ _ _ h => h, fun _ _ h => .inl h⟩

theorem Written.mono (h : Written made lock s t files) (hmade : made → made') :
    Written made' lock s t files where
  home := h.home
  written := h.written
  noDirectory := h.noDirectory
  kept := h.kept
  added := by
    intro place hplace hat
    rcases h.added place hplace hat with hnone | ⟨hm, hdir⟩ | hfile
    · exact .inl hnone
    · exact .inr (.inl ⟨hmade hm, hdir⟩)
    · exact .inr (.inr hfile)

theorem Written.relock (h : Written made lock s t files) (hlock : lock ∈ files.map (·.1))
    (lock' : List String) : Written made lock' s t files where
  home := h.home
  written := h.written
  noDirectory := h.noDirectory
  kept := h.kept
  added := by
    intro place hplace hat
    rcases h.added place hplace hat with hnone | hdir | ⟨heq, -⟩
    · exact .inl hnone
    · exact .inr (.inl hdir)
    · exact absurd (heq ▸ hlock) hplace

theorem Written.trans (h : Written made lock s t files) (h' : Written made lock t u more)
    (hne : ∀ f ∈ files, f.1 ∉ more.map (·.1)) : Written made lock s u (more ++ files) where
  home := h'.home.trans h.home
  written := by
    intro f hf
    rcases List.mem_append.mp hf with hf | hf
    · exact h'.written f hf
    · obtain ⟨modified, hat⟩ := h.written f hf
      exact ⟨modified, h'.kept _ _ (hne f hf) hat⟩
  noDirectory := by
    intro f hf hdir
    rcases List.mem_append.mp hf with hf | hf
    · by_cases hmem : f.1 ∈ files.map (·.1)
      · obtain ⟨g, hg, heq⟩ := List.mem_map.mp hmem
        exact h.noDirectory g hg (by rw [heq, hdir])
      · exact h'.noDirectory f hf (h.kept _ _ hmem hdir)
    · exact h.noDirectory f hf hdir
  kept := by
    intro place entry hplace hat
    rw [List.map_append, List.mem_append, not_or] at hplace
    exact h'.kept _ _ hplace.1 (h.kept _ _ hplace.2 hat)
  added := by
    intro place hplace hat
    rw [List.map_append, List.mem_append, not_or] at hplace
    rcases h.added place hplace.2 hat with hnone | ⟨hmade, hdir⟩ | ⟨hlock, modified, hfile⟩
    · exact h'.added place hplace.1 hnone
    · exact .inr (.inl ⟨hmade, h'.kept _ _ hplace.1 hdir⟩)
    · exact .inr (.inr ⟨hlock, modified, h'.kept _ _ hplace.1 hfile⟩)

theorem Grown.trans (h : Grown made lock s t) (h' : Written made lock t u files) :
    Written made lock s u files := by
  have htrans := Written.trans h h' (by simp)
  rwa [List.append_nil] at htrans

/-! ### What is seen of it -/

theorem Written.directory (h : Written made lock s t files) {place : List String}
    (hdir : s.at? place = some .directory) : t.at? place = some .directory := by
  by_cases hmem : place ∈ files.map (·.1)
  · obtain ⟨f, hf, heq⟩ := List.mem_map.mp hmem
    exact absurd (by rw [heq, hdir]) (h.noDirectory f hf)
  · exact h.kept _ _ hmem hdir

/-- Where no directory was to be made, nothing is new but the files and the lock file. -/
theorem Written.at?_of_ne (h : Written made lock s t files) (hmade : ¬made) {place : List String}
    (hplace : place ∉ files.map (·.1)) (hlock : place ≠ lock) : t.at? place = s.at? place := by
  cases hat : s.at? place with
  | some entry => exact h.kept _ _ hplace hat
  | none =>
      rcases h.added place hplace hat with hnone | ⟨hm, -⟩ | ⟨heq, -⟩
      · exact hnone
      · exact absurd hm hmade
      · exact absurd heq hlock

theorem Written.contents (h : Written made lock s t files) {place : List String}
    (hplace : place ∉ files.map (·.1)) : t.contents place = s.contents place := by
  unfold Store.contents
  cases hat : s.at? place with
  | none =>
      rcases h.added place hplace hat with hnone | ⟨-, hdir⟩ | ⟨-, modified, hfile⟩
      · rw [hnone]
      · rw [hdir]
      · rw [hfile]
  | some entry => rw [h.kept _ _ hplace hat]

theorem Written.contents_of_mem (h : Written made lock s t files) {place : List String}
    {bytes : ByteArray} (hmem : (place, bytes) ∈ files) : t.contents place = bytes := by
  obtain ⟨modified, hat⟩ := h.written _ hmem
  rw [Store.contents, hat]

theorem contents_of_find {p : String} {bytes : ByteArray} {modified : Instant}
    (h : s.find p = .ok (.file bytes modified)) : s.contents (s.place p) = bytes := by
  rw [Store.contents, (find_eq_ok.mp h).2.1]

theorem place_eq (h : t.home = s.home) (p : String) : t.place p = s.place p := by
  rw [place, place, h]

theorem origin_eq_of_home (h : t.home = s.home) (p : String) : t.origin p = s.origin p := by
  rw [origin, origin, h]

theorem draft_eq (h : t.home = s.home) (p : String) : t.draft p = s.draft p := by
  rw [draft, draft, h]

theorem Written.follow (h : Written made lock s t files) {start dest steps : List String}
    (hfollow : s.follow start steps = .ok dest) : t.follow start steps = .ok dest := by
  induction steps generalizing start with
  | nil => exact hfollow
  | cons step rest ih =>
      obtain ⟨hdir, hlong, hrest⟩ := follow_cons.mp hfollow
      exact follow_cons.mpr ⟨h.directory hdir, hlong, ih hrest⟩

theorem Written.locate (h : Written made lock s t files) {p : String} {dest : List String}
    (hlocate : s.locate p = .ok dest) : t.locate p = .ok dest := by
  obtain ⟨start, horigin, hfollow⟩ := locate_eq_ok.mp hlocate
  exact locate_eq_ok.mpr ⟨start, by rw [origin_eq_of_home h.home, horigin], h.follow hfollow⟩

/-- A file that is not written is found as it was. -/
theorem Written.find (h : Written made lock s t files) {p : String} {entry : Entry}
    (hfind : s.find p = .ok entry) (hplace : s.place p ∉ files.map (·.1)) :
    t.find p = .ok entry := by
  obtain ⟨hlocate, hat, hend⟩ := find_eq_ok.mp hfind
  refine find_eq_ok.mpr ⟨?_, ?_, hend⟩
  · rw [place_eq h.home]
    exact h.locate hlocate
  · rw [place_eq h.home]
    exact h.kept _ _ hplace hat

theorem Written.find_of_mem (h : Written made lock s t files) {p : String} {entry : Entry}
    (hfind : s.find p = .ok entry) {bytes : ByteArray} (hmem : (s.place p, bytes) ∈ files) :
    ∃ bytes modified, t.find p = .ok (.file bytes modified) := by
  obtain ⟨hlocate, hat, hend⟩ := find_eq_ok.mp hfind
  obtain ⟨modified, hnew⟩ := h.written _ hmem
  refine ⟨bytes, modified, find_eq_ok.mpr ?_⟩
  rw [place_eq h.home]
  refine ⟨h.locate hlocate, hnew, fun hslash => ?_⟩
  rw [hend hslash] at hat
  exact absurd hat (h.noDirectory _ hmem)

/-! ### Single changes -/

theorem isPrefixOf_of_at? {place : List String} (h : s.at? place ≠ some .directory) :
    place.isPrefixOf s.home = false := by
  by_contra hprefix
  rw [Bool.not_eq_false] at hprefix
  exact h (by rw [at?, if_pos hprefix])

theorem written_put (made : Prop) (lock : List String) {place : List String}
    (h : s.at? place ≠ some .directory) (bytes : ByteArray) (modified : Instant) :
    Written made lock s (s.put place (.file bytes modified)) [(place, bytes)] := by
  have hput := at?_put (isPrefixOf_of_at? h) (.file bytes modified)
  refine ⟨rfl, ?_, by simpa using h, ?_, ?_⟩
  · simp [hput]
  · intro other entry hne hat
    rw [hput, if_neg (by simpa using hne), hat]
  · intro other hne hat
    rw [hput, if_neg (by simpa using hne), hat]
    exact .inl rfl

/-- A directory or the lock file is made where nothing stands. -/
theorem grown_put {place : List String} (h : s.at? place = none) {entry : Entry}
    (hentry : (made ∧ entry = .directory) ∨
      (place = lock ∧ ∃ modified, entry = .file .empty modified)) :
    Grown made lock s (s.put place entry) := by
  have hput := at?_put (isPrefixOf_of_at? (by rw [h]; simp)) entry
  refine ⟨rfl, by simp, by simp, ?_, ?_⟩
  · intro other found _ hat
    have hne : other ≠ place := fun heq => by rw [heq, h] at hat; cases hat
    rw [hput, if_neg hne, hat]
  · intro other _ hat
    rw [hput]
    split
    · next heq =>
      rcases hentry with ⟨hmade, rfl⟩ | ⟨hlock, modified, rfl⟩
      · exact .inr (.inl ⟨hmade, rfl⟩)
      · exact .inr (.inr ⟨heq.trans hlock, modified, rfl⟩)
    · exact .inl hat

/-! ### Directories -/

theorem grown_makeDir (lock : List String) (s : Store) (p : String) :
    Grown True lock s (s.makeDir p).2 := by
  unfold makeDir
  split
  · exact .refl _ _ s
  · split
    · exact .refl _ _ s
    · next hplace =>
      rw [not_or, Option.not_isSome_iff_eq_none] at hplace
      exact grown_put hplace.2 (.inl ⟨trivial, rfl⟩)

theorem orDirectory_snd (p : String) (r : Except FileFault Unit × Store) :
    (orDirectory p r).2 = r.2 := by
  unfold orDirectory
  split <;> rfl

theorem grown_makeInner (lock : List String) (s : Store) (paths : List String) :
    Grown True lock s (s.makeInner paths).2 := by
  induction paths generalizing s with
  | nil => exact .refl _ _ s
  | cons p outer ih =>
      have hfirst := grown_makeDir lock s p
      rw [makeInner]
      split
      · next s' hmake =>
        rw [hmake] at hfirst
        have hrest := ih s'
        split
        · next s'' hinner =>
          rw [hinner] at hrest
          rw [orDirectory_snd]
          exact Grown.trans (hfirst.trans hrest) (grown_makeDir lock s'' p)
        · exact hfirst.trans hrest
      · rw [orDirectory_snd]
        exact hfirst

theorem makeInner_of_isDirectory {p : String} (h : s.isDirectory p) (outer : List String) :
    s.makeInner (p :: outer) = (.ok (), s) := by
  obtain ⟨hlocate, hat⟩ := isDirectory_iff.mp h
  have hmake : s.makeDir p = (.error .alreadyExists, s) := by
    rw [makeDir, hlocate]
    simp [hat]
  rw [makeInner, hmake]
  exact if_pos h

theorem makeDirs_of_isDirectory {p : String} (h : s.isDirectory p) :
    s.makeDirs p = (.ok (), s) := by
  unfold makeDirs
  split
  · rfl
  · exact makeInner_of_isDirectory h _

/-- Directories are made at most where the innermost one is missing. -/
theorem grown_makeDirs (lock : List String) (s : Store) (p : String) :
    Grown (¬s.isDirectory p) lock s (s.makeDirs p).2 := by
  by_cases hdir : s.isDirectory p
  · rw [makeDirs_of_isDirectory hdir]
    exact .refl _ _ s
  · have hgrown : Grown True lock s (s.makeDirs p).2 := by
      unfold makeDirs
      split
      · exact .refl _ _ s
      · exact grown_makeInner lock s _
    exact hgrown.mono fun _ => hdir

theorem Written.isDirectory (h : Written made lock s t files) {p : String}
    (hdir : s.isDirectory p) : t.isDirectory p := by
  obtain ⟨hlocate, hat⟩ := isDirectory_iff.mp hdir
  rw [isDirectory_iff, place_eq h.home]
  exact ⟨h.locate hlocate, h.directory hat⟩

/-! ### Stores without new directories -/

theorem Written.directory_before (h : Written False lock s t files) {place : List String}
    (hdir : t.at? place = some .directory) : s.at? place = some .directory := by
  have hplace : place ∉ files.map (·.1) := by
    intro hmem
    obtain ⟨f, hf, rfl⟩ := List.mem_map.mp hmem
    obtain ⟨modified, hfile⟩ := h.written f hf
    rw [hdir] at hfile
    cases hfile
  cases hat : s.at? place with
  | some entry => rw [← hat, ← hdir, hat, h.kept place entry hplace hat]
  | none =>
      rcases h.added place hplace hat with hnone | ⟨hno, -⟩ | ⟨-, modified, hfile⟩
      · rw [hdir] at hnone
        cases hnone
      · exact hno.elim
      · rw [hdir] at hfile
        cases hfile

theorem Grown.locate_before (h : Grown False lock s t) {p : String} {dest : List String}
    (hlocate : t.locate p = .ok dest) : s.locate p = .ok dest := by
  have hfollow : ∀ {steps start : List String}, t.follow start steps = .ok dest →
      s.follow start steps = .ok dest := by
    intro steps
    induction steps with
    | nil => exact fun h => h
    | cons step rest ih =>
        intro start hstart
        obtain ⟨hdir, hlong, hrest⟩ := follow_cons.mp hstart
        exact follow_cons.mpr ⟨h.directory_before hdir, hlong, ih hrest⟩
  obtain ⟨start, horigin, hsteps⟩ := locate_eq_ok.mp hlocate
  rw [origin_eq_of_home h.home] at horigin
  exact locate_eq_ok.mpr ⟨start, horigin, hfollow hsteps⟩

end Pipewright.Store

/-!
## What paths see of a store

Whether a path can be followed, and whether a directory or a file can be made at
its end, depends on what stands where and not on what is in the files or when
they were written. `Store.outline` is the store without that, and the operations
commute with it: they meet the same faults in the outline, and leave the outline
of what they leave in the store.

So two stores of one outline answer alike when something is added to a file.
-/

namespace Pipewright.Store

/-- A file without what is in it, or a directory. -/
def Entry.outline : Entry → Entry
  | .file .. => .file .empty default
  | .directory => .directory

/-- The store without what is in its files and when they were written. -/
def outline (s : Store) : Store :=
  { s with entries := s.entries.map fun e => (e.1, e.2.outline) }

variable {s : Store}

theorem at?_outline (s : Store) (place : List String) :
    s.outline.at? place = (s.at? place).map Entry.outline := by
  have hlookup : ∀ entries : List (List String × Entry),
      (entries.map fun e => (e.1, e.2.outline)).lookup place
        = (entries.lookup place).map Entry.outline := by
    intro entries
    induction entries with
    | nil => rfl
    | cons e rest ih =>
        rw [List.map_cons, Keyed.lookup_cons_if, Keyed.lookup_cons_if, ih]
        split <;> rfl
  rw [at?, at?]
  change (if place.isPrefixOf s.home then _ else _) = _
  split
  · rfl
  · exact hlookup s.entries

theorem at?_outline_eq_directory {place : List String} :
    s.outline.at? place = some .directory ↔ s.at? place = some .directory := by
  rw [at?_outline]
  rcases s.at? place with _ | ⟨bytes, modified⟩ | _
  · simp
  · simp [Entry.outline]
  · simp [Entry.outline]

theorem isSome_at?_outline (s : Store) (place : List String) :
    (s.outline.at? place).isSome = (s.at? place).isSome := by
  rw [at?_outline, Option.isSome_map]

theorem outline_put (s : Store) (place : List String) (e : Entry) :
    (s.put place e).outline = s.outline.put place e.outline := by
  simp only [outline, put, List.map_cons, List.filter_map]
  rfl

/-! ### Following paths -/

theorem follow_outline (s : Store) (start steps : List String) :
    s.outline.follow start steps = s.follow start steps := by
  induction steps generalizing start with
  | nil => rfl
  | cons step rest ih =>
      rw [follow, follow, at?_outline]
      rcases s.at? start with _ | ⟨bytes, modified⟩ | _
      · rfl
      · rfl
      · simp only [Option.map_some, Entry.outline, ih]

theorem locate_outline (s : Store) (p : String) : s.outline.locate p = s.locate p := by
  have horigin : s.outline.origin p = s.origin p := rfl
  rw [locate, locate, horigin]
  simp only [follow_outline]

theorem isDirectory_outline (s : Store) (p : String) :
    s.outline.isDirectory p = s.isDirectory p := by
  rw [Bool.eq_iff_iff, isDirectory_iff, isDirectory_iff, locate_outline, at?_outline_eq_directory]
  rfl

theorem site_outline (s : Store) (p : String) : s.outline.site p = s.site p := by
  have horigin : s.outline.origin p = s.origin p := rfl
  rw [site, site, locateHolder, locateHolder, locate_outline, horigin]
  simp only [follow_outline, at?_outline_eq_directory]

/-! ### Making things -/

theorem makeDir_outline (s : Store) (p : String) :
    s.outline.makeDir p = ((s.makeDir p).1, (s.makeDir p).2.outline) := by
  rw [makeDir, makeDir, locate_outline]
  cases s.locate p with
  | error fault => rfl
  | ok place =>
      simp only [isSome_at?_outline]
      split
      · rfl
      · rw [outline_put]
        rfl

theorem orDirectory_outline (p : String) (r : Except FileFault Unit × Store) :
    orDirectory p (r.1, r.2.outline) = ((orDirectory p r).1, (orDirectory p r).2.outline) := by
  simp only [orDirectory, isDirectory_outline]
  split <;> rfl

theorem makeInner_outline (s : Store) (paths : List String) :
    s.outline.makeInner paths = ((s.makeInner paths).1, (s.makeInner paths).2.outline) := by
  induction paths generalizing s with
  | nil => rfl
  | cons p outer ih =>
      rw [makeInner, makeInner, makeDir_outline]
      rcases s.makeDir p with ⟨fault | ⟨⟩, t⟩
      · cases fault
        case notFound =>
          dsimp only
          rw [ih]
          rcases t.makeInner outer with ⟨fault | ⟨⟩, u⟩
          · rfl
          · dsimp only
            rw [makeDir_outline]
            exact orDirectory_outline p _
        all_goals exact orDirectory_outline p (_, t)
      · exact orDirectory_outline p (_, t)

theorem makeDirs_outline (s : Store) (p : String) :
    s.outline.makeDirs p = ((s.makeDirs p).1, (s.makeDirs p).2.outline) := by
  rw [makeDirs, makeDirs]
  split
  · rfl
  · exact makeInner_outline s _

theorem create_fst (s : Store) (p : String) (now : Instant) : (s.create p now).1 = s.site p := by
  rw [create]
  cases s.site p with
  | error fault => rfl
  | ok place =>
      dsimp only
      split <;> rfl

/-- A file that is made new has the same outline at any time. -/
theorem create_outline (s : Store) (p : String) (now : Instant) :
    (s.create p now).2.outline = (s.create p default).2.outline := by
  rw [create, create]
  cases s.site p with
  | error fault => rfl
  | ok place =>
      dsimp only
      split
      · rfl
      · rw [outline_put, outline_put]
        rfl

theorem putFile_fst (s : Store) (p : String) (now : Instant) (f : ByteArray → ByteArray) :
    (s.putFile p now f).1 = (s.site p).map fun _ => () := by
  rw [putFile, ← s.create_fst p now]
  rcases s.create p now with ⟨fault | place, t⟩ <;> rfl

/-- Adding to a file fails if its directory cannot be made or the file cannot be made in it. -/
theorem append_fst (s : Store) (p : String) (bytes : ByteArray) (now : Instant) :
    (s.append p bytes now).1 =
      (s.makeDirs (holder p)).1 >>= fun _ => ((s.makeDirs (holder p)).2.site p).map fun _ =>
      () := by
  rw [append, update]
  rcases s.makeDirs (holder p) with ⟨fault | ⟨⟩, t⟩
  · rfl
  · exact t.putFile_fst p now _

/-- Stores of one outline answer alike when something is added to a file. -/
theorem append_eq_of_outline {t : Store} (h : s.outline = t.outline) (p : String)
    (bytes bytes' : ByteArray) (now now' : Instant) :
    (s.append p bytes now).1 = (t.append p bytes' now').1 := by
  have hmake := t.makeDirs_outline (holder p)
  rw [← h, makeDirs_outline] at hmake
  obtain ⟨hanswer, hleft⟩ := Prod.mk.inj hmake
  rw [append_fst, append_fst, hanswer, ← site_outline, hleft, site_outline]

end Pipewright.Store
