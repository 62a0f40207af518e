import Pipewright.Proofs.Store.Files
import Pipewright.Proofs.Store.Siblings

/-!
# Files that are moved

Making one directory and moving a file are small changes, and it is said exactly
where the store is another one afterwards (`Altered`). Both begin with following
a path to something in a directory that is there, which can be done as long as
the path is not too long.
-/

namespace Pipewright.Store

open Pipewright.Path

variable {s t u : Store} {dir name path p q : String} {places more : List (List String)}

/-! ## Small changes -/

/-- Nothing else was changed than what stands at these places, and no directory is gone. -/
structure Altered (places : List (List String)) (s t : Store) : Prop where
  home : t.home = s.home
  kept : ∀ place, place ∉ places → t.at? place = s.at? place
  directory : ∀ place, s.at? place = some .directory → t.at? place = some .directory

theorem Altered.refl (places : List (List String)) (s : Store) : Altered places s s :=
  ⟨rfl, fun _ _ => rfl, fun _ h => h⟩

theorem Altered.mono (h : Altered places s t) (hmore : places ⊆ more) : Altered more s t where
  home := h.home
  kept := fun place hplace => h.kept place fun hmem => hplace (hmore hmem)
  directory := h.directory

theorem Altered.trans (h : Altered places s t) (h' : Altered more t u) :
    Altered (places ++ more) s u where
  home := h'.home.trans h.home
  kept := by
    intro place hplace
    rw [List.mem_append, not_or] at hplace
    rw [h'.kept place hplace.2, h.kept place hplace.1]
  directory := fun place hdir => h'.directory place (h.directory place hdir)

theorem Altered.touched (h : Altered places s t) : Touched places [] s t where
  home := h.home
  kept := by
    intro place entry hplace hat
    rw [h.kept place hplace, hat]
  added := by
    intro place hplace hat
    exact .inl (by rw [h.kept place hplace, hat])
  directory := h.directory

theorem Altered.isDirectory (h : Altered places s t) (hdir : s.isDirectory path) :
    t.isDirectory path :=
  h.touched.isDirectory hdir

theorem Altered.has (h : Altered places s t) (hplace : s.place path ∉ places) {x : Option ByteArray}
    (hx : s.Has path x) : t.Has path x :=
  (h.touched.keeps hplace (by simp)).has x hx

theorem altered_put {place : List String} (h : s.at? place ≠ some .directory) (entry : Entry) :
    Altered [place] s (s.put place entry) where
  home := rfl
  kept := by
    intro other hother
    rw [at?_put (isPrefixOf_of_at? h), if_neg (by simpa using hother)]
  directory := by
    intro other hother
    rw [at?_put (isPrefixOf_of_at? h), if_neg (by rintro rfl; exact h hother), hother]

theorem altered_remove {place : List String} (h : s.at? place ≠ some .directory) :
    Altered [place] s (s.remove place) where
  home := rfl
  kept := by
    intro other hother
    rw [at?_remove (isPrefixOf_of_at? h), if_neg (by simpa using hother)]
  directory := by
    intro other hother
    rw [at?_remove (isPrefixOf_of_at? h), if_neg (by rintro rfl; exact h hother), hother]

/-- A file that is written with its directory there alters the store in its place. -/
theorem WritesOne.altered {place : List String} {bytes : ByteArray}
    {r : Except FileFault Unit × Store}
    (h : WritesOne False s place bytes r) : Altered [place] s r.2 where
  home := (h.touched []).home
  kept := fun other hother => h.at?_of_ne id (by simpa using hother)
  directory := (h.touched []).directory

theorem putFile_eq_error_snd {now : Instant} {f : ByteArray → ByteArray} {fault : FileFault}
    (h : s.putFile p now f = (.error fault, t)) : t = s := by
  unfold putFile at h
  split at h
  · next hcreate =>
    rw [← (Prod.mk.inj h).2]
    exact create_eq_error_snd hcreate
  · cases h

/-! ## Paths into a directory -/

/-- No path that can be followed has a zero in it. -/
theorem not_mem_of_origin {start : List String} (h : s.origin p = .ok start) :
    '\x00' ∉ p.toList := by
  rw [origin] at h
  split at h
  · cases h
  · next hnull => exact fun hmem => hnull (List.contains_iff_mem.mpr hmem)

theorem mem_join {c : Char} (h : c ∈ (join dir name).toList) :
    c ∈ dir.toList ∨ c = '/' ∨ c ∈ name.toList := by
  unfold join at h
  split at h
  · exact .inr (.inr h)
  · split at h
    · rw [String.toList_append, List.mem_append] at h
      exact h.imp_right .inr
    · simp only [String.toList_append, List.mem_append] at h
      rcases h with (hdir | hslash) | hname
      · exact .inl hdir
      · exact .inr (.inl (by simpa using hslash))
      · exact .inr (.inr hname)

/-- A path to something in a directory can be followed from where that of the directory begins, if
it is not too long. -/
theorem origin_join {start : List String} (horigin : s.origin dir = .ok start) (hname : IsName name)
    (hnull : '\x00' ∉ name.toList) (hsize : (join dir name).utf8ByteSize < 4096) :
    s.origin (join dir name) = .ok start := by
  have hzero : ¬(join dir name).toList.contains '\x00' = true := by
    intro hmem
    rcases mem_join (List.contains_iff_mem.mp hmem) with hdir | hslash | hname
    · exact not_mem_of_origin horigin hdir
    · cases hslash
    · exact hnull hname
  rw [origin, if_neg hzero, if_neg (join_ne_empty dir hname), if_neg (Nat.not_le.mpr hsize),
    isAbsolute_join dir hname, ← origin_eq horigin]

/-- The name of something that a path can be followed to is one that can stand in a directory. -/
theorem name_of_locate_join {dest : List String} (hname : IsName name)
    (hlocate : s.locate (join dir name) = .ok dest) :
    '\x00' ∉ name.toList ∧ isLong name = false := by
  obtain ⟨start, horigin, hfollow⟩ := locate_eq_ok.mp hlocate
  constructor
  · have hnull := not_mem_of_origin horigin
    unfold join at hnull
    split at hnull
    · exact hnull
    · split at hnull <;> simp only [String.toList_append, List.mem_append, not_or] at hnull
      · exact hnull.2
      · exact hnull.2
  · rw [steps_join dir hname, follow_append] at hfollow
    obtain ⟨mid, -, hlast⟩ := hfollow
    by_contra hlong
    rcases (follow_cons.mp hlast).2.1 (by simpa using hlong) with hdot | hdots
    · exact hname.ne_dot hdot
    · exact hname.ne_dots hdots

theorem locate_join {start : List String} (hdir : s.isDirectory dir) (hname : IsName name)
    (horigin : s.origin (join dir name) = .ok start) (hshort : isLong name = false) :
    s.locate (join dir name) = .ok (s.place dir ++ [name]) := by
  obtain ⟨hlocate, hat⟩ := isDirectory_iff.mp hdir
  obtain ⟨start', horigin', hfollow⟩ := locate_eq_ok.mp hlocate
  have hstart : start = start' := by
    rw [origin_eq horigin, origin_eq horigin', isAbsolute_join dir hname]
  refine locate_eq_ok.mpr ⟨start, horigin, ?_⟩
  rw [steps_join dir hname, follow_append, hstart]
  refine ⟨s.place dir, hfollow, follow_cons.mpr ⟨hat, fun hlong => ?_, ?_⟩⟩
  · rw [hshort] at hlong
    cases hlong
  · rw [stepFrom, if_neg hname.ne_dot, if_neg hname.ne_dots]
    rfl

/-- A directory in a directory is made, or it is there. -/
theorem makeDirs_join {start : List String} (hdir : s.isDirectory dir) (hname : IsName name)
    (horigin : s.origin (join dir name) = .ok start) (hshort : isLong name = false)
    (hat : s.at? (s.place dir ++ [name]) = none ∨ s.at? (s.place dir ++ [name]) = some .directory) :
    ∃ t, s.makeDirs (join dir name) = (.ok (), t) ∧ t.isDirectory (join dir name) ∧
      Altered [s.place dir ++ [name]] s t := by
  have hlocate := locate_join hdir hname horigin hshort
  rcases hat with hnone | hthere
  · have hmake : s.makeDir (join dir name)
        = (.ok (), s.put (s.place dir ++ [name]) .directory) := by
      rw [makeDir, hlocate]
      dsimp only
      rw [ending_join dir hname, hnone]
      rfl
    have hmade := isDirectory_of_makeDir hmake
    refine ⟨_, ?_, hmade, altered_put (by simp [hnone]) _⟩
    rw [makeDirs, if_neg (join_ne_empty dir hname), makeInner, hmake]
    exact if_pos hmade
  · have hthere : s.isDirectory (join dir name) := by
      rw [isDirectory_iff, s.place_join dir hname]
      exact ⟨hlocate, hthere⟩
    exact ⟨s, makeDirs_of_isDirectory hthere, hthere, Altered.refl _ s⟩

/-- Nothing is found where a directory is yet to be made. -/
theorem find_of_makeDirs (hmade : (s.makeDirs p).1 = .ok ()) (hdir : ¬s.isDirectory p) :
    s.find p = .error .notFound := by
  by_cases hempty : p = ""
  · rw [hempty]
    rfl
  rw [makeDirs, if_neg hempty, makeInner] at hmade
  have hkept : ∀ fault, orDirectory p (.error fault, s) = (.error fault, s) := fun _ => if_neg hdir
  cases hlocate : s.locate p with
  | error fault =>
    rw [Store.find, hlocate]
    rw [makeDir, hlocate] at hmade
    cases fault with
    | notFound => rfl
    | _ => simp only [hkept] at hmade; cases hmade
  | ok place =>
    cases hat : s.at? place with
    | none =>
      rw [Store.find, hlocate]
      simp only [bind, Except.bind, hat]
      rfl
    | some entry =>
      rw [makeDir, hlocate] at hmade
      simp only [hat, Option.isSome_some, or_true, if_true, hkept] at hmade
      cases hmade

/-! ## Moving -/

theorem lt_of_move (h : s.move p q = (.ok (), t)) : q.utf8ByteSize < 4096 := by
  by_contra hlong
  obtain ⟨fault, horigin⟩ := @origin_of_long s q (Nat.not_lt.mp hlong)
  have hlanding : s.landing q = .error fault := by
    rw [landing, locate, horigin]
    rfl
  rw [move, hlanding] at h
  cases hlocate : s.locate p <;> rw [hlocate] at h <;> cases h

/-- A file that is found is moved to where a file can be. -/
theorem move_spec {bytes : ByteArray} (hfile : s.Has p (some bytes))
    (hlanding : s.landing q = .ok (s.place q)) (hne : s.place p ≠ s.place q) :
    ∃ t, s.move p q = (.ok (), t) ∧ t.at? (s.place p) = none ∧ t.Has q (some bytes) ∧
      Altered [s.place p, s.place q] s t := by
  obtain ⟨modified, hfind⟩ := hfile
  obtain ⟨hlocate, hat, -⟩ := find_eq_file.mp hfind
  obtain ⟨-, hno, htarget, hend⟩ := landing_eq_ok hlanding
  have hsource : s.at? (s.place p) ≠ some .directory := by rw [hat]; nofun
  have hremove := altered_remove hsource
  have hfree : (s.remove (s.place p)).at? (s.place q) ≠ some .directory := by
    rwa [hremove.kept _ (by simpa using hne.symm)]
  have hput := altered_put hfree (.file bytes modified)
  have haltered := hremove.trans hput
  refine ⟨_, by rw [move, hlocate, hlanding]; dsimp only; rw [hat], ?_, ⟨modified, ?_⟩, haltered⟩
  · rw [hput.kept _ (by simpa using hne), at?_remove (isPrefixOf_of_at? hsource), if_pos rfl]
  · refine find_eq_file.mpr ⟨?_, ?_, hend⟩
    · obtain ⟨start, horigin, hfollow⟩ := locate_eq_ok.mp htarget
      rw [place_eq haltered.home]
      exact locate_eq_ok.mpr ⟨start, by rw [origin_eq_of_home haltered.home, horigin],
        haltered.touched.follow hfollow⟩
    · rw [place_eq haltered.home, at?_put (isPrefixOf_of_at? hfree), if_pos rfl]

/-! ## Moving into a directory inside -/

/-- The places that are altered when a file is moved into a directory inside the one it is in. -/
def passage (s : Store) (dir inner name : String) : List (List String) :=
  [s.place dir ++ [inner], s.place dir ++ [name], s.place dir ++ [inner, name]]

/-- A directory stands at the place, or nothing is in its way. -/
def IsClear (s : Store) (place : List String) : Prop :=
    s.at? place = none ∨ s.at? place = some .directory

/-- There is room for the file in the directory inside, which may be yet to be made. -/
structure HasRoom (s : Store) (dir inner name : String) : Prop where
  short : (join (join dir inner) name).utf8ByteSize < 4096
  within : s.IsClear (s.place dir ++ [inner])
  free : s.at? (s.place dir ++ [inner, name]) ≠ some .directory

/-- The name is one under which a directory can be made. -/
structure IsPlainName (name : String) : Prop where
  isName : IsName name
  null : '\x00' ∉ name.toList
  short : isLong name = false

/-- A file is moved into a directory inside, which is made if it is missing. -/
theorem moveInto_spec {inner : String} {bytes : ByteArray} (hdir : s.isDirectory dir)
    (hinner : IsPlainName inner) (hname : IsName name) (hne : name ≠ inner)
    (hhas : s.Has (join dir name) (some bytes)) (hroom : s.HasRoom dir inner name) :
    ∃ u t, s.makeDirs (join dir inner) = (.ok (), u) ∧
      u.move (join dir name) (join (join dir inner) name) = (.ok (), t) ∧
      Altered (s.passage dir inner name) s t ∧ t.at? (s.place dir ++ [name]) = none ∧
      t.Has (join (join dir inner) name) (some bytes) ∧
      t.at? (s.place dir ++ [inner]) = some .directory := by
  have hsource := s.place_join dir hname
  have htarget : s.place (join (join dir inner) name) = s.place dir ++ [inner, name] := by
    rw [s.place_join _ hname, s.place_join dir hinner.isName, List.append_assoc]
    rfl
  obtain ⟨modified, hfind⟩ := hhas
  obtain ⟨hlocate, -, -⟩ := find_eq_file.mp hfind
  obtain ⟨hnull, hshort⟩ := name_of_locate_join hname hlocate
  obtain ⟨start, horigin, -⟩ := locate_eq_ok.mp (isDirectory_iff.mp hdir).1
  have hsize : (join dir inner).utf8ByteSize < 4096 := by
    have hle := le_utf8ByteSize_join (join dir inner) name hname.head_ne
    have hmost := hroom.short
    omega
  obtain ⟨u, hmake, hthere, hmade⟩ := makeDirs_join hdir hinner.isName
    (origin_join horigin hinner.isName hinner.null hsize) hinner.short hroom.within
  have hhas : u.Has (join dir name) (some bytes) := by
    refine hmade.has ?_ ⟨modified, hfind⟩
    rw [hsource]
    simpa using hne
  have hlanding : u.landing (join (join dir inner) name)
      = .ok (u.place (join (join dir inner) name)) := by
    obtain ⟨start, horigin, -⟩ := locate_eq_ok.mp (isDirectory_iff.mp hthere).1
    have hlocate := locate_join hthere hname (origin_join horigin hname hnull hroom.short) hshort
    rw [u.place_join _ hname]
    refine landing_of_locate hlocate (ending_join _ hname) ?_
    rw [← u.place_join _ hname, place_eq hmade.home, htarget, hmade.kept _ (by simp)]
    exact hroom.free
  have hapart : u.place (join dir name) ≠ u.place (join (join dir inner) name) := by
    rw [place_eq hmade.home, place_eq hmade.home, hsource, htarget]
    simp
  obtain ⟨t, hmove, hgone, harrived, hmoved⟩ := move_spec hhas hlanding hapart
  rw [place_eq hmade.home, place_eq hmade.home, hsource, htarget] at hmoved
  rw [place_eq hmade.home, hsource] at hgone
  have hkept := (isDirectory_iff.mp hthere).2
  rw [place_eq hmade.home, s.place_join dir hinner.isName] at hkept
  exact ⟨u, t, hmake, hmove, hmade.trans hmoved, hgone, harrived, hmoved.directory _ hkept⟩

end Pipewright.Store
