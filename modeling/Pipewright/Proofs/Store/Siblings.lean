import Mathlib.Data.List.Infix
import Pipewright.Proofs.Store.Files
import Pipewright.Proofs.Store.Making

/-!
# Files of one directory

Files beside each other, and what is new among them when a write was stopped.
-/

/-!
## Files of one directory

Much of what is kept is a file of a record under a name that is made for it, in
one directory with the others. Whatever the text of the directory's path is,
such a file stands in the directory's place under its name (`Store.place_join`),
so files with different names are different files, and each of them is in the
same directory as its lock file.

The directory may be given by a path that leads nowhere yet, or by no text at
all, which is the working directory for the files in it.
-/

namespace Pipewright

namespace Path

/-! ### Names -/

/-- The text is the name of a file: there is no slash in it, and the last character is no
dot. -/
structure IsName (name : String) : Prop where
  slash : '/' ∉ name.toList
  last : ∃ c, name.toList.getLast? = some c ∧ c ≠ '.'

namespace IsName

variable {name : String}

theorem ne_empty (h : IsName name) : name ≠ "" := by
  rintro rfl
  obtain ⟨c, hc, -⟩ := h.last
  cases hc

theorem ne_dot (h : IsName name) : name ≠ "." := by
  rintro rfl
  obtain ⟨c, hc, hdot⟩ := h.last
  exact hdot (Option.some.inj hc).symm

theorem ne_dots (h : IsName name) : name ≠ ".." := by
  rintro rfl
  obtain ⟨c, hc, hdot⟩ := h.last
  exact hdot (Option.some.inj hc).symm

/-- A name has a last character, which is neither a slash nor a dot. -/
theorem exists_concat (h : IsName name) : ∃ front c, name = String.ofList (front ++ [c]) ∧
    '/' ∉ front ∧ c ≠ '/' ∧ c ≠ '.' := by
  obtain ⟨c, hc, hdot⟩ := h.last
  obtain ⟨front, hfront⟩ := List.getLast?_eq_some_iff.mp hc
  have hslash := h.slash
  rw [hfront, List.mem_append, List.mem_singleton, not_or] at hslash
  exact ⟨front, c, by rw [← hfront, String.ofList_toList], hslash.1, Ne.symm hslash.2, hdot⟩

theorem head_ne (h : IsName name) : name.toList.head? ≠ some '/' :=
  fun hhead => h.slash (List.mem_of_head? hhead)

/-- A name with more behind it is a name if that ends like one. -/
theorem append {more : String} (hname : '/' ∉ name.toList) (h : IsName more) :
    IsName (name ++ more) := by
  obtain ⟨c, hc, hdot⟩ := h.last
  refine ⟨?_, c, ?_, hdot⟩
  · rw [String.toList_append, List.mem_append, not_or]
    exact ⟨hname, h.slash⟩
  · rw [String.toList_append, List.getLast?_append, hc]
    rfl

end IsName

variable {name : String} (dir : String)

/-! ### Paths that are put together -/

theorem steps_join (h : IsName name) : steps (join dir name) = steps dir ++ [name] := by
  have hne : name.toList ≠ [] := fun hnil => h.ne_empty (String.toList_inj.mp hnil)
  have hname : stepsOf name.toList = [name] := by
    rw [stepsOf_of_not_mem hne h.slash, String.ofList_toList]
  unfold join
  simp only [h.head_ne, false_or]
  split
  · next hdir =>
    rw [hdir]
    exact hname
  · split
    · next hslash =>
      obtain ⟨front, hfront⟩ := List.getLast?_eq_some_iff.mp hslash
      change stepsOf (dir ++ name).toList = stepsOf dir.toList ++ [name]
      have hdir : stepsOf (front ++ ['/']) = stepsOf front := by
        rw [stepsOf_append_slash]
        exact List.append_nil _
      rw [String.toList_append, hfront, hdir, List.append_assoc, ← hname]
      exact stepsOf_append_slash _ _
    · change stepsOf (dir ++ "/" ++ name).toList = stepsOf dir.toList ++ [name]
      rw [String.toList_append, String.toList_append, List.append_assoc, ← hname]
      exact stepsOf_append_slash _ _

theorem join_ne_empty (h : IsName name) : join dir name ≠ "" := by
  intro heq
  have hsteps := steps_join dir h
  rw [heq, show steps "" = [] from rfl] at hsteps
  simp at hsteps

theorem isAbsolute_join (h : IsName name) : isAbsolute (join dir name) = isAbsolute dir := by
  unfold join
  simp only [h.head_ne, false_or]
  split
  · next hdir =>
    rw [hdir, isAbsolute]
    simpa [isAbsolute] using h.head_ne
  · next hne =>
    split
    · exact (isAbsolute_of_append rfl hne).symm
    · exact (isAbsolute_of_append (String.append_assoc ..) hne).symm

theorem ending_join (h : IsName name) : ending (join dir name) = .name := by
  have hlast : (join dir name).toList.getLast? ≠ some '/' := by
    have hname : name.toList.getLast? ≠ some '/' :=
      fun hslash => h.slash (List.mem_of_getLast? hslash)
    obtain ⟨c, hc, -⟩ := h.last
    rw [hc] at hname
    unfold join
    split
    · rwa [hc]
    · split <;> rwa [String.toList_append, List.getLast?_append, hc]
  rw [ending, steps_join dir h, List.getLast?_concat]
  simp only [h.ne_dot, h.ne_dots, or_self, if_false, hlast]

theorem holder_join (h : IsName name) : Store.holder (join dir name)
    = if dir = "" then "." else String.ofList (trimEnd dir.toList) := by
  obtain ⟨front, c, rfl, hfront, hslash, hdot⟩ := h.exists_concat
  rw [Store.holder, parent?_join hfront hslash hdot]
  dsimp only
  by_cases hdir : dir = ""
  · rw [hdir]
    rfl
  · have hne : dir.toList ≠ [] := fun hnil => hdir (String.toList_inj.mp hnil)
    have hparent : String.ofList (trimEnd dir.toList) ≠ "" := fun heq =>
      (stepsOf_trimEnd hne).1 (by simpa using congrArg String.toList heq)
    rw [if_neg hparent, if_neg hdir]

theorem fileName?_join (h : IsName name) : fileName? (join dir name) = some name := by
  have hsteps := steps_join dir h
  have hend := ending_join dir h
  rw [fileName?_of_ending hend]
  have hlast : steps (join dir name) = _ := stepsOf_splitLast (parent?_of_ending hend).2
  rw [hlast] at hsteps
  have hlength : ∀ a b : String, [a].length = [b].length := fun _ _ => rfl
  exact congrArg some (List.singleton_inj.mp (List.append_inj' hsteps (hlength _ _)).2)

theorem lockPath_join (h : IsName name) : lockPath (join dir name)
    = join (String.ofList (trimEnd dir.toList)) (name ++ ".lock") := by
  obtain ⟨front, c, hname, hfront, hslash, hdot⟩ := h.exists_concat
  rw [lockPath, withFileName, fileName?_join dir h, hname, parent?_join hfront hslash hdot]
  rfl

theorem isName_lock (h : IsName name) : IsName (name ++ ".lock") :=
  .append h.slash ⟨by decide, 'k', rfl, by decide⟩

end Path

namespace Store

open Pipewright.Path

variable {s : Store} {dir name other : String}

/-! ### Their places -/

/-- A file stands under its name in the place of its directory. -/
theorem place_join (s : Store) (dir : String) (h : IsName name) :
    s.place (join dir name) = s.place dir ++ [name] := by
  rw [place, place, steps_join dir h, isAbsolute_join dir h, List.foldl_append]
  simp only [List.foldl_cons, List.foldl_nil, stepFrom, if_neg h.ne_dot, if_neg h.ne_dots]

theorem place_join_inj (hname : IsName name) (hother : IsName other) :
    s.place (join dir name) = s.place (join dir other) ↔ name = other := by
  rw [s.place_join dir hname, s.place_join dir hother, List.append_cancel_left_eq,
    List.singleton_inj]

theorem foldl_stepFrom_dots (start : List String) (k : Nat) :
    (List.replicate k ".").foldl stepFrom start = start := by
  induction k with
  | zero => rfl
  | succ k ih => exact ih

/-- What is trimmed off a path does not change where it leads. -/
theorem place_trimEnd (s : Store) (dir : String) :
    s.place (String.ofList (trimEnd dir.toList)) = s.place dir := by
  by_cases hdir : dir = ""
  · rw [hdir]
    rfl
  · have hchars : dir.toList ≠ [] := fun hnil => hdir (String.toList_inj.mp hnil)
    obtain ⟨hne, ⟨rest, hrest⟩, k, hk⟩ := stepsOf_trimEnd hchars
    have hsplit : dir = String.ofList (trimEnd dir.toList) ++ String.ofList rest := by
      rw [← String.ofList_append, hrest, String.ofList_toList]
    have hnonempty : String.ofList (trimEnd dir.toList) ≠ "" := fun heq =>
      hne (by simpa using congrArg String.toList heq)
    have hsteps : steps dir = steps (String.ofList (trimEnd dir.toList)) ++
        List.replicate k "." := by
      rw [steps_ofList]
      exact hk
    rw [place, place, hsteps, List.foldl_append, foldl_stepFrom_dots,
      isAbsolute_of_append hsplit hnonempty]

/-- A lock file stands in the directory of its file, under a name of its own. -/
theorem place_lockPath_join (s : Store) (dir : String) (h : IsName name) :
    s.place (lockPath (join dir name)) = s.place dir ++ [name ++ ".lock"] := by
  rw [lockPath_join dir h, s.place_join _ (isName_lock h), s.place_trimEnd]

/-- A file whose name does not end like that of a lock file is no lock file. -/
theorem place_join_ne_lockPath (s : Store) (dir : String) {path : String} (hname : IsName name)
    (hlast : name.toList.getLast? ≠ some 'k') (hend : Path.ending path = .name) :
    s.place (join dir name) ≠ s.place (lockPath path) := by
  obtain ⟨stem, -, hlock⟩ := Path.getLast?_steps_lockPath hend
  have hstem : (stem ++ ".lock").toList.getLast? = some 'k' := by
    rw [String.toList_append, List.getLast?_append]
    rfl
  have hne : ∀ other : String, other.toList.getLast? ≠ some 'k' → stem ++ ".lock" ≠ other := by
    rintro other hother rfl
    exact hother hstem
  intro heq
  have hlasts := congrArg List.getLast? heq
  rw [s.place_join dir hname, List.getLast?_concat,
    s.getLast?_place hlock (hne "." (by decide)) (hne ".." (by decide))] at hlasts
  exact hne name hlast (Option.some.inj hlasts).symm

/-- The directory of a file that a path can be followed to is there. -/
theorem isDirectory_of_locate_join {dest : List String} (hdir : dir ≠ "") (h : IsName name)
    (hlocate : s.locate (join dir name) = .ok dest) : s.isDirectory dir := by
  obtain ⟨start, horigin, hfollow⟩ := locate_eq_ok.mp hlocate
  rw [steps_join dir h, follow_append] at hfollow
  obtain ⟨mid, hmid, hlast⟩ := hfollow
  obtain ⟨rest, hrest⟩ : ∃ rest, join dir name = dir ++ rest := by
    unfold join
    simp only [h.head_ne, false_or, hdir, if_false]
    split
    · exact ⟨name, rfl⟩
    · exact ⟨"/" ++ name, String.append_assoc ..⟩
  have hbase : s.locate dir = .ok mid :=
    locate_eq_ok.mpr ⟨start, origin_of_append horigin hrest hdir, hmid⟩
  obtain rfl := locate_eq hbase
  exact isDirectory_iff.mpr ⟨hbase, (follow_cons.mp hlast).1⟩

/-! ### What stands there -/

theorem mem_entries_of_file {place : List String} {bytes : ByteArray} {modified : Instant}
    (h : s.at? place = some (.file bytes modified)) : (place, .file bytes modified)
      ∈ s.entries := by
  rw [at?] at h
  split at h
  · cases h
  · obtain ⟨front, back, hentries, -⟩ := List.lookup_eq_some_iff.mp h
    rw [hentries]
    exact List.mem_append_right _ (List.mem_cons_self ..)

theorem at?_ne_none_of_mem {place : List String} {entry : Entry} (h : (place, entry) ∈ s.entries) :
    s.at? place ≠ none := by
  rw [at?]
  split
  · exact Option.some_ne_none _
  · rw [ne_eq, List.lookup_eq_none_iff]
    intro hno
    exact absurd (hno _ h) (by simp)

theorem nameIn_eq_some {place at_ : List String} : nameIn place at_ = some name ↔
    at_ = place ++ [name] := by
  rw [nameIn]
  cases hback : at_.reverse with
  | nil =>
      rw [List.reverse_eq_nil_iff.mp hback]
      simp
  | cons last back =>
      have hat : at_ = back.reverse ++ [last] := by
        rw [← List.reverse_reverse at_, hback, List.reverse_cons]
      simp only [hat, Option.ite_none_right_eq_some, Option.some.injEq]
      constructor
      · rintro ⟨rfl, rfl⟩
        rfl
      · intro heq
        obtain ⟨hplace, hname⟩ := List.append_inj' heq rfl
        exact ⟨hplace, List.singleton_inj.mp hname⟩

/-- A directory that is there is listed: the names are in order, something stands under each of
them, and each file in it has its name among them. -/
theorem exists_list (hdir : s.isDirectory dir) :
    ∃ names, s.list dir = .ok names ∧ names.Pairwise (· ≤ ·) ∧
      (∀ name ∈ names, s.at? (s.place dir ++ [name]) ≠ none) ∧
      ∀ name bytes modified, s.at? (s.place dir ++ [name]) = some (.file bytes modified) →
        name ∈ names := by
  obtain ⟨hlocate, hat⟩ := isDirectory_iff.mp hdir
  have hfind := find_eq_directory hlocate hat
  refine ⟨_, by rw [list, hfind, hlocate]; rfl, ?_, ?_, ?_⟩
  · have hsorted := @List.pairwise_mergeSort String (fun a b => decide (a ≤ b))
      (fun a b c => by simpa using String.le_trans) (fun a b => by simpa using String.le_total a b)
      (s.entries.filterMap fun e => nameIn (s.place dir) e.1)
    exact hsorted.imp fun h => of_decide_eq_true h
  · intro name hname
    obtain ⟨⟨place, entry⟩, hmem, hnameIn⟩ := List.mem_filterMap.mp (List.mem_mergeSort.mp hname)
    obtain rfl := nameIn_eq_some.mp hnameIn
    exact at?_ne_none_of_mem hmem
  · intro name bytes modified hfile
    refine List.mem_mergeSort.mpr (List.mem_filterMap.mpr ⟨_, mem_entries_of_file hfile, ?_⟩)
    exact nameIn_eq_some.mpr rfl

end Store

/-!
## What is new in a store

Whoever writes a file makes the directories that are missing on the way to it.
So what is new afterwards stands where the path of the file comes by, at one of
its stops, and nowhere else (`NewAt`). The stops of a path are told by its text,
whatever is in the store.
-/

namespace Path

/-! ### The holder of a path -/

theorem isPrefix_of_trimEnd (cs : List Char) :
    trimEnd cs <+: cs ∧ stepsOf (trimEnd cs) <+: stepsOf cs := by
  by_cases hcs : cs = []
  · rw [hcs]
    exact ⟨List.prefix_refl _, List.prefix_refl _⟩
  · obtain ⟨-, hrest, k, hsteps⟩ := stepsOf_trimEnd hcs
    exact ⟨hrest, _, hsteps.symm⟩

theorem isPrefix_of_splitLast (cs : List Char) :
    (splitLast cs).1 <+: cs ∧ stepsOf (splitLast cs).1 <+: stepsOf cs := by
  have happend := splitLast_append cs
  refine ⟨⟨_, happend⟩, ?_⟩
  rcases splitLast_fst cs with hnil | ⟨front, hfront⟩
  · rw [hnil]
    exact List.nil_prefix
  · have hsteps : stepsOf (splitLast cs).1 = stepsOf front := by
      rw [hfront, stepsOf_append_slash]
      exact List.append_nil _
    rw [hfront, List.append_assoc, List.singleton_append] at happend
    refine ⟨stepsOf (splitLast cs).2, ?_⟩
    rw [hsteps, ← stepsOf_append_slash, happend]

/-- The one path comes by where the other one leads. -/
structure ComesBy (x y : String) : Prop where
  steps : steps y <+: steps x
  base : isAbsolute y = isAbsolute x

theorem ComesBy.of_goesOn {x y : String} (h : GoesOn x y) : ComesBy x y := by
  obtain ⟨hne, ⟨rest, hrest⟩, more, hsteps, -⟩ := h
  exact ⟨⟨more, hsteps.symm⟩, isAbsolute_of_append hrest hne⟩

/-- Where a path leads to, it comes by its holder, unless that is the working directory. -/
theorem comesBy_holder (p : String) : Store.holder p = "." ∨ ComesBy p (Store.holder p) := by
  rw [Store.holder]
  split
  · next d hparent =>
    rw [parent?, parentChars?] at hparent
    split
    · exact .inl rfl
    · next hne =>
      refine .inr ?_
      split at hparent
      · cases hparent
      · obtain rfl := Option.some.inj hparent
        obtain ⟨htrim, htrimSteps⟩ := isPrefix_of_trimEnd p.toList
        obtain ⟨hfront, hfrontSteps⟩ := isPrefix_of_splitLast (trimEnd p.toList)
        obtain ⟨hlast, hlastSteps⟩ := isPrefix_of_trimEnd (splitLast (trimEnd p.toList)).1
        obtain ⟨rest, hrest⟩ := hlast.trans (hfront.trans htrim)
        refine ⟨?_, @isAbsolute_of_append p _ (String.ofList rest) ?_ hne⟩
        · rw [steps_ofList]
          exact hlastSteps.trans (hfrontSteps.trans htrimSteps)
        · rw [← String.ofList_append, hrest, String.ofList_toList]
  · exact .inl rfl

end Path

namespace Store

open Pipewright.Path

variable {places places' : List (List String)} {s t u : Store} {p x y : String}
  {place : List String}

/-! ### Stops -/

/-- The places that a path comes by, from where it is counted to where it leads. -/
def stops (s : Store) (p : String) : List (List String) :=
  (steps p).inits.map (·.foldl stepFrom (if isAbsolute p then [] else s.home))

theorem mem_stops : place ∈ s.stops p ↔ ∃ pre, pre <+: steps p ∧
    pre.foldl stepFrom (if isAbsolute p then [] else s.home) = place := by
  simp only [stops, List.mem_map, List.mem_inits]

theorem place_mem_stops (s : Store) (p : String) : s.place p ∈ s.stops p :=
  mem_stops.mpr ⟨_, List.prefix_refl _, rfl⟩

theorem stops_eq (h : t.home = s.home) (p : String) : t.stops p = s.stops p := by
  rw [stops, stops, h]

theorem stops_subset (h : ComesBy x y) : s.stops y ⊆ s.stops x := by
  intro place hplace
  obtain ⟨pre, hpre, rfl⟩ := mem_stops.mp hplace
  exact mem_stops.mpr ⟨pre, hpre.trans h.steps, by rw [h.base]⟩

/-- A file in a directory is the last stop of its path, and the others are those of the directory.
-/
theorem mem_stops_join {dir name : String} (hname : IsName name)
    (h : place ∈ s.stops (join dir name)) :
    place ∈ s.stops dir ∨ place = s.place dir ++ [name] := by
  obtain ⟨pre, hpre, rfl⟩ := mem_stops.mp h
  rw [steps_join dir hname] at hpre
  rw [isAbsolute_join dir hname]
  rcases List.prefix_concat_iff.mp hpre with rfl | hpre
  · refine .inr ?_
    rw [← s.place_join dir hname, place, steps_join dir hname, isAbsolute_join dir hname]
  · exact .inl (mem_stops.mpr ⟨pre, hpre, rfl⟩)

theorem at?_of_mem_stops (hdir : s.isDirectory p) (hplace : place ∈ s.stops p) :
    s.at? place = some .directory := by
  obtain ⟨hlocate, hat⟩ := isDirectory_iff.mp hdir
  obtain ⟨start, horigin, hfollow⟩ := locate_eq_ok.mp hlocate
  obtain ⟨pre, ⟨rest, hsteps⟩, rfl⟩ := mem_stops.mp hplace
  rw [← hsteps, follow_append] at hfollow
  obtain ⟨mid, hmid, hlast⟩ := hfollow
  rw [← origin_eq horigin, ← follow_eq hmid]
  cases rest with
  | nil => rwa [Except.ok.inj hlast]
  | cons step more => exact (follow_cons.mp hlast).1

/-! ### New entries -/

/-- Nothing stands at another place where nothing stood. -/
structure NewAt (places : List (List String)) (s t : Store) : Prop where
  home : t.home = s.home
  absent : ∀ place, place ∉ places → s.at? place = none → t.at? place = none

namespace NewAt

theorem refl (places : List (List String)) (s : Store) : NewAt places s s := ⟨rfl, fun _ _ => id⟩

theorem mono (h : NewAt places s t) (hplaces : places ⊆ places') : NewAt places' s t :=
  ⟨h.home, fun place hplace => h.absent place fun hmem => hplace (hplaces hmem)⟩

theorem trans (h : NewAt places s t) (h' : NewAt places t u) : NewAt places s u :=
  ⟨h'.home.trans h.home, fun place hplace hat => h'.absent place hplace (h.absent place hplace hat)⟩

theorem of_at?_eq (hhome : t.home = s.home)
    (hsame : ∀ place, place ∉ places → t.at? place = s.at? place) : NewAt places s t :=
  ⟨hhome, fun place hplace hat => (hsame place hplace).trans hat⟩

end NewAt

theorem newAt_makeDir (s : Store) (p : String) : NewAt (s.stops p) s (s.makeDir p).2 := by
  unfold makeDir
  split
  · exact .refl _ s
  · next place hlocate =>
    split
    · exact .refl _ s
    · next hfree =>
      rw [not_or, Option.not_isSome_iff_eq_none] at hfree
      obtain rfl := locate_eq hlocate
      have hput := at?_put (isPrefixOf_of_at? (by rw [hfree.2]; nofun)) .directory
      refine .of_at?_eq rfl fun other hother => ?_
      have hne : other ≠ s.place p := by
        rintro rfl
        exact hother (s.place_mem_stops p)
      rw [hput, if_neg hne]

theorem newAt_makeInner {outer : List String} (hchain : List.IsChain GoesOn (p :: outer))
    (s : Store) :
    NewAt (s.stops p) s (s.makeInner (p :: outer)).2 := by
  induction outer generalizing p s with
  | nil =>
    have hfirst := newAt_makeDir s p
    rw [makeInner]
    split
    · next t hmake =>
      rw [hmake] at hfirst
      have hagain := newAt_makeDir t p
      rw [stops_eq hfirst.home] at hagain
      rw [makeInner, orDirectory_snd]
      exact hfirst.trans hagain
    · rw [orDirectory_snd]
      exact hfirst
  | cons q outer ih =>
    obtain ⟨hgoes, htail⟩ := List.isChain_cons_cons.mp hchain
    have hfirst := newAt_makeDir s p
    rw [makeInner]
    split
    · next t hmake =>
      rw [hmake] at hfirst
      have hsecond := (ih htail t).mono (stops_subset (.of_goesOn hgoes))
      rw [stops_eq hfirst.home] at hsecond
      split
      · next u hinner =>
        rw [hinner] at hsecond
        have hall := hfirst.trans hsecond
        have hagain := newAt_makeDir u p
        rw [stops_eq hall.home] at hagain
        rw [orDirectory_snd]
        exact hall.trans hagain
      · exact hfirst.trans hsecond
    · rw [orDirectory_snd]
      exact hfirst

theorem newAt_makeDirs (s : Store) (p : String) : NewAt (s.stops p) s (s.makeDirs p).2 := by
  unfold makeDirs
  split
  · exact .refl _ s
  · exact newAt_makeInner (isChain_around p) s

theorem newAt_makeDirs_holder (s : Store) (p : String) :
    NewAt (s.stops p) s (s.makeDirs (holder p)).2 := by
  rcases comesBy_holder p with hhere | hcomes
  · rw [hhere, makeDirs_of_isDirectory s.isDirectory_dot]
    exact .refl _ s
  · exact (newAt_makeDirs s (holder p)).mono (stops_subset hcomes)

/-- Where the directory of a file is there, the file is all that writing it makes. -/
theorem WritesOne.newAt {made : Prop} {bytes : ByteArray} {r : Except FileFault Unit × Store}
    (h : WritesOne made s (s.place p) bytes r) (hmade : ¬made) : NewAt [s.place p] s r.2 :=
  .of_at?_eq (h.touched []).home fun _ hplace => h.at?_of_ne hmade (by simpa using hplace)

theorem newAt_append (s : Store) (p : String) (bytes : ByteArray) (now : Instant) :
    NewAt (s.stops p) s (s.append p bytes now).2 := by
  have hdirs := newAt_makeDirs_holder s p
  unfold append update
  split
  · next fault t hmake =>
    rw [hmake] at hdirs
    exact hdirs
  · next t hmake =>
    rw [hmake] at hdirs
    have hput := (putFile_spec t p now (· ++ bytes)).newAt id
    rw [place_eq hdirs.home] at hput
    exact hdirs.trans (hput.mono (by simpa using s.place_mem_stops p))

theorem newAt_replace (s : Store) (p : String) (bytes : ByteArray) (now : Instant) :
    NewAt (s.stops p) s (s.replace p bytes now).2 := by
  have hdirs := newAt_makeDirs_holder s p
  rcases hmake : s.makeDirs (holder p) with ⟨fault | ⟨⟩, t⟩ <;> rw [hmake] at hdirs
  · rw [replace, hmake]
    exact hdirs
  · have hdir : t.isDirectory (holder p) := by
      rw [makeDirs, if_neg (holder_ne_empty p)] at hmake
      exact isDirectory_of_makeInner hmake
    have hsame : s.replace p bytes now = t.replace p bytes now := by
      rw [replace, replace, hmake, makeDirs_of_isDirectory hdir]
    have hput := (t.replace_spec p bytes now).newAt (not_not_intro hdir)
    rw [place_eq hdirs.home] at hput
    rw [hsame]
    exact hdirs.trans (hput.mono (by simpa using s.place_mem_stops p))

end Store

end Pipewright
