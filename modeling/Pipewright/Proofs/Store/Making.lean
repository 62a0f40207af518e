import Mathlib.Data.List.Chain
import Pipewright.Proofs.Store.Files
import Pipewright.Proofs.Store.Growth

/-!
# Directories that are made

Directories that cannot be made, and files that stand in directories.
-/

/-!
## Directories that cannot be made

A directory is made with all that is missing around it, and where this fails
what could be made before the fault stays. The fault may then be another one
when it is tried again. It still fails: what was in the way, a file or a name
that is too long, is on the way to all that lies further in. This rests on the
paths that are tried, each of which leads through the next one
(`Path.isChain_around`).

So a file that could not be added to cannot be added to the second time, and if
its directory was there it is for the same reason.
-/

namespace Pipewright

namespace Path

/-! ### The paths around a path -/

theorem stepsOf_ne_nil {cs : List Char} {c : Char} (hmem : c ∈ cs) (hc : c ≠ '/') :
    stepsOf cs ≠ [] := by
  have hpieces : ∀ piece, piece ≠ [] ∨ c ∈ cs → ∃ name ∈ piecesFrom piece cs, name ≠ "" := by
    clear hmem
    intro piece hsome
    have hname : ∀ {back : List Char}, back ≠ [] → String.ofList back.reverse ≠ "" := by
      intro back hback heq
      have hchars := congrArg String.toList heq
      rw [String.toList_ofList] at hchars
      exact hback (List.reverse_eq_nil_iff.mp hchars)
    fun_induction piecesFrom piece cs with
    | case1 piece =>
        have hpiece := hsome.resolve_right List.not_mem_nil
        exact ⟨_, List.mem_singleton.mpr rfl, hname hpiece⟩
    | case2 piece rest ih =>
        rcases hsome with hpiece | hmem
        · exact ⟨_, List.mem_cons_self .., hname hpiece⟩
        · have hrest := (List.mem_cons.mp hmem).resolve_left hc
          obtain ⟨name, hname, hne⟩ := ih (.inr hrest)
          exact ⟨name, List.mem_cons_of_mem _ hname, hne⟩
    | case3 piece d rest _ ih => exact ih (.inl (List.cons_ne_nil _ _))
  obtain ⟨name, hname, hne⟩ := hpieces [] (.inr hmem)
  exact List.ne_nil_of_mem (List.mem_filter.mpr ⟨hname, by simpa using hne⟩)

/-- The one path, read backwards, goes on from the other one, by a step unless it has none. -/
def GoesOnBack (x y : List Char) : Prop :=
  y ≠ [] ∧ y <:+ x ∧ ∃ more, stepsOf x.reverse = stepsOf y.reverse ++ more ∧
    (more = [] → stepsOf x.reverse = [])

theorem head_ne_of_trimmed {c : Char} {rest : List Char} (h : trimBack (c :: rest) = c :: rest)
    (hrest : rest ≠ []) : c ≠ '/' := by
  rintro rfl
  have htrim : trimBack ('/' :: rest) = trimBack rest := by
    cases rest with
    | nil => exact absurd rfl hrest
    | cons d rest => rfl
  have hlength := (trimBack_suffix rest).length_le
  rw [← htrim, h, List.length_cons] at hlength
  omega

theorem isChain_aroundBack {x cs : List Char} (hsuffix : cs <:+ x) (htrim : trimBack x = x) :
    List.IsChain GoesOnBack (x :: aroundBack cs) := by
  fun_induction aroundBack cs generalizing x with
  | case1 => exact .singleton _
  | case2 =>
      refine .cons_cons ⟨List.cons_ne_nil _ _, hsuffix, stepsOf x.reverse, rfl, id⟩ (.singleton _)
  | case3 rest hroot hrest ih =>
      have hne : rest ≠ [] := fun hnil => hroot hnil
      refine .cons_cons ⟨hne, (List.suffix_cons _ _).trans hsuffix, ?_⟩
        (ih (List.suffix_refl _) hrest)
      obtain ⟨front, rfl⟩ := hsuffix
      refine ⟨stepsOf front.reverse, ?_, fun hnone => absurd hnone ?_⟩
      · rw [List.reverse_append, List.reverse_cons, List.append_assoc]
        exact stepsOf_append_slash _ _
      · cases front with
        | nil => exact absurd rfl (head_ne_of_trimmed htrim hne)
        | cons c front =>
            have hc : c ≠ '/' := head_ne_of_trimmed htrim (by simp)
            exact stepsOf_ne_nil (by simp) hc
  | case4 rest _ _ ih => exact ih ((List.suffix_cons _ _).trans hsuffix) htrim
  | case5 c rest _ _ ih => exact ih ((List.suffix_cons _ _).trans hsuffix) htrim

/-- The one path goes on from the other one, by a step unless it has none. -/
def GoesOn (x y : String) : Prop :=
  y ≠ "" ∧ (∃ rest, x = y ++ rest) ∧ ∃ more, steps x = steps y ++ more ∧ (more = [] → steps x = [])

theorem goesOn_of_back {x y : List Char} (h : GoesOnBack x y) :
    GoesOn (String.ofList x.reverse) (String.ofList y.reverse) := by
  obtain ⟨hne, ⟨rest, rfl⟩, hsteps⟩ := h
  refine ⟨fun heq => hne ?_, ⟨String.ofList rest.reverse, ?_⟩, ?_⟩
  · have hchars := congrArg String.toList heq
    rw [String.toList_ofList] at hchars
    exact List.reverse_eq_nil_iff.mp hchars
  · rw [List.reverse_append, String.ofList_append]
  · rw [steps_ofList, steps_ofList]
    exact hsteps

/-- Each of the paths around a path goes on from the next one. -/
theorem isChain_around (p : String) : List.IsChain GoesOn (p :: around p) := by
  have hback := isChain_aroundBack (List.suffix_refl (trimBack p.toList.reverse)) (trimBack_idem _)
  have htrimmed :
      List.IsChain GoesOn (String.ofList (trimBack p.toList.reverse).reverse :: around p) :=
    List.isChain_map_of_isChain (fun cs : List Char => String.ofList cs.reverse)
      (fun _ _ => goesOn_of_back) hback
  cases hout : around p with
  | nil => exact .singleton _
  | cons y outer =>
      rw [hout] at htrimmed
      obtain ⟨⟨hne, ⟨rest, hrest⟩, more, hsteps, hmore⟩, houter⟩ :=
        List.isChain_cons_cons.mp htrimmed
      refine .cons_cons ⟨hne, ?_, ?_⟩ houter
      · obtain ⟨back, hback⟩ := trimBack_suffix p.toList.reverse
        refine ⟨rest ++ String.ofList back.reverse, ?_⟩
        rw [← String.append_assoc, ← hrest, ← String.ofList_append, ← List.reverse_append, hback,
          List.reverse_reverse, String.ofList_toList]
      · obtain ⟨k, hk⟩ := stepsOf_trimBack p.toList.reverse
        rw [List.reverse_reverse, ← steps_ofList, ← steps_ofList, String.ofList_toList] at hk
        refine ⟨more ++ List.replicate k ".", ?_, fun hnone => ?_⟩
        · rw [hk, hsteps, List.append_assoc]
        · obtain ⟨hmoreNil, hdots⟩ := List.append_eq_nil_iff.mp hnone
          rw [hk, hmore hmoreNil, hdots]
          rfl

end Path

namespace Store

variable {s t : Store} {p x y : String} {fault : FileFault}

/-! ### Directories on the way -/

theorem isDirectory_of_makeDir (h : s.makeDir p = (.ok (), t)) : t.isDirectory p := by
  have hgrown := grown_makeDir [] s p
  rw [h] at hgrown
  unfold makeDir at h
  split at h
  · cases h
  · next dest hlocate =>
    split at h
    · cases h
    · next hplace =>
      rw [not_or, Option.not_isSome_iff_eq_none] at hplace
      obtain rfl := locate_eq hlocate
      have hput := at?_put (isPrefixOf_of_at? (by rw [hplace.2]; simp)) .directory
      rw [isDirectory_iff, place_eq hgrown.home]
      refine ⟨hgrown.locate hlocate, ?_⟩
      rw [← (Prod.mk.inj h).2, hput, if_pos rfl]

/-- What a directory is made in is a directory, and so is what leads to one. -/
theorem isDirectory_of_goesOn (hgoes : Path.GoesOn x y)
    (h : s.isDirectory x ∨ s.makeDir x = (.ok (), t)) : s.isDirectory y := by
  obtain ⟨hne, ⟨rest, hrest⟩, more, hsteps, hmore⟩ := hgoes
  have hlocate : ∃ dest, s.locate x = .ok dest := by
    rcases h with hdir | hmake
    · exact ⟨_, (isDirectory_iff.mp hdir).1⟩
    · obtain ⟨dest, hdest, -⟩ := makeDir_eq_ok hmake
      exact ⟨dest, hdest⟩
  obtain ⟨dest, hlocate⟩ := hlocate
  obtain ⟨start, horigin, hfollow⟩ := locate_eq_ok.mp hlocate
  rw [hsteps, follow_append] at hfollow
  obtain ⟨mid, hmid, hlast⟩ := hfollow
  have hy : s.locate y = .ok mid :=
    locate_eq_ok.mpr ⟨start, origin_of_append horigin hrest hne, hmid⟩
  have hdir : s.at? mid = some .directory := by
    cases more with
    | cons step more => exact (follow_cons.mp hlast).1
    | nil =>
        have hnone := hmore rfl
        have hend : Path.ending x = .dots := by rw [Path.ending, hnone]; rfl
        rw [Except.ok.inj hlast]
        exact at?_of_ending_dots hlocate hend
  obtain rfl := locate_eq hy
  exact isDirectory_iff.mpr ⟨hy, hdir⟩

/-! ### Making directories again -/

theorem isDirectory_of_orDirectory {r : Except FileFault Unit × Store}
    (hr : r.1 = .ok () → r.2.isDirectory p) (h : orDirectory p r = (.ok (), t)) :
    t.isDirectory p := by
  unfold orDirectory at h
  split at h
  · next hdir => exact (Prod.mk.inj h).2 ▸ hdir
  · rw [h] at hr
    exact hr rfl

theorem isDirectory_of_makeInner {outer : List String}
    (h : s.makeInner (p :: outer) = (.ok (), t)) : t.isDirectory p := by
  have hmade : ∀ s : Store, (s.makeDir p).1 = .ok () → (s.makeDir p).2.isDirectory p :=
    fun s hok => isDirectory_of_makeDir (Prod.ext hok rfl)
  rw [makeInner] at h
  split at h
  · split at h
    · exact isDirectory_of_orDirectory (hmade _) h
    · next hno => exact absurd h (hno () t)
  · exact isDirectory_of_orDirectory (hmade _) h

theorem orDirectory_eq_error {r : Except FileFault Unit × Store}
    (h : orDirectory p r = (.error fault, t)) : r = (.error fault, t) ∧ ¬t.isDirectory p := by
  unfold orDirectory at h
  split at h
  · cases h
  · next hdir =>
    rw [h] at hdir
    exact ⟨h, hdir⟩

theorem makeInner_of_made {paths : List String} (h : s.makeInner paths = (.ok (), t)) :
    t.makeInner paths = (.ok (), t) := by
  cases paths with
  | nil => rfl
  | cons p outer => exact makeInner_of_isDirectory (isDirectory_of_makeInner h) outer

/-- How making directories fails: something further out is in the way, or nothing is missing
around the innermost one and that cannot be made. -/
theorem makeInner_cons_eq_error {outer : List String}
    (h : s.makeInner (p :: outer) = (.error fault, t)) :
    s.makeInner outer = (.error fault, t) ∨ ¬t.isDirectory p ∧ t.makeDir p = (.error fault, t) ∧
      (fault = .notFound → t.makeInner outer = (.ok (), t)) := by
  have hlast : ∀ u : Store, orDirectory p (u.makeDir p) = (.error fault, t) →
      ¬t.isDirectory p ∧ t.makeDir p = (.error fault, t) := by
    intro u hu
    obtain ⟨hmake, hdir⟩ := orDirectory_eq_error hu
    obtain rfl := makeDir_eq_error_snd hmake
    exact ⟨hdir, hmake⟩
  rw [makeInner] at h
  split at h
  · next u hmake =>
    obtain rfl := makeDir_eq_error_snd hmake
    split at h
    · next v hinner =>
      obtain ⟨hdir, hagain⟩ := hlast v h
      obtain rfl := makeDir_eq_error_snd (orDirectory_eq_error h).1
      exact .inr ⟨hdir, hagain, fun _ => makeInner_of_made hinner⟩
    · exact .inl h
  · next hno =>
    obtain ⟨hdir, hagain⟩ := hlast s h
    refine .inr ⟨hdir, hagain, fun hmissing => ?_⟩
    rw [hmissing] at h
    exact absurd (orDirectory_eq_error h).1 (hno t)

theorem makeInner_eq_error {outer : List String} (hdir : ¬s.isDirectory p)
    (hmake : s.makeDir p = (.error fault, s))
    (hinner : fault = .notFound → s.makeInner outer = (.ok (), s)) :
    s.makeInner (p :: outer) = (.error fault, s) := by
  have hkept : orDirectory p (.error fault, s) = (.error fault, s) := if_neg hdir
  rw [makeInner, hmake]
  by_cases hmissing : fault = .notFound
  · rw [hmissing] at hmake hkept ⊢
    simp only [hinner hmissing, hmake, hkept]
  · split
    · next heq => exact absurd (Except.error.inj (Prod.mk.inj heq).1) hmissing
    · exact hkept

/-- What is in the way of the directories around a path is in the way of one at the path, and
nothing more is made than around it. -/
theorem makeInner_cons_of_error {outer : List String}
    (hchain : List.IsChain Path.GoesOn (p :: outer)) (h : s.makeInner outer = (.error fault, s)) :
    ∃ fault', s.makeInner (p :: outer) = (.error fault', s) := by
  have hno : ∀ t, ¬(s.isDirectory p ∨ s.makeDir p = (.ok (), t)) := by
    intro t ht
    cases outer with
    | nil => cases h
    | cons y outer =>
        have hy := isDirectory_of_goesOn (List.isChain_cons_cons.mp hchain).1 ht
        rw [makeInner_of_isDirectory hy] at h
        cases h
  rcases hmake : s.makeDir p with ⟨first | ⟨⟩, t⟩
  · obtain rfl := makeDir_eq_error_snd hmake
    by_cases hmissing : first = .notFound
    · rw [makeInner, hmake, hmissing]
      dsimp only
      rw [h]
      exact ⟨fault, rfl⟩
    · exact ⟨first, makeInner_eq_error (fun hdir => hno t (.inl hdir)) hmake (absurd · hmissing)⟩
  · exact absurd (.inr hmake) (hno t)

/-- Where directories could not be made they cannot be made from what was left, and nothing more
is made. -/
theorem makeInner_again {paths : List String} (hchain : List.IsChain Path.GoesOn paths)
    (h : s.makeInner paths = (.error fault, t)) :
    ∃ fault', t.makeInner paths = (.error fault', t) := by
  induction paths with
  | nil => cases h
  | cons p outer ih =>
      rcases makeInner_cons_eq_error h with hinner | ⟨hdir, hlast, hinner⟩
      · obtain ⟨_, hagain⟩ := ih hchain.tail hinner
        exact makeInner_cons_of_error hchain hagain
      · exact ⟨fault, makeInner_eq_error hdir hlast hinner⟩

/-- A directory that could not be made cannot be made from what was left, and nothing more is
made. -/
theorem makeDirs_again (h : s.makeDirs p = (.error fault, t)) :
    ∃ fault', t.makeDirs p = (.error fault', t) := by
  unfold makeDirs at h ⊢
  split at h
  · cases h
  · next hne =>
    rw [if_neg hne]
    exact makeInner_again (Path.isChain_around p) h

theorem makeDirs_makeDirs (s : Store) (p : String) :
    ((s.makeDirs p).2.makeDirs p).2 = (s.makeDirs p).2 := by
  rcases hmake : s.makeDirs p with ⟨fault | ⟨⟩, t⟩
  · obtain ⟨fault', hagain⟩ := makeDirs_again hmake
    dsimp only
    rw [hagain]
  · dsimp only
    unfold makeDirs at hmake ⊢
    split at hmake
    · next hempty => rw [if_pos hempty]
    · next hne => rw [if_neg hne, makeInner_of_made hmake]

theorem holder_ne_empty (p : String) : holder p ≠ "" := by
  rw [holder]
  split
  · split
    · decide
    · assumption
  · decide

/-- A file that could not be added to cannot be added to in what was left, and for the same
reason if its directory was there. -/
theorem append_again {bytes : ByteArray} {now : Instant}
    (h : s.append p bytes now = (.error fault, t)) (bytes' : ByteArray) (now' : Instant) :
    ∃ fault', (t.append p bytes' now').1 = .error fault' ∧
      (s.isDirectory (holder p) → fault' = fault) := by
  have hanswer := append_fst s p bytes now
  rw [h] at hanswer
  rw [append, update] at h
  rcases hmake : s.makeDirs (holder p) with ⟨fault' | ⟨⟩, u⟩
  · rw [hmake] at h
    obtain ⟨-, rfl⟩ := Prod.mk.inj h
    obtain ⟨again, hagain⟩ := makeDirs_again hmake
    refine ⟨again, by rw [append_fst, hagain]; rfl, fun hdir => ?_⟩
    rw [makeDirs_of_isDirectory hdir] at hmake
    cases hmake
  · rw [hmake] at h hanswer
    have hdir : u.isDirectory (holder p) := by
      rw [makeDirs, if_neg (holder_ne_empty p)] at hmake
      exact isDirectory_of_makeInner hmake
    have hsame : t = u := by
      change u.putFile p now _ = _ at h
      rw [putFile] at h
      rcases hcreate : u.create p now with ⟨fault' | place, v⟩
      · rw [hcreate] at h
        exact (Prod.mk.inj h).2.symm.trans (create_eq_error_snd hcreate)
      · rw [hcreate] at h
        cases h
    subst hsame
    refine ⟨fault, ?_, fun _ => rfl⟩
    rw [append_fst, makeDirs_of_isDirectory hdir]
    exact hanswer.symm

end Store

end Pipewright

/-!
## Files in their places

What a path leads to depends on whether it can be followed; what stands in its
place does not. The bytes that stand there (`bytes?`) are the same after
everything that leaves the file alone, also where a directory on the way to it
has been made meanwhile.

A file that can be replaced can be replaced later as long as no directory was
made in its place, once its own directory is there (`CanReplace.of_touched`).
Whoever makes a file beside it first makes the directory (`CanReplace.makeDirs`).
-/

namespace Pipewright.Store

variable {files locks : List (List String)} {s t : Store} {path : String}

/-! ### Bytes -/

/-- The bytes of the file in the place of a path; none if no file stands there. -/
def bytes? (s : Store) (path : String) : Option ByteArray :=
  match s.at? (s.place path) with
  | some (.file bytes _) => some bytes
  | _ => none

theorem bytes?_of_at? {bytes : ByteArray} {modified : Instant}
    (h : s.at? (s.place path) = some (.file bytes modified)) : s.bytes? path = some bytes := by
  rw [bytes?, h]

theorem bytes?_eq_none (h : ∀ bytes modified, s.at? (s.place path) ≠ some (.file bytes modified)) :
    s.bytes? path = none := by
  unfold bytes?
  split
  · next bytes modified hat => exact absurd hat (h bytes modified)
  · rfl

theorem bytes?_of_has {x : Option ByteArray} (h : s.Has path x) : s.bytes? path = x := by
  cases x with
  | some bytes =>
      obtain ⟨modified, hfind⟩ := h
      exact bytes?_of_at? (find_eq_file.mp hfind).2.1
  | none => exact bytes?_eq_none h

theorem contents_place (s : Store) (path : String) :
    s.contents (s.place path) = (s.bytes? path).getD .empty := by
  unfold contents bytes?
  rcases s.at? (s.place path) with _ | _ | _ <;> rfl

/-- The bytes of a file that is not written are the same, unless it is a lock file that was not
there. -/
theorem Touched.bytes? (h : Touched files locks s t) (hfile : s.place path ∉ files)
    (hlock : s.place path ∈ locks → (s.bytes? path).isSome) : t.bytes? path = s.bytes? path := by
  unfold Store.bytes? at hlock ⊢
  rw [place_eq h.home]
  cases hat : s.at? (s.place path) with
  | some entry => rw [h.kept _ _ hfile hat]
  | none =>
      rcases h.added _ hfile hat with hnone | hdir | ⟨hmem, -⟩
      · rw [hnone]
      · rw [hdir]
      · have hsome := hlock hmem
        rw [hat] at hsome
        cases hsome

theorem Written.bytes?_of_mem {made : Prop} {lock : List String} {bytes : ByteArray}
    {written : List (List String × ByteArray)} (h : Written made lock s t written)
    (hmem : (s.place path, bytes) ∈ written) : t.bytes? path = some bytes := by
  obtain ⟨modified, hat⟩ := h.written _ hmem
  rw [← place_eq h.home] at hat
  exact bytes?_of_at? hat

/-! ### Files that can still be replaced -/

theorem Touched.locate (h : Touched files locks s t) {dest : List String}
    (hlocate : s.locate path = .ok dest) : t.locate path = .ok dest := by
  obtain ⟨start, horigin, hfollow⟩ := locate_eq_ok.mp hlocate
  exact locate_eq_ok.mpr ⟨start, by rw [origin_eq_of_home h.home, horigin], h.follow hfollow⟩

/-- What replaces a file whose directory is there is moved to its place. -/
theorem CanReplace.landing (h : CanReplace s path) (hdir : s.isDirectory (holder path)) :
    s.landing path = .ok (s.place path) := by
  have hok := h .empty default
  rw [replace, makeDirs_of_isDirectory hdir] at hok
  dsimp only at hok
  split at hok
  · cases hok
  · cases hok
  · next hlanding =>
    obtain ⟨rfl, -⟩ := landing_eq_ok hlanding
    exact hlanding

/-- A file whose directory is there can still be replaced if no directory was made in its
place. -/
theorem CanReplace.of_touched (h : CanReplace s path) (hdir : s.isDirectory (holder path))
    (ht : Touched files locks s t) (hplace : t.at? (s.place path) ≠ some .directory) :
    CanReplace t path := by
  obtain ⟨-, -, hlocate, hend⟩ := landing_eq_ok (h.landing hdir)
  obtain ⟨start, horigin⟩ := origin_of_replace (h .empty default)
  rw [← draft_eq ht.home, ← origin_eq_of_home ht.home] at horigin
  exact canReplace_of_landing (ht.isDirectory hdir) horigin
    (landing_of_locate (ht.locate hlocate) hend hplace)

/-- The directory of a file that can be replaced can be made, and then the file can still be
replaced. -/
theorem CanReplace.makeDirs (h : CanReplace s path) : ∃ u, s.makeDirs (holder path) = (.ok (), u) ∧
    u.isDirectory (holder path) ∧ CanReplace u path := by
  rcases hmake : s.makeDirs (holder path) with ⟨fault | ⟨⟩, u⟩
  · have hok := h .empty default
    rw [replace, hmake] at hok
    cases hok
  · have hdir : u.isDirectory (holder path) := by
      rw [Store.makeDirs, if_neg (holder_ne_empty path)] at hmake
      exact isDirectory_of_makeInner hmake
    refine ⟨u, rfl, hdir, fun bytes now => ?_⟩
    have hsame : u.replace path bytes now = s.replace path bytes now := by
      rw [replace, replace, hmake, makeDirs_of_isDirectory hdir]
    rw [hsame]
    exact h bytes now

end Pipewright.Store
