import Pipewright.Proofs.Identity.Conduct

/-!
# Keys as names of files

The keys of records come from other processes and may be any texts. One that is
accepted names a file directly in the directory (`Path.IsChild`), and no two
names that matter there are the same: different keys are different files, and
none of them is the lock file of a record or of a registry (`Path.Apart`).

Everything about that rests on the last character. What stands behind a key is
`.json`, so no name is a dot or a pair of dots, and lock files end with another
character than the files of records. The ids that a registry makes are keys as
well, because they are put together from characters that every name can have.
-/

namespace Pipewright

namespace Path

/-! ## Directly in a directory -/

/-- The path leads to what has the name in the directory: it has this one step more, which is
neither a dot nor a pair of dots, and taken apart it gives back the name and the directory. -/
structure IsChild (dir name path : String) : Prop where
  steps : steps path = steps dir ++ [name]
  start : isAbsolute path = isAbsolute dir
  ne_dot : name ≠ "."
  ne_dots : name ≠ ".."
  fileName : fileName? path = some name
  parent : parent? path = some (String.ofList (trimEnd dir.toList))
  place : ∀ s : Store, s.place path = s.place dir ++ [name]

theorem isChild_join (dir : String) {name : String} (h : IsName name) :
    IsChild dir name (join dir name) where
  steps := steps_join dir h
  start := isAbsolute_join dir h
  ne_dot := h.ne_dot
  ne_dots := h.ne_dots
  fileName := fileName?_join dir h
  parent := by
    obtain ⟨front, c, rfl, hfront, hslash, hdot⟩ := h.exists_concat
    exact parent?_join hfront hslash hdot
  place := fun s => s.place_join dir h

/-- The paths are different as texts, step by step and by the names of their files, and they lead
to different places whatever the store is. -/
structure Apart (p q : String) : Prop where
  ne : p ≠ q
  steps : steps p ≠ steps q
  fileName : fileName? p ≠ fileName? q
  place : ∀ s : Store, s.place p ≠ s.place q

theorem IsChild.apart {dir dir' name name' p q : String} (h : IsChild dir name p)
    (h' : IsChild dir' name' q) (hne : name ≠ name') : Apart p q := by
  have hfile : fileName? p ≠ fileName? q := by
    rw [h.fileName, h'.fileName]
    exact fun heq => hne (Option.some.inj heq)
  have hlast : ∀ l l' : List String, l ++ [name] ≠ l' ++ [name'] := fun l l' heq =>
    hne (List.singleton_inj.mp (List.append_inj' heq rfl).2)
  refine ⟨?_, ?_, hfile, fun s => ?_⟩
  · rintro rfl
    exact hfile rfl
  · rw [h.steps, h'.steps]
    exact hlast _ _
  · rw [h.place, h'.place]
    exact hlast _ _

end Path

open Pipewright.Path in
theorem isChild_recordFile (dir : String) {key : String} (h : isFileKey key) :
    IsChild dir (key ++ ".json") (recordFile dir key) :=
  isChild_join dir (isName_of_isFileKey h)

open Pipewright.Path in
theorem isChild_lockPath (dir : String) {key : String} (h : isFileKey key) :
    IsChild (String.ofList (trimEnd dir.toList)) (key ++ ".json" ++ ".lock")
      (lockPath (recordFile dir key)) := by
  rw [recordFile, lockPath_join dir (isName_of_isFileKey h)]
  exact isChild_join _ (isName_lock (isName_of_isFileKey h))

/-- The file of a record has no name that ends otherwise. -/
theorem json_ne {key name : String} (h : name.toList.getLast? ≠ some 'n') :
    key ++ ".json" ≠ name := by
  rintro rfl
  rw [String.toList_append, List.getLast?_append] at h
  exact h rfl

/-! ## Which texts are keys -/

theorem checkKey_eq_ok {key : String} : checkKey key = .ok () ↔ isFileKey key := by
  rw [checkKey]
  split <;> simp_all

/-- The character does no harm in a key, wherever it stands. -/
def isHarmless (c : Char) : Bool := c.isAlphanum || c == '_' || c == '-'

theorem hasTwoDots_eq_false {cs : List Char} (h : '.' ∉ cs) : isFileKey.hasTwoDots cs = false := by
  induction cs with
  | nil => rfl
  | cons c cs ih =>
      have hc : c ≠ '.' := fun heq => h (heq ▸ List.mem_cons_self ..)
      rw [isFileKey.hasTwoDots]
      · exact ih fun hmem => h (List.mem_cons_of_mem _ hmem)
      · rintro rest rfl
        exact absurd rfl hc

theorem isFileKey_of_forall {key : String} (hne : key.toList ≠ [])
    (h : ∀ c ∈ key.toList, isHarmless c) : isFileKey key := by
  have hfree : ∀ c, isHarmless c = false → c ∉ key.toList := fun c hc hmem => by
    rw [h c hmem] at hc
    cases hc
  have hslash := hfree '/' (by decide)
  have hbackslash := hfree '\\' (by decide)
  have hnull := hfree '\x00' (by decide)
  have hdots := hasTwoDots_eq_false (hfree '.' (by decide))
  simp only [isFileKey, Bool.and_eq_true, Bool.not_eq_true', List.contains_eq_mem,
    decide_eq_false_iff_not, List.isEmpty_eq_false_iff]
  exact ⟨⟨⟨⟨hne, hslash⟩, hbackslash⟩, hnull⟩, hdots⟩

/-! ## Ids that are made -/

theorem isHarmless_slug (s : String) : ∀ c ∈ (Identity.slug s).toList, isHarmless c := by
  intro c hc
  rw [Identity.slug, String.toList_ofList] at hc
  obtain ⟨d, -, rfl⟩ := List.mem_map.mp hc
  split
  · next hd => simp [isHarmless, hd]
  · rfl

theorem isHarmless_lastDigits (count n : ℕ) : ∀ c ∈ Hex.lastDigits count n, isHarmless c := by
  have hdigit : ∀ d < 16, isHarmless (Hex.digit d) := by decide
  induction count generalizing n with
  | zero => simp [Hex.lastDigits]
  | succ count ih =>
      intro c hc
      rw [Hex.lastDigits, List.mem_append, List.mem_singleton] at hc
      rcases hc with hc | rfl
      · exact ih _ c hc
      · exact hdigit _ (Nat.mod_lt _ (by decide))

theorem isHarmless_short (u : Uuid) : ∀ c ∈ u.short.toList, isHarmless c := by
  intro c hc
  rw [Uuid.short, String.toList_ofList] at hc
  rcases List.mem_append.mp (List.mem_of_mem_take hc) with hc | hc
  · exact isHarmless_lastDigits _ _ c hc
  · exact isHarmless_lastDigits _ _ c hc

/-- An id can be the name of a file, whatever the role and the name are. -/
theorem isFileKey_newId (role name : String) (fresh : Uuid) :
    isFileKey (Identity.newId role name fresh) := by
  refine isFileKey_of_forall ?_ ?_
  · simp [Identity.newId, String.toList_append]
  · have hsep : ∀ c ∈ "-".toList, isHarmless c := List.forall_mem_singleton.mpr rfl
    simp only [Identity.newId, String.toList_append, List.forall_mem_append]
    exact ⟨⟨⟨⟨isHarmless_slug role, hsep⟩, isHarmless_slug name⟩, hsep⟩, isHarmless_short fresh⟩

namespace Registry

open Pipewright.Action

variable {r : Registry} {role name : String} {more : Particulars}

theorem entered_id (role name : String) (more : Particulars) (fresh : Uuid) (now : Instant) :
    (entered role name more fresh now).id = Identity.newId role name fresh := by
  rw [entered]

/-- What is to be done under the lock is not begun, or it is done by a process that differs in the
locks it holds. -/
theorem perform_locked_cases (r : Registry) (h : Host) (s : Store) :
    (∃ err t, ∀ {β : Type} (body : Action β), (r.locked body).perform h s = (.error err, t)) ∨
    ∃ held u, ∀ {β : Type} (body : Action β),
      (r.locked body).perform h s = body.perform { h with held := held } u := by
  obtain ⟨u, -, -, ⟨err, hperform⟩ | ⟨-, -, hperform⟩⟩ :=
    withLockFile_cases r.lockFile r.lockPolicy h s
  · exact .inl ⟨err, u, hperform⟩
  · exact .inr ⟨_, u, hperform⟩

/-- An identity that is entered has the id that is made from its role and its name. -/
theorem id_of_register {h : Host} {s : Store} {i : Identity}
    (hregister : ((r.register role name more).perform h s).1 = .ok i) :
    i.id = Identity.newId role name h.fresh := by
  rw [register_eq] at hregister
  rcases r.perform_locked_cases h s with ⟨err, t, hperform⟩ | ⟨held, u, hperform⟩ <;>
    rw [hperform] at hregister
  · cases hregister
  obtain ⟨found, u, -, hregister⟩ := exists_of_perform_bind hregister
  cases found with
  | some other => cases hregister
  | none =>
    obtain ⟨_, u, -, hregister⟩ := exists_of_perform_bind hregister
    obtain ⟨_, u, -, hregister⟩ := exists_of_perform_bind hregister
    obtain ⟨host, u, hread, hregister⟩ := exists_of_perform_bind hregister
    obtain ⟨now, u, -, hregister⟩ := exists_of_perform_bind hregister
    obtain ⟨_, u, -, hregister⟩ := exists_of_perform_bind hregister
    rw [perform_read] at hread
    rw [perform_pure] at hregister
    rw [← Except.ok.inj hregister, entered_id, ← Except.ok.inj (Prod.mk.inj hread).1]

/-! ## Keys that are refused -/

section Throws

variable {P : Error → Prop} (hfile : ∀ fault, P (.file fault)) (hjson : P .json)
include hfile hjson

theorem throws_readAll (names : List String) : (r.readAll names).Throws P := by
  induction names with
  | nil => exact throws_pure []
  | cons name names ih =>
      exact (throws_readRecord? hfile hjson _ _).bind fun found => ih.bind fun is => throws_pure _

theorem throws_findActive : (r.findActive role name).Throws P := by
  have hall : r.all.Throws P := (throws_readingIfThere hfile _).bind fun names =>
    (throws_readAll hfile hjson _).bind fun is => throws_pure _
  exact hall.bind fun is => throws_pure _

theorem throws_get (hnone : ∀ id, P (.identityNotFound id)) {id : String}
    (hid : P (.invalidId id)) :
    (r.get id).Throws P := by
  refine Throws.bind (throws_ofExcept fun err herr => ?_) fun path => ?_
  · rw [recordPath_eq] at herr
    split at herr
    · cases herr
    · exact Except.error.inj herr ▸ hid
  · refine (throws_readRecord? hfile hjson _ _).bind fun found => ?_
    split
    · exact throws_pure _
    · exact throws_throw (hnone id)

omit hjson in
theorem throws_write {i : Identity} (hkey : isFileKey i.id) : (r.write i).Throws P := by
  refine Throws.bind (throws_ofExcept fun err herr => ?_) fun path => ?_
  · rw [recordPath_eq, if_pos hkey] at herr
    cases herr
  · exact throws_replaceFile hfile path _

omit hjson in
/-- When an identity is entered its id is not what goes wrong. -/
theorem throws_enter : (r.enter role name more).Throws P := by
  have hread : (read : Action Host).Throws P := fun _ _ _ heq => (by cases heq)
  have hnow : now.Throws P := fun _ _ _ heq => (by cases heq)
  unfold enter
  refine hread.bind fun host => hnow.bind fun time => ?_
  have hkey : isFileKey (entered role name more host.fresh time).id := by
    rw [entered_id]
    exact isFileKey_newId role name host.fresh
  exact (throws_write hfile hkey).bind fun _ => throws_pure _

end Throws

/-- Entering an identity refuses no key but those that it is given. -/
theorem throws_register (r : Registry) (role name : String) (more : Particulars) :
    (r.register role name more).Throws fun err => ∀ key, err = .invalidId key →
      more.predecessor = some key ∨ more.hookRef = some key := by
  let P : Error → Prop := fun err => ∀ key, err = .invalidId key →
    more.predecessor = some key ∨ more.hookRef = some key
  have hfile : ∀ fault, P (.file fault) := nofun
  have hjson : P .json := nofun
  rw [register_eq]
  refine Throws.withLockFile hfile nofun ?_ _ _
  refine (throws_findActive hfile hjson).bind fun found => ?_
  split
  · exact throws_throw nofun
  refine Throws.bind ?_ fun _ => Throws.bind ?_ fun _ => throws_enter hfile
  · cases hpredecessor : more.predecessor with
    | none => exact throws_pure _
    | some before =>
      have hid : P (.invalidId before) := fun key hkey =>
        .inl (by rw [hpredecessor, Error.invalidId.inj hkey])
      exact (throws_get hfile hjson nofun hid).bind fun _ => throws_pure _
  · cases hhook : more.hookRef with
    | none => exact throws_pure _
    | some ref =>
      refine throws_ofExcept fun err herr key hkey => .inr ?_
      rw [checkKey] at herr
      split at herr
      · cases herr
      · subst hkey
        rw [hhook, Error.invalidId.inj (Except.error.inj herr)]

end Registry

/-! ## Containment -/

open Pipewright.Path in
/-- Whatever the directory is, a key that is accepted names a file directly in it, under the key
with `.json` behind it. In whatever directories, files of different keys are different, and no file
of a record is the lock file of a record or of a registry. The ids that are made for new identities
are keys, whatever the role and the name are; an identity that is entered has such an id, and when
one is refused because of a key, that is a key the caller gave. -/
theorem keys_contained :
    (∀ dir key, checkKey key = .ok () →
      recordPath dir key = .ok (join dir (key ++ ".json")) ∧
      IsChild dir (key ++ ".json") (join dir (key ++ ".json")) ∧
      (∀ dir' other, checkKey other = .ok () →
        (other ≠ key → Apart (join dir (key ++ ".json")) (join dir' (other ++ ".json"))) ∧
        Apart (join dir (key ++ ".json")) (lockPath (join dir' (other ++ ".json")))) ∧
      ∀ r : Registry, Apart (join dir (key ++ ".json")) r.lockFile) ∧
    (∀ role name fresh, checkKey (Identity.newId role name fresh) = .ok ()) ∧
    ∀ (r : Registry) (role name : String) (more : Particulars) (h : Host) (s : Store),
      (∀ i, ((r.register role name more).perform h s).1 = .ok i →
        i.id = Identity.newId role name h.fresh) ∧
      ∀ key, ((r.register role name more).perform h s).1 = .error (.invalidId key) →
        more.predecessor = some key ∨ more.hookRef = some key := by
  simp only [checkKey_eq_ok]
  refine ⟨fun dir key hkey => ?_, isFileKey_newId, fun r role name more h s => ⟨?_, ?_⟩⟩
  · have hchild := isChild_recordFile dir hkey
    have hpath : recordPath dir key = .ok (recordFile dir key) := by rw [recordPath_eq, if_pos hkey]
    refine ⟨hpath, hchild, fun dir' other hother => ⟨fun hne => ?_, ?_⟩, fun r => ?_⟩
    · refine hchild.apart (isChild_recordFile dir' hother) fun heq => hne ?_
      exact ((String.append_left_inj _).mp heq).symm
    · refine hchild.apart (isChild_lockPath dir' hother) (json_ne ?_)
      rw [String.toList_append, List.getLast?_append]
      nofun
    · exact hchild.apart (isChild_join r.dir Registry.isName_lockFile) (json_ne (by decide))
  · exact fun i hregister => Registry.id_of_register hregister
  · exact fun key hregister => r.throws_register role name more h s _ hregister key rfl

/-- A lone dot is a key, and so is what stands behind every key. -/
theorem keys_contained_dot :
    checkKey "." = .ok () ∧ checkKey ".json" = .ok () ∧ ".json" ≠ "." ∧
    recordPath ".relay/./ids/" "." = .ok ".relay/./ids/..json" ∧
    Path.IsChild ".relay/./ids/" "..json" ".relay/./ids/..json" ∧
    Path.Apart ".relay/./ids/..json" ".relay/./ids/.json.json" ∧
    Path.Apart ".relay/./ids/..json" (lockPath ".relay/./ids/.json.json") ∧
    ((Registry.plainRegistry.register "worker" "ada" {}).perform .idle Registry.registryStore).1
      = .ok Registry.ada ∧
    Registry.ada.id = Identity.newId "worker" "ada" Host.idle.fresh ∧
    ((Registry.plainRegistry.register "worker" "ada" { hookRef := some "a/b" }).perform .idle
      Registry.registryStore).1 = .error (.invalidId "a/b") ∧
    ((none : Option String) = some "a/b" ∨ some "a/b" = some "a/b") := by
  obtain ⟨hkeys, -, hregister⟩ := keys_contained
  have hdot : checkKey "." = .ok () := by decide
  have hother : checkKey ".json" = .ok () := by decide
  obtain ⟨hpath, hchild, hapart, -⟩ := hkeys ".relay/./ids/" "." hdot
  obtain ⟨hfiles, hlock⟩ := hapart ".relay/./ids/" ".json" hother
  have hfirst : Path.join ".relay/./ids/" ("." ++ ".json") = ".relay/./ids/..json" := by
    decide +kernel
  have hsecond : Path.join ".relay/./ids/" (".json" ++ ".json") = ".relay/./ids/.json.json" := by
    decide +kernel
  rw [hfirst] at hpath hchild hfiles hlock
  rw [hsecond] at hfiles hlock
  have hada : ((Registry.plainRegistry.register "worker" "ada" {}).perform .idle
      Registry.registryStore).1 = .ok Registry.ada := Registry.answer_reportTurn
  have hrefused :
      ((Registry.plainRegistry.register "worker" "ada" { hookRef := some "a/b" }).perform
      .idle Registry.registryStore).1 = .error (.invalidId "a/b") := by decide +kernel
  exact ⟨hdot, hother, by decide, hpath, hchild, hfiles (by decide), hlock, hada,
    (hregister _ _ _ _ _ _).1 _ hada, hrefused, (hregister _ _ _ _ _ _).2 _ hrefused⟩

end Pipewright
