import Pipewright.Proofs.Store.Paths

/-!
# Where paths lead

Following a path fails or ends at a place that its text alone determines,
`Store.place`; what stands in the store only decides whether it fails. So a
path that could be followed leads to the same place in every store with the
same home that has all the directories of the first one.

A file that can be read lies in a directory, and the text of its path names that
directory (`isDirectory_holder`).
-/

namespace Pipewright.Store

/-- The place to which one step leads from a place. -/
def stepFrom (place : List String) (step : String) : List String :=
  if step = "." then place else if step = ".." then place.dropLast else place ++ [step]

/-- The place to which a path leads, if it leads anywhere. -/
def place (s : Store) (p : String) : List String :=
  (Path.steps p).foldl stepFrom (if Path.isAbsolute p then [] else s.home)

/-! ## Following paths -/

/-- A step is taken in a directory, and its name is not too long. -/
theorem follow_cons {s : Store} {start dest rest : List String} {step : String} :
    s.follow start (step :: rest) = .ok dest ↔ s.at? start = some .directory ∧
      (isLong step → step = "." ∨ step = "..") ∧
        s.follow (stepFrom start step) rest = .ok dest := by
  rw [follow]
  cases s.at? start with
  | none => simp
  | some entry =>
      cases entry with
      | file bytes modified => simp
      | directory =>
          by_cases hdot : step = "."
          · simp [stepFrom, hdot]
          · by_cases hdots : step = ".."
            · simp [stepFrom, hdots]
            · cases hlong : isLong step <;> simp [stepFrom, hdot, hdots]

theorem follow_eq {s : Store} {start dest steps : List String}
    (h : s.follow start steps = .ok dest) : dest = steps.foldl stepFrom start := by
  induction steps generalizing start with
  | nil => exact (Except.ok.inj h).symm
  | cons step rest ih => exact ih (follow_cons.mp h).2.2

theorem follow_append_eq (s : Store) (start steps more : List String) :
    s.follow start (steps ++ more) = s.follow start steps >>= (s.follow · more) := by
  induction steps generalizing start with
  | nil => rfl
  | cons step rest ih =>
      simp only [List.cons_append, follow]
      cases s.at? start with
      | none => rfl
      | some entry =>
          cases entry with
          | file bytes modified => rfl
          | directory =>
              simp only [ih]
              split
              · rfl
              · split
                · rfl
                · split <;> rfl

theorem follow_append {s : Store} {start dest steps more : List String} :
    s.follow start (steps ++ more) = .ok dest ↔
      ∃ mid, s.follow start steps = .ok mid ∧ s.follow mid more = .ok dest := by
  rw [follow_append_eq]
  cases s.follow start steps with
  | error fault => exact ⟨fun h => (by cases h), fun ⟨_, h, _⟩ => (by cases h)⟩
  | ok mid => exact ⟨fun h => ⟨mid, rfl, h⟩, fun ⟨_, h, h'⟩ => Except.ok.inj h ▸ h'⟩

theorem follow_dots {s : Store} {start dest : List String} {k : Nat}
    (h : s.follow start (List.replicate k ".") = .ok dest) : dest = start := by
  induction k with
  | zero => exact (Except.ok.inj h).symm
  | succ k ih => exact ih (follow_cons.mp h).2.2

theorem origin_eq {s : Store} {p : String} {start : List String} (h : s.origin p = .ok start) :
    start = if Path.isAbsolute p then [] else s.home := by
  rw [origin] at h
  split at h
  · cases h
  · split at h
    · cases h
    · split at h
      · cases h
      · exact (Except.ok.inj h).symm

theorem locate_eq_ok {s : Store} {p : String} {dest : List String} :
    s.locate p = .ok dest ↔
      ∃ start, s.origin p = .ok start ∧ s.follow start (Path.steps p) = .ok dest := by
  rw [locate]
  cases s.origin p with
  | error fault => exact ⟨fun h => (by cases h), fun ⟨_, h, _⟩ => (by cases h)⟩
  | ok start =>
      constructor
      · exact fun h => ⟨start, rfl, h⟩
      · rintro ⟨start', hstart, h⟩
        rw [← Except.ok.inj hstart] at h
        exact h

/-- A path leads to the one place that its text says. -/
theorem locate_eq_follow {s : Store} {p : String} {start : List String}
    (h : s.origin p = .ok start) : s.locate p = s.follow start (Path.steps p) := by
  rw [locate, h]
  rfl

theorem locate_eq {s : Store} {p : String} {dest : List String} (h : s.locate p = .ok dest) :
    dest = s.place p := by
  obtain ⟨start, horigin, hfollow⟩ := locate_eq_ok.mp h
  rw [follow_eq hfollow, origin_eq horigin, place]

/-! ## Directories around a place -/

/-- All that lies around the place is directories. -/
def IsHeld (s : Store) (place : List String) : Prop :=
  ∀ pre, pre <+: place → pre ≠ place → s.at? pre = some .directory

theorem isHeld_origin {s : Store} {p : String} {start : List String}
    (h : s.origin p = .ok start) : IsHeld s start := by
  intro pre hpre _
  have hhome : pre <+: s.home := by
    rw [origin_eq h] at hpre
    split at hpre
    · rw [List.prefix_nil.mp hpre]; exact List.nil_prefix
    · exact hpre
  rw [at?, if_pos (List.isPrefixOf_iff_prefix.mpr hhome)]

theorem IsHeld.step {s : Store} {place : List String} (h : IsHeld s place)
    (hdir : s.at? place = some .directory) (step : String) : IsHeld s (stepFrom place step) := by
  intro pre hpre hne
  have hplace : pre <+: place → s.at? pre = some .directory := by
    intro hpre
    by_cases heq : pre = place
    · rw [heq, hdir]
    · exact h pre hpre heq
  unfold stepFrom at hpre hne
  split at hpre
  · exact hplace hpre
  · split at hpre
    · exact hplace (hpre.trans (List.dropLast_prefix _))
    · next hdot hdots =>
      rw [if_neg hdot, if_neg hdots] at hne
      rcases List.prefix_concat_iff.mp hpre with heq | hpre
      · exact absurd heq hne
      · exact hplace hpre

theorem isHeld_follow {s : Store} {start dest steps : List String} (h : IsHeld s start)
    (hfollow : s.follow start steps = .ok dest) : IsHeld s dest := by
  induction steps generalizing start with
  | nil => rw [← Except.ok.inj hfollow]; exact h
  | cons step rest ih =>
      obtain ⟨hdir, -, hfollow⟩ := follow_cons.mp hfollow
      exact ih (h.step hdir step) hfollow

theorem at?_origin {s : Store} {p : String} {start : List String} (h : s.origin p = .ok start) :
    s.at? start = some .directory := by
  have hhome : start <+: s.home := by
    rw [origin_eq h]
    split
    · exact List.nil_prefix
    · exact List.prefix_refl _
  rw [at?, if_pos (List.isPrefixOf_iff_prefix.mpr hhome)]

theorem at?_of_ending_dots {s : Store} {p : String} {dest : List String}
    (h : s.locate p = .ok dest) (hend : Path.ending p = .dots) : s.at? dest = some .directory := by
  obtain ⟨start, horigin, hfollow⟩ := locate_eq_ok.mp h
  have hdir := at?_origin horigin
  rw [Path.ending] at hend
  split at hend
  · next hnone =>
    rw [List.getLast?_eq_none_iff.mp hnone] at hfollow
    rw [← Except.ok.inj hfollow, hdir]
  · next last hlast =>
    have hdots : last = "." ∨ last = ".." := by
      by_contra hno
      rw [if_neg hno] at hend
      split at hend <;> cases hend
    obtain ⟨init, hsteps⟩ := List.getLast?_eq_some_iff.mp hlast
    rw [hsteps, follow_append] at hfollow
    obtain ⟨mid, hmid, hfollow⟩ := hfollow
    obtain ⟨hmidDir, -, hdest⟩ := follow_cons.mp hfollow
    have hheld := isHeld_follow (isHeld_origin horigin) hmid
    rw [← Except.ok.inj hdest]
    rcases hdots with rfl | rfl
    · exact hmidDir
    · change s.at? mid.dropLast = _
      by_cases hnil : mid = []
      · rw [hnil] at hmidDir ⊢
        exact hmidDir
      · exact hheld _ (List.dropLast_prefix _) fun heq => by
          have := congrArg List.length heq
          rw [List.length_dropLast] at this
          exact hnil (List.length_eq_zero_iff.mp (by omega))

/-! ## Files -/

/-- A path with a slash at its end leads to a directory or nowhere. -/
theorem find_eq_ok {s : Store} {p : String} {entry : Entry} :
    s.find p = .ok entry ↔ s.locate p = .ok (s.place p) ∧ s.at? (s.place p) = some entry ∧
      (Path.ending p = .slash → entry = .directory) := by
  cases hlocate : s.locate p with
  | error fault => simp [find, hlocate, bind, Except.bind]
  | ok dest =>
      obtain rfl := locate_eq hlocate
      simp only [find, hlocate, bind, Except.bind, true_and]
      cases hat : s.at? (s.place p) with
      | none => exact ⟨fun h => (by cases h), fun h => (by cases h.1)⟩
      | some found =>
          cases found with
          | directory =>
              constructor
              · exact fun h => ⟨congrArg some (Except.ok.inj h), fun _ => (Except.ok.inj h).symm⟩
              · exact fun h => congrArg Except.ok (Option.some.inj h.1)
          | file bytes modified =>
              by_cases hend : Path.ending p = .slash
              · simp only [hend, if_true, true_implies]
                refine ⟨fun h => (by cases h), fun ⟨h, hdir⟩ => ?_⟩
                rw [hdir] at h
                cases h
              · simp only [hend, if_false, false_implies, and_true]
                exact ⟨fun h => congrArg some (Except.ok.inj h),
                  fun h => congrArg Except.ok (Option.some.inj h)⟩

theorem find_eq_file {s : Store} {p : String} {bytes : ByteArray} {modified : Instant} :
    s.find p = .ok (.file bytes modified) ↔ s.locate p = .ok (s.place p) ∧
      s.at? (s.place p) = some (.file bytes modified) ∧ Path.ending p = .name := by
  rw [find_eq_ok]
  refine and_congr_right fun hlocate => and_congr_right fun hat => ?_
  cases hend : Path.ending p with
  | name => simp
  | slash => simp
  | dots =>
      rw [at?_of_ending_dots hlocate hend] at hat
      cases hat

theorem find_eq_directory {s : Store} {p : String} {dest : List String}
    (h : s.locate p = .ok dest) (hdir : s.at? dest = some .directory) :
    s.find p = .ok .directory := by
  obtain rfl := locate_eq h
  exact find_eq_ok.mpr ⟨h, hdir, fun _ => rfl⟩

theorem origin_of_append {s : Store} {p q rest : String} {start : List String}
    (h : s.origin p = .ok start) (hp : p = q ++ rest) (hne : q ≠ "") : s.origin q = .ok start := by
  have hbase := origin_eq h
  rw [origin] at h ⊢
  split at h
  · cases h
  · next hnull =>
    split at h
    · cases h
    · split at h
      · cases h
      · next hsize =>
        have hnull' : ¬q.toList.contains '\x00' = true := fun hq => hnull (by
          rw [hp, String.toList_append]
          exact List.contains_iff_mem.mpr (List.mem_append_left _ (List.contains_iff_mem.mp hq)))
        have hsize' : ¬4096 ≤ q.utf8ByteSize := fun hq => hsize (by
          rw [hp, String.utf8ByteSize_append]
          omega)
        rw [if_neg hnull', if_neg hne, if_neg hsize', hbase, Path.isAbsolute_of_append hp hne]

theorem origin_of_long {s : Store} {path : String} (h : 4096 ≤ path.utf8ByteSize) :
    ∃ fault, s.origin path = .error fault := by
  unfold origin
  rw [if_pos h]
  split
  · exact ⟨_, rfl⟩
  · split <;> exact ⟨_, rfl⟩

theorem at?_home (s : Store) : s.at? s.home = some .directory := by
  rw [at?, if_pos (List.isPrefixOf_iff_prefix.mpr (List.prefix_refl _))]

theorem at?_home_append (s : Store) (name : String) :
    s.at? (s.home ++ [name]) = s.entries.lookup (s.home ++ [name]) := by
  have hoff : (s.home ++ [name]).isPrefixOf s.home = false := by
    rw [Bool.eq_false_iff]
    intro h
    have hle := (List.isPrefixOf_iff_prefix.mp h).length_le
    rw [List.length_append, List.length_singleton] at hle
    omega
  rw [at?, if_neg (by rw [hoff]; decide)]

theorem isDirectory_iff {s : Store} {p : String} : s.isDirectory p ↔
    s.locate p = .ok (s.place p) ∧ s.at? (s.place p) = some .directory := by
  have hfind : s.isDirectory p ↔ s.find p = .ok .directory := by
    unfold isDirectory
    split
    · next h => exact ⟨fun _ => h, fun _ => rfl⟩
    · next h => exact ⟨nofun, fun hdir => absurd hdir h⟩
  rw [hfind, find_eq_ok]
  exact ⟨fun h => ⟨h.1, h.2.1⟩, fun h => ⟨h.1, h.2, fun _ => rfl⟩⟩

theorem isDirectory_dot (s : Store) : s.isDirectory "." := by
  have hfollow : s.follow s.home ["."] = .ok s.home :=
    follow_cons.mpr ⟨s.at?_home, fun h => absurd h (by decide), rfl⟩
  rw [isDirectory, find_eq_directory (locate_eq_ok.mpr ⟨s.home, rfl, hfollow⟩) s.at?_home]

/-- A path of one step leads to what stands under its name in the directory it is counted from. -/
theorem find_of_step {s : Store} {p name : String} {start : List String} {bytes : ByteArray}
    {modified : Instant} (horigin : s.origin p = .ok start) (hstart : s.at? start = some .directory)
    (hsteps : Path.steps p = [name]) (hend : Path.ending p = .name) (hshort : isLong name = false)
    (hat : s.at? (start ++ [name]) = some (.file bytes modified)) :
    s.find p = .ok (.file bytes modified) ∧ s.place p = start ++ [name] := by
  have hdots : ¬(name = "." ∨ name = "..") := by
    intro hdots
    rw [Path.ending, hsteps] at hend
    simp only [List.getLast?_singleton, if_pos hdots] at hend
    cases hend
  have hstep : stepFrom start name = start ++ [name] := by
    rw [not_or] at hdots
    rw [stepFrom, if_neg hdots.1, if_neg hdots.2]
  have hlocate : s.locate p = .ok (start ++ [name]) := by
    refine locate_eq_ok.mpr ⟨start, horigin, ?_⟩
    rw [hsteps]
    exact follow_cons.mpr ⟨hstart, fun h => absurd h (by rw [hshort]; decide), by rw [hstep]; rfl⟩
  have hplace := (locate_eq hlocate).symm
  refine ⟨find_eq_file.mpr ?_, hplace⟩
  rw [hplace]
  exact ⟨hlocate, hat, hend⟩

/-- A name leads to what stands under it in the working directory. -/
theorem find_of_name {s : Store} {name : String} {bytes : ByteArray} {modified : Instant}
    (horigin : s.origin name = .ok s.home) (hsteps : Path.steps name = [name])
    (hend : Path.ending name = .name) (hshort : isLong name = false)
    (hat : s.at? (s.home ++ [name]) = some (.file bytes modified)) :
    s.find name = .ok (.file bytes modified) ∧ s.place name = s.home ++ [name] :=
  find_of_step horigin s.at?_home hsteps hend hshort hat

/-- A path of one step from the root leads to what stands under its name there. -/
theorem find_of_rooted {s : Store} {p name : String} {bytes : ByteArray} {modified : Instant}
    (horigin : s.origin p = .ok []) (hsteps : Path.steps p = [name])
    (hend : Path.ending p = .name) (hshort : isLong name = false)
    (hat : s.at? [name] = some (.file bytes modified)) :
    s.find p = .ok (.file bytes modified) ∧ s.place p = [name] :=
  find_of_step horigin rfl hsteps hend hshort hat

def Found (s : Store) (path : String) : Prop :=
  ∃ bytes modified, s.find path = .ok (.file bytes modified)

/-- A file that is found lies in a directory, and its path names the directory. -/
theorem isDirectory_holder {s : Store} {p : String} {bytes : ByteArray} {modified : Instant}
    (h : s.find p = .ok (.file bytes modified)) : s.isDirectory (holder p) := by
  obtain ⟨hlocate, -, hend⟩ := find_eq_file.mp h
  obtain ⟨start, horigin, hfollow⟩ := locate_eq_ok.mp hlocate
  rcases Path.holder_of_ending hend with ⟨hholder, -, -⟩ | ⟨k, name, rest, hsteps, hne, hp⟩
  · rw [hholder]
    exact s.isDirectory_dot
  · rw [hsteps, List.append_assoc, follow_append] at hfollow
    obtain ⟨mid, hmid, hfollow⟩ := hfollow
    obtain ⟨mid', hdots, hlast⟩ := follow_append.mp hfollow
    have hdir : s.at? mid = some .directory := by
      rw [← follow_dots hdots]
      exact (follow_cons.mp hlast).1
    rw [isDirectory, find_eq_directory
      (locate_eq_ok.mpr ⟨start, origin_of_append horigin hp hne, hmid⟩) hdir]

/-! ## Lock files -/

theorem getLast?_place (s : Store) {p name : String} (hlast : (Path.steps p).getLast? = some name)
    (hdot : name ≠ ".") (hdots : name ≠ "..") : (s.place p).getLast? = some name := by
  obtain ⟨front, hfront⟩ := List.getLast?_eq_some_iff.mp hlast
  rw [place, hfront, List.foldl_append]
  simp only [List.foldl_cons, List.foldl_nil, stepFrom, if_neg hdot, if_neg hdots,
    List.getLast?_concat]

theorem place_lockPath_ne (s : Store) {p : String} (h : Path.ending p = .name) :
    s.place p ≠ s.place (lockPath p) := by
  obtain ⟨name, hname, hlock⟩ := Path.getLast?_steps_lockPath h
  have hdots : ¬(name = "." ∨ name = "..") := by
    intro hdots
    rw [Path.ending, hname] at h
    simp only [if_pos hdots] at h
    cases h
  rw [not_or] at hdots
  have hlonger : (name ++ ".lock").utf8ByteSize = name.utf8ByteSize + 5 :=
    String.utf8ByteSize_append ..
  have hlong : ∀ other : String, other.utf8ByteSize < name.utf8ByteSize + 5 →
      name ++ ".lock" ≠ other := by
    rintro other hsize rfl
    omega
  intro heq
  have hplaces := congrArg List.getLast? heq
  rw [s.getLast?_place hname hdots.1 hdots.2,
    s.getLast?_place hlock (hlong _ ?_) (hlong _ ?_)] at hplaces
  · exact hlong name (by omega) (Option.some.inj hplaces).symm
  · exact Nat.lt_of_lt_of_le (by decide : ".".utf8ByteSize < 5) (Nat.le_add_left ..)
  · exact Nat.lt_of_lt_of_le (by decide : "..".utf8ByteSize < 5) (Nat.le_add_left ..)

end Pipewright.Store
