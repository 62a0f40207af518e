import Mathlib.Data.List.TakeWhile
import Pipewright.Engine
import Pipewright.Proofs.Text

/-!
# Paths as texts and as steps

The directory that holds a file is found in the text of its path, while the
file itself is found by following the steps of the path. The two agree: where a
path ends with a name, its steps are those of the path to the holder, dots that
lead nowhere, and that name.
-/

namespace Pipewright.Path

/-- The steps of a path that is given by its characters. -/
def stepsOf (cs : List Char) : List String := (piecesFrom [] cs).filter (· ≠ "")

theorem steps_ofList (cs : List Char) : steps (String.ofList cs) = stepsOf cs := by
  rw [steps, String.toList_ofList]
  rfl

theorem piecesFrom_append_slash (piece front back : List Char) :
    piecesFrom piece (front ++ '/' :: back) = piecesFrom piece front ++ piecesFrom [] back := by
  fun_induction piecesFrom piece front with
  | case1 piece => rfl
  | case2 piece front ih => rw [List.cons_append, piecesFrom, ih]; rfl
  | case3 piece c front hc ih =>
      rw [List.cons_append, piecesFrom, ih]
      exact hc

theorem stepsOf_append_slash (front back : List Char) :
    stepsOf (front ++ '/' :: back) = stepsOf front ++ stepsOf back := by
  rw [stepsOf, piecesFrom_append_slash, List.filter_append]
  rfl

theorem piecesFrom_of_not_mem {piece cs : List Char} (h : '/' ∉ cs) :
    piecesFrom piece cs = [String.ofList (piece.reverse ++ cs)] := by
  fun_induction piecesFrom piece cs with
  | case1 piece => simp
  | case2 piece rest ih => exact absurd (List.mem_cons_self ..) h
  | case3 piece c rest hc ih =>
      rw [ih fun hmem => h (List.mem_cons_of_mem _ hmem)]
      simp

theorem stepsOf_of_not_mem {cs : List Char} (hne : cs ≠ []) (h : '/' ∉ cs) :
    stepsOf cs = [String.ofList cs] := by
  have hname : String.ofList cs ≠ "" := fun heq => hne (by
    have := congrArg String.toList heq
    rwa [String.toList_ofList] at this)
  rw [stepsOf, piecesFrom_of_not_mem h]
  simp [hname]

/-! ## The end of a path -/

/-- What is trimmed off a path is slashes and steps that lead nowhere. -/
theorem stepsOf_trimBack (cs : List Char) :
    ∃ k, stepsOf cs.reverse = stepsOf (trimBack cs).reverse ++ List.replicate k "." := by
  fun_induction trimBack cs with
  | case1 => exact ⟨0, rfl⟩
  | case2 rest _ ih =>
      obtain ⟨k, ih⟩ := ih
      refine ⟨k, ?_⟩
      rw [List.reverse_cons, stepsOf_append_slash, ih]
      exact List.append_nil _
  | case3 => exact ⟨1, rfl⟩
  | case4 rest _ ih =>
      obtain ⟨k, ih⟩ := ih
      refine ⟨k + 1, ?_⟩
      rw [List.reverse_cons, stepsOf_append_slash] at ih
      rw [List.reverse_cons, List.reverse_cons, List.append_assoc]
      change stepsOf (rest.reverse ++ '/' :: ['.']) = _
      rw [stepsOf_append_slash, List.replicate_succ', ← List.append_assoc, ← ih]
      change stepsOf rest.reverse ++ ["."] = stepsOf rest.reverse ++ [] ++ ["."]
      rw [List.append_nil]
  | case5 => exact ⟨0, (List.append_nil _).symm⟩

theorem trimBack_suffix (cs : List Char) : trimBack cs <:+ cs := by
  fun_induction trimBack cs with
  | case1 => exact List.suffix_refl _
  | case2 rest _ ih => exact ih.trans (List.suffix_cons _ _)
  | case3 => exact List.suffix_cons _ _
  | case4 rest _ ih => exact ih.trans (List.suffix_cons _ _)
  | case5 => exact List.suffix_refl _

theorem trimBack_ne_nil {cs : List Char} (h : cs ≠ []) : trimBack cs ≠ [] := by
  fun_induction trimBack cs with
  | case1 => exact h
  | case2 rest hrest ih => exact ih hrest
  | case3 => decide
  | case4 rest _ ih => exact ih (List.cons_ne_nil _ _)
  | case5 => exact h

/-- A trimmed path is the front of the path, with the same steps but for dots. -/
theorem stepsOf_trimEnd {cs : List Char} (h : cs ≠ []) : trimEnd cs ≠ [] ∧
    (∃ rest, trimEnd cs ++ rest = cs) ∧
    ∃ k, stepsOf cs = stepsOf (trimEnd cs) ++ List.replicate k "." := by
  refine ⟨fun hnil => ?_, ?_, ?_⟩
  · have hreverse : cs.reverse ≠ [] := by simpa using h
    exact trimBack_ne_nil hreverse (by simpa [trimEnd] using hnil)
  · obtain ⟨rest, hrest⟩ := trimBack_suffix cs.reverse
    refine ⟨rest.reverse, ?_⟩
    rw [trimEnd, ← List.reverse_append, hrest, List.reverse_reverse]
  · obtain ⟨k, hk⟩ := stepsOf_trimBack cs.reverse
    exact ⟨k, by rwa [List.reverse_reverse] at hk⟩

theorem trimEnd_of_ending {p : String} (h : ending p = .name) :
    p.toList ≠ [] ∧ p.toList.getLast? ≠ some '/' ∧ trimEnd p.toList = p.toList := by
  have hne : p.toList ≠ [] := by
    intro hnil
    rw [ending, steps, hnil] at h
    exact absurd h (by decide)
  have hslash : p.toList.getLast? ≠ some '/' := by
    intro hlast
    rw [ending] at h
    split at h
    · cases h
    · split at h
      · cases h
      · cases h
  refine ⟨hne, hslash, ?_⟩
  have htrim : trimBack p.toList.reverse = p.toList.reverse := by
    unfold trimBack
    split
    · next heq => exact heq.symm
    · next rest _ heq =>
      exact absurd (by rw [List.getLast?_eq_head?_reverse, heq]; rfl) hslash
    · next heq =>
      have hp : p.toList = ['/', '.'] := by rw [← List.reverse_reverse p.toList, heq]; rfl
      rw [ending, steps, hp] at h
      exact absurd h (by decide)
    · next rest _ heq =>
      have hp : p.toList = rest.reverse ++ '/' :: ['.'] := by
        rw [← List.reverse_reverse p.toList, heq]
        simp
      have hsteps : steps p = stepsOf rest.reverse ++ ["."] := by
        change stepsOf p.toList = stepsOf rest.reverse ++ stepsOf ['.']
        rw [hp, stepsOf_append_slash]
      rw [ending, hsteps, List.getLast?_concat] at h
      exact absurd h (by simp)
    · rfl
  rw [trimEnd, htrim, List.reverse_reverse]

theorem splitLast_append (cs : List Char) : (splitLast cs).1 ++ (splitLast cs).2 = cs := by
  rw [splitLast, ← List.reverse_append, List.takeWhile_append_dropWhile, List.reverse_reverse]

theorem slash_not_mem_splitLast (cs : List Char) : '/' ∉ (splitLast cs).2 := by
  intro h
  have := List.mem_takeWhile_imp (List.mem_reverse.mp h)
  simp at this

theorem splitLast_fst (cs : List Char) :
    (splitLast cs).1 = [] ∨ ∃ front, (splitLast cs).1 = front ++ ['/'] := by
  rw [splitLast]
  cases hback : cs.reverse.dropWhile (· ≠ '/') with
  | nil => exact .inl rfl
  | cons c back =>
      have hc := List.head?_dropWhile_not (· ≠ '/') cs.reverse
      rw [hback] at hc
      have hslash : c = '/' := by simpa using hc
      exact .inr ⟨back.reverse, by rw [hslash, List.reverse_cons]⟩

theorem stepsOf_splitLast {cs : List Char} (h : (splitLast cs).2 ≠ []) :
    stepsOf cs = stepsOf (splitLast cs).1 ++ [String.ofList (splitLast cs).2] := by
  have happend := splitLast_append cs
  rw [← stepsOf_of_not_mem h (slash_not_mem_splitLast cs)]
  rcases splitLast_fst cs with hfront | ⟨front, hfront⟩
  · rw [hfront, List.nil_append] at happend
    rw [hfront, happend]
    rfl
  · have hfirst : stepsOf (front ++ ['/']) = stepsOf front := by
      rw [stepsOf_append_slash]
      exact List.append_nil _
    rw [hfront, List.append_assoc, List.singleton_append] at happend
    rw [hfront, hfirst, ← stepsOf_append_slash, happend]

theorem parent?_of_ending {p : String} (h : ending p = .name) :
    parent? p = some (String.ofList (trimEnd (splitLast p.toList).1))
      ∧ (splitLast p.toList).2 ≠ [] := by
  obtain ⟨hne, hslash, htrim⟩ := trimEnd_of_ending h
  constructor
  · have hroot : p.toList ≠ ['/'] := fun heq => hslash (by rw [heq]; rfl)
    rw [parent?, parentChars?, htrim]
    simp [hne, hroot]
  · intro hnil
    have happend := splitLast_append p.toList
    rw [hnil, List.append_nil] at happend
    rcases splitLast_fst p.toList with hfront | ⟨front, hfront⟩
    · exact hne (by rw [← happend, hfront])
    · exact hslash (by rw [← happend, hfront]; simp)

theorem isAbsolute_of_append {p q rest : String} (h : p = q ++ rest) (hne : q ≠ "") :
    isAbsolute q = isAbsolute p := by
  have hq : q.toList ≠ [] := fun hnil => hne (String.toList_inj.mp hnil)
  obtain ⟨c, cs, hcs⟩ := List.exists_cons_of_ne_nil hq
  rw [isAbsolute, isAbsolute, h, String.toList_append, hcs]
  rfl

/-- Where a path ends with a name, there is a path to the directory around it or it
has no other step. -/
theorem holder_of_ending {p : String} (h : ending p = .name) :
    (Store.holder p = "." ∧ isAbsolute p = false ∧ ∃ name, steps p = [name]) ∨
      ∃ k name rest, steps p = steps (Store.holder p) ++ List.replicate k "." ++ [name] ∧
        Store.holder p ≠ "" ∧ p = Store.holder p ++ rest := by
  obtain ⟨hparent, hlast⟩ := parent?_of_ending h
  have hsteps : steps p = _ := stepsOf_splitLast hlast
  have happend := splitLast_append p.toList
  cases hfront : (splitLast p.toList).1 with
  | nil =>
      rw [hfront] at hparent hsteps
      rw [hfront, List.nil_append] at happend
      refine .inl ⟨by rw [Store.holder, hparent]; rfl, ?_, _, hsteps⟩
      have hmem := slash_not_mem_splitLast p.toList
      rw [happend] at hmem hlast
      obtain ⟨c, cs, hp⟩ := List.exists_cons_of_ne_nil hlast
      rw [hp] at hmem
      have hc : c ≠ '/' := fun heq => hmem (by rw [heq]; exact List.mem_cons_self ..)
      simpa [isAbsolute, hp] using hc
  | cons c cs =>
      have hfirst : (splitLast p.toList).1 ≠ [] := by rw [hfront]; simp
      obtain ⟨hne, ⟨rest, hrest⟩, k, hk⟩ := stepsOf_trimEnd hfirst
      have hholder : Store.holder p = String.ofList (trimEnd (splitLast p.toList).1) := by
        have hname : String.ofList (trimEnd (splitLast p.toList).1) ≠ "" := fun heq => hne (by
          have := congrArg String.toList heq
          rwa [String.toList_ofList] at this)
        rw [Store.holder, hparent]
        exact if_neg hname
      refine .inr ⟨k, String.ofList (splitLast p.toList).2,
        String.ofList (rest ++ (splitLast p.toList).2), ?_, ?_, ?_⟩
      · rw [hsteps, hk, hholder, steps_ofList]
      · rw [hholder]
        exact fun heq => hne (by
          have := congrArg String.toList heq
          rwa [String.toList_ofList] at this)
      · rw [hholder, ← String.ofList_append, ← List.append_assoc, hrest, happend,
          String.ofList_toList]

/-! ## Lock files -/

theorem trimBack_idem (cs : List Char) : trimBack (trimBack cs) = trimBack cs := by
  fun_induction trimBack cs with
  | case1 => rfl
  | case2 rest _ ih => exact ih
  | case3 => rfl
  | case4 rest _ ih => exact ih
  | case5 cs h1 h2 h3 h4 => rw [trimBack] <;> assumption

theorem trimEnd_idem (cs : List Char) : trimEnd (trimEnd cs) = trimEnd cs := by
  rw [trimEnd, trimEnd, List.reverse_reverse, trimBack_idem]

theorem trimEnd_append_slash {cs : List Char} (h : cs ≠ []) :
    trimEnd (cs ++ ['/']) = trimEnd cs := by
  obtain ⟨c, rest, hrest⟩ := List.exists_cons_of_ne_nil (List.reverse_ne_nil_iff.mpr h)
  rw [trimEnd, trimEnd, List.reverse_append, hrest]
  rfl

/-- A path whose last character is that of a name is not trimmed. -/
theorem trimEnd_concat {cs : List Char} {c : Char} (hslash : c ≠ '/') (hdot : c ≠ '.') :
    trimEnd (cs ++ [c]) = cs ++ [c] := by
  have htrim : trimBack (c :: cs.reverse) = c :: cs.reverse := by
    rw [trimBack]
    all_goals intros; simp_all
  rw [trimEnd, List.reverse_append, List.reverse_singleton, List.singleton_append, htrim]
  simp

/-- The last part of a path that is put together is the part that was added. -/
theorem splitLast_of_not_mem {front name : List Char} (hname : '/' ∉ name)
    (hfront : front = [] ∨ ∃ dir, front = dir ++ ['/']) :
    splitLast (front ++ name) = (front, name) := by
  have hback : ∀ c ∈ name.reverse, decide (c ≠ '/') = true := fun c hc =>
    decide_eq_true fun heq => hname (List.mem_reverse.mp (heq ▸ hc))
  have hstops : Stops (fun c => decide (c ≠ '/')) front.reverse := by
    rcases hfront with rfl | ⟨dir, rfl⟩
    · trivial
    · rw [List.reverse_append]
      rfl
  rw [splitLast, List.reverse_append, takeWhile_append hback hstops, dropWhile_append hback hstops,
    List.reverse_reverse, List.reverse_reverse]

theorem parentChars?_append {front name : List Char} {c : Char} (hname : '/' ∉ name)
    (hslash : c ≠ '/') (hdot : c ≠ '.') (hfront : front = [] ∨ ∃ dir, front = dir ++ ['/']) :
    parentChars? (front ++ (name ++ [c])) = some (trimEnd front) := by
  have hlast : '/' ∉ name ++ [c] := by simp [hname, Ne.symm hslash]
  have htrim : trimEnd (front ++ (name ++ [c])) = front ++ (name ++ [c]) := by
    rw [← List.append_assoc]
    exact trimEnd_concat hslash hdot
  have hroot : front ++ (name ++ [c]) ≠ ['/'] := by
    intro heq
    have hend := congrArg List.getLast? heq
    rw [← List.append_assoc, List.getLast?_concat] at hend
    exact hslash (Option.some.inj hend)
  rw [parentChars?, htrim]
  simp only [hroot, or_false]
  rw [if_neg (by simp), splitLast_of_not_mem hlast hfront]

/-- The directory of a path that is put together is the one that it was put into. -/
theorem parent?_join {dir : String} {name : List Char} {c : Char} (hname : '/' ∉ name)
    (hslash : c ≠ '/') (hdot : c ≠ '.') : parent? (join dir (String.ofList (name ++ [c])))
      = some (String.ofList (trimEnd dir.toList)) := by
  have hhead : (name ++ [c]).head? ≠ some '/' := by
    cases name with
    | nil => simpa using hslash
    | cons d name =>
        intro heq
        exact hname (Option.some.inj heq ▸ List.mem_cons_self ..)
  rw [parent?, join, String.toList_ofList]
  simp only [hhead, false_or]
  by_cases hdir : dir = ""
  · rw [if_pos hdir, String.toList_ofList, hdir]
    have hparent := parentChars?_append hname hslash hdot (.inl rfl)
    rw [List.nil_append] at hparent
    rw [hparent]
    rfl
  · have hne : dir.toList ≠ [] := fun hnil => hdir (String.toList_inj.mp hnil)
    rw [if_neg hdir]
    split
    · next hlast =>
      obtain ⟨front, hfront⟩ := List.getLast?_eq_some_iff.mp hlast
      rw [String.toList_append, String.toList_ofList,
        parentChars?_append hname hslash hdot (.inr ⟨front, hfront⟩)]
      rfl
    · have hbase : (dir ++ "/").toList = dir.toList ++ ['/'] := String.toList_append
      rw [String.toList_append, String.toList_ofList, hbase,
        parentChars?_append hname hslash hdot (.inr ⟨dir.toList, rfl⟩)]
      change some (String.ofList (trimEnd (dir.toList ++ ['/']))) = _
      rw [trimEnd_append_slash hne]

theorem fileName?_of_ending {p : String} (h : ending p = .name) :
    fileName? p = some (String.ofList (splitLast p.toList).2) := by
  obtain ⟨hne, -, htrim⟩ := trimEnd_of_ending h
  obtain ⟨-, hlast⟩ := parent?_of_ending h
  have hsteps : steps p = stepsOf (splitLast p.toList).1 ++
      [String.ofList (splitLast p.toList).2] :=
    stepsOf_splitLast hlast
  have hdots : String.ofList (splitLast p.toList).2 ≠ "." ∧
      String.ofList (splitLast p.toList).2 ≠ ".." := by
    rw [← not_or]
    intro hdots
    rw [ending, hsteps, List.getLast?_concat] at h
    simp only [if_pos hdots] at h
    cases h
  have hnone : ¬((splitLast p.toList).2 = [] ∨ (splitLast p.toList).2 = ['.'] ∨
      (splitLast p.toList).2 = ['.', '.']) := by
    rintro (hnil | hdot | hdots')
    · exact hlast hnil
    · exact hdots.1 (by rw [hdot])
    · exact hdots.2 (by rw [hdots'])
  rw [fileName?, fileNameChars?, htrim, if_neg hnone]
  rfl

theorem holder_lockPath {p : String} (h : ending p = .name) :
    Store.holder (lockPath p) = Store.holder p := by
  have hname := fileName?_of_ending h
  obtain ⟨hparent, -⟩ := parent?_of_ending h
  have hlock : (String.ofList (splitLast p.toList).2) ++ ".lock"
      = String.ofList (((splitLast p.toList).2 ++ ".loc".toList) ++ ['k']) := by
    rw [List.append_assoc, String.ofList_append]
    rfl
  have hslash : '/' ∉ (splitLast p.toList).2 ++ ".loc".toList := by
    rw [List.mem_append, not_or]
    exact ⟨slash_not_mem_splitLast p.toList, by decide⟩
  rw [Store.holder, Store.holder, lockPath, withFileName, hname, Option.getD_some, hlock, hparent,
    Option.getD_some, parent?_join hslash (by decide) (by decide), String.toList_ofList,
      trimEnd_idem]

theorem getLast?_steps_join (dir : String) {name : String} (hname : '/' ∉ name.toList)
    (hne : name ≠ "") : (steps (join dir name)).getLast? = some name := by
  have hchars : name.toList ≠ [] := fun hnil => hne (String.toList_inj.mp hnil)
  have hsteps : ∀ front, (stepsOf (front ++ '/' :: name.toList)).getLast? = some name := by
    intro front
    rw [stepsOf_append_slash, stepsOf_of_not_mem hchars hname, List.getLast?_concat,
      String.ofList_toList]
  unfold join
  split
  · change (stepsOf name.toList).getLast? = _
    rw [stepsOf_of_not_mem hchars hname, List.getLast?_singleton, String.ofList_toList]
  · split
    · next hslash =>
      obtain ⟨front, hfront⟩ := List.getLast?_eq_some_iff.mp hslash
      change (stepsOf (dir ++ name).toList).getLast? = _
      rw [String.toList_append, hfront, List.append_assoc]
      exact hsteps front
    · change (stepsOf (dir ++ "/" ++ name).toList).getLast? = _
      rw [String.toList_append, String.toList_append, List.append_assoc]
      exact hsteps dir.toList

/-- The path of a lock file ends with a name that is longer than that of its file. -/
theorem getLast?_steps_lockPath {p : String} (h : ending p = .name) : ∃ name,
    (steps p).getLast? = some name ∧ (steps (lockPath p)).getLast? = some (name ++ ".lock") := by
  obtain ⟨-, hlast⟩ := parent?_of_ending h
  have hsteps : steps p = _ := stepsOf_splitLast hlast
  have hslash : '/' ∉ (String.ofList (splitLast p.toList).2 ++ ".lock").toList := by
    rw [String.toList_append, String.toList_ofList, List.mem_append, not_or]
    exact ⟨slash_not_mem_splitLast p.toList, by decide⟩
  have hne : String.ofList (splitLast p.toList).2 ++ ".lock" ≠ "" := by
    intro heq
    have hsize := congrArg String.utf8ByteSize heq
    rw [String.utf8ByteSize_append] at hsize
    exact absurd (Nat.le_of_add_left_le hsize.le) (by decide)
  refine ⟨_, by rw [hsteps, List.getLast?_concat], ?_⟩
  rw [lockPath, withFileName, fileName?_of_ending h]
  exact getLast?_steps_join _ hslash hne

/-! ## Lengths -/

/-- A path is at least as long as what it is put together from. -/
theorem le_utf8ByteSize_join (base p : String) (hp : p.toList.head? ≠ some '/') :
    base.utf8ByteSize + p.utf8ByteSize ≤ (join base p).utf8ByteSize := by
  unfold join
  split
  · next h =>
    rcases h with h | rfl
    · exact absurd h hp
    · simp
  · split
    · rw [String.utf8ByteSize_append]
    · rw [String.utf8ByteSize_append, String.utf8ByteSize_append]
      omega

theorem utf8ByteSize_join_le (base p : String) :
    (join base p).utf8ByteSize ≤ base.utf8ByteSize + 1 + p.utf8ByteSize := by
  unfold join
  split
  · omega
  · split
    · rw [String.utf8ByteSize_append]
      omega
    · rw [String.utf8ByteSize_append, String.utf8ByteSize_append]
      exact Nat.le_refl _

end Pipewright.Path
