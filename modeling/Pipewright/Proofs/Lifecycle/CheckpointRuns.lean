import Pipewright.Lifecycle.Transition
import Pipewright.Proofs.Engine.Actions
import Pipewright.Proofs.Lifecycle.Saving
import Pipewright.Proofs.Lifecycle.Sessions
import Pipewright.Proofs.Store.Siblings
import Pipewright.Proofs.Text

/-!
# Names and runs of checkpoints

The names under which checkpoints are taken, and the runs in which they are.
-/

/-!
## Names of checkpoints

The stem of a graph file may be any name, with hyphens, dots and digits in it, and
the number behind it may be longer than it is filled up to. The name can still be
taken apart in one way only, since there is no hyphen behind the one in front of
the number: so it is recognised for its own stem and for no other (`seq?_name`).

The checkpoints in a directory are listed in the order of their numbers, and the
last one is the one whose number is greatest (`perform_latest`).
-/

namespace Pipewright.Checkpoint

open Pipewright.Action

variable {graph dir other : String} {s : Store} {names : List String} {k : Nat} {h : Host}

/-! ### Numbers in names -/

theorem dropFront?_eq_some {front cs rest : List Char} :
    dropFront? front cs = some rest ↔ cs = front ++ rest := by
  fun_induction dropFront? front cs with
  | case1 cs => simp
  | case2 front d cs ih => simp [ih]
  | case3 c front d cs hne => simp [Ne.symm hne]
  | case4 c front => simp

theorem dropBack?_eq_some {back cs rest : List Char} :
    dropBack? back cs = some rest ↔ cs = rest ++ back := by
  simp only [dropBack?, Option.map_eq_some_iff, dropFront?_eq_some]
  constructor
  · rintro ⟨front, hcs, rfl⟩
    rw [← List.reverse_reverse cs, hcs, List.reverse_append, List.reverse_reverse]
  · rintro rfl
    exact ⟨rest.reverse, List.reverse_append, List.reverse_reverse rest⟩

/-- The name of a checkpoint is put together from the stem, a hyphen, a number and an extension. -/
theorem seq?_eq_some {stem name : String} : seq? stem name = some k ↔ ∃ digits n,
    name.toList = stem.toList ++ '-' :: (digits ++ ".dot".toList) ∧
      Numeral.uint64? digits = some n ∧ n.toNat = k := by
  simp only [seq?, bind, Option.bind_eq_some_iff, pure, Option.some.injEq, dropFront?_eq_some,
    dropBack?_eq_some, List.append_assoc, List.singleton_append]
  constructor
  · rintro ⟨_, hname, digits, rfl, n, hn, hk⟩
    exact ⟨digits, n, hname, hn, hk⟩
  · rintro ⟨digits, n, hname, hn, hk⟩
    exact ⟨_, hname, digits, rfl, n, hn, hk⟩

theorem hyphen_not_mem_of_uint64? {digits : List Char} {n : UInt64}
    (hn : Numeral.uint64? digits = some n) : '-' ∉ digits := by
  intro hmem
  rcases Numeral.mem_of_uint64? hn _ hmem with hplus | hdigit
  · cases hplus
  · exact absurd hdigit (by decide)

/-- A text is split in one way at the last hyphen. -/
theorem append_hyphen_inj {a b x y : List Char} (hx : '-' ∉ x) (hy : '-' ∉ y)
    (heq : a ++ '-' :: x = b ++ '-' :: y) : a = b ∧ x = y := by
  rcases List.append_eq_append_iff.mp heq with ⟨more, rfl, hmore⟩ | ⟨more, rfl, hmore⟩
  · cases more with
    | nil => exact ⟨(List.append_nil _).symm, (List.cons.inj hmore).2⟩
    | cons c more =>
      obtain ⟨-, rfl⟩ := List.cons.inj hmore
      exact absurd (List.mem_append_right _ (List.mem_cons_self ..)) hx
  · cases more with
    | nil => exact ⟨List.append_nil _, (List.cons.inj hmore).2.symm⟩
    | cons c more =>
      obtain ⟨-, rfl⟩ := List.cons.inj hmore
      exact absurd (List.mem_append_right _ (List.mem_cons_self ..)) hy

/-- A checkpoint is recognised by its name for the stem it was named after, with its number, and
for no other stem. -/
theorem seq?_name (stem other : String) (n : UInt64) :
    seq? stem (name other n.toNat) = if stem = other then some n.toNat else none := by
  have hchars : (name other n.toNat).toList
      = other.toList ++ '-' :: ((Numeral.padded 6 n.toNat).toList ++ ".dot".toList) := by
    simp only [name, String.toList_append, List.append_assoc]
    rfl
  have hread := Numeral.uint64?_padded 6 n
  split
  · next heq =>
    rw [heq]
    exact seq?_eq_some.mpr ⟨_, n, hchars, hread, rfl⟩
  · next hne =>
    cases hseq : seq? stem (name other n.toNat) with
    | none => rfl
    | some k =>
      obtain ⟨digits, m, hdigits, hm, -⟩ := seq?_eq_some.mp hseq
      have hlast : ∀ {ds : List Char}, '-' ∉ ds → '-' ∉ ds ++ ".dot".toList := by
        intro ds hds
        rw [List.mem_append, not_or]
        exact ⟨hds, by decide⟩
      obtain ⟨hstems, -⟩ := append_hyphen_inj (hlast (hyphen_not_mem_of_uint64? hread))
        (hlast (hyphen_not_mem_of_uint64? hm)) (hchars.symm.trans hdigits)
      exact absurd (String.toList_inj.mp hstems.symm) hne

/-! ### Names of files -/

theorem slash_not_mem_stem (graph : String) : '/' ∉ (stem graph).toList := by
  have hstem : ∀ cs : List Char, '/' ∉ cs → '/' ∉ Path.stemOf cs := by
    intro cs hcs
    unfold Path.stemOf
    dsimp only
    split
    · exact hcs
    · exact hcs
    · intro hmem
      refine hcs (List.mem_reverse.mp ?_)
      exact (List.dropWhile_sublist _).subset (List.mem_reverse.mp (List.dropLast_subset _ hmem))
  unfold stem Path.stem? Path.fileNameChars?
  dsimp only
  split
  · decide
  · rw [Option.map_some, Option.getD_some, String.toList_ofList]
    exact hstem _ (Path.slash_not_mem_splitLast _)

theorem isName_of_seq? {stem name : String} (hstem : '/' ∉ stem.toList)
    (hseq : seq? stem name = some k) : Path.IsName name := by
  obtain ⟨digits, n, hname, hn, -⟩ := seq?_eq_some.mp hseq
  refine ⟨?_, 't', ?_, by decide⟩
  · rw [hname]
    simp only [List.mem_append, List.mem_cons, not_or]
    refine ⟨hstem, by decide, fun hmem => ?_, by decide⟩
    rcases Numeral.mem_of_uint64? hn _ hmem with hplus | hdigit
    · cases hplus
    · exact absurd hdigit (by decide)
  · rw [hname, List.getLast?_append, List.getLast?_cons, List.getLast?_append]
    rfl

theorem isName_name (hstem : '/' ∉ other.toList) (n : UInt64) : Path.IsName (name other n.toNat) :=
  isName_of_seq? hstem (by rw [seq?_name, if_pos rfl])

/-! ### Listing -/

theorem ordered_iff {a b : Nat × String} : ordered a b ↔ a.1 < b.1 ∨ a.1 = b.1 ∧ a.2 ≤ b.2 := by
  simp [ordered]

theorem ordered_trans {a b c : Nat × String} (hab : ordered a b) (hbc : ordered b c) :
    ordered a c := by
  rw [ordered_iff] at *
  rcases hab with hab | ⟨hab, hab'⟩ <;> rcases hbc with hbc | ⟨hbc, hbc'⟩
  · exact .inl (hab.trans hbc)
  · exact .inl (hbc ▸ hab)
  · exact .inl (hab ▸ hbc)
  · exact .inr ⟨hab.trans hbc, String.le_trans hab' hbc'⟩

theorem ordered_total (a b : Nat × String) : ordered a b ∨ ordered b a := by
  rw [ordered_iff, ordered_iff]
  rcases Nat.lt_trichotomy a.1 b.1 with hlt | heq | hgt
  · exact .inl (.inl hlt)
  · exact (String.le_total a.2 b.2).imp (fun h => .inr ⟨heq, h⟩) (fun h => .inr ⟨heq.symm, h⟩)
  · exact .inr (.inl hgt)

/-- The checkpoints of a graph file among the names in a directory, in order. -/
theorem perform_all (hlist : s.list dir = .ok names) (graph : String) (h : Host) :
    ∃ found, (all graph dir).perform h s = (.ok found, s) ∧ found.Pairwise (ordered · ·) ∧
      ∀ k path, (k, path) ∈ found ↔
        ∃ name ∈ names, seq? (stem graph) name = some k ∧ Path.join dir name = path := by
  refine ⟨_, by rw [all, perform_bind, perform_readingIfThere, hlist]; rfl, ?_, fun k path => ?_⟩
  · exact @List.pairwise_mergeSort _ ordered (fun _ _ _ => ordered_trans)
      (fun a b => (Bool.or_eq_true _ _).mpr (ordered_total a b)) _
  · simp only [List.mem_mergeSort, Option.getD_some, List.mem_filterMap, Option.map_eq_some_iff,
      Prod.mk.injEq]
    constructor
    · rintro ⟨name, hname, _, hseq, rfl, rfl⟩
      exact ⟨name, hname, hseq, rfl⟩
    · rintro ⟨name, hname, hseq, rfl⟩
      exact ⟨name, hname, k, hseq, rfl, rfl⟩

/-- A listing shows a checkpoint of a stem, with its number, if the graph file has this stem, and
not otherwise. -/
theorem mem_all_iff (hlist : s.list dir = .ok names) (hother : '/' ∉ other.toList) (n : UInt64)
    (hname : name other n.toNat ∈ names) (graph : String) (h : Host) :
    ∃ found, (all graph dir).perform h s = (.ok found, s) ∧
      ∀ k, (k, Path.join dir (name other n.toNat)) ∈ found ↔ stem graph = other ∧ k = n.toNat := by
  obtain ⟨found, hperform, -, hfound⟩ := perform_all hlist graph h
  refine ⟨found, hperform, fun k => ?_⟩
  rw [hfound]
  constructor
  · rintro ⟨name', -, hseq, hjoin⟩
    have hsame := congrArg Path.fileName? hjoin
    rw [Path.fileName?_join dir (isName_of_seq? (slash_not_mem_stem graph) hseq),
      Path.fileName?_join dir (isName_name hother n)] at hsame
    rw [Option.some.inj hsame, seq?_name] at hseq
    split at hseq
    · next hstem => exact ⟨hstem, (Option.some.inj hseq).symm⟩
    · cases hseq
  · rintro ⟨hstem, rfl⟩
    exact ⟨_, hname, by rw [seq?_name, if_pos hstem], rfl⟩

/-- The checkpoint with a number that is greater than all others is the last one. -/
theorem perform_latest {name : String} (hlist : s.list dir = .ok names) (hname : name ∈ names)
    (hseq : seq? (stem graph) name = some k)
    (hlast : ∀ other ∈ names, ∀ k', seq? (stem graph) other = some k' → other = name ∨ k' < k)
    (h : Host) : (latest graph dir).perform h s = (.ok (some (Path.join dir name)), s) := by
  obtain ⟨found, hperform, hordered, hfound⟩ := perform_all hlist graph h
  have hmem : (k, Path.join dir name) ∈ found := (hfound _ _).mpr ⟨name, hname, hseq, rfl⟩
  obtain ⟨front, ⟨k', path⟩, rfl⟩ := List.eq_nil_or_concat' found |>.resolve_left
    (List.ne_nil_of_mem hmem)
  obtain ⟨other, hother, hseq', rfl⟩ :=
    (hfound k' path).mp (List.mem_append_right _ (List.mem_singleton_self _))
  have hpath : Path.join dir other = Path.join dir name := by
    rcases hlast other hother k' hseq' with rfl | hlt
    · rfl
    · rcases List.mem_append.mp hmem with hfront | hend
      · have hbefore :=
          (List.pairwise_append.mp hordered).2.2 _ hfront _ (List.mem_singleton_self _)
        rw [ordered_iff] at hbefore
        omega
      · exact (congrArg Prod.snd (List.mem_singleton.mp hend)).symm
  rw [latest, perform_bind, hperform]
  dsimp only
  rw [List.getLast?_concat, ← hpath]
  rfl

end Pipewright.Checkpoint

/-!
## Runs of checkpoints

Transitions of a graph file are asked for and checkpoints of it are taken, by any
processes and in any order, and in between others change other files. The number
of the file is the clock of a run: no call sets it back, and all checkpoints that
were taken or stand in their directory have numbers that it has reached
(`Run.standing`).

What else could stand in the directory under the name of a checkpoint is what a
transition makes for its audit log, so that must be kept elsewhere (`Reserved`).
-/

namespace Pipewright.Checkpoint

open Pipewright.Action GraphFile
open Engine (quietHost)

/-! ### Turns and runs -/

inductive Ask where
  | transition (e : Engine) (q : Request)
  | save (policy : LockPolicy)

structure Turn where
  ask : Ask
  host : Host
  before : Store

variable {graph dir path : String} {c : Turn} {cs : List Turn} {s t u : Store} {p p' : Pipeline}

namespace Turn

/-- The path of the checkpoint that the call answers, and the store that it leaves. -/
def reply (c : Turn) (graph dir : String) : Option String × Store :=
  match c.ask with
  | .transition e q => (none, ((e.transition graph q).perform c.host c.before).2)
  | .save policy =>
    let x := (save graph dir policy).perform c.host c.before
    (x.1.toOption, x.2)

def saved? (c : Turn) (graph dir : String) : Option String := (c.reply graph dir).1

def after (c : Turn) (graph dir : String) : Store := (c.reply graph dir).2

/-- Where the call comes by on the way to an audit log. -/
def logStops (c : Turn) : List (List String) :=
  match c.ask with
  | .transition e _ => c.before.stops e.auditLog
  | .save _ => []

end Turn

/-- What others do keeps the graph file, and makes no checkpoint of it in the directory. -/
structure Aside (graph dir : String) (s t : Store) : Prop where
  kept : s.Keeps graph t
  absent : ∀ name k, seq? (stem graph) name = some k →
    s.at? (s.place dir ++ [name]) = none → t.at? (s.place dir ++ [name]) = none

/-- The calls that are made from a store on, and the store they lead to. -/
inductive Run (graph dir : String) (s : Store) : List Turn → Store → Prop
  | start : Run graph dir s [] s
  | call {cs : List Turn} {t : Store} (run : Run graph dir s cs t) (ask : Ask) (host : Host) :
      Run graph dir s (cs ++ [⟨ask, host, t⟩]) ((⟨ask, host, t⟩ : Turn).after graph dir)
  | aside {cs : List Turn} {t u : Store} (run : Run graph dir s cs t)
      (others : Aside graph dir t u) :
      Run graph dir s cs u

/-- Each call of a run is made where the calls before it have led to. -/
theorem Run.before (hrun : Run graph dir s cs t) {front back : List Turn}
    (hcs : cs = front ++ c :: back) :
    Run graph dir s front c.before := by
  induction hrun generalizing back with
  | start => simp at hcs
  | call run ask host ih =>
    rcases Engine.concat_eq_append_cons.mp hcs with ⟨-, rfl, rfl⟩ | ⟨back', -, hfront⟩
    · exact run
    · exact ih hfront
  | aside _ _ ih => exact ih hcs

/-! ### What a call does -/

/-- What a call does: it takes no checkpoint and leaves the file with no smaller number, or the
file has been saved for a checkpoint. -/
inductive Effect (graph dir : String) (c : Turn) : Prop
  | other (saved : c.saved? graph dir = none)
      (advances : Advances graph c.before (c.after graph dir))
      (new : c.before.NewAt (c.before.place (lockPath graph) :: c.logStops) (c.after graph dir))
  | taken {p : Pipeline} (bears : Bears c.before graph p)
      (has : (c.after graph dir).Has graph (some (bumped p).bytes))
      (copied : ∀ path, c.saved? graph dir = some path → path = pathOf graph dir p ∧
        (c.after graph dir).Has path (some (bumped p).bytes))
      (next : ∀ p', Bears (c.after graph dir) graph p' →
        p'.Plain ∧ p'.checkpointSeq.toNat = p.checkpointSeq.toNat + 1)
      (new : c.before.NewAt (c.before.place (lockPath graph) :: c.before.stops (pathOf graph dir p))
        (c.after graph dir))

theorem Turn.reply_transition (e : Engine) (q : Request) (host : Host) (s : Store) :
    (⟨.transition e q, host, s⟩ : Turn).saved? graph dir = none ∧
      (⟨.transition e q, host, s⟩ : Turn).after graph dir
        = ((e.transition graph q).perform host s).2 := by
  simp only [saved?, after, reply, and_self]

theorem Turn.reply_save (policy : LockPolicy) (host : Host) (s : Store) :
    (⟨.save policy, host, s⟩ : Turn).saved? graph dir
        = ((save graph dir policy).perform host s).1.toOption ∧
      (⟨.save policy, host, s⟩ : Turn).after graph dir
        = ((save graph dir policy).perform host s).2 := by
  simp only [saved?, after, reply, and_self]

theorem Turn.effect (hgraph : c.before.Found graph) (hplain : ∀ p, Bears c.before graph p → p.Plain)
    (hroom : Engine.saving graph c.before = .ok ()) (dir : String) : Effect graph dir c := by
  obtain ⟨ask, host, s⟩ := c
  cases ask with
  | transition e q =>
    obtain ⟨hsaved, hafter⟩ := @reply_transition graph dir e q host s
    have hadvances := Engine.advances_transition hgraph hplain hroom e q host
    have hnew := Engine.newAt_transition hgraph e q host
    rw [← hafter] at hadvances hnew
    exact .other hsaved hadvances hnew
  | save policy =>
    obtain ⟨hsaved, hafter⟩ := @reply_save graph dir policy host s
    have htaking := taking hgraph hroom dir policy host
    generalize (save graph dir policy).perform host s = x at htaking hsaved hafter
    cases htaking with
    | refused hkept hnew =>
      obtain rfl := hafter
      exact .other hsaved (.of_keeps hgraph hplain hkept) hnew
    | @saved p r t hbears hhas hcopied hnew =>
      obtain rfl := hafter
      refine .taken hbears hhas (fun path hpath => ?_) (fun p' hp' => ?_) hnew
      · cases r with
        | error err =>
          rw [hsaved] at hpath
          cases hpath
        | ok path' =>
          obtain rfl := Option.some.inj (hsaved.symm.trans hpath)
          exact hcopied path' rfl
      · exact hbears.of_bumped (hplain p hbears) hhas hp'

theorem Effect.advances (heffect : Effect graph dir c) :
    Advances graph c.before (c.after graph dir) := by
  cases heffect with
  | other _ hadvances => exact hadvances
  | taken hbears hhas _ hnext hnew =>
    refine ⟨hnew.home, hhas.found, fun p' hp' => ?_⟩
    obtain ⟨hplain, hseq⟩ := hnext p' hp'
    exact ⟨hplain, _, hbears, hseq ▸ Nat.le_succ _⟩

/-! ### What is in the directory -/

/-- The path does not come by anything in the directory that has the name of a checkpoint. -/
def Clear (graph dir : String) (s : Store) (path : String) : Prop :=
  ∀ name k, seq? (stem graph) name = some k → s.place dir ++ [name] ∉ s.stops path

/-- The directory has a path, there is no checkpoint in it, and what stands in it under the name of
one is neither on the way to it nor to an audit log. -/
structure Reserved (graph dir : String) (s : Store) (cs : List Turn) : Prop where
  named : dir ≠ ""
  empty : ∀ name k, seq? (stem graph) name = some k → s.at? (s.place dir ++ [name]) = none
  way : Clear graph dir s dir
  logs : ∀ c ∈ cs, ∀ e q, c.ask = .transition e q → Clear graph dir s e.auditLog

theorem Clear.of_home (hclear : Clear graph dir s path) (hhome : t.home = s.home) :
    Clear graph dir t path := by
  intro name k hseq
  rw [Store.place_eq hhome, Store.stops_eq hhome]
  exact hclear name k hseq

theorem Reserved.mono {cs' : List Turn} (h : Reserved graph dir s cs) (hcs : cs' ⊆ cs) :
    Reserved graph dir s cs' :=
  ⟨h.named, h.empty, h.way, fun c' hc' => h.logs c' (hcs hc')⟩

/-- A directory that is there and has no checkpoint in it is reserved unless an audit log is kept
in it under the name of one. -/
theorem reserved_of_isDirectory (hdir : s.isDirectory dir)
    (hempty : ∀ name k, seq? (stem graph) name = some k → s.at? (s.place dir ++ [name]) = none)
    (hlogs : ∀ c ∈ cs, ∀ e q, c.ask = .transition e q → Clear graph dir s e.auditLog) :
    Reserved graph dir s cs where
  named := by
    rintro rfl
    have hnone : s.locate "" = .error .notFound := by rfl
    rw [(Store.isDirectory_iff.mp hdir).1] at hnone
    cases hnone
  empty := hempty
  way := by
    intro name k hseq hstop
    have hat := Store.at?_of_mem_stops hdir hstop
    rw [hempty name k hseq] at hat
    cases hat
  logs := hlogs

theorem name_ne_lockPath {name : String} {k : Nat} (hgraph : s.Found graph)
    (hseq : seq? (stem graph) name = some k) :
    s.place dir ++ [name] ≠ s.place (lockPath graph) := by
  obtain ⟨_, _, hfind⟩ := hgraph
  have hname := isName_of_seq? (slash_not_mem_stem graph) hseq
  obtain ⟨digits, n, hchars, -⟩ := seq?_eq_some.mp hseq
  have hlast : name.toList.getLast? = some 't' := by
    rw [hchars, List.getLast?_append, List.getLast?_cons, List.getLast?_append]
    rfl
  rw [← s.place_join dir hname]
  exact s.place_join_ne_lockPath dir hname (by rw [hlast]; decide) (Store.find_eq_file.mp hfind).2.2

theorem isName_pathOf (graph : String) (n : UInt64) : Path.IsName (name (stem graph) n.toNat) :=
  isName_name (slash_not_mem_stem graph) n

/-- What stands in the directory under the name of a checkpoint after a call stood there before, or
is the checkpoint for which the file has been saved. -/
theorem Effect.entries (heffect : Effect graph dir c) (hgraph : c.before.Found graph)
    (hway : Clear graph dir c.before dir)
    (hlogs : ∀ e q, c.ask = .transition e q → Clear graph dir c.before e.auditLog)
    {name : String} {k : Nat} (hseq : seq? (stem graph) name = some k)
    (hat : (c.after graph dir).at? (c.before.place dir ++ [name]) ≠ none) :
    c.before.at? (c.before.place dir ++ [name]) ≠ none ∨ ∃ p, Bears c.before graph p ∧
      name = Checkpoint.name (stem graph) (bumped p).checkpointSeq.toNat ∧
      ∀ p', Bears (c.after graph dir) graph p' →
        p'.checkpointSeq.toNat = p.checkpointSeq.toNat + 1 := by
  have hlock := @name_ne_lockPath graph dir _ _ _ hgraph hseq
  by_contra hno
  rw [not_or, not_not] at hno
  obtain ⟨hnone, hno⟩ := hno
  cases heffect with
  | other _ _ hnew =>
    refine hat (hnew.absent _ ?_ hnone)
    rw [List.mem_cons, not_or]
    refine ⟨hlock, ?_⟩
    unfold Turn.logStops
    split
    · next e q hask => exact hlogs e q hask name k hseq
    · exact List.not_mem_nil
  | @taken p hbears _ _ hnext hnew =>
    refine hat (hnew.absent _ ?_ hnone)
    rw [List.mem_cons, not_or]
    refine ⟨hlock, fun hstop => ?_⟩
    rcases Store.mem_stops_join (isName_pathOf graph _) hstop with hdir | hsame
    · exact hway name k hseq hdir
    · rw [List.append_cancel_left_eq, List.singleton_inj] at hsame
      exact hno ⟨p, hbears, hsame, fun p' hp' => (hnext p' hp').2⟩

/-! ### What a run does -/

/-- What is known of a graph file and of its checkpoints in the course of a run: the numbers of all
that were taken, and of all that are in the directory, are not greater than the number of the file.
-/
structure Standing (graph dir : String) (s : Store) (cs : List Turn) (t : Store) : Prop where
  advances : Advances graph s t
  past : ∀ c ∈ cs, ∀ path, c.saved? graph dir = some path → ∃ n : UInt64,
    path = Path.join dir (name (stem graph) n.toNat) ∧
      ∀ p, Bears t graph p → n ≤ p.checkpointSeq
  present : Reserved graph dir s cs → ∀ name k, seq? (stem graph) name = some k →
    t.at? (t.place dir ++ [name]) ≠ none → ∀ p, Bears t graph p → k ≤ p.checkpointSeq.toNat

theorem toNat_bumped_of_bears (hbears : Bears s graph p) :
    (bumped p).checkpointSeq.toNat = p.checkpointSeq.toNat + 1 := by
  obtain ⟨-, text, -, -, hparse⟩ := hbears
  exact Pipeline.toNat_bumped (Pipeline.lifted_of_parse hparse).seq

theorem Standing.effect (hs : Standing graph dir s cs c.before)
    (hroom : Engine.saving graph s = .ok ()) :
    Effect graph dir c :=
  c.effect hs.advances.found (fun p hp => (hs.advances.later p hp).1)
    ((Engine.saving_of_home hs.advances.home).trans hroom) dir

/-- What stands in the directory after a call whose file has been saved for a checkpoint. -/
theorem Standing.entries (hs : Standing graph dir s cs c.before)
    (hroom : Engine.saving graph s = .ok ())
    (hreserved : Reserved graph dir s (cs ++ [c])) {name : String} {k : Nat}
    (hseq : seq? (stem graph) name = some k)
    (hat : (c.after graph dir).at? ((c.after graph dir).place dir ++ [name]) ≠ none) :
    (∀ p, Bears c.before graph p → k ≤ p.checkpointSeq.toNat) ∨ ∃ p, Bears c.before graph p ∧
      name = Checkpoint.name (stem graph) (bumped p).checkpointSeq.toNat ∧
      ∀ p', Bears (c.after graph dir) graph p' →
        p'.checkpointSeq.toNat = p.checkpointSeq.toNat + 1 := by
  have heffect := hs.effect hroom
  have hhome := hs.advances.home
  rw [Store.place_eq heffect.advances.home] at hat
  refine (heffect.entries hs.advances.found (hreserved.way.of_home hhome) (fun e q hask => ?_) hseq
    hat).imp_left fun hold =>
      hs.present (hreserved.mono (List.subset_append_left _ _)) name k hseq hold
  exact (hreserved.logs c (List.mem_append_right _ (List.mem_singleton_self c)) e q
    hask).of_home hhome

theorem Standing.call (hs : Standing graph dir s cs c.before)
    (hroom : Engine.saving graph s = .ok ()) :
    Standing graph dir s (cs ++ [c]) (c.after graph dir) := by
  have heffect := hs.effect hroom
  refine ⟨hs.advances.trans heffect.advances, fun c' hc' path hpath => ?_, ?_⟩
  · rcases List.mem_append.mp hc' with hold | hlast
    · obtain ⟨n, hn, hle⟩ := hs.past c' hold path hpath
      refine ⟨n, hn, fun p' hp' => ?_⟩
      obtain ⟨-, p, hp, hseq⟩ := heffect.advances.later p' hp'
      exact UInt64.le_trans (hle p hp) (UInt64.le_iff_toNat_le.mpr hseq)
    · obtain rfl := List.mem_singleton.mp hlast
      cases heffect with
      | other hnone =>
        rw [hnone] at hpath
        cases hpath
      | taken hbears _ hcopied hnext =>
        refine ⟨_, (hcopied path hpath).1, fun p' hp' => UInt64.le_iff_toNat_le.mpr ?_⟩
        rw [toNat_bumped_of_bears hbears, (hnext p' hp').2]
  · intro hreserved name k hseq hat p' hp'
    obtain ⟨-, p, hp, hle⟩ := heffect.advances.later p' hp'
    rcases hs.entries hroom hreserved hseq hat with hold | ⟨p₀, hp₀, rfl, hnext⟩
    · exact (hold p hp).trans hle
    · rw [seq?_name, if_pos rfl] at hseq
      rw [← Option.some.inj hseq, toNat_bumped_of_bears hp₀, hnext p' hp']

theorem Standing.aside (hs : Standing graph dir s cs t) (haside : Aside graph dir t u) :
    Standing graph dir s cs u := by
  have hbears : ∀ p, Bears u graph p ↔ Bears t graph p :=
    fun p => bears_of_keeps_iff hs.advances.found haside.kept
  refine ⟨⟨haside.kept.home.trans hs.advances.home, haside.kept.found hs.advances.found,
    fun p hp => ?_⟩,
    fun c hc path hpath => ?_, fun hreserved name k hseq hat p hp => ?_⟩
  · exact hs.advances.later p ((hbears p).mp hp)
  · obtain ⟨n, hn, hle⟩ := hs.past c hc path hpath
    exact ⟨n, hn, fun p hp => hle p ((hbears p).mp hp)⟩
  · rw [Store.place_eq haside.kept.home] at hat
    exact hs.present hreserved name k hseq (fun hnone => hat (haside.absent name k hseq hnone)) p
      ((hbears p).mp hp)

theorem Run.standing (hrun : Run graph dir s cs t) (hgraph : s.Found graph)
    (hplain : ∀ p, Bears s graph p → p.Plain) (hroom : Engine.saving graph s = .ok ()) :
    Standing graph dir s cs t := by
  induction hrun with
  | start =>
    refine ⟨.of_keeps hgraph hplain (.refl graph s), by simp, ?_⟩
    intro hreserved name k hseq hat
    exact absurd (hreserved.empty name k hseq) hat
  | @call cs t _ ask host ih => exact @Standing.call graph dir ⟨ask, host, t⟩ cs s ih hroom
  | aside _ hothers ih => exact ih.aside hothers

end Pipewright.Checkpoint
