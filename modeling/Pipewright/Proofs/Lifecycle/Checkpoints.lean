import Pipewright.Proofs.Lifecycle.CheckpointRuns
import Pipewright.Proofs.Lifecycle.Clearance
import Pipewright.Proofs.Lifecycle.Runs

/-!
# Checkpoints

The number of a graph file tells its checkpoints apart: each has a number that is
greater than those of all that were taken before, so none takes the place of
another, and the one that was taken last is the one that is found as the latest
(`run_checkpoints`). This needs no bound on the number. Where it becomes too large
to be read no further checkpoint is taken.

A checkpoint is told by its name alone, so an audit log that is kept in the
directory under such a name can be taken for the latest one (`latest_astray`).
-/

namespace Pipewright.Checkpoint

open Pipewright.Action GraphFile
open Engine (quietHost)

variable {graph dir path : String} {c : Turn} {cs : List Turn} {s t u : Store} {p p' : Pipeline}

/-! ## Where checkpoints are taken -/

/-- Taking a checkpoint leaves the working directory where it is, and it is not taken where there
is no room to save the graph file. -/
theorem save_spec (graph dir : String) (policy : LockPolicy) (h : Host) (s : Store) :
    ((save graph dir policy).perform h s).2.home = s.home ∧
      ∀ path, ((save graph dir policy).perform h s).1 = .ok path →
        Engine.saving graph s = .ok () := by
  rw [save_eq]
  rcases withLock_cases graph policy (capture graph dir) h s with
    ⟨err, t, hperform, htouched⟩ | ⟨t, held, htouched, -, -, hperform⟩ <;> rw [hperform]
  · exact ⟨htouched.home, fun _ hok => by cases hok⟩
  · rw [perform_capture]
    cases hloaded : loaded t graph with
    | error err => exact ⟨htouched.home, fun _ hok => by cases hok⟩
    | ok p =>
      have hfound := (loaded_eq_ok.mp hloaded).found
      have hreplace := Engine.replace_of_found hfound htouched.home (bumped p).bytes (h.clock 0)
      have hhome :=
        ((t.replace_spec graph (bumped p).bytes (h.clock 0)).touched []).home.trans htouched.home
      dsimp only
      rw [perform_save_eq]
      rcases hsave : t.replace graph (bumped p).bytes (h.clock 0) with ⟨fault | ⟨⟩, u⟩ <;>
        rw [hsave] at hreplace hhome
      · exact ⟨hhome, fun _ hok => by cases hok⟩
      · refine ⟨?_, fun _ _ => hreplace.symm⟩
        dsimp only
        rcases perform_replaceFile_cases (pathOf graph dir p) (bumped p).bytes
          { h with held := held } u with
          ⟨v, hcopied, -, -, hcopy⟩ | ⟨err, v, hcopied, -, hcopy⟩ <;> rw [hcopied] <;>
          exact hcopy.home.trans hhome

theorem Turn.home_after (c : Turn) (graph dir : String) : (c.after graph dir).home
    = c.before.home := by
  obtain ⟨ask, host, s⟩ := c
  cases ask with
  | transition e q =>
    rw [(reply_transition e q host s).2]
    exact (within_transition e graph q host s).home
  | save policy =>
    rw [(reply_save policy host s).2]
    exact (save_spec graph dir policy host s).1

theorem Run.home (hrun : Run graph dir s cs t) : t.home = s.home := by
  induction hrun with
  | start => rfl
  | call _ ask host ih => exact (Turn.home_after _ graph dir).trans ih
  | aside _ hothers ih => exact hothers.kept.home.trans ih

theorem Turn.saving_of_saved? (hsaved : c.saved? graph dir = some path) :
    Engine.saving graph c.before = .ok () := by
  obtain ⟨ask, host, s⟩ := c
  cases ask with
  | transition e q =>
    rw [(reply_transition e q host s).1] at hsaved
    cases hsaved
  | save policy =>
    rw [(reply_save policy host s).1] at hsaved
    have hspec := (save_spec graph dir policy host s).2
    generalize (save graph dir policy).perform host s = x at hsaved hspec
    obtain ⟨err | path', t⟩ := x
    · cases hsaved
    · exact hspec path' rfl

/-- What stands in a directory with a checkpoint whose number is greater than that of any other
one. -/
theorem perform_latest_of_has {n : UInt64} (hdir : dir ≠ "") {bytes : ByteArray}
    (hhas : s.Has (Path.join dir (name (stem graph) n.toNat)) (some bytes))
    (hothers : ∀ other k, seq? (stem graph) other = some k → s.at? (s.place dir ++ [other]) ≠ none →
      other = name (stem graph) n.toNat ∨ k < n.toNat) (h : Host) :
    (latest graph dir).perform h s
      = (.ok (some (Path.join dir (name (stem graph) n.toNat))), s) := by
  obtain ⟨modified, hfind⟩ := hhas
  obtain ⟨hlocate, hat, -⟩ := Store.find_eq_file.mp hfind
  have hname := isName_pathOf graph n
  obtain ⟨names, hlist, -, hthere, hfiles⟩ :=
    Store.exists_list (Store.isDirectory_of_locate_join hdir hname hlocate)
  rw [s.place_join dir hname] at hat
  refine perform_latest hlist (hfiles _ _ _ hat) (by rw [seq?_name, if_pos rfl]) ?_ h
  exact fun other hother k hseq => hothers other k hseq (hthere other hother)

/-- What is known of the checkpoints that are taken in any run of calls on a graph file that is
there and, if it bears a pipeline, bears a plain one. A checkpoint that is taken has another name
than all that were taken before, and it holds what the graph file holds then; if the directory is
reserved for checkpoints it is found as the latest one. And a listing of any directory, for any
graph file, shows the checkpoint of a stem and a number if the graph file has this stem, with this
number, and not otherwise. -/
theorem run_checkpoints (hgraph : s.Found graph) (hplain : ∀ p, Bears s graph p → p.Plain)
    (hrun : Run graph dir s cs t) :
    (∀ front c back path, cs = front ++ c :: back → c.saved? graph dir = some path →
      (∀ c' ∈ front, c'.saved? graph dir ≠ some path) ∧
      (∃ bytes, (c.after graph dir).Has graph (some bytes) ∧
        (c.after graph dir).Has path (some bytes)) ∧
      (Reserved graph dir s cs → ∀ h, (latest graph dir).perform h (c.after graph dir)
        = (.ok (some path), c.after graph dir))) ∧
    ∀ (u : Store) (d : String) (names : List String) (other : String) (n : UInt64),
      '/' ∉ other.toList → u.list d = .ok names → name other n.toNat ∈ names →
        ∀ (g : String) (h : Host), ∃ found, (all g d).perform h u = (.ok found, u) ∧
          ∀ k, (k, Path.join d (name other n.toNat)) ∈ found ↔ stem g = other ∧ k = n.toNat := by
  refine ⟨fun front c back path hcs hsaved => ?_, fun u d names other n hother hlist hname g h =>
    mem_all_iff hlist hother n hname g h⟩
  have hbefore := hrun.before hcs
  have hroom : Engine.saving graph s = .ok () :=
    (Engine.saving_of_home hbefore.home).symm.trans (Turn.saving_of_saved? hsaved)
  have hs := hbefore.standing hgraph hplain hroom
  cases hs.effect hroom with
  | other hnone =>
    rw [hnone] at hsaved
    cases hsaved
  | @taken p hbears hhas hcopied _ _ =>
    obtain ⟨hwhere, hpath⟩ := hcopied path hsaved
    have hnum := toNat_bumped_of_bears hbears
    refine ⟨fun c' hc' hsame => ?_, ⟨_, hhas, hpath⟩, fun hreserved h => ?_⟩
    · obtain ⟨n, hn, hle⟩ := hs.past c' hc' _ hsame
      have hnames := congrArg Path.fileName? (hwhere.symm.trans hn)
      rw [pathOf, Path.fileName?_join dir (isName_pathOf graph _),
        Path.fileName?_join dir (isName_pathOf graph n)] at hnames
      have hseq := seq?_name (stem graph) (stem graph) n
      rw [← Option.some.inj hnames, seq?_name, if_pos rfl, if_pos rfl, hnum] at hseq
      have hlt := UInt64.le_iff_toNat_le.mp (hle p hbears)
      have hequal := Option.some.inj hseq
      omega
    · rw [hwhere] at hpath ⊢
      refine perform_latest_of_has hreserved.named hpath (fun other k hseq hat => ?_) h
      have hhere : Reserved graph dir s (front ++ [c]) := by
        refine hreserved.mono ?_
        rw [hcs]
        simp
      rcases hs.entries hroom hhere hseq hat with hold | ⟨p', hp', hsame, -⟩
      · exact .inr (hnum ▸ Nat.lt_succ_of_le (hold p hbears))
      · obtain rfl := hbears.unique hp'
        exact .inl hsame

/-- A graph file that was saved bears what was saved, if its number can be read. -/
theorem bears_of_bumped (hbears : Bears s graph p) (hplain : p.Plain)
    (hseq : p.checkpointSeq.toNat + 1 < 2 ^ 63) (hhas : t.Has graph (some (bumped p).bytes)) :
    ∃ p', Bears t graph p' ∧ p'.checkpointSeq = (bumped p).checkpointSeq := by
  have hnum := toNat_bumped_of_bears hbears
  obtain ⟨-, text, -, -, hparse⟩ := hbears
  have hlifted := Pipeline.lifted_of_parse hparse
  have hlifted' : (bumped p).Lifted :=
    ⟨hnum ▸ hseq, hlifted.attrs, hlifted.nodes, hlifted.ends, hlifted.edges⟩
  obtain ⟨p', hread, hsame, -⟩ :=
    Pipeline.parse_render_of_plain hlifted' ⟨hplain.attrs, hplain.nodes, hplain.edges⟩
  exact ⟨p', ⟨_, _, hhas, fromUTF8?_toUTF8 _, hread⟩, (congrArg Pipeline.checkpointSeq hsame :)⟩

theorem pathOf_of_seq {k : UInt64} (hseq : p.checkpointSeq = k) (graph dir : String) :
    pathOf graph dir p = Path.join dir (name (stem graph) (k + 1).toNat) := by
  rw [← hseq]
  rfl

/-- A checkpoint is taken where the lock is free and both files can be written. -/
theorem Turn.reply_save_of_replace {policy : LockPolicy} {host : Host} (hbears : Bears s graph p)
    (hlock : s.Found (lockPath graph))
    (hfree : host.held.contains (s.place (lockPath graph)) = false)
    (hsave : s.replace graph (bumped p).bytes (host.clock 0) = (.ok (), t))
    (hcopy : t.replace (pathOf graph dir p) (bumped p).bytes (host.clock 0) = (.ok (), u)) :
    (⟨.save policy, host, s⟩ : Turn).saved? graph dir = some (pathOf graph dir p) ∧
      (⟨.save policy, host, s⟩ : Turn).after graph dir = u := by
  have hperform : (save graph dir policy).perform host s = (.ok (pathOf graph dir p), u) := by
    rw [save_eq, perform_withLock hlock hfree, perform_capture, loaded_eq_ok.mpr hbears]
    dsimp only
    rw [perform_save_eq, hsave]
    dsimp only
    rw [perform_replaceFile, hcopy]
    rfl
  obtain ⟨hsaved, hafter⟩ := @reply_save graph dir policy host s
  rw [hperform] at hsaved hafter
  exact ⟨hsaved, hafter⟩

/-- A working directory with a graph file, its lock file and a directory for checkpoints. -/
def boxStore (bytes : ByteArray) : Store where
  entries := [(["home", "p.dot"], .file bytes default),
    (["home", "p.dot.lock"], .file .empty default),
    (["home", "ck"], .directory)]

/-- The store in which the graph file and a checkpoint of it have been written. -/
def boxed (s : Store) (name : String) (bytes : ByteArray) : Store :=
  (s.put ["home", "p.dot"] (.file bytes default)).put ["home", "ck", name] (.file bytes default)

/-- A file whose directory is there is written where a new file can be moved. -/
theorem replace_of_landing {start place : List String} {bytes : ByteArray} {now : Instant}
    (hdir : s.isDirectory (Store.holder path))
    (horigin : s.origin (s.draft (Store.holder path)) = .ok start)
    (hlanding : s.landing path = .ok place) :
    s.replace path bytes now = (.ok (), s.put place (.file bytes now)) := by
  rw [Store.replace, Store.makeDirs_of_isDirectory hdir]
  dsimp only
  rw [horigin, hlanding]

theorem origin_draft_home (hhome : s.home = ["home"]) :
    s.origin (s.draft ".") = .ok [] ∧ s.origin (s.draft "ck") = .ok [] := by
  have hclosed : Store.origin {} (Store.draft {} ".") = .ok [] ∧
      Store.origin {} (Store.draft {} "ck") = .ok [] := by decide +kernel
  simpa only [Store.origin_eq_of_home (s := {}) hhome, Store.draft_eq (s := {}) hhome] using hclosed

theorem replace_boxStore (bytes new : ByteArray) :
    (boxStore bytes).replace "p.dot" new default
      = (.ok (), (boxStore bytes).put ["home", "p.dot"] (.file new default)) ∧
    ((boxStore bytes).put ["home", "p.dot"] (.file new default)).replace "ck/p-999999.dot"
      new default
      = (.ok (), boxed (boxStore bytes) "p-999999.dot" new) :=
  ⟨replace_of_landing (by rfl) (origin_draft_home rfl).1 (by rfl),
    replace_of_landing (by rfl) (origin_draft_home rfl).2 (by rfl)⟩

theorem replace_boxed (bytes old new : ByteArray) :
    (boxed (boxStore bytes) "p-999999.dot" old).replace "p.dot" new default
      = (.ok (), (boxed (boxStore bytes) "p-999999.dot" old).put ["home", "p.dot"]
        (.file new default)) ∧
    ((boxed (boxStore bytes) "p-999999.dot" old).put ["home", "p.dot"] (.file new default)).replace
        "ck/p-1000000.dot" new default
      = (.ok (), boxed (boxed (boxStore bytes) "p-999999.dot" old) "p-1000000.dot" new) :=
  ⟨replace_of_landing (by rfl) (origin_draft_home rfl).1 (by rfl),
    replace_of_landing (by rfl) (origin_draft_home rfl).2 (by rfl)⟩

theorem find_boxStore (bytes old : ByteArray) :
    ((boxStore bytes).find "p.dot" = .ok (.file bytes default) ∧
      (boxStore bytes).Found (lockPath "p.dot")) ∧
    (boxed (boxStore bytes) "p-999999.dot" old).find "p.dot" = .ok (.file old default) ∧
      (boxed (boxStore bytes) "p-999999.dot" old).Found (lockPath "p.dot") :=
  ⟨⟨by rfl, .empty, default, by rfl⟩, by rfl, .empty, default, by rfl⟩

def boxTurn (s : Store) : Turn := ⟨.save .noWait, quietHost, s⟩

theorem at?_boxStore (bytes : ByteArray) (name : String) :
    (boxStore bytes).at? ((boxStore bytes).place "ck" ++ [name]) = none := by
  change (boxStore bytes).at? ["home", "ck", name] = none
  simp [Store.at?, boxStore]

theorem reserved_boxStore (bytes : ByteArray) (stores : List Store) :
    Reserved "p.dot" "ck" (boxStore bytes) (stores.map boxTurn) := by
  refine reserved_of_isDirectory (by rfl) (fun name k _ => at?_boxStore bytes name) ?_
  intro c hc e q hask
  obtain ⟨x, -, rfl⟩ := List.mem_map.mp hc
  cases hask

theorem saved?_boxStore : ∃ bytes p, Bears (boxStore bytes) "p.dot" p ∧ p.Plain ∧
    (boxTurn (boxStore bytes)).saved? "p.dot" "ck" = some "ck/p-999999.dot" ∧
    (boxTurn ((boxTurn (boxStore bytes)).after "p.dot" "ck")).saved? "p.dot" "ck"
      = some "ck/p-1000000.dot" := by
  have hlifted : { Pipeline.laden with checkpointSeq := 999998 }.Lifted :=
    ⟨by decide, Pipeline.lifted_laden.attrs, Pipeline.lifted_laden.nodes,
      Pipeline.lifted_laden.ends,
      Pipeline.lifted_laden.edges⟩
  have hplain : { Pipeline.laden with checkpointSeq := 999998 }.Plain :=
    ⟨plain_laden.attrs, plain_laden.nodes, plain_laden.edges⟩
  obtain ⟨p, hread, hsame, -, hp⟩ := Pipeline.parse_render_of_plain hlifted hplain
  generalize hbytes : { Pipeline.laden with checkpointSeq := 999998 }.bytes = bytes
  have hseq : p.checkpointSeq = 999998 := (congrArg Pipeline.checkpointSeq hsame :)
  obtain ⟨⟨hfind, hlock⟩, hfind', hlock'⟩ := find_boxStore bytes (bumped p).bytes
  have hbears : Bears (boxStore bytes) "p.dot" p :=
    ⟨bytes, _, ⟨default, hfind⟩, hbytes ▸ fromUTF8?_toUTF8 _, hread⟩
  obtain ⟨p', hbears', hseq'⟩ := bears_of_bumped hbears hp (by rw [hseq]; decide) ⟨default, hfind'⟩
  have hseq' : p'.checkpointSeq = 999998 + 1 := by
    rw [hseq', ← hseq]
    rfl
  have hpath : pathOf "p.dot" "ck" p = "ck/p-999999.dot" :=
    (pathOf_of_seq hseq _ _).trans (by decide +kernel)
  have hpath' : pathOf "p.dot" "ck" p' = "ck/p-1000000.dot" :=
    (pathOf_of_seq hseq' _ _).trans (by decide +kernel)
  obtain ⟨hsave, hcopy⟩ := replace_boxStore bytes (bumped p).bytes
  obtain ⟨hsave', hcopy'⟩ := replace_boxed bytes (bumped p).bytes (bumped p').bytes
  rw [← hpath] at hcopy
  rw [← hpath'] at hcopy'
  obtain ⟨hsaved, hafter⟩ :=
    @Turn.reply_save_of_replace _ _ _ _ _ _ .noWait quietHost hbears hlock rfl
    hsave hcopy
  obtain ⟨hsaved', -⟩ :=
    @Turn.reply_save_of_replace _ _ _ _ _ _ .noWait quietHost hbears' hlock' rfl
    hsave' hcopy'
  rw [← hafter, hpath'] at hsaved'
  exact ⟨bytes, p, hbears, hp, hpath ▸ hsaved, hsaved'⟩

/-- Two checkpoints of a graph file: the number of the second one has one digit more, so that its
name comes before that of the first one. -/
theorem run_checkpoints_boxStore : ∃ bytes c₁ c₂ t,
    (boxStore bytes).Found "p.dot" ∧ (∀ p, Bears (boxStore bytes) "p.dot" p → p.Plain) ∧
    Run "p.dot" "ck" (boxStore bytes) [c₁, c₂] t ∧ Reserved "p.dot" "ck" (boxStore bytes) [c₁, c₂] ∧
    c₁.saved? "p.dot" "ck" = some "ck/p-999999.dot" ∧
    c₂.saved? "p.dot" "ck" = some "ck/p-1000000.dot" ∧
    (latest "p.dot" "ck").perform quietHost t = (.ok (some "ck/p-1000000.dot"), t) := by
  obtain ⟨bytes, p, hbears, hp, hsaved₁, hsaved₂⟩ := saved?_boxStore
  have hplain : ∀ p, Bears (boxStore bytes) "p.dot" p → p.Plain := fun x hx => hbears.unique hx ▸ hp
  have hstart : Run "p.dot" "ck" (boxStore bytes) [] (boxStore bytes) := .start
  have hrun := (hstart.call (.save .noWait) quietHost).call (.save .noWait) quietHost
  have hreserved :=
    reserved_boxStore bytes [boxStore bytes, (boxTurn (boxStore bytes)).after "p.dot" "ck"]
  refine ⟨bytes, _, _, _, hbears.found, hplain, hrun, hreserved, hsaved₁, hsaved₂, ?_⟩
  exact ((run_checkpoints hbears.found hplain hrun).1 [_] _ [] _ rfl hsaved₂).2.2 hreserved
    quietHost

/-! ## An audit log in the directory -/

/-- A transition is carried out where the lock is free and both files can be written. -/
theorem Turn.reply_transition_of_append {e : Engine} {q : Request} {host : Host}
    {v : Pipeline.Verdict}
    (hbears : Bears s graph p)
    (hlock : s.Found (lockPath graph))
    (hfree : host.held.contains (s.place (lockPath graph)) = false)
    (hjudge : p.judge e.maxRetries s (host.clock 0) q = .ok v)
    (hlog : s.append e.auditLog v.record.line (host.clock 0) = (.ok (), t))
    (hsave : t.replace graph (bumped v.after).bytes (host.clock 0) = (.ok (), u)) :
    (⟨.transition e q, host, s⟩ : Turn).after graph dir = u := by
  rw [(reply_transition e q host s).2, Engine.transition, perform_withLock hlock hfree,
    Engine.perform_transitionLocked, perform_load_eq, loaded_eq_ok.mpr hbears]
  dsimp only
  rw [hjudge]
  dsimp only
  rw [Engine.carryOut, AuditLog.append_eq, perform_bind, perform_appendFile, hlog]
  dsimp only [Except.mapError]
  rw [perform_bind, perform_save_eq, hsave]
  dsimp only
  rw [perform_ofExcept]

/-- The work in the graph file is taken up, and the audit log is in the directory for checkpoints.
-/
def strayTurn : Turn :=
  ⟨.transition ⟨"ck/p-000009.dot", 3, .noWait⟩ ⟨"a", .active, "dev", none⟩, quietHost,
    boxStore Pipeline.twofold.bytes⟩

def strayStore (new line : ByteArray) : Store where
  entries := [(["home", "p.dot"], .file new default),
    (["home", "ck", "p-000009.dot"], .file line default),
    (["home", "p.dot.lock"], .file .empty default), (["home", "ck"], .directory)]

theorem append_boxStore (bytes line : ByteArray) :
    (boxStore bytes).append "ck/p-000009.dot" line default
      = (.ok (), (boxStore bytes).put ["home", "ck", "p-000009.dot"]
        (.file (.empty ++ line) default)) := by
  rfl

theorem replace_append (bytes new line : ByteArray) :
    ((boxStore bytes).put ["home", "ck", "p-000009.dot"] (.file line default)).replace "p.dot"
      new default
      = (.ok (), strayStore new line) :=
  replace_of_landing (by rfl) (origin_draft_home rfl).1 (by rfl)

theorem replace_strayStore (old new line : ByteArray) :
    (strayStore old line).replace "p.dot" new default
      = (.ok (), (strayStore old line).put ["home", "p.dot"] (.file new default)) ∧
    ((strayStore old line).put ["home", "p.dot"] (.file new default)).replace "ck/p-000002.dot"
      new default
      = (.ok (), boxed (strayStore old line) "p-000002.dot" new) :=
  ⟨replace_of_landing (by rfl) (origin_draft_home rfl).1 (by rfl),
    replace_of_landing (by rfl) (origin_draft_home rfl).2 (by rfl)⟩

theorem strayTurn_after :
    ∃ p new line, Bears (boxStore Pipeline.twofold.bytes) "p.dot" p ∧ p.Plain ∧
    strayTurn.after "p.dot" "ck" = strayStore new line ∧
    ∃ p', Bears (strayStore new line) "p.dot" p' ∧ p'.checkpointSeq = 1 := by
  obtain ⟨p, hbears, hplain, hvalid, hseq, hpending, hnodes⟩ := Engine.bears_twofold
  obtain ⟨n, hnode, -⟩ := hnodes "a" (by decide)
  have hpending := hpending n (List.mem_of_find?_eq_some hnode)
  have hread : (boxStore Pipeline.twofold.bytes).readText "p.dot"
      = (Engine.homeStore .twofold).readText "p.dot" := rfl
  have hbears : Bears (boxStore Pipeline.twofold.bytes) "p.dot" p := by
    rwa [← loaded_eq_ok, loaded, hread, ← loaded, loaded_eq_ok]
  have hrule : p.rule 3 (boxStore Pipeline.twofold.bytes) ⟨"a", .active, "dev", none⟩
      = .ok (.granted n.status {}) :=
    Pipeline.rule_of_valid hvalid hnode (by rw [hpending]; rfl) (by simp) (by simp) rfl
      (by simp [hpending]) (by simp [hpending]) _
  obtain ⟨v, hjudge⟩ : ∃ v, p.judge 3 (boxStore Pipeline.twofold.bytes) (quietHost.clock 0)
      ⟨"a", .active, "dev", none⟩ = .ok v :=
    ⟨_, by rw [Pipeline.judge_eq, hrule]; rfl⟩
  have hhas : (strayStore (bumped v.after).bytes (.empty ++ v.record.line)).Has "p.dot"
      (some (bumped v.after).bytes) := ⟨default, by rfl⟩
  obtain ⟨p', hbears', -, -, hseq'⟩ := hbears.rewritten hplain hjudge hhas (by rw [hseq]; decide)
  refine ⟨p, _, _, hbears, hplain, ?_, p', hbears', UInt64.toNat_inj.mp ?_⟩
  · exact Turn.reply_transition_of_append hbears (find_boxStore _ .empty).1.2 rfl hjudge
      (append_boxStore _ _) (replace_append _ _ _)
  · rw [hseq', hseq]
    rfl

theorem perform_latest_stray (old new line : ByteArray) :
    (latest "p.dot" "ck").perform quietHost (boxed (strayStore old line) "p-000002.dot" new)
      = (.ok (some "ck/p-000009.dot"), boxed (strayStore old line) "p-000002.dot" new) := by
  refine @perform_latest_of_has "p.dot" "ck" _ 9 (by decide) line ⟨default, ?_⟩ ?_ quietHost
  · rw [show Path.join "ck" (name (stem "p.dot") (9 : UInt64).toNat)
      = "ck/p-000009.dot" by decide +kernel]
    rfl
  · intro other k hseq hat
    have hnames : other = "p-000009.dot" ∨ other = "p-000002.dot" := by
      by_contra hno
      rw [not_or] at hno
      refine hat ?_
      change (boxed (strayStore old line) "p-000002.dot" new).at? ["home", "ck", other] = none
      simp [Store.at?, boxed, Store.put, strayStore, hno]
    rcases hnames with rfl | rfl
    · exact .inl (by decide +kernel)
    · rw [show seq? (stem "p.dot") "p-000002.dot" = some 2 by decide +kernel] at hseq
      exact .inr (Option.some.inj hseq ▸ by decide)

/-- An audit log that is kept in the directory, under the name of a checkpoint with a number that
has not been reached, is taken for the latest one. -/
theorem latest_astray : ∃ t, (boxStore Pipeline.twofold.bytes).Found "p.dot" ∧
    (∀ p, Bears (boxStore Pipeline.twofold.bytes) "p.dot" p → p.Plain) ∧
    (boxStore Pipeline.twofold.bytes).isDirectory "ck" ∧
    (∀ name, (boxStore Pipeline.twofold.bytes).at?
      ((boxStore Pipeline.twofold.bytes).place "ck" ++ [name]) = none) ∧
    Run "p.dot" "ck" (boxStore Pipeline.twofold.bytes)
      [strayTurn, boxTurn (strayTurn.after "p.dot" "ck")] t ∧
    (boxTurn (strayTurn.after "p.dot" "ck")).saved? "p.dot" "ck" = some "ck/p-000002.dot" ∧
    (latest "p.dot" "ck").perform quietHost t = (.ok (some "ck/p-000009.dot"), t) := by
  obtain ⟨p, new, line, hbears, hplain, hafter, p', hbears', hseq⟩ := strayTurn_after
  have hpath : pathOf "p.dot" "ck" p' = "ck/p-000002.dot" :=
    (pathOf_of_seq hseq _ _).trans (by decide +kernel)
  obtain ⟨hsave, hcopy⟩ := replace_strayStore new (bumped p').bytes line
  rw [← hpath] at hcopy
  obtain ⟨hsaved, hend⟩ := @Turn.reply_save_of_replace _ _ _ _ _ _ .noWait quietHost hbears'
    ⟨.empty, default, by rfl⟩ rfl hsave hcopy
  have hend : (boxTurn (strayTurn.after "p.dot" "ck")).after "p.dot" "ck"
      = boxed (strayStore new line) "p-000002.dot" (bumped p').bytes := by
    rw [hafter]
    exact hend
  rw [← hafter] at hsaved
  have hstart :
      Run "p.dot" "ck" (boxStore Pipeline.twofold.bytes) [] (boxStore Pipeline.twofold.bytes) :=
    .start
  have hrun : Run "p.dot" "ck" (boxStore Pipeline.twofold.bytes)
      [strayTurn, boxTurn (strayTurn.after "p.dot" "ck")]
      (boxed (strayStore new line) "p-000002.dot" (bumped p').bytes) := by
    rw [← hend]
    exact (hstart.call strayTurn.ask quietHost).call (.save .noWait) quietHost
  refine ⟨boxed (strayStore new line) "p-000002.dot" (bumped p').bytes, hbears.found,
    fun q hq => hbears.unique hq ▸ hplain, by rfl, at?_boxStore _, hrun, hpath ▸ hsaved,
      perform_latest_stray _ _ _⟩

end Pipewright.Checkpoint
