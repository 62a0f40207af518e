import Pipewright.Lifecycle.Transition
import Pipewright.Proofs.Lifecycle.Conduct
import Pipewright.Proofs.Lifecycle.Prospects
import Pipewright.Proofs.Pipeline.Lifting
import Pipewright.Proofs.Store.Siblings

/-!
# Saving a graph file

A graph file that is saved bears the pipeline with the next number, and the number never falls.
-/

/-!
## Saving and loading

A graph file that is saved bears the pipeline that was saved, with the next
sequence number; lines are counted anew, and a node without a shape has got one.
All ways in which saving a pipeline can go are listed by `GraphFile.Saving`, and
`GraphFile.saving` shows that there are no others.

Sequence numbers are held without a sign and written with one. So a file with the
number `2 ^ 63 - 1` can be loaded, and once it has been saved it cannot be loaded
again (`GraphFile.saving_laden`).
-/

namespace Pipewright

/-! ### Lines and shapes -/

theorem Pipeline.Node.gains_unlined (n : Node) : n.unlined.Gains n.shaped.unlined :=
  ⟨rfl, n.gains_shaped.shape, n.gains_shaped.others⟩

theorem Pipeline.gains_unlined (p : Pipeline) : p.unlined.Gains p.shaped.unlined where
  fields := rfl
  nodes := by
    simp only [unlined, shaped, List.map_map, List.forall₂_map_left_iff, List.forall₂_map_right_iff,
      List.forall₂_same]
    exact fun n _ => n.gains_unlined

instance (attrs : Attrs) : Decidable (Pipeline.IsPlain attrs) :=
  inferInstanceAs (Decidable (∀ e ∈ attrs.entries, _ ∧ _))

namespace GraphFile

variable {s : Store} {source path : String} {p : Pipeline}

/-! ### Saving -/

/-- How saving a pipeline goes, and what is loaded afterwards. -/
inductive Saving (path : String) (p : Pipeline) (s : Store) : Except Error Pipeline × Store → Prop
  | refused {err : Error} {t : Store} (blocked : ¬s.CanReplace path)
      (kept : ∀ other, s.Keeps other t) : Saving path p s (.error err, t)
  | reread {p' : Pipeline} {t : Store} (room : p.checkpointSeq.toNat + 1 < 2 ^ 63)
      (others : Store.Touched [s.place path] [] s t)
      (loads : ∀ h, (load path).perform h t = (.ok p', t))
      (seq : p'.checkpointSeq.toNat = p.checkpointSeq.toNat + 1)
      (same : (bumped p).unlined.Gains p'.unlined) (plain : p'.Plain) :
      Saving path p s (.ok (bumped p), t)
  | full {t : Store} (last : p.checkpointSeq.toNat + 1 = 2 ^ 63)
      (others : Store.Touched [s.place path] [] s t)
      (lost : ∀ h, (load path).perform h t
        = (.error (Pipeline.seqFault (bumped p).checkpointSeq), t)) :
      Saving path p s (.ok (bumped p), t)

/-- Saving writes the pipeline with the next number; or it fails, and every file holds what it
held. -/
theorem perform_save (path : String) (p : Pipeline) (h : Host) (s : Store) :
    (∃ t, (save path p).perform h s = (.ok (bumped p), t) ∧
      t.Has path (some (bumped p).bytes) ∧ Store.Touched [s.place path] [] s t) ∨
    ∃ err t, (save path p).perform h s = (.error err, t) ∧ ¬s.CanReplace path ∧
      Store.Touched [] [] s t := by
  rcases Action.perform_replaceFile_cases path (bumped p).bytes h s with
    ⟨t, hreplace, hhas, -, htouched⟩ | ⟨err, t, hreplace, hblocked, htouched⟩
  · refine .inl ⟨t, ?_, hhas, htouched⟩
    rw [save, Action.perform_bind, show (bumped p).render.toUTF8
      = (bumped p).bytes from rfl, hreplace]
    rfl
  · refine .inr ⟨err, t, ?_, hblocked, htouched⟩
    rw [save, Action.perform_bind, show (bumped p).render.toUTF8
      = (bumped p).bytes from rfl, hreplace]

/-- A pipeline that was loaded is saved in one of these ways. -/
theorem saving {u : Store} (hbears : Bears u source p) (hplain : p.Plain) (path : String) (h : Host)
    (s : Store) : Saving path p s ((save path p).perform h s) := by
  obtain ⟨-, text, -, -, hparse⟩ := hbears
  have hlifted := Pipeline.lifted_of_parse hparse
  have hseq := Pipeline.toNat_bumped hlifted.seq
  have hplain' : (bumped p).Plain := ⟨hplain.attrs, hplain.nodes, hplain.edges⟩
  rcases perform_save path p h s with
    ⟨t, hperform, hhas, htouched⟩ | ⟨err, t, hperform, hblocked, htouched⟩ <;> rw [hperform]
  · have hloads : ∀ h', (load path).perform h' t = (Pipeline.parse (bumped p).render, t) := by
      intro h'
      rw [perform_load_eq, loaded_of_has hhas (fromUTF8?_toUTF8 _)]
    rcases Nat.lt_or_ge (p.checkpointSeq.toNat + 1) (2 ^ 63) with hroom | hlast
    · have hlifted' : (bumped p).Lifted :=
        ⟨hseq ▸ hroom, hlifted.attrs, hlifted.nodes, hlifted.ends, hlifted.edges⟩
      obtain ⟨p', hread, hsame, -, hplain''⟩ := Pipeline.parse_render_of_plain hlifted' hplain'
      refine .reread hroom htouched (fun h' => hread ▸ hloads h') ?_ ?_ hplain''
      · rw [← hseq]
        exact congrArg UInt64.toNat (congrArg Pipeline.checkpointSeq hsame :)
      · rw [hsame]
        exact (bumped p).gains_unlined
    · have hbound := hlifted.seq
      refine .full (by omega) htouched fun h' => ?_
      have hle : 2 ^ 63 ≤ (bumped p).checkpointSeq.toNat := hseq ▸ hlast
      rw [hloads, @Pipeline.parse_render_of_le_seq (bumped p) hlifted.attrs hplain' hle]
  · exact .refused hblocked fun other => htouched.keeps (by simp) (by simp)

theorem plain_laden : Pipeline.laden.Plain where
  attrs := by decide +kernel
  nodes := by decide +kernel
  edges := by decide +kernel

theorem bears_laden {seq : UInt64} (hseq : seq.toNat < 2 ^ 63) :
    ∃ p, Bears (Engine.homeStore { Pipeline.laden with checkpointSeq := seq }) "p.dot" p ∧ p.Plain ∧
      p.checkpointSeq = seq := by
  have hlifted : { Pipeline.laden with checkpointSeq := seq }.Lifted :=
    ⟨hseq, Pipeline.lifted_laden.attrs, Pipeline.lifted_laden.nodes, Pipeline.lifted_laden.ends,
      Pipeline.lifted_laden.edges⟩
  have hplain : { Pipeline.laden with checkpointSeq := seq }.Plain :=
    ⟨plain_laden.attrs, plain_laden.nodes, plain_laden.edges⟩
  obtain ⟨p, hbears, hplain', hsame⟩ := Engine.bears_homeStore hlifted hplain
  exact ⟨p, hbears, hplain', (congrArg Pipeline.checkpointSeq hsame :)⟩

/-- The next number is loaded again, and the number after the largest one is not. -/
theorem saving_laden :
    (∃ p t p', Bears (Engine.homeStore { Pipeline.laden with checkpointSeq := 41 }) "p.dot" p ∧
      (save "p.dot" p).perform .idle (Engine.homeStore { Pipeline.laden with checkpointSeq := 41 })
        = (.ok (bumped p), t) ∧
      (load "p.dot").perform .idle t = (.ok p', t) ∧ p'.checkpointSeq.toNat = 42) ∧
    ∃ p t, Bears (Engine.homeStore .laden) "p.dot" p ∧ p.checkpointSeq = 9223372036854775807 ∧
      (save "p.dot" p).perform .idle (Engine.homeStore .laden) = (.ok (bumped p), t) ∧
      (load "p.dot").perform .idle t = (.error (Pipeline.faultAt 1
        "checkpoint_seq must be a non-negative integer, got -9223372036854775808"), t) := by
  have hcan : ∀ p : Pipeline, (Engine.homeStore p).CanReplace "p.dot" := by
    intro p
    have horigin : Store.origin {} (Store.draft {} (Store.holder "p.dot")) = .ok [] := by
      decide +kernel
    rw [← Store.origin_eq_of_home (s := {}) (t := Engine.homeStore p) rfl] at horigin
    exact Store.canReplace_of_find (s := Engine.homeStore p) rfl horigin
  constructor
  · obtain ⟨p, hbears, hplain, hseq⟩ := @bears_laden 41 (by decide)
    have hsaving := saving hbears hplain "p.dot" .idle
      (Engine.homeStore { Pipeline.laden with checkpointSeq := 41 })
    rcases hsave : (save "p.dot" p).perform .idle
      (Engine.homeStore { Pipeline.laden with checkpointSeq := 41 }) with ⟨r, t⟩
    rw [hsave] at hsaving
    cases hsaving with
    | refused hblocked => exact absurd (hcan _) hblocked
    | @reread p' _ _ _ hloads hnext =>
        rw [hseq] at hnext
        exact ⟨p, t, p', hbears, hsave, hloads .idle, hnext⟩
    | full hlast =>
        rw [hseq] at hlast
        exact absurd hlast (by decide)
  · obtain ⟨p, hbears, hplain, hseq⟩ := @bears_laden 9223372036854775807 (by decide)
    have hsaving := saving hbears hplain "p.dot" .idle (Engine.homeStore .laden)
    rcases hsave : (save "p.dot" p).perform .idle (Engine.homeStore .laden) with ⟨r, t⟩
    rw [hsave] at hsaving
    cases hsaving with
    | refused hblocked => exact absurd (hcan _) hblocked
    | reread hroom =>
        rw [hseq] at hroom
        exact absurd hroom (by decide)
    | full _ _ hlost =>
        have hfault : Pipeline.seqFault (9223372036854775807 + 1) = Pipeline.faultAt 1
            "checkpoint_seq must be a non-negative integer, got -9223372036854775808" :=
          congrArg (Pipeline.faultAt 1) (by decide +kernel)
        rw [bumped, hseq] at hlost
        exact ⟨p, t, hbears, hseq, hsave, hfault ▸ hlost .idle⟩

end GraphFile

/-!
## The numbers of a graph file

Whoever changes a graph file saves it, and whoever saves it counts its number up.
So the number of a file that is still read never falls, whatever is asked for
(`Advances`). A file whose number has become too large to be read is not read
again, and nothing follows it.

A checkpoint is taken of a file that has just been saved. Where this gets as far
as that, the number of the file is the one in the name of the checkpoint, whether
the copy could then be written or not (`Taking`).
-/

open Pipewright.Action

variable {graph dir : String} {s t u : Store} {p p' : Pipeline} {h : Host}

/-! ### Reading what was saved -/

namespace GraphFile

/-- A pipeline that was saved and is read again is as plain as it was, and has its number. -/
theorem Bears.of_bytes {x : Pipeline} (hbears : Bears t graph p')
    (hhas : t.Has graph (some x.bytes))
    (hattrs : Pipeline.Lacks Pipeline.graphKeys x.attrs) (hplain : x.Plain)
    (hlifted : x.checkpointSeq.toNat < 2 ^ 63 → x.Lifted) :
    p'.Plain ∧ p'.checkpointSeq = x.checkpointSeq := by
  obtain ⟨bytes, text, hhas', hutf, hparse⟩ := hbears
  obtain rfl := Option.some.inj (hhas'.unique hhas)
  obtain rfl := Option.some.inj ((fromUTF8?_toUTF8 x.render).symm.trans hutf)
  have hseq := Pipeline.seq_lt_of_parse_render hattrs hplain hparse
  obtain ⟨p'', hread, hsame, -, hplain''⟩ := Pipeline.parse_render_of_plain (hlifted hseq) hplain
  obtain rfl := Except.ok.inj (hread.symm.trans hparse)
  exact ⟨hplain'', (congrArg Pipeline.checkpointSeq hsame :)⟩

/-- What a graph file bears after it was saved has the next number. -/
theorem Bears.of_bumped (hbears : Bears s graph p) (hplain : p.Plain)
    (hhas : t.Has graph (some (bumped p).bytes)) (hbears' : Bears t graph p') :
    p'.Plain ∧ p'.checkpointSeq.toNat = p.checkpointSeq.toNat + 1 := by
  obtain ⟨-, text, -, -, hparse⟩ := hbears
  have hlifted := Pipeline.lifted_of_parse hparse
  have hattrs : Pipeline.Lacks Pipeline.graphKeys (bumped p).attrs := hlifted.attrs
  obtain ⟨hplain', hseq⟩ := hbears'.of_bytes hhas hattrs ⟨hplain.attrs, hplain.nodes, hplain.edges⟩
    fun hseq => ⟨hseq, hlifted.attrs, hlifted.nodes, hlifted.ends, hlifted.edges⟩
  exact ⟨hplain', hseq ▸ Pipeline.toNat_bumped hlifted.seq⟩

theorem Bears.of_verdict {maxRetries : UInt32} {now : Instant} {q : Request} {v : Pipeline.Verdict}
    (hbears : Bears s graph p) (hplain : p.Plain) (hjudge : p.judge maxRetries u now q = .ok v)
    (hhas : t.Has graph (some (bumped v.after).bytes)) (hbears' : Bears t graph p') :
    p'.Plain ∧ p'.checkpointSeq.toNat = p.checkpointSeq.toNat + 1 := by
  obtain ⟨-, text, -, -, hparse⟩ := hbears
  have hlifted := Pipeline.lifted_of_parse hparse
  obtain ⟨-, n, m, hsucceeds, hid, hextra, -⟩ := Pipeline.succeeds_of_judge hjudge hlifted.seq
  have hnum := hsucceeds.seq
  have hattrs : Pipeline.Lacks Pipeline.graphKeys (bumped v.after).attrs := by
    obtain ⟨_, _, -, -, -, hafter⟩ := hsucceeds.nodes
    rw [hafter]
    exact hlifted.attrs
  obtain ⟨hplain', hseq⟩ := hbears'.of_bytes hhas hattrs (hsucceeds.plain hextra hplain)
    fun hseq => hsucceeds.lifted hid hextra (hnum ▸ hseq) hlifted
  exact ⟨hplain', hseq ▸ hnum⟩

theorem bears_of_keeps_iff (hgraph : s.Found graph) (hkeeps : s.Keeps graph t) :
    Bears t graph p ↔ Bears s graph p := by
  rw [← loaded_eq_ok, ← loaded_eq_ok, loaded_of_keeps hgraph hkeeps]

/-- What is done under the lock of a graph file is not begun, or it is done where nothing but the
lock file is new. -/
theorem perform_locked {α : Type} (hgraph : s.Found graph) (policy : LockPolicy) (body : Action α)
    (h : Host) : ∃ t, s.Keeps graph t ∧ s.NewAt [s.place (lockPath graph)] t ∧
      ((∃ err, (withLock graph policy body).perform h s = (.error err, t)) ∨
        ∃ held, (withLock graph policy body).perform h s
          = body.perform { h with held := held } t) := by
  obtain ⟨bytes, modified, hfind⟩ := hgraph
  have hend := (Store.find_eq_file.mp hfind).2.2
  have hdir : s.isDirectory (Store.holder (lockPath graph)) := by
    rw [Path.holder_lockPath hend]
    exact Store.isDirectory_holder hfind
  obtain ⟨t, hgrown, hbody⟩ := withLock_spec graph policy body h s
  refine ⟨t, ?_, ?_, hbody.imp_left fun ⟨err, hperform, _⟩ => ⟨err, hperform⟩⟩
  · refine hgrown.touched.keeps (by simp) ?_
    simpa using s.place_lockPath_ne hend
  · exact .of_at?_eq hgrown.home fun place hplace =>
      hgrown.at?_of_ne (not_not_intro hdir) (by simp) (by simpa using hplace)

/-- Saving a graph file replaces it, and its number is the next one. -/
theorem perform_save_eq (graph : String) (p : Pipeline) (h : Host) (s : Store) :
    (save graph p).perform h s = match s.replace graph (bumped p).bytes (h.clock 0) with
      | (.error fault, t) => (.error (.file fault), t)
      | (.ok (), t) => (.ok (bumped p), t) := by
  rw [save, perform_bind, perform_replaceFile, show (bumped p).render.toUTF8
    = (bumped p).bytes from rfl]
  rcases s.replace graph (bumped p).bytes (h.clock 0) with ⟨fault | ⟨⟩, t⟩ <;> rfl

theorem newAt_save (hgraph : s.Found graph) (p : Pipeline) (h : Host) :
    s.NewAt [] ((save graph p).perform h s).2 := by
  obtain ⟨bytes, modified, hfind⟩ := hgraph
  have hnew := (s.replace_spec graph (bumped p).bytes (h.clock 0)).newAt
    (not_not_intro (Store.isDirectory_holder hfind))
  have hthere : s.at? (s.place graph) ≠ none := by
    rw [(Store.find_eq_file.mp hfind).2.1]
    nofun
  have hnone : s.NewAt [] (s.replace graph (bumped p).bytes (h.clock 0)).2 := by
    refine ⟨hnew.home, fun place _ hat => hnew.absent place ?_ hat⟩
    rw [List.mem_singleton]
    rintro rfl
    exact hthere hat
  rw [perform_save_eq]
  rcases hreplace : s.replace graph (bumped p).bytes (h.clock 0) with ⟨fault | ⟨⟩, t⟩ <;>
    rw [hreplace] at hnone <;> exact hnone

/-- The graph file is there, and what it bears is plain and has no smaller number than before. -/
structure Advances (graph : String) (s t : Store) : Prop where
  home : t.home = s.home
  found : t.Found graph
  later : ∀ p', Bears t graph p' → p'.Plain ∧ ∃ p, Bears s graph p ∧
    p.checkpointSeq.toNat ≤ p'.checkpointSeq.toNat

theorem Advances.of_keeps (hgraph : s.Found graph) (hplain : ∀ p, Bears s graph p → p.Plain)
    (hkeeps : s.Keeps graph t) : Advances graph s t where
  home := hkeeps.home
  found := hkeeps.found hgraph
  later := by
    intro p' hp'
    rw [bears_of_keeps_iff hgraph hkeeps] at hp'
    exact ⟨hplain p' hp', p', hp', Nat.le_refl _⟩

theorem Advances.trans (h : Advances graph s t) (h' : Advances graph t u) : Advances graph s u where
  home := h'.home.trans h.home
  found := h'.found
  later := by
    intro p' hp'
    obtain ⟨hplain, p, hp, hle⟩ := h'.later p' hp'
    obtain ⟨-, p₀, hp₀, hle'⟩ := h.later p hp
    exact ⟨hplain, p₀, hp₀, hle'.trans hle⟩

end GraphFile

/-! ### Transitions -/

namespace Engine

open GraphFile

theorem newAt_carryOut (hgraph : s.Found graph) (e : Engine) (q : Request) (v : Pipeline.Verdict)
    (h : Host) : s.NewAt (s.stops e.auditLog) ((e.carryOut graph q v).perform h s).2 := by
  have happend := s.newAt_append e.auditLog v.record.line (h.clock 0)
  have hfound := (s.append_spec e.auditLog v.record.line (h.clock 0)).found hgraph
  rw [carryOut, AuditLog.append_eq, perform_bind, perform_appendFile]
  rcases hlog : s.append e.auditLog v.record.line (h.clock 0) with ⟨fault | ⟨⟩, t⟩ <;>
    rw [hlog] at happend hfound
  · exact happend
  · have hboth := happend.trans ((newAt_save hfound v.after h).mono (List.nil_subset _))
    dsimp only [Except.mapError]
    rw [perform_bind]
    rcases hsave : (GraphFile.save graph v.after).perform h t with
      ⟨err | p, u⟩ <;> rw [hsave] at hboth
    · exact hboth
    · dsimp only
      rw [perform_ofExcept]
      exact hboth

/-- Besides the lock file, what a transition makes is the audit log and what leads to it. -/
theorem newAt_transition (hgraph : s.Found graph) (e : Engine) (q : Request) (h : Host) :
    s.NewAt (s.place (lockPath graph) :: s.stops e.auditLog)
      ((e.transition graph q).perform h s).2 := by
  obtain ⟨t, hkeeps, hnew, hbody⟩ :=
    perform_locked hgraph e.lockPolicy (e.transitionLocked graph q) h
  have hlock : s.NewAt (s.place (lockPath graph) :: s.stops e.auditLog) t := hnew.mono (by simp)
  rw [transition]
  rcases hbody with ⟨err, hperform⟩ | ⟨held, hperform⟩ <;> rw [hperform]
  · exact hlock
  · rw [perform_transitionLocked, perform_load_eq]
    cases loaded t graph with
    | error err => exact hlock
    | ok p =>
      dsimp only
      split
      · exact hlock
      · next v _ =>
        have hcarry := newAt_carryOut (hkeeps.found hgraph) e q v { h with held := held }
        rw [Store.stops_eq hnew.home] at hcarry
        exact hlock.trans (hcarry.mono (List.subset_cons_self _ _))

/-- Where there is room to save a graph file, no transition sets its number back. -/
theorem advances_transition (hgraph : s.Found graph) (hplain : ∀ p, Bears s graph p → p.Plain)
    (hroom : saving graph s = .ok ()) (e : Engine) (q : Request) (h : Host) :
    Advances graph s ((e.transition graph q).perform h s).2 := by
  have hhome := (newAt_transition hgraph e q h).home
  cases hloaded : loaded s graph with
  | error err =>
    obtain ⟨t, hkeeps, -, hbody⟩ :=
      perform_locked hgraph e.lockPolicy (e.transitionLocked graph q) h
    rw [transition]
    rcases hbody with ⟨err', hperform⟩ | ⟨held, hperform⟩ <;> rw [hperform]
    · exact .of_keeps hgraph hplain hkeeps
    · rw [perform_transitionLocked, perform_load_eq, loaded_of_keeps hgraph hkeeps, hloaded]
      exact .of_keeps hgraph hplain hkeeps
  | ok p =>
    have hbears := loaded_eq_ok.mp hloaded
    have hconduct := e.conduct hbears (.inr hroom) q h
    generalize (e.transition graph q).perform h s = r at hconduct hhome ⊢
    cases hconduct with
    | refused _ hkept => exact .of_keeps hgraph hplain hkept
    | unsaved _ hfull =>
      rw [hroom] at hfull
      cases hfull
    | carriedOut hjudge _ hsaved =>
      refine ⟨hhome, hsaved.found, fun p' hp' => ?_⟩
      obtain ⟨hplain', hseq⟩ := hbears.of_verdict (hplain p hbears) hjudge hsaved hp'
      exact ⟨hplain', p, hbears, hseq ▸ Nat.le_succ _⟩

end Engine

/-! ### Taking a checkpoint -/

theorem Action.newAt_replaceFile (path : String) (bytes : ByteArray) (h : Host) (s : Store) :
    s.NewAt (s.stops path) ((replaceFile path bytes).perform h s).2 := by
  rw [perform_replaceFile]
  exact s.newAt_replace path bytes (h.clock 0)

namespace Checkpoint

open GraphFile

/-- The path of the checkpoint that is taken of a graph file that bears the pipeline. -/
def pathOf (graph dir : String) (p : Pipeline) : String :=
  Path.join dir (name (stem graph) (bumped p).checkpointSeq.toNat)

/-- The steps of `save` under the lock. -/
def capture (graph dir : String) : Action String := do
  let p ← GraphFile.save graph (← load graph)
  let path := Path.join dir (name (stem graph) p.checkpointSeq.toNat)
  replaceFile path p.render.toUTF8
  return path

theorem save_eq (graph dir : String) (policy : LockPolicy) :
    save graph dir policy = withLock graph policy (capture graph dir) := rfl

theorem perform_capture (graph dir : String) (h : Host) (s : Store) :
    (capture graph dir).perform h s = match loaded s graph with
      | .error err => (.error err, s)
      | .ok p =>
        match (GraphFile.save graph p).perform h s with
        | (.error err, t) => (.error err, t)
        | (.ok _, t) =>
          match (replaceFile (pathOf graph dir p) (bumped p).bytes).perform h t with
          | (.error err, u) => (.error err, u)
          | (.ok _, u) => (.ok (pathOf graph dir p), u) := by
  rw [capture, perform_bind, perform_load_eq]
  cases loaded s graph with
  | error err => rfl
  | ok p =>
    dsimp only
    rw [perform_bind, perform_save_eq]
    rcases s.replace graph (bumped p).bytes (h.clock 0) with ⟨fault | ⟨⟩, t⟩
    · rfl
    · dsimp only
      rw [perform_bind,
        show replaceFile (Path.join dir (name (stem graph) (bumped p).checkpointSeq.toNat))
        (bumped p).render.toUTF8 = replaceFile (pathOf graph dir p) (bumped p).bytes from rfl]
      rcases (replaceFile (pathOf graph dir p) (bumped p).bytes).perform h t with
        ⟨err | ⟨⟩, u⟩ <;> rfl

/-- How a checkpoint is taken: it is not begun, or the graph file has been saved. The copy may fail
then; if there is one it stands in the directory under its name. -/
inductive Taking (graph dir : String) (s : Store) : Except Error String × Store → Prop
  | refused {err : Error} {t : Store} (kept : s.Keeps graph t)
      (new : s.NewAt [s.place (lockPath graph)] t) : Taking graph dir s (.error err, t)
  | saved {p : Pipeline} {r : Except Error String} {t : Store} (bears : Bears s graph p)
      (has : t.Has graph (some (bumped p).bytes))
      (copied : ∀ path, r = .ok path → path = pathOf graph dir p ∧
        t.Has path (some (bumped p).bytes))
      (new : s.NewAt (s.place (lockPath graph) :: s.stops (pathOf graph dir p)) t) :
      Taking graph dir s (r, t)

/-- A file keeps its bytes when they are copied, also if it is copied to itself. -/
theorem has_of_touched {path other : String} {bytes : ByteArray} (hhas : s.Has path (some bytes))
    (hcopy : t.Has other (some bytes)) (htouched : Store.Touched [s.place other] [] s t) :
    t.Has path (some bytes) := by
  by_cases hplace : s.place path = s.place other
  · obtain ⟨_, hfind⟩ := hhas
    obtain ⟨modified, hfind'⟩ := hcopy
    obtain ⟨hlocate, -, hend⟩ := Store.find_eq_file.mp hfind
    obtain ⟨-, hat, -⟩ := Store.find_eq_file.mp hfind'
    refine ⟨modified, Store.find_eq_file.mpr ?_⟩
    rw [Store.place_eq htouched.home] at hat ⊢
    exact ⟨htouched.locate hlocate, hplace ▸ hat, hend⟩
  · exact (htouched.keeps (by simpa using hplace) (by simp)).has _ hhas

theorem taking (hgraph : s.Found graph) (hroom : Engine.saving graph s = .ok ()) (dir : String)
    (policy : LockPolicy) (h : Host) :
    Taking graph dir s ((save graph dir policy).perform h s) := by
  rw [save_eq]
  obtain ⟨t, hkeeps, hnew, ⟨err, hperform⟩ | ⟨held, hperform⟩⟩ :=
    perform_locked hgraph policy _ h <;>
    rw [hperform]
  · exact .refused hkeeps hnew
  · rw [perform_capture, loaded_of_keeps hgraph hkeeps]
    cases hloaded : loaded s graph with
    | error err => exact .refused hkeeps hnew
    | ok p =>
      have hbears := loaded_eq_ok.mp hloaded
      have hfound := hkeeps.found hgraph
      have hnone := newAt_save hfound p { h with held := held }
      dsimp only
      rcases perform_save graph p { h with held := held } t with
        ⟨u, hsave, hhas, -⟩ | ⟨_, _, -, hblocked, -⟩
      · rw [hsave] at hnone ⊢
        have hboth := hnew.trans (hnone.mono (List.nil_subset _))
        have hcopy :=
          newAt_replaceFile (pathOf graph dir p) (bumped p).bytes { h with held := held } u
        rw [Store.stops_eq hboth.home] at hcopy
        have hlock : [s.place (lockPath graph)] ⊆
            s.place (lockPath graph) :: s.stops (pathOf graph dir p) := by simp
        have hall := (hboth.mono hlock).trans (hcopy.mono (List.subset_cons_self _ _))
        dsimp only
        rcases perform_replaceFile_cases (pathOf graph dir p) (bumped p).bytes
          { h with held := held } u with
          ⟨v, hcopied, hpath, -, htouched⟩ | ⟨err, v, hcopied, -, htouched⟩ <;>
            rw [hcopied] at hall ⊢
        · refine .saved hbears (has_of_touched hhas hpath htouched) ?_ hall
          rintro path heq
          obtain rfl := Except.ok.inj heq
          exact ⟨rfl, hpath⟩
        · exact .saved hbears ((htouched.keeps (by simp) (by simp)).has _ hhas) (by simp) hall
      · exact absurd (Engine.canReplace_of_saving hfound
          ((Engine.saving_of_home hkeeps.home).trans hroom)) hblocked

end Checkpoint

end Pipewright
