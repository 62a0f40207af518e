import Pipewright.Proofs.Lifecycle.Rulings
import Pipewright.Proofs.Store.Making

/-!
# The prospects of a request

What a transition comes to is settled before it begins. Three things decide it:
the ruling on the request, with the lock and the graph file; whether the audit
log can be added to; and whether the graph file can be replaced. They are the
`Prospect` of the request, and `turn` tells from it the answer, what is added to
the log and what is saved.

The prospect of a request about another node is the same afterwards. Only where
the log cannot be added to and its directory was missing the reason may be
another one, since a part of what leads to the directory may have been made.
-/

namespace Pipewright

open Pipeline (Node Ruling Verdict)
open Pipewright.Action

/-! ## Loading -/

namespace GraphFile

variable {s t : Store} {path : String} {p : Pipeline}

/-- The pipeline in a graph file, or why there is none. -/
def loaded (s : Store) (path : String) : Except Error Pipeline :=
  (s.readText path).mapError .file >>= Pipeline.parse

theorem perform_load_eq (path : String) (h : Host) (s : Store) :
    (load path).perform h s = (loaded s path, s) := by
  rw [load, perform_bind, perform_reading, loaded]
  cases s.readText path with
  | error fault => rfl
  | ok text => exact perform_ofExcept _ h s

theorem loaded_of_has {bytes : ByteArray} {text : String} (hhas : s.Has path (some bytes))
    (hutf : String.fromUTF8? bytes = some text) : loaded s path = Pipeline.parse text := by
  obtain ⟨modified, hfind⟩ := hhas
  rw [loaded, Store.readText_of_find hfind hutf]
  rfl

theorem loaded_eq_ok : loaded s path = .ok p ↔ Bears s path p := by
  constructor
  · intro h
    obtain ⟨text, htext, hparse⟩ := bind_eq_ok.mp h
    cases hread : s.readText path with
    | error fault =>
        rw [hread] at htext
        cases htext
    | ok text' =>
        rw [hread] at htext
        obtain rfl := Except.ok.inj htext
        obtain ⟨bytes, modified, hfind, hutf⟩ := Store.readText_eq_ok hread
        exact ⟨bytes, text', ⟨modified, hfind⟩, hutf, hparse⟩
  · rintro ⟨bytes, text, hhas, hutf, hparse⟩
    rw [loaded_of_has hhas hutf, hparse]

theorem loaded_of_keeps (hfound : s.Found path) (hkeeps : s.Keeps path t) :
    loaded t path = loaded s path := by
  obtain ⟨bytes, modified, hfind⟩ := hfound
  obtain ⟨modified', hfind'⟩ := hkeeps.has (some bytes) ⟨modified, hfind⟩
  have hread : t.readText path = s.readText path := by
    simp only [Store.readText, Store.readBytes, hfind, hfind', bind, Except.bind]
  rw [loaded, loaded, hread]

end GraphFile

theorem Store.place_of_site {s : Store} {path : String} {place : List String}
    (hsite : s.site path = .ok place) : place = s.place path :=
  locate_eq (site_eq_ok hsite).1

/-- A new empty file is seen in its own place only. -/
theorem Store.file?_create {s : Store} {path lock : String} (hplace : s.place path ≠ s.place lock)
    (now : Instant) : (s.create lock now).2.file? path = s.file? path := by
  have hgrown := (s.create_spec lock now).1
  rcases hfile : s.file? path with _ | ⟨bytes, modified⟩
  · rcases hnew : (s.create lock now).2.file? path with _ | ⟨bytes, modified⟩
    · rfl
    · obtain ⟨hlocate, hat, hend⟩ := find_eq_file.mp (file?_eq_some.mp hnew)
      rw [place_eq hgrown.home] at hlocate hat
      have hfind : s.find path = .ok (.file bytes modified) := by
        refine find_eq_file.mpr ⟨hgrown.locate_before hlocate, ?_, hend⟩
        cases hold : s.at? (s.place path) with
        | some entry => rw [← hat, hgrown.kept _ _ (by simp) hold]
        | none =>
            rcases hgrown.added _ (by simp) hold with hnone | ⟨hno, -⟩ | ⟨heq, -⟩
            · rw [hat] at hnone
              cases hnone
            · exact hno.elim
            · exact absurd heq hplace
      rw [file?_eq_some.mpr hfind] at hfile
      cases hfile
  · exact file?_eq_some.mpr (hgrown.find (file?_eq_some.mp hfile) (by simp))

namespace Engine

variable {e : Engine} {graph : String} {q q' : Request} {h : Host} {s t : Store} {p : Pipeline}

/-! ## Prospects -/

/-- The ruling on a request, if the lock of the graph file is free and the graph can be loaded. -/
def ruling (e : Engine) (graph : String) (q : Request) (h : Host) (s : Store) :
    Except Error Ruling := do
  let place ← (s.site (lockPath graph)).mapError .file
  if h.held.contains place then
    throw (.lockContention (lockPath graph) (Nat.max e.lockPolicy.attempts 1))
  let p ← GraphFile.loaded s graph
  p.rule e.maxRetries s q

/-- Whether the audit log can be added to once the lock file is there. -/
def logging (e : Engine) (graph : String) (s : Store) : Except FileFault Unit :=
  ((s.create (lockPath graph) default).2.append e.auditLog .empty default).1

/-- Whether there is room for the path of the draft that is to replace the graph file. -/
def saving (graph : String) (s : Store) : Except FileFault Unit :=
  (s.origin (s.draft (Store.holder graph))).map fun _ => ()

structure Prospect where
  ruling : Except Error Ruling
  logging : Except FileFault Unit
  saving : Except FileFault Unit

def prospect (e : Engine) (graph : String) (q : Request) (h : Host) (s : Store) : Prospect :=
  ⟨e.ruling graph q h s, e.logging graph s, saving graph s⟩

namespace Prospect

def answer (x : Prospect) (q : Request) (now : Instant) : Except Error AuditRecord := do
  let r ← x.ruling
  (x.logging >>= fun _ => x.saving).mapError .file
  r.answer q now

/-- The ruling that is recorded in the audit log. -/
def logged (x : Prospect) : Option Ruling :=
  match x.ruling, x.logging with
  | .ok r, .ok _ => some r
  | _, _ => none

/-- The ruling that is carried out to the end. -/
def saved (x : Prospect) : Option Ruling :=
  match x.logged, x.saving with
  | some r, .ok _ => some r
  | _, _ => none

section

variable {r : Ruling} {err : Error} {fault : FileFault} {logging saving : Except FileFault Unit}
  {q : Request} {now : Instant} {done done' : Unit}

@[simp] theorem answer_refused : (mk (.error err) logging saving).answer q now = .error err := rfl

@[simp] theorem answer_unlogged :
    (mk (.ok r) (.error fault) saving).answer q now = .error (.file fault) := rfl

@[simp] theorem answer_unsaved :
    (mk (.ok r) (.ok done) (.error fault)).answer q now = .error (.file fault) := rfl

@[simp] theorem answer_carriedOut :
    (mk (.ok r) (.ok done) (.ok done')).answer q now = r.answer q now := rfl

@[simp] theorem logged_refused : (mk (.error err) logging saving).logged = none := rfl

@[simp] theorem logged_unlogged {ruling : Except Error Ruling} :
    (mk ruling (.error fault) saving).logged = none := by
  cases ruling <;> rfl

@[simp] theorem logged_logged : (mk (.ok r) (.ok done) saving).logged = some r := rfl

@[simp] theorem saved_carriedOut :
    (mk (.ok r) (.ok done) (.ok done')).saved = some r := rfl

theorem saved_of_logged {x : Prospect} (hnone : x.logged = none) : x.saved = none := by
  rw [saved, hnone]

end

end Prospect

/-- The records that the audit log has of a ruling. -/
def records (q : Request) (now : Instant) (o : Option Ruling) : List AuditRecord :=
  (o.map (·.record q now)).toList

theorem ruling_of_site {place : List String} (hsite : s.site (lockPath graph) = .ok place)
    (hfree : h.held.contains place = false) :
    e.ruling graph q h s = GraphFile.loaded s graph >>= fun p => p.rule e.maxRetries s q := by
  rw [ruling, hsite]
  change (if h.held.contains place then _ else _ : Except Error Ruling) = _
  rw [hfree]
  rfl

theorem ruling_eq_ok {r : Ruling} (hr : e.ruling graph q h s = .ok r) :
    s.site (lockPath graph) = .ok (s.place (lockPath graph)) ∧
      h.held.contains (s.place (lockPath graph)) = false ∧
      ∃ p, GraphFile.loaded s graph = .ok p ∧ p.rule e.maxRetries s q = .ok r := by
  obtain ⟨place, hplace, hr⟩ := bind_eq_ok.mp hr
  cases hsite : s.site (lockPath graph) with
  | error fault =>
      rw [hsite] at hplace
      cases hplace
  | ok place' =>
      have hlock := Store.place_of_site hsite
      rw [hsite] at hplace
      obtain rfl := Except.ok.inj hplace
      rw [hlock] at hr ⊢
      split at hr
      · cases hr
      · next hheld =>
        obtain ⟨p, hloaded, hrule⟩ := bind_eq_ok.mp hr
        exact ⟨rfl, by simpa using hheld, p, hloaded, hrule⟩

/-! ## How a transition goes -/

/-- The store in which the lock of the graph file has been opened. -/
def opened (graph : String) (h : Host) (s : Store) : Store :=
  (s.create (lockPath graph) (h.clock 0)).2

/-- How a transition goes: there is no ruling, the log is not added to, the graph is not saved, or
all of it is done. -/
inductive Stage (e : Engine) (graph : String) (q : Request) (h : Host) (s : Store) :
    Except Error AuditRecord × Store → Prop
  | refused {err : Error} (ruling : e.ruling graph q h s = .error err) :
      Stage e graph q h s (.error err, opened graph h s)
  | unlogged {r : Ruling} {fault : FileFault} {t : Store} (ruling : e.ruling graph q h s = .ok r)
      (append : (opened graph h s).append e.auditLog (r.record q (h.clock 0)).line (h.clock 0)
        = (.error fault, t)) : Stage e graph q h s (.error (.file fault), t)
  | unsaved {r : Ruling} {p : Pipeline} {fault : FileFault} {t u : Store}
      (ruling : e.ruling graph q h s = .ok r) (loaded : GraphFile.loaded s graph = .ok p)
      (append : (opened graph h s).append e.auditLog (r.record q (h.clock 0)).line (h.clock 0)
        = (.ok (), t))
      (replace : t.replace graph (p.settle q (h.clock 0) (some r)).bytes (h.clock 0)
        = (.error fault, u)) : Stage e graph q h s (.error (.file fault), u)
  | carriedOut {r : Ruling} {p : Pipeline} {t u : Store}
      (ruling : e.ruling graph q h s = .ok r) (loaded : GraphFile.loaded s graph = .ok p)
      (append : (opened graph h s).append e.auditLog (r.record q (h.clock 0)).line (h.clock 0)
        = (.ok (), t))
      (replace : t.replace graph (p.settle q (h.clock 0) (some r)).bytes (h.clock 0)
        = (.ok (), u)) :
      Stage e graph q h s (r.answer q (h.clock 0), u)

theorem keeps_opened (hgraph : s.Found graph) (h : Host) : s.Keeps graph (opened graph h s) := by
  obtain ⟨bytes, modified, hfind⟩ := hgraph
  refine (s.create_spec (lockPath graph) (h.clock 0)).1.touched.keeps (by simp) ?_
  simpa using s.place_lockPath_ne (Store.find_eq_file.mp hfind).2.2

theorem stage_carryOut {r : Ruling} {held : List (List String)}
    (hr : e.ruling graph q h s = .ok r) (hloaded : GraphFile.loaded s graph = .ok p) :
    Stage e graph q h s ((e.carryOut graph q (r.verdict p q (h.clock 0))).perform
      { h with held := held } (opened graph h s)) := by
  rw [carryOut, Ruling.record_verdict, Ruling.after_verdict, Ruling.answer_verdict,
    AuditLog.append_eq, perform_bind, perform_appendFile]
  rcases happend : (opened graph h s).append e.auditLog (r.record q (h.clock 0)).line (h.clock 0)
    with ⟨fault | ⟨⟩, t⟩
  · exact .unlogged hr happend
  · change Stage e graph q h s (perform (GraphFile.save graph _ >>= fun _ => _) _ t)
    rw [GraphFile.save, bind_assoc, perform_bind, perform_replaceFile]
    have hbytes : (GraphFile.bumped (p.modify q.node (r.step q (h.clock 0)))).render.toUTF8
        = (p.settle q (h.clock 0) (some r)).bytes := rfl
    rw [hbytes]
    rcases hreplace : t.replace graph (p.settle q (h.clock 0) (some r)).bytes (h.clock 0)
      with ⟨fault | ⟨⟩, u⟩
    · exact .unsaved hr hloaded happend hreplace
    · change Stage e graph q h s (perform (Action.ofExcept (r.answer q (h.clock 0))) _ u)
      rw [perform_ofExcept]
      exact .carriedOut hr hloaded happend hreplace

/-- With the lock in hand a transition goes by what the store was before the lock was opened. -/
theorem stage_locked {held : List (List String)}
    (hruling : e.ruling graph q h s
      = GraphFile.loaded s graph >>= fun p => p.rule e.maxRetries s q)
    (hloaded : GraphFile.loaded (opened graph h s) graph = GraphFile.loaded s graph)
    (hrule : ∀ p : Pipeline,
      p.rule e.maxRetries (opened graph h s) q = p.rule e.maxRetries s q) :
    Stage e graph q h s ((e.transitionLocked graph q).perform { h with held := held }
      (opened graph h s)) := by
  rw [perform_transitionLocked, GraphFile.perform_load_eq, hloaded]
  cases hp : GraphFile.loaded s graph with
  | error err => exact .refused (by rw [hruling, hp]; rfl)
  | ok p =>
      rw [hp] at hruling
      dsimp only
      rw [Pipeline.judge_eq, hrule]
      cases hr : p.rule e.maxRetries s q with
      | error err => exact .refused (hruling.trans hr)
      | ok r => exact stage_carryOut (hruling.trans hr) hp

/-- Every transition of a graph file that is there goes in one of these ways, if the evidence is
not the lock file. -/
theorem stage_transition (e : Engine) (q : Request) (h : Host) (hgraph : s.Found graph)
    (hevidence : ∀ path ∈ q.evidence, s.place path ≠ s.place (lockPath graph)) :
    Stage e graph q h s ((e.transition graph q).perform h s) := by
  have hdir : s.isDirectory (Store.holder (lockPath graph)) := by
    obtain ⟨bytes, modified, hfind⟩ := hgraph
    rw [Path.holder_lockPath (Store.find_eq_file.mp hfind).2.2]
    exact Store.isDirectory_holder hfind
  have hloaded := GraphFile.loaded_of_keeps hgraph (keeps_opened hgraph h)
  have hrule : ∀ p : Pipeline, p.rule e.maxRetries (opened graph h s) q
      = p.rule e.maxRetries s q := by
    intro p
    refine Pipeline.rule_eq_of_file? ?_
    intro path hpath
    exact Store.file?_create (hevidence path hpath) (h.clock 0)
  -- The lock file is made before anything else, also where somebody holds the lock.
  rw [transition, withLock, withLockFile, perform_bind, perform_openLock_of_isDirectory hdir,
    s.create_fst]
  cases hsite : s.site (lockPath graph) with
  | error fault =>
      have hruling : e.ruling graph q h s = .error (.file fault) := by
        rw [ruling, hsite]
        rfl
      exact .refused hruling
  | ok place =>
      change Stage e graph q h s (perform (if h.held.contains place then _
        else _) h (opened graph h s))
      by_cases hheld : h.held.contains place
      · rw [if_pos hheld]
        refine .refused ?_
        rw [ruling, hsite]
        change (if h.held.contains place then _ else _ : Except Error Ruling) = _
        rw [if_pos hheld]
        rfl
      · have hruling : e.ruling graph q h s
            = GraphFile.loaded s graph >>= fun p => p.rule e.maxRetries s q :=
          ruling_of_site hsite (Bool.eq_false_iff.mpr hheld)
        rw [if_neg hheld]
        change Stage e graph q h s (perform (e.transitionLocked graph q)
          { h with held := place :: h.held } (opened graph h s))
        exact stage_locked hruling hloaded hrule

/-! ## What a transition leaves -/

theorem append_opened (e : Engine) (graph : String) (h : Host) (s : Store) (bytes : ByteArray)
    (now : Instant) : ((opened graph h s).append e.auditLog bytes now).1 = e.logging graph s :=
  Store.append_eq_of_outline (s.create_outline (lockPath graph) (h.clock 0)) e.auditLog _ _ _ _

theorem logging_of_found (hlock : s.Found (lockPath graph)) (bytes : ByteArray) (now : Instant) :
    e.logging graph s = (s.append e.auditLog bytes now).1 := by
  obtain ⟨_, _, hfind⟩ := hlock
  rw [logging, Store.create_of_find hfind]
  exact Store.append_eq_of_outline rfl e.auditLog _ _ _ _

theorem found_opened (hsite : s.site (lockPath graph) = .ok (s.place (lockPath graph))) (h : Host) :
    (opened graph h s).Found (lockPath graph) := by
  have hfirst := (s.create_fst (lockPath graph) (h.clock 0)).trans hsite
  rw [opened]
  rcases hcreate : s.create (lockPath graph) (h.clock 0) with ⟨place, t⟩
  rw [hcreate] at hfirst
  obtain rfl := hfirst
  exact (Store.found_create hcreate).1

/-- The log can be added to as before, or it cannot as before, for a reason that can only be
another one if its directory was missing. -/
def Relogs (e : Engine) (graph : String) (s t : Store) : Prop :=
  e.logging graph t = e.logging graph s ∨ ¬s.isDirectory (Store.holder e.auditLog) ∧
    ∃ fault fault', e.logging graph s = .error fault ∧ e.logging graph t = .error fault'

/-- The audit log is another file, or at least there is room to save the graph, so that a record
does not stay in the graph file. -/
def Sheltered (e : Engine) (graph : String) (s : Store) : Prop :=
  s.place graph ≠ s.place e.auditLog ∨ saving graph s = .ok ()

/-- What comes of a transition, by the prospect of its request. -/
structure Turn (e : Engine) (graph : String) (q : Request) (h : Host) (s : Store)
    (result : Except Error AuditRecord) (t : Store) : Prop where
  answer : result = (e.prospect graph q h s).answer q (h.clock 0)
  home : t.home = s.home
  found : t.Found graph
  site : t.site (lockPath graph) = s.site (lockPath graph)
  logging : e.Relogs graph s t
  log : s.place graph ≠ s.place e.auditLog →
    t.contents (s.place e.auditLog) = s.contents (s.place e.auditLog) ++
      (Json.logText AuditRecord.toJson
        (records q (h.clock 0) (e.prospect graph q h s).logged)).toUTF8
  kept : (e.prospect graph q h s).saved = none →
    GraphFile.loaded t graph = GraphFile.loaded s graph
  saved : ∀ r, (e.prospect graph q h s).saved = some r → ∃ p, GraphFile.loaded s graph = .ok p ∧
    t.Has graph (some (p.settle q (h.clock 0) (some r)).bytes)

theorem saving_of_home (hhome : t.home = s.home) : saving graph t = saving graph s := by
  rw [saving, saving, Store.draft_eq hhome, Store.origin_eq_of_home hhome]

/-- Replacing a graph file that is there fails only where its draft has no room. -/
theorem replace_of_found (hgraph : t.Found graph) (hhome : t.home = s.home) (bytes : ByteArray)
    (now : Instant) : (t.replace graph bytes now).1 = saving graph s := by
  obtain ⟨_, _, hfind⟩ := hgraph
  rw [← saving_of_home hhome, Store.replace,
    Store.makeDirs_of_isDirectory (Store.isDirectory_holder hfind), saving]
  dsimp only
  rw [Store.landing_of_find hfind]
  cases t.origin (t.draft (Store.holder graph)) <;> rfl

section

variable {bytes : ByteArray} {now : Instant} {r : Except FileFault Unit}

theorem touched_opened (graph : String) (h : Host) (s : Store) :
    Store.Touched [] [s.place (lockPath graph)] s (opened graph h s) :=
  (s.create_spec (lockPath graph) (h.clock 0)).1.touched

theorem found_append (hgraph : s.Found graph)
    (happend : (opened graph h s).append e.auditLog bytes now = (r, t)) :
    t.home = s.home ∧ t.Found graph := by
  have hopen := keeps_opened hgraph h
  have hwrites := (opened graph h s).append_spec e.auditLog bytes now
  rw [happend] at hwrites
  exact ⟨(hwrites.touched []).home.trans hopen.home, hwrites.found (hopen.found hgraph)⟩

theorem keeps_append (hplaces : s.place graph ≠ s.place e.auditLog) (hgraph : s.Found graph)
    (happend : (opened graph h s).append e.auditLog bytes now = (r, t)) : s.Keeps graph t := by
  have hopen := keeps_opened hgraph h
  have hwrites := (opened graph h s).append_spec e.auditLog bytes now
  rw [happend] at hwrites
  refine hopen.trans ((hwrites.touched []).keeps ?_ (by simp))
  rw [Store.place_eq hopen.home, Store.place_eq hopen.home]
  simpa using hplaces

theorem lock_append (hsite : s.site (lockPath graph) = .ok (s.place (lockPath graph)))
    (happend : (opened graph h s).append e.auditLog bytes now = (r, t)) :
    t.Found (lockPath graph) := by
  have hfound := ((opened graph h s).append_spec e.auditLog bytes now).found (found_opened hsite h)
  rwa [happend] at hfound

theorem contents_append (happend : (opened graph h s).append e.auditLog bytes now = (r, t)) :
    t.contents (s.place e.auditLog) = s.contents (s.place e.auditLog) ++
      (match r with
        | .ok _ => bytes
        | .error _ => .empty) := by
  have hopen := touched_opened graph h s
  have hwrites := (opened graph h s).append_spec e.auditLog bytes now
  rw [happend, Store.place_eq hopen.home, hopen.contents (by simp)] at hwrites
  cases r with
  | ok _ => exact ((hwrites []).1 rfl).contents_of_mem (List.mem_singleton.mpr rfl)
  | error fault =>
      rw [((hwrites []).2 fault rfl).contents (by simp), hopen.contents (by simp)]
      exact ByteArray.append_empty.symm

end

theorem site_of_found (hhome : t.home = s.home) (hlock : t.Found (lockPath graph))
    (hsite : s.site (lockPath graph) = .ok (s.place (lockPath graph))) :
    t.site (lockPath graph) = s.site (lockPath graph) := by
  obtain ⟨_, _, hfind⟩ := hlock
  rw [Store.site_of_find hfind, Store.place_eq hhome, hsite]

theorem turn_refused {err : Error} (hgraph : s.Found graph)
    (hruling : e.ruling graph q h s = .error err) :
    Turn e graph q h s (.error err) (opened graph h s) := by
  have hopen := touched_opened graph h s
  have hlogged : (e.prospect graph q h s).logged = none := by
    rw [prospect, hruling, Prospect.logged_refused]
  have hsaved := Prospect.saved_of_logged hlogged
  have hlock : opened graph h s = s ∨ s.site (lockPath graph) = .ok (s.place (lockPath graph)) := by
    cases hsite : s.site (lockPath graph) with
    | error fault =>
        have hcreate : s.create (lockPath graph) (h.clock 0) = (.error fault, s) := by
          simp only [Store.create, hsite]
        exact .inl (congrArg Prod.snd hcreate)
    | ok place =>
        exact .inr (by rw [Store.place_of_site hsite])
  have hkeeps := keeps_opened hgraph h
  refine ⟨?_, hkeeps.home, hkeeps.found hgraph, ?_, .inl ?_, ?_, fun _ =>
    GraphFile.loaded_of_keeps hgraph hkeeps, fun r hr => ?_⟩
  · rw [prospect, hruling, Prospect.answer_refused]
  · rcases hlock with hsame | hsite
    · rw [hsame]
    · exact site_of_found hopen.home (found_opened hsite h) hsite
  · rcases hlock with hsame | hsite
    · rw [hsame]
    · rw [logging_of_found (found_opened hsite h) .empty default, append_opened]
  · intro _
    rw [hlogged, hopen.contents (by simp)]
    exact ByteArray.append_empty.symm
  · rw [hsaved] at hr
    cases hr

theorem turn_unlogged {r : Ruling} {fault : FileFault} (hgraph : s.Found graph)
    (hruling : e.ruling graph q h s = .ok r)
    (happend : (opened graph h s).append e.auditLog (r.record q (h.clock 0)).line (h.clock 0)
      = (.error fault, t)) : Turn e graph q h s (.error (.file fault)) t := by
  have hopen := touched_opened graph h s
  obtain ⟨hsite, -⟩ := ruling_eq_ok hruling
  have hlogging : e.logging graph s = .error fault := by rw [← append_opened, happend]
  have hlogged : (e.prospect graph q h s).logged = none := by
    rw [prospect, hlogging, Prospect.logged_unlogged]
  have hsaved := Prospect.saved_of_logged hlogged
  have hkeeps : s.Keeps graph t := by
    have hwrites :=
      (opened graph h s).append_spec e.auditLog (r.record q (h.clock 0)).line (h.clock 0)
    rw [happend] at hwrites
    exact (keeps_opened hgraph h).trans (hwrites.keeps rfl)
  have hlock := lock_append hsite happend
  refine ⟨?_, hkeeps.home, hkeeps.found hgraph, site_of_found hkeeps.home hlock hsite, ?_, ?_,
    fun _ =>
    GraphFile.loaded_of_keeps hgraph hkeeps, fun r hr => ?_⟩
  · rw [prospect, hruling, hlogging, Prospect.answer_unlogged]
  · obtain ⟨fault', hagain, hsame⟩ := Store.append_again happend .empty default
    rw [← logging_of_found hlock] at hagain
    by_cases hdir : s.isDirectory (Store.holder e.auditLog)
    · have hdir' : (opened graph h s).isDirectory (Store.holder e.auditLog) :=
        (s.create_spec (lockPath graph) (h.clock 0)).1.isDirectory hdir
      exact .inl (by rw [hagain, hlogging, hsame hdir'])
    · exact .inr ⟨hdir, fault, fault', hlogging, hagain⟩
  · intro _
    rw [hlogged, contents_append happend]
    rfl
  · rw [hsaved] at hr
    cases hr

theorem turn_logged {r : Ruling} {u : Store} {result : Except FileFault Unit}
    (hgraph : s.Found graph) (hshelter : e.Sheltered graph s)
    (hruling : e.ruling graph q h s = .ok r) (hloaded : GraphFile.loaded s graph = .ok p)
    (happend : (opened graph h s).append e.auditLog (r.record q (h.clock 0)).line (h.clock 0)
      = (.ok (), t))
    (hreplace : t.replace graph (p.settle q (h.clock 0) (some r)).bytes (h.clock 0) = (result, u)) :
    Turn e graph q h s (result.mapError .file >>= fun _ => r.answer q (h.clock 0)) u := by
  have hopen := touched_opened graph h s
  obtain ⟨hsite, -⟩ := ruling_eq_ok hruling
  have hlogging : e.logging graph s = .ok () := by rw [← append_opened, happend]
  have hlogged : (e.prospect graph q h s).logged = some r := by
    rw [prospect, hruling, hlogging, Prospect.logged_logged]
  obtain ⟨hhome, hfound⟩ := found_append hgraph happend
  have hsaving : saving graph s = result := by
    rw [← replace_of_found hfound hhome, hreplace]
  have hwrites := t.replace_spec graph (p.settle q (h.clock 0) (some r)).bytes (h.clock 0)
  have hfind := @Store.find_replace t graph (p.settle q (h.clock 0) (some r)).bytes (h.clock 0)
  rw [hreplace] at hwrites hfind
  have htouched := hwrites.touched []
  have hlock : u.Found (lockPath graph) := hwrites.found (lock_append hsite happend)
  have hlog : u.Found e.auditLog := by
    have hfound :=
      (opened graph h s).find_append e.auditLog (r.record q (h.clock 0)).line (h.clock 0)
    rw [happend] at hfound
    exact hwrites.found (hfound rfl)
  have hhome' : u.home = s.home := htouched.home.trans hhome
  refine ⟨?_, hhome', hwrites.found hfound, site_of_found hhome' hlock hsite, .inl ?_,
    fun hplaces => ?_, fun hnone => ?_, fun r' hr' => ?_⟩
  · rw [prospect, hruling, hlogging, hsaving]
    cases result <;> rfl
  · obtain ⟨_, _, hfindLog⟩ := hlog
    rw [hlogging, logging_of_found hlock .empty default, Store.canAppend_of_find hfindLog]
  · have hother : s.place e.auditLog ∉ [t.place graph] := by
      rw [Store.place_eq hhome]
      simpa using hplaces.symm
    rw [hlogged, htouched.contents hother, contents_append happend, records, Option.map_some,
      Option.toList_some, Json.logText_singleton]
    rfl
  · rw [Prospect.saved, hlogged] at hnone
    cases result with
    | ok _ =>
        rw [prospect, hsaving] at hnone
        cases hnone
    | error fault =>
        have hplaces : s.place graph ≠ s.place e.auditLog := by
          refine hshelter.resolve_right ?_
          rw [hsaving]
          nofun
        have hkeeps := keeps_append hplaces hgraph happend
        exact GraphFile.loaded_of_keeps hgraph (hkeeps.trans (hwrites.keeps rfl))
  · rw [Prospect.saved, hlogged] at hr'
    cases result with
    | error fault =>
        rw [prospect, hsaving] at hr'
        cases hr'
    | ok _ =>
        rw [prospect, hsaving] at hr'
        obtain rfl := Option.some.inj hr'
        exact ⟨p, hloaded, _, hfind rfl⟩

theorem turn (e : Engine) (q : Request) (h : Host) (hgraph : s.Found graph)
    (hshelter : e.Sheltered graph s)
    (hevidence : ∀ path ∈ q.evidence, s.place path ≠ s.place (lockPath graph)) :
    Turn e graph q h s ((e.transition graph q).perform h s).1
      ((e.transition graph q).perform h s).2 := by
  have hstage := stage_transition e q h hgraph hevidence
  generalize (e.transition graph q).perform h s = result at hstage ⊢
  cases hstage with
  | refused hruling =>
      dsimp only
      exact turn_refused hgraph hruling
  | unlogged hruling happend => exact turn_unlogged hgraph hruling happend
  | unsaved hruling hloaded happend hreplace =>
      exact turn_logged hgraph hshelter hruling hloaded happend hreplace
  | carriedOut hruling hloaded happend hreplace =>
      exact turn_logged hgraph hshelter hruling hloaded happend hreplace

/-! ## What stays as it was for another request -/

theorem Prospect.saved_eq_some {x : Prospect} {r : Ruling} (hsaved : x.saved = some r) :
    x.ruling = .ok r ∧ x.logging = .ok () ∧ x.saving = .ok () := by
  obtain ⟨ruling, logging, saving⟩ := x
  rcases ruling with err | r' <;> rcases logging with fault | ⟨⟩ <;> rcases saving with
    fault' | ⟨⟩ <;>
    cases hsaved
  exact ⟨rfl, rfl, rfl⟩

variable {r : Except Error AuditRecord}

/-- The graph file bears the pipeline that was saved, or the one that it bore before. -/
theorem Turn.becomes (hturn : Turn e graph q h s r t) (hloaded : GraphFile.loaded s graph = .ok p)
    (hplain : p.Plain) (hseq : p.checkpointSeq.toNat + 1 < 2 ^ 63) :
    ∃ p', GraphFile.loaded t graph = .ok p' ∧
      Pipeline.Becomes q (h.clock 0) (e.prospect graph q h s).saved p p' ∧ p'.Plain ∧
      p'.checkpointSeq.toNat ≤ p.checkpointSeq.toNat + 1 := by
  cases hsaved : (e.prospect graph q h s).saved with
  | none => exact ⟨p, (hturn.kept hsaved).trans hloaded, .kept p, hplain, Nat.le_succ _⟩
  | some v =>
      obtain ⟨p₀, hp₀, hhas⟩ := hturn.saved v hsaved
      obtain rfl := Except.ok.inj (hloaded.symm.trans hp₀)
      obtain ⟨-, -, p₁, hp₁, hrule⟩ := ruling_eq_ok (Prospect.saved_eq_some hsaved).1
      obtain rfl := Except.ok.inj (hloaded.symm.trans hp₁)
      have hjudge : p.judge e.maxRetries s (h.clock 0) q = .ok (v.verdict p q (h.clock 0)) := by
        rw [Pipeline.judge_eq, hrule]
        rfl
      have hafter : GraphFile.bumped (v.verdict p q (h.clock 0)).after
          = p.settle q (h.clock 0) (some v) := by
        rw [Ruling.after_verdict]
        rfl
      rw [← hafter] at hhas
      obtain ⟨p', hbears, hplain', hread, hnum⟩ :=
        (GraphFile.loaded_eq_ok.mp hloaded).rewritten hplain hjudge hhas hseq
      rw [hafter] at hread
      exact ⟨p', GraphFile.loaded_eq_ok.mpr hbears, .saved v hread, hplain', hnum.le⟩

/-- The ruling on a request about another node is the same afterwards. -/
theorem Turn.ruling {h' later : Host} (hturn : Turn e graph q h s r t) (hne : q'.node ≠ q.node)
    (hheld : later.held = h'.held) (hevidence : ∀ path ∈ q'.evidence, t.file? path = s.file? path)
    (hplain : ∀ p, GraphFile.loaded s graph = .ok p →
      p.Plain ∧ p.checkpointSeq.toNat + 1 < 2 ^ 63) :
    e.ruling graph q' later t = e.ruling graph q' h' s := by
  have hfile : ∀ p : Pipeline, p.rule e.maxRetries t q' = p.rule e.maxRetries s q' :=
    fun p => Pipeline.rule_eq_of_file? hevidence
  have hrule : (GraphFile.loaded t graph >>= fun p => p.rule e.maxRetries t q')
      = GraphFile.loaded s graph >>= fun p => p.rule e.maxRetries s q' := by
    simp only [hfile]
    cases hsaved : (e.prospect graph q h s).saved with
    | none => rw [hturn.kept hsaved]
    | some v =>
        obtain ⟨-, -, p, hp, hv⟩ := ruling_eq_ok (Prospect.saved_eq_some hsaved).1
        obtain ⟨p', hp', hread, -⟩ := hturn.becomes hp (hplain p hp).1 (hplain p hp).2
        rw [hsaved] at hread
        cases hread with
        | saved _ hread =>
            rw [hp, hp']
            exact Pipeline.rule_of_step hv hread hne
  simp only [Engine.ruling, hturn.site, hheld, hrule]

end Engine

end Pipewright
