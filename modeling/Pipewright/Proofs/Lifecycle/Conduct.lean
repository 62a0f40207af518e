import Pipewright.Proofs.Lifecycle.Prospects
import Pipewright.Proofs.Store.Making

/-!
# Calls and their conduct

What a transition leaves of the graph file and the audit log, and where it is carried out as a
whole or not at all.
-/

/-!
## Calls on a graph file

What a transition does to a graph file that bears a pipeline, whatever else is
known or not known: the request is not judged, or its record cannot be added to
the audit log, and all stays as it was; or the record is added and there is no
room to save the graph; or the verdict is carried out (`Conduct`). The verdict
is the one on the store in which the lock file has been opened, and whether there
is room is the same before and after all calls.
-/

namespace Pipewright

open Pipeline (Node Ruling Verdict)
open Pipewright.Action

theorem GraphFile.Bears.found {s : Store} {path : String} {p : Pipeline} (h : Bears s path p) :
    s.Found path := by
  obtain ⟨_, _, hhas, -⟩ := h
  exact hhas.found

namespace Engine

variable {e : Engine} {graph : String} {q : Request} {h : Host} {s t u : Store} {p : Pipeline}

/-- How a transition goes on a graph file that bears a pipeline. -/
inductive Conduct (e : Engine) (graph : String) (q : Request) (h : Host) (s : Store)
    (p : Pipeline) : Except Error AuditRecord × Store → Prop
  | refused {err : Error} {t : Store} (spared : err.isExhausted = false) (kept : s.Keeps graph t)
      (log : t.contents (t.place e.auditLog) = s.contents (s.place e.auditLog)) :
      Conduct e graph q h s p (.error err, t)
  | unsaved {v : Verdict} {fault : FileFault} {t : Store}
      (judged : p.judge e.maxRetries (opened graph h s) (h.clock 0) q = .ok v)
      (full : saving graph s = .error fault) (kept : s.Keeps graph t)
      (log : t.contents (t.place e.auditLog) = s.contents (s.place e.auditLog) ++ v.record.line) :
      Conduct e graph q h s p (.error (.file fault), t)
  | carriedOut {v : Verdict} {t : Store}
      (judged : p.judge e.maxRetries (opened graph h s) (h.clock 0) q = .ok v)
      (room : saving graph s = .ok ())
      (saved : t.Has graph (some (GraphFile.bumped v.after).bytes))
      (log : s.place graph ≠ s.place e.auditLog →
        t.contents (t.place e.auditLog) = s.contents (s.place e.auditLog) ++ v.record.line) :
      Conduct e graph q h s p (v.answer q, t)

/-- A transition is what its verdict says, if the lock can be had and there is a verdict. -/
theorem perform_transition (hbears : GraphFile.Bears s graph p) (e : Engine) (q : Request)
    (h : Host) :
    (∃ err, (e.transition graph q).perform h s = (.error err, opened graph h s) ∧
      err.isExhausted = false) ∨
    ∃ v held, p.judge e.maxRetries (opened graph h s) (h.clock 0) q = .ok v ∧
      (e.transition graph q).perform h s
        = (e.carryOut graph q v).perform { h with held := held } (opened graph h s) := by
  obtain ⟨bytes, text, ⟨modified, hfind⟩, hutf, hparse⟩ := hbears
  have hdir : s.isDirectory (Store.holder (lockPath graph)) := by
    rw [Path.holder_lockPath (Store.find_eq_file.mp hfind).2.2]
    exact Store.isDirectory_holder hfind
  obtain ⟨modified', hfind'⟩ := (keeps_opened ⟨_, _, hfind⟩ h).has (some bytes) ⟨_, hfind⟩
  rw [transition, withLock, withLockFile, perform_bind, perform_openLock_of_isDirectory hdir,
    s.create_fst]
  cases s.site (lockPath graph) with
  | error fault => exact .inl ⟨.file fault, rfl, rfl⟩
  | ok place =>
      change (∃ err, (if h.held.contains place then _
        else _ : Action _).perform h (opened graph h s)
        = _ ∧ _) ∨ ∃ v held, _ ∧ (if h.held.contains place then _ else _ : Action _).perform h
          (opened graph h s) = _
      split
      · exact .inl ⟨_, rfl, rfl⟩
      · have hlocked : (withReader (fun h => { h with held := place :: h.held })
            (e.transitionLocked graph q)).perform h (opened graph h s)
            = (e.transitionLocked graph q).perform { h with held := place :: h.held }
              (opened graph h s) := rfl
        rw [hlocked, perform_transitionLocked,
          GraphFile.perform_load_of_find hfind' hutf hparse]
        dsimp only
        cases hjudge : p.judge e.maxRetries (opened graph h s) (h.clock 0) q with
        | error err => exact .inl ⟨err, rfl, Pipeline.spares_judge _ _ _ _ _ err hjudge⟩
        | ok v => exact .inr ⟨v, place :: h.held, rfl, rfl⟩

/-- A verdict is carried out, or its record cannot be added, or there is no room to save. -/
theorem conduct_carryOut {v : Verdict} {held : List (List String)}
    (hbears : GraphFile.Bears s graph p) (hshelter : e.Sheltered graph s)
    (hjudge : p.judge e.maxRetries (opened graph h s) (h.clock 0) q = .ok v) :
    Conduct e graph q h s p ((e.carryOut graph q v).perform { h with held := held }
      (opened graph h s)) := by
  have hgraph : s.Found graph := hbears.found
  have hopen := keeps_opened hgraph h
  rw [carryOut, AuditLog.append_eq, perform_bind, perform_appendFile]
  rcases happend : (opened graph h s).append e.auditLog v.record.line (h.clock 0)
    with ⟨fault | ⟨⟩, t⟩
  · have hwrites := (opened graph h s).append_spec e.auditLog v.record.line (h.clock 0)
    have hlog := contents_append happend
    rw [happend] at hwrites
    have hkeeps := hopen.trans (hwrites.keeps rfl)
    refine .refused rfl hkeeps ?_
    rw [Store.place_eq hkeeps.home, hlog]
    exact ByteArray.append_empty
  · obtain ⟨hhome, hfound⟩ := found_append hgraph happend
    have hlog := contents_append happend
    change Conduct e graph q h s p (perform (GraphFile.save graph _ >>= fun _ => _) _ t)
    rw [GraphFile.save, bind_assoc, perform_bind, perform_replaceFile]
    have hroom := replace_of_found hfound hhome (GraphFile.bumped v.after).bytes (h.clock 0)
    have hwrites := t.replace_spec graph (GraphFile.bumped v.after).bytes (h.clock 0)
    have hfind := @Store.find_replace t graph (GraphFile.bumped v.after).bytes (h.clock 0)
    have hothers : s.place graph ≠ s.place e.auditLog →
        ((t.replace graph (GraphFile.bumped v.after).bytes (h.clock 0)).2).contents
          (s.place e.auditLog) = t.contents (s.place e.auditLog) := by
      intro hplaces
      refine (hwrites.touched []).contents ?_
      rw [Store.place_eq hhome]
      simpa using hplaces.symm
    have hhome' := (hwrites.touched []).home.trans hhome
    rw [Pipeline.bytes] at hroom hwrites hfind hothers hhome'
    rcases hreplace : t.replace graph (GraphFile.bumped v.after).render.toUTF8 (h.clock 0)
      with ⟨fault | ⟨⟩, u⟩
    · rw [hreplace] at hroom hwrites hothers hhome'
      -- There was no room to save, so the log is another file, and the record stays in it.
      have hplaces : s.place graph ≠ s.place e.auditLog := by
        refine hshelter.resolve_right ?_
        rw [← hroom]
        intro hok
        cases hok
      refine .unsaved hjudge hroom.symm
        ((keeps_append hplaces hgraph happend).trans (hwrites.keeps rfl)) ?_
      rw [Store.place_eq hhome', hothers hplaces, hlog]
    · rw [hreplace] at hroom hfind hothers hhome'
      change Conduct e graph q h s p (perform (Action.ofExcept (v.answer q)) _ u)
      rw [perform_ofExcept]
      refine .carriedOut hjudge hroom.symm ⟨_, hfind rfl⟩ fun hplaces => ?_
      rw [Store.place_eq hhome', hothers hplaces, hlog]

theorem conduct (hbears : GraphFile.Bears s graph p) (hshelter : e.Sheltered graph s) (q : Request)
    (h : Host) : Conduct e graph q h s p ((e.transition graph q).perform h s) := by
  rcases perform_transition hbears e q h with ⟨err, hperform, hspared⟩ | ⟨v, held, hjudge, hperform⟩
  · rw [hperform]
    exact .refused hspared (keeps_opened hbears.found h)
      (contents_of_touched (touched_opened graph h s) (by simp))
  · rw [hperform]
    exact conduct_carryOut hbears hshelter hjudge

end Engine

end Pipewright

/-!
## Transitions as a whole

Where there is room to save the graph a transition is carried out as a whole or
not at all: its record is added to the audit log and the graph is saved, or no
file is written (`Whole`). A transition that is carried out makes no directory
if that of the audit log is there.
-/

namespace Pipewright

open Pipeline (Verdict)

namespace Engine

variable {e : Engine} {graph : String} {q : Request} {h : Host} {s t : Store} {p : Pipeline}

/-- How a transition goes that is carried out as a whole or not at all. -/
inductive Whole (e : Engine) (graph : String) (q : Request) (h : Host) (s : Store) (p : Pipeline) :
    Except Error AuditRecord × Store → Prop
  | refused {err : Error} {t : Store}
      (touched : Store.Touched [] [s.place (lockPath graph)] s t) :
      Whole e graph q h s p (.error err, t)
  | carriedOut {v : Verdict} {t : Store}
      (judged : p.judge e.maxRetries (opened graph h s) (h.clock 0) q = .ok v)
      (touched : Store.Touched [s.place graph, s.place e.auditLog] [s.place (lockPath graph)] s t)
      (saved : t.Has graph (some (GraphFile.bumped v.after).bytes))
      (logged : t.bytes? e.auditLog
        = some ((s.bytes? e.auditLog).getD .empty ++ v.record.line))
      (directory : s.isDirectory (Store.holder e.auditLog) → ∀ place,
        t.at? place = some .directory → s.at? place = some .directory) :
      Whole e graph q h s p (v.answer q, t)

/-- A graph file that is found can be replaced where there is room for its draft. -/
theorem canReplace_of_saving (hgraph : s.Found graph) (hroom : saving graph s = .ok ()) :
    s.CanReplace graph := by
  intro bytes now
  rw [replace_of_found hgraph rfl, hroom]

theorem whole (hbears : GraphFile.Bears s graph p) (hroom : saving graph s = .ok ())
    (hplaces : s.place graph ≠ s.place e.auditLog) (q : Request) (h : Host) :
    Whole e graph q h s p ((e.transition graph q).perform h s) := by
  have hgraph := hbears.found
  have hgrown : Store.Grown False (s.place (lockPath graph)) s (opened graph h s) :=
    (s.create_spec (lockPath graph) (h.clock 0)).1
  rcases perform_transition hbears e q h with ⟨err, hperform, -⟩ | ⟨v, held, hjudge, hperform⟩
  · rw [hperform]
    exact .refused (touched_opened graph h s)
  · have hfound := (keeps_opened hgraph h).found hgraph
    have hcan : (opened graph h s).CanReplace graph :=
      canReplace_of_saving hfound ((saving_of_home hgrown.home).trans hroom)
    have hplace : (opened graph h s).place = s.place := funext (Store.place_eq hgrown.home)
    have hplaces' : (opened graph h s).place graph ≠ (opened graph h s).place e.auditLog := by
      rwa [hplace]
    have hlog : (opened graph h s).contents (s.place e.auditLog)
        = s.contents (s.place e.auditLog) :=
      hgrown.contents (by simp)
    obtain ⟨bytes, modified, hfind⟩ := hfound
    rw [hperform]
    rcases perform_carryOut (q := q) v { h with held := held } (s.place (lockPath graph)) hplaces'
      hfind hcan with ⟨fault, t, hcarried, hgrown', -⟩ | ⟨t, hcarried, hwritten, hfound', -⟩
    · rw [hcarried]
      exact .refused ((touched_opened graph h s).trans hgrown'.touched)
    · rw [hcarried]
      rw [hplace, hlog, Store.contents_place] at hwritten
      have htouched :
          Store.Touched [s.place graph, s.place e.auditLog] [s.place (lockPath graph)] s t :=
        ((touched_opened graph h s).mono (by simp) (by simp)).trans hwritten.touched
      rw [← hplace] at hwritten
      have hlogged := hwritten.bytes?_of_mem (List.mem_cons_of_mem _ (List.mem_singleton.mpr rfl))
      have hsaved : t.Has graph (some (GraphFile.bumped v.after).bytes) := by
        obtain ⟨bytes', modified', hfind'⟩ := hfound'
        have hbytes := hwritten.bytes?_of_mem (List.mem_cons_self ..)
        rw [Store.bytes?_of_at? (Store.find_eq_file.mp hfind').2.1] at hbytes
        exact ⟨modified', Option.some.inj hbytes ▸ hfind'⟩
      refine .carriedOut hjudge htouched hsaved hlogged fun hdir place hnew => ?_
      refine hgrown.directory_before (Store.Written.directory_before (hwritten.mono ?_) hnew)
      exact fun hno => hno (hgrown.isDirectory hdir)

end Engine

end Pipewright
