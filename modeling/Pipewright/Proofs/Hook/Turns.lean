import Pipewright.Hook.Rack
import Pipewright.Proofs.Engine.RecordFiles
import Pipewright.Proofs.Json.Layout

/-!
# Calls and runs of a rack

What each call of a rack does to the hooks, and what a run of calls keeps.
-/

/-!
## What the calls of a rack do

A store shows the hooks that hang in a rack, each under its key
(`Rack.Shows`). A call changes the hooks it is given the keys of, or it is
refused and changes none; for each kind of call there is one lemma that says so.

Going on with the work of another worker is cut in two, since the process may
stop between its two writes: `resumeHalfway` is the call up to there. What the
first write leaves is said by `Sown`. The second write then succeeds, because a
hook that hangs in a rack has been written and can be written again.
-/

namespace Pipewright

open Pipewright.Action

theorem Phase.ofName?_name (p : Phase) : Phase.ofName? p.name = some p := by
  cases p <;> decide

namespace Hook

theorem logged : Json.Logged toJson ofDocument? where
  exact := by
    intro h
    cases hinstructions : h.instructions <;> cases hconsumed : h.consumedBy <;>
      cases hinherited : h.inheritedFrom <;>
        simp [toJson, hinstructions, hconsumed, hinherited, Json.ofText?, Json.isExact,
          Json.haveExact]
  object := fun h => ⟨_, rfl⟩
  reread := by
    intro h
    obtain ⟨identity, phase, summary, checkpoint, instructions, consumedBy, inheritedFrom⟩ := h
    have hfields := fun fields => @Json.recordFields_document fieldNames fields
    rw [toJson, ofDocument?, hfields _ rfl (by decide)]
    simp [Json.document, Json.required, Json.asText, Json.asWord, Phase.ofName?_name,
      Json.optionalField_ofText?]

end Hook

namespace Rack

variable {r : Rack} {s t u : Store} {f g : String → Option Hook} {id p q : String} {h : Host}

/-- The store shows the hooks, each under its key. -/
abbrev Shows (r : Rack) (s : Store) (f : String → Option Hook) : Prop :=
  s.Records Hook.ofDocument? r.dir f

/-- The lock file of the hook with a key. -/
def lock (r : Rack) (id : String) : String := lockPath (recordFile r.dir id)

/-- What is done under the locks of two hooks, given the paths of their files. -/
def withLocks {α : Type} (r : Rack) (p q : String) (body : String → String → Action α) :
    Action α := do
  let path ← r.path p
  let path' ← r.path q
  Action.withLock path r.lockPolicy do
    Action.withLock path' r.lockPolicy do
      body path path'

/-- The call of `resume`, up to where the predecessor's hook would be written. -/
def resumeHalfway (r : Rack) (predecessor successor : String) : Action Hook :=
  r.withLocks predecessor successor (seed predecessor successor)

/-- Going on is the first write and the second one, under the locks of both hooks. -/
theorem resume_eq (r : Rack) (p q : String) :
    r.resume p q = r.withLocks p q fun path path' => do
      let before ← seed p q path path'
      consume before q path
      return before.brief := rfl

/-! ### Locks -/

/-- What is to be done under the lock of a hook is not begun, or it is done where the hooks are
what they were. -/
theorem Shows.withLock_cases (hs : r.Shows s f) (hkey : isFileKey id) (h : Host) :
    (∃ err t, r.Shows t f ∧ Store.Touched [] [s.place (r.lock id)] s t ∧
      ∀ {β : Type} (body : Action β),
        (withLock (recordFile r.dir id) r.lockPolicy body).perform h s = (.error err, t)) ∨
    ∃ u, r.Shows u f ∧ Store.Touched [] [s.place (r.lock id)] s u ∧ u.Found (r.lock id) ∧
      h.held.contains (u.place (r.lock id)) = false ∧ ∀ {β : Type} (body : Action β),
        (withLock (recordFile r.dir id) r.lockPolicy body).perform h s
          = body.perform { h with held := u.place (r.lock id) :: h.held } u :=
  hs.withLockFile_cases (fun _ hother => Store.place_recordFile_ne_lockPath hother hkey)
    r.lockPolicy h

/-- What is to be done under a lock that is there and free is done. -/
theorem perform_withLock_of_free {α : Type} (hfound : s.Found (r.lock id))
    (hfree : s.place (r.lock id) ∉ h.held) (body : Action α) :
    (withLock (recordFile r.dir id) r.lockPolicy body).perform h s
      = body.perform { h with held := s.place (r.lock id) :: h.held } s :=
  perform_withLock hfound (by simpa [lock] using hfree) r.lockPolicy body

/-! ### Calls on one hook -/

/-- A new hook is hung up, or the call is refused. -/
theorem Shows.perform_create (hs : r.Shows s f) (id : String) (phase : Phase) (h : Host) :
    (∃ err t, (r.create id phase).perform h s = (.error err, t) ∧ r.Shows t f) ∨
    ∃ t, isFileKey id ∧ f id = none ∧
      (r.create id phase).perform h s
        = (.ok ⟨id, phase, "", (h.clock 0).stamp, none, none, none⟩, t) ∧
      r.Shows t (Function.update f id
        (some ⟨id, phase, "", (h.clock 0).stamp, none, none, none⟩)) := by
  rw [create, path, perform_recordPath_bind]
  by_cases hkey : isFileKey id
  · rw [if_pos hkey]
    rcases hs.withLock_cases hkey h with ⟨err, t, ht, -, hperform⟩ | ⟨u, hu, -, -, -, hperform⟩
    · exact .inl ⟨err, t, hperform _, ht⟩
    · rw [hperform, perform_bind, perform_get]
      dsimp only
      by_cases hexists : u.exists? (recordFile r.dir id)
      · rw [if_pos hexists]
        exact .inl ⟨_, u, rfl, hu⟩
      · rw [if_neg hexists]
        have hnew : f id = none := by
          cases hf : f id with
          | none => rfl
          | some hook =>
              obtain ⟨bytes, modified, hfind⟩ := hu.found hf
              rw [Store.exists?, hfind] at hexists
              exact absurd rfl hexists
        rw [perform_bind, perform_now]
        dsimp only
        rw [perform_bind]
        rcases hu.perform_write Hook.logged hkey
          ⟨id, phase, "", (h.clock 0).stamp, none, none, none⟩ { h with held := _ } with
          ⟨t, hwrite, ht, -⟩ | ⟨err, t, hwrite, -, ht, -⟩
        · rw [hwrite]
          exact .inr ⟨t, hkey, hnew, rfl, ht⟩
        · rw [hwrite]
          exact .inl ⟨err, t, rfl, ht⟩
  · rw [if_neg hkey]
    exact .inl ⟨_, s, rfl, hs⟩

theorem Shows.perform_update (hs : r.Shows s f) (id : String) (phase : Phase) (summary : String)
    (instructions : Option String) (h : Host) :
    (∃ err t, (r.update id phase summary instructions).perform h s = (.error err, t) ∧
      r.Shows t f) ∨
    ∃ hook t, f id = some hook ∧
      (r.update id phase summary instructions).perform h s
        = (.ok { hook with
            phase, workSummary := summary, lastCheckpointAt := (h.clock 0).stamp,
            instructions := instructions <|> hook.instructions }, t) ∧
      r.Shows t (Function.update f id (some { hook with
        phase, workSummary := summary, lastCheckpointAt := (h.clock 0).stamp,
        instructions := instructions <|> hook.instructions })) := by
  rw [Rack.update, path, perform_recordPath_bind]
  by_cases hkey : isFileKey id
  · rw [if_pos hkey]
    rcases hs.withLock_cases hkey h with ⟨err, t, ht, -, hperform⟩ | ⟨u, hu, -, -, -, hperform⟩
    · exact .inl ⟨err, t, hperform _, ht⟩
    · rw [hperform, perform_bind, readFile?]
      rcases readRecord?_spec (hu.holds id hkey) { h with held := _ } with
        hread | ⟨-, err, hread⟩ <;> rw [hread]
      · cases hf : f id with
        | none => exact .inl ⟨_, u, rfl, hu⟩
        | some hook =>
            dsimp only
            rw [perform_bind, perform_now]
            dsimp only
            rw [perform_bind]
            rcases hu.perform_write Hook.logged hkey { hook with
                phase, workSummary := summary, lastCheckpointAt := (h.clock 0).stamp,
                instructions := instructions <|> hook.instructions } { h with held := _ } with
              ⟨t, hwrite, ht, -⟩ | ⟨err, t, hwrite, -, ht, -⟩
            · rw [hwrite]
              exact .inr ⟨hook, t, rfl, rfl, ht⟩
            · rw [hwrite]
              exact .inl ⟨err, t, rfl, ht⟩
      · exact .inl ⟨err, u, rfl, hu⟩
  · rw [if_neg hkey]
    exact .inl ⟨_, s, rfl, hs⟩

/-! ### Going on -/

/-- What the first write leaves: the hook of the successor is new, or it was written before. -/
inductive Sown (p q : String) (before : Hook) (now : Instant) (f : String → Option Hook) :
    (String → Option Hook) → Prop
  | fresh (new : f q = none) :
      Sown p q before now f (Function.update f q (some (seeded before p q now)))
  | again {hook : Hook} (old : f q = some hook) (inherits : hook.inheritedFrom = some p) :
      Sown p q before now f f

/-- After the first write there is a hook of the successor, which inherits. -/
theorem Sown.successor {before : Hook} {now : Instant} (h : Sown p q before now f g) :
    ∃ hook, g q = some hook ∧ hook.inheritedFrom = some p := by
  cases h with
  | fresh new => exact ⟨_, Function.update_self .., rfl⟩
  | again old inherits => exact ⟨_, old, inherits⟩

theorem Sown.of_ne {before : Hook} {now : Instant} (h : Sown p q before now f g) (hne : id ≠ q) :
    g id = f id := by
  cases h with
  | fresh new => exact Function.update_of_ne hne ..
  | again old inherits => rfl

/-- The first write is made where the predecessor's work has not been gone on with, and the hook
of the successor is new or comes from this predecessor; or nothing is written. -/
theorem Shows.perform_seed (hs : r.Shows s f) (hp : isFileKey p) (hq : isFileKey q) (h : Host) :
    (∃ err t, (seed p q (recordFile r.dir p) (recordFile r.dir q)).perform h s = (.error err, t) ∧
      r.Shows t f) ∨
    ∃ before g t, f p = some before ∧ before.consumedBy = none ∧ Sown p q before (h.clock 0) f g ∧
      (seed p q (recordFile r.dir p) (recordFile r.dir q)).perform h s = (.ok before, t) ∧
      r.Shows t g ∧ Store.Touched [s.place (recordFile r.dir q)] [] s t := by
  rw [seed, perform_bind, readFile?]
  rcases readRecord?_spec (hs.holds p hp) h with hread | ⟨-, err, hread⟩ <;> rw [hread]
  · cases hbefore : f p with
    | none => exact .inl ⟨_, s, rfl, hs⟩
    | some before =>
        dsimp only
        cases hfree : before.consumedBy with
        | some other => exact .inl ⟨_, s, rfl, hs⟩
        | none =>
            dsimp only
            rw [perform_bind, readFile?]
            rcases readRecord?_spec (hs.holds q hq) h with hread' | ⟨-, err, hread'⟩ <;> rw [hread']
            · cases hsuccessor : f q with
              | some hook =>
                  dsimp only
                  split
                  · exact .inl ⟨_, s, rfl, hs⟩
                  · next hinherits =>
                    exact .inr ⟨before, f, s, rfl, hfree,
                      .again hsuccessor (not_not.mp hinherits), rfl,
                      hs, .refl _ _ s⟩
              | none =>
                  dsimp only
                  rw [perform_bind, perform_now]
                  dsimp only
                  rw [perform_bind]
                  rcases hs.perform_write Hook.logged hq (seeded before p q (h.clock 0)) h with
                    ⟨t, hwrite, ht, htouched⟩ | ⟨err, t, hwrite, -, ht, -⟩
                  · rw [hwrite]
                    exact .inr ⟨before, _, t, rfl, hfree, .fresh hsuccessor, rfl, ht, htouched⟩
                  · rw [hwrite]
                    exact .inl ⟨err, t, rfl, ht⟩
            · exact .inl ⟨err, s, rfl, hs⟩
  · exact .inl ⟨err, s, rfl, hs⟩

/-- The second write succeeds, for the hook of the predecessor is there. -/
theorem Shows.perform_consume {before : Hook} (hs : r.Shows s f) (hp : f p = some before)
    (q : String) (h : Host) :
    ∃ t, (consume before q (recordFile r.dir p)).perform h s = (.ok (), t) ∧
      r.Shows t (Function.update f p (some { before with consumedBy := some q })) := by
  rcases hs.perform_write Hook.logged (hs.isKey p before hp)
    { before with consumedBy := some q } h with
    ⟨t, hwrite, ht, -⟩ | ⟨-, -, -, hnone, -⟩
  · exact ⟨t, hwrite, ht⟩
  · rw [hp] at hnone
    cases hnone

/-- What is to be done under the locks of two hooks is not begun, or the hooks are different ones
and it is done where all hooks are what they were. -/
theorem Shows.withLocks_cases (hs : r.Shows s f) (p q : String) (h : Host) :
    (∃ err t, r.Shows t f ∧ ∀ {β : Type} (body : String → String → Action β),
      (r.withLocks p q body).perform h s = (.error err, t)) ∨
    ∃ u held, isFileKey p ∧ isFileKey q ∧ p ≠ q ∧ r.Shows u f ∧ u.Found (r.lock p) ∧
      u.Found (r.lock q) ∧ ∀ {β : Type} (body : String → String → Action β),
        (r.withLocks p q body).perform h s
          = (body (recordFile r.dir p) (recordFile r.dir q)).perform { h with held := held } u := by
  simp only [withLocks, path, perform_recordPath_bind]
  by_cases hp : isFileKey p
  · by_cases hq : isFileKey q
    · simp only [if_pos hp, if_pos hq]
      rcases hs.withLock_cases hp h with
        ⟨err, t, ht, -, hperform⟩ | ⟨u, hu, -, hfound, -, hperform⟩
      · exact .inl ⟨err, t, ht, fun body => hperform _⟩
      · rcases hu.withLock_cases hq { h with held := u.place (r.lock p) :: h.held } with
          ⟨err, t, ht, -, hinner⟩ | ⟨v, hv, htouched, hfound', hfree, hinner⟩
        · exact .inl ⟨err, t, ht, fun body => (hperform _).trans (hinner _)⟩
        · refine .inr ⟨v, _, hp, hq, ?_, hv, htouched.found hfound (by simp), hfound',
            fun body => (hperform _).trans (hinner _)⟩
          rintro rfl
          rw [Store.place_eq htouched.home] at hfree
          simp at hfree
    · simp only [if_pos hp, if_neg hq]
      exact .inl ⟨_, s, hs, fun _ => rfl⟩
  · simp only [if_neg hp]
    exact .inl ⟨_, s, hs, fun _ => rfl⟩

/-- A call of `resume` is refused, and so is what is done of it if it stops halfway; or it goes
through, and would have gone through from where it stopped. -/
theorem Shows.perform_resume (hs : r.Shows s f) (p q : String) (h : Host) :
    (∃ err t, (r.resumeHalfway p q).perform h s = (.error err, t) ∧
      (r.resume p q).perform h s = (.error err, t) ∧ r.Shows t f) ∨
    ∃ before g t u, p ≠ q ∧ f p = some before ∧ before.consumedBy = none ∧
      Sown p q before (h.clock 0) f g ∧
      (r.resumeHalfway p q).perform h s = (.ok before, t) ∧ r.Shows t g ∧
      t.Found (r.lock p) ∧ t.Found (r.lock q) ∧
      (r.resume p q).perform h s = (.ok before.brief, u) ∧
      r.Shows u (Function.update g p (some { before with consumedBy := some q })) := by
  rw [resumeHalfway, resume_eq]
  rcases hs.withLocks_cases p q h with
    ⟨err, t, ht, hperform⟩ | ⟨u, held, hp, hq, hne, hu, hfound, hfound', hperform⟩
  · exact .inl ⟨err, t, hperform _, hperform _, ht⟩
  · rw [hperform, hperform]
    rcases hu.perform_seed hp hq { h with held := held } with
      ⟨err, t, hseed, ht⟩ | ⟨before, g, t, hold, hfree, hsown, hseed, ht, htouched⟩
    · refine .inl ⟨err, t, hseed, ?_, ht⟩
      rw [perform_bind, hseed]
    · have hkept : ∀ {id}, isFileKey id → u.Found (r.lock id) → t.Found (r.lock id) :=
        fun hid hlock => htouched.found hlock fun hmem =>
          Store.place_recordFile_ne_lockPath hq hid (List.mem_singleton.mp hmem).symm
      obtain ⟨v, hconsume, hv⟩ := ht.perform_consume ((hsown.of_ne hne).trans hold) q
        { h with held := held }
      refine .inr ⟨before, g, t, v, hne, hold, hfree, hsown, hseed, ht, hkept hp hfound,
        hkept hq hfound', ?_, hv⟩
      rw [perform_bind, hseed]
      dsimp only
      rw [perform_bind, hconsume]
      rfl

/-- Where the first write has been made, or is made now, and the locks are free the call goes
through. -/
theorem Shows.perform_resume_of_seed {before : Hook} (ht : r.Shows t g) (hp : isFileKey p)
    (hq : isFileKey q) (hne : p ≠ q) (hfound : s.Found (r.lock p)) (hfound' : s.Found (r.lock q))
    (hlock : s.place (r.lock p) ∉ h.held) (hlock' : s.place (r.lock q) ∉ h.held)
    (hold : g p = some before) (hseed : ∀ held,
      (seed p q (recordFile r.dir p) (recordFile r.dir q)).perform { h with held := held } s
        = (.ok before, t)) :
    (r.resumeHalfway p q).perform h s = (.ok before, t) ∧
      ∃ u, (r.resume p q).perform h s = (.ok before.brief, u) ∧
        r.Shows u (Function.update g p (some { before with consumedBy := some q })) := by
  have hother : s.place (r.lock q) ∉ s.place (r.lock p) :: h.held := by
    rw [List.mem_cons, not_or]
    exact ⟨fun heq => hne ((Store.place_lockPath_recordFile_inj hq hp).mp heq).symm, hlock'⟩
  have hlocks : ∀ {β : Type} (body : String → String → Action β), (r.withLocks p q body).perform h s
      = (body (recordFile r.dir p) (recordFile r.dir q)).perform
        { h with held := s.place (r.lock q) :: s.place (r.lock p) :: h.held } s := by
    intro β body
    rw [withLocks, path, path, perform_recordPath_bind, if_pos hp, perform_recordPath_bind,
      if_pos hq, perform_withLock_of_free hfound hlock, perform_withLock_of_free hfound' hother]
  obtain ⟨u, hconsume, hu⟩ := ht.perform_consume hold q
    { h with held := s.place (r.lock q) :: s.place (r.lock p) :: h.held }
  refine ⟨(hlocks _).trans (hseed _), u, ?_, hu⟩
  rw [resume_eq, hlocks, perform_bind, hseed]
  dsimp only
  rw [perform_bind, hconsume]
  rfl

theorem Shows.perform_readFile? (hs : r.Shows s f) {hook : Hook} (hf : f id = some hook)
    (h : Host) :
    (readFile? (recordFile r.dir id)).perform h s = (.ok (some hook), s) := by
  have hholds := hs.holds id (hs.isKey id hook hf)
  rw [hf] at hholds
  exact perform_readRecord? hholds h

theorem Shows.perform_seed_again {before hook : Hook} (hs : r.Shows s f) (hp : f p = some before)
    (hfree : before.consumedBy = none) (hq : f q = some hook)
    (hinherits : hook.inheritedFrom = some p) (h : Host) :
    (seed p q (recordFile r.dir p) (recordFile r.dir q)).perform h s = (.ok before, s) := by
  rw [seed, perform_bind, hs.perform_readFile? hp]
  simp only [hfree]
  rw [perform_bind, hs.perform_readFile? hq]
  dsimp only
  rw [if_neg (not_not.mpr hinherits)]
  rfl

/-- The first write is made where the hook of the successor is new and can be written. -/
theorem Shows.perform_seed_fresh {before : Hook} (hs : r.Shows s f) (hp : f p = some before)
    (hfree : before.consumedBy = none) (hq : isFileKey q)
    (hmissing : s.readBytes (recordFile r.dir q) = .error .notFound)
    (hcan : s.CanReplace (recordFile r.dir q)) (h : Host) :
    ∃ t, (∀ held, (seed p q (recordFile r.dir p) (recordFile r.dir q)).perform
        { h with held := held } s = (.ok before, t)) ∧
      r.Shows t (Function.update f q (some (seeded before p q (h.clock 0)))) := by
  rcases perform_writeRecord (Hook.logged.exact (seeded before p q (h.clock 0)))
      (Hook.logged.reread _) (recordFile r.dir q) h s with
    ⟨t, hwrite, hholds, hwritable, htouched⟩ | ⟨-, -, -, hno, -⟩
  · refine ⟨t, fun held => ?_, hs.of_written hq htouched hholds hwritable⟩
    have hread : (readFile? (recordFile r.dir q)).perform { h with held := held } s
      = (.ok none, s) := by
      rw [readFile?, readRecord?, perform_bind, perform_readingIfThere, hmissing]
      rfl
    rw [seed, perform_bind, hs.perform_readFile? hp]
    simp only [hfree]
    rw [perform_bind, hread]
    dsimp only
    rw [perform_bind, perform_now]
    dsimp only
    rw [writeRecord, perform_replaceFile] at hwrite
    rw [perform_bind, writeRecord, perform_replaceFile, hwrite]
    rfl
  · exact absurd hcan hno

end Rack

end Pipewright

/-!
## Turns and runs of a rack

A turn is one call: what is asked, the process that asks, and the store it finds.
A run is a list of turns, each of which begins in what the one before it left. A
turn may also be a call of `resume` that stops between its two writes.

`Edited` lists all that one turn can do to the hooks; `Shows.turned` goes through
the kinds of calls once, and what is invariant over the turns of a rack is shown
by going through that list.
-/

namespace Pipewright

open Pipewright.Action

namespace Rack

/-! ### Calls of a rack -/

/-- What is asked of a rack. -/
inductive Ask where
  | create (id : String) (phase : Phase)
  | update (id : String) (phase : Phase) (summary : String) (instructions : Option String)
  | resume (predecessor successor : String)
  /-- To go on, and the process stops before the hook of the predecessor is written. -/
  | stop (predecessor successor : String)
  deriving DecidableEq, Repr

namespace Ask

def named : Ask → List String
  | create id _ => [id]
  | update id .. => [id]
  | resume p q => [p, q]
  | stop p q => [p, q]

def isWhole : Ask → Bool
  | stop .. => false
  | _ => true

def files (r : Rack) (a : Ask) : List String := (a.named.filter isFileKey).map (recordFile r.dir)

/-- The lock files of the hooks that are named. -/
def locks (r : Rack) (a : Ask) : List String := (a.named.filter isFileKey).map r.lock

end Ask

inductive Answer where
  | hook (r : Except Error Hook)
  | told (r : Except Error String)
  | stopped (r : Except Error Hook)

/-- What a process answers that is asked something, and the store it leaves. -/
def reply (r : Rack) (h : Host) (s : Store) : Ask → Answer × Store
  | .create id phase =>
      let x := (r.create id phase).perform h s
      (.hook x.1, x.2)
  | .update id phase summary instructions =>
      let x := (r.update id phase summary instructions).perform h s
      (.hook x.1, x.2)
  | .resume p q =>
      let x := (r.resume p q).perform h s
      (.told x.1, x.2)
  | .stop p q =>
      let x := (r.resumeHalfway p q).perform h s
      (.stopped x.1, x.2)

structure Turn where
  ask : Ask
  host : Host
  before : Store

namespace Turn

def answer (c : Turn) (r : Rack) : Answer := (r.reply c.host c.before c.ask).1

def after (c : Turn) (r : Rack) : Store := (r.reply c.host c.before c.ask).2

theorem of_ask {c : Turn} {r : Rack} {ask : Ask} (hask : c.ask = ask) {x : Answer} {t : Store}
    (hreply : r.reply c.host c.before ask = (x, t)) : c.answer r = x ∧ c.after r = t := by
  subst hask
  exact Prod.mk.inj hreply

end Turn

/-- The turns that a rack takes from a store on, and the store they lead to. -/
inductive Run (r : Rack) (s : Store) : List Turn → Store → Prop
  | start : Run r s [] s
  | call {cs : List Turn} {t : Store} (run : Run r s cs t) (ask : Ask) (host : Host) :
      Run r s (cs ++ [⟨ask, host, t⟩]) ((⟨ask, host, t⟩ : Turn).after r)

variable {r : Rack} {c : Turn} {s t : Store} {f g : String → Option Hook} {id p q : String}

/-! ### One turn -/

/-- What a turn does to the hooks. -/
inductive Edited (r : Rack) (c : Turn) (f : String → Option Hook) : (String → Option Hook) → Prop
  | same (answer : ∀ brief, c.answer r ≠ .told (.ok brief)) : Edited r c f f
  | created {id : String} {phase : Phase} (ask : c.ask = .create id phase) (new : f id = none) :
      Edited r c f (Function.update f id
        (some ⟨id, phase, "", (c.host.clock 0).stamp, none, none, none⟩))
  | updated {id summary : String} {phase : Phase} {instructions : Option String} {hook : Hook}
      (ask : c.ask = .update id phase summary instructions) (old : f id = some hook) :
      Edited r c f (Function.update f id (some { hook with
        phase, workSummary := summary, lastCheckpointAt := (c.host.clock 0).stamp,
        instructions := instructions <|> hook.instructions }))
  | resumed {p q : String} {before : Hook} {g : String → Option Hook} (ask : c.ask = .resume p q)
      (answer : c.answer r = .told (.ok before.brief)) (ne : p ≠ q) (old : f p = some before)
      (free : before.consumedBy = none) (sown : Sown p q before (c.host.clock 0) f g) :
      Edited r c f (Function.update g p (some { before with consumedBy := some q }))
  | stopped {p q : String} {before : Hook} {g : String → Option Hook} (ask : c.ask = .stop p q)
      (answer : c.answer r = .stopped (.ok before)) (ne : p ≠ q) (old : f p = some before)
      (free : before.consumedBy = none) (sown : Sown p q before (c.host.clock 0) f g) :
      Edited r c f g

theorem Shows.turned (hs : r.Shows c.before f) : ∃ g, r.Shows (c.after r) g ∧ r.Edited c f g := by
  cases hask : c.ask with
  | create id phase =>
      have hsame : ∀ brief, c.answer r ≠ .told (.ok brief) := by
        rw [Turn.answer, hask]
        nofun
      have hafter : c.after r = ((r.create id phase).perform c.host c.before).2 := by
        rw [Turn.after, hask]
        rfl
      rcases hs.perform_create id phase c.host with
        ⟨err, t, hperform, ht⟩ | ⟨t, -, hnew, hperform, ht⟩ <;> rw [hafter, hperform]
      · exact ⟨f, ht, .same hsame⟩
      · exact ⟨_, ht, .created hask hnew⟩
  | update id phase summary instructions =>
      have hsame : ∀ brief, c.answer r ≠ .told (.ok brief) := by
        rw [Turn.answer, hask]
        nofun
      have hafter :
          c.after r = ((r.update id phase summary instructions).perform c.host c.before).2 := by
        rw [Turn.after, hask]
        rfl
      rcases hs.perform_update id phase summary instructions c.host with
        ⟨err, t, hperform, ht⟩ | ⟨hook, t, hold, hperform, ht⟩ <;> rw [hafter, hperform]
      · exact ⟨f, ht, .same hsame⟩
      · exact ⟨_, ht, .updated hask hold⟩
  | resume p q =>
      rcases hs.perform_resume p q c.host with
        ⟨err, t, -, hperform, ht⟩ |
        ⟨before, g, -, u, hne, hold, hfree, hsown, -, -, -, -, hperform, hu⟩
      · obtain ⟨hanswer, rfl⟩ := Turn.of_ask hask
          (show r.reply c.host c.before (.resume p q)
            = (.told (.error err), t) by rw [reply, hperform])
        exact ⟨f, ht, .same (by rw [hanswer]; nofun)⟩
      · obtain ⟨hanswer, rfl⟩ := Turn.of_ask hask
          (show r.reply c.host c.before (.resume p q) = (.told (.ok before.brief), u) by
            rw [reply, hperform])
        exact ⟨_, hu, .resumed hask hanswer hne hold hfree hsown⟩
  | stop p q =>
      rcases hs.perform_resume p q c.host with
        ⟨err, t, hperform, -, ht⟩ |
        ⟨before, g, t, -, hne, hold, hfree, hsown, hperform, ht, -⟩
      · obtain ⟨hanswer, rfl⟩ := Turn.of_ask hask
          (show r.reply c.host c.before (.stop p q) = (.stopped (.error err), t) by
            rw [reply, hperform])
        exact ⟨f, ht, .same (by rw [hanswer]; nofun)⟩
      · obtain ⟨hanswer, rfl⟩ := Turn.of_ask hask
          (show r.reply c.host c.before (.stop p q) = (.stopped (.ok before), t) by
            rw [reply, hperform])
        exact ⟨g, ht, .stopped hask hanswer hne hold hfree hsown⟩

theorem Edited.of_not_mem (h : r.Edited c f g) (hid : id ∉ c.ask.named) : g id = f id := by
  cases h with
  | same answer => rfl
  | created ask new =>
      rw [ask, Ask.named, List.mem_singleton] at hid
      exact Function.update_of_ne hid ..
  | updated ask old =>
      rw [ask, Ask.named, List.mem_singleton] at hid
      exact Function.update_of_ne hid ..
  | resumed ask answer ne old free sown =>
      rw [ask, Ask.named, List.mem_cons, List.mem_singleton, not_or] at hid
      rw [Function.update_of_ne hid.1, sown.of_ne hid.2]
  | stopped ask answer ne old free sown =>
      rw [ask, Ask.named, List.mem_cons, List.mem_singleton, not_or] at hid
      exact sown.of_ne hid.2

/-- What is said of a hook and holds of it after every turn holds of it after every run. -/
theorem Shows.run {Holds : (String → Option Hook) → Prop} (hs : r.Shows s f) (hf : Holds f)
    {cs : List Turn} (hrun : r.Run s cs t)
    (hstep : ∀ c ∈ cs, ∀ f g, Holds f → r.Edited c f g → Holds g) :
    ∃ g, r.Shows t g ∧ Holds g := by
  induction hrun with
  | start => exact ⟨f, hs, hf⟩
  | @call cs t run ask host ih =>
      obtain ⟨g, hg, hholds⟩ := ih fun c hc => hstep c (List.mem_append_left _ hc)
      obtain ⟨g', hg', hedited⟩ := Shows.turned (c := ⟨ask, host, t⟩) hg
      exact ⟨g', hg', hstep _ (by simp) g g' hholds hedited⟩

/-! ### Footprints -/

section

variable {files locks : List String}

theorem within_create (hfile : isFileKey id → recordFile r.dir id ∈ files ∧ r.lock id ∈ locks)
    (phase : Phase) : (r.create id phase).Within files locks := by
  refine within_recordPath fun hkey => ?_
  obtain ⟨hfile, hlock⟩ := hfile hkey
  refine Within.withLock (within_get.bind fun s => ?_) hlock _
  dsimp only
  split
  · exact within_throw_bind _ _
  · exact within_now.bind fun _ => (within_writeRecord hfile _).bind fun _ => within_pure _

theorem within_update (hfile : isFileKey id → recordFile r.dir id ∈ files ∧ r.lock id ∈ locks)
    (phase : Phase) (summary : String) (instructions : Option String) :
    (r.update id phase summary instructions).Within files locks := by
  refine within_recordPath fun hkey => ?_
  obtain ⟨hfile, hlock⟩ := hfile hkey
  refine Within.withLock ((within_readRecord? _ _).bind fun found => ?_) hlock _
  split
  · exact within_throw _
  · exact within_now.bind fun _ => (within_writeRecord hfile _).bind fun _ => within_pure _

theorem within_seed (hq : recordFile r.dir q ∈ files) (path : String) :
    (seed p q path (recordFile r.dir q)).Within files locks := by
  refine (within_readRecord? _ _).bind fun found => ?_
  split
  · exact within_throw _
  · dsimp only
    split
    · exact within_throw_bind _ _
    · refine (within_readRecord? _ _).bind fun found => ?_
      split
      · split
        · exact within_throw_bind _ _
        · exact within_pure _
      · exact within_now.bind fun _ => (within_writeRecord hq _).bind fun _ => within_pure _

theorem within_withLocks {α : Type} {body : String → String → Action α}
    (hp : isFileKey p → r.lock p ∈ locks) (hq : isFileKey q → r.lock q ∈ locks)
    (hbody : isFileKey p → isFileKey q →
      (body (recordFile r.dir p) (recordFile r.dir q)).Within files locks) :
    (r.withLocks p q body).Within files locks :=
  within_recordPath fun hp' => within_recordPath fun hq' =>
    ((hbody hp' hq').withLock (hq hq') _).withLock (hp hp') _

end

/-- A call writes at most the files of the hooks it names and makes at most their lock files. -/
theorem touched_reply (r : Rack) (h : Host) (s : Store) (ask : Ask) :
    Store.Touched ((ask.files r).map s.place) ((ask.locks r).map s.place) s
      (r.reply h s ask).2 := by
  have hfile : ∀ {id}, id ∈ ask.named → isFileKey id →
      recordFile r.dir id ∈ ask.files r ∧ r.lock id ∈ ask.locks r := by
    intro id hid hkey
    have hmem := List.mem_filter.mpr ⟨hid, hkey⟩
    exact ⟨List.mem_map_of_mem hmem, List.mem_map_of_mem hmem⟩
  cases ask with
  | create id phase => exact within_create (hfile (by simp [Ask.named])) phase h s
  | update id phase summary instructions =>
      exact within_update (hfile (by simp [Ask.named])) phase summary instructions h s
  | resume p q =>
      refine within_withLocks (fun hp => (hfile (by simp [Ask.named]) hp).2)
        (fun hq => (hfile (by simp [Ask.named]) hq).2) (fun hp hq => ?_) h s
      refine (within_seed (hfile (by simp [Ask.named]) hq).1 _).bind fun before => ?_
      exact (within_writeRecord (hfile (by simp [Ask.named]) hp).1 _).bind fun _ => within_pure _
  | stop p q =>
      exact within_withLocks (fun hp => (hfile (by simp [Ask.named]) hp).2)
        (fun hq => (hfile (by simp [Ask.named]) hq).2)
        (fun _ hq => within_seed (hfile (by simp [Ask.named]) hq).1 _) h s

theorem found_lock_of_turn (c : Turn) (hid : isFileKey id) (hfound : c.before.Found (r.lock id)) :
    (c.after r).Found (r.lock id) := by
  refine (touched_reply r c.host c.before c.ask).found hfound ?_
  rw [Ask.files, List.map_map, List.mem_map]
  rintro ⟨other, hother, heq⟩
  exact Store.place_recordFile_ne_lockPath (List.mem_filter.mp hother).2 hid heq

end Rack

end Pipewright
