import Pipewright.Proofs.Signal.Calls

/-!
# Turns and runs of a mailbox

A turn is one call: a signal is sent, or one is waited for. Who waits looks into
the mailbox and, if there is nothing for him, looks again; since calls are made
one after another he finds then what he found before. `Edited` lists what a turn
can do to the letters that wait and to those that have been taken, and
`Standing.turned` goes through the calls.

The directory of a mailbox need not be there from the start. The first signal
that is sent makes it, and until then nobody finds one (`Standing`).
-/

namespace Pipewright.Mailbox

open Pipewright.Action Signal Store

/-! ## Calls of a mailbox -/

/-- A signal is waited for: the mailbox is looked into, and again so many times. -/
def await (dir : String) (f : Filter) : Nat → Action (Option Received)
  | 0 => take? dir f
  | looks + 1 => do
    match ← take? dir f with
    | some r => return some r
    | none => await dir f looks

/-- What is asked of a mailbox. A type is given by a text. -/
inductive Ask where
  | send (sender recipient text : String) (payload : Json)
  | await (f : Filter) (looks : Nat)

inductive Answer where
  | sent (r : Except Error String)
  | received (r : Except Error (Option Received))

/-- What a process answers that is asked something, and the store it leaves. -/
def reply (dir : String) (h : Host) (s : Store) : Ask → Answer × Store
  | .send sender recipient text payload =>
      let x := (send dir sender recipient (.ofText text) payload).perform h s
      (.sent x.1, x.2)
  | .await f looks =>
      let x := (await dir f looks).perform h s
      (.received x.1, x.2)

structure Turn where
  ask : Ask
  host : Host
  before : Store

/-- What is known of a signal besides the time at which it was sent, and its name. -/
structure Parcel where
  name : String
  sender : String
  recipient : String
  type : SignalType
  payload : Json

/-- The parcel is one of those that are waited for. -/
def Parcel.isFor (p : Parcel) (f : Filter) : Bool :=
  f.accepts ⟨p.sender, p.recipient, p.type, p.payload, ""⟩

def Letter.parcel (m : Letter) : Parcel := ⟨m.1, m.2.sender, m.2.recipient, m.2.type, m.2.payload⟩

def Received.letter (r : Received) : Letter := (r.fileName, r.signal)

namespace Turn

def answer (c : Turn) (dir : String) : Answer := (reply dir c.host c.before c.ask).1

def after (c : Turn) (dir : String) : Store := (reply dir c.host c.before c.ask).2

/-- What the call has sent, under the name that it answered. -/
def sent? (c : Turn) (dir : String) : Option Parcel :=
  match c.ask, c.answer dir with
  | .send sender recipient text payload, .sent (.ok path) =>
      some ⟨(Path.fileName? path).getD "", sender, recipient, .ofText text, payload⟩
  | _, _ => none

def received? (c : Turn) (dir : String) : Option Received :=
  match c.answer dir with
  | .received (.ok r) => r
  | _ => none

/-- The call is made in a year of four digits, and what it sends is a value that programs hold,
without real numbers and nested at most a hundred deep. -/
structure IsOrdinary (c : Turn) : Prop where
  dated : ∀ k, (c.host.clock k).IsDated
  payload : ∀ sender recipient text payload, c.ask = .send sender recipient text payload →
    payload.isFree ∧ payload.nesting ≤ 100

theorem of_ask {c : Turn} {dir : String} {ask : Ask} (hask : c.ask = ask) {x : Answer} {t : Store}
    (hreply : reply dir c.host c.before ask = (x, t)) : c.answer dir = x ∧ c.after dir = t := by
  subst hask
  exact Prod.mk.inj hreply

end Turn

/-- The turns that a mailbox takes from a store on, and the store they lead to. -/
inductive Run (dir : String) (s : Store) : List Turn → Store → Prop
  | start : Run dir s [] s
  | call {cs : List Turn} {t : Store} (run : Run dir s cs t) (ask : Ask) (host : Host) :
      Run dir s (cs ++ [⟨ask, host, t⟩]) ((⟨ask, host, t⟩ : Turn).after dir)

variable {dir : String} {c : Turn} {s t : Store} {waiting taken waiting' taken' : List Letter}
  {h : Host}

/-! ## A mailbox that is yet to be made -/

/-- The store in which the directory of a mailbox has been made. -/
def opened (dir : String) (s : Store) : Store := (s.makeDirs dir).2

/-- The letters of a mailbox, whose directory can be made and is there once there is a letter. -/
structure Standing (dir : String) (s : Store) (waiting taken : List Letter) : Prop where
  made : (s.makeDirs dir).1 = .ok ()
  mail : Mail dir (opened dir s) waiting taken
  begun : s.isDirectory dir ∨ waiting = [] ∧ taken = []

theorem Mail.standing (hs : Mail dir s waiting taken) : Standing dir s waiting taken where
  made := by rw [makeDirs_of_isDirectory hs.there]
  mail := by rwa [opened, makeDirs_of_isDirectory hs.there]
  begun := .inl hs.there

theorem Standing.mail_of_isDirectory (hs : Standing dir s waiting taken)
    (hdir : s.isDirectory dir) :
    Mail dir s waiting taken := by
  have hmail := hs.mail
  rwa [opened, makeDirs_of_isDirectory hdir] at hmail

theorem Standing.list_eq (hs : Standing dir s waiting taken) (hdir : ¬s.isDirectory dir) :
    s.list dir = .error .notFound := by
  rw [list, find_of_makeDirs hs.made hdir]
  rfl

theorem standing_nil (hdir : dir ≠ "") (hmade : (s.makeDirs dir).1 = .ok ())
    (hempty : ∀ rest, rest ≠ [] → (opened dir s).at? (s.place dir ++ rest) = none) :
    Standing dir s [] [] where
  made := hmade
  mail := by
    have hmake : s.makeDirs dir = (.ok (), opened dir s) := Prod.ext hmade rfl
    have hthere : (opened dir s).isDirectory dir := by
      rw [Store.makeDirs, if_neg hdir] at hmake
      exact isDirectory_of_makeInner hmake
    have hhome : (opened dir s).home = s.home := (grown_makeDirs [] s dir).home
    refine ⟨hthere, ⟨by simp, by simp, ?_⟩, ⟨by simp, by simp, ?_⟩, .inl ?_, .nil, .nil⟩
    · intro name _ hat
      rw [place_eq hhome] at hat
      exact absurd (hempty _ (by simp)) hat
    · intro name _ hat
      rw [place_eq hhome, place_processedDir, List.append_assoc] at hat
      exact absurd (hempty _ (by simp)) hat
    · rw [place_eq hhome, place_processedDir]
      exact hempty _ (by simp)
  begun := .inr ⟨rfl, rfl⟩

/-- Whether the directory is there or yet to be made, the same signal is sent. -/
theorem Standing.perform_send_opened (hs : Standing dir s waiting taken) (sender recipient : String)
    (type : SignalType) (payload : Json) (h : Host) :
    (send dir sender recipient type payload).perform h s
      = (send dir sender recipient type payload).perform h (opened dir s) := by
  have hmake : s.makeDirs dir = (.ok (), opened dir s) := Prod.ext hs.made rfl
  rw [send, perform_bind, perform_bind, perform_makeDirs, perform_makeDirs, hmake,
    makeDirs_of_isDirectory hs.mail.there]

/-- The first letter that is looked for is taken, and nothing is done if there is none. -/
theorem Standing.perform_take? (hs : Standing dir s waiting taken)
    (hfits : ∀ m ∈ waiting, Fits dir m.1)
    (f : Filter) (h : Host) :
    ((take? dir f).perform h s = (.ok none, s) ∧ ∀ m ∈ waiting, ¬f.accepts m.2) ∨
    ∃ front m back t, waiting = front ++ m :: back ∧ f.accepts m.2 ∧
      (∀ m' ∈ front, ¬f.accepts m'.2) ∧
      (take? dir f).perform h s = (.ok (some ⟨m.2, m.1, Path.join (processedDir dir) m.1⟩), t) ∧
      Mail dir t (front ++ back) (taken ++ [m]) := by
  by_cases hdir : s.isDirectory dir
  · exact (hs.mail_of_isDirectory hdir).perform_take? hfits f h
  · obtain ⟨rfl, rfl⟩ := hs.begun.resolve_left hdir
    have hlist := hs.list_eq hdir
    refine .inl ⟨?_, by simp⟩
    rw [take?, perform_bind, perform_files_of_missing hlist]
    rfl

theorem Standing.perform_pending (hs : Standing dir s waiting taken) (h : Host) :
    ∃ ms, (pending dir).perform h s = (.ok ms, s) ∧ ∀ m, m ∈ ms ↔ m ∈ waiting := by
  by_cases hdir : s.isDirectory dir
  · exact (hs.mail_of_isDirectory hdir).waits.perform_pending hdir h
  · obtain ⟨rfl, rfl⟩ := hs.begun.resolve_left hdir
    exact ⟨[], perform_pending_of_missing (hs.list_eq hdir) h, fun m => Iff.rfl⟩

/-- Once there is a letter, those that have been taken are the ones that are read. -/
theorem Standing.perform_processed (hs : Standing dir s waiting taken) {m : Letter}
    (hm : m ∈ waiting ∨ m ∈ taken) (hfits : Fits dir m.1) (h : Host) :
    ∃ ms, (processed dir).perform h s = (.ok ms, s) ∧ ∀ m, m ∈ ms ↔ m ∈ taken := by
  have hdir : s.isDirectory dir := by
    refine hs.begun.resolve_right fun ⟨hwaiting, htaken⟩ => ?_
    rw [hwaiting, htaken] at hm
    exact hm.elim List.not_mem_nil List.not_mem_nil
  have hmail := hs.mail_of_isDirectory hdir
  exact hmail.perform_processed (hm.elim (hmail.waits.mail m) (hmail.archived.mail m)).name hfits h

theorem Standing.perform_await (hs : Standing dir s waiting taken)
    (hfits : ∀ m ∈ waiting, Fits dir m.1)
    (f : Filter) (looks : Nat) (h : Host) :
    ((await dir f looks).perform h s = (.ok none, s) ∧ ∀ m ∈ waiting, ¬f.accepts m.2) ∨
    ∃ front m back t, waiting = front ++ m :: back ∧ f.accepts m.2 ∧
      (∀ m' ∈ front, ¬f.accepts m'.2) ∧
      (await dir f looks).perform h s
        = (.ok (some ⟨m.2, m.1, Path.join (processedDir dir) m.1⟩), t) ∧
      Mail dir t (front ++ back) (taken ++ [m]) := by
  induction looks with
  | zero => exact hs.perform_take? hfits f h
  | succ looks ih =>
    rcases hs.perform_take? hfits f h with
      ⟨hperform, hnone⟩ | ⟨front, m, back, t, hsplit, haccepts, hfront, hperform, ht⟩
    · rw [await, perform_bind, hperform]
      exact ih
    · refine .inr ⟨front, m, back, t, hsplit, haccepts, hfront, ?_, ht⟩
      rw [await, perform_bind, hperform]
      rfl

/-- Who waits is answered the first letter that he looks for. -/
theorem Standing.answer_await (hs : Standing dir c.before waiting taken)
    (hfits : ∀ m ∈ waiting, Fits dir m.1) {f : Filter} {looks : Nat}
    (hask : c.ask = .await f looks) :
    ∃ r, c.answer dir = .received (.ok r) ∧
      r.map Received.letter = waiting.find? fun m => f.accepts m.2 := by
  have hreply : ∀ {r t}, (await dir f looks).perform c.host c.before = (.ok r, t) →
      c.answer dir = .received (.ok r) := by
    intro r t hperform
    refine (Turn.of_ask hask (t := t) ?_).1
    rw [reply, hperform]
  rcases hs.perform_await hfits f looks c.host with
    ⟨hperform, hnone⟩ | ⟨front, m, back, t, rfl, haccepts, hfront, hperform, -⟩
  · exact ⟨none, hreply hperform, (List.find?_eq_none.mpr hnone).symm⟩
  · refine ⟨_, hreply hperform, ?_⟩
    rw [List.find?_append, List.find?_eq_none.mpr hfront, Option.none_or]
    exact (List.find?_cons_of_pos (p := fun m : Letter => f.accepts m.2) haccepts).symm

/-! ## One turn -/

/-- What a turn does to the letters. -/
inductive Edited (dir : String) (c : Turn) (waiting taken : List Letter) :
    List Letter → List Letter → Prop
  | refused (ask : ∀ f looks, c.ask ≠ .await f looks) (sent : c.sent? dir = none)
      (received : c.received? dir = none) : Edited dir c waiting taken waiting taken
  | sent {m : Letter} (ask : ∀ f looks, c.ask ≠ .await f looks) (sent : c.sent? dir = some m.parcel)
      (received : c.received? dir = none) : Edited dir c waiting taken (waiting ++ [m]) taken
  | missed {f : Filter} {looks : Nat} (ask : c.ask = .await f looks)
      (answer : c.answer dir = .received (.ok none)) (none : ∀ m ∈ waiting, ¬f.accepts m.2) :
      Edited dir c waiting taken waiting taken
  | taken {f : Filter} {looks : Nat} {front back : List Letter} {r : Received}
      (ask : c.ask = .await f looks) (answer : c.answer dir = .received (.ok (some r)))
      (split : waiting = front ++ r.letter :: back) (accepts : f.accepts r.signal)
      (first : ∀ m ∈ front, ¬f.accepts m.2) :
      Edited dir c waiting taken (front ++ back) (taken ++ [r.letter])

/-- Every call does one of these things, if what it sends is later than all that was sent before. -/
theorem Standing.turned (hs : Standing dir c.before waiting taken)
    (hfits : ∀ m ∈ waiting, Fits dir m.1)
    (hc : c.IsOrdinary)
    (hlast : ∀ p, c.sent? dir = some p → (∀ m ∈ waiting, m.1 < p.name) ∧
      ∀ m ∈ taken, m.1 ≠ p.name) :
    ∃ waiting' taken', Standing dir (c.after dir) waiting' taken' ∧
      Edited dir c waiting taken waiting' taken' := by
  cases hask : c.ask with
  | send sender recipient text payload =>
    have hno : ∀ f looks, c.ask ≠ .await f looks := by
      rw [hask]
      nofun
    obtain ⟨hfree, hnesting⟩ := hc.payload sender recipient text payload hask
    have hsend := hs.perform_send_opened sender recipient (.ofText text) payload c.host
    rcases hs.mail.perform_send sender recipient text hfree (by omega) hc.dated with
      ⟨err, hperform⟩ | ⟨m, t, hperform, hsignal, hmail, ht⟩ <;> rw [hperform] at hsend
    · obtain ⟨hanswer, hafter⟩ := Turn.of_ask hask
        (show reply dir c.host c.before (.send sender recipient text payload)
          = (.sent (.error err), opened dir c.before) by rw [reply, hsend])
      refine ⟨waiting, taken, hafter ▸ hs.mail.standing, .refused hno ?_ ?_⟩
      · rw [Turn.sent?, hask, hanswer]
      · rw [Turn.received?, hanswer]
    · obtain ⟨hanswer, hafter⟩ := Turn.of_ask hask
        (show reply dir c.host c.before (.send sender recipient text payload)
          = (.sent (.ok (Path.join dir m.1)), t) by rw [reply, hsend])
      have hsent : c.sent? dir = some m.parcel := by
        rw [Turn.sent?, hask, hanswer, Letter.parcel, hsignal]
        dsimp only
        rw [Path.fileName?_join dir hmail.name, Option.getD_some]
      obtain ⟨hbefore, hnew⟩ := hlast _ hsent
      refine ⟨_, taken, hafter ▸ (ht hbefore hnew).standing, .sent hno hsent ?_⟩
      rw [Turn.received?, hanswer]
  | await f looks =>
    rcases hs.perform_await hfits f looks c.host with
      ⟨hperform, hnone⟩ | ⟨front, m, back, t, hsplit, haccepts, hfront, hperform, ht⟩
    · obtain ⟨hanswer, hafter⟩ := Turn.of_ask hask
        (show reply dir c.host c.before (.await f looks) = (.received (.ok none), c.before) by
          rw [reply, hperform])
      exact ⟨waiting, taken, hafter ▸ hs, .missed hask hanswer hnone⟩
    · obtain ⟨hanswer, hafter⟩ := Turn.of_ask hask
        (show reply dir c.host c.before (.await f looks) = (.received (.ok (some _)), t) by
          rw [reply, hperform])
      exact ⟨_, _, hafter ▸ ht.standing, .taken hask hanswer hsplit haccepts hfront⟩

end Pipewright.Mailbox
