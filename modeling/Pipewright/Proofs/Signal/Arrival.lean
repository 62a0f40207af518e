import Pipewright.Proofs.Json.Free
import Pipewright.Proofs.Signal.Reception

/-!
# Which signals arrive

Whatever text is accepted as a payload, the signal is put into the mailbox under
the name of a signal file. Whether it arrives is decided when it is read back:
there the payload stands one level deeper than it did in the text it was given
as, under the same limit of nesting. So what is nested 127 deep can be sent, and
is then neither listed nor received, but moved out of the way as no signal; and
everything else arrives, whatever numbers and texts are in it
(`send_delivered_iff`).
-/

namespace Pipewright

namespace Mailbox

open Pipewright.Action Signal Store

variable {dir name path sender recipient text : String} {s t : Store} {bytes : ByteArray}
  {m : Letter}
  {payload : Json} {h : Host}

/-! ## The file of a signal that is sent -/

/-- What has been sent stands in the mailbox, which is there then, under the name of a signal file.
-/
theorem exists_of_send {type : SignalType} (hdir : dir ≠ "") (hdated : ∀ k, (h.clock k).IsDated)
    (hsend : (send dir sender recipient type payload).perform h s = (.ok path, t)) :
    ∃ name timestamp, path = Path.join dir name ∧ isSignalFile name ∧ t.isDirectory dir ∧
      t.Has (Path.join dir name)
        (some (bytesOf ⟨sender, recipient, type, payload, timestamp⟩)) := by
  rw [send, perform_bind, perform_makeDirs] at hsend
  rcases hmake : s.makeDirs dir with ⟨fault | ⟨⟩, u⟩ <;> rw [hmake] at hsend
  · cases hsend
  have hthere : u.isDirectory dir := by
    rw [Store.makeDirs, if_neg hdir] at hmake
    exact isDirectory_of_makeInner hmake
  dsimp only [Except.mapError] at hsend
  rw [perform_bind, perform_reading] at hsend
  cases horigin : u.origin (u.draft dir) with
  | error fault =>
    rw [horigin] at hsend
    cases hsend
  | ok start =>
    rw [horigin] at hsend
    dsimp only [Except.mapError] at hsend
    rcases posted_sendFrom dir sender recipient type payload h u sendAttempts 0 with
      ⟨err, hperform⟩ | ⟨k, v, hperform, haltered, hhas⟩ <;>
      obtain ⟨hpath, rfl⟩ := Prod.mk.inj (hperform.symm.trans hsend)
    · cases hpath
    · obtain rfl := Except.ok.inj hpath
      exact ⟨_, _, rfl, isSignalFile_fileName sender recipient type (hdated k),
        haltered.isDirectory hthere, hhas⟩

/-! ## Signals that arrive and signals that do not -/

/-- Whoever looks for the signal finds it. -/
structure Delivered (dir : String) (s : Store) (m : Letter) : Prop where
  /-- It is listed, if what else looks like a signal can be opened. -/
  listed : Legible dir s → ∀ h, ∃ ms, (pending dir).perform h s = (.ok ms, s) ∧ m ∈ ms
  /-- Whoever waits for it receives it, if there is room for it among those that have been taken and
  no other one that he waits for comes before it. -/
  received : Legible dir s → s.HasRoom dir "processed" m.1 → ∀ f looks h, f.accepts m.2 →
    (∀ m', Waits dir s m' → m'.1 < m.1 → ¬f.accepts m'.2) →
    ∃ t, (await dir f looks).perform h s
      = (.ok (some ⟨m.2, m.1, Path.join (processedDir dir) m.1⟩), t)
  /-- It is never put aside, whoever waits for whatever. -/
  kept : ∀ f looks h x t, (await dir f looks).perform h s = (x, t) →
    Waits dir t m ∨ ∃ r, x = .ok (some r) ∧ r.letter = m

structure Undeliverable (dir : String) (s : Store) (name : String) : Prop where
  /-- It is not listed. -/
  unlisted : Legible dir s → ∀ h, ∃ ms, (pending dir).perform h s = (.ok ms, s) ∧
      ∀ m ∈ ms, m.1 ≠ name
  /-- It is not received, whoever waits for whatever. -/
  unreceived : ∀ f looks h r t, (await dir f looks).perform h s = (.ok (some r), t) →
      r.fileName ≠ name
  /-- Whoever waits in vain has put it aside, if there is room for it. -/
  rejected : s.HasRoom dir "rejected" name → ∀ f looks h t,
    (await dir f looks).perform h s = (.ok none, t) →
    ∃ bytes, s.Has (Path.join dir name) (some bytes) ∧ Rejected dir t name bytes

theorem Waits.delivered (hs : Waits dir s m) (hdir : s.isDirectory dir) : Delivered dir s m where
  listed := by
    intro hlegible h
    obtain ⟨ms, hperform, hms⟩ := hlegible.perform_pending h
    exact ⟨ms, hperform, (hms m).mpr hs⟩
  received := fun hlegible hroom f looks h haccepts hfirst =>
    hlegible.perform_await hs haccepts hroom hfirst looks h
  kept := by
    intro f looks h x t hperform
    have hstays := hs.stays_await hdir f looks h
    rw [hperform] at hstays
    exact hstays.imp_left And.right

theorem undeliverable_of_signalOf? (hdir : s.isDirectory dir) (hfile : isSignalFile name)
    (hhas : s.Has (Path.join dir name) (some bytes)) (hnone : signalOf? bytes = none) :
    Undeliverable dir s name where
  unlisted := by
    intro hlegible h
    obtain ⟨ms, hperform, hms⟩ := hlegible.perform_pending h
    refine ⟨ms, hperform, ?_⟩
    rintro m hm rfl
    obtain ⟨found, hfound, hsignal⟩ := ((hms m).mp hm).readable
    obtain rfl := Option.some.inj (hhas.unique hfound)
    rw [hnone] at hsignal
    cases hsignal
  unreceived := by
    rintro f looks h r t hperform rfl
    have htakes := takes_await dir f looks h s
    rw [hperform] at htakes
    cases htakes with
    | nothing answer => exact answer r rfl
    | one filed =>
      obtain ⟨found, hfound, hsignal, -⟩ := filed.waited
      have hin := fileIn_of_readBytes (isName_of_isSignalFile hfile) (readBytes_of_has hhas)
      obtain rfl := Option.some.inj (hin.symm.trans hfound)
      rw [hnone] at hsignal
      cases hsignal
  rejected := fun hroom _ _ _ _ hperform =>
    ⟨bytes, hhas, rejects_await hfile hnone hdir (.inr ⟨hhas, hroom⟩) hperform⟩

/-- Whatever payload is accepted, and whoever sends it to whom with whatever type, the file of the
signal that is sent has the name of a signal file; and whoever looks for the signal finds it if and
only if the payload is not nested 127 deep, which is as deep as a payload can be. -/
theorem send_delivered_iff {source : String} (hpayload : Json.parse source = some payload)
    (hdir : dir ≠ "")
    (hdated : ∀ k, (h.clock k).IsDated)
    (hsend : (send dir sender recipient (.ofText text) payload).perform h s = (.ok path, t)) :
    ∃ name, path = Path.join dir name ∧ isSignalFile name ∧
      (payload.nesting ≠ 127 → ∃ signal : Signal, signal.sender = sender ∧
        signal.recipient = recipient ∧ signal.type = .ofText text ∧
          Delivered dir t (name, signal)) ∧
      (payload.nesting = 127 → Undeliverable dir t name) := by
  obtain ⟨hheld, hnesting⟩ := Json.held_of_parse hpayload
  obtain ⟨name, timestamp, hpath, hfile, hthere, hhas⟩ := exists_of_send hdir hdated hsend
  have hread := (@signalOf?_eq ⟨sender, recipient, .ofText text, payload, timestamp⟩
    (Json.isFinite_of_isHeld _ hheld)).trans
      (Signal.ofDocument?_document (SignalType.ofText_name text))
  refine ⟨name, hpath, hfile, fun hshallow => ?_, fun hdeep => ?_⟩
  · obtain ⟨reread, hreread⟩ :=
      Option.isSome_iff_exists.mp ((Json.isSome_asFree hheld).mpr (by omega))
    rw [hreread, Option.map_some] at hread
    exact ⟨_, rfl, rfl, rfl, Waits.delivered ⟨hfile, _, hhas, hread⟩ hthere⟩
  · have hnone : Json.asFree payload.document = none := by
      rw [← Option.not_isSome_iff_eq_none, Json.isSome_asFree hheld]
      omega
    rw [hnone, Option.map_none] at hread
    exact undeliverable_of_signalOf? hthere hfile hhas hread

def nested : Nat → Json
  | 0 => .null
  | depth + 1 => .list [nested depth]

theorem isFree_nested (depth : Nat) : (nested depth).isFree ∧ (nested depth).nesting = depth := by
  induction depth with
  | zero => exact ⟨rfl, rfl⟩
  | succ depth ih =>
    refine ⟨Bool.and_eq_true_iff.mpr ⟨ih.1, rfl⟩, ?_⟩
    change max (nested depth).nesting 0 + 1 = depth + 1
    rw [ih.2, Nat.max_zero]

theorem parse_nested {depth : Nat} (hdepth : depth ≤ 127) :
    Json.parse (nested depth).compact = some (nested depth) := by
  obtain ⟨hfree, hnesting⟩ := isFree_nested depth
  exact Json.parse_compact hfree (by rw [hnesting]; exact hdepth)

/-- After a signal has been sent nothing else is in a store that was empty. -/
theorem legible_sent (haltered : Altered [place {} (Path.join (dots 0) name)] {} t)
    (hfile : isSignalFile name) (hhas : t.Has (Path.join (dots 0) name) (some bytes))
    (hshort : (Path.join (processedDir (dots 0)) name).utf8ByteSize < 4096) :
    Legible (dots 0) t ∧ t.HasRoom (dots 0) "processed" name ∧ ∀ m, Waits (dots 0) t m →
      m.1 = name := by
  obtain ⟨hthere, hplace⟩ := isDirectory_dots (Nat.zero_le 2025) {}
  have hother : ∀ step rest, step ≠ name ∨ rest ≠ [] →
      t.at? (t.place (dots 0) ++ step :: rest) = none := by
    intro step rest hne
    have hnot : place {} (dots 0) ++ step :: rest ∉ [place {} (Path.join (dots 0) name)] := by
      rw [place_join _ _ (isName_of_isSignalFile hfile)]
      simpa using hne.elim (fun h heq => absurd heq h) fun h _ => h
    rw [place_eq haltered.home, haltered.kept _ hnot, hplace]
    rfl
  refine ⟨⟨haltered.isDirectory hthere, fun other _ hat => ?_⟩, ⟨hshort, .inl ?_, ?_⟩,
    fun m hm => ?_⟩
  · by_cases heq : other = name
    · exact heq ▸ ⟨bytes, hhas⟩
    · exact absurd (hother other [] (.inl heq)) hat
  · exact hother _ _ (.inl (ne_processed hfile).symm)
  · rw [hother _ _ (.inr (by simp))]
    simp
  · by_contra hne
    obtain ⟨found, hfound, -⟩ := hm.readable
    obtain ⟨modified, hat⟩ := at?_of_has (isName_of_isSignalFile hm.file) hfound
    rw [hother m.1 [] (.inl hne)] at hat
    cases hat

theorem exists_send_dots (payload : Json) :
    ∃ t bytes, (send (dots 0) "a" "b" (.ofText "MERGED") payload).perform .idle {}
        = (.ok (Path.join (dots 0) (mailed .idle).name), t) ∧
      Altered [place {} (Path.join (dots 0) (mailed .idle).name)] {} t ∧
      t.Has (Path.join (dots 0) (mailed .idle).name) (some bytes) := by
  have htype : SignalType.ofText "MERGED" = .merged := by decide
  obtain ⟨t, hsend⟩ :=
    exists_perform_send (h := .idle) (Nat.zero_le 2025) payload (isName_fileName ..)
    (by rw [name_mailed.1]; decide) (by rw [name_mailed.1]; decide)
  rcases posted_send (isDirectory_dots (Nat.zero_le 2025) {}).1 "a" "b" .merged payload .idle with
    ⟨err, hperform⟩ | ⟨k, u, hperform, haltered, hhas⟩ <;>
    obtain ⟨hpath, rfl⟩ := Prod.mk.inj (hsend.symm.trans hperform)
  · cases hpath
  · rw [← Except.ok.inj hpath] at haltered hhas
    exact ⟨t, _, by rw [htype, hsend], haltered, hhas⟩

/-- A payload that is nested 126 deep is received, and one that is nested 127 deep never is. -/
theorem send_delivered_iff_nested :
    (∃ t name signal u, Json.parse (nested 126).compact = some (nested 126) ∧
      (send (dots 0) "a" "b" (.ofText "MERGED") (nested 126)).perform .idle {}
        = (.ok (Path.join (dots 0) name), t) ∧
      Delivered (dots 0) t (name, signal) ∧
      (await (dots 0) {} 0).perform .idle t
        = (.ok (some ⟨signal, name, Path.join (processedDir (dots 0)) name⟩), u)) ∧
    ∃ t name, Json.parse (nested 127).compact = some (nested 127) ∧
      (send (dots 0) "a" "b" (.ofText "MERGED") (nested 127)).perform .idle {}
        = (.ok (Path.join (dots 0) name), t) ∧
      Undeliverable (dots 0) t name := by
  have hdefault : Instant.IsDated default := ⟨by decide, by decide, by decide⟩
  have hdated : ∀ k, (Host.idle.clock k).IsDated := fun _ => hdefault
  constructor
  · have hparse := parse_nested (Nat.le_succ 126)
    obtain ⟨t, bytes, hsend, haltered, hhas⟩ := exists_send_dots (nested 126)
    obtain ⟨name, hpath, hfile, hdelivered, -⟩ := send_delivered_iff hparse (by decide) hdated hsend
    obtain ⟨signal, -, -, -, hsignal⟩ := hdelivered (by rw [(isFree_nested 126).2]; decide)
    have hname : name = (mailed .idle).name := by
      have hnames := congrArg Path.fileName? hpath
      rw [Path.fileName?_join (dots 0) (isName_of_isSignalFile hfile)] at hnames
      have hisName : Path.IsName (mailed .idle).name := isName_fileName ..
      exact Option.some.inj (hnames.symm.trans (Path.fileName?_join (dots 0) hisName))
    obtain ⟨hlegible, hroom, honly⟩ := legible_sent (hname ▸ haltered) hfile (hname ▸ hhas)
      (by rw [hname, name_mailed.1]; decide)
    obtain ⟨u, hawait⟩ := hsignal.received hlegible hroom {} 0 .idle rfl
      fun m' hm' hlt => absurd (honly m' hm') (String.ne_of_lt hlt)
    exact ⟨t, name, signal, u, hparse, hpath ▸ hsend, hsignal, hawait⟩
  · have hparse := parse_nested (Nat.le_refl 127)
    obtain ⟨t, bytes, hsend, -, -⟩ := exists_send_dots (nested 127)
    obtain ⟨name, hpath, -, -, hlost⟩ := send_delivered_iff hparse (by decide) hdated hsend
    exact ⟨t, name, hparse, hpath ▸ hsend, hlost (isFree_nested 127).2⟩

end Mailbox

end Pipewright
