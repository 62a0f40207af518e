import Pipewright.Proofs.Engine.RecordFiles
import Pipewright.Proofs.Hook.Turns
import Pipewright.Proofs.Identity.Calls
import Pipewright.Proofs.Json.Nesting
import Pipewright.Proofs.Lifecycle.Effect
import Pipewright.Proofs.Merge.QueueFile
import Pipewright.Proofs.Signal.Shelves

/-!
# What is read after a restart

Logs of which the last write was torn, and the state that is read back as it was left.
-/

/-!
## Logs that were torn

A process that stops while it adds a record to a log may leave the first bytes of the
record's line behind. The next record is then added to these bytes, as records are
added to whatever the log ends with, and its line is theirs too.

What a torn log says depends on how much of the line there is (`Torn.perform_readLog`).
If nothing was left the log is whole. If only the line feed is missing the record counts,
until something is added. In all other cases no record of the log is read, neither those
in front of the tear nor those behind it.
-/

namespace Pipewright

variable {α : Type} {toJson : α → Json} {read : Json.Document → Option α}

namespace Json

open Document

/-- The lines of records begin with the same word. -/
def Worded (toJson : α → Json) : Prop :=
  ∀ r, ∃ c rest, (toJson r).compactChars = '\x7b' :: '"' :: c :: rest ∧ c.isAlpha

theorem Logged.exists_braces (h : Logged toJson read) (r : α) :
    ∃ inner, (toJson r).compactChars = '\x7b' :: (inner ++ ['\x7d']) := by
  obtain ⟨fields, hfields⟩ := h.object r
  rw [hfields]
  exact ⟨_, rfl⟩

theorem Logged.allBlank_eq_false (h : Logged toJson read) (r : α) :
    Text.allBlank (toJson r).compactChars = false := by
  obtain ⟨inner, hinner⟩ := h.exists_braces r
  rw [hinner]
  rfl

/-- A line that is not followed by anything is a line, too. -/
theorem lines_last {cs : List Char} (h : cs.all isPrinted) (hblank : Text.allBlank cs = false) :
    lines cs = [cs] := by
  have hne : cs ≠ [] := by
    rintro rfl
    cases hblank
  have hfrom := @linesFrom_append [] cs [] h
  rw [List.append_nil, List.append_nil] at hfrom
  rw [lines, hfrom, lines.linesFrom, if_neg (by simpa using hne), List.reverse_reverse]

theorem readLines_logText_append (h : Logged toJson read) (records : List α) (rest : String) :
    readLines read (logText toJson records ++ rest) = (readLines read rest).map (records ++ ·) := by
  induction records with
  | nil =>
      have hnil : logText toJson [] = "" := rfl
      rw [hnil, String.empty_append]
      cases readLines read rest <;> rfl
  | cons r records ih =>
      have hline : (logText toJson (r :: records) ++ rest).toList
          = (toJson r).compactChars ++ '\n' :: (logText toJson records ++ rest).toList := by
        simp [logText, lineText, compact]
      rw [readLines] at ih ⊢
      rw [hline, lines_append (all_compactChars _ (h.exact r)), List.filter_cons,
        h.allBlank_eq_false]
      simp only [Bool.not_false, if_true, List.mapM_cons, parseChars_compactChars (h.exact r),
        Option.bind_some, h.reread, ih]
      cases readLines read rest <;> rfl

/-- A log with a line that is not read is not read. -/
theorem readLines_of_parseChars_eq_none (read : Document → Option α) {line rest : List Char}
    (hprinted : line.all isPrinted) (hblank : Text.allBlank line = false)
    (hnone : parseChars line = none) (hrest : rest = [] ∨ ∃ more, rest = '\n' :: more) :
    readLines read (String.ofList (line ++ rest)) = none := by
  obtain ⟨behind, hlines⟩ : ∃ behind, lines (line ++ rest) = line :: behind := by
    rcases hrest with rfl | ⟨more, rfl⟩
    · rw [List.append_nil]
      exact ⟨[], lines_last hprinted hblank⟩
    · exact ⟨_, lines_append hprinted more⟩
  rw [readLines, String.toList_ofList, hlines, List.filter_cons, hblank]
  simp [hnone]

/-- The line of a record is read though it does not end. -/
theorem readLines_compact (h : Logged toJson read) (r : α) :
    readLines read (toJson r).compact = some [r] := by
  rw [readLines, compact, String.toList_ofList,
    lines_last (all_compactChars _ (h.exact r)) (h.allBlank_eq_false r), List.filter_cons,
    h.allBlank_eq_false]
  simp [parseChars_compactChars (h.exact r), h.reread]

/-- The first characters of a record's line, with other records behind them. -/
theorem readLines_cut (h : Logged toJson read) (hworded : Worded toJson) {r : α}
    {front back : String}
    (hcut : lineText (toJson r) = front ++ back) (hfront : front ≠ "") (hback : back ≠ "")
    (later : List α) (hmissing : later = [] → back ≠ "\n") :
    readLines read (front ++ logText toJson later) = none := by
  obtain ⟨most, last, hlast⟩ :=
    (List.eq_nil_or_concat back.toList).resolve_left (by simpa using hback)
  rw [List.concat_eq_append] at hlast
  have hchars : (toJson r).compactChars ++ ['\n'] = front.toList ++ most ++ [last] := by
    have htext := congrArg String.toList hcut
    rwa [lineText, compact, String.toList_append, String.toList_ofList, String.toList_append, hlast,
      ← List.append_assoc] at htext
  obtain ⟨hline, hfeed⟩ := List.append_inj' hchars rfl
  have hparsed := parseChars_compactChars (h.exact r)
  have hobject := h.exists_braces r
  have hne : front.toList ≠ [] := by simpa using hfront
  have hprinted := all_compactChars _ (h.exact r)
  rw [hline, List.all_append, Bool.and_eq_true] at hprinted
  have hblank : ∀ behind, Text.allBlank (front.toList ++ behind) = false := by
    intro behind
    obtain ⟨inner, hinner⟩ := hobject
    obtain ⟨c, rest, hfirst⟩ := List.exists_cons_of_ne_nil hne
    rw [hline, hfirst] at hinner
    rw [hfirst, (List.cons.inj hinner).1]
    rfl
  cases later with
  | nil =>
      have hmost : most ≠ [] := by
        rintro rfl
        refine hmissing rfl (String.toList_inj.mp ?_)
        rw [hlast, ← hfeed]
        rfl
      have hnone := parseChars_cut hparsed hobject hline hne hmost
      have hblank' := hblank []
      rw [List.append_nil] at hblank'
      have hfail := readLines_of_parseChars_eq_none read hprinted.1 hblank' hnone (.inl rfl)
      have hnil : logText toJson [] = "" := rfl
      rwa [List.append_nil, String.ofList_toList, ← String.append_empty (s := front),
        ← hnil] at hfail
  | cons next later =>
      have hnext := all_compactChars _ (h.exact next)
      have hnone := parseChars_cut_append hparsed hobject hline hne
        (parseChars_compactChars (h.exact next)) (hworded next)
      have hfail := readLines_of_parseChars_eq_none read
        (by rw [List.all_append, hprinted.1, hnext]; rfl) (hblank _) hnone
        (.inr ⟨(logText toJson later).toList, rfl⟩)
      have htext : front ++ logText toJson (next :: later) = String.ofList (front.toList
          ++ (toJson next).compactChars ++ '\n' :: (logText toJson later).toList) := by
        rw [← String.toList_inj]
        simp [logText, lineText, compact]
      rw [htext, hfail]

end Json

namespace Store

variable {s t : Store} {path : String} {records later : List α} {r : α} {k : Nat}

/-- The log holds the first bytes of a record's line, between the records that were added before
and those that were added after. -/
structure Torn (s : Store) (toJson : α → Json) (path : String) (records : List α) (r : α) (k : Nat)
    (later : List α) : Prop where
  contents : s.contents (s.place path) = (Json.logText toJson records).toUTF8
    ++ (Json.lineText (toJson r)).toUTF8.extract 0 k ++ (Json.logText toJson later).toUTF8
  found : s.Found path

theorem Torn.of_keeps (h : s.Torn toJson path records r k later) (hkeeps : s.Keeps path t) :
    t.Torn toJson path records r k later where
  contents := hkeeps.contents.trans h.contents
  found := hkeeps.found h.found

/-- A record is added to a torn log as to any other one. -/
theorem Torn.perform_appendRecord (h : s.Torn toJson path records r k later) (a : α) (host : Host) :
    ∃ t, (Action.appendRecord path (toJson a)).perform host s = (.ok (), t) ∧
      t.Torn toJson path records r k (later ++ [a]) := by
  obtain ⟨bytes, modified, hfind⟩ := h.found
  rcases Action.appendFile_spec path (Json.lineText (toJson a)).toUTF8 host s [] with
    ⟨t, hperform, hwritten, hfound⟩ | ⟨-, -, -, -, hcannot⟩
  · refine ⟨t, hperform, ?_, hfound⟩
    rw [place_eq hwritten.home, hwritten.contents_of_mem (List.mem_singleton.mpr rfl), h.contents,
      Json.logText_append, Json.logText_singleton, toUTF8_append, ByteArray.append_assoc]
  · exact absurd (canAppend_of_find hfind) hcannot

theorem Torn.recorded {added : List α} (hs : s.Torn toJson path records r k [])
    (hrun : s.Recorded toJson path added t) : t.Torn toJson path records r k added := by
  induction hrun with
  | start => exact hs
  | add h a hrun hperform ih =>
      obtain ⟨u, hperform', hu⟩ := ih.perform_appendRecord a h
      obtain rfl := (Prod.mk.inj (hperform'.symm.trans hperform)).2
      exact hu
  | aside hrun hkeeps hwritable ih => exact ih.of_keeps hkeeps

/-- What is read is what the text of the file says. -/
theorem perform_readLog_of_find {bytes : ByteArray} {modified : Instant}
    (hfind : s.find path = .ok (.file bytes modified)) (host : Host) :
    (Action.readLog read path).perform host s =
      (match String.fromUTF8? bytes with
        | none => .error (.file .notUtf8)
        | some text => match Json.readLines read text with
          | some records => .ok records
          | none => .error .json, s) := by
  have htext : s.readText path = match String.fromUTF8? bytes with
      | none => .error .notUtf8
      | some text => .ok text := by
    simp only [readText, readBytes, hfind, bind, Except.bind, pure, Except.pure]
    cases String.fromUTF8? bytes <;> rfl
  rw [Action.readLog, Action.perform_bind, Action.perform_readingIfThere, htext]
  cases String.fromUTF8? bytes with
  | none => rfl
  | some text =>
      dsimp only
      cases Json.readLines read text <;> rfl

theorem Torn.perform_readLog (h : s.Torn toJson path records r k later)
    (hread : Json.Logged toJson read) (hworded : Json.Worded toJson)
    (hk : k < (Json.lineText (toJson r)).toUTF8.size) (host : Host) :
    (k = 0 → (Action.readLog read path).perform host s = (.ok (records ++ later), s)) ∧
    (k + 1 = (Json.lineText (toJson r)).toUTF8.size → later = [] →
      (Action.readLog read path).perform host s = (.ok (records ++ [r]), s)) ∧
    (k ≠ 0 → later ≠ [] ∨ k + 1 ≠ (Json.lineText (toJson r)).toUTF8.size →
      ∃ err, (Action.readLog read path).perform host s = (.error err, s) ∧
        (err = .json ∨ err = .file .notUtf8)) := by
  obtain ⟨bytes, modified, hfind⟩ := h.found
  have hcontents := h.contents
  rw [contents_of_find hfind] at hcontents
  rw [perform_readLog_of_find hfind]
  refine ⟨?whole, ?fed, ?torn⟩
  case whole =>
    rintro rfl
    have hbytes : bytes = (Json.logText toJson (records ++ later)).toUTF8 := by
      rw [hcontents, Json.logText_append, toUTF8_append, ByteArray.extract_same,
        ByteArray.append_empty]
    rw [hbytes, fromUTF8?_toUTF8]
    dsimp only
    rw [Json.readLines_logText hread]
  case fed =>
    rintro hfed rfl
    have hbytes : bytes = (Json.logText toJson records ++ (toJson r).compact).toUTF8 := by
      have hsize := congrArg ByteArray.size (toUTF8_append (toJson r).compact "\n")
      rw [ByteArray.size_append] at hsize
      have hlast : k = (toJson r).compact.toUTF8.size := Nat.succ.inj (hfed.trans hsize)
      have hnil : (Json.logText toJson []).toUTF8 = ByteArray.empty := rfl
      rw [hcontents, hnil, ByteArray.append_empty, toUTF8_append, Json.lineText, toUTF8_append,
        ByteArray.extract_append_eq_left hlast]
    rw [hbytes, fromUTF8?_toUTF8]
    dsimp only
    rw [Json.readLines_logText_append hread, Json.readLines_compact hread]
    rfl
  case torn =>
    intro hzero hlost
    cases htext : String.fromUTF8? bytes with
    | none => exact ⟨_, rfl, .inr rfl⟩
    | some text =>
        have hbytes := fromUTF8?_eq_some.mp htext
        obtain ⟨front, back, hcut, hfront, rfl⟩ := exists_cut (Nat.le_of_lt hk)
          (hcontents.symm.trans hbytes)
        have hnone : Json.readLines read (front ++ Json.logText toJson later) = none := by
          have hsize : front.toUTF8.size = k := by
            rw [hfront, ByteArray.size_extract]
            omega
          have hline := congrArg (fun text => text.toUTF8.size) hcut
          simp only [toUTF8_append, ByteArray.size_append, hsize] at hline
          refine Json.readLines_cut hread hworded hcut ?_ ?_ later ?_
          · rintro rfl
            exact hzero hsize.symm
          · rintro rfl
            exact absurd hline (Nat.ne_of_gt hk)
          · rintro hnil rfl
            exact hlost.elim (absurd hnil) fun hne => hne hline.symm
        dsimp only
        rw [String.append_assoc, Json.readLines_logText_append hread, hnone]
        exact ⟨_, rfl, .inl rfl⟩

end Store

end Pipewright

/-!
## State that survives a restart

All that workers know of each other is in files, so a process that starts anew
has to find there what the ones before it wrote. A record in a file of its own
survives if everybody reads it as it was written (`Survives`), and a log survives
if everybody reads the records that were added to it, in their order
(`LogSurvives`). Either holds of every record whose JSON is read back, whatever
characters are in its texts (`survives_of_reread`, `logSurvives_of_logged`).

That takes care of all kinds of state: hooks, identities, signals and the merge
queue, the audit log and the archive (`state_survives_restart`).

It is otherwise where a process stopped while it added a record. The next record then shares
a line with what was left behind, and the log is not read any more (`AuditLog.all_of_torn`).
-/

namespace Pipewright

variable {α : Type} {toJson : α → Json} {read : Json.Document → Option α} {a : α}

/-! ### Files of their own -/

/-- The record is written to a file and is read from it by any process at any time, as long as that
file is left as it is; or it cannot be written, and every file holds what it held. -/
def Survives (toJson : α → Json) (read : Json.Document → Option α) (a : α) : Prop :=
  ∀ (path : String) (h : Host) (s : Store),
    (∃ t, (Action.writeRecord path (toJson a)).perform h s = (.ok (), t) ∧
      ∀ u, t.Keeps path u → ∀ h', (Action.readRecord? read path).perform h' u = (.ok (some a), u)) ∨
    ∃ err t, (Action.writeRecord path (toJson a)).perform h s = (.error err, t) ∧
      ¬s.CanReplace path ∧ ∀ other, s.Keeps other t

theorem survives_of_reread (hexact : (toJson a).isExact)
    (hread : read (toJson a).document = some a) : Survives toJson read a := by
  intro path h s
  rcases Action.perform_writeRecord hexact hread path h s with
    ⟨t, hperform, hholds, -⟩ | ⟨err, t, hperform, hcannot, htouched⟩
  · exact .inl ⟨t, hperform, fun u hkeeps h' =>
      Action.perform_readRecord? (hholds.of_keeps hkeeps) h'⟩
  · exact .inr ⟨err, t, hperform, hcannot, fun other => htouched.keeps (by simp) (by simp)⟩

theorem survives_of_logged (hread : Json.Logged toJson read) (a : α) : Survives toJson read a :=
  survives_of_reread (hread.exact a) (hread.reread a)

/-- A signal survives if its type is one that a text stands for, and its payload is free. -/
theorem Signal.survives {s : Signal} (h : s.IsReadable) :
    Survives Signal.toJson Signal.ofDocument? s :=
  survives_of_reread (isExact_toJson h.free) (ofDocument?_toJson h)

/-- Where the file can be replaced a record that survives is written and read. -/
theorem Survives.exists_read (hsurvives : Survives toJson read a) {path : String} {s : Store}
    (hcan : s.CanReplace path) (h : Host) :
    ∃ t, (Action.writeRecord path (toJson a)).perform h s = (.ok (), t) ∧
      ∀ h', (Action.readRecord? read path).perform h' t = (.ok (some a), t) := by
  rcases hsurvives path h s with ⟨t, hwrite, hread⟩ | ⟨-, -, -, hcannot, -⟩
  · exact ⟨t, hwrite, fun h' => hread t (.refl path t) h'⟩
  · exact absurd hcan hcannot

/-! ### Logs -/

/-- The records can be added to the log one by one, and however that is done any process reads them
in their order, and can add another one. -/
def LogSurvives (toJson : α → Json) (read : Json.Document → Option α) (path : String) (s : Store)
    (records : List α) : Prop :=
  (∃ t, s.Recorded toJson path records t) ∧ ∀ t, s.Recorded toJson path records t → ∀ h,
    (Action.readLog read path).perform h t = (.ok records, t) ∧
    ∀ a, ∃ u, (Action.appendRecord path (toJson a)).perform h t = (.ok (), u)

/-- A log survives if the JSON of each of its records is read back. -/
theorem logSurvives_of_logged (hread : Json.Logged toJson read) {path : String} {s : Store}
    (hs : s.Logs toJson path []) (records : List α) : LogSurvives toJson read path s records := by
  refine ⟨hs.exists_recorded .idle records, fun t hrun h => ?_⟩
  have ht := hrun.logs hs
  refine ⟨ht.perform_readLog hread h, fun a => ?_⟩
  obtain ⟨u, hperform, -⟩ := ht.perform_appendRecord a h
  exact ⟨u, hperform⟩

/-- The history of a node is what was recorded about it, in the order of recording. -/
theorem AuditLog.perform_history_of_recorded {path : String} {s t : Store}
    {records : List AuditRecord}
    (hs : s.Logs AuditRecord.toJson path []) (hrun : s.Recorded AuditRecord.toJson path records t)
    (node : String) (h : Host) :
    (history path node).perform h t = (.ok (records.filter (·.node = node)), t) := by
  have hall : (all path).perform h t = (.ok records, t) :=
    (hrun.logs hs).perform_readLog AuditRecord.logged h
  rw [history, Action.perform_bind, hall]
  rfl

theorem AuditRecord.worded : Json.Worded AuditRecord.toJson := by
  intro r
  obtain ⟨rest, hrest⟩ : ∃ rest, r.toJson.compactChars = '\x7b' :: '"' :: 't' :: rest := by
    have hquote : Json.quote "timestamp" = '"' :: 't' :: "imestamp\"".toList := by decide
    rw [AuditRecord.toJson, Json.compactChars, Json.compactFields, Json.compactFields, hquote,
      Json.separated]
    · exact ⟨_, rfl⟩
    · simp
  exact ⟨'t', rest, hrest, by decide⟩

/-- What the audit log says when it ends with the first `k` bytes of a record's line, though not
with all of them, and other records were added later. If there are no such bytes nothing is lost.
If only the line feed is missing the record counts as long as it is the last one. In all other
cases the log is not read at all, and no history is, whatever was recorded before and later.
Meanwhile records can be added as ever. -/
theorem AuditLog.all_of_torn {path : String} {s t : Store} {records later : List AuditRecord}
    {r : AuditRecord} {k : Nat} (hs : s.Torn AuditRecord.toJson path records r k [])
    (hk : k < (Json.lineText r.toJson).toUTF8.size)
    (hrun : s.Recorded AuditRecord.toJson path later t) (h : Host) :
    (k = 0 → (all path).perform h t = (.ok (records ++ later), t)) ∧
    (k + 1 = (Json.lineText r.toJson).toUTF8.size → later = [] →
      (all path).perform h t = (.ok (records ++ [r]), t)) ∧
    (k ≠ 0 → later ≠ [] ∨ k + 1 ≠ (Json.lineText r.toJson).toUTF8.size →
      ∃ err, (err = .json ∨ err = .file .notUtf8) ∧ (all path).perform h t = (.error err, t) ∧
        ∀ node, (history path node).perform h t = (.error err, t)) ∧
    ∀ a, ∃ u, (append path a).perform h t = (.ok (), u) := by
  have ht := hs.recorded hrun
  obtain ⟨hwhole, hfed, htorn⟩ := ht.perform_readLog AuditRecord.logged AuditRecord.worded hk h
  refine ⟨hwhole, hfed, fun hzero hlost => ?_, fun a => ?_⟩
  · obtain ⟨err, hall, herr⟩ := htorn hzero hlost
    refine ⟨err, herr, hall, fun node => ?_⟩
    have hall' : (all path).perform h t = (.error err, t) := hall
    rw [history, Action.perform_bind, hall']
  · obtain ⟨u, hperform, -⟩ := ht.perform_appendRecord a h
    exact ⟨u, hperform⟩

/-- A record, and the store of a process that stopped while it added it to a log of one record: a
single byte is behind the line. -/
def tornRecord : AuditRecord := ⟨"t", "n", .pending, .active, "ü", none⟩

def tornStore : Store where
  entries := [(["home", "a.jsonl"], .file
    ((Json.logText AuditRecord.toJson [tornRecord]).toUTF8
      ++ (Json.lineText tornRecord.toJson).toUTF8.extract 0 1) ⟨0, 0⟩)]

/-- One byte is enough to lose the record that was there and the one that is added. -/
theorem AuditLog.all_of_torn_byte : ∃ t err,
    tornStore.Recorded AuditRecord.toJson "a.jsonl" [tornRecord] t ∧
    (all "a.jsonl").perform .idle t = (.error err, t) := by
  have hnone : (Json.logText AuditRecord.toJson []).toUTF8 = ByteArray.empty := rfl
  have hs : tornStore.Torn AuditRecord.toJson "a.jsonl" [tornRecord] tornRecord 1 [] :=
    ⟨by rw [hnone, ByteArray.append_empty]; rfl, _, _, by rfl⟩
  obtain ⟨t, hperform, -⟩ := hs.perform_appendRecord tornRecord .idle
  have hrun : tornStore.Recorded AuditRecord.toJson "a.jsonl" ([] ++ [tornRecord]) t :=
    .add .idle tornRecord .start hperform
  obtain ⟨-, -, htorn, -⟩ := all_of_torn hs (by decide +kernel) hrun .idle
  obtain ⟨err, -, hall, -⟩ := htorn (by decide) (.inl (by decide))
  exact ⟨t, err, hrun, hall⟩

/-! ### All kinds of state -/

/-- Whatever workers keep in files is there for those that come after them. -/
theorem state_survives_restart :
    (∀ hook, Survives Hook.toJson Hook.ofDocument? hook) ∧
    (∀ identity, Survives Identity.toJson Identity.ofDocument? identity) ∧
    (∀ (signal : Signal) (text : String), signal.type = .ofText text → signal.payload.isFree →
      signal.payload.nesting ≤ 100 → Survives Signal.toJson Signal.ofDocument? signal) ∧
    (∀ entries, Survives Merge.queueToJson Merge.queueOfDocument? entries) ∧
    ∀ (path : String) (s : Store), s.CanAppend path → s.Has path none →
      (∀ records, LogSurvives Merge.Archived.toJson Merge.Archived.ofDocument? path s records) ∧
      ∀ records, LogSurvives AuditRecord.toJson AuditRecord.ofDocument? path s records ∧
        ∀ t, s.Recorded AuditRecord.toJson path records t → ∀ node h,
          (AuditLog.history path node).perform h t
            = (.ok (records.filter (·.node = node)), t) := by
  refine ⟨survives_of_logged Hook.logged, survives_of_logged Identity.logged,
    fun signal text htype hfree hnesting => ?signal, survives_of_logged Merge.queue_logged,
    fun path s hwritable hnone => ⟨?archive, fun records => ⟨?log, ?history⟩⟩⟩
  case signal =>
    refine Signal.survives ⟨?_, hfree, by omega⟩
    rw [htype, SignalType.ofText_name]
  case archive => exact logSurvives_of_logged Merge.Archived.logged (Store.logs_nil hwritable hnone)
  case log =>
    exact logSurvives_of_logged AuditRecord.logged (Store.logs_nil hwritable hnone) records
  case history =>
    exact fun t hrun node h =>
      AuditLog.perform_history_of_recorded (Store.logs_nil hwritable hnone) hrun node h

/-! Line breaks, quotes and control characters are in the texts of the following records. -/

def scribbledHook : Hook :=
  ⟨"a\"b\\", .executing, "one line\r\nanother \"line\"\t\x01 ü 🙂", "", some "\n\n", none, some ""⟩

def scribbledSignal : Signal :=
  ⟨"a", "b\n", .ofText "Wake\nup",
    .object [("", .null), ("k\"", .list [.integer (-9), .text "\x00\\u"])],
    "now"⟩

def scribbledLog : List AuditRecord :=
  [⟨"t\n", "w", .pending, .active, "a\nb \"c\"", none⟩,
    ⟨"u", "v\r", .active, .failed, "\x1b", some "\n"⟩]

theorem state_survives_restart_scribbled :
    (∃ t, (Action.writeRecord "a.json" scribbledHook.toJson).perform .idle {} = (.ok (), t) ∧
      ∀ h, (Action.readRecord? Hook.ofDocument? "a.json").perform h t
        = (.ok (some scribbledHook), t)) ∧
    (∃ t, (Action.writeRecord "a.json" scribbledSignal.toJson).perform .idle {} = (.ok (), t) ∧
      ∀ h, (Action.readRecord? Signal.ofDocument? "a.json").perform h t
        = (.ok (some scribbledSignal), t)) ∧
    ∃ t, Store.Recorded AuditRecord.toJson "a.jsonl" {} scribbledLog t ∧
      (Action.readLog AuditRecord.ofDocument? "a.jsonl").perform .idle t = (.ok scribbledLog, t) ∧
      (AuditLog.history "a.jsonl" "w").perform .idle t = (.ok (scribbledLog.take 1), t) := by
  have hcan : Store.CanReplace {} "a.json" :=
    @Store.canReplace_of_landing {} _ (by decide +kernel) [] ["home", "a.json"] (by rfl) (by rfl)
  have hwritable : Store.CanAppend {} "a.jsonl" := fun _ _ => by rfl
  have hnone : Store.Has {} "a.jsonl" none := by
    intro bytes modified
    rw [show Store.at? {} (Store.place {} "a.jsonl") = none from by rfl]
    nofun
  obtain ⟨hhook, -, hsignal, -, hlogs⟩ := state_survives_restart
  obtain ⟨⟨t, hrun⟩, hread⟩ := ((hlogs _ _ hwritable hnone).2 scribbledLog).1
  refine ⟨(hhook scribbledHook).exists_read hcan .idle,
    (hsignal scribbledSignal "Wake\nup" rfl (by decide +kernel) (by decide +kernel)).exists_read
      hcan .idle,
    t, hrun, (hread t hrun .idle).1, ?_⟩
  exact ((hlogs _ _ hwritable hnone).2 scribbledLog).2 t hrun "w" .idle

end Pipewright
