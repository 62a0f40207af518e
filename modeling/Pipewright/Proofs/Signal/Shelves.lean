import Pipewright.Proofs.Engine.Actions
import Pipewright.Proofs.Json.Free
import Pipewright.Proofs.Store.Moves
import Pipewright.Proofs.Store.Siblings
import Pipewright.Proofs.Text
import Pipewright.Signal.Mailbox
import Pipewright.Time

/-!
# Signal files

The names of signal files, what the files say, and what a directory of them shows.
-/

/-!
## Stamps

The time at the front of a file name has always the same form, eight digits for
the date and twelve for the time of day with a letter behind each, as long as
four digits are enough for the year (`Instant.toList_fileStamp`).
-/

namespace Pipewright

theorem Date.ofDays_lt (days : Int) : (ofDays days).month < 100 ∧ (ofDays days).day < 100 := by
  have hdiv : ∀ (a : Int) {b : Int}, 0 ≤ b → Int.fdiv a b = a / b :=
    fun a _ => Int.fdiv_eq_ediv_of_nonneg a
  rw [ofDays]
  simp only [hdiv _ (show (0 : Int) ≤ 146097 by decide), hdiv _ (show (0 : Int) ≤ 1460 by decide),
    hdiv _ (show (0 : Int) ≤ 36524 by decide), hdiv _ (show (0 : Int) ≤ 146096 by decide),
    hdiv _ (show (0 : Int) ≤ 365 by decide), hdiv _ (show (0 : Int) ≤ 4 by decide),
    hdiv _ (show (0 : Int) ≤ 100 by decide), hdiv _ (show (0 : Int) ≤ 153 by decide),
    hdiv _ (show (0 : Int) ≤ 5 by decide)]
  constructor
  · split <;> omega
  · omega

namespace Instant

/-- The instant has a year of four digits, and it is one that is read from a clock: it has less than
two seconds on top of its whole ones. -/
structure IsDated (a : Instant) : Prop where
  least : 0 ≤ a.date.year
  most : a.date.year ≤ 9999
  nanos : a.nanos < 2000000000

theorem secondOfDay_lt (a : Instant) : a.secondOfDay < 86400 := by
  have hlt := Int.fmod_lt_of_pos a.seconds (show (0 : Int) < 86400 by decide)
  rw [secondOfDay]
  omega

theorem filter_of_isDigit {cs : List Char} (h : ∀ c ∈ cs, c.isDigit) :
    cs.filter (fun c => c != '-' && c != ':' && c != '.') = cs := by
  refine List.filter_eq_self.mpr fun c hc => ?_
  have hne : ∀ d : Char, d.isDigit = false → c ≠ d := by
    rintro d hd rfl
    rw [h c hc] at hd
    cases hd
  simp [hne]

/-- The time at the front of a file name is eight digits, a letter, twelve digits, and a letter. -/
theorem toList_fileStamp {a : Instant} (h : a.IsDated) : ∃ date time : List Char,
    a.fileStamp.toList = date ++ 'T' :: (time ++ ['Z']) ∧ date.length = 8 ∧ time.length = 12 ∧
      (∀ c ∈ date, c.isDigit) ∧ ∀ c ∈ time, c.isDigit := by
  have hday : a.date.month < 100 ∧ a.date.day < 100 := Date.ofDays_lt (Int.fdiv a.seconds 86400)
  have hsecond := a.secondOfDay_lt
  have hyear : yearText a.date.year = Numeral.padded 4 a.date.year.toNat := by
    rw [yearText, if_pos ⟨h.least, h.most⟩]
  have hyears : a.date.year.toNat < 10 ^ 4 := by
    have hmost := h.most
    omega
  have hseconds : a.secondOfDay % 60 + a.nanos / 1000000000 < 10 ^ 2 := by
    have hnanos := h.nanos
    omega
  refine ⟨(Numeral.padded 4 a.date.year.toNat).toList ++ (Numeral.padded 2 a.date.month).toList
      ++ (Numeral.padded 2 a.date.day).toList,
    (Numeral.padded 2 (a.secondOfDay / 3600)).toList
      ++ (Numeral.padded 2 (a.secondOfDay / 60 % 60)).toList
      ++ (Numeral.padded 2 (a.secondOfDay % 60 + a.nanos / 1000000000)).toList
      ++ (Numeral.padded 6 (a.nanos % 1000000000 / 1000)).toList, ?_, ?_, ?_, ?_, ?_⟩
  · have hkept : ∀ {width n : Nat}, (Numeral.padded width n).toList.filter
        (fun c => c != '-' && c != ':' && c != '.') = (Numeral.padded width n).toList :=
      filter_of_isDigit Numeral.isDigit_padded
    rw [fileStamp, String.toList_ofList, stamp, baseText, hyear]
    simp [hkept]
  · rw [List.length_append, List.length_append, Numeral.length_padded (by decide) hyears,
      Numeral.length_padded (by decide) hday.1, Numeral.length_padded (by decide) hday.2]
  · rw [List.length_append, List.length_append, List.length_append,
      Numeral.length_padded (by decide) (by omega), Numeral.length_padded (by decide) (by omega),
      Numeral.length_padded (by decide) hseconds, Numeral.length_padded (by decide) (by omega)]
  · simp only [List.forall_mem_append]
    exact ⟨⟨Numeral.isDigit_padded, Numeral.isDigit_padded⟩, Numeral.isDigit_padded⟩
  · simp only [List.forall_mem_append]
    exact ⟨⟨⟨Numeral.isDigit_padded, Numeral.isDigit_padded⟩, Numeral.isDigit_padded⟩,
      Numeral.isDigit_padded⟩

/-- No time at the front of a file name has a slash in it, whatever the year is. -/
theorem slash_not_mem_fileStamp (a : Instant) : '/' ∉ a.fileStamp.toList := by
  have hdigits : ∀ {width n : Nat}, '/' ∉ (Numeral.padded width n).toList :=
    fun hmem => absurd (Numeral.isDigit_padded _ hmem) (by decide)
  have hyear : '/' ∉ (yearText a.date.year).toList := by
    rw [yearText]
    split
    · exact hdigits
    · rw [String.toList_append, List.mem_append, not_or]
      refine ⟨?_, hdigits⟩
      split <;> decide
  rw [fileStamp, String.toList_ofList]
  refine fun hmem => absurd (List.mem_filter.mp hmem).1 ?_
  rw [stamp, baseText]
  simp [hdigits, hyear]

end Instant

end Pipewright

/-!
## Names of signal files

Whoever sends a signal, to whom, and whatever it is about: the name of its file
is one that looks like a signal's (`isSignalFile_fileName`), since every character
of these texts that cannot stand in a name has been replaced and the time in
front has its fixed form. The time is what orders names, wherever two of them
differ in it (`lt_of_stamp_lt`).
-/

namespace Pipewright.Signal

/-! ### Parts of names -/

theorem afterDigits?_append {digits : List Char} (h : ∀ c ∈ digits, c.isDigit) (rest : List Char) :
    afterDigits? digits.length (digits ++ rest) = some rest := by
  induction digits with
  | nil => rfl
  | cons c digits ih =>
    have hc := Text.isDecimalDigit_of_isDigit (h c (List.mem_cons_self ..))
    rw [List.length_cons, List.cons_append, afterDigits?, if_pos hc]
    exact ih fun d hd => h d (List.mem_cons_of_mem _ hd)

/-- A text becomes a part of a name that is not empty and can stand in one. -/
theorem namePart_spec (s : String) :
    (namePart s).toList ≠ [] ∧ ∀ c ∈ (namePart s).toList, isPlain c := by
  rw [namePart]
  split
  · exact ⟨by decide, List.all_eq_true.mp (by decide)⟩
  · next hne =>
    rw [String.toList_ofList]
    refine ⟨hne, ?_⟩
    intro c hc
    obtain ⟨d, -, rfl⟩ := List.mem_map.mp hc
    split
    · assumption
    · decide

/-- What stands behind the time in the name of a signal file. -/
def tailOf (sender recipient : String) (type : SignalType) : String :=
  namePart sender ++ "-" ++ namePart recipient ++ "-" ++ namePart type.name ++ ".json"

theorem isNameEnd_tailOf (sender recipient : String) (type : SignalType) :
    isNameEnd (tailOf sender recipient type).toList := by
  obtain ⟨hne, hsender⟩ := namePart_spec sender
  obtain ⟨-, hrecipient⟩ := namePart_spec recipient
  obtain ⟨-, htype⟩ := namePart_spec type.name
  have hlength := List.length_pos_iff.mpr hne
  have hall : ∀ c ∈ (tailOf sender recipient type).toList, isPlain c || c == '.' := by
    have hplain : ∀ {cs : List Char}, (∀ c ∈ cs, isPlain c) → ∀ c ∈ cs, isPlain c || c == '.' :=
      fun h c hc => Bool.or_eq_true_iff.mpr (.inl (h c hc))
    have hsep : ∀ c ∈ "-".toList, isPlain c || c == '.' := List.all_eq_true.mp (by decide)
    simp only [tailOf, String.toList_append, List.forall_mem_append]
    exact ⟨⟨⟨⟨⟨hplain hsender, hsep⟩, hplain hrecipient⟩, hsep⟩, hplain htype⟩,
      List.all_eq_true.mp (by decide)⟩
  have hsuffix : ".json".toList <:+ (tailOf sender recipient type).toList := by
    rw [tailOf, String.toList_append]
    exact List.suffix_append ..
  rw [isNameEnd, Bool.and_eq_true_iff, Bool.and_eq_true_iff, List.all_eq_true,
    List.isSuffixOf_iff_suffix, decide_eq_true_eq]
  refine ⟨⟨hall, hsuffix⟩, ?_⟩
  simp only [tailOf, String.toList_append, List.length_append]
  have hend : ".json".toList.length = 5 := rfl
  have hsep : "-".toList.length = 1 := rfl
  omega

/-! ### Whole names -/

variable {now : Instant}

theorem toList_fileName (sender recipient : String) (type : SignalType) (h : now.IsDated) :
    ∃ date time : List Char, (fileName sender recipient type now).toList
        = date ++ 'T' :: (time ++ 'Z' :: '-' :: (tailOf sender recipient type).toList) ∧
      date.length = 8 ∧ time.length = 12 ∧ (∀ c ∈ date, c.isDigit) ∧ ∀ c ∈ time, c.isDigit := by
  obtain ⟨date, time, hstamp, hshape⟩ := Instant.toList_fileStamp h
  refine ⟨date, time, ?_, hshape⟩
  simp only [fileName, tailOf, String.toList_append, hstamp]
  simp

/-- The name of a signal's file is that of a signal file. -/
theorem isSignalFile_fileName (sender recipient : String) (type : SignalType) (h : now.IsDated) :
    isSignalFile (fileName sender recipient type now) := by
  obtain ⟨date, time, hname, hdate, htime, hdates, htimes⟩ :=
    toList_fileName sender recipient type h
  have hfront := afterDigits?_append hdates
    ('T' :: (time ++ 'Z' :: '-' :: (tailOf sender recipient type).toList))
  have hback := afterDigits?_append htimes ('Z' :: '-' :: (tailOf sender recipient type).toList)
  rw [hdate] at hfront
  rw [htime] at hback
  rw [isSignalFile, hname, hfront]
  simp only [hback]
  exact isNameEnd_tailOf sender recipient type

/-- The name of a signal's file can be that of a file. -/
theorem isName_fileName (sender recipient : String) (type : SignalType) (now : Instant) :
    Path.IsName (fileName sender recipient type now) := by
  obtain ⟨-, hsender⟩ := namePart_spec sender
  obtain ⟨-, hrecipient⟩ := namePart_spec recipient
  obtain ⟨-, htype⟩ := namePart_spec type.name
  have hplain : ∀ {cs : List Char}, (∀ c ∈ cs, isPlain c) → '/' ∉ cs :=
    fun h hmem => absurd (h _ hmem) (by decide)
  refine ⟨?_, 'n', ?_, by decide⟩
  · simp [fileName, now.slash_not_mem_fileStamp, hplain hsender, hplain hrecipient, hplain htype]
  · rw [fileName, String.toList_append, List.getLast?_append]
    rfl

theorem append_of_afterDigits? {n : Nat} {cs rest : List Char} (h : afterDigits? n cs = some rest) :
    ∃ front, cs = front ++ rest ∧ '/' ∉ front := by
  induction n generalizing cs with
  | zero => exact ⟨[], Option.some.inj h, List.not_mem_nil⟩
  | succ n ih =>
    cases cs with
    | nil => cases h
    | cons c cs =>
      rw [afterDigits?] at h
      split at h
      · next hdigit =>
        obtain ⟨front, rfl, hfront⟩ := ih h
        refine ⟨c :: front, rfl, ?_⟩
        rw [List.mem_cons, not_or]
        exact ⟨fun heq => absurd (heq ▸ hdigit) (by decide), hfront⟩
      · cases h

/-- A name that is that of a signal file can be that of a file. -/
theorem isName_of_isSignalFile {name : String} (h : isSignalFile name) : Path.IsName name := by
  rw [isSignalFile] at h
  split at h
  · next hdate =>
    split at h
    · next rest htime =>
      simp only [isNameEnd, Bool.and_eq_true, List.all_eq_true, List.isSuffixOf_iff_suffix] at h
      obtain ⟨⟨hplain, front, rfl⟩, -⟩ := h
      obtain ⟨date, hname, hdates⟩ := append_of_afterDigits? hdate
      obtain ⟨time, rfl, htimes⟩ := append_of_afterDigits? htime
      have hrest : '/' ∉ front ++ ".json".toList := fun hmem => absurd (hplain '/' hmem) (by decide)
      refine ⟨?_, 'n', ?_, by decide⟩
      · rw [hname]
        simp only [List.mem_append, List.mem_cons, not_or] at hrest ⊢
        exact ⟨hdates, by decide, htimes, by decide, by decide, hrest⟩
      · have hend : name.toList = (date ++ 'T' :: (time ++ 'Z' :: '-' :: front)) ++
            ".json".toList := by
          simp [hname]
        rw [hend, List.getLast?_append]
        rfl
    · cases h
  · cases h

/-! ### Order -/

def stampOf (name : String) : List Char := name.toList.take 22

theorem lt_of_take_lt {k : Nat} {l l' : List Char} (h : l.take k < l'.take k) : l < l' := by
  induction k generalizing l l' with
  | zero =>
    rw [List.take_zero, List.take_zero] at h
    exact absurd h (List.lt_irrefl _)
  | succ k ih =>
    cases l' with
    | nil =>
      rw [List.take_nil] at h
      exact absurd h (List.not_lt_nil _)
    | cons b l' =>
      cases l with
      | nil => exact List.nil_lt_cons ..
      | cons a l =>
        rw [List.take_succ_cons, List.take_succ_cons, List.cons_lt_cons_iff] at h
        rw [List.cons_lt_cons_iff]
        exact h.imp_right fun h => ⟨h.1, ih h.2⟩

theorem lt_of_stamp_lt {name other : String} (h : stampOf name < stampOf other) : name < other :=
  String.lt_iff.mpr (lt_of_take_lt h)

end Pipewright.Signal

/-!
## What a signal file says

The file of a signal is read back as the signal that was sent, its type and its
payload included, if the payload is one that comes back. That holds of every type
that a text stands for: a word for one of the known types is written in capitals
and known again, and any other text stays as it is.
-/

namespace Pipewright

namespace SignalType

/-- A type that a text stands for is known again by its name. -/
theorem ofText_name (s : String) : ofText (ofText s).name = ofText s := by
  cases hfind : known.find? (·.name = capitals s) with
  | none =>
    have hother : ofText s = other s := by rw [ofText, hfind]; rfl
    rw [hother, name, hother]
  | some t =>
    have htype : ofText s = t := by rw [ofText, hfind]; rfl
    have hknown := List.mem_of_find?_eq_some hfind
    have hall : ∀ t ∈ known, ofText t.name = t := by decide
    rw [htype, hall t hknown]

end SignalType

namespace Signal

/-- The signal comes back from a file: its type is what a text stands for, and its payload is a
value that programs hold, without real numbers and nested no deeper than readers allow. -/
structure IsReadable (s : Signal) : Prop where
  type : SignalType.ofText s.type.name = s.type
  free : s.payload.isFree
  nesting : s.payload.nesting ≤ 126

theorem isExact_toJson {s : Signal} (h : s.payload.isFree) : s.toJson.isExact := by
  simp [toJson, Json.isExact, Json.haveExact, Json.isExact_of_isFree _ h]

theorem isFinite_toJson {s : Signal} (h : s.payload.isFinite) : s.toJson.isFinite := by
  simp [toJson, Json.isFinite, Json.haveFinite, h]

/-- A signal is read back with what its payload is read as. -/
theorem ofDocument?_document {s : Signal} (htype : SignalType.ofText s.type.name = s.type) :
    ofDocument? s.toJson.document
      = (Json.asFree s.payload.document).map fun payload => { s with payload } := by
  have hfields := fun fields => @Json.recordFields_document fieldNames fields
  rw [toJson, ofDocument?, hfields _ rfl (by decide)]
  cases hread : Json.asFree s.payload.document with
  | none => simp [Json.document, Json.required, Json.asText, Json.defaulted, hread]
  | some payload => simp [Json.document, Json.required, Json.asText, Json.defaulted, hread, htype]

theorem ofDocument?_toJson {s : Signal} (h : s.IsReadable) :
    ofDocument? s.toJson.document = some s := by
  rw [ofDocument?_document h.type, Json.asFree_document h.free h.nesting]
  rfl

end Signal

namespace Mailbox

theorem signalOf?_eq {s : Signal} (h : s.payload.isFinite) :
    signalOf? s.toJson.pretty.toUTF8 = Signal.ofDocument? s.toJson.document := by
  rw [signalOf?, Json.readRecordBytes, Json.ofBytes?_pretty (Signal.isFinite_toJson h)]
  rfl

theorem signalOf?_pretty {s : Signal} (h : s.IsReadable) :
    signalOf? s.toJson.pretty.toUTF8 = some s :=
  (signalOf?_eq (Json.isFinite_of_isExact _ (Json.isExact_of_isFree _ h.free))).trans
    (Signal.ofDocument?_toJson h)

end Mailbox

end Pipewright

/-!
## Signals in a directory

A mailbox keeps its signals in two directories, those that wait and those that
have been taken. Where every file that looks like one of a signal can be opened,
whatever is in it, the signals that are read are those in the files that can be
read as one (`Legible.perform_pending`). Of one directory it is also said which
signals are in it (`Shelf`): each has a file of its own, and no other file there
looks like one of a signal. Listing such a directory gives the names of these
signals in order, and reading it gives the signals.
-/

namespace Pipewright.Mailbox

open Pipewright.Action Signal Store

def bytesOf (s : Signal) : ByteArray := s.toJson.pretty.toUTF8

abbrev Letter := String × Signal

/-- The signal can be read, and its name is that of a signal file. -/
structure Letter.IsMail (m : Letter) : Prop where
  file : isSignalFile m.1
  name : Path.IsName m.1
  readable : m.2.IsReadable

variable {dir d name : String} {s t u : Store} {l waiting taken front back : List Letter}
  {m : Letter}
  {f : Filter} {places : List (List String)} {names : List String} {bytes : ByteArray} {h : Host}

/-! ### The files in a directory -/

/-- Where there is no directory there are no files in it. -/
theorem perform_files_of_missing (hlist : s.list d = .error .notFound) (h : Host) :
    (files d).perform h s = (.ok [], s) := by
  rw [files, perform_bind, perform_readingIfThere, hlist]
  rfl

theorem perform_pending_of_missing (hlist : s.list d = .error .notFound) (h : Host) :
    (pending d).perform h s = (.ok [], s) := by
  rw [pending, perform_bind, perform_files_of_missing hlist]
  rfl

theorem at?_of_has (hname : Path.IsName name) (hhas : s.Has (Path.join dir name) (some bytes)) :
    ∃ modified, s.at? (s.place dir ++ [name]) = some (.file bytes modified) := by
  obtain ⟨modified, hfind⟩ := hhas
  rw [← s.place_join dir hname]
  exact ⟨modified, (find_eq_file.mp hfind).2.1⟩

/-- The names of the signal files in a directory are found. -/
theorem perform_files_of_isDirectory (hdir : s.isDirectory dir) (h : Host) :
    ∃ names, (files dir).perform h s = (.ok names, s) ∧ names.Pairwise (· ≤ ·) ∧
      (∀ name ∈ names, isSignalFile name ∧ s.at? (s.place dir ++ [name]) ≠ none) ∧
      ∀ name bytes, isSignalFile name → s.Has (Path.join dir name) (some bytes) → name ∈ names := by
  obtain ⟨names, hlist, hsorted, hthere, hfiles⟩ := exists_list hdir
  refine ⟨names.filter isSignalFile, ?_, hsorted.filter _, ?_, ?_⟩
  · rw [files, perform_bind, perform_readingIfThere, hlist]
    rfl
  · intro name hname
    obtain ⟨hname, hfile⟩ := List.mem_filter.mp hname
    exact ⟨hfile, hthere name hname⟩
  · intro name bytes hfile hhas
    obtain ⟨modified, hat⟩ := at?_of_has (isName_of_isSignalFile hfile) hhas
    exact List.mem_filter.mpr ⟨hfiles _ _ _ hat, hfile⟩

theorem readBytes_of_has (hhas : s.Has (Path.join dir name) (some bytes)) :
    s.readBytes (Path.join dir name) = .ok bytes := by
  obtain ⟨modified, hfind⟩ := hhas
  rw [readBytes, hfind]
  rfl

theorem perform_readFile?_of_has (hhas : s.Has (Path.join dir name) (some bytes)) (h : Host) :
    (readFile? dir name).perform h s = (.ok (some bytes), s) := by
  rw [readFile?, perform_readingIfThere, readBytes_of_has hhas]

/-- A signal that is read, waited for and claimed is received. -/
theorem perform_takeFrom_of_claim {signal : Signal} {target : String}
    (hread : (readFile? dir name).perform h s = (.ok (some bytes), s))
    (hsignal : signalOf? bytes = some signal) (haccepts : f.accepts signal)
    (hclaim : (claim dir name).perform h s = (.ok (some target), t)) (rest : List String) :
    (takeFrom dir f (name :: rest)).perform h s = (.ok (some ⟨signal, name, target⟩), t) := by
  rw [takeFrom, perform_bind, hread]
  dsimp only
  rw [hsignal]
  dsimp only
  rw [if_pos haccepts, perform_bind, hclaim]
  rfl

/-! ### The signals that can be read -/

/-- The signal is in the mailbox and can be read. -/
structure Waits (dir : String) (s : Store) (m : Letter) : Prop where
  file : isSignalFile m.1
  readable : ∃ bytes, s.Has (Path.join dir m.1) (some bytes) ∧ signalOf? bytes = some m.2

/-- Every file that looks like a signal can be read, as a signal or not. -/
structure Legible (dir : String) (s : Store) : Prop where
  there : s.isDirectory dir
  files : ∀ name, isSignalFile name → s.at? (s.place dir ++ [name]) ≠ none →
    ∃ bytes, s.Has (Path.join dir name) (some bytes)

theorem perform_readAll_of_has
    (hnames : ∀ name ∈ names, ∃ bytes, s.Has (Path.join dir name) (some bytes))
    (h : Host) :
    ∃ ms, (readAll dir names).perform h s = (.ok ms, s) ∧ ∀ m, m ∈ ms ↔
      m.1 ∈ names ∧ ∃ bytes, s.Has (Path.join dir m.1) (some bytes) ∧
        signalOf? bytes = some m.2 := by
  induction names with
  | nil => exact ⟨[], rfl, by simp⟩
  | cons name names ih =>
    obtain ⟨⟨bytes, hhas⟩, hnames⟩ := List.forall_mem_cons.mp hnames
    obtain ⟨ms, hrest, hmem⟩ := ih hnames
    have hperform : (readAll dir (name :: names)).perform h s
        = (.ok (((signalOf? bytes).map fun signal => (name, signal)).toList ++ ms), s) := by
      rw [readAll, perform_bind, perform_readFile?_of_has hhas]
      dsimp only
      rw [perform_bind, hrest]
      dsimp only
      rw [Option.bind_some]
      cases signalOf? bytes <;> rfl
    refine ⟨_, hperform, fun m => ?_⟩
    rw [List.mem_append, hmem, Option.mem_toList, Option.map_eq_some_iff,
      List.mem_cons]
    constructor
    · rintro (⟨signal, hsignal, rfl⟩ | ⟨hname, hread⟩)
      · exact ⟨.inl rfl, bytes, hhas, hsignal⟩
      · exact ⟨.inr hname, hread⟩
    · rintro ⟨heq | hname, bytes', hhas', hsignal⟩
      · rw [heq] at hhas'
        obtain rfl := Option.some.inj (hhas.unique hhas')
        exact .inl ⟨m.2, hsignal, Prod.ext heq.symm rfl⟩
      · exact .inr ⟨hname, bytes', hhas', hsignal⟩

/-- The signals that are listed are those that can be read. -/
theorem Legible.perform_pending (hs : Legible dir s) (h : Host) :
    ∃ ms, (pending dir).perform h s = (.ok ms, s) ∧ ∀ m, m ∈ ms ↔ Waits dir s m := by
  obtain ⟨names, hfiles, -, hthere, hnames⟩ := perform_files_of_isDirectory hs.there h
  obtain ⟨ms, hread, hmem⟩ := perform_readAll_of_has
    (fun name hname => hs.files name (hthere name hname).1 (hthere name hname).2) h
  refine ⟨ms, by rw [pending, perform_bind, hfiles]; exact hread, fun m => (hmem m).trans ?_⟩
  constructor
  · rintro ⟨hname, hread⟩
    exact ⟨(hthere _ hname).1, hread⟩
  · rintro ⟨hfile, bytes, hhas, hsignal⟩
    exact ⟨hnames _ _ hfile hhas, bytes, hhas, hsignal⟩

/-! ### A directory with these signals -/

/-- The signal files in a directory are these. -/
structure Shelf (d : String) (s : Store) (l : List Letter) : Prop where
  mail : ∀ m ∈ l, m.IsMail
  holds : ∀ m ∈ l, s.Has (Path.join d m.1) (some (bytesOf m.2))
  only : ∀ name, isSignalFile name → s.at? (s.place d ++ [name]) ≠ none → ∃ m ∈ l, m.1 = name

namespace Shelf

theorem at?_eq_none (hs : Shelf d s l) (hname : isSignalFile name) (hnew : ∀ m ∈ l, m.1 ≠ name) :
    s.at? (s.place d ++ [name]) = none := by
  by_contra hat
  obtain ⟨m, hm, heq⟩ := hs.only name hname hat
  exact hnew m hm heq

/-- The directory is as it was where no signal file was changed. -/
theorem of_altered (hs : Shelf d s l) (h : Altered places s t)
    (hplaces : ∀ name, isSignalFile name → s.place d ++ [name] ∉ places) : Shelf d t l where
  mail := hs.mail
  holds := by
    intro m hm
    refine h.has ?_ (hs.holds m hm)
    rw [s.place_join d (hs.mail m hm).name]
    exact hplaces m.1 (hs.mail m hm).file
  only := by
    intro name hname hat
    rw [place_eq h.home, h.kept _ (hplaces name hname)] at hat
    exact hs.only name hname hat

theorem concat (hs : Shelf d s l) (h : Altered (places ++ [s.place d ++ [m.1]]) s t)
    (hplaces : ∀ name, isSignalFile name → s.place d ++ [name] ∉ places) (hm : m.IsMail)
    (hnew : ∀ m' ∈ l, m'.1 ≠ m.1) (hhas : t.Has (Path.join d m.1) (some (bytesOf m.2))) :
    Shelf d t (l ++ [m]) where
  mail := by
    intro m' hm'
    rcases List.mem_append.mp hm' with hold | hlast
    · exact hs.mail m' hold
    · exact List.mem_singleton.mp hlast ▸ hm
  holds := by
    intro m' hm'
    rcases List.mem_append.mp hm' with hold | hlast
    · refine h.has ?_ (hs.holds m' hold)
      have hne := hnew m' hold
      have hplace := hplaces m'.1 (hs.mail m' hold).file
      rw [s.place_join d (hs.mail m' hold).name]
      simp [hplace, hne]
    · exact List.mem_singleton.mp hlast ▸ hhas
  only := by
    intro name hname hat
    by_cases heq : name = m.1
    · exact ⟨m, List.mem_append_right _ (List.mem_singleton_self m), heq.symm⟩
    · have hplace := hplaces name hname
      rw [place_eq h.home, h.kept _ (by simp [hplace, heq])] at hat
      obtain ⟨m', hm', hname⟩ := hs.only name hname hat
      exact ⟨m', List.mem_append_left _ hm', hname⟩

theorem remove (hs : Shelf d s (front ++ m :: back))
    (h : Altered (places ++ [s.place d ++ [m.1]]) s t)
    (hplaces : ∀ name, isSignalFile name → s.place d ++ [name] ∉ places)
    (hnew : ∀ m' ∈ front ++ back, m'.1 ≠ m.1) (hgone : t.at? (s.place d ++ [m.1]) = none) :
    Shelf d t (front ++ back) := by
  have hmem : ∀ {m'}, m' ∈ front ++ back → m' ∈ front ++ m :: back := by
    intro m' hm'
    simp only [List.mem_append, List.mem_cons] at hm' ⊢
    exact hm'.imp_right .inr
  refine ⟨fun m' hm' => hs.mail m' (hmem hm'), ?_, ?_⟩
  · intro m' hm'
    have hne := hnew m' hm'
    have hmail := hs.mail m' (hmem hm')
    have hplace := hplaces m'.1 hmail.file
    refine h.has ?_ (hs.holds m' (hmem hm'))
    rw [s.place_join d hmail.name]
    simp [hplace, hne]
  · intro name hname hat
    have heq : name ≠ m.1 := by
      rintro rfl
      rw [place_eq h.home, hgone] at hat
      exact hat rfl
    have hplace := hplaces name hname
    rw [place_eq h.home, h.kept _ (by simp [hplace, heq])] at hat
    obtain ⟨m', hm', rfl⟩ := hs.only name hname hat
    refine ⟨m', ?_, rfl⟩
    simp only [List.mem_append, List.mem_cons] at hm' ⊢
    rcases hm' with hfront | rfl | hback
    · exact .inl hfront
    · exact absurd rfl heq
    · exact .inr hback

theorem perform_files (hs : Shelf d s l) (hdir : s.isDirectory d) (h : Host) :
    ∃ names, (files d).perform h s = (.ok names, s) ∧ names.Pairwise (· ≤ ·) ∧
      ∀ name, name ∈ names ↔ ∃ m ∈ l, m.1 = name := by
  obtain ⟨names, hfiles, hsorted, hthere, hnames⟩ := perform_files_of_isDirectory hdir h
  refine ⟨names, hfiles, hsorted, fun name => ⟨fun hname => ?_, ?_⟩⟩
  · exact hs.only name (hthere name hname).1 (hthere name hname).2
  · rintro ⟨m, hm, rfl⟩
    exact hnames _ _ (hs.mail m hm).file (hs.holds m hm)

theorem waits_iff (hs : Shelf d s l) : Waits d s m ↔ m ∈ l := by
  constructor
  · rintro ⟨hfile, bytes, hhas, hsignal⟩
    obtain ⟨modified, hat⟩ := at?_of_has (isName_of_isSignalFile hfile) hhas
    obtain ⟨m', hm', hname⟩ := hs.only m.1 hfile (by rw [hat]; simp)
    have hbytes := Option.some.inj ((hname ▸ hs.holds m' hm').unique hhas)
    rw [← hbytes, bytesOf, signalOf?_pretty (hs.mail m' hm').readable] at hsignal
    exact Prod.ext hname (Option.some.inj hsignal) ▸ hm'
  · intro hm
    exact ⟨(hs.mail m hm).file, _, hs.holds m hm, signalOf?_pretty (hs.mail m hm).readable⟩

/-- The signals in the directory are read, and no other ones. -/
theorem perform_pending (hs : Shelf d s l) (hdir : s.isDirectory d) (h : Host) :
    ∃ ms, (pending d).perform h s = (.ok ms, s) ∧ ∀ m, m ∈ ms ↔ m ∈ l := by
  have hlegible : Legible d s := by
    refine ⟨hdir, fun name hfile hat => ?_⟩
    obtain ⟨m, hm, rfl⟩ := hs.only name hfile hat
    exact ⟨_, hs.holds m hm⟩
  obtain ⟨ms, hperform, hms⟩ := hlegible.perform_pending h
  exact ⟨ms, hperform, fun m => (hms m).trans hs.waits_iff⟩

end Shelf

end Pipewright.Mailbox
