import Pipewright.Json.Record
import Pipewright.Proofs.Json.Reals
import Pipewright.Proofs.Text

/-!
# Files of values

Fields of records and files of values are read back.
-/

/-!
## Files of values read back

The indented layout has the tokens of the line layout with blanks between them,
and a reader drops the blanks it meets before a token. So a value that was written
to a file of its own is read back from its bytes (`ofBytes?_pretty`), unless a real
number in it is infinite, or no number, and written as a word. A record has no real
numbers (`readRecordBytes_fileText`).

The proof follows the layout: a value, the items of a list and the fields of an
object are read in turn, each with what follows it left over.
-/

namespace Pipewright.Json

open Document

/-! ### Blanks -/

theorem skipSpace_append {blanks : List Char} (h : ∀ c ∈ blanks, isSpace c) (s : List Char) :
    skipSpace (blanks ++ s) = skipSpace s :=
  List.dropWhile_append_of_pos h

theorem isSpace_of_mem_newLine {level : Nat} : ∀ c ∈ newLine level, isSpace c := by
  intro c hc
  rcases List.mem_cons.mp hc with rfl | hc
  · rfl
  · rw [List.eq_of_mem_replicate hc]
    rfl

theorem readValue_append {blanks : List Char} (h : ∀ c ∈ blanks, isSpace c) (most : Nat)
    (s : List Char) : readValue most (blanks ++ s) = readValue most s := by
  cases most with
  | zero => rfl
  | succ most =>
      rw [readValue, readValue, skipSpace_append h]

theorem readItems_append {blanks : List Char} (h : ∀ c ∈ blanks, isSpace c) (most k : Nat)
    (s : List Char) :
    readItems (readValue most) k (blanks ++ s) = readItems (readValue most) k s := by
  cases k with
  | zero => rfl
  | succ k => rw [readItems, readItems, readValue_append h]

theorem readFields_append {blanks : List Char} (h : ∀ c ∈ blanks, isSpace c)
    (value : List Char → Option (Document × List Char)) (k : Nat) (s : List Char) :
    readFields value k (blanks ++ s) = readFields value k s := by
  cases k with
  | zero => rfl
  | succ k => rw [readFields, readFields, skipSpace_append h]

theorem readValue_list_append {blanks : List Char} (h : ∀ c ∈ blanks, isSpace c) (most : Nat)
    (s : List Char) : readValue most ('[' :: (blanks ++ s)) = readValue most ('[' :: s) := by
  cases most with
  | zero => rfl
  | succ most =>
      rw [readValue_bracket, readValue_bracket, skipSpace_append h]

theorem readValue_object_append {blanks : List Char} (h : ∀ c ∈ blanks, isSpace c) (most : Nat)
    (s : List Char) :
    readValue most ('\x7b' :: (blanks ++ s)) = readValue most ('\x7b' :: s) := by
  cases most with
  | zero => rfl
  | succ most =>
      rw [readValue_brace, readValue_brace, skipSpace_append h]

/-! ### Values -/

mutual

def isFinite : Json → Bool
  | real (.finite _ _) => true
  | real _ => false
  | list items => areFinite items
  | object fields => haveFinite fields
  | _ => true

def areFinite : List Json → Bool
  | [] => true
  | v :: rest => isFinite v && areFinite rest

def haveFinite : List (String × Json) → Bool
  | [] => true
  | (_, v) :: rest => isFinite v && haveFinite rest

end

mutual

theorem isFinite_of_isExact (v : Json) (h : v.isExact) : v.isFinite := by
  cases v with
  | real x => cases h
  | list items => exact areFinite_of_areExact items h
  | object fields => exact haveFinite_of_haveExact fields h
  | _ => rfl

theorem areFinite_of_areExact (items : List Json) (h : areExact items) : areFinite items := by
  cases items with
  | nil => rfl
  | cons v items =>
    obtain ⟨hv, hitems⟩ := Bool.and_eq_true_iff.mp h
    exact Bool.and_eq_true_iff.mpr ⟨isFinite_of_isExact v hv, areFinite_of_areExact items hitems⟩

theorem haveFinite_of_haveExact (fields : List (String × Json)) (h : haveExact fields) :
    haveFinite fields := by
  cases fields with
  | nil => rfl
  | cons field fields =>
    obtain ⟨hv, hfields⟩ := Bool.and_eq_true_iff.mp h
    exact Bool.and_eq_true_iff.mpr
      ⟨isFinite_of_isExact field.2 hv, haveFinite_of_haveExact fields hfields⟩

end

theorem exists_finite {x : Binary64} (h : (real x).isFinite) :
    ∃ negative m, x = .finite negative m := by
  cases x with
  | finite negative m => exact ⟨negative, m, rfl⟩
  | infinite negative => cases h
  | notANumber => cases h

theorem length_prettyItems (level : Nat) (items : List Json) :
    (prettyItems level items).length = items.length := by
  induction items with
  | nil => rfl
  | cons v items ih => rw [prettyItems, List.length_cons, List.length_cons, ih]

theorem length_prettyFields (level : Nat) (fields : List (String × Json)) :
    (prettyFields level fields).length = fields.length := by
  induction fields with
  | nil => rfl
  | cons e fields ih => rw [prettyFields, List.length_cons, List.length_cons, ih]

theorem stops_prettyChars (v : Json) (h : v.isFinite) (level : Nat) (rest : List Char) :
    Stops isBetween (v.prettyChars level ++ rest) := by
  cases v with
  | list items => cases items <;> rfl
  | object fields => cases fields <;> rfl
  | real x =>
      obtain ⟨negative, m, rfl⟩ := exists_finite h
      obtain ⟨c, cs, hcs, hc⟩ := exists_cons_render negative m
      rw [prettyChars, hcs]
      exact isBetween_of_isSignOrDigit hc
  | null => rfl
  | text s => rfl
  | boolean b => exact stops_compactChars (.boolean b) rfl rest
  | integer i => exact stops_compactChars (.integer i) rfl rest

theorem stops_prettyItems (v : Json) (items : List Json) (h : areFinite (v :: items))
    (level : Nat) (sep rest : List Char) :
    Stops isBetween (separated sep (prettyItems level (v :: items)) ++ rest) := by
  have hv := (Bool.and_eq_true_iff.mp h).1
  cases items with
  | nil => exact stops_prettyChars v hv level rest
  | cons w items =>
      rw [prettyItems, prettyItems, separated, List.append_assoc, List.append_assoc]
      · exact stops_prettyChars v hv level _
      · simp

theorem exists_prettyFields (key : String) (v : Json) (fields : List (String × Json))
    (level : Nat) (sep rest : List Char) :
    ∃ s, separated sep (prettyFields level ((key, v) :: fields)) ++ rest = '"' :: s := by
  cases fields with
  | nil => exact ⟨_, rfl⟩
  | cons e fields =>
      obtain ⟨key', w⟩ := e
      rw [prettyFields, prettyFields, separated]
      · exact ⟨_, rfl⟩
      · simp

theorem skipSpace_newLine (level : Nat) {c : Char} (hc : isSpace c = false) (s : List Char) :
    skipSpace (newLine level ++ c :: s) = c :: s := by
  have hstops : Stops isSpace (c :: s) := hc
  rw [skipSpace_append isSpace_of_mem_newLine, skipSpace_of_stops hstops]

mutual

/-- A value is read back from its layout, and what follows it is left. -/
theorem readValue_prettyChars (v : Json) (hv : v.isFinite) (level : Nat) {most : Nat}
    (hmost : (v.prettyChars level).length ≤ most) (rest : List Char)
    (hrest : Stops isNumeral rest) :
    readValue (most + 1) (v.prettyChars level ++ rest) = some (v.document, rest) := by
  match v, hv, hmost with
  | .null, _, _ => rfl
  | .boolean b, _, _ => cases b <;> rfl
  | .integer i, _, _ => exact readValue_intText i most hrest
  | .real x, hv, _ =>
      obtain ⟨negative, m, rfl⟩ := exists_finite hv
      obtain ⟨c, cs, hcs, hc⟩ := exists_cons_render negative m
      rw [prettyChars, readValue_number ⟨c, cs ++ rest, by rw [hcs]; rfl, hc⟩,
        readNumber_render negative m hrest]
      rfl
  | .text s, _, hmost => exact readValue_compactChars (.text s) rfl hmost rest hrest
  | .list [], _, _ => rfl
  | .list (v :: items), hv, hmost =>
      have hcount := length_le_length_separated ',' (newLine (level + 1))
        (prettyItems (level + 1) (v :: items))
      rw [length_prettyItems, List.length_cons] at hcount
      have hchars : (list (v :: items)).prettyChars level ++ rest
          = '[' :: (newLine (level + 1)
            ++ (separated (',' :: newLine (level + 1)) (prettyItems (level + 1) (v :: items))
              ++ (newLine level ++ ']' :: rest))) := by
        rw [prettyChars, if_neg (by simp)]
        simp only [List.cons_append, List.append_assoc, List.nil_append]
      have hlength : (separated (',' :: newLine (level + 1))
          (prettyItems (level + 1) (v :: items))).length + 2 ≤ most := by
        have hwhole := congrArg List.length hchars
        simp only [List.length_append, List.length_cons] at hwhole
        have hline : 1 ≤ (newLine level).length := Nat.le_add_left 1 _
        omega
      obtain ⟨most, rfl⟩ := Nat.exists_eq_add_of_le' (show 1 ≤ most by omega)
      have hread := readItems_prettyItems v items hv (level + 1) level (show _ ≤ most by omega)
        (show _ ≤ most + 1 by omega) rest
      rw [hchars, readValue_list_append isSpace_of_mem_newLine,
        readValue_list (stops_prettyItems v items hv _ _ _), hread]
      rfl
  | .object [], _, _ => rfl
  | .object ((key, v) :: fields), hv, hmost =>
      have hcount := length_le_length_separated ',' (newLine (level + 1))
        (prettyFields (level + 1) ((key, v) :: fields))
      rw [length_prettyFields, List.length_cons] at hcount
      have hchars : (object ((key, v) :: fields)).prettyChars level ++ rest
          = '\x7b' :: (newLine (level + 1)
            ++ (separated (',' :: newLine (level + 1))
              (prettyFields (level + 1) ((key, v) :: fields))
              ++ (newLine level ++ '\x7d' :: rest))) := by
        rw [prettyChars, if_neg (by simp)]
        simp only [List.cons_append, List.append_assoc, List.nil_append]
      have hlength : (separated (',' :: newLine (level + 1))
          (prettyFields (level + 1) ((key, v) :: fields))).length + 2 ≤ most := by
        have hwhole := congrArg List.length hchars
        simp only [List.length_append, List.length_cons] at hwhole
        have hline : 1 ≤ (newLine level).length := Nat.le_add_left 1 _
        omega
      obtain ⟨most, rfl⟩ := Nat.exists_eq_add_of_le' (show 1 ≤ most by omega)
      have hread := readFields_prettyFields key v fields hv (level + 1) level
        (show _ ≤ most by omega) (show _ ≤ most + 1 by omega) rest
      rw [hchars, readValue_object_append isSpace_of_mem_newLine,
        readValue_object (exists_prettyFields key v fields _ _ _), hread]
      rfl
termination_by sizeOf v

theorem readItems_prettyItems (v : Json) (items : List Json) (h : areFinite (v :: items))
    (level outer : Nat) {most k : Nat}
    (hmost : (separated (',' :: newLine level) (prettyItems level (v :: items))).length ≤ most)
    (hk : items.length ≤ k) (rest : List Char) :
    readItems (readValue (most + 1)) (k + 1)
        (separated (',' :: newLine level) (prettyItems level (v :: items))
          ++ (newLine outer ++ ']' :: rest))
      = some (documents (v :: items), rest) := by
  obtain ⟨hv, hitems⟩ := Bool.and_eq_true_iff.mp h
  cases items with
  | nil =>
      have hread := readValue_prettyChars v hv level hmost (newLine outer ++ ']' :: rest) rfl
      rw [readItems]
      have hclose := skipSpace_newLine outer (c := ']') rfl rest
      simp only [prettyItems, separated, hread, bind, Option.bind, hclose]
      rfl
  | cons w items =>
      obtain ⟨k, rfl⟩ := Nat.exists_eq_add_of_le' hk
      have hsplit : separated (',' :: newLine level) (prettyItems level (v :: w :: items))
          = v.prettyChars level ++ ',' :: (newLine level
            ++ separated (',' :: newLine level) (prettyItems level (w :: items))) := by
        simp [prettyItems, separated]
      rw [hsplit, List.length_append, List.length_cons, List.length_append] at hmost
      have hread := readValue_prettyChars v hv level (show _ ≤ most by omega)
        (',' :: (newLine level ++ (separated (',' :: newLine level) (prettyItems level (w :: items))
          ++ (newLine outer ++ ']' :: rest)))) rfl
      have hrest := readItems_prettyItems w items hitems level outer (show _ ≤ most by omega)
        (show _ ≤ k + items.length by omega) rest
      rw [hsplit, List.append_assoc, List.cons_append, List.append_assoc, readItems, hread]
      change (readItems (readValue (most + 1)) (k + items.length + 1) (newLine level ++ _)).bind _
        = _
      rw [readItems_append isSpace_of_mem_newLine, hrest]
      rfl
termination_by sizeOf (v :: items)

theorem readFields_prettyFields (key : String) (v : Json) (fields : List (String × Json))
    (h : haveFinite ((key, v) :: fields)) (level outer : Nat) {most k : Nat}
    (hmost : (separated (',' :: newLine level)
      (prettyFields level ((key, v) :: fields))).length ≤ most)
    (hk : fields.length ≤ k) (rest : List Char) :
    readFields (readValue (most + 1)) (k + 1)
        (separated (',' :: newLine level) (prettyFields level ((key, v) :: fields))
          ++ (newLine outer ++ '\x7d' :: rest))
      = some (fieldDocuments ((key, v) :: fields), rest) := by
  obtain ⟨hv, hfields⟩ := Bool.and_eq_true_iff.mp h
  have hblank : ∀ s, readValue (most + 1) (' ' :: s) = readValue (most + 1) s :=
    fun s => readValue_append (show ∀ c ∈ [' '], isSpace c by simp [isSpace]) (most + 1) s
  match fields, hfields, hmost, hk with
  | [], _, hmost, _ =>
      rw [prettyFields, prettyFields, separated, List.length_append, List.length_cons,
        List.length_cons] at hmost
      have hread := readValue_prettyChars v hv level (show _ ≤ most by omega)
        (newLine outer ++ '\x7d' :: rest) rfl
      rw [prettyFields, prettyFields, separated, List.append_assoc, List.cons_append,
        List.cons_append, readFields_cons key ((hblank _).trans hread),
        skipSpace_newLine outer rfl]
      rfl
  | (key', w) :: fields, hfields, hmost, hk =>
      obtain ⟨k, rfl⟩ := Nat.exists_eq_add_of_le' hk
      have hsplit : separated (',' :: newLine level)
            (prettyFields level ((key, v) :: (key', w) :: fields))
          = quote key ++ ':' :: ' ' :: (v.prettyChars level ++ ',' :: (newLine level
            ++ separated (',' :: newLine level) (prettyFields level ((key', w) :: fields)))) := by
        simp [prettyFields, separated]
      rw [hsplit, List.length_append, List.length_cons, List.length_cons, List.length_append,
        List.length_cons, List.length_append] at hmost
      have hread := readValue_prettyChars v hv level (show _ ≤ most by omega)
        (',' :: (newLine level
          ++ (separated (',' :: newLine level) (prettyFields level ((key', w) :: fields))
            ++ (newLine outer ++ '\x7d' :: rest)))) rfl
      have hrest := readFields_prettyFields key' w fields hfields level outer
        (show _ ≤ most by omega) (show _ ≤ k + fields.length by omega) rest
      rw [hsplit, List.append_assoc, List.cons_append, List.cons_append, List.append_assoc,
        List.cons_append, List.append_assoc, readFields_cons key ((hblank _).trans hread)]
      change (readFields (readValue (most + 1)) (k + fields.length + 1) (newLine level ++ _)).map _
        = _
      rw [readFields_append isSpace_of_mem_newLine, hrest]
      rfl
termination_by sizeOf ((key, v) :: fields)

end

/-! ### Files -/

theorem isNumeral_of_isSpace {c : Char} (h : isSpace c) : isNumeral c = false := by
  simp only [isSpace, Bool.or_eq_true, beq_iff_eq] at h
  rcases h with ((rfl | rfl) | rfl) | rfl <;> rfl

/-- A value that has been written is read back, with or without blanks behind it. -/
theorem parse_pretty_append {v : Json} (hv : v.isFinite) {blanks : String}
    (hblanks : ∀ c ∈ blanks.toList, isSpace c) :
    Document.parse (v.pretty ++ blanks) = some v.document := by
  have hchars : (v.pretty ++ blanks).toList = v.prettyChars 0 ++ blanks.toList := by
    simp [pretty]
  have hlength : (v.prettyChars 0).length ≤ (v.prettyChars 0 ++ blanks.toList).length := by simp
  have hstops : Stops isNumeral blanks.toList := by
    cases hcases : blanks.toList with
    | nil => trivial
    | cons c cs => exact isNumeral_of_isSpace (hblanks c (hcases ▸ List.mem_cons_self ..))
  have hread := readValue_prettyChars v hv 0 hlength blanks.toList hstops
  have hend : skipSpace blanks.toList = [] := by
    have hskip := skipSpace_append hblanks []
    rwa [List.append_nil] at hskip
  rw [Document.parse, hchars, parseChars, hread]
  dsimp only [Option.bind_eq_bind, Option.bind_some]
  rw [hend]
  rfl

/-- A value in a file of its own is read back. -/
theorem ofBytes?_fileText {v : Json} (hv : v.isFinite) :
    Document.ofBytes? (fileText v).toUTF8 = some v.document := by
  simp only [Document.ofBytes?, fromUTF8?_toUTF8]
  exact parse_pretty_append hv (List.all_eq_true.mp (by decide))

/-- A value in a file of its own is read back, also if its text ends without a line feed. -/
theorem ofBytes?_pretty {v : Json} (hv : v.isFinite) :
    Document.ofBytes? v.pretty.toUTF8 = some v.document := by
  have hparse := parse_pretty_append hv (show ∀ c ∈ "".toList, isSpace c by simp)
  rw [String.append_empty] at hparse
  simp only [Document.ofBytes?, fromUTF8?_toUTF8]
  exact hparse

/-- A record in a file of its own is read back, if its value is. -/
theorem readRecordBytes_fileText {α : Type} {read : Document → Option α} {v : Json}
    (hv : v.isExact) : readRecordBytes read (fileText v).toUTF8 = read v.document := by
  rw [readRecordBytes, ofBytes?_fileText (isFinite_of_isExact v hv)]
  rfl

end Pipewright.Json

/-!
## Fields read back

Records are read field by field. Here it is shown for the kinds of fields that
records have, besides texts, that each is read as the value it was written for:
lists, numbers of 32 bits, and what may be missing.
-/

namespace Pipewright

namespace Json

open Document

/-! ### Lists of texts and numbers -/

theorem documents_eq_map (items : List Json) : documents items = items.map document := by
  induction items with
  | nil => rfl
  | cons v items ih => rw [documents, ih, List.map_cons]

theorem areExact_iff {items : List Json} : areExact items ↔ ∀ v ∈ items, v.isExact := by
  induction items with
  | nil => simp [areExact]
  | cons v items ih => rw [areExact, Bool.and_eq_true_iff, ih, List.forall_mem_cons]

/-- Records that are read back one by one are read back as a list. -/
theorem asList_document {α : Type} {read : Document → Option α} {toJson : α → Json}
    (h : ∀ a, read (toJson a).document = some a) (l : List α) :
    asList read (document (.list (l.map toJson))) = some l := by
  rw [document, documents_eq_map, asList]
  induction l with
  | nil => rfl
  | cons a l ih =>
      rw [List.map_cons, List.map_cons, List.mapM_cons, h, ih]
      rfl

theorem isExact_texts (l : List String) : (texts l).isExact := by
  rw [texts, isExact, areExact_iff]
  intro v hv
  obtain ⟨s, -, rfl⟩ := List.mem_map.mp hv
  rfl

theorem asList_texts (l : List String) : asList asText (document (texts l)) = some l :=
  @asList_document _ asText Json.text (fun _ => rfl) l

theorem asUInt32_document (n : UInt32) : asUInt32 (document (.nat n.toNat)) = some n := by
  have hlt : n.toNat < UInt32.size := n.toNat_lt
  have hword : n.toNat < 18446744073709551616 := Nat.lt_trans hlt (by decide)
  have hwhole : Numeral.whole? ⟨false, Pipewright.Numeral.digits n.toNat, none, none⟩
      = some (n.toNat : Int) := by
    simp [Numeral.whole?, Pipewright.Numeral.value_digits, hword]
  have hdocument : document (.nat n.toNat)
      = .number ⟨false, Pipewright.Numeral.digits n.toNat, none, none⟩ := by
    rw [nat, document]
    simp
  rw [asUInt32, hdocument, asNat, hwhole]
  dsimp only
  rw [if_pos ⟨Int.natCast_nonneg _, Int.ofNat_lt.mpr hlt⟩]
  simp

/-- A number of 32 bits that may be missing is read back. -/
theorem optionalField_ofUInt32? (n : Option UInt32) :
    optionalField asUInt32 (some (document (ofUInt32? n))) = some n := by
  cases n with
  | none => rfl
  | some n =>
      have hn := asUInt32_document n
      rw [ofUInt32?, optionalField, defaulted]
      rw [nat, document] at hn ⊢
      rw [nullable, hn]
      · rfl
      · simp

theorem optionalField_ofText? (text : Option String) :
    optionalField asText (some (document (ofText? text))) = some text := by
  cases text <;> rfl

end Json

end Pipewright
