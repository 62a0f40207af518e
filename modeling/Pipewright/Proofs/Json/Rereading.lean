import Pipewright.Json.Record
import Pipewright.Keyed
import Pipewright.Proofs.Json.Numerals

/-!
# JSON values read back

A value without real numbers is read back from the line it is written as,
whatever texts it holds: `document` is what the line says, and
`parseChars_compactChars` that it says so. The line has no characters below the
blank, so the lines of a log are told apart by their line feeds alone, and a log
of records is read as the records it was made of.
-/

namespace Pipewright.Json

open Document

/-! ## Texts -/

theorem value4?_digits : ∀ n < 0x20,
    Hex.value4? '0' '0' (Hex.digit (n / 16)) (Hex.digit (n % 16)) = some n := by
  decide

theorem unitOf_toNat (c : Char) : unitOf c.toNat = .char c := by
  have hvalid : ¬(0xD800 ≤ c.toNat ∧ c.toNat ≤ 0xDFFF) := by
    have h := c.valid
    simp only [UInt32.isValidChar, Nat.isValidChar] at h
    change c.toNat < 0xD800 ∨ 0xDFFF < c.toNat ∧ c.toNat < 0x110000 at h
    omega
  rw [unitOf, if_neg hvalid, Char.ofNat_toNat]

theorem units_backslash {c e : Char} (h : shortEscape? c = some e) (rest : List Char) :
    units ('\\' :: c :: rest) = (units rest).map fun (us, left) => (.char e :: us, left) := by
  have hu : c ≠ 'u' := by
    rintro rfl
    cases h
  rw [units, h]
  · cases units rest <;> rfl
  · exact fun _ _ _ _ _ hc _ => hu hc

theorem units_escapeChar (c : Char) (rest : List Char) :
    units (escapeChar c ++ rest) = (units rest).map fun (us, left) => (.char c :: us, left) := by
  unfold escapeChar
  split
  · next h => subst h; exact units_backslash rfl rest
  split
  · next h => subst h; exact units_backslash rfl rest
  split
  · next h => subst h; exact units_backslash rfl rest
  split
  · next h => subst h; exact units_backslash rfl rest
  split
  · next h => subst h; exact units_backslash rfl rest
  split
  · next h => subst h; exact units_backslash rfl rest
  split
  · next h => subst h; exact units_backslash rfl rest
  split
  · next hcontrol =>
    change units ('\\' :: 'u' :: '0' :: '0' :: _ :: _ :: rest) = _
    rw [units, value4?_digits c.toNat hcontrol]
    cases units rest with
    | none => rfl
    | some read => exact congrArg (fun u => some (u :: read.1, read.2)) (unitOf_toNat c)
  · next hquote hbackslash _ _ _ _ _ hcontrol =>
    change units (c :: rest) = _
    rw [units]
    · rw [if_neg (not_or.mpr ⟨hcontrol, hbackslash⟩)]
      cases units rest <;> rfl
    · rintro rfl
      exact hquote rfl
    · rintro _ _ _ _ _ rfl
      exact absurd rfl hbackslash
    · rintro _ _ rfl
      exact absurd rfl hbackslash

theorem units_escaped (cs rest : List Char) :
    units (cs.flatMap escapeChar ++ '"' :: rest) = some (cs.map .char, rest) := by
  induction cs with
  | nil => rfl
  | cons c cs ih =>
      rw [List.flatMap_cons, List.append_assoc, units_escapeChar, ih]
      rfl

theorem joinUnits_chars (cs : List Char) : joinUnits (cs.map .char) = some cs := by
  induction cs with
  | nil => rfl
  | cons c cs ih => rw [List.map_cons, joinUnits, ih]; rfl

theorem readText_quote (s : String) (rest : List Char) :
    readText (s.toList.flatMap escapeChar ++ '"' :: rest) = some (some s, rest) := by
  rw [readText, units_escaped]
  simp [joinUnits_chars]

/-! ## Values -/

mutual

def isExact : Json → Bool
  | real _ => false
  | list items => areExact items
  | object fields => haveExact fields
  | _ => true

def areExact : List Json → Bool
  | [] => true
  | v :: rest => isExact v && areExact rest

def haveExact : List (String × Json) → Bool
  | [] => true
  | (_, v) :: rest => isExact v && haveExact rest

end

/-- What a real number is read as: the numeral that it is written as. -/
def realDocument (x : Binary64) : Document :=
  ((readNumber (NumberForm.state.render x).toList).map (·.1)).getD .null

mutual

def document : Json → Document
  | null => .null
  | boolean b => .boolean b
  | integer i => .number ⟨i < 0, Numeral.digits i.natAbs, none, none⟩
  | real x => realDocument x
  | text s => .text (some s)
  | list items => .list (documents items)
  | object fields => .object (fieldDocuments fields)

def documents : List Json → List Document
  | [] => []
  | v :: rest => document v :: documents rest

def fieldDocuments : List (String × Json) → List (Option String × Document)
  | [] => []
  | (k, v) :: rest => (some k, document v) :: fieldDocuments rest

end

def isBetween (c : Char) : Bool := isSpace c || c == ']' || c == '\x7d'

def isSignOrDigit (c : Char) : Bool := c == '-' || c.isDigit

theorem exists_intText (i : Int) :
    ∃ c cs, (Numeral.intText i).toList = c :: cs ∧ isSignOrDigit c := by
  rw [Numeral.toList_intText]
  split
  · exact ⟨_, _, rfl, rfl⟩
  · obtain ⟨d, ds, hds⟩ := List.exists_cons_of_ne_nil (Numeral.digits_ne_nil i.natAbs)
    have hdigit : d.isDigit := Numeral.isDigit_of_mem_digits (hds ▸ List.mem_cons_self ..)
    exact ⟨d, ds, hds, by simp [isSignOrDigit, hdigit]⟩

theorem isBetween_of_isSignOrDigit {c : Char} (h : isSignOrDigit c) : isBetween c = false := by
  rcases Bool.or_eq_true_iff.mp h with hsign | hdigit
  · rw [beq_iff_eq.mp hsign]
    rfl
  · have hne : ∀ d : Char, d.isDigit = false → c ≠ d := fun d => ne_of_isDigit hdigit
    simp [isBetween, isSpace, hne]

theorem readNumber_intText (i : Int) {rest : List Char} (h : Stops isNumeral rest) :
    readNumber ((Numeral.intText i).toList ++ rest) = some (document (.integer i), rest) := by
  have hwritten : Numeral.IsWritten ⟨i < 0, Numeral.digits i.natAbs, none, none⟩ :=
    ⟨areDigits_digits _, fun hzero => by rw [Numeral.head?_digits hzero]; rfl, by simp, by simp⟩
  have hread := readNumber_chars hwritten h
  rw [Numeral.toList_intText, document]
  by_cases hneg : i < 0 <;>
    simpa [Numeral.chars, Numeral.fractionChars, Numeral.powerChars, hneg] using hread

theorem skipSpace_of_stops {s : List Char} (h : Stops isSpace s) : skipSpace s = s := by
  cases s with
  | nil => rfl
  | cons c s =>
      have hc : isSpace c = false := h
      rw [skipSpace, List.dropWhile_cons, if_neg (by rw [hc]; decide)]

theorem readValue_number {cs : List Char} (hcs : ∃ c rest, cs = c :: rest ∧ isSignOrDigit c)
    (most : Nat) : readValue (most + 1) cs = readNumber cs := by
  obtain ⟨c, rest, rfl, hc⟩ := hcs
  have hbetween := isBetween_of_isSignOrDigit hc
  simp only [isBetween, Bool.or_eq_false_iff] at hbetween
  have hne : ∀ d, isSignOrDigit d = false → c ≠ d := by
    rintro d hd rfl
    rw [hd] at hc
    cases hc
  have hspace : Stops isSpace (c :: rest) := hbetween.1.1
  rw [readValue, skipSpace_of_stops hspace]
  split
  · next heq => cases heq
  all_goals try next heq => exact absurd (List.cons.inj heq).1 (hne _ rfl)
  rfl

theorem readValue_intText (i : Int) (most : Nat) {rest : List Char} (h : Stops isNumeral rest) :
    readValue (most + 1) ((Numeral.intText i).toList ++ rest)
      = some (document (.integer i), rest) := by
  obtain ⟨c, cs, hcs, hc⟩ := exists_intText i
  rw [readValue_number ⟨c, cs ++ rest, by rw [hcs]; rfl, hc⟩, readNumber_intText i h]

theorem stops_compactChars (v : Json) (h : v.isExact) (rest : List Char) :
    Stops isBetween (v.compactChars ++ rest) := by
  cases v with
  | null => rfl
  | boolean b => cases b <;> rfl
  | integer i =>
      obtain ⟨c, cs, hcs, hc⟩ := exists_intText i
      rw [compactChars, hcs]
      exact isBetween_of_isSignOrDigit hc
  | real x => cases h
  | text s => rfl
  | list items => rfl
  | object fields => rfl

theorem readValue_bracket (most : Nat) (s : List Char) : readValue (most + 1) ('[' :: s) =
    match skipSpace s with
    | ']' :: s => some (.list [], s)
    | s => (readItems (readValue most) (most + 1) s).map fun (items, s) => (.list items, s) :=
  rfl

theorem readValue_brace (most : Nat) (s : List Char) : readValue (most + 1) ('\x7b' :: s) =
    match skipSpace s with
    | '\x7d' :: s => some (.object [], s)
    | s => (readFields (readValue most) (most + 1) s).map fun (fields, s) => (.object fields, s) :=
  rfl

theorem readValue_list {most : Nat} {s : List Char} (h : Stops isBetween s) :
    readValue (most + 1) ('[' :: s)
      = (readItems (readValue most) (most + 1) s).map fun (items, s) => (.list items, s) := by
  have hspace : Stops isSpace s := h.mono fun c hc => by
    simp only [isBetween, Bool.or_eq_false_iff] at hc
    exact hc.1.1
  rw [readValue_bracket, skipSpace_of_stops hspace]
  split
  · exact absurd h (by simp [Stops, isBetween])
  · rfl

theorem stops_compactItems (v : Json) (items : List Json) (h : areExact (v :: items))
    (rest : List Char) : Stops isBetween (separated [','] (compactItems (v :: items)) ++ rest) := by
  have hv := (Bool.and_eq_true_iff.mp h).1
  cases items with
  | nil => exact stops_compactChars v hv rest
  | cons w items =>
      rw [compactItems, compactItems, separated, List.append_assoc, List.append_assoc]
      · exact stops_compactChars v hv _
      · simp

theorem readValue_object {most : Nat} {s : List Char} (h : ∃ s', s = '"' :: s') :
    readValue (most + 1) ('\x7b' :: s)
      = (readFields (readValue most) (most + 1) s).map fun (fields, s) => (.object fields, s) := by
  obtain ⟨s', rfl⟩ := h
  rfl

theorem exists_compactFields (key : String) (v : Json) (fields : List (String × Json))
    (rest : List Char) :
    ∃ s, separated [','] (compactFields ((key, v) :: fields)) ++ rest = '"' :: s := by
  cases fields with
  | nil => exact ⟨_, rfl⟩
  | cons e fields =>
      obtain ⟨key', w⟩ := e
      rw [compactFields, compactFields, separated]
      · exact ⟨_, rfl⟩
      · simp

/-- A field whose value is read back is read with what follows it. -/
theorem readFields_cons {value : List Char → Option (Document × List Char)} {k : Nat} (key : String)
    {s after : List Char} {d : Document} (hvalue : value s = some (d, after)) :
    readFields value (k + 1) (quote key ++ ':' :: s) =
      match skipSpace after with
      | ',' :: s => (readFields value k s).map fun (fields, s) => ((some key, d) :: fields, s)
      | '\x7d' :: s => some ([(some key, d)], s)
      | _ => none := by
  have hquote : quote key ++ ':' :: s
      = '"' :: (key.toList.flatMap escapeChar ++ '"' :: ':' :: s) := by simp [quote]
  have hstart : ∀ s, skipSpace ('"' :: s) = '"' :: s := fun _ => rfl
  have hcolon : skipSpace (':' :: s) = ':' :: s := rfl
  rw [hquote, readFields, hstart]
  simp only [readText_quote, hcolon, hvalue, bind, Option.bind]
  generalize skipSpace after = left
  split
  · next rest =>
    change (readFields value k rest).bind (fun r => some ((some key, d) :: r.1, r.2))
      = (readFields value k rest).map _
    cases readFields value k rest <;> rfl
  · rfl
  · next hcomma hbrace => grind

theorem length_le_length_separated (c : Char) (sep : List Char) (parts : List (List Char)) :
    parts.length ≤ (separated (c :: sep) parts).length + 1 := by
  fun_induction separated (c :: sep) parts with
  | case1 => simp
  | case2 p => simp
  | case3 p rest hne ih =>
      simp only [List.length_append, List.length_cons]
      omega

theorem length_compactItems (items : List Json) : (compactItems items).length = items.length := by
  induction items with
  | nil => rfl
  | cons v items ih => rw [compactItems, List.length_cons, List.length_cons, ih]

theorem length_compactFields (fields : List (String × Json)) :
    (compactFields fields).length = fields.length := by
  induction fields with
  | nil => rfl
  | cons e fields ih => rw [compactFields, List.length_cons, List.length_cons, ih]

mutual

/-- A value is read back from its line, and what follows it is left. -/
theorem readValue_compactChars (v : Json) (hv : v.isExact) {most : Nat}
    (hmost : v.compactChars.length ≤ most) (rest : List Char) (hrest : Stops isNumeral rest) :
    readValue (most + 1) (v.compactChars ++ rest) = some (v.document, rest) := by
  match v, hv, hmost with
  | .null, _, _ => rfl
  | .boolean b, _, _ => cases b <;> rfl
  | .integer i, _, _ => exact readValue_intText i most hrest
  | .text s, _, _ =>
      rw [compactChars, quote, List.cons_append, List.cons_append, List.append_assoc]
      change (readText (s.toList.flatMap escapeChar ++ '"' :: rest)).map _ = _
      rw [readText_quote]
      rfl
  | .list [], _, _ => rfl
  | .list (v :: items), hv, hmost =>
      have hcount := length_le_length_separated ',' [] (compactItems (v :: items))
      rw [length_compactItems, List.length_cons] at hcount
      have hchars : (list (v :: items)).compactChars ++ rest
          = '[' :: (separated [','] (compactItems (v :: items)) ++ ']' :: rest) := by
        rw [compactChars, List.cons_append, List.cons_append, List.append_assoc]
        rfl
      have hlength : (separated [','] (compactItems (v :: items))).length + 2 ≤ most := by
        rw [compactChars, List.length_append, List.length_cons] at hmost
        exact hmost
      obtain ⟨most, rfl⟩ := Nat.exists_eq_add_of_le' (show 1 ≤ most by omega)
      have hread := readItems_compactItems v items hv (show _ ≤ most by omega)
        (show _ ≤ most + 1 by omega) rest
      rw [hchars, readValue_list (stops_compactItems v items hv _), hread]
      rfl
  | .object [], _, _ => rfl
  | .object ((key, v) :: fields), hv, hmost =>
      have hcount := length_le_length_separated ',' [] (compactFields ((key, v) :: fields))
      rw [length_compactFields, List.length_cons] at hcount
      have hchars : (object ((key, v) :: fields)).compactChars ++ rest
          = '\x7b' :: (separated [','] (compactFields ((key, v) :: fields)) ++ '\x7d' :: rest) := by
        rw [compactChars, List.cons_append, List.cons_append, List.append_assoc]
        rfl
      have hlength : (separated [','] (compactFields ((key, v) :: fields))).length + 2 ≤ most := by
        rw [compactChars, List.length_append, List.length_cons] at hmost
        exact hmost
      obtain ⟨most, rfl⟩ := Nat.exists_eq_add_of_le' (show 1 ≤ most by omega)
      have hread := readFields_compactFields key v fields hv (show _ ≤ most by omega)
        (show _ ≤ most + 1 by omega) rest
      rw [hchars, readValue_object (exists_compactFields key v fields _), hread]
      rfl
termination_by sizeOf v

theorem readItems_compactItems (v : Json) (items : List Json) (h : areExact (v :: items))
    {most k : Nat} (hmost : (separated [','] (compactItems (v :: items))).length ≤ most)
    (hk : items.length ≤ k) (rest : List Char) :
    readItems (readValue (most + 1)) (k + 1)
        (separated [','] (compactItems (v :: items)) ++ ']' :: rest)
      = some (documents (v :: items), rest) := by
  obtain ⟨hv, hitems⟩ := Bool.and_eq_true_iff.mp h
  cases items with
  | nil =>
      have hread := readValue_compactChars v hv hmost (']' :: rest) rfl
      rw [readItems]
      simp only [compactItems, separated, hread]
      rfl
  | cons w items =>
      obtain ⟨k, rfl⟩ := Nat.exists_eq_add_of_le' hk
      have hsplit : separated [','] (compactItems (v :: w :: items))
          = v.compactChars ++ ',' :: separated [','] (compactItems (w :: items)) := by
        simp [compactItems, separated]
      rw [hsplit, List.length_append, List.length_cons] at hmost
      have hread := readValue_compactChars v hv (show _ ≤ most by omega)
        (',' :: (separated [','] (compactItems (w :: items)) ++ ']' :: rest)) rfl
      have hrest := readItems_compactItems w items hitems (show _ ≤ most by omega)
        (show _ ≤ k + items.length by omega) rest
      rw [hsplit, List.append_assoc, List.cons_append, readItems, hread]
      change (readItems (readValue (most + 1)) (k + items.length + 1) _).bind _ = _
      rw [hrest]
      rfl
termination_by sizeOf (v :: items)

theorem readFields_compactFields (key : String) (v : Json) (fields : List (String × Json))
    (h : haveExact ((key, v) :: fields)) {most k : Nat}
    (hmost : (separated [','] (compactFields ((key, v) :: fields))).length ≤ most)
    (hk : fields.length ≤ k) (rest : List Char) :
    readFields (readValue (most + 1)) (k + 1)
        (separated [','] (compactFields ((key, v) :: fields)) ++ '\x7d' :: rest)
      = some (fieldDocuments ((key, v) :: fields), rest) := by
  obtain ⟨hv, hfields⟩ := Bool.and_eq_true_iff.mp h
  match fields, hfields, hmost, hk with
  | [], _, hmost, _ =>
      have hlength : v.compactChars.length ≤ most := by
        rw [compactFields, compactFields, separated, List.length_append, List.length_cons] at hmost
        omega
      have hread := readValue_compactChars v hv hlength ('\x7d' :: rest) rfl
      rw [compactFields, compactFields, separated, List.append_assoc, List.cons_append]
      exact readFields_cons key hread
  | (key', w) :: fields, hfields, hmost, hk =>
      obtain ⟨k, rfl⟩ := Nat.exists_eq_add_of_le' hk
      have hsplit : separated [','] (compactFields ((key, v) :: (key', w) :: fields))
          = quote key ++ ':' :: (v.compactChars
            ++ ',' :: separated [','] (compactFields ((key', w) :: fields))) := by
        simp [compactFields, separated]
      rw [hsplit, List.length_append, List.length_cons, List.length_append, List.length_cons]
        at hmost
      have hread := readValue_compactChars v hv (show _ ≤ most by omega)
        (',' :: (separated [','] (compactFields ((key', w) :: fields)) ++ '\x7d' :: rest)) rfl
      have hrest := readFields_compactFields key' w fields hfields (show _ ≤ most by omega)
        (show _ ≤ k + fields.length by omega) rest
      rw [hsplit, List.append_assoc, List.cons_append, List.append_assoc, List.cons_append,
        readFields_cons key hread]
      change (readFields (readValue (most + 1)) (k + fields.length + 1) _).map _ = _
      rw [hrest]
      rfl
termination_by sizeOf ((key, v) :: fields)

end

theorem parseChars_compactChars {v : Json} (hv : v.isExact) :
    parseChars v.compactChars = some v.document := by
  have hread := readValue_compactChars v hv (Nat.le_refl _) [] trivial
  rw [List.append_nil] at hread
  rw [parseChars, hread]
  rfl

/-! ## Records -/

theorem fieldDocuments_eq_map (fields : List (String × Json)) :
    fieldDocuments fields = fields.map fun e => (some e.1, document e.2) := by
  induction fields with
  | nil => rfl
  | cons e fields ih => rw [fieldDocuments, ih, List.map_cons]

theorem lookup_of_nodup {l : List (String × Document)} (h : (l.map (·.1)).Nodup)
    {e : String × Document} (he : e ∈ l) : l.lookup e.1 = some e.2 := by
  induction l with
  | nil => cases he
  | cons d l ih =>
      rw [List.map_cons, List.nodup_cons] at h
      rw [Keyed.lookup_cons_if]
      rcases List.mem_cons.mp he with rfl | he
      · rw [if_pos rfl]
      · have hne : e.1 ≠ d.1 := fun heq => h.1 (heq ▸ List.mem_map_of_mem he)
        rw [if_neg hne, ih h.2 he]

/-- The fields of an object are the list of its keys and values. -/
theorem mapM_fieldDocuments (fields : List (String × Json)) :
    (fieldDocuments fields).mapM (fun (k, d) => k.map (·, d))
      = some (fields.map fun e => (e.1, document e.2)) := by
  rw [fieldDocuments_eq_map]
  induction fields with
  | nil => rfl
  | cons e fields ih =>
      rw [List.map_cons, List.mapM_cons, ih]
      rfl

theorem filter_known {names : List String} {known : List (String × Document)}
    (h : ∀ e ∈ known, e.1 ∈ names) : known.filter (fun (k, _) => names.contains k) = known :=
  List.filter_eq_self.mpr fun e he => List.contains_iff_mem.mpr (h e he)

/-- An object with the fields of a record, in their order, is read field by field. -/
theorem recordFields_document {names : List String} {fields : List (String × Json)}
    (hnames : fields.map (·.1) = names) (hnodup : names.Nodup) :
    recordFields names (document (.object fields))
      = some (fields.map fun e => some (document e.2)) := by
  have hmem : ∀ e ∈ fields.map fun e => (e.1, document e.2), e.1 ∈ names := by
    intro e he
    obtain ⟨f, hf, rfl⟩ := List.mem_map.mp he
    exact hnames ▸ List.mem_map_of_mem hf
  have hkeys : (fields.map fun e => (e.1, document e.2)).map (·.1) = names := by
    rw [List.map_map, ← hnames]
    rfl
  rw [document, recordFields, mapM_fieldDocuments]
  simp only [bind, Option.bind, filter_known hmem, hkeys, if_pos hnodup]
  rw [← hnames, List.map_map]
  congr 1
  refine List.map_congr_left fun e he => ?_
  exact lookup_of_nodup (hkeys ▸ hnodup) (e := (e.1, document e.2))
    (List.mem_map.mpr ⟨e, he, rfl⟩)

/-! ## Lines -/

def isPrinted (c : Char) : Bool := 0x20 ≤ c.toNat

theorem all_escapeChar (c : Char) : (escapeChar c).all isPrinted := by
  have hdigit : ∀ n < 0x20, isPrinted (Hex.digit (n / 16)) ∧ isPrinted (Hex.digit (n % 16)) := by
    decide
  unfold escapeChar
  iterate 7 (split; · rfl)
  split
  · next hcontrol =>
    obtain ⟨hhigh, hlow⟩ := hdigit c.toNat hcontrol
    simp only [List.all_cons, List.all_nil, hhigh, hlow]
    rfl
  · next hcontrol =>
    simp [isPrinted]
    omega

theorem all_quote (s : String) : (quote s).all isPrinted := by
  simp only [quote, List.all_append, List.all_cons, List.all_flatMap, all_escapeChar]
  simp [isPrinted]

theorem all_separated {p : Char → Bool} (sep : List Char) {parts : List (List Char)}
    (hsep : sep.all p) (h : ∀ part ∈ parts, part.all p) : (separated sep parts).all p := by
  fun_induction separated sep parts with
  | case1 => rfl
  | case2 part => exact h part (List.mem_cons_self ..)
  | case3 part rest hne ih =>
      rw [List.forall_mem_cons] at h
      simp [hsep, h.1, ih h.2]

theorem all_intText (i : Int) : (Numeral.intText i).toList.all isPrinted := by
  have hdigit : ∀ c : Char, c.isDigit → isPrinted c := by
    intro c hc
    simp only [Char.isDigit, Bool.and_eq_true, decide_eq_true_eq] at hc
    have hlow : ('0' : Char).toNat ≤ c.toNat := hc.1
    have hzero : ('0' : Char).toNat = 0x30 := rfl
    simp [isPrinted]
    omega
  have hdigits : (Numeral.digits i.natAbs).all isPrinted :=
    List.all_eq_true.mpr fun c hc => hdigit c (Numeral.isDigit_of_mem_digits hc)
  rw [Numeral.toList_intText]
  split
  · rw [List.all_cons, hdigits]
    rfl
  · exact hdigits

mutual

theorem all_compactChars (v : Json) (hv : v.isExact) : v.compactChars.all isPrinted := by
  match v, hv with
  | .null, _ => rfl
  | .boolean b, _ => cases b <;> rfl
  | .integer i, _ => exact all_intText i
  | .text s, _ => exact all_quote s
  | .list items, hv =>
      have hitems := all_separated [','] rfl (all_compactItems items hv)
      rw [compactChars, List.all_append, List.all_cons, hitems]
      rfl
  | .object fields, hv =>
      have hfields := all_separated [','] rfl (all_compactFields fields hv)
      rw [compactChars, List.all_append, List.all_cons, hfields]
      rfl

theorem all_compactItems (items : List Json) (h : areExact items) :
    ∀ part ∈ compactItems items, part.all isPrinted := by
  match items, h with
  | [], _ => simp [compactItems]
  | v :: items, h =>
      obtain ⟨hv, hitems⟩ := Bool.and_eq_true_iff.mp h
      rw [compactItems, List.forall_mem_cons]
      exact ⟨all_compactChars v hv, all_compactItems items hitems⟩

theorem all_compactFields (fields : List (String × Json)) (h : haveExact fields) :
    ∀ part ∈ compactFields fields, part.all isPrinted := by
  match fields, h with
  | [], _ => simp [compactFields]
  | (key, v) :: fields, h =>
      obtain ⟨hv, hfields⟩ := Bool.and_eq_true_iff.mp h
      rw [compactFields, List.forall_mem_cons]
      refine ⟨?_, all_compactFields fields hfields⟩
      rw [List.all_append, List.all_cons, all_quote, all_compactChars v hv]
      rfl

end

theorem linesFrom_append {line cs rest : List Char} (h : cs.all isPrinted) :
    lines.linesFrom line (cs ++ rest) = lines.linesFrom (cs.reverse ++ line) rest := by
  induction cs generalizing line with
  | nil => rfl
  | cons c cs ih =>
      obtain ⟨hc, hcs⟩ := Bool.and_eq_true_iff.mp h
      rw [List.cons_append, lines.linesFrom, ih hcs, List.reverse_cons, List.append_assoc]
      · rfl
      · rintro rfl
        cases hc

theorem lines_append {cs : List Char} (h : cs.all isPrinted) (rest : List Char) :
    lines (cs ++ '\n' :: rest) = cs :: lines rest := by
  rw [lines, linesFrom_append h, List.append_nil, lines.linesFrom, List.reverse_reverse]
  · rfl
  · intro l heq
    have hmem : '\r' ∈ cs := List.mem_reverse.mp (heq ▸ List.mem_cons_self ..)
    exact absurd (List.all_eq_true.mp h _ hmem) (by decide)

/-! ## Logs -/

variable {α : Type}

/-- The text of a log of records, one in each line. -/
def logText (toJson : α → Json) (records : List α) : String :=
  String.ofList (records.flatMap fun r => (lineText (toJson r)).toList)

theorem logText_append (toJson : α → Json) (records more : List α) :
    logText toJson (records ++ more) = logText toJson records ++ logText toJson more := by
  simp [logText, String.ofList_append]

theorem logText_singleton (toJson : α → Json) (r : α) :
    logText toJson [r] = lineText (toJson r) := by
  simp [logText]

/-- A record as it is kept in a log: an object without real numbers that is read back. -/
structure Logged (toJson : α → Json) (read : Document → Option α) : Prop where
  exact : ∀ r, (toJson r).isExact
  object : ∀ r, ∃ fields, toJson r = .object fields
  reread : ∀ r, read (toJson r).document = some r

/-- A log is read as the records that were added to it. -/
theorem readLines_logText {toJson : α → Json} {read : Document → Option α}
    (h : Logged toJson read) (records : List α) :
    readLines read (logText toJson records) = some records := by
  rw [readLines, logText, String.toList_ofList]
  induction records with
  | nil => rfl
  | cons r records ih =>
      have hline : (lineText (toJson r)).toList = (toJson r).compactChars ++ ['\n'] := by
        simp [lineText, compact]
      have hblank : Text.allBlank (toJson r).compactChars = false := by
        obtain ⟨fields, hfields⟩ := h.object r
        rw [hfields]
        rfl
      rw [List.flatMap_cons, hline, List.append_assoc, List.singleton_append,
        lines_append (all_compactChars _ (h.exact r)), List.filter_cons, hblank]
      simp only [Bool.not_false, if_true, List.mapM_cons, parseChars_compactChars (h.exact r),
        Option.bind_some, h.reread, ih]
      rfl

end Pipewright.Json
