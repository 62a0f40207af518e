import Mathlib.Data.List.DropRight
import Pipewright.Digraph.Reader
import Pipewright.Keyed
import Pipewright.Proofs.Digraph.Values

/-!
# Statements read back

A line of a written graph is read as the statement it was written for, from its
indentation up to the first character of the next line. Of the five forms of a
statement the first four have to give up on a node or an edge, also where its
name begins with a word that opens one of them; and a name without attributes
must not take hold of the line after it.

Values need not be read as what they were. `ReadsAs v (f v)` says that `v` is
read as `f v`, and the lemmas carry `f` along, so that they also tell what
becomes of a graph some of whose values change.
-/

namespace Pipewright.Digraph.Read

/-! ## Readings that give up -/

variable {α β : Type}

/-- The reading gives up, and another one may be tried. -/
def Refused (r : Reading (α × List Char)) : Prop := ∃ rest es, r = refuse rest es

theorem Refused.mapValue {r : Reading (α × List Char)} (h : Refused r) (f : α → β) :
    Refused (mapValue f r) := by
  obtain ⟨rest, es, rfl⟩ := h
  exact ⟨rest, es, rfl⟩

theorem Refused.bind {r : Reading (α × List Char)} (h : Refused r)
    (f : α × List Char → Reading (β × List Char)) : Refused (r >>= f) := by
  obtain ⟨rest, es, rfl⟩ := h
  exact ⟨rest, es, rfl⟩

theorem Refused.otherwise {r : Reading (α × List Char)} (h : Refused r)
    (q : Unit → Reading (α × List Char)) : otherwise r q = q () := by
  obtain ⟨rest, es, rfl⟩ := h
  rfl

theorem Refused.optional {r : Reading (α × List Char)} (h : Refused r) (start : List Char) :
    optional start r = .ok (none, start) := by
  obtain ⟨rest, es, rfl⟩ := h
  rfl

theorem refused_char {c d : Char} (h : d ≠ c) (rest : List Char) : Refused (char c (d :: rest)) :=
  ⟨d :: rest, [], by rw [char, if_neg h]⟩

theorem refused_char' {c : Char} {s : List Char} (h : ∀ rest, s ≠ c :: rest) :
    Refused (char c s) := by
  cases s with
  | nil => exact ⟨[], [], rfl⟩
  | cons d rest => exact refused_char (fun hd => h rest (by rw [hd])) rest

theorem refused_attrBlock {c : Char} (h : c ≠ '[') (rest : List Char) :
    Refused (attrBlock (c :: rest)) :=
  (refused_char h rest).bind _

/-! ## Blanks -/

theorem skipSpace_cons {c : Char} (h : isSpace c = false) (rest : List Char) :
    skipSpace (c :: rest) = c :: rest := by
  simp [skipSpace, h]

theorem skipSpace_append {l : List Char} (h : ∀ c ∈ l, isSpace c) (rest : List Char) :
    skipSpace (l ++ rest) = skipSpace rest :=
  List.dropWhile_append_of_pos h

theorem skipSpace_indent (rest : List Char) : skipSpace (indent ++ rest) = skipSpace rest := rfl

theorem skipSpace_skipSpace (s : List Char) : skipSpace (skipSpace s) = skipSpace s :=
  List.dropWhile_idempotent isSpace s

theorem isSpace_of_isWordChar {c : Char} (h : isWordChar c) : isSpace c = false := by
  by_contra hspace
  simp only [isSpace, Bool.or_eq_true, beq_iff_eq, Bool.not_eq_false] at hspace
  rcases hspace with ((rfl | rfl) | rfl) | rfl <;> exact absurd h (by decide)

/-- A line of a written graph starts at the place, or its closing brace. -/
def StartsLine (s : List Char) : Prop :=
  ∃ c rest, skipSpace s = c :: rest ∧ (isWordStart c ∨ c = '"' ∨ c = '\x7d')

theorem StartsLine.ne {c : Char} (h : isWordStart c ∨ c = '"' ∨ c = '\x7d') {d : Char}
    (hd : isWordStart d = false ∧ d ≠ '"' ∧ d ≠ '\x7d') : c ≠ d := by
  rintro rfl
  rcases h with h | h | h
  · exact Bool.false_ne_true (hd.1.symm.trans h)
  · exact hd.2.1 h
  · exact hd.2.2 h

theorem StartsLine.skipSemicolon {s : List Char} (h : StartsLine s) :
    skipSemicolon (Read.skipSpace s) = Read.skipSpace s := by
  obtain ⟨c, rest, heq, hc⟩ := h
  have hne : c ≠ ';' := StartsLine.ne hc (by decide)
  rw [heq]
  unfold Read.skipSemicolon
  split
  · next heq => exact absurd (List.cons.inj heq).1 hne
  · rfl

/-- A statement of a written graph starts at the place. -/
def StartsStatement (s : List Char) : Prop :=
  ∃ c rest, skipSpace s = c :: rest ∧ (isWordStart c ∨ c = '"')

theorem StartsStatement.startsLine {s : List Char} (h : StartsStatement s) : StartsLine s := by
  obtain ⟨c, rest, heq, hc | hc⟩ := h
  · exact ⟨c, rest, heq, .inl hc⟩
  · exact ⟨c, rest, heq, .inr (.inl hc)⟩

theorem startsStatement_renderId (id : String) (rest : List Char) :
    StartsStatement (renderId id ++ rest) := by
  unfold renderId
  split
  · next h =>
    obtain ⟨c, cs, heq, hc, -, -⟩ := isBareName_iff.mp h
    rw [heq]
    exact ⟨c, cs ++ rest, skipSpace_cons (isSpace_of_isWordChar (isWordChar_of_isWordStart hc)) _,
      .inl hc⟩
  · exact ⟨'"', escape id.toList ++ ['"'] ++ rest, rfl, .inr rfl⟩

theorem skipSpace_renderId (id : String) (rest : List Char) :
    skipSpace (renderId id ++ rest) = renderId id ++ rest := by
  unfold renderId
  split
  · next h =>
    obtain ⟨c, cs, heq, hc, -, -⟩ := isBareName_iff.mp h
    rw [heq]
    exact skipSpace_cons (isSpace_of_isWordChar (isWordChar_of_isWordStart hc)) _
  · rfl

theorem startsStatement_indent {s : List Char} (h : StartsStatement s) :
    StartsStatement (indent ++ s) := by
  obtain ⟨c, rest, heq, hc⟩ := h
  exact ⟨c, rest, by rw [skipSpace_indent, heq], hc⟩

theorem length_le_length_flatMap {f : α → List Char} {l : List α} (h : ∀ a ∈ l, f a ≠ []) :
    l.length ≤ (l.flatMap f).length := by
  induction l with
  | nil => simp
  | cons a l ih =>
      have ha := List.length_pos_iff.mpr (h a (List.mem_cons_self ..))
      have hl := ih fun b hb => h b (List.mem_cons_of_mem _ hb)
      simp only [List.flatMap_cons, List.length_append, List.length_cons]
      omega

/-! ## Attribute blocks -/

variable {f : AttrValue → AttrValue}

/-- Every key of the attributes can be read, and every value as its image. -/
def Rereads (f : AttrValue → AttrValue) (attrs : Attrs) : Prop :=
  ∀ e ∈ attrs.entries, isDottedName e.1.toList ∧ ReadsAs e.2 (f e.2)

theorem attr_renderEntry {e : String × AttrValue} {w : AttrValue} (hkey : isDottedName e.1.toList)
    (hvalue : ReadsAs e.2 w) {rest : List Char} (hrest : AfterValue rest) :
    attr (renderEntry e ++ rest) = .ok ((e.1, w), rest) := by
  have hspace : skipSpace (renderValue e.2 ++ rest) = renderValue e.2 ++ rest := by
    obtain ⟨c, cs, heq, hc⟩ := exists_renderValue e.2
    rw [heq]
    exact skipSpace_cons hc _
  rw [renderEntry, List.append_assoc, List.cons_append, attr, key_append hkey]
  change (expecting .attributeValue (value (skipSpace (renderValue e.2 ++ rest))) >>= _) = _
  rw [hspace, hvalue rest hrest]
  rfl

theorem skipBetween_comma {c : Char} (h : isSpace c = false) (rest : List Char) :
    skipBetween (',' :: ' ' :: c :: rest) = c :: rest := by
  have hcomma : skipSpace (',' :: ' ' :: c :: rest) = ',' :: ' ' :: c :: rest := rfl
  rw [skipBetween, hcomma]
  change skipSpace (c :: rest) = c :: rest
  exact skipSpace_cons h rest

theorem exists_renderEntry {e : String × AttrValue} (h : isDottedName e.1.toList) :
    ∃ c rest, renderEntry e = c :: rest ∧ isSpace c = false := by
  cases hk : e.1.toList with
  | nil => rw [hk] at h; exact absurd h (by decide)
  | cons c cs =>
      rw [hk, isDottedName_cons, Bool.and_eq_true] at h
      exact ⟨c, cs ++ '=' :: renderValue e.2, by rw [renderEntry, hk]; rfl,
        isSpace_of_isWordChar (isWordChar_of_isWordStart h.1)⟩

theorem skipBetween_entries {e : String × AttrValue} (h : isDottedName e.1.toList)
    (l : List (String × AttrValue)) (rest : List Char) :
    skipBetween ((e :: l).flatMap ([',', ' '] ++ renderEntry ·) ++ rest)
      = renderEntry e ++ (l.flatMap ([',', ' '] ++ renderEntry ·) ++ rest) := by
  obtain ⟨c, cs, heq, hc⟩ := exists_renderEntry h
  rw [List.flatMap_cons, heq]
  simp only [List.append_assoc, List.cons_append, List.nil_append]
  exact skipBetween_comma hc _

/-- The attributes that are still to come are added one by one to those that were seen. -/
theorem attrs_flatMap {l : List (String × AttrValue)}
    (h : ∀ e ∈ l, isDottedName e.1.toList ∧ ReadsAs e.2 (f e.2)) {most : Nat}
    (hmost : l.length ≤ most) (seen : Attrs) (rest : List Char) :
    attrs most seen (skipBetween (l.flatMap ([',', ' '] ++ renderEntry ·) ++ ']' :: rest))
      = .ok (l.foldl (fun acc e => acc.insert e.1 (f e.2)) seen, ']' :: rest) := by
  induction l generalizing most seen with
  | nil =>
      cases most with
      | zero => rfl
      | succ most => rfl
  | cons e l ih =>
      obtain ⟨hkey, hvalue⟩ := h e (List.mem_cons_self ..)
      obtain ⟨most, rfl⟩ : ∃ m, most = m + 1 := ⟨most - 1, by simp at hmost; omega⟩
      have hafter : AfterValue (l.flatMap ([',', ' '] ++ renderEntry ·) ++ ']' :: rest) := by
        cases l with
        | nil => exact ⟨rest, .inr rfl⟩
        | cons d l => exact ⟨_, .inl rfl⟩
      rw [skipBetween_entries hkey, attrs, attr_renderEntry hkey hvalue hafter]
      exact ih (fun d hd => h d (List.mem_cons_of_mem _ hd)) (by simpa using hmost) _

theorem foldl_insert_entries (attrs : Attrs) :
    attrs.entries.foldl (fun acc e => acc.insert e.1 (f e.2)) (∅ : Attrs) = attrs.mapValues f := by
  have h := Keyed.ofList_entries (attrs.mapValues f)
  rw [Keyed.ofList, Keyed.mapValues, List.foldl_map] at h
  exact h

theorem attrBlock_renderAttrs {attrs : Attrs} (h : Rereads f attrs) (rest : List Char) :
    attrBlock ('[' :: (renderAttrs attrs ++ ']' :: rest)) = .ok (attrs.mapValues f, rest) := by
  have hread : Read.attrs (renderAttrs attrs ++ ']' :: rest).length ∅
      (skipSpace (renderAttrs attrs ++ ']' :: rest)) = .ok (attrs.mapValues f, ']' :: rest) := by
    rw [← foldl_insert_entries]
    cases heq : attrs.entries with
    | nil => rw [renderAttrs, heq]; rfl
    | cons e l =>
        have hmem : ∀ d ∈ e :: l, isDottedName d.1.toList ∧ ReadsAs d.2 (f d.2) := heq ▸ h
        have hkey := (hmem e (List.mem_cons_self ..)).1
        have htext : renderAttrs attrs ++ ']' :: rest
            = renderEntry e ++ (l.flatMap ([',', ' '] ++ renderEntry ·) ++ ']' :: rest) := by
          rw [renderAttrs_of_entries heq, List.append_assoc]
        have hspace : skipSpace (renderAttrs attrs ++ ']' :: rest)
            = skipBetween ((e :: l).flatMap ([',', ' '] ++ renderEntry ·) ++ ']' :: rest) := by
          obtain ⟨c, cs, hentry, hc⟩ := exists_renderEntry hkey
          rw [skipBetween_entries hkey, htext, hentry]
          exact skipSpace_cons hc _
        have hlength : (e :: l).length ≤ (renderAttrs attrs ++ ']' :: rest).length := by
          have hl := length_le_length_flatMap (l := l) (f := ([',', ' '] ++ renderEntry ·))
            (by simp)
          simp only [htext, List.length_append, List.length_cons] at hl ⊢
          omega
        rw [hspace]
        exact attrs_flatMap hmem hlength ∅ rest
  rw [attrBlock]
  change (Read.attrs _ _ _ >>= _) = _
  rw [hread]
  rfl

/-! ## Names that begin with a word of the language -/

theorem dropWord?_eq_some {w s rest : List Char} : dropWord? w s = some rest ↔ s = w ++ rest := by
  induction w generalizing s with
  | nil => simp [dropWord?, eq_comm]
  | cons c w ih =>
      cases s with
      | nil => simp [dropWord?]
      | cons d s =>
          by_cases hcd : c = d
          · simp [dropWord?, hcd, ih]
          · simp [dropWord?, hcd, Ne.symm hcd]

theorem word_of_toList_append {w : String} {s rest : List Char} (h : s = w.toList ++ rest) :
    word w s = .ok ((), rest) := by
  rw [word, dropWord?_eq_some.mpr h]

theorem refused_word {w : String} {s : List Char} (h : ∀ rest, s ≠ w.toList ++ rest) :
    Refused (word w s) := by
  cases hw : dropWord? w.toList s with
  | none => exact ⟨s, [], by rw [word, hw]⟩
  | some rest => exact absurd (dropWord?_eq_some.mp hw) (h rest)

/-- What follows a name in a statement of a written graph. -/
structure AfterName (rest : List Char) : Prop where
  blank : ∃ more, rest = ' ' :: more ∨ rest = '\n' :: more
  noBrace : ∀ more, skipSpace rest ≠ '\x7b' :: more

theorem AfterName.stops {rest : List Char} (h : AfterName rest) : Stops isWordChar rest := by
  obtain ⟨more, rfl | rfl⟩ := h.blank <;> rfl

theorem isWordChar_of_mem_keywords {w : String} (hw : w ∈ keywords) :
    w.toList ≠ [] ∧ ∀ c ∈ w.toList, isWordChar c := by
  have hall : keywords.all fun w => w.toList != [] && w.toList.all isWordChar := by decide
  have hword := List.all_eq_true.mp hall w hw
  simpa using hword

/-- A written name begins with a word of the language at most if the word goes on. -/
theorem word_renderId {w : String} (hw : w ∈ keywords) (id : String) {rest : List Char}
    (hrest : Stops isWordChar rest) : Refused (word w (renderId id ++ rest)) ∨
      ∃ c cs, word w (renderId id ++ rest) = .ok ((), c :: cs ++ rest)
        ∧ ∀ d ∈ c :: cs, isWordChar d := by
  obtain ⟨hne, hchars⟩ := isWordChar_of_mem_keywords hw
  by_cases hword : ∀ r, renderId id ++ rest ≠ w.toList ++ r
  · exact .inl (refused_word hword)
  · push Not at hword
    obtain ⟨r, hr⟩ := hword
    have hread := word_of_toList_append hr
    unfold renderId at hr hread ⊢
    split at hr
    · next hbare =>
      obtain ⟨c, cs, heq, hc, hcs, hkey⟩ := isBareName_iff.mp hbare
      rw [if_pos hbare] at hread ⊢
      rcases List.append_eq_append_iff.mp hr with ⟨a, ha, hra⟩ | ⟨a, ha, hra⟩
      · cases a with
        | nil =>
            rw [List.append_nil] at ha
            rw [← ha, String.ofList_toList] at hkey
            exact absurd hw hkey
        | cons d a =>
            have hd : isWordChar d := hchars d (by rw [ha]; simp)
            rw [hra] at hrest
            exact absurd hd (by rw [show isWordChar d = false from hrest]; decide)
      · cases a with
        | nil =>
            rw [List.append_nil] at ha
            rw [ha, String.ofList_toList] at hkey
            exact absurd hw hkey
        | cons d a =>
            refine .inr ⟨d, a, by rw [hread, hra], fun e he => ?_⟩
            have hmem : e ∈ c :: cs := by rw [← heq, ha]; exact List.mem_append_right _ he
            rcases List.mem_cons.mp hmem with rfl | hmem
            · exact isWordChar_of_isWordStart hc
            · exact hcs e hmem
    · obtain ⟨c, cs, hw'⟩ := List.exists_cons_of_ne_nil hne
      rw [hw'] at hr
      have hquote : '"' = c := (List.cons.inj hr).1
      have hc := hchars c (by rw [hw']; simp)
      rw [← hquote] at hc
      exact absurd hc (by decide)

theorem ne_of_isWordChar {c d : Char} (hc : isWordChar c) (hd : isWordChar d = false) : c ≠ d := by
  rintro rfl
  rw [hd] at hc
  exact absurd hc (by decide)

/-- A name is never taken for attributes of the graph or for defaults. -/
theorem refused_keywordBlock {w : String} (hw : w ∈ keywords) (id : String) {rest : List Char}
    (hrest : Stops isWordChar rest) : Refused (keywordBlock w (renderId id ++ rest)) := by
  rcases word_renderId hw id hrest with h | ⟨c, cs, h, hcs⟩
  · exact h.bind _
  · have hc := hcs c (List.mem_cons_self ..)
    rw [keywordBlock, h]
    change Refused (attrBlock (skipSpace (c :: (cs ++ rest))) >>= _)
    rw [skipSpace_cons (isSpace_of_isWordChar hc)]
    exact (refused_attrBlock (ne_of_isWordChar hc (by decide)) _).bind _

theorem isDigit_of_isWordChar {c : Char} (h : isWordChar c) (hstart : isWordStart c = false) :
    c.isDigit := by
  simp only [isWordChar, isWordStart, Char.isAlphanum, Bool.or_eq_true, Bool.or_eq_false_iff] at *
  rcases h with (h | h) | h
  · rw [hstart.1] at h; exact absurd h (by decide)
  · exact h
  · rw [hstart.2] at h; exact absurd h (by decide)

theorem numeral_of_isDigit {c : Char} {cs rest : List Char} (hc : c.isDigit)
    (hcs : ∀ d ∈ cs, isWordChar d) (hrest : AfterName rest) :
    ∃ left, (∀ d ∈ left, isWordChar d) ∧
      numeral (c :: cs ++ rest) = .ok (c :: cs.takeWhile Char.isDigit, left ++ rest) := by
  have hstops : Stops Char.isDigit rest := by
    obtain ⟨more, rfl | rfl⟩ := hrest.blank <;> rfl
  have hdigits : digits (c :: cs ++ rest)
      = .ok (c :: cs.takeWhile Char.isDigit, cs.dropWhile Char.isDigit ++ rest) := by
    have hsplit : c :: cs ++ rest
        = c :: cs.takeWhile Char.isDigit ++ (cs.dropWhile Char.isDigit ++ rest) := by
      rw [List.cons_append, List.cons_append, ← List.append_assoc, List.takeWhile_append_dropWhile]
    rw [hsplit]
    refine digits_append (by simp) ?_ ?_
    · exact List.forall_mem_cons.mpr ⟨hc, fun d hd => List.mem_takeWhile_imp hd⟩
    · exact stops_dropWhile_append hstops
  have hleft : ∀ d ∈ cs.dropWhile Char.isDigit, isWordChar d :=
    fun d hd => hcs d ((List.dropWhile_suffix _).subset hd)
  refine ⟨_, hleft, ?_⟩
  have hfraction : fraction (cs.dropWhile Char.isDigit ++ rest)
      = ([], cs.dropWhile Char.isDigit ++ rest) := by
    cases hd : cs.dropWhile Char.isDigit with
    | nil => obtain ⟨more, rfl | rfl⟩ := hrest.blank <;> rfl
    | cons d ds =>
        have hne : d ≠ '.' := ne_of_isWordChar (hleft d (by rw [hd]; simp)) (by decide)
        rw [List.cons_append, fraction]
        exact fun _ heq => hne (List.cons.inj heq).1
  rw [numeral, List.cons_append, sign_of_isDigit hc, ← List.cons_append]
  simp only [hdigits]
  change Except.ok _ = _
  rw [hfraction]
  simp

/-- A name that begins with a word's characters ends among them. -/
theorem name_of_isWordChar {c : Char} {cs rest : List Char} (hcs : ∀ d ∈ c :: cs, isWordChar d)
    (hrest : AfterName rest) : ∃ id left, name (c :: cs ++ rest) = .ok (id, left ++ rest)
      ∧ ∀ d ∈ left, isWordChar d := by
  obtain ⟨hc, hcs⟩ := List.forall_mem_cons.mp hcs
  cases hstart : isWordStart c with
  | true => exact ⟨_, [], name_of_bare hstart hcs hrest.stops, by simp⟩
  | false =>
      have hdigit := isDigit_of_isWordChar hc hstart
      have hquoted : quoted (c :: cs ++ rest) = refuse (c :: cs ++ rest) [] :=
        quoted_of_ne (ne_of_isWordChar hc (by decide)) _
      have hbare : bareName (c :: cs ++ rest) = refuse (c :: cs ++ rest) [] := by
        rw [List.cons_append, bareName, if_neg (by rw [hstart]; decide)]
      obtain ⟨left, hleft, hnumeral⟩ := numeral_of_isDigit hdigit hcs hrest
      refine ⟨String.ofList (c :: cs.takeWhile Char.isDigit), left, ?_, hleft⟩
      rw [name, hquoted, hbare, hnumeral]
      rfl

/-- A name is never taken for the beginning of a block. -/
theorem refused_subgraph (id : String) {rest : List Char} (hrest : AfterName rest)
    (body : List Char → Reading (List Statement × List Char)) :
    Refused (subgraph body (renderId id ++ rest)) := by
  refine Refused.bind ?_ _
  rcases word_renderId (w := "subgraph") (by decide) id hrest.stops with h | ⟨c, cs, h, hcs⟩
  · exact h.bind _
  · obtain ⟨name', left, hname, hleft⟩ := name_of_isWordChar hcs hrest
    have hc := hcs c (List.mem_cons_self ..)
    rw [subgraphOpening, h]
    change Refused (optional (skipSpace (c :: (cs ++ rest))) (name (skipSpace (c :: (cs ++ rest))))
      >>= _)
    rw [skipSpace_cons (isSpace_of_isWordChar hc), ← List.cons_append, hname]
    change Refused (char '\x7b' (skipSpace (left ++ rest)))
    cases left with
    | nil => exact refused_char' hrest.noBrace
    | cons d left =>
        have hd := hleft d (List.mem_cons_self ..)
        rw [List.cons_append, skipSpace_cons (isSpace_of_isWordChar hd)]
        exact refused_char (ne_of_isWordChar hd (by decide)) _

/-! ## Nodes and edges -/

theorem renderBlock_of_isEmpty {attrs : Attrs} (h : attrs.isEmpty) : renderBlock attrs = [] := by
  rw [renderBlock, if_pos h]

theorem renderBlock_append {attrs : Attrs} (h : attrs.isEmpty = false) (rest : List Char) :
    renderBlock attrs ++ rest = ' ' :: '[' :: (renderAttrs attrs ++ ']' :: rest) := by
  rw [renderBlock, if_neg (by rw [h]; decide)]
  simp

theorem mapValues_of_isEmpty {attrs : Attrs} (h : attrs.isEmpty) : attrs.mapValues f = ∅ := by
  refine Keyed.ext ?_
  change attrs.entries.map _ = []
  rw [List.isEmpty_iff.mp h]
  rfl

theorem skipSpace_lineFeed (more : List Char) : skipSpace ('\n' :: more) = skipSpace more := rfl

theorem afterName_renderBlock (attrs : Attrs) {more : List Char} (hmore : StartsLine more) :
    AfterName (renderBlock attrs ++ '\n' :: more) := by
  cases hempty : attrs.isEmpty with
  | true =>
      obtain ⟨c, rest, heq, hc⟩ := hmore
      rw [renderBlock_of_isEmpty hempty]
      refine ⟨⟨more, .inr rfl⟩, fun rest' h => ?_⟩
      rw [List.nil_append, skipSpace_lineFeed, heq] at h
      exact StartsLine.ne hc (by decide) (List.cons.inj h).1
  | false =>
      rw [renderBlock_append hempty]
      exact ⟨⟨_, .inl rfl⟩, fun rest' h => absurd (List.cons.inj h).1 (by decide)⟩

theorem afterName_arrow (rest : List Char) : AfterName (" -> ".toList ++ rest) :=
  ⟨⟨_, .inl rfl⟩, fun _ h => absurd (List.cons.inj h).1 (by decide)⟩

theorem dropWord?_renderBlock (attrs : Attrs) {more : List Char} (hmore : StartsLine more)
    (c : Char) :
    dropWord? ['-', c] (skipSpace (renderBlock attrs ++ '\n' :: more)) = none := by
  cases hempty : attrs.isEmpty with
  | true =>
      obtain ⟨d, rest, heq, hd⟩ := hmore
      rw [renderBlock_of_isEmpty hempty, List.nil_append, skipSpace_lineFeed, heq, dropWord?,
        if_neg (StartsLine.ne hd (by decide)).symm]
  | false => rw [renderBlock_append hempty]; rfl

/-- After a name there is an attribute block or nothing that belongs to the statement. -/
theorem optional_attrBlock {attrs : Attrs} (h : Rereads f attrs) {more : List Char}
    (hmore : StartsLine more) (s : List Char)
    (hs : s = skipSpace (renderBlock attrs ++ '\n' :: more)) :
    (optional s (attrBlock s) = .ok (some (attrs.mapValues f), '\n' :: more))
      ∨ (optional s (attrBlock s) = .ok (none, s) ∧ s = skipSpace more
        ∧ attrs.mapValues f = ∅) := by
  subst hs
  cases hempty : attrs.isEmpty with
  | true =>
      obtain ⟨c, rest, heq, hc⟩ := hmore
      rw [renderBlock_of_isEmpty hempty, List.nil_append, skipSpace_lineFeed]
      refine .inr ⟨?_, rfl, mapValues_of_isEmpty hempty⟩
      have hrefused : Refused (attrBlock (skipSpace more)) := by
        rw [heq]
        exact refused_attrBlock (StartsLine.ne hc (by decide)) rest
      exact hrefused.optional _
  | false =>
      rw [renderBlock_append hempty]
      refine .inl ?_
      change optional _ (attrBlock ('[' :: (renderAttrs attrs ++ ']' :: '\n' :: more))) = _
      rw [attrBlock_renderAttrs h]
      rfl

theorem declaration_renderNode {n : Node} (h : Rereads f n.attrs) {more : List Char}
    (hmore : StartsLine more) :
    ∃ left, declaration (renderId n.id ++ (renderBlock n.attrs ++ '\n' :: more))
      = .ok (.node left n.id (n.attrs.mapValues f), skipSpace more) := by
  refine ⟨(renderId n.id ++ (renderBlock n.attrs ++ '\n' :: more)).length, ?_⟩
  have hname := name_renderId n.id (afterName_renderBlock n.attrs hmore).stops
  unfold declaration
  simp only [hname, bind, Except.bind, dropWord?_renderBlock n.attrs hmore]
  rcases optional_attrBlock h hmore _ rfl with hblock | ⟨hblock, hs, hempty⟩
  · rw [hblock]
    simp only [skipSpace_lineFeed, hmore.skipSemicolon]
    rfl
  · rw [hblock, hs, hempty]
    have hsemicolon := hmore.skipSemicolon
    obtain ⟨c, rest, heq, hc⟩ := hmore
    rw [heq] at hsemicolon ⊢
    have hne : c ≠ '=' := StartsLine.ne hc (by decide)
    dsimp only
    split
    · next heq => cases heq
    · next heq => exact absurd (List.cons.inj (Prod.mk.inj heq).2).1 hne
    · next heq => rw [← (Prod.mk.inj heq).2, hsemicolon]; rfl

theorem declaration_renderEdge {e : Edge} (h : Rereads f e.attrs) {more : List Char}
    (hmore : StartsLine more) :
    ∃ left, declaration (renderId e.source ++ (" -> ".toList ++ (renderId e.target
        ++ (renderBlock e.attrs ++ '\n' :: more))))
      = .ok (.edges left [e.source, e.target] (e.attrs.mapValues f), skipSpace more) := by
  refine ⟨(renderId e.source ++ (" -> ".toList ++ (renderId e.target
    ++ (renderBlock e.attrs ++ '\n' :: more)))).length, ?_⟩
  have hsource := name_renderId e.source
    (afterName_arrow (renderId e.target ++ (renderBlock e.attrs ++ '\n' :: more))).stops
  have htarget := name_renderId e.target (afterName_renderBlock e.attrs hmore).stops
  have harrow : dropWord? ['-', '>'] (skipSpace (" -> ".toList ++ (renderId e.target
      ++ (renderBlock e.attrs ++ '\n' :: more))))
      = some (' ' :: (renderId e.target ++ (renderBlock e.attrs ++ '\n' :: more))) := rfl
  have hchain : ∀ most, chain (most + 1) (' ' :: (renderId e.target
      ++ (renderBlock e.attrs ++ '\n' :: more)))
      = .ok ([e.target], skipSpace (renderBlock e.attrs ++ '\n' :: more)) := by
    intro most
    have hspace : skipSpace (' ' :: (renderId e.target ++ (renderBlock e.attrs ++ '\n' :: more)))
        = renderId e.target ++ (renderBlock e.attrs ++ '\n' :: more) := skipSpace_renderId _ _
    rw [chain, hspace, htarget]
    simp only [expecting, bind, Except.bind, dropWord?_renderBlock e.attrs hmore]
    rfl
  unfold declaration
  simp only [hsource, bind, Except.bind, harrow, hchain]
  rcases optional_attrBlock h hmore _ rfl with hblock | ⟨hblock, hs, hempty⟩
  · rw [hblock]
    simp only [skipSpace_lineFeed, hmore.skipSemicolon]
    rfl
  · rw [hblock, hs, hempty]
    simp only [skipSpace_skipSpace, hmore.skipSemicolon]
    rfl

/-! ## Lines -/

/-- The text of a line is read as a statement with the property, up to the next line. -/
def ReadsStatement (text : List Char) (p : Statement → Prop) : Prop :=
  ∀ body more, StartsLine more → StartsStatement (text ++ more) ∧
    ∃ st, p st ∧ statement body (skipSpace (text ++ more)) = .ok (st, skipSpace more)

/-- What begins with a name is a node or an edge. -/
theorem statement_renderId (id : String) {rest : List Char} (hrest : AfterName rest)
    (body : List Char → Reading (List Statement × List Char)) :
    statement body (renderId id ++ rest) = declaration (renderId id ++ rest) := by
  have hstops := hrest.stops
  rw [statement,
    ((refused_keywordBlock (w := "graph") (by decide) id hstops).mapValue _).otherwise,
    ((refused_keywordBlock (w := "node") (by decide) id hstops).mapValue _).otherwise,
    ((refused_keywordBlock (w := "edge") (by decide) id hstops).mapValue _).otherwise,
    (refused_subgraph id hrest body).otherwise]

theorem readsStatement_renderNode {n : Node} (h : Rereads f n.attrs) :
    ReadsStatement (renderNode n)
      (fun st => ∃ left, st = .node left n.id (n.attrs.mapValues f)) := by
  intro body more hmore
  have htext : renderNode n ++ more
      = indent ++ (renderId n.id ++ (renderBlock n.attrs ++ '\n' :: more)) := by
    simp [renderNode]
  obtain ⟨left, hread⟩ := declaration_renderNode h hmore
  rw [htext]
  refine ⟨startsStatement_indent (startsStatement_renderId _ _), _, ⟨left, rfl⟩, ?_⟩
  rw [skipSpace_indent, skipSpace_renderId,
    statement_renderId _ (afterName_renderBlock _ hmore), hread]

theorem readsStatement_renderEdge {e : Edge} (h : Rereads f e.attrs) :
    ReadsStatement (renderEdge e)
      (fun st => ∃ left, st = .edges left [e.source, e.target] (e.attrs.mapValues f)) := by
  intro body more hmore
  have htext : renderEdge e ++ more = indent ++ (renderId e.source ++ (" -> ".toList
      ++ (renderId e.target ++ (renderBlock e.attrs ++ '\n' :: more)))) := by
    simp [renderEdge]
  obtain ⟨left, hread⟩ := declaration_renderEdge h hmore
  rw [htext]
  refine ⟨startsStatement_indent (startsStatement_renderId _ _), _, ⟨left, rfl⟩, ?_⟩
  rw [skipSpace_indent, skipSpace_renderId, statement_renderId _ (afterName_arrow _),
    hread]

theorem readsStatement_renderGraphAttrs {attrs : Attrs} (hne : attrs.isEmpty = false)
    (h : Rereads f attrs) :
    ReadsStatement (renderGraphAttrs attrs) (fun st => st = .graphAttrs (attrs.mapValues f)) := by
  intro body more hmore
  have htext : renderGraphAttrs attrs ++ more = indent ++ ("graph".toList
      ++ (' ' :: '[' :: (renderAttrs attrs ++ ']' :: '\n' :: '\n' :: more))) := by
    rw [renderGraphAttrs, if_neg (by rw [hne]; decide), ← renderBlock_append hne]
    simp
  have hword : keywordBlock "graph" ("graph".toList
      ++ (' ' :: '[' :: (renderAttrs attrs ++ ']' :: '\n' :: '\n' :: more)))
      = .ok (attrs.mapValues f, skipSpace more) := by
    rw [keywordBlock, word_append]
    change (attrBlock ('[' :: (renderAttrs attrs ++ ']' :: '\n' :: '\n' :: more)) >>= _) = _
    rw [attrBlock_renderAttrs h]
    change Except.ok (attrs.mapValues f, Read.skipSemicolon (skipSpace more)) = _
    rw [hmore.skipSemicolon]
  rw [htext, skipSpace_indent]
  refine ⟨startsStatement_indent ⟨'g', _, rfl, .inl (by decide)⟩, _, rfl, ?_⟩
  have hspace : ∀ rest, skipSpace ("graph".toList ++ rest) = "graph".toList ++ rest := fun _ => rfl
  rw [hspace, statement, hword]
  rfl

theorem statements_skipSpace (most : Nat) (s : List Char) :
    statements (most + 1) (skipSpace s) = statements (most + 1) s := by
  rw [statements, statements, skipSpace_skipSpace]

theorem mapValue_mapValue {γ : Type} (g : β → γ) (f : α → β) (r : Reading (α × List Char)) :
    mapValue g (mapValue f r) = mapValue (g ∘ f) r := by
  cases r <;> rfl

theorem statements_append {text more : List Char} {p : Statement → Prop}
    (h : ReadsStatement text p) (hmore : StartsLine more) (most : Nat) :
    ∃ st, p st ∧ statements (most + 2) (text ++ more)
      = mapValue (st :: ·) (statements (most + 1) more) := by
  obtain ⟨⟨c, rest, heq, hc⟩, st, hst, hread⟩ := h (statements (most + 1)) more hmore
  refine ⟨st, hst, ?_⟩
  have hclose : c ≠ '\x7d' := by
    rintro rfl
    rcases hc with hc | hc <;> exact absurd hc (by decide)
  rw [heq] at hread
  rw [statements, heq]
  split
  · next hnil => cases hnil
  · next hcons => exact absurd (List.cons.inj hcons).1 hclose
  · rw [hread]
    change mapValue (st :: ·) (statements (most + 1) (skipSpace more)) = _
    rw [statements_skipSpace]

/-- Lines are read one by one, before whatever comes after them. -/
theorem statements_flatMap {render : α → List Char} {p : α → Statement → Prop} {l : List α}
    (h : ∀ a ∈ l, ReadsStatement (render a) (p a)) {more : List Char} (hmore : StartsLine more)
    (most : Nat) : StartsLine (l.flatMap render ++ more) ∧ ∃ sts, List.Forall₂ p l sts ∧
      statements (most + l.length + 1) (l.flatMap render ++ more)
        = mapValue (sts ++ ·) (statements (most + 1) more) := by
  induction l with
  | nil =>
      refine ⟨hmore, [], .nil, ?_⟩
      change statements (most + 1) more = _
      cases statements (most + 1) more <;> rfl
  | cons a l ih =>
      obtain ⟨hstart, sts, hsts, hread⟩ := ih fun b hb => h b (List.mem_cons_of_mem _ hb)
      have ha := h a (List.mem_cons_self ..)
      obtain ⟨st, hst, hfirst⟩ := statements_append ha hstart (most + l.length)
      rw [List.flatMap_cons, List.append_assoc]
      refine ⟨(ha (statements 0) _ hstart).1.startsLine, st :: sts, .cons hst hsts, ?_⟩
      rw [List.length_cons]
      change statements (most + l.length + 2) _ = _
      rw [hfirst, hread, mapValue_mapValue]
      rfl

end Pipewright.Digraph.Read
