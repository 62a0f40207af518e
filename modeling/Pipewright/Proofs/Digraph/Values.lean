import Mathlib.Data.List.Basic
import Pipewright.Digraph.Token
import Pipewright.Proofs.Text

/-!
# Tokens read back

Names and values are read back from what is written of them.
-/

/-!
## Names read back

What is between quotes is escaped when it is written and restored when it is
read, character by character, so a quoted text is followed by exactly what
followed it when it was written. A bare name ends where its word ends.

Keys have no quotes. The ones that can be read are the dotted names, which is
what `isDottedName` says by cutting at the points and `isKeyTail` by going
along as the reader does.
-/

namespace Pipewright.Digraph

namespace Read

/-! ### Quotes -/

theorem quotedBody_escapeChar (c : Char) (rest : List Char) :
    quotedBody (escapeChar c ++ rest) = mapValue (c :: ·) (quotedBody rest) := by
  unfold escapeChar
  split
  · next h => subst h; rfl
  · split
    · next h => subst h; rfl
    · split
      · next h => subst h; rfl
      · next hb hq _ =>
        rw [List.singleton_append, quotedBody]
        · exact hq
        · exact fun h _ => hb h
        · exact fun _ _ h _ => hb h

theorem quotedBody_escape (cs rest : List Char) :
    quotedBody (escape cs ++ '"' :: rest) = .ok (cs, rest) := by
  induction cs with
  | nil => rfl
  | cons c cs ih =>
      rw [escape, List.flatMap_cons, List.append_assoc, quotedBody_escapeChar]
      change mapValue (c :: ·) (quotedBody (escape cs ++ '"' :: rest)) = _
      rw [ih]
      rfl

theorem quoted_quote (cs rest : List Char) : quoted (quote cs ++ rest) = .ok (cs, rest) := by
  rw [quote, List.cons_append, List.cons_append, List.append_assoc, quoted]
  exact quotedBody_escape cs rest

theorem quoted_of_ne {c : Char} (h : c ≠ '"') (rest : List Char) :
    quoted (c :: rest) = refuse (c :: rest) [] := by
  unfold quoted
  split
  · next heq => exact absurd (List.cons.inj heq).1 h
  · rfl

/-! ### Names -/

theorem ne_quote_of_isWordStart {c : Char} (h : isWordStart c) : c ≠ '"' := by
  rintro rfl
  exact absurd h (by decide)

theorem isWordChar_of_isWordStart {c : Char} (h : isWordStart c) : isWordChar c := by
  simp only [isWordStart, isWordChar, Char.isAlphanum, Bool.or_eq_true] at h ⊢
  tauto

theorem isBareValueChar_of_isWordChar {c : Char} (h : isWordChar c) : isBareValueChar c := by
  simp [isBareValueChar, h]

theorem bareName_append {c : Char} {cs rest : List Char} (hc : isWordStart c)
    (hcs : ∀ d ∈ cs, isWordChar d) (hr : Stops isWordChar rest) :
    bareName (c :: cs ++ rest) = .ok (c :: cs, rest) := by
  rw [List.cons_append, bareName, if_pos hc, takeWhile_append hcs hr, dropWhile_append hcs hr]

theorem name_of_bare {c : Char} {cs rest : List Char} (hc : isWordStart c)
    (hcs : ∀ d ∈ cs, isWordChar d) (hr : Stops isWordChar rest) :
    name (c :: cs ++ rest) = .ok (String.ofList (c :: cs), rest) := by
  rw [name, bareName_append hc hcs hr, List.cons_append,
    quoted_of_ne (ne_quote_of_isWordStart hc)]
  rfl

theorem name_quote (cs rest : List Char) :
    name (quote cs ++ rest) = .ok (String.ofList cs, rest) := by
  rw [name, quoted_quote]
  rfl

theorem isBareName_iff {cs : List Char} : isBareName cs = true ↔
    ∃ c rest, cs = c :: rest ∧ isWordStart c ∧ (∀ d ∈ rest, isWordChar d)
      ∧ String.ofList cs ∉ keywords := by
  cases cs with
  | nil => simp [isBareName]
  | cons c rest =>
      simp only [isBareName, Bool.and_eq_true, List.all_eq_true, Bool.not_eq_true',
        List.cons.injEq]
      constructor
      · rintro ⟨⟨hc, hr⟩, hk⟩
        exact ⟨c, rest, ⟨rfl, rfl⟩, hc, hr, by simpa using hk⟩
      · rintro ⟨_, _, ⟨rfl, rfl⟩, hc, hr, hk⟩
        exact ⟨⟨hc, hr⟩, by simpa using hk⟩

/-- A name that is written is read back, whatever follows it that is no part of a word. -/
theorem name_renderId (id : String) {rest : List Char} (hr : Stops isWordChar rest) :
    name (renderId id ++ rest) = .ok (id, rest) := by
  unfold renderId
  split
  · next h =>
    obtain ⟨c, cs, heq, hc, hcs, -⟩ := isBareName_iff.mp h
    rw [heq, name_of_bare hc hcs hr, ← heq, String.ofList_toList]
  · rw [name_quote, String.ofList_toList]

/-! ### Keys -/

end Read

/-- A letter or underscore, then letters, digits and underscores. -/
def isIdentifier : List Char → Bool
  | [] => false
  | c :: rest => isWordStart c && rest.all isWordChar

def isDottedName (cs : List Char) : Bool := (cs.splitOn '.').all isIdentifier

namespace Read

/-- What may follow the first character of a dotted name. -/
def isKeyTail : List Char → Bool
  | '.' :: c :: rest => isWordStart c && isKeyTail rest
  | c :: rest => isWordChar c && isKeyTail rest
  | [] => true

theorem splitOn_cons (c : Char) (cs : List Char) : ∃ first more, cs.splitOn '.' = first :: more
    ∧ (c :: cs).splitOn '.' = if c = '.' then [] :: first :: more else (c :: first) :: more := by
  obtain ⟨first, more, h⟩ := List.exists_cons_of_ne_nil (List.splitOnP_ne_nil (· == '.') cs)
  refine ⟨first, more, h, ?_⟩
  rw [List.splitOn, List.splitOnP_cons_eq_if_modifyHead, h]
  by_cases hc : c = '.' <;> simp [hc]

theorem isKeyTail_eq (cs : List Char) : ∃ first more, cs.splitOn '.' = first :: more
    ∧ isKeyTail cs = (first.all isWordChar && more.all isIdentifier) := by
  fun_induction isKeyTail cs with
  | case1 c rest ih =>
      obtain ⟨first, more, hs, hk⟩ := ih
      obtain ⟨_, _, h₁, h₂⟩ := splitOn_cons c rest
      obtain ⟨_, _, h₃, h₄⟩ := splitOn_cons '.' (c :: rest)
      rw [hs] at h₁
      obtain ⟨rfl, rfl⟩ := List.cons.inj h₁
      refine ⟨_, _, h₄, ?_⟩
      rw [h₂] at h₃
      by_cases hc : c = '.'
      · rw [if_pos hc] at h₃
        obtain ⟨rfl, rfl⟩ := List.cons.inj h₃
        subst hc
        rfl
      · rw [if_neg hc] at h₃
        obtain ⟨rfl, rfl⟩ := List.cons.inj h₃
        simp [isIdentifier, hk, Bool.and_assoc]
  | case2 c rest hdot ih =>
      obtain ⟨first, more, hs, hk⟩ := ih
      obtain ⟨_, _, h₁, h₂⟩ := splitOn_cons c rest
      rw [hs] at h₁
      obtain ⟨rfl, rfl⟩ := List.cons.inj h₁
      by_cases hc : c = '.'
      · subst hc
        cases rest with
        | nil =>
            obtain ⟨rfl, rfl⟩ := List.cons.inj hs
            exact ⟨[], [[]], by simpa using h₂, rfl⟩
        | cons d rest => exact (hdot d rest rfl rfl).elim
      · rw [if_neg hc] at h₂
        refine ⟨_, _, h₂, ?_⟩
        simp [hk, Bool.and_assoc]
  | case3 => exact ⟨[], [], rfl, rfl⟩

theorem isDottedName_cons (c : Char) (cs : List Char) :
    isDottedName (c :: cs) = (isWordStart c && isKeyTail cs) := by
  obtain ⟨first, more, hs, hk⟩ := isKeyTail_eq cs
  obtain ⟨_, _, h₁, h₂⟩ := splitOn_cons c cs
  rw [hs] at h₁
  obtain ⟨rfl, rfl⟩ := List.cons.inj h₁
  rw [isDottedName, h₂, hk]
  by_cases hc : c = '.'
  · subst hc
    rfl
  · rw [if_neg hc]
    simp [isIdentifier, Bool.and_assoc]

theorem keyTail_append {cs : List Char} (h : isKeyTail cs) (rest : List Char) :
    keyTail (cs ++ '=' :: rest) = (cs, '=' :: rest) := by
  fun_induction isKeyTail cs with
  | case1 c cs ih =>
      rw [Bool.and_eq_true] at h
      simp only [List.cons_append, keyTail, h.1, if_true, ih h.2]
  | case2 c cs hdot ih =>
      rw [Bool.and_eq_true] at h
      have hc : c ≠ '.' := by
        rintro rfl
        exact absurd h.1 (by decide)
      simp only [List.cons_append]
      rw [keyTail]
      · simp [h.1, ih h.2]
      · exact fun _ _ heq _ => hc heq
  | case3 => rfl

theorem key_append {k : String} (h : isDottedName k.toList) (rest : List Char) :
    key (k.toList ++ '=' :: rest) = .ok (k, '=' :: rest) := by
  cases hk : k.toList with
  | nil => rw [hk] at h; exact absurd h (by decide)
  | cons c cs =>
      rw [hk, isDottedName_cons, Bool.and_eq_true] at h
      rw [List.cons_append, key, if_pos h.1, keyTail_append h.2]
      simp only [← hk, String.ofList_toList]

theorem isKeyTail_keyTail (s : List Char) : isKeyTail (keyTail s).1 := by
  fun_induction keyTail s with
  | case1 c rest hc more left heq ih =>
      rw [heq] at ih
      simp [isKeyTail, hc, ih]
  | case2 => rfl
  | case3 c rest hdot hc more left heq ih =>
      rw [heq] at ih
      have hne : c ≠ '.' := by
        rintro rfl
        exact absurd hc (by decide)
      rw [isKeyTail]
      · simp [hc, ih]
      · exact fun _ _ h _ => hne h
  | case4 => rfl
  | case5 => rfl

theorem isDottedName_of_key {s rest : List Char} {k : String} (h : key s = .ok (k, rest)) :
    isDottedName k.toList := by
  unfold key at h
  split at h
  · next c cs =>
    split at h
    · next hc =>
      obtain ⟨rfl, -⟩ := Prod.mk.inj (Except.ok.inj h)
      rw [String.toList_ofList, isDottedName_cons, hc, isKeyTail_keyTail]
      rfl
    · cases h
  · cases h

end Read

/-! ### Entries -/

def renderEntry (e : String × AttrValue) : List Char := e.1.toList ++ '=' :: renderValue e.2

theorem intercalate_cons (sep first : List Char) (rest : List (List Char)) :
    sep.intercalate (first :: rest) = first ++ rest.flatMap (sep ++ ·) := by
  induction rest generalizing first with
  | nil => simp
  | cons second rest ih => rw [List.intercalate_cons_cons, ih]; simp

theorem renderAttrs_of_entries {attrs : Attrs} {e : String × AttrValue}
    {rest : List (String × AttrValue)} (h : attrs.entries = e :: rest) :
    renderAttrs attrs = renderEntry e ++ rest.flatMap ([',', ' '] ++ renderEntry ·) := by
  rw [renderAttrs, h, List.map_cons, intercalate_cons, List.flatMap_map]
  rfl

/-! ### Keys of a graph -/

def isDotted (attrs : Attrs) : Bool := attrs.entries.all fun e => isDottedName e.1.toList

/-- All attributes that a graph holds: its own, and those of nodes and edges. -/
def allAttrs (g : Digraph) : List Attrs :=
  g.attrs :: (g.nodes.map (·.attrs) ++ g.edges.map (·.attrs))

/-- Every key of the graph is a dotted name. -/
def hasDottedKeys (g : Digraph) : Bool := g.allAttrs.all isDotted

theorem isDotted_iff {attrs : Attrs} :
    isDotted attrs ↔ ∀ e ∈ attrs.entries, isDottedName e.1.toList := by
  simp [isDotted]

theorem forall_allAttrs {g : Digraph} {p : Attrs → Prop} : (∀ a ∈ g.allAttrs, p a) ↔
    p g.attrs ∧ (∀ n ∈ g.nodes, p n.attrs) ∧ ∀ e ∈ g.edges, p e.attrs := by
  simp only [allAttrs, List.forall_mem_cons, List.forall_mem_append, List.forall_mem_map]

theorem hasDottedKeys_iff {g : Digraph} : g.hasDottedKeys ↔
    isDotted g.attrs ∧ (∀ n ∈ g.nodes, isDotted n.attrs) ∧ ∀ e ∈ g.edges, isDotted e.attrs := by
  rw [hasDottedKeys, List.all_eq_true, forall_allAttrs]

end Pipewright.Digraph

/-!
## Values read back

The five kinds of values are tried in a fixed order, so it is not enough that
the right reading succeeds: those before it have to give up. A text is safe
behind its quote; a number starts with a digit or a minus sign, which neither a
quote nor a truth value does; and a whole number is not taken for a real one
because no point follows its digits.
-/

namespace Pipewright.Digraph.Read

/-! ### The characters of numbers -/

/-- The character may stand in a number that is written. -/
def isNumberChar (c : Char) : Bool := isWordChar c || c == '.' || c == '-' || c == '+'

theorem isWordChar_of_isDigit {c : Char} (h : c.isDigit) : isWordChar c := by
  simp [isWordChar, Char.isAlphanum, h]

theorem isNumberChar_of_mem_digits {n : Nat} {c : Char} (h : c ∈ Numeral.digits n) :
    isNumberChar c := by
  simp [isNumberChar, isWordChar_of_isDigit (Numeral.isDigit_of_mem_digits h)]

theorem isNumberChar_of_mem_intText {i : Int} {c : Char} (h : c ∈ (Numeral.intText i).toList) :
    isNumberChar c := by
  rw [Numeral.toList_intText] at h
  split at h
  · rcases List.mem_cons.mp h with rfl | h
    · decide
    · exact isNumberChar_of_mem_digits h
  · exact isNumberChar_of_mem_digits h

theorem forall_isNumberChar_layout (f : NumberForm) (d : Decimal) :
    ∀ c ∈ f.layout d, isNumberChar c := by
  have hdigits : ∀ c ∈ Numeral.digits d.digits, isNumberChar c :=
    fun _ => isNumberChar_of_mem_digits
  have htake : ∀ k, ∀ c ∈ (Numeral.digits d.digits).take k, isNumberChar c :=
    fun _ c hc => hdigits c (List.mem_of_mem_take hc)
  have hdrop : ∀ k, ∀ c ∈ (Numeral.digits d.digits).drop k, isNumberChar c :=
    fun _ c hc => hdigits c (List.mem_of_mem_drop hc)
  have hzeros : ∀ k, ∀ c ∈ List.replicate k '0', isNumberChar c :=
    fun _ c hc => (List.eq_of_mem_replicate hc) ▸ by decide
  have hpower : ∀ i, ∀ c ∈ (Numeral.intText i).toList, isNumberChar c :=
    fun _ _ => isNumberChar_of_mem_intText
  unfold NumberForm.layout
  dsimp only
  split
  · exact List.all_eq_true.mp (by decide)
  · split
    · split
      · simp only [List.forall_mem_append, List.forall_mem_cons]
        exact ⟨⟨hdigits, hzeros _⟩, by decide, by decide, by simp⟩
      · split
        · simp only [List.forall_mem_append, List.forall_mem_cons]
          exact ⟨htake _, by decide, hdrop _⟩
        · simp only [List.forall_mem_append, List.forall_mem_cons]
          exact ⟨⟨by decide, by decide, hzeros _⟩, hdigits⟩
    · simp only [List.forall_mem_append, List.forall_mem_cons]
      refine ⟨?_, by decide, ?_, hpower _⟩
      · split
        · exact hdigits
        · simp only [List.forall_mem_append, List.forall_mem_cons]
          exact ⟨htake _, by decide, hdrop _⟩
      · split <;> exact List.all_eq_true.mp (by decide)

theorem isNumberChar_of_mem_render {f : NumberForm} {x : Binary64} {c : Char}
    (h : c ∈ (f.render x).toList) : isNumberChar c := by
  cases x with
  | finite negative m =>
      rw [NumberForm.render, String.toList_ofList] at h
      rcases List.mem_append.mp h with h | h
      · split at h
        · exact (List.mem_singleton.mp h) ▸ by decide
        · exact absurd h List.not_mem_nil
      · exact forall_isNumberChar_layout f _ c h
  | infinite negative =>
      cases negative with
      | true => exact List.all_eq_true.mp (by decide : "-inf".toList.all isNumberChar) c h
      | false => exact List.all_eq_true.mp (by decide : "inf".toList.all isNumberChar) c h
  | notANumber => exact List.all_eq_true.mp (by decide : "NaN".toList.all isNumberChar) c h

theorem layout_ne_nil (f : NumberForm) (d : Decimal) : f.layout d ≠ [] := by
  unfold NumberForm.layout
  dsimp only
  split
  · simp
  · split
    · split
      · simp
      · split <;> simp
    · simp

theorem isSpace_of_isNumberChar {c : Char} (h : isNumberChar c) : isSpace c = false := by
  by_contra hspace
  simp only [isSpace, Bool.or_eq_true, beq_iff_eq, Bool.not_eq_false] at hspace
  rcases hspace with ((rfl | rfl) | rfl) | rfl <;> exact absurd h (by decide)

theorem exists_renderValue (v : AttrValue) :
    ∃ c rest, renderValue v = c :: rest ∧ isSpace c = false := by
  have hnumber : ∀ cs : List Char, cs ≠ [] → (∀ c ∈ cs, isNumberChar c) →
      ∃ c rest, cs = c :: rest ∧ isSpace c = false := by
    intro cs hne hcs
    obtain ⟨c, rest, rfl⟩ := List.exists_cons_of_ne_nil hne
    exact ⟨c, rest, rfl, isSpace_of_isNumberChar (hcs c (List.mem_cons_self ..))⟩
  cases v with
  | text s => exact ⟨'"', _, rfl, rfl⟩
  | integer i =>
      refine hnumber _ ?_ fun _ => isNumberChar_of_mem_intText
      rw [renderValue, Numeral.toList_intText]
      split <;> simp [Numeral.digits_ne_nil]
  | real x =>
      refine hnumber _ ?_ fun _ => isNumberChar_of_mem_render
      cases x with
      | finite negative m =>
          rw [renderValue, NumberForm.render, String.toList_ofList]
          exact List.append_ne_nil_of_right_ne_nil _ (layout_ne_nil _ _)
      | infinite negative => cases negative <;> decide
      | notANumber => decide
  | boolean b => cases b <;> exact ⟨_, _, rfl, rfl⟩

/-! ### Values in their place -/

/-- What follows a value in an attribute block that is written. -/
def AfterValue (rest : List Char) : Prop := ∃ more, rest = ',' :: more ∨ rest = ']' :: more

theorem AfterValue.stops {rest : List Char} (h : AfterValue rest) {p : Char → Bool}
    (hcomma : p ',' = false) (hbracket : p ']' = false) : Stops p rest := by
  obtain ⟨more, rfl | rfl⟩ := h
  · exact hcomma
  · exact hbracket

/-- The value is read as the other one where it is written. -/
def ReadsAs (v w : AttrValue) : Prop :=
  ∀ rest, AfterValue rest → value (renderValue v ++ rest) = .ok (w, rest)

theorem readsAs_text (s : String) : ReadsAs (.text s) (.text s) := by
  intro rest _
  rw [value, renderValue, quoted_quote]
  simp [mapValue, otherwise]

theorem continuesWord_eq_false {rest : List Char} (h : Stops isWordChar rest) :
    continuesWord rest = false := by
  cases rest with
  | nil => rfl
  | cons c r => exact h

theorem word_append (w : String) (rest : List Char) :
    word w (w.toList ++ rest) = .ok ((), rest) := by
  have hdrop : ∀ cs : List Char, dropWord? cs (cs ++ rest) = some rest := by
    intro cs
    induction cs with
    | nil => rfl
    | cons c cs ih => simpa [dropWord?] using ih
  rw [word, hdrop]

theorem truth_append (b : Bool) {rest : List Char} (hr : Stops isWordChar rest) :
    truth ((toString b).toList ++ rest) = .ok (b, rest) := by
  have hw := continuesWord_eq_false hr
  cases b with
  | true =>
      rw [truth, show toString true = "true" from rfl, word_append]
      change (if continuesWord rest then _ else _) = _
      rw [hw]
      rfl
  | false =>
      rw [truth, show toString false = "false" from rfl, word_append]
      change (if continuesWord rest then _ else _) = _
      rw [hw]
      rfl

theorem readsAs_boolean (b : Bool) : ReadsAs (.boolean b) (.boolean b) := by
  intro rest h
  rw [value, renderValue, truth_append b (h.stops rfl rfl)]
  cases b <;> rfl

theorem digits_append {ds rest : List Char} (hne : ds ≠ []) (hds : ∀ c ∈ ds, c.isDigit)
    (hr : Stops Char.isDigit rest) : digits (ds ++ rest) = .ok (ds, rest) := by
  unfold digits
  rw [takeWhile_append hds hr, dropWhile_append hds hr]
  split
  · exact absurd rfl hne
  · rfl

theorem sign_of_isDigit {c : Char} (h : c.isDigit) (s : List Char) :
    sign (c :: s) = ([], c :: s) := by
  unfold sign
  split
  · next heq => rw [(List.cons.inj heq).1] at h; exact absurd h (by decide)
  · next heq => rw [(List.cons.inj heq).1] at h; exact absurd h (by decide)
  · rfl

/-- The sign of a number that is written, a minus or nothing. -/
def minus (negative : Bool) : List Char := if negative then ['-'] else []

theorem sign_minus (negative : Bool) {ds : List Char} (hne : ds ≠ []) (hds : ∀ c ∈ ds, c.isDigit)
    (rest : List Char) : sign (minus negative ++ ds ++ rest) = (minus negative, ds ++ rest) := by
  cases negative with
  | true => rfl
  | false =>
      obtain ⟨d, ds, rfl⟩ := List.exists_cons_of_ne_nil hne
      exact sign_of_isDigit (hds d (List.mem_cons_self ..)) _

/-- A number in decimal digits starts neither a quoted text nor a truth value. -/
theorem quoted_minus (negative : Bool) {ds : List Char} (hne : ds ≠ [])
    (hds : ∀ c ∈ ds, c.isDigit) (rest : List Char) :
    quoted (minus negative ++ ds ++ rest) = refuse (minus negative ++ ds ++ rest) [] := by
  cases negative with
  | true => rfl
  | false =>
      obtain ⟨d, ds, rfl⟩ := List.exists_cons_of_ne_nil hne
      exact quoted_of_ne
        (by rintro rfl; exact absurd (hds '"' (List.mem_cons_self ..)) (by decide)) _

theorem truth_minus (negative : Bool) {ds : List Char} (hne : ds ≠ [])
    (hds : ∀ c ∈ ds, c.isDigit) (rest : List Char) :
    truth (minus negative ++ ds ++ rest) = refuse (minus negative ++ ds ++ rest) [] := by
  cases negative with
  | true => rfl
  | false =>
      obtain ⟨d, ds, rfl⟩ := List.exists_cons_of_ne_nil hne
      have hd := hds d (List.mem_cons_self ..)
      have ht : 't' ≠ d := by rintro rfl; exact absurd hd (by decide)
      have hf : 'f' ≠ d := by rintro rfl; exact absurd hd (by decide)
      have hword : ∀ w ws s, ¬w = d → dropWord? (w :: ws) (d :: s) = none :=
        fun w ws s h => if_neg h
      change truth (d :: (ds ++ rest)) = refuse (d :: (ds ++ rest)) []
      rw [truth, word, word, show "true".toList = 't' :: "rue".toList from rfl,
        show "false".toList = 'f' :: "alse".toList from rfl, hword _ _ _ ht, hword _ _ _ hf]
      rfl

theorem toList_intText (i : Int) :
    (Numeral.intText i).toList = minus (decide (i < 0)) ++ Numeral.digits i.natAbs := by
  rw [Numeral.toList_intText, minus]
  by_cases h : i < 0 <;> simp [h]

theorem readsAs_integer (i : Int64) : ReadsAs (.integer i) (.integer i) := by
  intro rest h
  have hne := Numeral.digits_ne_nil i.toInt.natAbs
  have hds : ∀ c ∈ Numeral.digits i.toInt.natAbs, c.isDigit :=
    fun _ => Numeral.isDigit_of_mem_digits
  have hdigits := digits_append hne hds (h.stops (p := Char.isDigit) rfl rfl)
  have hreal : ∃ s, real (renderValue (.integer i) ++ rest) = refuse s [] := by
    refine ⟨rest, ?_⟩
    rw [renderValue, toList_intText, real, sign_minus _ hne hds]
    simp only [hdigits]
    obtain ⟨more, rfl | rfl⟩ := h <;> rfl
  have hint : integer (renderValue (.integer i) ++ rest) = .ok (i, rest) := by
    rw [renderValue, toList_intText, integer, sign_minus _ hne hds]
    simp only [hdigits]
    change (if continuesWord rest then _ else _) = _
    rw [continuesWord_eq_false (h.stops rfl rfl), ← toList_intText, Numeral.int64?_intText]
    rfl
  obtain ⟨s, hs⟩ := hreal
  rw [value, hs, hint]
  simp only [renderValue, toList_intText]
  rw [quoted_minus _ hne hds, truth_minus _ hne hds]
  rfl

end Pipewright.Digraph.Read
