import Pipewright.Proofs.Digraph.Breaking
import Pipewright.Proofs.Digraph.Soundness

/-!
# Bare words

Where a value is a word of letters, digits, underscores and points, the kinds of
values are tried on it in order, and the first that fits the front of the word
is taken. Truth values and whole numbers look at the character after them, but a
point is not one that holds them back, and real numbers do not look at all. So
there are words of which only the front is read, and the rest of which is left
where a separator should stand: `1.2.3`, `1.5x`, `1.x` or `true.x`.

`Cut` lists these words. The reader cuts them and no others
(`value_bareWord`), and a block of attributes in which a value is cut is no block
(`attrBlock_bareWord`).
-/

namespace Pipewright.Digraph.Read

open Grammar

/-- Only the front of the word is read, as the value, and the tail is left. -/
inductive Cut : List Char → AttrValue → List Char → Prop
  | truth (b : Bool) (t : List Char) : Cut ((toString b).toList ++ '.' :: t) (.boolean b) ('.' :: t)
  | real {whole part : List Char} (hwhole : IsDigits whole) (hpart : IsDigits part) {c : Char}
      (hc : c.isDigit = false) (t : List Char) :
      Cut (whole ++ '.' :: (part ++ c :: t))
        (.real (Binary64.ofDecimal false (Numeral.value 0 (whole ++ part)) (-part.length))) (c :: t)
  | integer {whole : List Char} (hwhole : IsDigits whole) {i : Int64}
      (hfits : Numeral.int64? whole = some i) {t : List Char} (ht : Stops Char.isDigit t) :
      Cut (whole ++ '.' :: t) (.integer i) ('.' :: t)

theorem Cut.ne_nil {w tail : List Char} {v : AttrValue} (h : Cut w v tail) : tail ≠ [] := by
  cases h <;> exact List.cons_ne_nil _ _

/-! ## Characters of bare words -/

/-- A character of a bare word that belongs to no word is a point. -/
theorem eq_point {c : Char} (h : isBareValueChar c) (hword : isWordChar c = false) : c = '.' := by
  simpa [isBareValueChar, hword] using h

theorem isWordChar_eq_false {c : Char} (h : isBareValueChar c = false) : isWordChar c = false := by
  by_contra hword
  rw [isBareValueChar_of_isWordChar (Bool.eq_true_of_not_eq_false hword)] at h
  cases h

theorem isDigit_eq_false {c : Char} (h : isWordChar c = false) : c.isDigit = false := by
  by_contra hdigit
  rw [isWordChar_of_isDigit (Bool.eq_true_of_not_eq_false hdigit)] at h
  cases h

theorem forall_bare_digits {ds : List Char} (h : IsDigits ds) : ∀ c ∈ ds, isBareValueChar c :=
  fun c hc => isBareValueChar_of_isWordChar (isWordChar_of_isDigit (h.2 c hc))

theorem forall_bare_truth (b : Bool) : ∀ c ∈ (toString b).toList, isBareValueChar c := by
  cases b <;> exact List.all_eq_true.mp rfl

theorem stops_append {p : Char → Bool} {s rest : List Char} (h : Stops p s) (hrest : Stops p rest) :
    Stops p (s ++ rest) := by
  cases s with
  | nil => exact hrest
  | cons c s => exact h

/-- A part of the text that is all of bare characters lies in the word. -/
theorem exists_tail {u left w rest : List Char} (h : w ++ rest = u ++ left)
    (hu : ∀ c ∈ u, isBareValueChar c) (hrest : Stops isBareValueChar rest) :
    ∃ tail, w = u ++ tail ∧ left = tail ++ rest := by
  rcases List.append_eq_append_iff.mp h with ⟨t, rfl, rfl⟩ | ⟨t, rfl, rfl⟩
  · cases t with
    | nil => exact ⟨[], by simp, rfl⟩
    | cons c t =>
        have hc : isBareValueChar c = false := hrest
        rw [hu c (by simp)] at hc
        cases hc
  · exact ⟨t, rfl, rfl⟩

/-! ## Trials -/

section Trials

variable {α β : Type}

/-- The reading succeeds, or gives up so that another one may be tried. -/
def Trial (r : Reading (α × List Char)) : Prop := (∃ a rest, r = .ok (a, rest)) ∨ Refused r

theorem trial_ok (a : α) (rest : List Char) : Trial (.ok (a, rest)) := .inl ⟨a, rest, rfl⟩

theorem trial_refuse (rest : List Char) (es : List Expectation) :
    Trial (refuse rest es : Reading (α × List Char)) := .inr ⟨rest, es, rfl⟩

theorem Trial.bind {r : Reading (α × List Char)} {f : α × List Char → Reading (β × List Char)}
    (hr : Trial r) (hf : ∀ a rest, Trial (f (a, rest))) : Trial (r >>= f) := by
  obtain ⟨a, rest, rfl⟩ | hrefused := hr
  · exact hf a rest
  · exact .inr (hrefused.bind f)

theorem Trial.mapValue {r : Reading (α × List Char)} (hr : Trial r) (f : α → β) :
    Trial (mapValue f r) := by
  obtain ⟨a, rest, rfl⟩ | hrefused := hr
  · exact trial_ok (f a) rest
  · exact .inr (hrefused.mapValue f)

theorem Trial.otherwise {r : Reading (α × List Char)} {q : Unit → Reading (α × List Char)}
    (hr : Trial r) (hq : Trial (q ())) : Trial (otherwise r q) := by
  obtain ⟨a, rest, rfl⟩ | hrefused := hr
  · exact trial_ok a rest
  · rwa [hrefused.otherwise]

end Trials

theorem trial_char (c : Char) (s : List Char) : Trial (char c s) := by
  unfold char
  split
  · split
    · exact trial_ok _ _
    · exact trial_refuse _ _
  · exact trial_refuse _ _

theorem trial_word (w : String) (s : List Char) : Trial (word w s) := by
  unfold word
  split
  · exact trial_ok _ _
  · exact trial_refuse _ _

theorem trial_digits (s : List Char) : Trial (digits s) := by
  unfold digits
  split
  · exact trial_refuse _ _
  · exact trial_ok _ _

theorem trial_truth (s : List Char) : Trial (truth s) := by
  have hword : Trial (otherwise (mapValue (fun _ => true) (word "true" s)) fun _ =>
      mapValue (fun _ => false) (word "false" s)) :=
    ((trial_word "true" s).mapValue _).otherwise ((trial_word "false" s).mapValue _)
  refine hword.bind fun b rest => ?_
  dsimp only
  split
  · exact trial_refuse _ _
  · exact trial_ok _ _

theorem trial_real (s : List Char) : Trial (real s) := by
  refine (trial_digits (sign s).2).bind fun whole s₁ => ?_
  refine (trial_char '.' s₁).bind fun _ s₂ => ?_
  exact (trial_digits s₂).bind fun part rest => trial_ok _ _

theorem trial_integer (s : List Char) : Trial (integer s) := by
  refine (trial_digits (sign s).2).bind fun whole rest => ?_
  dsimp only
  split
  · exact trial_refuse _ _
  · split
    · exact trial_ok _ _
    · exact trial_refuse _ _

/-! ## Words that are cut -/

theorem real_point {whole : List Char} (hwhole : IsDigits whole) (t : List Char) :
    real (whole ++ '.' :: t) = (digits t >>= fun p =>
      .ok (Binary64.ofDecimal false (Numeral.value 0 (whole ++ p.1)) (-p.1.length), p.2)) := by
  have hsign : sign (whole ++ '.' :: t) = ([], whole ++ '.' :: t) :=
    sign_minus false hwhole.1 hwhole.2 ('.' :: t)
  have hpoint : Stops Char.isDigit ('.' :: t) := rfl
  rw [real, hsign]
  simp only [digits_append hwhole.1 hwhole.2 hpoint]
  rfl

theorem refused_digits_iff (t : List Char) : Refused (digits t) ↔ Stops Char.isDigit t := by
  constructor
  · intro h
    cases t with
    | nil => trivial
    | cons d t =>
        obtain ⟨rest, es, h⟩ := h
        by_contra hd
        rw [Stops, Bool.not_eq_false] at hd
        rw [digits, List.takeWhile_cons_of_pos hd] at h
        cases h
  · intro h
    refine ⟨t, [], ?_⟩
    cases t with
    | nil => rfl
    | cons d t =>
        have hd : d.isDigit = false := h
        rw [digits, List.takeWhile_cons_of_neg (by rw [hd]; exact Bool.false_ne_true)]

/-- After digits and a point there is a real number just if a digit follows. -/
theorem refused_real_iff {whole : List Char} (hwhole : IsDigits whole) (t : List Char) :
    Refused (real (whole ++ '.' :: t)) ↔ Stops Char.isDigit t := by
  rw [real_point hwhole, ← refused_digits_iff]
  obtain ⟨ds, rest, hread⟩ | hrefused := trial_digits t
  · rw [hread]
    constructor
    · rintro ⟨_, _, h⟩
      cases h
    · rintro ⟨_, _, h⟩
      cases h
  · exact iff_of_true (hrefused.bind _) hrefused

theorem integer_append {whole rest : List Char} {i : Int64} (hwhole : IsDigits whole)
    (hfits : Numeral.int64? whole = some i) (hrest : Stops isWordChar rest) :
    integer (whole ++ rest) = .ok (i, rest) := by
  have hdigits : Stops Char.isDigit rest := hrest.mono fun _ => isDigit_eq_false
  have hsign : sign (whole ++ rest) = ([], whole ++ rest) :=
    sign_minus false hwhole.1 hwhole.2 rest
  rw [integer, hsign]
  simp only [digits_append hwhole.1 hwhole.2 hdigits]
  change (if continuesWord rest then _ else _) = _
  rw [continuesWord_eq_false hrest, List.nil_append, hfits]
  rfl

/-- A number without a sign starts neither a text in quotes nor a truth value. -/
theorem refused_digits {whole : List Char} (hwhole : IsDigits whole) (rest : List Char) :
    Refused (quoted (whole ++ rest)) ∧ Refused (truth (whole ++ rest)) :=
  ⟨⟨_, _, quoted_minus false hwhole.1 hwhole.2 rest⟩,
    ⟨_, _, truth_minus false hwhole.1 hwhole.2 rest⟩⟩

theorem Cut.value {w tail rest : List Char} {v : AttrValue} (h : Cut w v tail)
    (hrest : Stops isBareValueChar rest) : value (w ++ rest) = .ok (v, tail ++ rest) := by
  have hdigits : Stops Char.isDigit rest :=
    hrest.mono fun _ hc => isDigit_eq_false (isWordChar_eq_false hc)
  cases h with
  | truth b t =>
      have hpoint : Stops isWordChar ('.' :: (t ++ rest)) := rfl
      have hread := truth_append b hpoint
      rw [List.append_assoc, List.cons_append, Read.value, hread]
      cases b <;> rfl
  | @real whole part hwhole hpart c hc t =>
      have hstop : Stops Char.isDigit (c :: (t ++ rest)) := hc
      have hboth := List.forall_mem_append.mpr ⟨hwhole.2, hpart.2⟩
      have hread := value_of_real false hwhole.1 hpart.1 hboth hstop
      rw [List.append_assoc, List.cons_append, List.append_assoc, List.cons_append]
      exact hread
  | @integer whole hwhole i hfits t ht =>
      have hpoint : Stops isWordChar ('.' :: (t ++ rest)) := rfl
      rw [List.append_assoc, List.cons_append, Read.value,
        ((refused_digits hwhole _).1.mapValue _).otherwise,
        ((refused_digits hwhole _).2.mapValue _).otherwise,
        (((refused_real_iff hwhole _).mpr (stops_append ht hdigits)).mapValue _).otherwise,
        integer_append hwhole hfits hpoint]
      rfl

/-! ## Words that are taken whole -/

/-- What the word means when the text ends after it, it means before every end of a word. -/
theorem Typed.before {w rest : List Char} {v : AttrValue} (h : Typed w v [])
    (hrest : Stops isBareValueChar rest) : Typed w v rest := by
  have hword : Stops isWordChar rest := hrest.mono fun _ => isWordChar_eq_false
  cases h with
  | truth b _ => exact .truth b hword
  | real hsign hwhole hpart _ =>
      exact .real hsign hwhole hpart (hword.mono fun _ => isDigit_eq_false)
  | integer hsign hwhole hfits _ => exact .integer hsign hwhole hfits hword

section Words

variable {w rest : List Char}

theorem sign_eq_nil {sg u : List Char} (hne : w ≠ []) (hchars : ∀ c ∈ w, isBareValueChar c)
    (hsign : IsSign sg) (h : w ++ rest = sg ++ u) : sg = [] := by
  obtain ⟨c, w, rfl⟩ := List.exists_cons_of_ne_nil hne
  have hc := hchars c (List.mem_cons_self ..)
  obtain rfl | rfl | rfl := hsign
  · rfl
  · rw [(List.cons.inj h).1] at hc
    cases hc
  · rw [(List.cons.inj h).1] at hc
    cases hc

theorem point_of_stops {c : Char} {u tail : List Char} (hchars : ∀ c ∈ w, isBareValueChar c)
    (hw : w = u ++ c :: tail) (hstop : isWordChar c = false) : c = '.' :=
  eq_point (hchars c (by rw [hw]; simp)) hstop

theorem cut_or_whole_of_truth (hchars : ∀ c ∈ w, isBareValueChar c)
    (hrest : Stops isBareValueChar rest) {b : Bool} {left : List Char}
    (h : truth (w ++ rest) = .ok (b, left)) :
    ∃ tail, left = tail ++ rest ∧
      (Cut w (.boolean b) tail ∨ (tail = [] ∧ Value w (.boolean b) [])) := by
  obtain ⟨u, htext, htyped⟩ := leads_truth (w ++ rest) b left h
  cases htyped with
  | truth b hstop =>
      obtain ⟨tail, hw, rfl⟩ := exists_tail htext (forall_bare_truth b) hrest
      refine ⟨tail, rfl, ?_⟩
      cases tail with
      | nil =>
          rw [List.append_nil] at hw
          subst hw
          refine .inr ⟨rfl, ?_⟩
          rw [← List.append_nil (toString b).toList]
          exact .typed (.truth b trivial)
      | cons c tail =>
          obtain rfl := point_of_stops hchars hw hstop
          subst hw
          exact .inl (.truth b tail)

theorem cut_or_whole_of_real (hne : w ≠ []) (hchars : ∀ c ∈ w, isBareValueChar c)
    (hrest : Stops isBareValueChar rest) {x : Binary64} {left : List Char}
    (h : real (w ++ rest) = .ok (x, left)) :
    ∃ tail, left = tail ++ rest ∧
      (Cut w (.real x) tail ∨ (tail = [] ∧ Value w (.real x) [])) := by
  obtain ⟨u, htext, htyped⟩ := leads_real (w ++ rest) x left h
  cases htyped with
  | @real sg whole part _ hsign hwhole hpart hstop =>
      simp only [List.append_assoc] at htext
      obtain rfl := sign_eq_nil hne hchars hsign htext
      have hu : ∀ c ∈ whole ++ '.' :: part, isBareValueChar c :=
        List.forall_mem_append.mpr
          ⟨forall_bare_digits hwhole, List.forall_mem_cons.mpr ⟨rfl, forall_bare_digits hpart⟩⟩
      rw [List.nil_append, ← List.append_assoc] at htext
      obtain ⟨tail, rfl, rfl⟩ := exists_tail htext hu hrest
      refine ⟨tail, rfl, ?_⟩
      cases tail with
      | nil =>
          refine .inr ⟨rfl, .typed ?_⟩
          exact .real (.inl rfl) hwhole hpart trivial
      | cons c tail =>
          have hcut := Cut.real hwhole hpart hstop tail
          rw [← List.cons_append, ← List.append_assoc] at hcut
          exact .inl hcut

/-- A whole number is read only where no real number is, so no digit follows its point. -/
theorem cut_or_whole_of_integer (hne : w ≠ []) (hchars : ∀ c ∈ w, isBareValueChar c)
    (hrest : Stops isBareValueChar rest) {i : Int64} {left : List Char}
    (hreal : Refused (real (w ++ rest))) (h : integer (w ++ rest) = .ok (i, left)) :
    ∃ tail, left = tail ++ rest ∧
      (Cut w (.integer i) tail ∨ (tail = [] ∧ Value w (.integer i) [])) := by
  obtain ⟨u, htext, htyped⟩ := leads_integer (w ++ rest) i left h
  cases htyped with
  | @integer sg whole _ _ hsign hwhole hfits hstop =>
      simp only [List.append_assoc] at htext
      obtain rfl := sign_eq_nil hne hchars hsign htext
      rw [List.nil_append] at htext
      obtain ⟨tail, rfl, rfl⟩ := exists_tail htext (forall_bare_digits hwhole) hrest
      refine ⟨tail, rfl, ?_⟩
      cases tail with
      | nil =>
          refine .inr ⟨rfl, .typed ?_⟩
          exact .integer (.inl rfl) hwhole hfits trivial
      | cons c tail =>
          obtain rfl := point_of_stops hchars rfl hstop
          rw [List.append_assoc, List.cons_append, refused_real_iff hwhole] at hreal
          refine .inl (.integer hwhole hfits ?_)
          cases tail with
          | nil => trivial
          | cons d tail => exact hreal

theorem refused_quoted_bare (hne : w ≠ []) (hchars : ∀ c ∈ w, isBareValueChar c)
    (rest : List Char) : Refused (quoted (w ++ rest)) := by
  obtain ⟨c, w, rfl⟩ := List.exists_cons_of_ne_nil hne
  have hc := hchars c (List.mem_cons_self ..)
  exact ⟨_, _, quoted_of_ne (by rintro rfl; cases hc) (w ++ rest)⟩

/-- A word that is neither a truth value nor a number is a text. -/
theorem value_of_untyped (hne : w ≠ []) (hchars : ∀ c ∈ w, isBareValueChar c)
    (hrest : Stops isBareValueChar rest) (htruth : Refused (truth (w ++ rest)))
    (hreal : Refused (real (w ++ rest))) (hinteger : Refused (integer (w ++ rest))) :
    value (w ++ rest) = .ok (.text (String.ofList w), rest) ∧
      Value w (.text (String.ofList w)) [] := by
  have hsilent : ∀ {α : Type} {r : Reading (α × List Char)}, Refused r → ∀ u, r ≠ .ok u := by
    rintro α r ⟨_, _, rfl⟩ u h
    cases h
  have huntyped : ∀ v, ¬ Typed w v [] := fun v h =>
    typed_found (Typed.before h hrest) (hsilent htruth) (hsilent hreal) (hsilent hinteger)
  have hend : Stops isBareValueChar [] := trivial
  have hvalue := Value.bare hne hchars hend huntyped
  rw [List.append_nil] at hvalue
  have hquoted := refused_quoted_bare hne hchars rest
  exact ⟨value_bare hne hchars hrest hquoted htruth hreal hinteger, hvalue⟩

/-- The kinds are tried one after the other, and the first that fits cuts the word or takes it. -/
theorem value_cut_or_whole (hne : w ≠ []) (hchars : ∀ c ∈ w, isBareValueChar c)
    (hrest : Stops isBareValueChar rest) :
    ∃ v tail, value (w ++ rest) = .ok (v, tail ++ rest) ∧
      (Cut w v tail ∨ (tail = [] ∧ Value w v [])) := by
  have hquoted := (refused_quoted_bare hne hchars rest).mapValue
    fun cs => AttrValue.text (String.ofList cs)
  obtain ⟨b, left, hread⟩ | htruth := trial_truth (w ++ rest)
  · obtain ⟨tail, rfl, h⟩ := cut_or_whole_of_truth hchars hrest hread
    exact ⟨.boolean b, tail, by rw [value, hquoted.otherwise, hread]; rfl, h⟩
  obtain ⟨x, left, hread⟩ | hreal := trial_real (w ++ rest)
  · obtain ⟨tail, rfl, h⟩ := cut_or_whole_of_real hne hchars hrest hread
    refine ⟨.real x, tail, ?_, h⟩
    rw [value, hquoted.otherwise, (htruth.mapValue _).otherwise, hread]
    rfl
  obtain ⟨i, left, hread⟩ | hinteger := trial_integer (w ++ rest)
  · obtain ⟨tail, rfl, h⟩ := cut_or_whole_of_integer hne hchars hrest hreal hread
    refine ⟨.integer i, tail, ?_, h⟩
    rw [value, hquoted.otherwise, (htruth.mapValue _).otherwise, (hreal.mapValue _).otherwise,
      hread]
    rfl
  · obtain ⟨hread, hvalue⟩ := value_of_untyped hne hchars hrest htruth hreal hinteger
    exact ⟨.text (String.ofList w), [], hread, .inr ⟨rfl, hvalue⟩⟩

/-! ## Which words are cut -/

/-- A value is read from every bare word, before the end of the text, a blank, a separator, or
whatever else is no part of such a word. It is the meaning of the whole word, of which nothing is
left, unless the word is cut; then it is what the cut says, and the tail is left as well. -/
theorem value_bareWord (hne : w ≠ []) (hchars : ∀ c ∈ w, isBareValueChar c)
    (hrest : Stops isBareValueChar rest) :
    ∃ v tail, value (w ++ rest) = .ok (v, tail ++ rest) ∧
      (Cut w v tail ∨ (tail = [] ∧ Value w v [] ∧ ∀ u t, ¬ Cut w u t)) := by
  obtain ⟨v, tail, hread, hcut | ⟨rfl, hvalue⟩⟩ := value_cut_or_whole hne hchars hrest
  · exact ⟨v, tail, hread, .inl hcut⟩
  · refine ⟨v, [], hread, .inr ⟨rfl, hvalue, fun u t hcut => hcut.ne_nil ?_⟩⟩
    have hsame : value (w ++ rest) = .ok (u, t ++ rest) := hcut.value hrest
    rw [hread] at hsame
    have htail : [] ++ rest = t ++ rest := (Prod.mk.inj (Except.ok.inj hsame)).2
    exact (List.append_cancel_right htail).symm

end Words

/-- A version with three parts, before the end of a block. -/
theorem value_bareWord_version :
    "1.2.3".toList ≠ [] ∧ (∀ c ∈ "1.2.3".toList, isBareValueChar c) ∧
      Stops isBareValueChar "]".toList ∧
      ∃ v tail, value ("1.2.3".toList ++ "]".toList) = .ok (v, tail ++ "]".toList) ∧
        (Cut "1.2.3".toList v tail ∨
          (tail = [] ∧ Value "1.2.3".toList v [] ∧ ∀ u t, ¬ Cut "1.2.3".toList u t)) := by
  have hchars : ∀ c ∈ "1.2.3".toList, isBareValueChar c := List.all_eq_true.mp rfl
  exact ⟨nofun, hchars, rfl, value_bareWord nofun hchars rfl⟩

/-! ## Blocks with a value that is cut -/

theorem forall_bare_of_isKeyTail {l : List Char} (h : isKeyTail l) :
    ∀ c ∈ l, isBareValueChar c := by
  fun_induction isKeyTail l with
  | case1 c l ih =>
      rw [Bool.and_eq_true] at h
      have hc := isBareValueChar_of_isWordChar (isWordChar_of_isWordStart h.1)
      exact List.forall_mem_cons.mpr ⟨rfl, List.forall_mem_cons.mpr ⟨hc, ih h.2⟩⟩
  | case2 c l _ ih =>
      rw [Bool.and_eq_true] at h
      exact List.forall_mem_cons.mpr ⟨isBareValueChar_of_isWordChar h.1, ih h.2⟩
  | case3 => exact fun _ hc => absurd hc List.not_mem_nil

theorem isSpace_of_isBareValueChar {c : Char} (h : isBareValueChar c) : isSpace c = false := by
  rw [isBareValueChar, Bool.or_eq_true] at h
  refine isSpace_of_isNumberChar ?_
  rcases h with h | h <;> simp [isNumberChar, h]

theorem ne_of_isBareValueChar {c d : Char} (h : isBareValueChar c)
    (hd : isBareValueChar d = false) : c ≠ d := by
  rintro rfl
  rw [h] at hd
  cases hd

theorem skipSpace_bare {l rest : List Char} (hl : ∀ c ∈ l, isBareValueChar c) :
    skipSpace (l ++ ']' :: rest) = l ++ ']' :: rest := by
  cases l with
  | nil => exact skipSpace_cons rfl rest
  | cons c l => exact skipSpace_cons (isSpace_of_isBareValueChar (hl c (List.mem_cons_self ..))) _

/-- The front of the word may be a key, but no equals sign comes before the end of the block. -/
theorem refused_attr_bare {c : Char} {l : List Char} (hl : ∀ d ∈ l, isBareValueChar d)
    (rest : List Char) : Refused (attr (c :: l ++ ']' :: rest)) := by
  cases hstart : isWordStart c with
  | false => exact refused_attr hstart _
  | true =>
      obtain ⟨htext, -⟩ := keyTail_spec (l ++ ']' :: rest)
      have hkey := forall_bare_of_isKeyTail (isKeyTail_keyTail (l ++ ']' :: rest))
      obtain ⟨tail, hword, hleft⟩ := exists_tail htext hkey rfl
      have htail : ∀ d ∈ tail, isBareValueChar d := fun d hd => hl d (by rw [hword]; simp [hd])
      rw [List.cons_append, attr, key, if_pos hstart]
      change Refused (char '=' (skipSpace (keyTail _).2) >>= _)
      rw [hleft, skipSpace_bare htail]
      refine Refused.bind (refused_char' fun more heq => ?_) _
      cases tail with
      | nil => cases (List.cons.inj heq).1
      | cons d tail =>
          exact ne_of_isBareValueChar (htail d (List.mem_cons_self ..)) rfl (List.cons.inj heq).1

theorem leftover_bare {c : Char} {l : List Char} (hl : ∀ d ∈ c :: l, isBareValueChar d)
    (rest : List Char) : Leftover (c :: l ++ ']' :: rest) := by
  obtain ⟨hc, hl⟩ := List.forall_mem_cons.mp hl
  refine ⟨⟨c, l ++ ']' :: rest, rfl, isSpace_of_isBareValueChar hc, fun hmem => ?_⟩,
    refused_attr_bare hl rest⟩
  simp only [List.mem_cons, List.not_mem_nil, or_false] at hmem
  rcases hmem with rfl | rfl | rfl <;> cases hc

theorem Cut.isSuffix {w tail : List Char} {v : AttrValue} (h : Cut w v tail) : tail <:+ w := by
  cases h with
  | truth b t => exact List.suffix_append _ _
  | @real whole part _ _ c _ t => exact ⟨whole ++ '.' :: part, by simp⟩
  | integer _ _ _ => exact List.suffix_append _ _

/-- What a block that begins with the attribute goes on with, once its value is read. -/
theorem attrBlock_of_value {k : String} (hk : isDottedName k.toList) {w : List Char}
    (hchars : ∀ c ∈ w, isBareValueChar c) {rest : List Char} {v : AttrValue} {left : List Char}
    (h : value (w ++ ']' :: rest) = .ok (v, left)) :
    ∃ most, attrBlock ('[' :: (k.toList ++ '=' :: (w ++ ']' :: rest)))
      = (attrs most ((∅ : Attrs).insert k v) (skipBetween left) >>= fun found =>
          expecting .closingBracket (char ']' found.2) >>= fun after =>
            .ok (found.1, after.2)) := by
  have hattr : attr (k.toList ++ '=' :: (w ++ ']' :: rest)) = .ok ((k, v), left) := by
    rw [attr, key_append hk]
    change (expecting .attributeValue (value (skipSpace (w ++ ']' :: rest))) >>= _) = _
    rw [skipSpace_bare hchars, h]
    rfl
  have hspace : skipSpace (k.toList ++ '=' :: (w ++ ']' :: rest))
      = k.toList ++ '=' :: (w ++ ']' :: rest) := by
    cases hkey : k.toList with
    | nil => exact skipSpace_cons rfl _
    | cons c cs =>
        rw [hkey, isDottedName_cons, Bool.and_eq_true] at hk
        exact skipSpace_cons (isSpace_of_isWordChar (isWordChar_of_isWordStart hk.1)) _
  have hlength : (k.toList ++ '=' :: (w ++ ']' :: rest)).length
      = k.toList.length + (w ++ ']' :: rest).length + 1 := by
    rw [List.length_append, List.length_cons, Nat.add_assoc]
  refine ⟨k.toList.length + (w ++ ']' :: rest).length, ?_⟩
  rw [attrBlock]
  change (attrs (k.toList ++ '=' :: (w ++ ']' :: rest)).length ∅ (skipSpace _) >>= _) = _
  rw [hspace, hlength, attrs, hattr]
  rfl

/-- A block that gives one attribute the word as its value is no block if and only if the word is
cut: then its tail stands where a separator or the closing bracket has to be. -/
theorem attrBlock_bareWord {k : String} (hk : isDottedName k.toList) {w : List Char} (hne : w ≠ [])
    (hchars : ∀ c ∈ w, isBareValueChar c) (rest : List Char) :
    Refused (attrBlock ('[' :: (k.toList ++ '=' :: (w ++ ']' :: rest)))) ↔
      ∃ v tail, Cut w v tail := by
  have hend : Stops isBareValueChar (']' :: rest) := rfl
  obtain ⟨v, tail, hread, hcase⟩ := value_bareWord hne hchars hend
  obtain ⟨most, hblock⟩ := attrBlock_of_value hk hchars hread
  rw [hblock]
  obtain hcut | ⟨rfl, -, hnone⟩ := hcase
  · refine iff_of_true ?_ ⟨v, tail, hcut⟩
    have htail : ∀ c ∈ tail, isBareValueChar c := fun c hc => hchars c (hcut.isSuffix.subset hc)
    obtain ⟨c, l, rfl⟩ := List.exists_cons_of_ne_nil hcut.ne_nil
    obtain ⟨d, more, hattrs, hd⟩ :=
      attrs_of_leftover (leftover_bare htail rest) most ((∅ : Attrs).insert k v)
    rw [hattrs]
    exact ((refused_char hd more).expecting _).bind _
  · refine iff_of_false ?_ fun ⟨u, t, hcut⟩ => hnone u t hcut
    have hattrs : attrs most ((∅ : Attrs).insert k v) (skipBetween ([] ++ ']' :: rest))
        = .ok ((∅ : Attrs).insert k v, ']' :: rest) := by
      cases most <;> rfl
    rw [hattrs]
    rintro ⟨place, es, h⟩
    cases h

end Pipewright.Digraph.Read
