import Pipewright.Proofs.Decimal.Rereading
import Pipewright.Proofs.Digraph.Statements

/-!
# Real numbers in a written graph

A number that is written with its point in place is read as itself. Other real
numbers are written with an exponent, or as a word, and the grammar has neither.
Some of these are taken for a text as a whole (`ReadsAs`); of the others no value
is read, or the exponent is left behind and read as the next key (`Breaks`).
-/

namespace Pipewright.Digraph

namespace Read

open Decimal (ofPointed Pointed)

/-! ## Numbers with a point -/

theorem minus_eq_iff (negative : Bool) : (minus negative == ['-']) = negative := by
  cases negative <;> rfl

/-- A number with a point is read, up to the first character that is no digit. -/
theorem real_append (negative : Bool) {whole part rest : List Char} (hwhole : whole ≠ [])
    (hpart : part ≠ []) (hdigits : ∀ c ∈ whole ++ part, c.isDigit)
    (hrest : Stops Char.isDigit rest) :
    real (minus negative ++ whole ++ '.' :: (part ++ rest))
      = .ok (Binary64.ofDecimal negative (ofPointed whole part).digits
          (ofPointed whole part).exponent, rest) := by
  obtain ⟨hwhole', hpart'⟩ := List.forall_mem_append.mp hdigits
  have hfirst : digits (whole ++ '.' :: (part ++ rest)) = .ok (whole, '.' :: (part ++ rest)) :=
    digits_append hwhole hwhole' rfl
  have hsecond := digits_append hpart hpart' hrest
  rw [real, sign_minus _ hwhole hwhole']
  simp only [hfirst, bind, Except.bind, char, if_true, hsecond, minus_eq_iff]
  rfl

theorem value_of_real (negative : Bool) {whole part rest : List Char} (hwhole : whole ≠ [])
    (hpart : part ≠ []) (hdigits : ∀ c ∈ whole ++ part, c.isDigit)
    (hrest : Stops Char.isDigit rest) :
    value (minus negative ++ whole ++ '.' :: (part ++ rest))
      = .ok (.real (Binary64.ofDecimal negative (ofPointed whole part).digits
          (ofPointed whole part).exponent), rest) := by
  have hwhole' := (List.forall_mem_append.mp hdigits).1
  rw [value, real_append negative hwhole hpart hdigits hrest, quoted_minus _ hwhole hwhole',
    truth_minus _ hwhole hwhole']
  rfl

/-- The number is written in digits, with its point in place. -/
def isPointed : Binary64 → Bool
  | .finite _ m =>
    let d := Decimal.shortest .up m
    d.digits == 0 || (decide (-4 ≤ d.lead) && decide (d.lead < 16))
  | _ => false

theorem renderValue_finite (negative : Bool) (m : Magnitude) :
    renderValue (.real (.finite negative m))
      = minus negative ++ NumberForm.graph.layout (Decimal.shortest .up m) := by
  rw [renderValue, NumberForm.render, String.toList_ofList]
  rfl

theorem readsAs_pointed {negative : Bool} {m : Magnitude} (hm : m.IsCanonical)
    (h : isPointed (.finite negative m)) :
    ReadsAs (.real (.finite negative m)) (.real (.finite negative m)) := by
  intro rest hrest
  have hback := Decimal.readsBack_shortest .up hm
  have hstops : Stops Char.isDigit rest := hrest.stops rfl rfl
  simp only [isPointed, Bool.or_eq_true, beq_iff_eq, Bool.and_eq_true, decide_eq_true_eq] at h
  rw [renderValue_finite]
  generalize Decimal.shortest .up m = d at h hback
  obtain ⟨whole, part, htext, hpointed, -⟩ :=
    Decimal.layout_positional (f := NumberForm.graph) (by decide) h
  have hread := value_of_real negative hpointed.whole_ne hpointed.part_ne hpointed.digits hstops
  have hnumber := Decimal.ofDecimal_of_readsBack negative
    ((Decimal.readsBack_congr hpointed.value).mpr hback) (fun _ => hpointed.low)
    (by simp only [ofPointed]; omega)
  rw [hnumber] at hread
  rw [htext, ← hread]
  simp only [List.append_assoc, List.cons_append]

/-! ## Numbers with an exponent, and words -/

theorem Refused.expecting {α : Type} {r : Reading (α × List Char)} (h : Refused r)
    (e : Expectation) : Refused (expecting e r) := by
  obtain ⟨rest, es, rfl⟩ := h
  exact ⟨rest, es ++ [e], rfl⟩

/-- What is left of a value: neither a separator nor the end of the block, and no attribute. -/
structure Leftover (left : List Char) : Prop where
  stands : ∃ c more, left = c :: more ∧ isSpace c = false ∧ c ∉ [',', ';', ']']
  refused : Refused (attr left)

/-- Where the value is written there is no value to read, or a part of it is left over. -/
def Breaks (v : AttrValue) : Prop :=
  ∀ rest, AfterValue rest → Refused (value (renderValue v ++ rest))
    ∨ ∃ w left, value (renderValue v ++ rest) = .ok (w, left) ∧ Leftover left

theorem refused_attr {c : Char} (h : isWordStart c = false) (rest : List Char) :
    Refused (attr (c :: rest)) := by
  refine Refused.bind ⟨c :: rest, [], ?_⟩ _
  rw [key, if_neg (by rw [h]; decide)]

theorem keyTail_word {cs rest : List Char} (hcs : ∀ c ∈ cs, isWordChar c) {d : Char}
    (hd : isWordChar d = false) (hdot : d ≠ '.') :
    keyTail (cs ++ d :: rest) = (cs, d :: rest) := by
  induction cs with
  | nil =>
      rw [List.nil_append, keyTail]
      · simp [hd]
      · exact fun _ _ h _ => hdot h
  | cons c cs ih =>
      obtain ⟨hc, hcs⟩ := List.forall_mem_cons.mp hcs
      have hne : c ≠ '.' := by rintro rfl; exact absurd hc (by decide)
      rw [List.cons_append, keyTail]
      · simp [hc, ih hcs]
      · exact fun _ _ h _ => hne h

theorem refused_attr_word {c : Char} {l rest : List Char} (hc : isWordStart c)
    (hl : ∀ c ∈ l, isWordChar c) {d : Char} (hd : isWordChar d = false) (hspace : isSpace d = false)
    (hne : d ≠ '.' ∧ d ≠ '=') : Refused (attr (c :: l ++ d :: rest)) := by
  rw [attr, List.cons_append, key, if_pos hc, keyTail_word hl hd hne.1]
  change Refused (char '=' (skipSpace (d :: rest)) >>= _)
  rw [skipSpace_cons hspace]
  exact (refused_char hne.2 rest).bind _

theorem leftover_minus (rest : List Char) : Leftover ('-' :: rest) :=
  ⟨⟨_, _, rfl, by decide, by decide⟩, refused_attr (by decide) rest⟩

theorem leftover_exponent (lead : Int) {rest : List Char} (h : AfterValue rest) :
    Leftover ('e' :: ((Numeral.intText lead).toList ++ rest)) := by
  refine ⟨⟨_, _, rfl, by decide, by decide⟩, ?_⟩
  have hdigits : ∀ c ∈ Numeral.digits lead.natAbs, isWordChar c :=
    fun _ hc => isWordChar_of_isDigit (Numeral.isDigit_of_mem_digits hc)
  rw [Numeral.toList_intText]
  split
  · exact refused_attr_word (c := 'e') (l := []) (d := '-') (by decide) (by simp) (by decide)
      (by decide) (by decide)
  · obtain ⟨more, rfl | rfl⟩ := h
    · exact refused_attr_word (c := 'e') (by decide) hdigits (by decide) (by decide) (by decide)
    · exact refused_attr_word (c := 'e') (by decide) hdigits (by decide) (by decide) (by decide)

/-- A bare value is read as text if it is none of the other kinds. -/
theorem value_bare {cs rest : List Char} (hne : cs ≠ []) (hcs : ∀ c ∈ cs, isBareValueChar c)
    (hrest : Stops isBareValueChar rest) (hquoted : Refused (quoted (cs ++ rest)))
    (htruth : Refused (truth (cs ++ rest))) (hreal : Refused (real (cs ++ rest)))
    (hinteger : Refused (integer (cs ++ rest))) :
    value (cs ++ rest) = .ok (.text (String.ofList cs), rest) := by
  have hbare : bareValue (cs ++ rest) = .ok (cs, rest) := by
    unfold bareValue
    rw [takeWhile_append hcs hrest, dropWhile_append hcs hrest]
    split
    · exact absurd rfl hne
    · rfl
  rw [value, (hquoted.mapValue _).otherwise, (htruth.mapValue _).otherwise,
    (hreal.mapValue _).otherwise, (hinteger.mapValue _).otherwise, hbare]
  rfl

theorem refused_exponent (negative : Bool) {ds : List Char} (hne : ds ≠ [])
    (hds : ∀ c ∈ ds, c.isDigit) (s : List Char) :
    Refused (real (minus negative ++ ds ++ 'e' :: s))
      ∧ Refused (integer (minus negative ++ ds ++ 'e' :: s)) := by
  have hdigits : digits (ds ++ 'e' :: s) = .ok (ds, 'e' :: s) := digits_append hne hds rfl
  constructor
  · rw [real, sign_minus _ hne hds]
    simp only [hdigits]
    exact ⟨'e' :: s, [], rfl⟩
  · rw [integer, sign_minus _ hne hds]
    simp only [hdigits]
    exact ⟨'e' :: s, [], rfl⟩

theorem refused_bare (rest : List Char) :
    Refused (Digraph.mapValue (fun cs => AttrValue.text (String.ofList cs))
      (bareValue ('-' :: rest))) := ⟨'-' :: rest, [], rfl⟩

/-- One digit and an exponent: a text, unless a minus sign stands in the way. -/
theorem readsAs_or_breaks_exponent {v : AttrValue} {negative : Bool} {ds : List Char}
    (hne : ds ≠ []) (hds : ∀ c ∈ ds, c.isDigit) {lead : Int}
    (htext : renderValue v = minus negative ++ ds ++ 'e' :: (Numeral.intText lead).toList) :
    ReadsAs v (.text (String.ofList (renderValue v))) ∨ Breaks v := by
  have hquoted : ∀ s, Refused (quoted (minus negative ++ ds ++ 'e' :: s)) :=
    fun s => ⟨_, _, quoted_minus negative hne hds _⟩
  have htruth : ∀ s, Refused (truth (minus negative ++ ds ++ 'e' :: s)) :=
    fun s => ⟨_, _, truth_minus negative hne hds _⟩
  have hexponent := refused_exponent negative hne hds
  have hbare : ∀ c ∈ ds, isBareValueChar c := fun c hc => by
    simp [isBareValueChar, isWordChar_of_isDigit (hds c hc)]
  cases negative with
  | true =>
      refine .inr fun rest _ => .inl ?_
      rw [htext, List.append_assoc, List.cons_append, value,
        ((hquoted _).mapValue _).otherwise, ((htruth _).mapValue _).otherwise,
        ((hexponent _).1.mapValue _).otherwise, ((hexponent _).2.mapValue _).otherwise]
      exact refused_bare _
  | false =>
      rw [show minus false ++ ds = ds from rfl] at hquoted htruth hexponent htext
      have hword : ∀ cs rest, (∀ c ∈ cs, isBareValueChar c) → Stops isBareValueChar rest →
          value (ds ++ 'e' :: (cs ++ rest))
            = .ok (.text (String.ofList (ds ++ 'e' :: cs)), rest) := by
        intro cs rest hcs hrest
        have hall : ∀ c ∈ ds ++ 'e' :: cs, isBareValueChar c :=
          List.forall_mem_append.mpr ⟨hbare, List.forall_mem_cons.mpr ⟨by decide, hcs⟩⟩
        have hread := value_bare (by simp) hall hrest
        simp only [List.append_assoc, List.cons_append] at hread
        exact hread (hquoted _) (htruth _) (hexponent _).1 (hexponent _).2
      have hdigits : ∀ c ∈ Numeral.digits lead.natAbs, isBareValueChar c := fun c hc => by
        simp [isBareValueChar, isWordChar_of_isDigit (Numeral.isDigit_of_mem_digits hc)]
      rw [Numeral.toList_intText] at htext
      split at htext
      · refine .inr fun rest hrest => .inr ⟨.text (String.ofList (ds ++ ['e'])),
          '-' :: (Numeral.digits lead.natAbs ++ rest), ?_, leftover_minus _⟩
        rw [htext, List.append_assoc, List.cons_append, List.cons_append]
        exact hword [] _ (by simp) rfl
      · refine .inl fun rest hrest => ?_
        rw [htext, List.append_assoc, List.cons_append]
        exact hword _ _ hdigits (hrest.stops rfl rfl)

/-- What a number without its point in place is written as. -/
theorem layout_exponent {f : NumberForm} (hf : f.plusSign = false) {d : Decimal}
    (h : d.digits ≠ 0) (hlead : ¬(f.plainFrom ≤ d.lead ∧ d.lead < 16)) :
    f.layout d = (if (Numeral.digits d.digits).length ≤ 1 then Numeral.digits d.digits
      else (Numeral.digits d.digits).take 1 ++ '.' :: (Numeral.digits d.digits).drop 1)
      ++ 'e' :: (Numeral.intText d.lead).toList := by
  rw [Decimal.layout_scientific h hlead, hf]
  simp

theorem readsAs_or_breaks_finite {negative : Bool} {m : Magnitude}
    (h : isPointed (.finite negative m) = false) :
    ReadsAs (.real (.finite negative m))
        (.text (String.ofList (renderValue (.real (.finite negative m)))))
      ∨ Breaks (.real (.finite negative m)) := by
  have hrender := renderValue_finite negative m
  simp only [isPointed, Bool.or_eq_false_iff, beq_eq_false_iff_ne, Bool.and_eq_false_iff,
    decide_eq_false_iff_not] at h
  generalize Decimal.shortest .up m = d at h hrender
  have hdigits : ∀ c ∈ Numeral.digits d.digits, c.isDigit := fun _ => Numeral.isDigit_of_mem_digits
  rw [layout_exponent rfl h.1 (by rintro ⟨hlow, hhigh⟩; exact h.2.elim (· hlow) (· hhigh)),
    ← List.append_assoc] at hrender
  split at hrender
  · exact readsAs_or_breaks_exponent (Numeral.digits_ne_nil _) hdigits hrender
  · next hlength =>
    refine .inr fun rest hrest => .inr ?_
    have hread : value (minus negative ++ (Numeral.digits d.digits).take 1
        ++ '.' :: ((Numeral.digits d.digits).drop 1
          ++ 'e' :: ((Numeral.intText d.lead).toList ++ rest))) = _ :=
      value_of_real negative (by simp [Numeral.digits_ne_nil])
        (by rw [Ne, List.drop_eq_nil_iff]; exact hlength)
        (by rw [List.take_append_drop]; exact hdigits) rfl
    refine ⟨_, _, (congrArg value ?_).trans hread, leftover_exponent d.lead hrest⟩
    rw [hrender]
    simp only [List.append_assoc, List.cons_append]

/-! ## What becomes of a value -/

/-- What a value is read as, if it can be read where it is written. -/
def reread : AttrValue → AttrValue
  | .real x => if isPointed x then .real x else .text (String.ofList (renderValue (.real x)))
  | v => v

theorem reread_eq_iff {v : AttrValue} : reread v = v ↔ ∀ x, v = .real x → isPointed x := by
  cases v with
  | real x => by_cases h : isPointed x <;> simp [reread, h]
  | _ => simp [reread]

theorem readsAs_or_breaks_infinite (negative : Bool) :
    ReadsAs (.real (.infinite negative))
        (.text (String.ofList (renderValue (.real (.infinite negative)))))
      ∨ Breaks (.real (.infinite negative)) := by
  cases negative with
  | true =>
      refine .inr fun rest _ => .inl ?_
      exact ⟨"-inf".toList ++ rest, [], rfl⟩
  | false =>
      refine .inl fun rest hrest => ?_
      obtain ⟨more, rfl | rfl⟩ := hrest <;> rfl

/-- A number that may come from a text: canonical or infinite. -/
def isFromText : AttrValue → Prop
  | .real (.finite _ m) => m.IsCanonical
  | .real .notANumber => False
  | _ => True

/-- A value that was read is read again as a value that is told by `reread`, or not at all. -/
theorem readsAs_or_breaks {v : AttrValue} (h : isFromText v) :
    ReadsAs v (reread v) ∨ Breaks v := by
  cases v with
  | text s => exact .inl (readsAs_text s)
  | integer i => exact .inl (readsAs_integer i)
  | boolean b => exact .inl (readsAs_boolean b)
  | real x =>
      cases x with
      | finite negative m =>
          cases hpointed : isPointed (.finite negative m) with
          | true =>
              rw [reread, if_pos hpointed]
              exact .inl (readsAs_pointed h hpointed)
          | false =>
              rw [reread, if_neg (by rw [hpointed]; decide)]
              exact readsAs_or_breaks_finite hpointed
      | infinite negative =>
          rw [reread, if_neg (show ¬isPointed (.infinite negative) = true from Bool.false_ne_true)]
          exact readsAs_or_breaks_infinite negative
      | notANumber => exact h.elim

end Read

end Pipewright.Digraph
