import Mathlib.Data.List.Chain
import Pipewright.Proofs.Digraph.Soundness

/-!
# Tokens and what follows them

A token is read in the same way whatever text is behind it, as long as it does not go on
there: `joins c d` says that a token with the character `c` can go on with `d`. So behind a
text that ends outside of quotes (`IsClosed`), and whose last character does not join with
what follows (`Apart`), names, keys and values are read as if nothing followed, and what
follows is left (`followed`).
-/

namespace Pipewright.Digraph.Read

variable {α β : Type}

/-! ## Readings with more text behind them -/

/-- The reading, where more text stands behind what was given. -/
def followed (x : List Char) : Reading (α × List Char) → Reading (α × List Char)
  | .ok (a, rest) => .ok (a, rest ++ x)
  | .error f => .error { f with rest := f.rest ++ x }

section

variable {x : List Char} {r : Reading (α × List Char)}

theorem followed_mapValue (f : α → β) :
    mapValue f (followed x r) = followed x (mapValue f r) := by
  cases r <;> rfl

theorem followed_otherwise (q : Reading (α × List Char)) :
    otherwise (followed x r) (fun _ => followed x q) = followed x (otherwise r fun _ => q) := by
  cases r with
  | ok v => rfl
  | error f =>
      simp only [followed, otherwise]
      split <;> rfl

theorem followed_bind {f g : α × List Char → Reading (β × List Char)}
    (hf : ∀ a rest, r = .ok (a, rest) → f (a, rest ++ x) = followed x (g (a, rest))) :
    (followed x r >>= f) = followed x (r >>= g) := by
  cases r with
  | ok v => exact hf v.1 v.2 rfl
  | error f => rfl

end

/-! ## Characters that join -/

/-- A token with the first character can go on with the second one. -/
def joins (c d : Char) : Bool :=
  isBareValueChar c && isBareValueChar d || c == '-' && (d == '>' || d == '-')
    || (c == '-' || c == '+') && d.isDigit

/-- The text does not go on with the other one. -/
def Apart (p x : List Char) : Prop := ∀ c ∈ p.getLast?, ∀ d ∈ x.head?, joins c d = false

/-- If the text is of the class to its end, it does not go on with the other one. -/
def Ends (P : Char → Bool) (p x : List Char) : Prop := (∀ c ∈ p, P c) → Stops P x

section

variable {p x : List Char} {c : Char} {P : Char → Bool}

theorem isBareValueChar_of_isDigit (h : c.isDigit) : isBareValueChar c :=
  isBareValueChar_of_isWordChar (by simp [isWordChar, Char.isAlphanum, h])

theorem Apart.of_suffix {q : List Char} (h : Apart p x) (hq : q <:+ p) : Apart q x := by
  obtain ⟨w, rfl⟩ := hq
  intro c hc
  refine h c ?_
  rw [Option.mem_def] at hc ⊢
  rw [List.getLast?_append, hc, Option.some_or]

theorem apart_of_isSpace {d : Char} (hd : isSpace d) (p x : List Char) : Apart p (d :: x) := by
  rintro c - e he
  obtain rfl : e = d := (Option.some.inj he).symm
  simp only [isSpace, Bool.or_eq_true, beq_iff_eq] at hd
  rcases hd with ((rfl | rfl) | rfl) | rfl <;> simp [joins, isBareValueChar, isWordChar]

/-- A token ends with the text if all its characters join with those that it could go on with. -/
theorem Apart.ends_of_joins (h : Apart (c :: p) x)
    (hjoins : ∀ l d, l = c ∨ P l → P d → joins l d) : Ends P p x := by
  intro hp
  cases x with
  | nil => trivial
  | cons d x =>
      have hlast : p.getLast?.getD c = c ∨ P (p.getLast?.getD c) := by
        cases hl : p.getLast? with
        | none => exact .inl rfl
        | some l => exact .inr (hp l (List.mem_of_getLast? hl))
      by_contra hd
      have hd' : P d := by simpa [Stops] using hd
      have hfalse := h _ (List.getLast?_cons ..) d rfl
      rw [hjoins _ d hlast hd'] at hfalse
      cases hfalse

theorem joins_of_bare {d : Char} (hc : isBareValueChar c) (hd : isBareValueChar d) : joins c d := by
  simp [joins, hc, hd]

/-- After a character of a bare token the token ends where the text does. -/
theorem Apart.ends (h : Apart (c :: p) x) (hc : isBareValueChar c) : Ends isBareValueChar p x := by
  refine h.ends_of_joins fun l d hl hd => joins_of_bare ?_ hd
  rcases hl with rfl | hl
  · exact hc
  · exact hl

theorem Apart.ends_digit (h : Apart (c :: p) x) (hc : c = '-' ∨ c = '+') :
    Ends Char.isDigit p x := by
  refine h.ends_of_joins fun l d hl hd => ?_
  rcases hl with rfl | hl
  · rcases hc with rfl | rfl <;> simp [joins, hd]
  · exact joins_of_bare (isBareValueChar_of_isDigit hl) (isBareValueChar_of_isDigit hd)

theorem Apart.ends_bare (h : Apart p x) (hne : p ≠ []) : Ends isBareValueChar p x := by
  obtain ⟨c, p, rfl⟩ := List.exists_cons_of_ne_nil hne
  intro hp
  rw [List.forall_mem_cons] at hp
  exact h.ends hp.1 hp.2

theorem Ends.mono (h : Ends isBareValueChar p x) (hP : ∀ c, P c → isBareValueChar c) :
    Ends P p x := fun hp => (h fun c hc => hP c (hp c hc)).mono fun c hc => by
  by_contra hc'
  rw [hP c (by simpa using hc')] at hc
  cases hc

theorem Ends.tail (h : Ends P (c :: p) x) (hc : P c) : Ends P p x := fun hp =>
  h (List.forall_mem_cons.mpr ⟨hc, hp⟩)

theorem Ends.takeWhile (h : Ends P p x) : (p ++ x).takeWhile P = p.takeWhile P := by
  induction p with
  | nil =>
      have hnil : ∀ c ∈ [], P c := List.forall_mem_nil _
      simpa using takeWhile_append hnil (h hnil)
  | cons c p ih =>
      rw [List.cons_append, List.takeWhile_cons, List.takeWhile_cons]
      split
      · next hc => rw [ih (h.tail hc)]
      · rfl

theorem Ends.dropWhile (h : Ends P p x) : (p ++ x).dropWhile P = p.dropWhile P ++ x := by
  induction p with
  | nil =>
      have hnil : ∀ c ∈ [], P c := List.forall_mem_nil _
      simpa using dropWhile_append hnil (h hnil)
  | cons c p ih =>
      rw [List.cons_append, List.dropWhile_cons, List.dropWhile_cons]
      split
      · next hc => rw [ih (h.tail hc)]
      · rfl

end

/-! ## Numerals -/

section

variable {p x : List Char}

theorem followed_digits (h : Ends Char.isDigit p x) : digits (p ++ x) = followed x (digits p) := by
  rw [digits, digits, h.takeWhile]
  cases p.takeWhile Char.isDigit with
  | nil => rfl
  | cons c ds => rw [h.dropWhile]; rfl

/-- After a bare token another one ends where the text does. -/
theorem Apart.ends_append {w rest : List Char} (h : Apart (w ++ rest) x) (hne : w ≠ [])
    (hw : ∀ c ∈ w, isBareValueChar c) : Ends isBareValueChar rest x := by
  obtain ⟨most, c, rfl⟩ := (List.eq_nil_or_concat w).resolve_left hne
  refine (h.of_suffix ⟨most, ?_⟩ : Apart (c :: rest) x).ends (hw c (by simp))
  simp

theorem Apart.ends_of_digits (h : Apart p x) {ds rest : List Char}
    (hread : digits p = .ok (ds, rest)) : Ends isBareValueChar rest x := by
  obtain ⟨rfl, ⟨hne, hdigits⟩, -⟩ := leads_digits p ds rest hread
  exact h.ends_append hne fun c hc => isBareValueChar_of_isDigit (hdigits c hc)

theorem sign_append (hne : p ≠ []) (x : List Char) :
    sign (p ++ x) = ((sign p).1, (sign p).2 ++ x) := by
  obtain ⟨c, p, rfl⟩ := List.exists_cons_of_ne_nil hne
  rw [List.cons_append]
  unfold sign
  split
  · next heq => obtain ⟨rfl, rfl⟩ := List.cons.inj heq; rfl
  · next heq => obtain ⟨rfl, rfl⟩ := List.cons.inj heq; rfl
  · next hminus hplus =>
    split
    · next heq => exact absurd (List.cons.inj heq).1 fun hc => hminus (p ++ x) (by rw [hc])
    · next heq => exact absurd (List.cons.inj heq).1 fun hc => hplus (p ++ x) (by rw [hc])
    · rfl

theorem Apart.ends_sign (h : Apart p x) (hne : p ≠ []) : Ends Char.isDigit (sign p).2 x := by
  unfold sign
  split
  · exact h.ends_digit (.inl rfl)
  · exact h.ends_digit (.inr rfl)
  · exact (h.ends_bare hne).mono fun _ => isBareValueChar_of_isDigit

theorem apart_sign (h : Apart p x) : Apart (sign p).2 x :=
  h.of_suffix (sign_suffix p)

theorem fraction_append (h : Ends isBareValueChar p x) :
    fraction (p ++ x) = ((fraction p).1, (fraction p).2 ++ x) := by
  cases p with
  | nil =>
      have hx : Stops isBareValueChar x := h (List.forall_mem_nil _)
      rw [List.nil_append]
      unfold fraction
      split
      · next rest => exact absurd hx (by simp [Stops, isBareValueChar])
      · rfl
  | cons c p =>
      by_cases hc : c = '.'
      · subst hc
        have hends := (h.tail rfl).mono fun _ => isBareValueChar_of_isDigit
        rw [List.cons_append, fraction, fraction, followed_digits hends]
        cases digits p <;> rfl
      · have hother : ∀ rest, fraction (c :: rest) = ([], c :: rest) := by
          intro rest
          unfold fraction
          split
          · next heq => exact absurd (List.cons.inj heq).1 hc
          · rfl
        rw [List.cons_append, hother, hother]
        rfl

theorem followed_numeral (hne : p ≠ []) (h : Apart p x) :
    numeral (p ++ x) = followed x (numeral p) := by
  rw [numeral, numeral, sign_append hne]
  dsimp only
  rw [followed_digits (h.ends_sign hne)]
  refine followed_bind fun ds rest hread => ?_
  rw [fraction_append ((apart_sign h).ends_of_digits hread)]
  rfl

/-! ## Names -/

theorem followed_bareName (hne : p ≠ []) (h : Apart p x) :
    bareName (p ++ x) = followed x (bareName p) := by
  obtain ⟨c, p, rfl⟩ := List.exists_cons_of_ne_nil hne
  rw [List.cons_append, bareName, bareName]
  split
  · next hc =>
    have hbare := isBareValueChar_of_isWordChar (isWordChar_of_isWordStart hc)
    have hends := (h.ends hbare).mono fun _ => isBareValueChar_of_isWordChar
    rw [hends.takeWhile, hends.dropWhile]
    rfl
  · rfl

/-- The text ends outside of quotes, if it begins outside or inside of them. -/
def endsOutside : Bool → List Char → Bool
  | inside, [] => !inside
  | false, '"' :: rest => endsOutside true rest
  | false, _ :: rest => endsOutside false rest
  | true, '\\' :: _ :: rest => endsOutside true rest
  | true, '"' :: rest => endsOutside false rest
  | true, _ :: rest => endsOutside true rest

/-- Every quote in the text is closed in it. -/
def IsClosed (p : List Char) : Prop := endsOutside false p

theorem endsOutside_cons {c : Char} (hquote : c ≠ '"') (rest : List Char) :
    endsOutside false (c :: rest) = endsOutside false rest := by
  rw [endsOutside]
  exact hquote

theorem endsOutside_quoted {c : Char} (hquote : c ≠ '"') (hbackslash : c ≠ '\\')
    (rest : List Char) : endsOutside true (c :: rest) = endsOutside true rest := by
  rw [endsOutside]
  · exact fun _ _ hc _ => hbackslash hc
  · exact hquote

theorem followed_quotedBody (h : endsOutside true p) :
    quotedBody (p ++ x) = followed x (quotedBody p) := by
  fun_induction quotedBody p with
  | case1 => cases h
  | case2 rest => rfl
  | case3 => cases h
  | case4 c rest ih =>
      rw [List.cons_append, List.cons_append, quotedBody, ih h, followed_mapValue]
  | case5 c rest hquote hlone hpair ih =>
      have hbackslash : c ≠ '\\' := by
        intro hc
        cases rest with
        | nil => exact hlone hc rfl
        | cons d rest => exact hpair d rest hc rfl
      rw [endsOutside_quoted hquote hbackslash] at h
      rw [List.cons_append, quotedBody, ih h, followed_mapValue]
      · exact hquote
      · exact fun hc _ => hbackslash hc
      · exact fun _ _ hc _ => hbackslash hc

theorem followed_quoted (hne : p ≠ []) (h : IsClosed p) :
    quoted (p ++ x) = followed x (quoted p) := by
  obtain ⟨c, p, rfl⟩ := List.exists_cons_of_ne_nil hne
  by_cases hc : c = '"'
  · subst hc
    exact followed_quotedBody h
  · have hrefused : ∀ rest, quoted (c :: rest) = refuse (c :: rest) [] := by
      intro rest
      unfold quoted
      split
      · next heq => exact absurd (List.cons.inj heq).1 hc
      · rfl
    rw [List.cons_append, hrefused, hrefused]
    rfl

theorem followed_name (hne : p ≠ []) (hclosed : IsClosed p) (h : Apart p x) :
    name (p ++ x) = followed x (name p) := by
  rw [name, name, followed_quoted hne hclosed, followed_bareName hne h, followed_numeral hne h,
    followed_otherwise, followed_otherwise, followed_mapValue]

/-! ## Keys -/

theorem keyTail_cons {c : Char} (hdot : c ≠ '.') (s : List Char) :
    keyTail (c :: s) = if isWordChar c then (c :: (keyTail s).1, (keyTail s).2)
      else ([], c :: s) := by
  rw [keyTail]
  exact fun _ _ hc _ => hdot hc

theorem keyTail_of_stops {s : List Char} (h : Stops isBareValueChar s) : keyTail s = ([], s) := by
  cases s with
  | nil => rfl
  | cons c s =>
      simp only [Stops, isBareValueChar, Bool.or_eq_false_iff, beq_eq_false_iff_ne] at h
      rw [keyTail_cons h.2, if_neg (by rw [h.1]; decide)]

theorem keyTail_append_of_ends (h : Ends isBareValueChar p x) :
    keyTail (p ++ x) = ((keyTail p).1, (keyTail p).2 ++ x) := by
  fun_induction keyTail p with
  | case1 c rest hc more left heq ih =>
      have hbare := isBareValueChar_of_isWordChar (isWordChar_of_isWordStart hc)
      have hrest := ih ((h.tail rfl).tail hbare)
      rw [heq] at hrest
      rw [List.cons_append, List.cons_append, keyTail, if_pos hc, hrest]
  | case2 c rest hc =>
      rw [List.cons_append, List.cons_append, keyTail, if_neg hc]
  | case3 c rest hdot hc more left heq ih =>
      have hpoint : c ≠ '.' := by
        rintro rfl
        exact absurd hc (by decide)
      have hrest := ih (h.tail (isBareValueChar_of_isWordChar hc))
      rw [heq] at hrest
      rw [List.cons_append, keyTail_cons hpoint, if_pos hc, hrest]
  | case4 c rest hdot hc =>
      by_cases hpoint : c = '.'
      · subst hpoint
        have hnil : rest = [] := by
          cases rest with
          | nil => rfl
          | cons d rest => exact (hdot d rest rfl rfl).elim
        subst hnil
        have hstop : Stops isBareValueChar x := h (List.all_eq_true.mp rfl)
        cases x with
        | nil => rfl
        | cons d x =>
            have hd : ¬isWordStart d := fun hstart => by
              rw [Stops, isBareValueChar_of_isWordChar (isWordChar_of_isWordStart hstart)] at hstop
              cases hstop
            change keyTail ('.' :: d :: x) = _
            rw [keyTail, if_neg hd]
            rfl
      · rw [List.cons_append, keyTail_cons hpoint, if_neg hc]
  | case5 => exact keyTail_of_stops (h (List.forall_mem_nil _))

theorem followed_key (hne : p ≠ []) (h : Apart p x) : key (p ++ x) = followed x (key p) := by
  obtain ⟨c, p, rfl⟩ := List.exists_cons_of_ne_nil hne
  rw [List.cons_append, key, key]
  split
  · next hc =>
    have hbare := isBareValueChar_of_isWordChar (isWordChar_of_isWordStart hc)
    rw [keyTail_append_of_ends (h.ends hbare)]
    rfl
  · rfl

/-! ## Values -/

theorem dropWord?_append {w : List Char} (hw : w.IsChain fun c d => joins c d) (hne : p ≠ [])
    (h : Apart p x) : dropWord? w (p ++ x) = (dropWord? w p).map (· ++ x) := by
  fun_induction dropWord? w p with
  | case1 => rfl
  | case2 => exact absurd rfl hne
  | case3 w a s ih =>
      rw [List.cons_append, dropWord?, if_pos rfl]
      cases s with
      | cons c s => exact ih hw.tail (List.cons_ne_nil c s) (h.of_suffix (List.suffix_cons a _))
      | nil =>
          cases w with
          | nil => rfl
          | cons b w =>
              cases x with
              | nil => rfl
              | cons d x =>
                  have hjoins : joins a b := (List.isChain_cons_cons.mp hw).1
                  have hne : b ≠ d := by
                    rintro rfl
                    have hapart := h a rfl b rfl
                    rw [hjoins] at hapart
                    cases hapart
                  simp [dropWord?, hne]
  | case4 a w c s hc =>
      rw [List.cons_append, dropWord?, if_neg hc]
      rfl

theorem followed_word {w : String} (hw : w.toList.IsChain fun c d => joins c d) (hne : p ≠ [])
    (h : Apart p x) : word w (p ++ x) = followed x (word w p) := by
  rw [word, word, dropWord?_append hw hne h]
  cases dropWord? w.toList p <;> rfl

theorem followed_char (c : Char) (hne : p ≠ []) : char c (p ++ x) = followed x (char c p) := by
  obtain ⟨d, p, rfl⟩ := List.exists_cons_of_ne_nil hne
  rw [List.cons_append, char, char]
  split <;> rfl

theorem followed_point (h : Ends isBareValueChar p x) :
    char '.' (p ++ x) = followed x (char '.' p) := by
  cases p with
  | cons d p => exact followed_char '.' (List.cons_ne_nil d p)
  | nil =>
      cases x with
      | nil => rfl
      | cons d x =>
          have hd : isBareValueChar d = false := h (List.forall_mem_nil _)
          have hne : d ≠ '.' := by
            rintro rfl
            cases hd
          rw [List.nil_append, char, if_neg hne]
          rfl

theorem continuesWord_append (h : Ends isBareValueChar p x) :
    continuesWord (p ++ x) = continuesWord p := by
  cases p with
  | cons c p => rfl
  | nil =>
      cases x with
      | nil => rfl
      | cons d x =>
          have hd : isBareValueChar d = false := h (List.forall_mem_nil _)
          rw [isBareValueChar, Bool.or_eq_false_iff] at hd
          exact hd.1

theorem followed_truth (hne : p ≠ []) (h : Apart p x) : truth (p ++ x) = followed x (truth p) := by
  have hword : Leads (fun _ rest => Ends isBareValueChar rest x)
      (otherwise (mapValue (fun _ => true) (word "true" p)) fun _ =>
        mapValue (fun _ => false) (word "false" p)) := by
    refine Leads.otherwise ?_ fun _ => ?_
    · refine (leads_word "true" p).mapValue fun _ rest hp => ?_
      exact (hp ▸ h).ends_append (by decide) (List.all_eq_true.mp (by decide))
    · refine (leads_word "false" p).mapValue fun _ rest hp => ?_
      exact (hp ▸ h).ends_append (by decide) (List.all_eq_true.mp (by decide))
  rw [truth, truth, followed_word (by decide) hne h, followed_word (by decide) hne h,
    followed_mapValue, followed_mapValue, followed_otherwise]
  refine followed_bind fun b rest hread => ?_
  dsimp only
  rw [continuesWord_append (hword b rest hread)]
  split <;> rfl

theorem followed_real (hne : p ≠ []) (h : Apart p x) : real (p ++ x) = followed x (real p) := by
  rw [real, real, sign_append hne]
  dsimp only
  rw [followed_digits (h.ends_sign hne)]
  refine followed_bind fun ds rest hread => ?_
  have hends := (apart_sign h).ends_of_digits hread
  dsimp only
  rw [followed_point hends]
  refine followed_bind fun _ rest' hpoint => ?_
  obtain rfl := leads_char '.' rest _ _ hpoint
  dsimp only
  rw [followed_digits ((hends.tail rfl).mono fun _ => isBareValueChar_of_isDigit)]
  exact followed_bind fun _ _ _ => rfl

theorem followed_integer (hne : p ≠ []) (h : Apart p x) :
    integer (p ++ x) = followed x (integer p) := by
  rw [integer, integer, sign_append hne]
  dsimp only
  rw [followed_digits (h.ends_sign hne)]
  refine followed_bind fun ds rest hread => ?_
  dsimp only
  rw [continuesWord_append ((apart_sign h).ends_of_digits hread)]
  split
  · rfl
  · cases Numeral.int64? ((sign p).1 ++ ds) <;> rfl

theorem followed_bareValue (hne : p ≠ []) (h : Apart p x) :
    bareValue (p ++ x) = followed x (bareValue p) := by
  have hends := h.ends_bare hne
  rw [bareValue, bareValue, hends.takeWhile, hends.dropWhile]
  cases p.takeWhile isBareValueChar <;> rfl

theorem followed_value (hne : p ≠ []) (hclosed : IsClosed p) (h : Apart p x) :
    value (p ++ x) = followed x (value p) := by
  rw [value, value, followed_quoted hne hclosed, followed_truth hne h, followed_real hne h,
    followed_integer hne h, followed_bareValue hne h]
  simp only [followed_mapValue, followed_otherwise]

end

end Pipewright.Digraph.Read
