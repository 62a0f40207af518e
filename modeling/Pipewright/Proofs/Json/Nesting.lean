import Mathlib.Data.List.TakeWhile
import Pipewright.Proofs.Json.Rereading

/-!
# Where a text is cut

Whoever minds only quotes, brackets and what stands behind them knows of each place in
a text how many lists and objects are open there, and whether it is between quotes
(`Outline`). A value leaves as many open as it found (`IsWhole`), and every value that is
read is whole in this sense.

So the line of an object is not read where it is cut, since something is open at the cut.
Neither is it if a further line follows the cut immediately: what was open stays open, or
the quotes of the further line close the text that was cut, and go on with a letter.
-/

namespace Pipewright.Json.Document

/-! ## Outlines -/

/-- What stands in front of a place. -/
inductive Stand where
  /-- A bracket that opens, a separator, or a part of a number or a word. -/
  | free
  /-- The end of a text, a list or an object. -/
  | ended
  /-- A part of a text. -/
  | quoted
  /-- A backslash in a text. -/
  | escaped
  deriving DecidableEq

/-- A place in a text: what is in front of it, and how many lists and objects are open. -/
structure Outline where
  stand : Stand
  depth : Nat

namespace Outline

/-- A list or an object is closed, if one is open. -/
def close? : Nat → Option Outline
  | 0 => none
  | depth + 1 => some ⟨.ended, depth⟩

def step (o : Outline) (c : Char) : Option Outline :=
  match o.stand with
  | .free =>
    if c = '"' then some { o with stand := .quoted }
    else if c = '[' ∨ c = '\x7b' then some { o with depth := o.depth + 1 }
    else if c = ']' ∨ c = '\x7d' then close? o.depth
    else some o
  | .ended =>
    if isSpace c then some o
    else if (c = ',' ∨ c = ':') ∧ o.depth ≠ 0 then some { o with stand := .free }
    else if c = ']' ∨ c = '\x7d' then close? o.depth
    else none
  | .quoted =>
    if c = '"' then some { o with stand := .ended }
    else if c = '\\' then some { o with stand := .escaped }
    else some o
  | .escaped => if c = 'u' ∨ (shortEscape? c).isSome then some { o with stand := .quoted } else none

theorem step_free (depth : Nat) (c : Char) : step ⟨.free, depth⟩ c =
    if c = '"' then some ⟨.quoted, depth⟩
    else if c = '[' ∨ c = '\x7b' then some ⟨.free, depth + 1⟩
    else if c = ']' ∨ c = '\x7d' then close? depth
    else some ⟨.free, depth⟩ := rfl

theorem step_ended (depth : Nat) (c : Char) : step ⟨.ended, depth⟩ c =
    if isSpace c then some ⟨.ended, depth⟩
    else if (c = ',' ∨ c = ':') ∧ depth ≠ 0 then some ⟨.free, depth⟩
    else if c = ']' ∨ c = '\x7d' then close? depth
    else none := rfl

theorem step_quoted (depth : Nat) (c : Char) : step ⟨.quoted, depth⟩ c =
    if c = '"' then some ⟨.ended, depth⟩
    else if c = '\\' then some ⟨.escaped, depth⟩
    else some ⟨.quoted, depth⟩ := rfl

theorem step_escaped (depth : Nat) (c : Char) : step ⟨.escaped, depth⟩ c =
    if c = 'u' ∨ (shortEscape? c).isSome then some ⟨.quoted, depth⟩ else none := rfl

def run (o : Outline) (s : List Char) : Option Outline := s.foldlM step o

theorem run_cons (o : Outline) (c : Char) (s : List Char) :
    o.run (c :: s) = (o.step c).bind (·.run s) := rfl

theorem run_append (o : Outline) (s t : List Char) : o.run (s ++ t) = (o.run s).bind (·.run t) :=
  List.foldlM_append

/-- Outside a text, and with so many lists and objects open. -/
def IsAt (depth : Nat) (o : Option Outline) : Prop :=
  o = some ⟨.free, depth⟩ ∨ o = some ⟨.ended, depth⟩

end Outline

open Outline

/-- The text leaves as many lists and objects open as it finds. -/
def IsWhole (used : List Char) : Prop := ∀ depth, IsAt depth (run ⟨.free, depth⟩ used)

/-- The text is a part of a value that has no quotes or brackets. -/
def isPlain (c : Char) : Bool :=
  !(c = '"' || c = '[' || c = '\x7b' || c = ']' || c = '\x7d')

theorem run_of_plain {used : List Char} (h : ∀ c ∈ used, isPlain c) (depth : Nat) :
    run ⟨.free, depth⟩ used = some ⟨.free, depth⟩ := by
  induction used with
  | nil => rfl
  | cons c used ih =>
      rw [List.forall_mem_cons] at h
      have hc := h.1
      have hstep : step ⟨.free, depth⟩ c = some ⟨.free, depth⟩ := by
        simp only [isPlain, Bool.not_eq_true', Bool.or_eq_false_iff, decide_eq_false_iff_not] at hc
        simp [step, hc]
      rw [run_cons, hstep, Option.bind_some, ih h.2]

theorem isWhole_of_plain {used : List Char} (h : ∀ c ∈ used, isPlain c) : IsWhole used :=
  fun depth => .inl (run_of_plain h depth)

theorem run_blanks {blanks : List Char} (h : ∀ c ∈ blanks, isSpace c) {depth : Nat}
    {o : Option Outline} (ho : IsAt depth o) : o.bind (·.run blanks) = o := by
  induction blanks with
  | nil => cases o <;> rfl
  | cons c blanks ih =>
      rw [List.forall_mem_cons] at h
      have hc := h.1
      have hne : ∀ d : Char, isSpace d = false → c ≠ d := by
        rintro d hd rfl
        rw [hc] at hd
        cases hd
      have hstep : ∀ o', o = some o' → o'.step c = some o' := by
        rintro o' rfl
        rcases ho with ho | ho <;> obtain rfl := Option.some.inj ho
        · simp [step, hne '"' rfl, hne '[' rfl, hne '\x7b' rfl, hne ']' rfl, hne '\x7d' rfl]
        · simp [step, hc]
      cases o with
      | none => rfl
      | some o' =>
          have hrest := ih h.2
          rw [Option.bind_some] at hrest ⊢
          rw [run_cons, hstep o' rfl, Option.bind_some, hrest]

/-! ## Texts and numbers -/

theorem value?_eq_none {c : Char} (h : c = '"' ∨ c = '\\') : Hex.value? c = none := by
  rcases h with rfl | rfl <;> rfl

theorem run_value4? {a b c d : Char} {n : Nat} (h : Hex.value4? a b c d = some n) (depth : Nat) :
    run ⟨.quoted, depth⟩ [a, b, c, d] = some ⟨.quoted, depth⟩ := by
  have hstep : ∀ e m, Hex.value? e = some m → step ⟨.quoted, depth⟩ e = some ⟨.quoted, depth⟩ := by
    intro e m he
    have hquote : e ≠ '"' := fun heq => by rw [value?_eq_none (.inl heq)] at he; cases he
    have hback : e ≠ '\\' := fun heq => by rw [value?_eq_none (.inr heq)] at he; cases he
    simp [step, hquote, hback]
  simp only [Hex.value4?, Option.bind_eq_bind, Option.bind_eq_some_iff] at h
  obtain ⟨ka, ha, kb, hb, kc, hc, kd, hd, -⟩ := h
  simp only [run_cons, hstep a ka ha, hstep b kb hb, hstep c kc hc, hstep d kd hd, Option.bind_some]
  rfl

/-- The text ends with a closing quote, and with none before. -/
def Closes (used : List Char) : Prop := ∀ depth, run ⟨.quoted, depth⟩ used = some ⟨.ended, depth⟩

theorem Closes.append {front used : List Char} (h : Closes used)
    (hfront : ∀ depth, run ⟨.quoted, depth⟩ front = some ⟨.quoted, depth⟩) :
    Closes (front ++ used) := by
  intro depth
  rw [run_append, hfront, Option.bind_some, h]

/-- What is read as the units of a text ends with its closing quote. -/
theorem closes_of_units {s left : List Char} {us : List TextUnit} (h : units s = some (us, left)) :
    ∃ used, s = used ++ left ∧ Closes used := by
  fun_induction units s generalizing us left with
  | case1 => cases h
  | case2 rest =>
      cases h
      exact ⟨['"'], rfl, fun _ => rfl⟩
  | case3 a b c d rest n us' left' hrest hvalue ih =>
      cases h
      obtain ⟨used, rfl, hused⟩ := ih hrest
      refine ⟨['\\', 'u', a, b, c, d] ++ used, rfl, hused.append fun depth => ?_⟩
      exact run_value4? hvalue depth
  | case4 => cases h
  | case5 c rest hnot e us' left' hrest hshort ih =>
      cases h
      obtain ⟨used, rfl, hused⟩ := ih hrest
      refine ⟨['\\', c] ++ used, rfl, hused.append fun depth => ?_⟩
      change (step ⟨.escaped, depth⟩ c).bind _ = _
      rw [step_escaped, if_pos (.inr (by rw [hshort]; rfl))]
      rfl
  | case6 => cases h
  | case7 => cases h
  | case8 c rest hquote hcode hshort hplain us' left' hrest ih =>
      cases h
      obtain ⟨used, rfl, hused⟩ := ih hrest
      refine ⟨[c] ++ used, rfl, hused.append fun depth => ?_⟩
      have hback : c ≠ '\\' := fun heq => hplain (.inr heq)
      rw [run_cons, step_quoted, if_neg hquote, if_neg hback]
      rfl
  | case9 => cases h

theorem closes_of_readText {s left : List Char} {t : Option String}
    (h : readText s = some (t, left)) : ∃ used, s = used ++ left ∧ Closes used := by
  obtain ⟨⟨us, left'⟩, hunits, heq⟩ := Option.map_eq_some_iff.mp h
  cases heq
  exact closes_of_units hunits

theorem isPlain_of_isDigit {c : Char} (h : c.isDigit) : isPlain c := by
  have hne : ∀ d : Char, d.isDigit = false → c ≠ d := fun d => ne_of_isDigit h
  simp [isPlain, hne]

theorem plain_of_digitRun {s ds left : List Char} (h : digitRun s = (ds, left)) :
    s = ds ++ left ∧ ∀ c ∈ ds, isPlain c := by
  cases h
  refine ⟨List.takeWhile_append_dropWhile.symm, fun c hc => ?_⟩
  exact isPlain_of_isDigit (List.mem_takeWhile_imp hc)

theorem plain_of_readFraction {s left : List Char} {fraction : Option (List Char)}
    (h : readFraction s = some (fraction, left)) :
    ∃ used, s = used ++ left ∧ ∀ c ∈ used, isPlain c := by
  unfold readFraction at h
  split at h
  · next s =>
    split at h
    · cases h
    · next ds left' hne hrun =>
      cases h
      obtain ⟨rfl, hds⟩ := plain_of_digitRun hrun
      exact ⟨'.' :: ds, rfl, List.forall_mem_cons.mpr ⟨rfl, hds⟩⟩
  · cases h
    exact ⟨[], rfl, by simp⟩

theorem plain_of_readPowerDigits {negative : Bool} {s left : List Char}
    {power : Option (Bool × List Char)} (h : readPowerDigits negative s = some (power, left)) :
    ∃ used, s = used ++ left ∧ ∀ c ∈ used, isPlain c := by
  unfold readPowerDigits at h
  split at h
  · cases h
  · next ds left' hne hrun =>
    cases h
    obtain ⟨rfl, hds⟩ := plain_of_digitRun hrun
    exact ⟨ds, rfl, hds⟩

theorem plain_of_readPower {s left : List Char} {power : Option (Bool × List Char)}
    (h : readPower s = some (power, left)) :
    ∃ used, s = used ++ left ∧ ∀ c ∈ used, isPlain c := by
  unfold readPower at h
  split at h
  · next c s =>
    split at h
    · next hletter =>
      have hc : isPlain c := by rcases hletter with rfl | rfl <;> rfl
      split at h
      · next s =>
        obtain ⟨used, rfl, hused⟩ := plain_of_readPowerDigits h
        exact ⟨c :: '+' :: used, rfl,
          List.forall_mem_cons.mpr ⟨hc, List.forall_mem_cons.mpr ⟨rfl, hused⟩⟩⟩
      · next s =>
        obtain ⟨used, rfl, hused⟩ := plain_of_readPowerDigits h
        exact ⟨c :: '-' :: used, rfl,
          List.forall_mem_cons.mpr ⟨hc, List.forall_mem_cons.mpr ⟨rfl, hused⟩⟩⟩
      · obtain ⟨used, rfl, hused⟩ := plain_of_readPowerDigits h
        exact ⟨c :: used, rfl, List.forall_mem_cons.mpr ⟨hc, hused⟩⟩
    · cases h
      exact ⟨[], rfl, by simp⟩
  · cases h
    exact ⟨[], rfl, by simp⟩

theorem plain_of_readUnsigned {negative : Bool} {s left : List Char} {d : Document}
    (h : readUnsigned negative s = some (d, left)) :
    ∃ used, s = used ++ left ∧ ∀ c ∈ used, isPlain c := by
  unfold readUnsigned at h
  split at h
  next whole s' hrun =>
  split at h
  · cases h
  · obtain ⟨⟨fraction, s''⟩, hfraction, h⟩ := Option.bind_eq_some_iff.mp h
    obtain ⟨⟨power, left'⟩, hpower, h⟩ := Option.bind_eq_some_iff.mp h
    cases h
    obtain ⟨rfl, hwhole⟩ := plain_of_digitRun hrun
    obtain ⟨used, rfl, hused⟩ := plain_of_readFraction hfraction
    obtain ⟨more, rfl, hmore⟩ := plain_of_readPower hpower
    refine ⟨whole ++ (used ++ more), by simp, ?_⟩
    exact List.forall_mem_append.mpr ⟨hwhole, List.forall_mem_append.mpr ⟨hused, hmore⟩⟩

theorem isWhole_of_readNumber {s left : List Char} {d : Document}
    (h : readNumber s = some (d, left)) : ∃ used, s = used ++ left ∧ IsWhole used := by
  unfold readNumber at h
  split at h
  · obtain ⟨used, rfl, hused⟩ := plain_of_readUnsigned h
    exact ⟨'-' :: used, rfl, isWhole_of_plain (List.forall_mem_cons.mpr ⟨rfl, hused⟩)⟩
  · obtain ⟨used, rfl, hused⟩ := plain_of_readUnsigned h
    exact ⟨used, rfl, isWhole_of_plain hused⟩

theorem eq_append_of_dropWord? {word s left : List Char} (h : dropWord? word s = some left) :
    s = word ++ left := by
  fun_induction dropWord? word s with
  | case1 => cases h; rfl
  | case2 => cases h
  | case3 w ws s ih => rw [ih h, List.cons_append]
  | case4 => cases h

/-! ## Values -/

theorem skipSpace_eq {s rest : List Char} (h : skipSpace s = rest) :
    ∃ blanks, s = blanks ++ rest ∧ ∀ c ∈ blanks, isSpace c :=
  ⟨s.takeWhile isSpace, h ▸ List.takeWhile_append_dropWhile.symm,
    fun _ hc => List.mem_takeWhile_imp hc⟩

theorem run_blanks_append {blanks : List Char} (h : ∀ c ∈ blanks, isSpace c) (depth : Nat)
    (s : List Char) : run ⟨.free, depth⟩ (blanks ++ s) = run ⟨.free, depth⟩ s := by
  have hrun := run_blanks h (.inl rfl : IsAt depth (some ⟨.free, depth⟩))
  rw [Option.bind_some] at hrun
  rw [run_append, hrun, Option.bind_some]

theorem IsWhole.blanks_append {used blanks : List Char} (h : IsWhole used)
    (hblanks : ∀ c ∈ blanks, isSpace c) : IsWhole (blanks ++ used) :=
  fun depth => run_blanks_append hblanks depth used ▸ h depth

theorem Closes.isWhole {used : List Char} (h : Closes used) : IsWhole ('"' :: used) :=
  fun depth => .inr (h depth)

theorem IsWhole.append_blanks {used blanks : List Char} (h : IsWhole used)
    (hblanks : ∀ c ∈ blanks, isSpace c) : IsWhole (used ++ blanks) := by
  intro depth
  rw [run_append, run_blanks hblanks (h depth)]
  exact h depth

/-- Behind a value a separator may follow, and then something else. -/
theorem IsWhole.run_separator {used : List Char} (h : IsWhole used) {c : Char}
    (hc : c = ',' ∨ c = ':') (rest : List Char) (depth : Nat) :
    run ⟨.free, depth + 1⟩ (used ++ c :: rest) = run ⟨.free, depth + 1⟩ rest := by
  rw [run_append]
  rcases h (depth + 1) with hrun | hrun <;> rw [hrun] <;> rcases hc with rfl | rfl <;> rfl

theorem IsWhole.run_closing {used : List Char} (h : IsWhole used) {c : Char}
    (hc : c = ']' ∨ c = '\x7d') (depth : Nat) :
    run ⟨.free, depth + 1⟩ (used ++ [c]) = some ⟨.ended, depth⟩ := by
  rw [run_append]
  rcases h (depth + 1) with hrun | hrun <;> rw [hrun] <;> rcases hc with rfl | rfl <;> rfl

/-- The text closes a list or an object that was open. -/
def Finishes (used : List Char) : Prop :=
  ∀ depth, run ⟨.free, depth + 1⟩ used = some ⟨.ended, depth⟩

theorem Finishes.blanks_append {used blanks : List Char} (h : Finishes used)
    (hblanks : ∀ c ∈ blanks, isSpace c) : Finishes (blanks ++ used) :=
  fun depth => (run_blanks_append hblanks (depth + 1) used).trans (h depth)

theorem Finishes.isWhole {used : List Char} (h : Finishes used) {c : Char}
    (hc : c = '[' ∨ c = '\x7b') : IsWhole (c :: used) := by
  intro depth
  have hstep : step ⟨.free, depth⟩ c = some ⟨.free, depth + 1⟩ := by rcases hc with
    rfl | rfl <;> rfl
  rw [run_cons, hstep, Option.bind_some]
  exact .inr (h depth)

section

variable {value : List Char → Option (Document × List Char)}

def TakesWhole (value : List Char → Option (Document × List Char)) : Prop :=
  ∀ s d left, value s = some (d, left) → ∃ used, s = used ++ left ∧ IsWhole used

theorem finishes_of_readItems (hvalue : TakesWhole value) {k : Nat} {s left : List Char}
    {items : List Document} (h : readItems value k s = some (items, left)) :
    ∃ used, s = used ++ left ∧ Finishes used := by
  induction k generalizing s items left with
  | zero => cases h
  | succ k ih =>
      obtain ⟨⟨v, s'⟩, hv, hbehind⟩ := Option.bind_eq_some_iff.mp h
      clear h
      obtain ⟨used, rfl, hused⟩ := hvalue _ _ _ hv
      dsimp only at hbehind
      split at hbehind
      · next rest hskip =>
        obtain ⟨⟨more, left'⟩, hmore, heq⟩ := Option.bind_eq_some_iff.mp hbehind
        cases heq
        obtain ⟨blanks, rfl, hblanks⟩ := skipSpace_eq hskip
        obtain ⟨last, rfl, hlast⟩ := ih hmore
        refine ⟨used ++ blanks ++ ',' :: last, by simp, fun depth => ?_⟩
        rw [(hused.append_blanks hblanks).run_separator (.inl rfl), hlast]
      · next rest hskip =>
        cases hbehind
        obtain ⟨blanks, rfl, hblanks⟩ := skipSpace_eq hskip
        exact ⟨used ++ blanks ++
          [']'], by simp, (hused.append_blanks hblanks).run_closing (.inl rfl)⟩
      · cases hbehind

theorem finishes_of_readFields (hvalue : TakesWhole value) {k : Nat} {s left : List Char}
    {fields : List (Option String × Document)} (h : readFields value k s = some (fields, left)) :
    ∃ used, s = used ++ left ∧ Finishes used := by
  induction k generalizing s fields left with
  | zero => cases h
  | succ k ih =>
      rw [readFields] at h
      split at h
      · next s₁ hquote =>
        obtain ⟨⟨key, s₂⟩, hkey, hcolon⟩ := Option.bind_eq_some_iff.mp h
        clear h
        obtain ⟨front, rfl, hfront⟩ := skipSpace_eq hquote
        obtain ⟨name, rfl, hname⟩ := closes_of_readText hkey
        dsimp only at hcolon
        split at hcolon
        · next s₃ hskip =>
          obtain ⟨⟨v, s₄⟩, hv, hbehind⟩ := Option.bind_eq_some_iff.mp hcolon
          clear hcolon
          obtain ⟨between, rfl, hbetween⟩ := skipSpace_eq hskip
          obtain ⟨used, rfl, hused⟩ := hvalue _ _ _ hv
          have hmember := (hname.isWhole.blanks_append hfront).append_blanks hbetween
          dsimp only at hbehind
          split at hbehind
          · next rest hskip' =>
            obtain ⟨⟨more, left'⟩, hmore, heq⟩ := Option.bind_eq_some_iff.mp hbehind
            cases heq
            obtain ⟨blanks, rfl, hblanks⟩ := skipSpace_eq hskip'
            obtain ⟨last, rfl, hlast⟩ := ih hmore
            refine ⟨front ++ '"' :: name ++ between ++ ':' :: (used ++ blanks ++ ',' :: last),
              by simp, fun depth => ?_⟩
            rw [hmember.run_separator (.inr rfl),
              (hused.append_blanks hblanks).run_separator (.inl rfl), hlast]
          · next rest hskip' =>
            cases hbehind
            obtain ⟨blanks, rfl, hblanks⟩ := skipSpace_eq hskip'
            refine ⟨front ++ '"' :: name ++ between ++ ':' :: (used ++ blanks ++ ['\x7d']),
              by simp, fun depth => ?_⟩
            rw [hmember.run_separator (.inr rfl),
              (hused.append_blanks hblanks).run_closing (.inr rfl)]
          · cases hbehind
        · cases hcolon
      · cases h

end

theorem isWhole_bracket {c : Char} (hc : c = '[' ∨ c = '\x7b') {s left : List Char}
    (h : ∃ used, skipSpace s = used ++ left ∧ Finishes used) :
    ∃ used, c :: s = used ++ left ∧ IsWhole used := by
  obtain ⟨used, hskip, hused⟩ := h
  obtain ⟨blanks, rfl, hblanks⟩ := skipSpace_eq hskip
  exact ⟨c :: (blanks ++ used), by simp, (hused.blanks_append hblanks).isWhole hc⟩

theorem isWhole_word {c : Char} {word s left : List Char} (hword : (c :: word).all isPlain)
    {v d : Document} (h : (dropWord? word s).map (fun s => (v, s)) = some (d, left)) :
    ∃ used, c :: s = used ++ left ∧ IsWhole used := by
  obtain ⟨left', hdrop, heq⟩ := Option.map_eq_some_iff.mp h
  cases heq
  exact ⟨c :: word, by rw [eq_append_of_dropWord? hdrop, List.cons_append],
    isWhole_of_plain (List.all_eq_true.mp hword)⟩

theorem takesWhole_readValue (most : Nat) : TakesWhole (readValue most) := by
  induction most with
  | zero => exact fun s d left h => by cases h
  | succ most ih =>
      intro s d left h
      suffices hrest : ∃ used, skipSpace s = used ++ left ∧ IsWhole used by
        obtain ⟨used, hskip, hused⟩ := hrest
        obtain ⟨blanks, rfl, hblanks⟩ := skipSpace_eq hskip
        exact ⟨blanks ++ used, by simp, hused.blanks_append hblanks⟩
      rw [readValue] at h
      generalize skipSpace s = rest at h
      split at h
      · cases h
      · next s =>
        obtain ⟨⟨t, left'⟩, htext, heq⟩ := Option.map_eq_some_iff.mp h
        cases heq
        obtain ⟨used, rfl, hused⟩ := closes_of_readText htext
        exact ⟨'"' :: used, rfl, hused.isWhole⟩
      · refine isWhole_bracket (.inl rfl) ?_
        split at h
        · next hskip =>
          cases h
          exact ⟨[']'], hskip, fun _ => rfl⟩
        · obtain ⟨⟨items, left'⟩, hitems, heq⟩ := Option.map_eq_some_iff.mp h
          cases heq
          exact finishes_of_readItems ih hitems
      · refine isWhole_bracket (.inr rfl) ?_
        split at h
        · next hskip =>
          cases h
          exact ⟨['\x7d'], hskip, fun _ => rfl⟩
        · obtain ⟨⟨fields, left'⟩, hfields, heq⟩ := Option.map_eq_some_iff.mp h
          cases heq
          exact finishes_of_readFields ih hfields
      · exact isWhole_word (by decide) h
      · exact isWhole_word (by decide) h
      · exact isWhole_word (by decide) h
      · exact isWhole_of_readNumber h

theorem isWhole_of_parseChars {s : List Char} {d : Document} (h : parseChars s = some d) :
    IsWhole s := by
  obtain ⟨⟨d', left⟩, hvalue, hrest⟩ := Option.bind_eq_some_iff.mp h
  obtain ⟨used, rfl, hused⟩ := takesWhole_readValue _ _ _ _ hvalue
  dsimp only at hrest
  split at hrest
  · next hempty =>
    obtain ⟨blanks, hleft, hblanks⟩ := skipSpace_eq (List.isEmpty_iff.mp hempty)
    rw [hleft, List.append_nil]
    exact hused.append_blanks hblanks
  · cases hrest

/-! ## Cuts -/

namespace Outline

/-- Something is open, or else what was open is closed for good. -/
def Begun (o : Outline) : Prop := o.depth = 0 → o.stand = .ended

theorem begun_close? {depth : Nat} {o : Outline} (h : close? depth = some o) : o.Begun := by
  cases depth with
  | zero => cases h
  | succ depth =>
      cases h
      exact fun _ => rfl

theorem Begun.step {o o' : Outline} (h : o.Begun) {c : Char} (hstep : o.step c = some o') :
    o'.Begun ∧ (o.depth = 0 → isSpace c) := by
  obtain ⟨stand, depth⟩ := o
  cases depth with
  | zero =>
      obtain rfl : stand = .ended := h rfl
      rw [step_ended] at hstep
      split at hstep
      · next hspace =>
        cases hstep
        exact ⟨fun _ => rfl, fun _ => hspace⟩
      · rw [if_neg (fun hand => hand.2 rfl)] at hstep
        split at hstep <;> cases hstep
  | succ depth =>
      refine ⟨?_, nofun⟩
      cases stand with
      | free =>
          rw [step_free] at hstep
          split at hstep
          · cases hstep; exact nofun
          split at hstep
          · cases hstep; exact nofun
          split at hstep
          · exact begun_close? hstep
          · cases hstep; exact nofun
      | ended =>
          rw [step_ended] at hstep
          split at hstep
          · cases hstep; exact nofun
          split at hstep
          · cases hstep; exact nofun
          split at hstep
          · exact begun_close? hstep
          · cases hstep
      | quoted =>
          rw [step_quoted] at hstep
          split at hstep
          · cases hstep; exact nofun
          split at hstep <;> cases hstep <;> exact nofun
      | escaped =>
          rw [step_escaped] at hstep
          split at hstep <;> cases hstep
          exact nofun

theorem Begun.run {o o' : Outline} (h : o.Begun) {s : List Char} (hrun : o.run s = some o') :
    o'.Begun ∧ (o.depth = 0 → ∀ c ∈ s, isSpace c) := by
  induction s generalizing o with
  | nil =>
      cases hrun
      exact ⟨h, fun _ => by simp⟩
  | cons c s ih =>
      obtain ⟨o₁, hstep, hrun⟩ := Option.bind_eq_some_iff.mp hrun
      obtain ⟨hbegun, hblank⟩ := h.step hstep
      obtain ⟨hend, hblanks⟩ := ih hbegun hrun
      refine ⟨hend, fun hdepth => List.forall_mem_cons.mpr ⟨hblank hdepth, hblanks ?_⟩⟩
      obtain rfl : o₁ = o := by
        obtain ⟨stand, depth⟩ := o
        obtain rfl : depth = 0 := hdepth
        obtain rfl : stand = .ended := h rfl
        rw [step_ended, if_pos (hblank rfl)] at hstep
        exact (Option.some.inj hstep).symm
      exact hdepth

end Outline

section

variable {line front back : List Char} {d : Document}

theorem begun_of_cut (hline : parseChars line = some d)
    (hobject : ∃ inner, line = '\x7b' :: (inner ++ ['\x7d'])) (hcut : line = front ++ back)
    (hfront : front ≠ []) :
    ∃ o, run ⟨.free, 0⟩ front = some o ∧ o.Begun ∧ (o.depth = 0 → back = []) := by
  obtain ⟨inner, hinner⟩ := hobject
  obtain ⟨c, rest, rfl⟩ := List.exists_cons_of_ne_nil hfront
  obtain rfl : c = '\x7b' := by
    rw [hcut] at hinner
    exact (List.cons.inj hinner).1
  have hopen : run ⟨.free, 0⟩ ('\x7b' :: rest) = run ⟨.free, 1⟩ rest := rfl
  have hwhole := isWhole_of_parseChars hline 0
  rw [hcut, run_append, hopen] at hwhole
  rw [hopen]
  cases hrun : run ⟨.free, 1⟩ rest with
  | none => rw [hrun] at hwhole; rcases hwhole with h | h <;> cases h
  | some o =>
      have hstart : Outline.Begun ⟨.free, 1⟩ := nofun
      have hbegun := (hstart.run hrun).1
      refine ⟨o, rfl, hbegun, fun hdepth => ?_⟩
      rw [hrun, Option.bind_some] at hwhole
      obtain ⟨o', hend⟩ : ∃ o', o.run back = some o' := by
        rcases hwhole with h | h <;> exact ⟨_, h⟩
      have hblanks := (hbegun.run hend).2 hdepth
      rcases List.eq_nil_or_concat back with hnil | ⟨most, last, rfl⟩
      · exact hnil
      · have hlast := congrArg List.getLast? (hcut.symm.trans hinner)
        rw [List.concat_eq_append, ← List.append_assoc, List.getLast?_concat, ← List.cons_append,
          List.getLast?_concat] at hlast
        cases hlast
        exact absurd (hblanks '\x7d' (by simp)) (by decide)

theorem parseChars_cut (hline : parseChars line = some d)
    (hobject : ∃ inner, line = '\x7b' :: (inner ++ ['\x7d'])) (hcut : line = front ++ back)
    (hfront : front ≠ []) (hback : back ≠ []) : parseChars front = none := by
  obtain ⟨o, hrun, -, hdepth⟩ := begun_of_cut hline hobject hcut hfront
  rw [Option.eq_none_iff_forall_ne_some]
  intro d' hread
  have hwhole := isWhole_of_parseChars hread 0
  rw [hrun] at hwhole
  refine hback (hdepth ?_)
  rcases hwhole with h | h <;> cases h <;> rfl

/-- An object, cut or not, is not read with another one behind it, if that begins with a word. -/
theorem parseChars_cut_append (hline : parseChars line = some d)
    (hobject : ∃ inner, line = '\x7b' :: (inner ++ ['\x7d'])) (hcut : line = front ++ back)
    (hfront : front ≠ []) {next : List Char} {d' : Document} (hnext : parseChars next = some d')
    (hword : ∃ c rest, next = '\x7b' :: '"' :: c :: rest ∧ c.isAlpha) :
    parseChars (front ++ next) = none := by
  obtain ⟨o, hrun, hbegun, -⟩ := begun_of_cut hline hobject hcut hfront
  rw [Option.eq_none_iff_forall_ne_some]
  intro d'' hread
  have hwhole := isWhole_of_parseChars hread 0
  rw [run_append, hrun, Option.bind_some] at hwhole
  obtain ⟨stand, depth⟩ := o
  cases stand with
  | free =>
      have hsame := isWhole_of_parseChars hnext depth
      have hzero : depth = 0 := by
        rcases hwhole with h | h <;> rcases hsame with h' | h' <;> rw [h] at h' <;> cases h' <;> rfl
      cases hbegun hzero
  | ended =>
      obtain ⟨c, rest, rfl, -⟩ := hword
      rcases hwhole with h | h <;> cases h
  | quoted =>
      -- The quotes of the first word close the text that was cut, and the word goes on.
      obtain ⟨c, rest, rfl, hc⟩ := hword
      have hne : ∀ e : Char, e.isAlpha = false → c ≠ e := by
        rintro e he rfl
        rw [hc] at he
        cases he
      have hstep : step ⟨.ended, depth⟩ c = none := by
        rw [step_ended]
        simp [isSpace, hne]
      have hnone : run ⟨.quoted, depth⟩ ('\x7b' :: '"' :: c :: rest) = none := by
        change (step ⟨.ended, depth⟩ c).bind _ = none
        rw [hstep]
        rfl
      rw [hnone] at hwhole
      rcases hwhole with h | h <;> cases h
  | escaped =>
      obtain ⟨c, rest, rfl, -⟩ := hword
      rcases hwhole with h | h <;> cases h

end

end Pipewright.Json.Document
