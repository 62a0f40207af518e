import Pipewright.Proofs.Digraph.Grammar
import Pipewright.Proofs.Digraph.Statements

/-!
# What is read is derived

Every text that the reader accepts has a derivation in the grammar, and the
graph is the one that the statements of this derivation declare (`parse_sound`).
The reader tries its forms in order and goes back to where a form began if that
gives up, so the proof follows it part by part: `Leads` says that a reading, if
it succeeds, relates its value and what it leaves as the grammar does, and it
passes through sequences, alternatives and parts that need not be there. A part
that gave up has taken nothing, so no text is passed over.
-/

namespace Pipewright.Digraph

variable {α β : Type} {R : α → List Char → Prop} {Q : β → List Char → Prop}

/-! ## Readings that succeed -/

/-- If the reading succeeds, its value and what it leaves are related. -/
def Leads (R : α → List Char → Prop) (r : Reading (α × List Char)) : Prop :=
  ∀ a rest, r = .ok (a, rest) → R a rest

theorem leads_ok {a : α} {rest : List Char} (h : R a rest) : Leads R (.ok (a, rest)) := by
  rintro b rest' heq
  cases heq
  exact h

theorem leads_error (f : Refusal) : Leads R (.error f) := by
  intro a rest h
  cases h

theorem Leads.bind {r : Reading (α × List Char)} {f : α × List Char → Reading (β × List Char)}
    (hr : Leads R r) (hf : ∀ a rest, R a rest → Leads Q (f (a, rest))) : Leads Q (r >>= f) := by
  cases r with
  | ok v => exact hf v.1 v.2 (hr v.1 v.2 rfl)
  | error e => exact leads_error e

/-- The second reading is tried only where the first one gave up. -/
theorem Leads.otherwise {r : Reading (α × List Char)} {q : Unit → Reading (α × List Char)}
    (hr : Leads R r) (hq : (∀ v, r ≠ .ok v) → Leads R (q ())) : Leads R (otherwise r q) := by
  cases r with
  | ok v => exact hr
  | error f =>
      unfold Digraph.otherwise
      dsimp only
      split
      · exact leads_error f
      · exact hq nofun

theorem Leads.mapValue {f : α → β} {r : Reading (α × List Char)} (hr : Leads R r)
    (hf : ∀ a rest, R a rest → Q (f a) rest) : Leads Q (mapValue f r) := by
  cases r with
  | ok v => exact leads_ok (hf v.1 v.2 (hr v.1 v.2 rfl))
  | error e => exact leads_error e

theorem Leads.expecting {r : Reading (α × List Char)} (hr : Leads R r) (e : Expectation) :
    Leads R (expecting e r) := by
  cases r with
  | ok v => exact hr
  | error f => exact leads_error _

theorem Leads.optional {part : List Char → α → List Char → Prop} {s : List Char}
    {r : Reading (α × List Char)} (hr : Leads (part s) r) :
    Leads (Grammar.Opt part s) (optional s r) := by
  cases r with
  | ok v => exact leads_ok (.present (hr v.1 v.2 rfl))
  | error f =>
      unfold Digraph.optional
      dsimp only
      split
      · exact leads_error f
      · exact leads_ok (.absent s)

theorem mapValue_ne_ok {f : α → β} {r : Reading (α × List Char)}
    (h : ∀ v, mapValue f r ≠ .ok v) (v : α × List Char) : r ≠ .ok v := by
  rintro rfl
  exact h _ rfl

namespace Read

open Grammar

/-! ## Blanks and separators -/

theorem ws_skipSpace (s : List Char) : Ws s (skipSpace s) :=
  ⟨s.takeWhile isSpace, List.takeWhile_append_dropWhile.symm, fun _ => List.mem_takeWhile_imp⟩

theorem separator_skipSeparator (s : List Char) : Separator s (skipSeparator s) := by
  unfold skipSeparator
  split
  · exact .inr (.inl rfl)
  · exact .inr (.inr rfl)
  · exact .inl rfl

theorem ending_skipSemicolon {s s' : List Char} (h : Ws s s') : Ending s (skipSemicolon s') := by
  unfold skipSemicolon
  split
  · exact .inr h
  · exact .inl h

theorem leads_char (c : Char) (s : List Char) : Leads (fun _ rest => s = c :: rest) (char c s) := by
  unfold char
  split
  · split
    · next h => exact leads_ok (by rw [h])
    · exact leads_error _
  · exact leads_error _

theorem leads_word (w : String) (s : List Char) :
    Leads (fun _ rest => s = w.toList ++ rest) (word w s) := by
  unfold word
  split
  · next h => exact leads_ok (dropWord?_eq_some.mp h)
  · exact leads_error _

/-! ## Names -/

theorem stops_dropWhile (p : Char → Bool) (s : List Char) : Stops p (s.dropWhile p) := by
  have h : Stops p (s.dropWhile p ++ []) := stops_dropWhile_append trivial
  rwa [List.append_nil] at h

theorem leads_quotedBody (s : List Char) : Leads (Quoted s) (quotedBody s) := by
  fun_induction quotedBody s with
  | case1 => exact leads_error _
  | case2 rest => exact leads_ok (.close rest)
  | case3 => exact leads_error _
  | case4 c rest ih => exact ih.mapValue fun _ _ => .escape c
  | case5 c rest hquote hlone hpair ih =>
      refine ih.mapValue fun _ rest' h => ?_
      refine .plain hquote (fun hc => ?_) h
      cases rest with
      | nil => exact hlone hc rfl
      | cons d rest => exact hpair d rest hc rfl

theorem leads_quoted (s : List Char) :
    Leads (fun cs rest => ∃ s', s = '"' :: s' ∧ Quoted s' cs rest) (quoted s) := by
  unfold quoted
  split
  · next s' => exact fun cs rest h => ⟨s', rfl, leads_quotedBody s' cs rest h⟩
  · exact leads_error _

theorem leads_bareName (s : List Char) :
    Leads (fun cs rest => Id s (String.ofList cs) rest) (bareName s) := by
  unfold bareName
  split
  · next c s' =>
    split
    · next hc =>
      refine leads_ok ?_
      have hword : ∀ d ∈ s'.takeWhile isWordChar, isWordChar d := fun _ => List.mem_takeWhile_imp
      have hid := Id.bare hc hword (stops_dropWhile isWordChar s')
      rwa [List.cons_append, List.takeWhile_append_dropWhile] at hid
    · exact leads_error _
  · exact leads_error _

theorem sign_spec (s : List Char) : IsSign (sign s).1 ∧ s = (sign s).1 ++ (sign s).2 := by
  unfold sign
  split
  · exact ⟨.inr (.inl rfl), rfl⟩
  · exact ⟨.inr (.inr rfl), rfl⟩
  · exact ⟨.inl rfl, rfl⟩

theorem leads_digits (s : List Char) :
    Leads (fun ds rest => s = ds ++ rest ∧ IsDigits ds ∧ Stops Char.isDigit rest) (digits s) := by
  unfold digits
  split
  · exact leads_error _
  · next hne =>
    refine leads_ok ⟨?_, ⟨hne, fun c hc => ?_⟩, stops_dropWhile _ s⟩
    · exact List.takeWhile_append_dropWhile.symm
    · exact List.mem_takeWhile_imp hc

theorem fraction_spec {s : List Char} (h : Stops Char.isDigit s) :
    s = (fraction s).1 ++ (fraction s).2 ∧ IsFraction (fraction s).1 ∧
      Stops Char.isDigit (fraction s).2 := by
  unfold fraction
  split
  · next s' =>
    split
    · next ds rest heq =>
      obtain ⟨hs, hds, hrest⟩ := leads_digits s' ds rest heq
      exact ⟨by rw [hs]; rfl, .inr ⟨ds, rfl, hds⟩, hrest⟩
    · exact ⟨rfl, .inl rfl, h⟩
  · exact ⟨rfl, .inl rfl, h⟩

theorem leads_numeral (s : List Char) :
    Leads (fun cs rest => Id s (String.ofList cs) rest) (numeral s) := by
  obtain ⟨hsign, hs⟩ := sign_spec s
  refine (leads_digits (sign s).2).bind fun whole s' ⟨hs', hwhole, hstop⟩ => ?_
  obtain ⟨hsplit, hpart, hrest⟩ := fraction_spec hstop
  refine leads_ok ?_
  have hid := Id.numeral hsign hwhole hpart hrest
  rwa [List.append_assoc _ _ (fraction s').2, ← hsplit, List.append_assoc, ← hs', ← hs] at hid

theorem leads_name (s : List Char) : Leads (Id s) (name s) := by
  have hchars : Leads (fun cs rest => Id s (String.ofList cs) rest)
      (otherwise (quoted s) fun _ => otherwise (bareName s) fun _ => numeral s) := by
    refine Leads.otherwise ?_ fun _ => Leads.otherwise (leads_bareName s) fun _ => leads_numeral s
    rintro cs rest h
    obtain ⟨s', rfl, hquoted⟩ := leads_quoted s cs rest h
    exact .quoted hquoted
  exact hchars.mapValue fun _ _ h => h

/-! ## Keys -/

theorem keyTail_spec (s : List Char) :
    s = (keyTail s).1 ++ (keyTail s).2 ∧ Stops isWordChar (keyTail s).2 := by
  fun_induction keyTail s with
  | case1 c rest hc more left heq ih =>
      rw [heq] at ih
      exact ⟨by rw [ih.1]; rfl, ih.2⟩
  | case2 c rest hc => exact ⟨rfl, rfl⟩
  | case3 c rest hdot hc more left heq ih =>
      rw [heq] at ih
      exact ⟨by rw [ih.1]; rfl, ih.2⟩
  | case4 c rest hdot hc => exact ⟨rfl, Bool.eq_false_iff.mpr hc⟩
  | case5 => exact ⟨rfl, trivial⟩

theorem leads_key (s : List Char) : Leads (Key s) (key s) := by
  intro k rest h
  have hname := isDottedName_of_key h
  unfold key at h
  split at h
  · next c s' =>
    split at h
    · obtain ⟨rfl, rfl⟩ := Prod.mk.inj (Except.ok.inj h)
      obtain ⟨hs, hstop⟩ := keyTail_spec s'
      rw [String.toList_ofList] at hname
      have hkey := Key.dotted hname hstop
      rwa [List.cons_append, ← hs] at hkey
    · cases h
  · cases h

/-! ## Values -/

theorem stops_of_continuesWord {s : List Char} (h : ¬ continuesWord s) : Stops isWordChar s := by
  cases s with
  | nil => trivial
  | cons c s => exact Bool.eq_false_iff.mpr h

theorem leads_truth (s : List Char) :
    Leads (fun b rest => ∃ w, s = w ++ rest ∧ Typed w (.boolean b) rest) (truth s) := by
  have hword : Leads (fun (b : Bool) rest => s = (toString b).toList ++ rest)
      (otherwise (mapValue (fun _ => true) (word "true" s)) fun _ =>
        mapValue (fun _ => false) (word "false" s)) := by
    refine Leads.otherwise ?_ fun _ => ?_
    · exact (leads_word "true" s).mapValue fun _ _ h => h
    · exact (leads_word "false" s).mapValue fun _ _ h => h
  refine hword.bind fun b rest hs => ?_
  dsimp only
  split
  · exact leads_error _
  · next hstop => exact leads_ok ⟨_, hs, .truth b (stops_of_continuesWord hstop)⟩

theorem leads_real (s : List Char) :
    Leads (fun x rest => ∃ w, s = w ++ rest ∧ Typed w (.real x) rest) (real s) := by
  obtain ⟨hsign, hs⟩ := sign_spec s
  refine (leads_digits (sign s).2).bind fun whole s₁ ⟨hs₁, hwhole, _⟩ => ?_
  refine (leads_char '.' s₁).bind fun _ s₂ hs₂ => ?_
  refine (leads_digits s₂).bind fun part rest ⟨hrest, hpart, hstop⟩ => ?_
  refine leads_ok ⟨_, ?_, .real hsign hwhole hpart hstop⟩
  calc s = (sign s).1 ++ (whole ++ '.' :: (part ++ rest)) := by rw [← hrest, ← hs₂, ← hs₁, ← hs]
    _ = (sign s).1 ++ whole ++ '.' :: part ++ rest := by simp

theorem leads_integer (s : List Char) :
    Leads (fun i rest => ∃ w, s = w ++ rest ∧ Typed w (.integer i) rest) (integer s) := by
  obtain ⟨hsign, hs⟩ := sign_spec s
  refine (leads_digits (sign s).2).bind fun whole rest ⟨hrest, hwhole, _⟩ => ?_
  dsimp only
  split
  · exact leads_error _
  · next hstop =>
    split
    · next i hfits =>
      refine leads_ok ⟨_, ?_, .integer hsign hwhole hfits (stops_of_continuesWord hstop)⟩
      rw [List.append_assoc, ← hrest, ← hs]
    · exact leads_error _

/-- The readings of truth values and numbers find every one that is there. -/
theorem typed_found {w rest : List Char} {v : AttrValue} (h : Typed w v rest)
    (htruth : ∀ u, truth (w ++ rest) ≠ .ok u) (hreal : ∀ u, real (w ++ rest) ≠ .ok u)
    (hinteger : ∀ u, integer (w ++ rest) ≠ .ok u) : False := by
  have hsigned : ∀ {sign whole more : List Char}, IsSign sign → IsDigits whole →
      Read.sign (sign ++ whole ++ more) = (sign, whole ++ more) := by
    rintro sign whole more (rfl | rfl | rfl) ⟨hne, hdigits⟩
    · obtain ⟨d, ds, rfl⟩ := List.exists_cons_of_ne_nil hne
      exact sign_of_isDigit (hdigits d (List.mem_cons_self ..)) _
    · rfl
    · rfl
  cases h with
  | truth b hrest => exact htruth _ (truth_append b hrest)
  | @real sign whole part _ hsign hwhole hpart hrest =>
      have hpoint : Stops Char.isDigit ('.' :: (part ++ rest)) := rfl
      let x := Binary64.ofDecimal (sign == ['-']) (Numeral.value 0 (whole ++ part)) (-part.length)
      have hread : real (sign ++ whole ++ '.' :: (part ++ rest)) = .ok (x, rest) := by
        rw [real, hsigned hsign hwhole]
        simp only [digits_append hwhole.1 hwhole.2 hpoint]
        change (digits (part ++ rest) >>= _) = _
        rw [digits_append hpart.1 hpart.2 hrest]
        rfl
      rw [List.append_assoc, List.cons_append] at hreal
      exact hreal (x, rest) hread
  | @integer sign whole _ i hsign hwhole hfits hrest =>
      refine hinteger (i, rest) ?_
      have hdigits : Stops Char.isDigit rest := hrest.mono fun c hc => by
        by_contra hdigit
        rw [isWordChar_of_isDigit (Bool.not_eq_false _ ▸ hdigit)] at hc
        cases hc
      rw [integer, hsigned hsign hwhole]
      simp only [digits_append hwhole.1 hwhole.2 hdigits]
      change (if continuesWord rest then _ else _) = _
      rw [continuesWord_eq_false hrest, hfits]
      rfl

theorem leads_bareValue (s : List Char) :
    Leads (fun w rest => s = w ++ rest ∧ w ≠ [] ∧ (∀ c ∈ w, isBareValueChar c) ∧
      Stops isBareValueChar rest) (bareValue s) := by
  unfold bareValue
  split
  · exact leads_error _
  · next hne =>
    refine leads_ok ⟨?_, hne, fun c hc => ?_, stops_dropWhile _ s⟩
    · exact List.takeWhile_append_dropWhile.symm
    · exact List.mem_takeWhile_imp hc

theorem leads_value (s : List Char) : Leads (Value s) (value s) := by
  refine Leads.otherwise ?_ fun _ => ?_
  · refine Leads.mapValue (leads_quoted s) ?_
    rintro cs rest ⟨s', rfl, h⟩
    exact .quoted h
  refine Leads.otherwise ?_ fun htruth => ?_
  · refine Leads.mapValue (leads_truth s) ?_
    rintro b rest ⟨w, rfl, h⟩
    exact .typed h
  refine Leads.otherwise ?_ fun hreal => ?_
  · refine Leads.mapValue (leads_real s) ?_
    rintro x rest ⟨w, rfl, h⟩
    exact .typed h
  refine Leads.otherwise ?_ fun hinteger => ?_
  · refine Leads.mapValue (leads_integer s) ?_
    rintro i rest ⟨w, rfl, h⟩
    exact .typed h
  refine Leads.mapValue (leads_bareValue s) ?_
  rintro w rest ⟨rfl, hne, hchars, hrest⟩
  refine .bare hne hchars hrest fun v h => ?_
  exact typed_found h (mapValue_ne_ok htruth) (mapValue_ne_ok hreal) (mapValue_ne_ok hinteger)

/-! ## Attributes -/

theorem leads_attr (s : List Char) :
    Leads (fun e rest => ∃ s₁ s₂ s₃, Key s e.1 s₁ ∧ Ws s₁ ('=' :: s₂) ∧ Ws s₂ s₃ ∧
      Value s₃ e.2 rest) (attr s) := by
  refine (leads_key s).bind fun k s₁ hkey => ?_
  refine (leads_char '=' (skipSpace s₁)).bind fun _ s₂ hequals => ?_
  refine ((leads_value (skipSpace s₂)).expecting _).bind fun v rest hvalue => ?_
  exact leads_ok ⟨s₁, s₂, _, hkey, hequals ▸ ws_skipSpace s₁, ws_skipSpace s₂, hvalue⟩

/-- The pairs that are read are set one after the other. -/
theorem leads_attrs (most : Nat) (seen : Attrs) (s : List Char) :
    Leads (fun found rest => ∃ l, Pairs s l rest ∧
      found = l.foldl (fun acc e => acc.insert e.1 e.2) seen) (attrs most seen s) := by
  induction most generalizing seen s with
  | zero => exact leads_ok ⟨[], .nil s, rfl⟩
  | succ most ih =>
      rw [attrs]
      rcases hread : attr s with f | ⟨⟨k, v⟩, s₁⟩
      · dsimp only
        split
        · exact leads_error _
        · exact leads_ok ⟨[], .nil s, rfl⟩
      · rintro found rest h
        obtain ⟨l, hpairs, rfl⟩ := ih (seen.insert k v) (skipBetween s₁) found rest h
        obtain ⟨_, _, _, hkey, hequals, hspace, hvalue⟩ := leads_attr s (k, v) s₁ hread
        have hseparator := separator_skipSeparator (skipSpace s₁)
        have hafter := ws_skipSpace (skipSeparator (skipSpace s₁))
        exact ⟨(k, v) :: l, .cons hkey hequals hspace hvalue (ws_skipSpace s₁) hseparator hafter
          hpairs, rfl⟩

theorem leads_attrBlock (s : List Char) : Leads (Block s) (attrBlock s) := by
  refine (leads_char '[' s).bind fun _ s₁ hopen => ?_
  refine (leads_attrs _ ∅ (skipSpace s₁)).bind fun found s₂ ⟨l, hpairs, hfound⟩ => ?_
  refine ((leads_char ']' s₂).expecting _).bind fun _ rest hclose => ?_
  subst hopen hclose hfound
  exact leads_ok (.brackets (ws_skipSpace s₁) hpairs)

theorem leads_keywordBlock {w : String} {f : Attrs → Statement} (hform : (w, f) ∈ blockForms)
    (s : List Char) : Leads (Stmt s) (mapValue f (keywordBlock w s)) := by
  have hblock : Leads (fun attrs rest => Stmt s (f attrs) rest) (keywordBlock w s) := by
    refine (leads_word w s).bind fun _ s₁ hword => ?_
    refine (leads_attrBlock (skipSpace s₁)).bind fun attrs s₂ hattrs => ?_
    subst hword
    exact leads_ok
      (.block hform (ws_skipSpace s₁) hattrs (ending_skipSemicolon (ws_skipSpace s₂)))
  exact hblock.mapValue fun _ _ h => h

/-! ## Statements -/

theorem leads_chain (most : Nat) (s : List Char) :
    Leads (fun ids rest => Chain ('-' :: '>' :: s) ids rest) (chain most s) := by
  induction most generalizing s with
  | zero => exact leads_error _
  | succ most ih =>
      rw [chain]
      refine ((leads_name (skipSpace s)).expecting _).bind fun id s₁ hid => ?_
      dsimp only
      split
      · next s₂ harrow =>
        have hafter := ws_skipSpace s₁
        rw [dropWord?_eq_some.mp harrow] at hafter
        exact (ih s₂).mapValue fun ids rest hmore => .cons (ws_skipSpace s) hid hafter hmore
      · exact leads_ok (.last (ws_skipSpace s) hid (ws_skipSpace s₁))

/-- A word that opens a block of attributes does so wherever it stands before one. -/
theorem ne_of_keywordBlock {w : String} {s s₁ : List Char} (h : ∀ v, keywordBlock w s ≠ .ok v)
    {attrs : Attrs} {rest : List Char} (hblock : attrBlock (skipSpace s₁) = .ok (attrs, rest)) :
    s ≠ w.toList ++ s₁ := by
  intro hs
  refine h (attrs, skipSemicolon (skipSpace rest)) ?_
  rw [keywordBlock, word_of_toList_append hs]
  change (attrBlock (skipSpace s₁) >>= _) = _
  rw [hblock]
  rfl

theorem leads_declaration {s : List Char}
    (hforms : ∀ e ∈ blockForms, ∀ v, keywordBlock e.1 s ≠ .ok v) :
    Leads (Stmt s) (declaration s) := by
  unfold declaration
  refine (leads_name s).bind fun id s₁ hid => ?_
  have hspace := ws_skipSpace s₁
  dsimp only
  split
  · next s₂ harrow =>
    rw [dropWord?_eq_some.mp harrow] at hspace
    refine (leads_chain _ s₂).bind fun ids s₃ hchain => ?_
    refine (leads_attrBlock s₃).optional.bind fun block s₄ hblock => ?_
    exact leads_ok (.edges hid hspace hchain hblock (ending_skipSemicolon (ws_skipSpace s₄)))
  · split
    · exact leads_error _
    · have hread : Leads (Opt (fun s attrs rest => attrBlock s = .ok (attrs, rest)) (skipSpace s₁))
          (optional (skipSpace s₁) (attrBlock (skipSpace s₁))) := Leads.optional fun _ _ h => h
      refine hread.bind fun block s₂ hblock => ?_
      cases hblock with
      | @present _ attrs hread =>
          have hword := fun e he => ne_of_keywordBlock (hforms e he) hread
          have hattrs := leads_attrBlock _ attrs s₂ hread
          exact leads_ok (.node hid hword hspace hattrs (ending_skipSemicolon (ws_skipSpace s₂)))
      | absent =>
          split
          · next heq => cases heq
          · next s₃ heq =>
            rw [(Prod.mk.inj heq).2] at hspace
            refine ((leads_value (skipSpace s₃)).expecting _).bind fun v s₄ hvalue => ?_
            exact leads_ok (.graphAttr hid hspace (ws_skipSpace s₃) hvalue
              (ending_skipSemicolon (ws_skipSpace s₄)))
          · next heq =>
            rw [← (Prod.mk.inj heq).2]
            exact leads_ok (.bareNode hid (ending_skipSemicolon hspace))

theorem leads_subgraphOpening (s : List Char) :
    Leads (fun _ rest => ∃ s₁ s₂ s₃ id, s = "subgraph".toList ++ s₁ ∧ Ws s₁ s₂ ∧ Opt Id s₂ id s₃ ∧
      Ws s₃ ('\x7b' :: rest)) (subgraphOpening s) := by
  unfold subgraphOpening
  refine (leads_word "subgraph" s).bind fun _ s₁ hword => ?_
  refine (leads_name (skipSpace s₁)).optional.bind fun id s₃ hid => ?_
  intro _ rest hread
  have hopen := ws_skipSpace s₃
  rw [leads_char '\x7b' (skipSpace s₃) _ rest hread] at hopen
  exact ⟨s₁, skipSpace s₁, s₃, id, hword, ws_skipSpace s₁, hid, hopen⟩

/-- What is read between the braces ends with the blanks before the closing one. -/
theorem stmts_skipSpace {s rest : List Char} {sts : List Statement} (h : Stmts s sts rest) :
    Stmts s sts (skipSpace rest) := by
  induction sts generalizing s with
  | nil =>
      cases h with
      | nil hspace => exact .nil (hspace.trans (ws_skipSpace rest))
  | cons st sts ih =>
      cases h with
      | cons hspace hstmt hmore => exact .cons hspace hstmt (ih hmore)

theorem leads_subgraph {body : List Char → Reading (List Statement × List Char)}
    (hbody : ∀ s, Leads (Stmts s) (body s)) (s : List Char) : Leads (Stmt s) (subgraph body s) := by
  unfold subgraph
  refine (leads_subgraphOpening s).bind fun _ s₄ hopening => ?_
  obtain ⟨s₁, s₂, s₃, id, rfl, hspace, hid, hopen⟩ := hopening
  refine (hbody s₄).bind fun inner s₅ hinner => ?_
  refine ((leads_char '\x7d' (skipSpace s₅)).expecting _).bind fun _ s₆ hclose => ?_
  have hinner := stmts_skipSpace hinner
  rw [hclose] at hinner
  exact leads_ok (.subgraph hspace hid hopen hinner (ending_skipSemicolon (ws_skipSpace s₆)))

/-- Each form is tried where those before it have given up. -/
theorem leads_statement {body : List Char → Reading (List Statement × List Char)}
    (hbody : ∀ s, Leads (Stmts s) (body s)) (s : List Char) :
    Leads (Stmt s) (statement body s) := by
  have hform : ∀ w f, (w, f) ∈ blockForms → Leads (Stmt s) (mapValue f (keywordBlock w s)) :=
    fun w f h => leads_keywordBlock h s
  refine (hform "graph" .graphAttrs (.head _)).otherwise fun hgraph => ?_
  refine (hform "node" .nodeDefaults (.tail _ (.head _))).otherwise fun hnode => ?_
  refine (hform "edge" .edgeDefaults (.tail _ (.tail _ (.head _)))).otherwise fun hedge => ?_
  refine (leads_subgraph hbody s).otherwise fun _ => ?_
  refine leads_declaration ?_
  simp only [blockForms, List.forall_mem_cons]
  exact ⟨mapValue_ne_ok hgraph, mapValue_ne_ok hnode, mapValue_ne_ok hedge, nofun⟩

theorem leads_statements (most : Nat) (s : List Char) : Leads (Stmts s) (statements most s) := by
  induction most generalizing s with
  | zero => exact leads_error _
  | succ most ih =>
      rw [statements]
      have hspace := ws_skipSpace s
      split
      · next heq => exact leads_ok (.nil (heq ▸ hspace))
      · next heq => exact leads_ok (.nil (heq ▸ hspace))
      · refine (leads_statement ih _).bind fun first s₁ hfirst => ?_
        exact (ih s₁).mapValue fun sts rest hmore => .cons hspace hfirst hmore

theorem leads_graph (s : List Char) :
    Leads (fun g rest => ∃ rest', Graph s g.1 g.2 rest' ∧ Ws rest' rest) (graph s) := by
  unfold graph
  dsimp only
  split
  · exact leads_error _
  · split
    · exact leads_error _
    · refine ((leads_word "digraph" (skipSpace s)).expecting _).bind fun _ s₁ hword => ?_
      refine (leads_name (skipSpace s₁)).optional.bind fun id s₃ hid => ?_
      refine ((leads_char '\x7b' (skipSpace s₃)).expecting _).bind fun _ s₄ hopen => ?_
      refine (leads_statements _ s₄).bind fun body s₅ hbody => ?_
      refine ((leads_char '\x7d' (skipSpace s₅)).expecting _).bind fun _ rest' hclose => ?_
      have hfront := ws_skipSpace s
      have hbrace := ws_skipSpace s₃
      have hinner := stmts_skipSpace hbody
      rw [hword] at hfront
      rw [hopen] at hbrace
      rw [hclose] at hinner
      refine leads_ok ⟨rest', ?_, ws_skipSpace rest'⟩
      exact .digraph hfront (ws_skipSpace s₁) hid hbrace hinner

end Read

/-! ## Whole texts -/

open Grammar Read

theorem isBlank_of_isSpace {c : Char} (h : isSpace c) : Text.isBlank c := by
  simp only [isSpace, Bool.or_eq_true, beq_iff_eq] at h
  rcases h with ((rfl | rfl) | rfl) | rfl <;> decide

/-- A text that is read is, up to white space at its end, a word of the grammar, and the graph
is the one that the statements of a derivation of this word declare. -/
theorem parse_sound {text : String} {g : Digraph} (h : parse text = .ok g) :
    ∃ word trailing name body, stripComments text.toList = word ++ trailing ∧
      Text.allBlank trailing ∧ Graph (word ++ trailing) name body trailing ∧
      g = ofStatements (lineAt (stripComments text.toList)) name body := by
  rw [parse, parseStripped] at h
  split at h
  · cases h
  · next name body rest hread =>
    split at h
    · next hblank =>
      obtain ⟨trailing, hgraph, spaces, rfl, hspaces⟩ := leads_graph _ (name, body) rest hread
      obtain ⟨word, hword⟩ := hgraph.isSuffix
      refine ⟨word, _, name, body, hword.symm, ?_, ?_, (Except.ok.inj h).symm⟩
      · simp only [Text.allBlank, List.all_append, Bool.and_eq_true] at hblank ⊢
        exact ⟨List.all_eq_true.mpr fun c hc => isBlank_of_isSpace (hspaces c hc), hblank⟩
      · rwa [hword]
    · cases h

/-- A text with names that begin with words of the language, a name that is one, a bare value
that begins with a number and another that begins with a truth value, and comments. -/
def mixedText : String :=
  "digraph g \x7b // first\n node [shape=box, tries=2;] /* then */ a -> \"b c\" -> 1.5
 [x.y=-3; z=truer] subgraphs [k=0.5] subgraph \x7b k = 12x; \x7d node;\n\x7d\n"

/-- What the text declares: a longer word that begins with a keyword is a name, a keyword without
its brackets is a node, and the setting in the block is one of the graph. -/
def mixedGraph : Digraph where
  name := "g"
  attrs := .ofList [("k", .text "12x")]
  nodes := [
    ⟨"subgraphs", .ofList [("shape", .text "box"), ("tries", .integer 2),
      ("k", .real (.ofDecimal false 5 (-1)))], 3⟩,
    ⟨"node", .ofList [("shape", .text "box"), ("tries", .integer 2)], 3⟩]
  edges := [
    ⟨"a", "b c", .ofList [("x.y", .integer (-3)), ("z", .text "truer")], 2⟩,
    ⟨"b c", "1.5", .ofList [("x.y", .integer (-3)), ("z", .text "truer")], 2⟩]

theorem parse_sound_mixedText : parse mixedText = .ok mixedGraph ∧
    ∃ word trailing name body, stripComments mixedText.toList = word ++ trailing ∧
      Text.allBlank trailing ∧ Graph (word ++ trailing) name body trailing ∧
      mixedGraph = ofStatements (lineAt (stripComments mixedText.toList)) name body := by
  have hread : parse mixedText = .ok mixedGraph := by decide +kernel
  exact ⟨hread, parse_sound hread⟩

end Pipewright.Digraph
