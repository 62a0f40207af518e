import Pipewright.Proofs.Digraph.Lines
import Pipewright.Proofs.Digraph.RoundTrip
import Pipewright.Proofs.Digraph.Spacing

/-!
# Reading with and without a blank

A text is read with a blank at some place and without it, side by side. As long as the
blank does not part what would be one token, both readers are always at the same place, or
around the blank (`Near`). So they find the same values and give up at the same time
(`Agree`); only the number of characters that are left differs by one while the blank is
still to come (`shift`).

There is one lemma for each reader, put together in the way the reader is.
-/

namespace Pipewright.Digraph

/-! ## Statements with other places -/

mutual

/-- The statement, with the numbers of the characters that were left changed. -/
def Statement.move (f : Nat → Nat) : Statement → Statement
  | .graphAttrs attrs => .graphAttrs attrs
  | .graphAttr key value => .graphAttr key value
  | .nodeDefaults attrs => .nodeDefaults attrs
  | .edgeDefaults attrs => .edgeDefaults attrs
  | .node left id attrs => .node (f left) id attrs
  | .edges left chain attrs => .edges (f left) chain attrs
  | .subgraph body => .subgraph (moveAll f body)

/-- The statements, with the numbers of the characters that were left changed. -/
def moveAll (f : Nat → Nat) : List Statement → List Statement
  | [] => []
  | st :: rest => st.move f :: moveAll f rest

end

section Move

variable (line : Nat → Nat) (f : Nat → Nat)

/-- A walk that takes from moved statements what another takes from those that were there gives the
same. -/
theorem walk_moveAll {β : Type} {adds : Statement → Attrs}
    {gives gives' : Attrs → Statement → List β} (hadds : ∀ st, adds (st.move f) = adds st)
    (hgives : ∀ defaults st, gives defaults (st.move f) = gives' defaults st) (defaults : Attrs)
    (body : List Statement) :
    walk adds gives defaults (moveAll f body) = walk adds gives' defaults body := by
  fun_induction walk adds gives' defaults body with
  | case1 => rw [moveAll, walk]
  | case2 defaults inner rest ihinner ihrest =>
      rw [moveAll, Statement.move, walk, ihinner, ihrest]
  | case3 defaults st rest hst ih =>
      have hmoved : ∀ inner, st.move f ≠ .subgraph inner := by
        intro inner heq
        cases st with
        | subgraph body => exact hst body rfl
        | _ => simp [Statement.move] at heq
      rw [moveAll, walk_leaf hmoved, hadds, hgives, ih]

theorem nodesOf_moveAll (defaults : Attrs) (body : List Statement) :
    nodesOf line defaults (moveAll f body) = nodesOf (fun left => line (f left)) defaults body := by
  rw [nodesOf_eq_walk, nodesOf_eq_walk]
  refine walk_moveAll f (fun st => ?_) (fun defaults st => ?_) defaults body
  · cases st <;> simp [Statement.move, Statement.forNodes]
  · cases st <;> simp [Statement.move, nodeGiven]

theorem edgesOf_moveAll (defaults : Attrs) (body : List Statement) :
    edgesOf line defaults (moveAll f body) = edgesOf (fun left => line (f left)) defaults body := by
  rw [edgesOf_eq_walk, edgesOf_eq_walk]
  refine walk_moveAll f (fun st => ?_) (fun defaults st => ?_) defaults body
  · cases st <;> simp [Statement.move, Statement.forEdges]
  · cases st <;> simp [Statement.move, edgesGiven]

theorem settingsOf_moveAll (body : List Statement) :
    settingsOf (moveAll f body) = settingsOf body := by
  fun_induction unset body with
  | case1 => rw [moveAll]
  | case2 inner rest ihinner ihrest =>
      rw [moveAll, Statement.move, settingsOf, settingsOf, ihinner, ihrest]
  | case3 st rest hst ih =>
      cases st with
      | subgraph inner => exact absurd rfl (hst inner)
      | _ => simp [moveAll, Statement.move, settingsOf, ih]

/-- Moved statements declare what they declared, on the lines that the new numbers stand for. -/
theorem ofStatements_moveAll (name : String) (body : List Statement) :
    ofStatements line name (moveAll f body)
      = ofStatements (fun left => line (f left)) name body := by
  rw [ofStatements, ofStatements, settingsOf_moveAll, nodesOf_moveAll, edgesOf_moveAll]

end Move

namespace Read

variable {α β γ δ : Type}

/-! ## Closed texts -/

section Closed

variable {p rest : List Char}

theorem isClosed_append {w : List Char} (hw : ∀ c ∈ w, isPlain c) (h : IsClosed (w ++ rest)) :
    IsClosed rest := by
  induction w with
  | nil => exact h
  | cons c w ih =>
      rw [List.forall_mem_cons] at hw
      have hquote : c ≠ '"' := by
        rintro rfl
        cases hw.1
      rw [List.cons_append, IsClosed, endsOutside_cons hquote] at h
      exact ih hw.2 h

theorem isPlain_of_isDigit {c : Char} (h : c.isDigit) : isPlain c :=
  isPlain_of_isWordChar (by simp [isWordChar, Char.isAlphanum, h])

theorem isPlain_of_isSign {w : List Char} (h : Grammar.IsSign w) : ∀ c ∈ w, isPlain c := by
  rcases h with rfl | rfl | rfl <;> exact List.all_eq_true.mp rfl

theorem isPlain_of_isDigits {w : List Char} (h : Grammar.IsDigits w) : ∀ c ∈ w, isPlain c :=
  fun c hc => isPlain_of_isDigit (h.2 c hc)

theorem isPlain_of_isFraction {w : List Char} (h : Grammar.IsFraction w) : ∀ c ∈ w, isPlain c := by
  rcases h with rfl | ⟨ds, rfl, hds⟩
  · simp
  · exact List.forall_mem_cons.mpr ⟨rfl, isPlain_of_isDigits hds⟩

theorem isPlain_of_isDottedName {w : List Char} (h : isDottedName w) : ∀ c ∈ w, isPlain c := by
  cases w with
  | nil => simp
  | cons c cs =>
      rw [isDottedName_cons, Bool.and_eq_true] at h
      refine List.forall_mem_cons.mpr ⟨?_, forall_isPlain_of_isKeyTail h.2⟩
      exact isPlain_of_isWordChar (isWordChar_of_isWordStart h.1)

theorem isPlain_of_isBareValueChar {c : Char} (h : isBareValueChar c) : isPlain c := by
  rcases Bool.or_eq_true_iff.mp h with hword | hpoint
  · exact isPlain_of_isWordChar hword
  · rw [beq_iff_eq.mp hpoint]
    rfl

theorem isPlain_of_typed {w : List Char} {v : AttrValue} (h : Grammar.Typed w v rest) :
    ∀ c ∈ w, isPlain c := by
  cases h with
  | truth b => cases b <;> exact List.all_eq_true.mp rfl
  | real hsign hwhole hpart =>
      refine List.forall_mem_append.mpr
        ⟨List.forall_mem_append.mpr ⟨isPlain_of_isSign hsign, ?_⟩, ?_⟩
      · exact isPlain_of_isDigits hwhole
      · exact List.forall_mem_cons.mpr ⟨rfl, isPlain_of_isDigits hpart⟩
  | integer hsign hwhole =>
      exact List.forall_mem_append.mpr ⟨isPlain_of_isSign hsign, isPlain_of_isDigits hwhole⟩

theorem endsOutside_of_quoted {s cs : List Char} (h : Grammar.Quoted s cs rest)
    (hs : endsOutside true s) : IsClosed rest := by
  induction h with
  | close rest => exact hs
  | escape c h ih => exact ih hs
  | plain hquote hbackslash h ih =>
      rw [endsOutside_quoted hquote hbackslash] at hs
      exact ih hs

theorem isClosed_of_id {id : String} (h : Grammar.Id p id rest) (hp : IsClosed p) :
    IsClosed rest := by
  cases h with
  | quoted h => exact endsOutside_of_quoted h hp
  | bare hstart hword =>
      refine isClosed_append (List.forall_mem_cons.mpr ⟨?_, fun d hd => ?_⟩) hp
      · exact isPlain_of_isWordChar (isWordChar_of_isWordStart hstart)
      · exact isPlain_of_isWordChar (hword d hd)
  | numeral hsign hwhole hpart =>
      refine isClosed_append
        (List.forall_mem_append.mpr ⟨List.forall_mem_append.mpr ⟨?_, ?_⟩, ?_⟩) hp
      · exact isPlain_of_isSign hsign
      · exact isPlain_of_isDigits hwhole
      · exact isPlain_of_isFraction hpart

theorem isClosed_of_key {k : String} (h : Grammar.Key p k rest) (hp : IsClosed p) :
    IsClosed rest := by
  obtain ⟨h, -⟩ := h
  exact isClosed_append (isPlain_of_isDottedName h) hp

theorem isClosed_of_value {v : AttrValue} (h : Grammar.Value p v rest) (hp : IsClosed p) :
    IsClosed rest := by
  cases h with
  | quoted h => exact endsOutside_of_quoted h hp
  | typed h => exact isClosed_append (isPlain_of_typed h) hp
  | bare _ hchars => exact isClosed_append (fun c hc => isPlain_of_isBareValueChar (hchars c hc)) hp

theorem isPlain_of_isSpace {c : Char} (h : isSpace c) : isPlain c := by
  simp only [isSpace, Bool.or_eq_true, beq_iff_eq] at h
  rcases h with ((rfl | rfl) | rfl) | rfl <;> rfl

theorem isClosed_skipSpace (hp : IsClosed p) : IsClosed (skipSpace p) := by
  have hsplit := List.takeWhile_append_dropWhile (p := isSpace) (l := p)
  rw [← hsplit] at hp
  exact isClosed_append (fun c hc => isPlain_of_isSpace (List.mem_takeWhile_imp hc)) hp

end Closed

/-! ## Places -/

/-- The two texts are what is left at the same place, where a token may begin: before the blank in
front of `back`, or after it. -/
inductive Level (back : List Char) : List Char → List Char → Prop
  | before {p : List Char} (hne : p ≠ []) (hclosed : IsClosed p) (hapart : Apart p back) :
      Level back (p ++ back) (p ++ ' ' :: back)
  | after {s : List Char} (h : s <:+ back) : Level back s s

/-- The two texts are what is left at the same place, or around the blank. -/
inductive Near (back : List Char) : List Char → List Char → Prop
  | level {s t : List Char} (h : Level back s t) : Near back s t
  | blank : Near back back (' ' :: back)

section Places

variable {back s t : List Char}

theorem near_append {p : List Char} (hclosed : IsClosed p) (hapart : Apart p back) :
    Near back (p ++ back) (p ++ ' ' :: back) := by
  cases p with
  | nil => exact .blank
  | cons c p => exact .level (.before (List.cons_ne_nil c p) hclosed hapart)

theorem Near.skipSpace (h : Near back s t) : Level back (skipSpace s) (skipSpace t) := by
  have hback : Read.skipSpace back <:+ back := skipSpace_suffix back
  cases h with
  | blank => exact .after hback
  | level h =>
      cases h with
      | after h => exact .after ((skipSpace_suffix s).trans h)
      | @before p hne hclosed hapart =>
          by_cases hall : ∀ c ∈ p, isSpace c
          · rw [skipSpace_append hall, skipSpace_append hall]
            exact .after hback
          · have hskip : ∀ x, Read.skipSpace (p ++ x) = Read.skipSpace p ++ x := by
              intro x
              have hne' : p.dropWhile isSpace ≠ [] := fun heq =>
                hall (List.dropWhile_eq_nil_iff.mp heq)
              rw [Read.skipSpace, List.dropWhile_append, if_neg (by simpa using hne')]
              rfl
            rw [hskip, hskip]
            refine .before (fun heq => hall (List.dropWhile_eq_nil_iff.mp heq)) ?_ ?_
            · exact isClosed_skipSpace hclosed
            · exact hapart.of_suffix (skipSpace_suffix p)

theorem Level.uncons (h : Level back s t) : (s = [] ∧ t = []) ∨
    ∃ c s' t', s = c :: s' ∧ t = c :: t' ∧ (isPlain c → Near back s' t') := by
  cases h with
  | after h =>
      cases s with
      | nil => exact .inl ⟨rfl, rfl⟩
      | cons c s =>
          exact .inr ⟨c, s, s, rfl, rfl, fun _ => .level (.after ((List.suffix_cons c s).trans h))⟩
  | @before p hne hclosed hapart =>
      obtain ⟨c, p, rfl⟩ := List.exists_cons_of_ne_nil hne
      refine .inr ⟨c, p ++ back, p ++ ' ' :: back, rfl, rfl, fun hc => ?_⟩
      refine near_append (isClosed_append (w := [c]) (by simpa using hc) hclosed) ?_
      exact hapart.of_suffix (List.suffix_cons c p)

theorem Level.eq_nil_iff (h : Level back s t) : s = [] ↔ t = [] := by
  rcases h.uncons with ⟨rfl, rfl⟩ | ⟨c, s', t', rfl, rfl, -⟩ <;> simp

theorem Level.skipSemicolon (h : Level back s t) :
    Near back (skipSemicolon s) (skipSemicolon t) := by
  rcases h.uncons with ⟨rfl, rfl⟩ | ⟨c, s', t', rfl, rfl, hrest⟩
  · exact .level h
  · by_cases hc : c = ';'
    · subst hc
      exact hrest rfl
    · have hother : ∀ rest, Read.skipSemicolon (c :: rest) = c :: rest := by
        intro rest
        unfold Read.skipSemicolon
        split
        · next heq => exact absurd (List.cons.inj heq).1 hc
        · rfl
      rw [hother, hother]
      exact .level h

theorem Level.skipSeparator (h : Level back s t) :
    Near back (skipSeparator s) (skipSeparator t) := by
  rcases h.uncons with ⟨rfl, rfl⟩ | ⟨c, s', t', rfl, rfl, hrest⟩
  · exact .level h
  · by_cases hc : c = ',' ∨ c = ';'
    · rcases hc with rfl | rfl <;> exact hrest rfl
    · have hother : ∀ rest, Read.skipSeparator (c :: rest) = c :: rest := by
        intro rest
        unfold Read.skipSeparator
        split
        · next heq => exact absurd (.inl (List.cons.inj heq).1) hc
        · next heq => exact absurd (.inr (List.cons.inj heq).1) hc
        · rfl
      rw [hother, hother]
      exact .level h

theorem Near.skipBetween (h : Near back s t) : Level back (skipBetween s) (skipBetween t) :=
  h.skipSpace.skipSeparator.skipSpace

theorem Near.skipEnding (h : Near back s t) :
    Near back (Read.skipSemicolon (Read.skipSpace s)) (Read.skipSemicolon (Read.skipSpace t)) :=
  h.skipSpace.skipSemicolon

theorem Level.dropWord? (h : Level back s t) {w : List Char} (hw : w.IsChain fun c d => joins c d)
    (hplain : w.all isPlain) :
    (dropWord? w s = none ∧ dropWord? w t = none) ∨
    ∃ s' t', dropWord? w s = some s' ∧ dropWord? w t = some t' ∧ Near back s' t' := by
  cases h with
  | after h =>
      cases hdrop : Read.dropWord? w s with
      | none => exact .inl ⟨rfl, rfl⟩
      | some s' =>
          exact .inr ⟨s', s', rfl, rfl, .level (.after ((dropWord?_suffix hdrop).1.trans h))⟩
  | @before p hne hclosed hapart =>
      rw [dropWord?_append hw hne hapart, dropWord?_append hw hne (apart_of_isSpace rfl p back)]
      cases hdrop : Read.dropWord? w p with
      | none => exact .inl ⟨rfl, rfl⟩
      | some q =>
          obtain rfl := dropWord?_eq_some.mp hdrop
          refine .inr ⟨q ++ back, q ++ ' ' :: back, rfl, rfl, near_append ?_ ?_⟩
          · exact isClosed_append (List.all_eq_true.mp hplain) hclosed
          · exact hapart.of_suffix (List.suffix_append w q)

end Places

/-! ## Readings that agree -/

/-- Both readings succeed at places that are related, with the value of the second one found from
that of the first; or both give up, for good or not. -/
inductive Agree (at' : List Char → List Char → Prop) (f : α → β) :
    Reading (α × List Char) → Reading (β × List Char) → Prop
  | ok {a : α} {s t : List Char} (h : at' s t) : Agree at' f (.ok (a, s)) (.ok (f a, t))
  | error {e e' : Refusal} (h : e.final = e'.final) : Agree at' f (.error e) (.error e')

section Agree

variable {at' at'' : List Char → List Char → Prop} {f : α → β} {g : γ → δ}
  {r : Reading (α × List Char)} {r' : Reading (β × List Char)}

theorem Agree.of_eq {a : α} {b : β} {s t : List Char} (hb : b = f a) (h : at' s t) :
    Agree at' f (.ok (a, s)) (.ok (b, t)) :=
  hb ▸ .ok h

theorem Agree.bind {k : α × List Char → Reading (γ × List Char)}
    {k' : β × List Char → Reading (δ × List Char)} (h : Agree at' f r r')
    (hk : ∀ a s t, r = .ok (a, s) → r' = .ok (f a, t) → at' s t →
      Agree at'' g (k (a, s)) (k' (f a, t))) : Agree at'' g (r >>= k) (r' >>= k') := by
  cases h with
  | ok h => exact hk _ _ _ rfl rfl h
  | error h => exact .error h

theorem Agree.otherwise {q : Unit → Reading (α × List Char)} {q' : Unit → Reading (β × List Char)}
    (h : Agree at' f r r') (hq : Agree at' f (q ()) (q' ())) :
    Agree at' f (otherwise r q) (otherwise r' q') := by
  cases h with
  | ok h => exact .ok h
  | error h =>
      unfold Digraph.otherwise
      dsimp only
      rw [← h]
      split
      · exact .error h
      · exact hq

theorem Agree.mapValue {u : α → γ} {v : β → δ} (h : Agree at' f r r')
    (huv : ∀ a, g (u a) = v (f a)) : Agree at' g (mapValue u r) (mapValue v r') := by
  cases h with
  | @ok a s t h =>
      have hok := Agree.ok (f := g) (a := u a) h
      rw [huv] at hok
      exact hok
  | error h => exact .error h

theorem Agree.expecting (h : Agree at' f r r') (e : Expectation) :
    Agree at' f (expecting e r) (expecting e r') := by
  cases h with
  | ok h => exact .ok h
  | error h => exact .error h

theorem Agree.optional {s t : List Char} (h : Agree at' f r r') (hst : at' s t) :
    Agree at' (Option.map f) (optional s r) (optional t r') := by
  cases h with
  | ok h => exact .ok (a := some _) h
  | error h =>
      unfold Digraph.optional
      dsimp only
      rw [← h]
      split
      · exact .error h
      · exact .ok (a := none) hst

end Agree

/-! ## Tokens -/

section Tokens

variable {back s t : List Char}

theorem Level.agree {R : List Char → Reading (α × List Char)} (h : Level back s t)
    (hfollowed : ∀ {p x}, p ≠ [] → IsClosed p → Apart p x → R (p ++ x) = followed x (R p))
    (hclosed : ∀ {p}, IsClosed p → Leads (fun _ rest => IsClosed rest) (R p))
    (hwithin : ∀ s, Within s (R s)) : Agree (Near back) id (R s) (R t) := by
  cases h with
  | after h =>
      have hsuffix := (hwithin s).mono h
      cases hread : R s with
      | error e => exact .error rfl
      | ok v =>
          rw [hread] at hsuffix
          exact .ok (.level (.after hsuffix))
  | @before p hne hp hapart =>
      rw [hfollowed hne hp hapart, hfollowed hne hp (apart_of_isSpace rfl p back)]
      have hsuffix := hwithin p
      cases hread : R p with
      | error e => exact .error rfl
      | ok v =>
          rw [hread] at hsuffix
          exact .ok (near_append (hclosed hp v.1 v.2 hread) (hapart.of_suffix hsuffix))

theorem agree_name (h : Level back s t) : Agree (Near back) id (name s) (name t) :=
  h.agree followed_name (fun hp _ _ hread => isClosed_of_id (leads_name _ _ _ hread) hp) name_within

theorem agree_key (h : Level back s t) : Agree (Near back) id (key s) (key t) :=
  h.agree (fun hne _ => followed_key hne)
    (fun hp _ _ hread => isClosed_of_key (leads_key _ _ _ hread) hp) key_within

theorem agree_value (h : Level back s t) : Agree (Near back) id (value s) (value t) :=
  h.agree followed_value (fun hp _ _ hread => isClosed_of_value (leads_value _ _ _ hread) hp)
    value_within

theorem agree_char {c : Char} (hc : isPlain c) (h : Level back s t) :
    Agree (Near back) id (char c s) (char c t) := by
  refine h.agree (fun hne _ _ => followed_char c hne) (fun {p} hp a rest hread => ?_)
    (char_within c)
  obtain rfl := leads_char c p a rest hread
  exact isClosed_append (w := [c]) (by simpa using hc) hp

theorem agree_word {w : String} (hw : w.toList.IsChain fun c d => joins c d)
    (hplain : w.toList.all isPlain) (h : Level back s t) :
    Agree (Near back) id (word w s) (word w t) := by
  refine h.agree (fun hne _ => followed_word hw hne) (fun {p} hp a rest hread => ?_) (word_within w)
  obtain rfl := leads_word w p a rest hread
  exact isClosed_append (List.all_eq_true.mp hplain) hp

end Tokens

/-! ## Attributes -/

section Attributes

variable {back s t : List Char}

theorem agree_attr (h : Level back s t) : Agree (Near back) id (attr s) (attr t) := by
  unfold attr
  refine (agree_key h).bind fun k s t _ _ h => ?_
  refine (agree_char rfl h.skipSpace).bind fun _ s t _ _ h => ?_
  refine ((agree_value h.skipSpace).expecting _).bind fun v s t _ _ h => ?_
  exact .ok h

theorem attrs_nil (most : Nat) (seen : Attrs) : attrs most seen [] = .ok (seen, []) := by
  cases most <;> rfl

theorem agree_attrs {n m : Nat} (h : Level back s t) (hn : s.length ≤ n) (hm : t.length ≤ m)
    (seen : Attrs) : Agree (Level back) id (attrs n seen s) (attrs m seen t) := by
  induction n generalizing m s t seen with
  | zero =>
      obtain rfl : s = [] := List.length_eq_zero_iff.mp (by omega)
      obtain rfl := h.eq_nil_iff.mp rfl
      rw [attrs_nil, attrs_nil]
      exact .ok h
  | succ n ih =>
      cases m with
      | zero =>
          obtain rfl : t = [] := List.length_eq_zero_iff.mp (by omega)
          obtain rfl := h.eq_nil_iff.mpr rfl
          rw [attrs_nil, attrs_nil]
          exact .ok h
      | succ m =>
          have hattr := agree_attr h
          have hs := attr_advances s
          have ht := attr_advances t
          rw [attrs, attrs]
          generalize attr s = r at hattr hs ⊢
          generalize attr t = r' at hattr ht ⊢
          cases hattr with
          | @ok a s' t' hrest =>
              have hs' := (skipBetween_suffix s').length_le
              have ht' := (skipBetween_suffix t').length_le
              simp only [Advances] at hs ht
              exact ih hrest.skipBetween (by omega) (by omega) _
          | error hfinal =>
              dsimp only
              rw [← hfinal]
              split
              · exact .error hfinal
              · exact .ok h

theorem agree_attrBlock (h : Level back s t) :
    Agree (Near back) id (attrBlock s) (attrBlock t) := by
  unfold attrBlock
  refine (agree_char rfl h).bind fun _ s t _ _ h => ?_
  have hs := (skipSpace_suffix s).length_le
  have ht := (skipSpace_suffix t).length_le
  refine (agree_attrs h.skipSpace hs ht ∅).bind fun found s t _ _ h => ?_
  refine ((agree_char rfl h).expecting _).bind fun _ s t _ _ h => ?_
  exact .ok h

theorem agree_keywordBlock {w : String} (hw : w.toList.IsChain fun c d => joins c d)
    (hplain : w.toList.all isPlain) (h : Level back s t) :
    Agree (Near back) id (keywordBlock w s) (keywordBlock w t) := by
  unfold keywordBlock
  refine (agree_word hw hplain h).bind fun _ s t _ _ h => ?_
  refine (agree_attrBlock h.skipSpace).bind fun block s t _ _ h => ?_
  exact .ok h.skipEnding

end Attributes

/-! ## Statements -/

/-- How many characters are left with the blank, where so many are left without it. -/
def shift (back : List Char) (left : Nat) : Nat := if left ≤ back.length then left else left + 1

section Statements

variable {back s t : List Char}

theorem Level.length (h : Level back s t) : t.length = shift back s.length := by
  cases h with
  | after h => rw [shift, if_pos h.length_le]
  | @before p hne =>
      have hpos := List.length_pos_iff.mpr hne
      rw [shift, if_neg (by rw [List.length_append]; omega)]
      simp only [List.length_append, List.length_cons]
      omega

/-- The arrow of an edge is there in both texts, or in neither. -/
theorem Level.dropArrow (h : Level back s t) :
    (Read.dropWord? ['-', '>'] s = none ∧ Read.dropWord? ['-', '>'] t = none) ∨
    ∃ s' t', Read.dropWord? ['-', '>'] s = some s' ∧ Read.dropWord? ['-', '>'] t = some t' ∧
      Near back s' t' :=
  h.dropWord? (by decide) (by decide)

theorem agree_chain {n m : Nat} (h : Near back s t) (hn : s.length < n) (hm : t.length < m) :
    Agree (Level back) id (chain n s) (chain m t) := by
  induction n generalizing m s t with
  | zero => omega
  | succ n ih =>
      obtain ⟨m, rfl⟩ := Nat.exists_eq_add_of_le' (Nat.one_le_of_lt hm)
      rw [chain, chain]
      have hs := (skipSpace_suffix s).length_le
      have ht := (skipSpace_suffix t).length_le
      refine ((agree_name h.skipSpace).expecting _).bind fun id s₁ t₁ hread hread' h => ?_
      have hadvances := (name_advances (skipSpace s)).expecting (e := .edgeTarget)
      have hadvances' := (name_advances (skipSpace t)).expecting (e := .edgeTarget)
      rw [hread] at hadvances
      rw [hread'] at hadvances'
      simp only [Advances] at hadvances hadvances'
      have hs₁ := (skipSpace_suffix s₁).length_le
      have ht₁ := (skipSpace_suffix t₁).length_le
      dsimp only
      rcases h.skipSpace.dropArrow with ⟨hnone, hnone'⟩ | ⟨s₂, t₂, hsome, hsome', h₂⟩
      · rw [hnone, hnone']
        exact .ok h.skipSpace
      · rw [hsome, hsome']
        have hs₂ := (dropWord?_suffix hsome).1.length_le
        have ht₂ := (dropWord?_suffix hsome').1.length_le
        exact (ih h₂ (by omega) (by omega)).mapValue fun _ => rfl

theorem agree_declaration (h : Level back s t) :
    Agree (Near back) (Statement.move (shift back)) (declaration s) (declaration t) := by
  have hlength := h.length
  unfold declaration
  dsimp only
  rw [hlength]
  generalize s.length = left
  refine (agree_name h).bind fun id s₁ t₁ _ _ h => ?_
  have h := h.skipSpace
  dsimp only
  generalize skipSpace s₁ = s₁ at h ⊢
  generalize skipSpace t₁ = t₁ at h ⊢
  rcases h.dropArrow with ⟨hnone, hnone'⟩ | ⟨s₂, t₂, hsome, hsome', h₂⟩
  · rw [hnone, hnone']
    have hdashes := h.dropWord? (w := ['-', '-']) (by decide) (by decide)
    rcases hdashes with ⟨hnone, hnone'⟩ | ⟨s₂, t₂, hsome, hsome', -⟩
    · rw [hnone, hnone']
      have hblock := agree_attrBlock h
      generalize attrBlock s₁ = r at hblock ⊢
      generalize attrBlock t₁ = r' at hblock ⊢
      cases hblock with
      | ok h => exact .of_eq (by simp [Statement.move]) h.skipEnding
      | @error e e' hfinal =>
          obtain ⟨rest, expected, final⟩ := e
          obtain ⟨rest', expected', final'⟩ := e'
          obtain rfl : final = final' := hfinal
          cases final with
          | true => exact .error rfl
          | false =>
              -- No block was there, and the readers are still where it would have begun.
              rcases h.uncons with ⟨rfl, rfl⟩ | ⟨c, s₂, t₂, rfl, rfl, hrest⟩
              · exact .of_eq (by simp [Statement.move]) h.skipSemicolon
              · by_cases hc : c = '='
                · subst hc
                  refine ((agree_value (hrest rfl).skipSpace).expecting _).bind fun v s t _
                    _ h => ?_
                  exact .of_eq (by simp [Statement.move]) h.skipEnding
                · simp only [optional, Bool.false_eq_true, if_false, bind, Except.bind]
                  have hother : ∀ {rest more : List Char},
                      (none, c :: rest) ≠ ((none : Option Attrs), '=' :: more) :=
                    fun heq => hc (List.cons.inj (Prod.mk.inj heq).2).1
                  split
                  · next heq => cases (Prod.mk.inj heq).1
                  · next heq => exact absurd heq hother
                  · next heq =>
                    obtain ⟨-, rfl⟩ := Prod.mk.inj heq
                    split
                    · next heq' => cases (Prod.mk.inj heq').1
                    · next heq' => exact absurd heq' hother
                    · next heq' =>
                      obtain ⟨-, rfl⟩ := Prod.mk.inj heq'
                      exact .of_eq (by simp [Statement.move]) h.skipSemicolon
    · rw [hsome, hsome']
      exact .error rfl
  · rw [hsome, hsome']
    refine (agree_chain h₂ (Nat.lt_succ_self _) (Nat.lt_succ_self _)).bind fun ids s t _ _ h => ?_
    refine ((agree_attrBlock h).optional (.level h)).bind fun block s t _ _ h => ?_
    exact .of_eq (by simp [Statement.move]) h.skipEnding

theorem agree_subgraphOpening (h : Level back s t) :
    Agree (Near back) id (subgraphOpening s) (subgraphOpening t) := by
  unfold subgraphOpening
  refine (agree_word (by decide) (by decide) h).bind fun _ s t _ _ h => ?_
  have h := h.skipSpace
  refine ((agree_name h).optional (.level h)).bind fun _ s t _ _ h => ?_
  exact agree_char rfl h.skipSpace

section Blocks

variable {body body' : List Char → Reading (List Statement × List Char)}

theorem agree_subgraph (hbody : ∀ {s' t'}, Near back s' t' → s'.length < s.length →
      t'.length < t.length → Agree (Level back) (moveAll (shift back)) (body s') (body' t'))
    (h : Level back s t) :
    Agree (Near back) (Statement.move (shift back)) (subgraph body s) (subgraph body' t) := by
  unfold subgraph
  have hs := subgraphOpening_advances s
  have ht := subgraphOpening_advances t
  refine (agree_subgraphOpening h).bind fun _ s₁ t₁ hread hread' h => ?_
  rw [hread] at hs
  rw [hread'] at ht
  refine (hbody h hs ht).bind fun inner s t _ _ h => ?_
  refine ((agree_char rfl (Near.level h).skipSpace).expecting _).bind fun _ s t _ _ h => ?_
  exact .of_eq (by simp [Statement.move]) h.skipEnding

theorem agree_statement (hbody : ∀ {s' t'}, Near back s' t' → s'.length < s.length →
      t'.length < t.length → Agree (Level back) (moveAll (shift back)) (body s') (body' t'))
    (h : Level back s t) :
    Agree (Near back) (Statement.move (shift back)) (statement body s) (statement body' t) := by
  unfold statement
  refine Agree.otherwise ?_ <| Agree.otherwise ?_ <| Agree.otherwise ?_ <|
    (agree_subgraph hbody h).otherwise (agree_declaration h)
  · exact (agree_keywordBlock (by decide) (by decide) h).mapValue fun _ => by simp [Statement.move]
  · exact (agree_keywordBlock (by decide) (by decide) h).mapValue fun _ => by simp [Statement.move]
  · exact (agree_keywordBlock (by decide) (by decide) h).mapValue fun _ => by simp [Statement.move]

end Blocks

theorem agree_statements {n m : Nat} (h : Near back s t) (hn : s.length < n) (hm : t.length < m) :
    Agree (Level back) (moveAll (shift back)) (statements n s) (statements m t) := by
  induction n generalizing m s t with
  | zero => omega
  | succ n ih =>
      obtain ⟨m, rfl⟩ := Nat.exists_eq_add_of_le' (Nat.one_le_of_lt hm)
      have hs := (skipSpace_suffix s).length_le
      have ht := (skipSpace_suffix t).length_le
      have h := h.skipSpace
      rw [statements, statements]
      generalize skipSpace s = s₁ at h hs ⊢
      generalize skipSpace t = t₁ at h ht ⊢
      have hcons : Agree (Level back) (moveAll (shift back))
          (statement (statements n) s₁ >>= fun r => mapValue (r.1 :: ·) (statements n r.2))
          (statement (statements m) t₁ >>= fun r => mapValue (r.1 :: ·) (statements m r.2)) := by
        refine (agree_statement (fun h hs' ht' => ih h (by omega) (by omega)) h).bind
          fun first s₂ t₂ hread hread' h => ?_
        have hadvances := statement_advances (statements_within n) s₁
        have hadvances' := statement_advances (statements_within m) t₁
        rw [hread] at hadvances
        rw [hread'] at hadvances'
        simp only [Advances] at hadvances hadvances'
        exact (ih h (by omega) (by omega)).mapValue fun _ => rfl
      rcases h.uncons with ⟨rfl, rfl⟩ | ⟨c, s₂, t₂, rfl, rfl, -⟩
      · exact .of_eq rfl h
      · by_cases hc : c = '\x7d'
        · subst hc
          exact .of_eq rfl h
        · split
          · next heq => cases heq
          · next heq => exact absurd (List.cons.inj heq).1 hc
          · split
            · next heq => cases heq
            · next heq => exact absurd (List.cons.inj heq).1 hc
            · exact hcons

theorem agree_graph (h : Near back s t) :
    Agree (Level back) (fun g : String × List Statement => (g.1, moveAll (shift back) g.2))
      (graph s) (graph t) := by
  have h := h.skipSpace
  unfold graph
  dsimp only
  generalize skipSpace s = s at h ⊢
  generalize skipSpace t = t at h ⊢
  have hkeyword : ∀ {w : String}, (w.toList.IsChain fun c d => joins c d) →
      w.toList.all isPlain →
      (Read.dropWord? w.toList s).isSome = (Read.dropWord? w.toList t).isSome := by
    intro w hw hplain
    rcases h.dropWord? hw hplain with ⟨hs, ht⟩ | ⟨s', t', hs, ht, -⟩ <;> rw [hs, ht]
    rfl
  rw [hkeyword (by decide) (by decide), hkeyword (by decide) (by decide)]
  split
  · exact .error rfl
  · split
    · exact .error rfl
    · refine ((agree_word (by decide) (by decide) h).expecting _).bind fun _ s t _ _ h => ?_
      have h := h.skipSpace
      refine ((agree_name h).optional (.level h)).bind fun id s t _ _ h => ?_
      refine ((agree_char rfl h.skipSpace).expecting _).bind fun _ s t _ _ h => ?_
      refine (agree_statements h (Nat.lt_succ_self _) (Nat.lt_succ_self _)).bind
        fun body s t _ _ h => ?_
      refine ((agree_char rfl (Near.level h).skipSpace).expecting _).bind fun _ s t _ _ h => ?_
      exact .of_eq (by simp) h.skipSpace

end Statements

end Read

/-! ## Lines -/

theorem lineAt_shift (p back : List Char) (left : Nat) :
    lineAt (p ++ ' ' :: back) (Read.shift back left) = lineAt (p ++ back) left := by
  rw [lineAt, lineAt, Read.shift, List.length_append, List.length_append, List.length_cons]
  split
  · have hafter : p.length + back.length - left = p.length + (back.length - left) := by omega
    have hafter' : p.length + (back.length + 1) - left = p.length + (back.length - left + 1) := by
      omega
    rw [hafter, hafter', List.take_length_add_append, List.take_length_add_append,
      List.take_succ_cons, List.count_append, List.count_append, List.count_cons_of_ne (by decide)]
  · have hbefore : p.length + (back.length + 1) - (left + 1) = p.length + back.length - left := by
      omega
    rw [hbefore, List.take_append_of_le_length (by omega), List.take_append_of_le_length (by omega)]

theorem allBlank_level {back s t : List Char} (h : Read.Level back s t) :
    Text.allBlank s = Text.allBlank t := by
  cases h with
  | after h => rfl
  | @before p =>
      have hblank : Text.isBlank ' ' = true := by decide
      simp [Text.allBlank, hblank]

/-- A blank that parts no token changes nothing: the text is a graph file with it just if it is one
without it, and the graph is the same. -/
theorem parseStripped_blank {p back : List Char} (hclosed : Read.IsClosed p)
    (hapart : Read.Apart p back) (g : Digraph) :
    parseStripped (p ++ back) = .ok g ↔ parseStripped (p ++ ' ' :: back) = .ok g := by
  have hgraph := Read.agree_graph (Read.near_append hclosed hapart)
  rw [parseStripped, parseStripped]
  generalize Read.graph (p ++ back) = r at hgraph ⊢
  generalize Read.graph (p ++ ' ' :: back) = r' at hgraph ⊢
  cases hgraph with
  | error h => simp
  | @ok a s t h =>
      have hlines : ofStatements (lineAt (p ++ ' ' :: back)) a.1 (moveAll (Read.shift back) a.2)
          = ofStatements (lineAt (p ++ back)) a.1 a.2 := by
        rw [ofStatements_moveAll, funext fun left => lineAt_shift p back left]
      dsimp only
      rw [allBlank_level h, hlines]
      split <;> simp

end Pipewright.Digraph
