import Mathlib.Data.List.NodupEquivFin
import Pipewright.Digraph.Reader
import Pipewright.Proofs.Digraph.Settings

/-!
# Remainders and lines

Every reader leaves an end of the text that it was given, so the number of characters that remain
tells the line.
-/

/-!
## What readers leave

Every reader of a graph file leaves an end of the text it was given, and when it
gives up, the place where it does is such an end as well (`graph_within`). So the
number of characters that remain is enough to find the place in the text. A
statement that is read takes something (`statement_advances`).

There is one lemma for each reader, put together in the way the reader is.
-/

namespace Pipewright.Digraph.Read

theorem skipEnding_suffix (s : List Char) : skipSemicolon (skipSpace s) <:+ s :=
  (skipSemicolon_suffix _).trans (skipSpace_suffix s)

theorem char_skipSpace_within (c : Char) (s : List Char) : Within s (char c (skipSpace s)) :=
  (char_within c _).mono (skipSpace_suffix s)

theorem attrs_within (most : Nat) (seen : Attrs) (s : List Char) :
    Within s (attrs most seen s) := by
  induction most generalizing seen s with
  | zero => exact List.suffix_refl s
  | succ most ih =>
      have hattr := attr_within s
      rw [attrs]
      rcases hread : attr s with f | ⟨⟨k, v⟩, rest⟩ <;> rw [hread] at hattr
      · dsimp only
        split
        · exact hattr
        · exact List.suffix_refl s
      · exact (ih _ _).mono ((skipBetween_suffix rest).trans hattr)

theorem attrBlock_within (s : List Char) : Within s (attrBlock s) := by
  unfold attrBlock
  refine Within.bind (char_within '[' s) fun _ rest _ => ?_
  refine Within.bind ((attrs_within ..).mono (skipSpace_suffix rest)) fun _ rest _ => ?_
  exact Within.bind (char_within ']' rest).expecting fun _ rest _ => List.suffix_refl rest

theorem keywordBlock_within (w : String) (s : List Char) : Within s (keywordBlock w s) := by
  unfold keywordBlock
  refine Within.bind (word_within w s) fun _ rest _ => ?_
  refine Within.bind ((attrBlock_within _).mono (skipSpace_suffix rest)) fun _ rest _ => ?_
  exact skipEnding_suffix rest

theorem keywordBlock_advances {w : String} (hw : w.toList ≠ []) (s : List Char) :
    Advances s (keywordBlock w s) := by
  unfold keywordBlock
  refine Advances.bind (word_advances hw s) fun _ rest _ => ?_
  refine Within.bind ((attrBlock_within _).mono (skipSpace_suffix rest)) fun _ rest _ => ?_
  exact skipEnding_suffix rest

theorem chain_within (most : Nat) (s : List Char) : Within s (chain most s) := by
  induction most generalizing s with
  | zero => exact List.suffix_refl s
  | succ most ih =>
      rw [chain]
      have hname : Within s (expecting .edgeTarget (name (skipSpace s))) :=
        ((name_within _).mono (skipSpace_suffix s)).expecting
      refine Within.bind hname fun _ rest _ => ?_
      have hspace := skipSpace_suffix rest
      dsimp only
      split
      · next more harrow =>
        exact ((ih more).mono ((dropWord?_suffix harrow).1.trans hspace)).mapValue
      · exact hspace

theorem within_ok_bind {α β : Type} {s : List Char} {v : α × List Char}
    {f : α × List Char → Reading (β × List Char)} (h : Within s (f v)) :
    Within s (Except.ok v >>= f) := h

theorem declaration_within_name {s rest : List Char} {id : String} (h : name s = .ok (id, rest)) :
    Within rest (declaration s) := by
  unfold declaration
  rw [h]
  refine within_ok_bind ?_
  have hspace := skipSpace_suffix rest
  dsimp only
  split
  · next more harrow =>
    refine Within.mono ?_ ((dropWord?_suffix harrow).1.trans hspace)
    refine Within.bind (chain_within _ more) fun _ rest _ => ?_
    refine Within.bind (attrBlock_within rest).optional fun _ rest _ => ?_
    exact skipEnding_suffix rest
  · split
    · next more hdashes => exact (dropWord?_suffix hdashes).1.trans hspace
    · refine Within.mono ?_ hspace
      refine Within.bind (attrBlock_within _).optional fun block rest _ => ?_
      split
      · next heq =>
        obtain ⟨-, rfl⟩ := Prod.mk.inj heq
        exact skipEnding_suffix _
      · next more heq =>
        obtain ⟨-, rfl⟩ := Prod.mk.inj heq
        refine Within.mono ?_ (List.suffix_cons '=' more)
        have hvalue : Within more (expecting .graphAttributeValue (value (skipSpace more))) :=
          ((value_within _).mono (skipSpace_suffix more)).expecting
        refine Within.bind hvalue fun _ rest _ => ?_
        exact skipEnding_suffix rest
      · next heq =>
        obtain ⟨-, rfl⟩ := Prod.mk.inj heq
        exact skipSemicolon_suffix _

theorem declaration_within (s : List Char) : Within s (declaration s) := by
  have hname := name_within s
  cases hread : name s with
  | error f =>
      rw [hread] at hname
      unfold declaration
      rw [hread]
      exact hname
  | ok v =>
      rw [hread] at hname
      exact (declaration_within_name hread).mono hname

theorem declaration_advances (s : List Char) : Advances s (declaration s) := by
  have hname := name_advances s
  cases hread : name s with
  | error f =>
      unfold declaration
      rw [hread]
      trivial
  | ok v =>
      rw [hread] at hname
      have hwithin := declaration_within_name hread
      cases hall : declaration s with
      | error f => trivial
      | ok w =>
          rw [hall] at hwithin
          exact Nat.lt_of_le_of_lt (List.IsSuffix.length_le hwithin) hname

theorem subgraphOpening_within (s : List Char) : Within s (subgraphOpening s) := by
  unfold subgraphOpening
  refine Within.bind (word_within _ s) fun _ rest _ => ?_
  refine Within.mono ?_ (skipSpace_suffix rest)
  refine Within.bind (name_within _).optional fun _ rest _ => ?_
  exact char_skipSpace_within _ rest

theorem subgraphOpening_advances (s : List Char) : Advances s (subgraphOpening s) := by
  unfold subgraphOpening
  refine Advances.bind (word_advances (by decide) s) fun _ rest _ => ?_
  refine Within.mono ?_ (skipSpace_suffix rest)
  exact Within.bind (name_within _).optional fun _ rest _ => char_skipSpace_within _ rest

section Blocks

variable {body : List Char → Reading (List Statement × List Char)}

theorem subgraph_within (hbody : ∀ s, Within s (body s)) (s : List Char) :
    Within s (subgraph body s) := by
  unfold subgraph
  refine Within.bind (subgraphOpening_within s) fun _ rest _ => ?_
  refine Within.bind (hbody rest) fun _ rest _ => ?_
  refine Within.bind (char_skipSpace_within _ rest).expecting fun _ rest _ => ?_
  exact skipEnding_suffix rest

theorem statement_within (hbody : ∀ s, Within s (body s)) (s : List Char) :
    Within s (statement body s) :=
  (keywordBlock_within _ s).mapValue.otherwise <|
    (keywordBlock_within _ s).mapValue.otherwise <|
      (keywordBlock_within _ s).mapValue.otherwise <|
        (subgraph_within hbody s).otherwise (declaration_within s)

theorem statement_advances (hbody : ∀ s, Within s (body s)) (s : List Char) :
    Advances s (statement body s) := by
  have hsubgraph : Advances s (subgraph body s) := by
    unfold subgraph
    refine Advances.bind (subgraphOpening_advances s) fun _ rest _ => ?_
    refine Within.bind (hbody rest) fun _ rest _ => ?_
    refine Within.bind (char_skipSpace_within _ rest).expecting fun _ rest _ => ?_
    exact skipEnding_suffix rest
  exact (keywordBlock_advances (by decide) s).mapValue.otherwise <|
    (keywordBlock_advances (by decide) s).mapValue.otherwise <|
      (keywordBlock_advances (by decide) s).mapValue.otherwise <|
        hsubgraph.otherwise (declaration_advances s)

end Blocks

theorem statements_within (most : Nat) (s : List Char) : Within s (statements most s) := by
  induction most generalizing s with
  | zero => exact List.suffix_refl s
  | succ most ih =>
      rw [statements]
      have hspace := skipSpace_suffix s
      split
      · exact List.nil_suffix
      · next heq => exact heq ▸ hspace
      · refine Within.mono ?_ hspace
        refine Within.bind (statement_within ih _) fun first rest _ => ?_
        exact (ih rest).mapValue

theorem graph_within (s : List Char) : Within s (graph s) := by
  unfold graph
  refine Within.mono ?_ (skipSpace_suffix s)
  dsimp only
  split
  · exact List.suffix_refl _
  · split
    · exact List.suffix_refl _
    · refine Within.bind (word_within _ _).expecting fun _ rest _ => ?_
      refine Within.mono ?_ (skipSpace_suffix rest)
      refine Within.bind (name_within _).optional fun _ rest _ => ?_
      refine Within.bind (char_skipSpace_within _ rest).expecting fun _ rest _ => ?_
      refine Within.bind (statements_within _ rest) fun _ rest _ => ?_
      refine Within.bind (char_skipSpace_within _ rest).expecting fun _ rest _ => ?_
      exact skipSpace_suffix rest

end Pipewright.Digraph.Read

/-!
## Lines

A graph file is read without its comments, and a line is counted back from the
number of characters that remain there. It is nevertheless the line in the text
itself (`parse_lines`).

Two things come together for that. Comments are taken out without the line feeds
in them, so a place in what is left and the place it comes from have equally many
before them (`Thins.exists_origin`). And what is left where a statement begins, or
where reading ends, is an end of the text, so its length tells where that is.
-/

namespace Pipewright.Digraph

/-! ### Texts with characters taken out -/

/-- The text is the other one with some characters taken out of it, and none of them is a line
feed. -/
structure Thins (kept cs : List Char) : Prop where
  sublist : kept.Sublist cs
  count : kept.count '\n' = cs.count '\n'

namespace Thins

variable {kept cs : List Char}

theorem nil : Thins [] [] := ⟨.slnil, rfl⟩

theorem keep (h : Thins kept cs) (c : Char) : Thins (c :: kept) (c :: cs) :=
  ⟨h.sublist.cons_cons c, by rw [List.count_cons, List.count_cons, h.count]⟩

theorem drop (h : Thins kept cs) {c : Char} (hc : c ≠ '\n') : Thins kept (c :: cs) :=
  ⟨h.sublist.cons c, by rw [List.count_cons_of_ne hc, h.count]⟩

/-- The characters that are left come from places, in the same order, with as many line feeds
before them. -/
theorem exists_origin (h : Thins kept cs) : ∃ origin : ℕ ↪o ℕ,
    (∀ i, kept[i]? = cs[origin i]?) ∧
    ∀ i, (cs.take (origin i)).count '\n' = (kept.take i).count '\n' := by
  obtain ⟨origin, horigin⟩ := List.sublist_iff_exists_orderEmbedding_getElem?_eq.mp h.sublist
  refine ⟨origin, horigin, fun i => ?_⟩
  have hbefore : (kept.take i).Sublist (cs.take (origin i)) := by
    refine List.sublist_of_orderEmbedding_getElem?_eq origin fun j => ?_
    simp only [List.getElem?_take, origin.lt_iff_lt, horigin]
  obtain ⟨back, hback⟩ : ∃ back : ℕ ↪o ℕ, ∀ j, origin i + back j = origin (i + j) := by
    have hle : ∀ j, origin i ≤ origin (i + j) := fun j =>
      origin.le_iff_le.mpr (Nat.le_add_right i j)
    have hmono : StrictMono fun j => origin (i + j) - origin i := fun j k hjk =>
      Nat.sub_lt_sub_right (hle j) (origin.lt_iff_lt.mpr (Nat.add_lt_add_left hjk i))
    exact ⟨.ofStrictMono _ hmono, fun j => Nat.add_sub_cancel' (hle j)⟩
  have hafter : (kept.drop i).Sublist (cs.drop (origin i)) := by
    refine List.sublist_of_orderEmbedding_getElem?_eq back fun j => ?_
    rw [List.getElem?_drop, List.getElem?_drop, horigin, hback]
  -- neither part has more line feeds than it comes from, and both together have as many
  have hall : (kept.take i).count '\n' + (kept.drop i).count '\n'
      = (cs.take (origin i)).count '\n' + (cs.drop (origin i)).count '\n' := by
    rw [← List.count_append, ← List.count_append, List.take_append_drop, List.take_append_drop,
      h.count]
  have hle := hbefore.count_le '\n'
  have hle' := hafter.count_le '\n'
  omega

end Thins

/-- Whatever is taken out with the comments, the line feeds stay. -/
theorem thins_strip (mode : CommentMode) (cs : List Char) : Thins (strip mode cs) cs := by
  fun_induction strip mode cs with
  | case1 => exact .nil
  | case2 fresh rest ih => exact (ih.drop (by decide)).drop (by decide)
  | case3 fresh rest ih => exact (ih.drop (by decide)).drop (by decide)
  | case4 rest ih => exact ih.drop (by decide)
  | case5 fresh rest ih => exact ih.keep '"'
  | case6 fresh c rest _ _ _ _ ih => exact ih.keep c
  | case7 rest ih => exact ih.keep '\n'
  | case8 c rest hc ih => exact ih.drop hc
  | case9 rest ih => exact ih.drop (by decide)
  | case10 star rest ih => exact ih.keep '\n'
  | case11 star c rest _ hc ih => exact ih.drop hc
  | case12 c rest ih => exact (ih.keep c).keep '\\'
  | case13 rest ih => exact ih.keep '"'
  | case14 c rest _ _ ih => exact ih.keep c


/-! ### Where statements begin -/

namespace Grammar

theorem Id.ne_nil {s rest : List Char} {id : String} (h : Id s id rest) : s ≠ [] := by
  cases h with
  | quoted => exact List.cons_ne_nil _ _
  | bare => exact List.cons_ne_nil _ _
  | numeral _ hwhole => simp [hwhole.1]

theorem blockForms_ne_nil : ∀ e ∈ blockForms, e.1.toList ≠ [] := by decide

theorem Stmt.ne_nil {s rest : List Char} {st : Statement} (h : Stmt s st rest) : s ≠ [] := by
  cases h with
  | block hform => exact List.append_ne_nil_of_left_ne_nil (blockForms_ne_nil _ hform) _
  | subgraph => exact List.cons_ne_nil _ _
  | edges hid => exact hid.ne_nil
  | node hid => exact hid.ne_nil
  | graphAttr hid => exact hid.ne_nil
  | bareNode hid => exact hid.ne_nil

end Grammar

/-- How much of the text was left where the statement begins, if that was noted. -/
def Statement.left? : Statement → Option ℕ
  | .node left _ _ => some left
  | .edges left _ _ => some left
  | _ => none

theorem left?_blockForms :
    ∀ e ∈ Grammar.blockForms, ∀ attrs, Statement.left? (e.2 attrs) = none := by
  simp [Grammar.blockForms, Statement.left?]

/-- What is noted is how much is left where the statement is derived from. -/
theorem Grammar.Stmt.left {s rest : List Char} {st : Statement} (h : Stmt s st rest) {left : ℕ}
    (hleft : st.left? = some left) : left = s.length := by
  cases h with
  | block hform => rw [left?_blockForms _ hform] at hleft; cases hleft
  | subgraph => cases hleft
  | edges => exact (Option.some.inj hleft).symm
  | node => exact (Option.some.inj hleft).symm
  | graphAttr => cases hleft
  | bareNode => exact (Option.some.inj hleft).symm

/-- The line of a place in the text, from 1. -/
def lineOf (cs : List Char) (i : ℕ) : ℕ := 1 + (cs.take i).count '\n'

/-- The statement at the place in the tree is derived from the text from its `i`-th character on. -/
structure Begins (cs : List Char) (body : List Statement) (p : List ℕ) (st : Statement) (i : ℕ) :
    Prop where
  found : at? body p = some st
  inside : i < cs.length
  derived : ∃ rest, Grammar.Stmt (cs.drop i) st rest

/-- This is what remained when the reader gave up, or what it found after the whole graph. -/
def Remains (cs rest : List Char) : Prop :=
  (∃ f, Read.graph cs = .error f ∧ f.rest = rest) ∨
    ∃ g, Read.graph cs = .ok (g, rest) ∧ Text.allBlank rest = false

theorem lineAt_drop {cs : List Char} {i : ℕ} (h : i ≤ cs.length) :
    lineAt cs (cs.drop i).length = lineOf cs i := by
  rw [lineAt, lineOf, List.length_drop, Nat.sub_sub_self h, Nat.add_comm]

open Grammar in
/-- Every statement of a graph that is read is derived from the text where it stands. -/
theorem stmt_of_graph {s rest : List Char} {name : String} {body : List Statement} {p : List ℕ}
    {st : Statement} (h : Read.graph s = .ok ((name, body), rest)) (hat : at? body p = some st) :
    ∃ s' rest', s' <:+ s ∧ Stmt s' st rest' := by
  obtain ⟨rest', hgraph, -⟩ := Read.leads_graph s (name, body) rest h
  obtain ⟨hword, hspace, hid, hopen, hbody⟩ := hgraph
  obtain ⟨s', rest'', hs', hstmt⟩ := stmt_of_at? hbody hat
  have hname := (hid.isSuffix fun _ => Id.isSuffix).trans hspace.isSuffix
  have hfront := hname.trans ((List.suffix_append _ _).trans hword.isSuffix)
  have hinner := ((List.suffix_cons '\x7b' _).trans hopen.isSuffix).trans hfront
  exact ⟨s', rest'', hs'.trans hinner, hstmt⟩

/-- A statement that notes how much was left notes its line with that. -/
theorem exists_begins {cs rest : List Char} {name : String} {body : List Statement} {p : List ℕ}
    {st : Statement} {left : ℕ} (h : Read.graph cs = .ok ((name, body), rest))
    (hat : at? body p = some st) (hleft : st.left? = some left) :
    ∃ i, Begins cs body p st i ∧ lineAt cs left = lineOf cs i := by
  obtain ⟨s, rest', hsuffix, hstmt⟩ := stmt_of_graph h hat
  obtain ⟨front, rfl⟩ := hsuffix
  have hdrop : (front ++ s).drop front.length = s := List.drop_left
  have hinside : front.length < (front ++ s).length := by
    rw [List.length_append]
    exact Nat.lt_add_of_pos_right (List.length_pos_iff.mpr hstmt.ne_nil)
  refine ⟨front.length, ⟨hat, hinside, rest', by rwa [hdrop]⟩, ?_⟩
  rw [← lineAt_drop hinside.le, hdrop, hstmt.left hleft]

theorem Remains.isSuffix {cs rest : List Char} (h : Remains cs rest) : rest <:+ cs := by
  have hwithin := Read.graph_within cs
  rcases h with ⟨f, hread, rfl⟩ | ⟨g, hread, -⟩
  · rwa [hread] at hwithin
  · rwa [hread] at hwithin

/-- A text that is refused is refused where something remains. Behind a whole graph no column is
counted. -/
theorem parse_eq_error {text : String} {fault : ParseFault} (h : parse text = .error fault) :
    ∃ rest, Remains (stripComments text.toList) rest ∧ fault.snippet = snippetOf rest ∧
      fault.line = lineAt (stripComments text.toList) rest.length ∧
      fault.column = if fault.reason = .trailing then 1
        else columnAt (stripComments text.toList) rest.length := by
  rw [parse, parseStripped] at h
  split at h
  · next f hread =>
    obtain rfl := Except.error.inj h
    refine ⟨f.rest, .inl ⟨f, hread, rfl⟩, rfl, rfl, (if_neg fun hreason => ?_).symm⟩
    dsimp only at hreason
    split at hreason <;> cases hreason
  · next name body rest hread =>
    split at h
    · cases h
    · next hblank =>
      obtain rfl := Except.error.inj h
      exact ⟨rest, .inr ⟨_, hread, Bool.eq_false_iff.mpr hblank⟩, rfl, rfl, rfl⟩

/-! ### Lines -/

section Graph

variable {cs rest : List Char} {name : String} {body : List Statement}

theorem nodes_begin (h : Read.graph cs = .ok ((name, body), rest)) :
    ∃ ps, Places body Statement.isNode ps ∧ List.Forall₂ (fun p n => ∃ i left own,
      Begins cs body p (.node left n.id own) i ∧ n.line = lineOf cs i)
      ps (ofStatements (lineAt cs) name body).nodes := by
  obtain ⟨ps, hps, hnodes⟩ := places_nodesOf (lineAt cs) body
  refine ⟨ps, hps, hnodes.imp fun p n hn => ?_⟩
  obtain ⟨left, own, hat, hleft, -⟩ := hn
  obtain ⟨i, hbegins, hi⟩ := exists_begins h hat rfl
  exact ⟨i, left, own, hbegins, hleft.trans hi⟩

/-- All edges of a chain have the line on which the chain begins. -/
theorem edges_begin (h : Read.graph cs = .ok ((name, body), rest)) :
    ∃ ps groups, Places body Statement.isChain ps ∧
      (ofStatements (lineAt cs) name body).edges = groups.flatten ∧
      List.Forall₂ (fun p es => ∃ i left chain own, Begins cs body p (.edges left chain own) i ∧
        es.length = chain.length - 1 ∧ ∀ e ∈ es, e.line = lineOf cs i) ps groups := by
  obtain ⟨ps, groups, hps, hgroups, hedges⟩ := places_edgesOf (lineAt cs) body
  refine ⟨ps, groups, hps, hgroups, hedges.imp fun p es hes => ?_⟩
  obtain ⟨left, chain, own, attrs, hat, -, hlength, heach⟩ := hes
  obtain ⟨i, hbegins, hi⟩ := exists_begins h hat rfl
  refine ⟨i, left, chain, own, hbegins, hlength, fun e he => ?_⟩
  obtain ⟨j, hj⟩ := List.getElem?_of_mem he
  obtain ⟨-, -, -, hleft⟩ := heach j e hj
  exact hleft.trans hi

end Graph

theorem fault_begins {text : String} {fault : ParseFault} (h : parse text = .error fault) :
    ∃ i ≤ (stripComments text.toList).length,
      Remains (stripComments text.toList) ((stripComments text.toList).drop i) ∧
      fault.snippet = snippetOf ((stripComments text.toList).drop i) ∧
      fault.line = lineOf (stripComments text.toList) i := by
  obtain ⟨rest, hremains, hsnippet, hfault, -⟩ := parse_eq_error h
  obtain ⟨front, hfront⟩ := hremains.isSuffix
  have hdrop : (stripComments text.toList).drop front.length = rest := by
    rw [← hfront, List.drop_left]
  have hle : front.length ≤ (stripComments text.toList).length := by
    rw [← hfront, List.length_append]
    exact Nat.le_add_right _ _
  refine ⟨front.length, hle, by rwa [hdrop], by rwa [hdrop], ?_⟩
  rw [hfault, ← lineAt_drop hle, hdrop]

/-- Of every text: the characters of the text without comments come from places in the text, in the
same order, each with as many line feeds before it, and no line feed is lost. So if the text is
read, the line of each node and of each edge, at whatever depth of blocks it stands, is the line in
the text of the place where its statement begins; and if it is refused, the line of the fault is
that of the place where what remains begins. -/
theorem parse_lines (text : String) : ∃ origin : ℕ ↪o ℕ,
    (∀ i, (stripComments text.toList)[i]? = text.toList[origin i]?) ∧
    (∀ i, (text.toList.take (origin i)).count '\n'
      = ((stripComments text.toList).take i).count '\n') ∧
    (stripComments text.toList).count '\n' = text.toList.count '\n' ∧
    match parse text with
    | .ok g => ∃ name body rest,
        Read.graph (stripComments text.toList) = .ok ((name, body), rest) ∧
        (∃ ps, Places body Statement.isNode ps ∧ List.Forall₂ (fun p n => ∃ i left own,
          Begins (stripComments text.toList) body p (.node left n.id own) i ∧
          n.line = lineOf text.toList (origin i)) ps g.nodes) ∧
        ∃ ps groups, Places body Statement.isChain ps ∧ g.edges = groups.flatten ∧
          List.Forall₂ (fun p es => ∃ i left chain own,
            Begins (stripComments text.toList) body p (.edges left chain own) i ∧
            es.length = chain.length - 1 ∧
            ∀ e ∈ es, e.line = lineOf text.toList (origin i)) ps groups
    | .error fault => ∃ i ≤ (stripComments text.toList).length,
        Remains (stripComments text.toList) ((stripComments text.toList).drop i) ∧
        fault.snippet = snippetOf ((stripComments text.toList).drop i) ∧
        fault.line = lineOf text.toList (origin i) := by
  have hthins := thins_strip (.outside true) text.toList
  obtain ⟨origin, hchar, hcount⟩ := hthins.exists_origin
  refine ⟨origin, hchar, hcount, hthins.count, ?_⟩
  have hline : ∀ i, lineOf (stripComments text.toList) i = lineOf text.toList (origin i) :=
    fun i => congrArg (1 + ·) (hcount i).symm
  cases hparse : parse text with
  | ok g =>
      obtain ⟨name, body, rest, hread, rfl⟩ := parse_eq_ok hparse
      have hnodes := nodes_begin hread
      have hedges := edges_begin hread
      simp only [hline] at hnodes hedges
      exact ⟨name, body, rest, hread, hnodes, hedges⟩
  | error fault =>
      have hfault := fault_begins hparse
      simp only [hline] at hfault
      exact hfault

/-- The line feeds of the comments before it count. -/
example : (match parse "/* a\n a */ digraph \x7b // b\n# c\n a -- b \x7d" with
    | .ok _ => none
    | .error fault => some fault.line) = some 4 := by
  decide +kernel

end Pipewright.Digraph
