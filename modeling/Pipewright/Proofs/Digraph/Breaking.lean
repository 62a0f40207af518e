import Pipewright.Proofs.Digraph.Reals
import Pipewright.Proofs.Digraph.RoundTrip

/-!
# Written graphs that are not read

One attribute that breaks spoils the text it stands in. The reader of its block
stops before the closing bracket, the block is given up, and the statement it
belongs to ends without it, or is taken for a node called `graph`. What comes
next is then the opening bracket, and no statement starts with that.
-/

namespace Pipewright.Digraph

namespace Read

variable {f : AttrValue → AttrValue}

/-! ## Attributes that break -/

/-- No attribute is read where the entry stands, or a part of it is left over. -/
def EntryBreaks (e : String × AttrValue) : Prop := isDottedName e.1.toList ∧ Breaks e.2

/-- The entry is read with the image of its value. -/
def EntryReads (f : AttrValue → AttrValue) (e : String × AttrValue) : Prop :=
  isDottedName e.1.toList ∧ ReadsAs e.2 (f e.2)

/-- An entry is not taken for the end of its block. -/
theorem stands_renderEntry {e : String × AttrValue} (h : EntryReads f e ∨ EntryBreaks e) :
    ∃ c rest, renderEntry e = c :: rest ∧ isSpace c = false ∧ c ≠ ']' := by
  have hkey : isDottedName e.1.toList := by
    rcases h with h | h
    · exact h.1
    · exact h.1
  cases hk : e.1.toList with
  | nil => rw [hk] at hkey; exact absurd hkey (by decide)
  | cons c cs =>
      refine ⟨c, cs ++ '=' :: renderValue e.2, by rw [renderEntry, hk]; rfl, ?_⟩
      rw [hk, isDottedName_cons, Bool.and_eq_true] at hkey
      have hword := isWordChar_of_isWordStart hkey.1
      exact ⟨isSpace_of_isWordChar hword, ne_of_isWordChar hword (by decide)⟩

theorem attr_of_breaks {e : String × AttrValue} (h : EntryBreaks e) {rest : List Char}
    (hrest : AfterValue rest) : Refused (attr (renderEntry e ++ rest))
      ∨ ∃ a left, attr (renderEntry e ++ rest) = .ok (a, left) ∧ Leftover left := by
  obtain ⟨hkey, hvalue⟩ := h
  have hspace : skipSpace (renderValue e.2 ++ rest) = renderValue e.2 ++ rest := by
    obtain ⟨c, cs, heq, hc⟩ := exists_renderValue e.2
    rw [heq]
    exact skipSpace_cons hc _
  have hattr : attr (renderEntry e ++ rest)
      = (expecting .attributeValue (value (renderValue e.2 ++ rest)) >>= fun v =>
          .ok ((e.1, v.1), v.2)) := by
    rw [renderEntry, List.append_assoc, List.cons_append, attr, key_append hkey]
    change (expecting .attributeValue (value (skipSpace (renderValue e.2 ++ rest))) >>= _) = _
    rw [hspace]
    rfl
  rw [hattr]
  rcases hvalue rest hrest with hrefused | ⟨w, left, hread, hleft⟩
  · exact .inl ((hrefused.expecting _).bind _)
  · exact .inr ⟨(e.1, w), left, by rw [hread]; rfl, hleft⟩

/-- What is left over of a value ends the attributes, and is not the end of the block. -/
theorem attrs_of_leftover {left : List Char} (h : Leftover left) (most : Nat) (seen : Attrs) :
    ∃ c more, attrs most seen (skipBetween left) = .ok (seen, c :: more) ∧ c ≠ ']' := by
  obtain ⟨⟨c, more, rfl, hspace, hc⟩, es, rest, hrefused⟩ := h
  have hbetween : skipBetween (c :: more) = c :: more := by
    have hseparator : skipSeparator (c :: more) = c :: more := by
      unfold skipSeparator
      split
      · next heq => simp [(List.cons.inj heq).1] at hc
      · next heq => simp [(List.cons.inj heq).1] at hc
      · rfl
    rw [skipBetween, skipSpace_cons hspace, hseparator, skipSpace_cons hspace]
  refine ⟨c, more, ?_, fun h => hc (by simp [h])⟩
  rw [hbetween]
  cases most with
  | zero => rfl
  | succ most => rw [attrs, hrefused]; rfl

/-! ## Blocks -/

/-- Every attribute is read with the image of its value or breaks, and some break. -/
structure Spoiled (f : AttrValue → AttrValue) (l : List (String × AttrValue)) : Prop where
  each : ∀ e ∈ l, EntryReads f e ∨ EntryBreaks e
  some : ∃ e ∈ l, EntryBreaks e

theorem Spoiled.of_cons {e : String × AttrValue} {l : List (String × AttrValue)}
    (h : Spoiled f (e :: l)) : EntryBreaks e ∨ EntryReads f e ∧ Spoiled f l := by
  obtain ⟨he, hl⟩ := List.forall_mem_cons.mp h.each
  rcases he with hreads | hbreaks
  · obtain ⟨d, hd, hbreaks⟩ := h.some
    rcases List.mem_cons.mp hd with rfl | hd
    · exact .inl hbreaks
    · exact .inr ⟨hreads, hl, d, hd, hbreaks⟩
  · exact .inl hbreaks

theorem skipBetween_renderEntry {e : String × AttrValue}
    (h : ∃ c rest, renderEntry e = c :: rest ∧ isSpace c = false)
    (l : List (String × AttrValue)) (rest : List Char) :
    skipBetween ((e :: l).flatMap ([',', ' '] ++ renderEntry ·) ++ rest)
      = renderEntry e ++ (l.flatMap ([',', ' '] ++ renderEntry ·) ++ rest) := by
  obtain ⟨c, cs, heq, hc⟩ := h
  rw [List.flatMap_cons, heq]
  simp only [List.append_assoc, List.cons_append, List.nil_append]
  exact skipBetween_comma hc _

theorem attrs_of_spoiled {l : List (String × AttrValue)} (h : Spoiled f l) (most : Nat)
    (seen : Attrs) (rest : List Char) : ∃ seen' c more,
      attrs most seen (skipBetween (l.flatMap ([',', ' '] ++ renderEntry ·) ++ ']' :: rest))
        = .ok (seen', c :: more) ∧ c ≠ ']' := by
  induction l generalizing most seen with
  | nil =>
      obtain ⟨e, he, -⟩ := h.some
      exact absurd he List.not_mem_nil
  | cons e l ih =>
      have hafter : AfterValue (l.flatMap ([',', ' '] ++ renderEntry ·) ++ ']' :: rest) := by
        cases l with
        | nil => exact ⟨rest, .inr rfl⟩
        | cons d l => exact ⟨_, .inl rfl⟩
      obtain ⟨c, cs, heq, hspace, hc⟩ := stands_renderEntry (h.each e (List.mem_cons_self ..))
      rw [skipBetween_renderEntry ⟨c, cs, heq, hspace⟩]
      cases most with
      | zero => exact ⟨seen, c, _, by rw [attrs, heq]; rfl, hc⟩
      | succ most =>
          rcases h.of_cons with hbreaks | ⟨hreads, hl⟩
          · rcases attr_of_breaks hbreaks hafter with
              ⟨place, es, hrefused⟩ | ⟨a, left, hread, hleft⟩
            · exact ⟨seen, c, _, by rw [attrs, hrefused, heq]; rfl, hc⟩
            · obtain ⟨d, more, hattrs, hd⟩ := attrs_of_leftover hleft most (seen.insert a.1 a.2)
              exact ⟨_, d, more, by rw [attrs, hread]; exact hattrs, hd⟩
          · rw [attrs, attr_renderEntry hreads.1 hreads.2 hafter]
            exact ih hl most _

theorem renderAttrs_append {attrs : Attrs} {e : String × AttrValue}
    {l : List (String × AttrValue)} (h : attrs.entries = e :: l) (rest : List Char) :
    renderAttrs attrs ++ rest = renderEntry e ++
      (l.flatMap ([',', ' '] ++ renderEntry ·) ++ rest) := by
  rw [renderAttrs_of_entries h, List.append_assoc]

theorem refused_attrBlock_of_spoiled {attrs : Attrs} (h : Spoiled f attrs.entries)
    (rest : List Char) : Refused (attrBlock ('[' :: (renderAttrs attrs ++ ']' :: rest))) := by
  cases heq : attrs.entries with
  | nil =>
      obtain ⟨e, he, -⟩ := h.some
      rw [heq] at he
      exact absurd he List.not_mem_nil
  | cons e l =>
      rw [heq] at h
      obtain ⟨c, cs, hentry, hspace, -⟩ := stands_renderEntry (h.each e (List.mem_cons_self ..))
      have hskip : skipSpace (renderAttrs attrs ++ ']' :: rest)
          = skipBetween ((e :: l).flatMap ([',', ' '] ++ renderEntry ·) ++ ']' :: rest) := by
        rw [skipBetween_renderEntry ⟨c, cs, hentry, hspace⟩, renderAttrs_append heq, hentry]
        exact skipSpace_cons hspace _
      obtain ⟨seen, d, more, hread, hd⟩ :=
        attrs_of_spoiled h (renderAttrs attrs ++ ']' :: rest).length ∅ rest
      rw [attrBlock]
      change Refused (Read.attrs _ ∅ (skipSpace (renderAttrs attrs ++ ']' :: rest)) >>= _)
      rw [hskip, hread]
      change Refused (expecting .closingBracket (char ']' (d :: more)) >>= _)
      exact ((refused_char hd more).expecting _).bind _

/-! ## Lines -/

/-- No statements are read at the place, with whatever fuel. -/
def Unreadable (s : List Char) : Prop := ∀ most, ∃ fault, statements most s = .error fault

theorem unreadable_skipSpace {s : List Char} (h : Unreadable s) : Unreadable (skipSpace s) := by
  intro most
  cases most with
  | zero => exact ⟨_, rfl⟩
  | succ most => rw [statements_skipSpace]; exact h (most + 1)

theorem unreadable_append {l : List Char} (hl : ∀ c ∈ l, isSpace c) {s : List Char}
    (h : Unreadable s) : Unreadable (l ++ s) := by
  intro most
  cases most with
  | zero => exact ⟨_, rfl⟩
  | succ most =>
      rw [← statements_skipSpace, skipSpace_append hl, statements_skipSpace]
      exact h (most + 1)

theorem unreadable_bracket (s : List Char) : Unreadable ('[' :: s) := by
  intro most
  cases most with
  | zero => exact ⟨_, rfl⟩
  | succ most => exact ⟨_, rfl⟩

/-- What comes after a statement has to be read as well. -/
theorem unreadable_of_statement {s : List Char} (hs : StartsStatement s)
    (h : ∀ body, ∃ st left, statement body (skipSpace s) = .ok (st, left) ∧ Unreadable left) :
    Unreadable s := by
  intro most
  cases most with
  | zero => exact ⟨_, rfl⟩
  | succ most =>
      obtain ⟨c, rest, heq, hc⟩ := hs
      obtain ⟨st, left, hread, hleft⟩ := h (statements most)
      obtain ⟨fault, hfault⟩ := hleft most
      have hclose : c ≠ '\x7d' := by
        rintro rfl
        rcases hc with hc | hc <;> exact absurd hc (by decide)
      refine ⟨fault, ?_⟩
      rw [heq] at hread
      rw [statements, heq]
      split
      · next hnil => cases hnil
      · next hcons => exact absurd (List.cons.inj hcons).1 hclose
      · rw [hread]
        change mapValue (st :: ·) (statements most left) = _
        rw [hfault]
        rfl

theorem ReadsStatement.unreadable {text more : List Char} {p : Statement → Prop}
    (h : ReadsStatement text p) (hmore : StartsLine more) (hfail : Unreadable more) :
    Unreadable (text ++ more) := by
  refine unreadable_of_statement (h (statements 0) more hmore).1 fun body => ?_
  obtain ⟨-, st, -, hread⟩ := h body more hmore
  exact ⟨st, _, hread, unreadable_skipSpace hfail⟩

/-! ## Nodes, edges and the graph -/

theorem Spoiled.isEmpty {attrs : Attrs} (h : Spoiled f attrs.entries) : attrs.isEmpty = false := by
  obtain ⟨e, he, -⟩ := h.some
  cases hempty : attrs.isEmpty with
  | false => rfl
  | true =>
      rw [List.isEmpty_iff.mp hempty] at he
      exact absurd he List.not_mem_nil

theorem afterName_bracket (s : List Char) : AfterName (' ' :: '[' :: s) :=
  ⟨⟨_, .inl rfl⟩, fun _ h => absurd (List.cons.inj h).1 (by decide)⟩

/-- A name is a node without attributes if its block is given up. -/
theorem declaration_of_refused {text s : List Char} {id : String}
    (hname : name (text ++ (' ' :: '[' :: s)) = .ok (id, ' ' :: '[' :: s))
    (h : Refused (attrBlock ('[' :: s))) :
    declaration (text ++ (' ' :: '[' :: s))
      = .ok (.node (text ++ (' ' :: '[' :: s)).length id ∅, '[' :: s) := by
  have hskip : skipSpace (' ' :: '[' :: s) = '[' :: s := rfl
  unfold declaration
  simp only [hname, bind, Except.bind, hskip]
  rw [show dropWord? ['-', '>'] ('[' :: s) = none from rfl,
    show dropWord? ['-', '-'] ('[' :: s) = none from rfl]
  simp only [h.optional]
  rfl

/-- Nothing is read after a statement whose block was given up. -/
theorem unreadable_of_bracket {s : List Char} (left : List Char) (hs : StartsStatement s)
    (h : ∀ body, ∃ st, statement body (skipSpace s) = .ok (st, '[' :: left)) : Unreadable s := by
  refine unreadable_of_statement hs fun body => ?_
  obtain ⟨st, hread⟩ := h body
  exact ⟨st, _, hread, unreadable_bracket left⟩

theorem unreadable_renderNode {n : Node} (h : Spoiled f n.attrs.entries) (more : List Char) :
    Unreadable (renderNode n ++ more) := by
  have hblock := refused_attrBlock_of_spoiled h ('\n' :: more)
  generalize hs : renderAttrs n.attrs ++ ']' :: '\n' :: more = s at hblock
  have htext : renderNode n ++ more = indent ++ (renderId n.id ++ (' ' :: '[' :: s)) := by
    rw [← hs, ← renderBlock_append h.isEmpty]
    simp [renderNode]
  rw [htext]
  refine unreadable_of_bracket s (startsStatement_indent (startsStatement_renderId _ _))
    fun body => ?_
  rw [skipSpace_indent, skipSpace_renderId, statement_renderId _ (afterName_bracket _)]
  exact ⟨_, declaration_of_refused (name_renderId n.id (afterName_bracket s).stops) hblock⟩

theorem unreadable_renderEdge {e : Edge} (h : Spoiled f e.attrs.entries) (more : List Char) :
    Unreadable (renderEdge e ++ more) := by
  have hblock := refused_attrBlock_of_spoiled h ('\n' :: more)
  generalize hs : renderAttrs e.attrs ++ ']' :: '\n' :: more = s at hblock
  have htext : renderEdge e ++ more
      = indent ++ (renderId e.source ++
        (" -> ".toList ++ (renderId e.target ++ (' ' :: '[' :: s)))) := by
    rw [← hs, ← renderBlock_append h.isEmpty]
    simp [renderEdge]
  have harrow : dropWord? ['-', '>'] (skipSpace (" -> ".toList
      ++ (renderId e.target ++ (' ' :: '[' :: s))))
      = some (' ' :: (renderId e.target ++ (' ' :: '[' :: s))) := rfl
  have hchain : ∀ most, chain (most + 1) (' ' :: (renderId e.target ++ (' ' :: '[' :: s)))
      = .ok ([e.target], '[' :: s) := by
    intro most
    have hspace : skipSpace (' ' :: (renderId e.target ++ (' ' :: '[' :: s)))
        = renderId e.target ++ (' ' :: '[' :: s) := skipSpace_renderId _ _
    rw [chain, hspace, name_renderId e.target (afterName_bracket s).stops]
    rfl
  rw [htext]
  refine unreadable_of_bracket s (startsStatement_indent (startsStatement_renderId _ _))
    fun body => ?_
  rw [skipSpace_indent, skipSpace_renderId, statement_renderId _ (afterName_arrow _)]
  refine ⟨.edges (renderId e.source ++ (" -> ".toList
    ++ (renderId e.target ++ (' ' :: '[' :: s)))).length [e.source, e.target] ∅, ?_⟩
  unfold declaration
  simp only [name_renderId e.source (afterName_arrow _).stops, bind, Except.bind, harrow, hchain,
    hblock.optional]
  rfl

theorem unreadable_renderGraphAttrs {attrs : Attrs} (h : Spoiled f attrs.entries)
    (more : List Char) : Unreadable (renderGraphAttrs attrs ++ more) := by
  have hblock := refused_attrBlock_of_spoiled h ('\n' :: '\n' :: more)
  generalize hs : renderAttrs attrs ++ ']' :: '\n' :: '\n' :: more = s at hblock
  have htext : renderGraphAttrs attrs ++ more = indent ++
      ("graph".toList ++ (' ' :: '[' :: s)) := by
    rw [← hs, renderGraphAttrs, if_neg (by rw [h.isEmpty]; decide), ← renderBlock_append h.isEmpty]
    simp
  have hspace : skipSpace ("graph".toList ++ (' ' :: '[' :: s))
      = "graph".toList ++ (' ' :: '[' :: s) := rfl
  have hgraph : Refused (keywordBlock "graph" ("graph".toList ++ (' ' :: '[' :: s))) := by
    rw [keywordBlock, word_append]
    exact hblock.bind _
  have hname : name ("graph".toList ++ (' ' :: '[' :: s)) = .ok ("graph", ' ' :: '[' :: s) :=
    name_of_bare (c := 'g') (by decide) (List.all_eq_true.mp (by decide)) rfl
  rw [htext]
  refine unreadable_of_bracket s (startsStatement_indent ⟨'g', _, rfl, .inl (by decide)⟩)
    fun body => ?_
  rw [skipSpace_indent, hspace, statement, (hgraph.mapValue _).otherwise]
  exact ⟨_, declaration_of_refused hname hblock⟩

theorem startsLine_flatMap {α : Type} {render : α → List Char} {l : List α}
    (hstart : ∀ a more, StartsStatement (render a ++ more)) {more : List Char}
    (hmore : StartsLine more) : StartsLine (l.flatMap render ++ more) := by
  cases l with
  | nil => exact hmore
  | cons a l =>
      rw [List.flatMap_cons, List.append_assoc]
      exact (hstart a _).startsLine

/-- Of lines that are read or not, one that is not read ends the reading. -/
theorem unreadable_flatMap {α : Type} {render : α → List Char} {p : α → Statement → Prop}
    {l : List α} (hstart : ∀ a more, StartsStatement (render a ++ more))
    (h : ∀ a ∈ l, ReadsStatement (render a) (p a) ∨ ∀ more, Unreadable (render a ++ more))
    {more : List Char} (hmore : StartsLine more)
    (hfail : (∃ a ∈ l, ∀ more, Unreadable (render a ++ more)) ∨ Unreadable more) :
    Unreadable (l.flatMap render ++ more) := by
  induction l with
  | nil =>
      refine hfail.resolve_left ?_
      rintro ⟨a, ha, -⟩
      exact absurd ha List.not_mem_nil
  | cons a l ih =>
      obtain ⟨ha, hl⟩ := List.forall_mem_cons.mp h
      rw [List.flatMap_cons, List.append_assoc]
      by_cases hfirst : ∀ more, Unreadable (render a ++ more)
      · exact hfirst _
      · have hrest : (∃ b ∈ l, ∀ more, Unreadable (render b ++ more)) ∨ Unreadable more := by
          refine hfail.imp_left ?_
          rintro ⟨b, hb, hunreadable⟩
          rcases List.mem_cons.mp hb with rfl | hb
          · exact absurd hunreadable hfirst
          · exact ⟨b, hb, hunreadable⟩
        exact (ha.resolve_right hfirst).unreadable (startsLine_flatMap hstart hmore) (ih hl hrest)

theorem startsStatement_renderNode (n : Node) (more : List Char) :
    StartsStatement (renderNode n ++ more) := by
  simp only [renderNode, List.append_assoc]
  exact startsStatement_indent (startsStatement_renderId _ _)

theorem startsStatement_renderEdge (e : Edge) (more : List Char) :
    StartsStatement (renderEdge e ++ more) := by
  simp only [renderEdge, List.append_assoc]
  exact startsStatement_indent (startsStatement_renderId _ _)

/-- The attributes are read with the images of their values, or break. -/
def BlockReads (f : AttrValue → AttrValue) (attrs : Attrs) : Prop :=
  Rereads f attrs ∨ Spoiled f attrs.entries

theorem blockReads_of_forall {attrs : Attrs}
    (h : ∀ e ∈ attrs.entries, EntryReads f e ∨ EntryBreaks e) : BlockReads f attrs := by
  by_cases hsome : ∃ e ∈ attrs.entries, EntryBreaks e
  · exact .inr ⟨h, hsome⟩
  · exact .inl fun e he => (h e he).resolve_right fun hbreaks => hsome ⟨e, he, hbreaks⟩

theorem unreadable_renderBody {g : Digraph} (hnodes : ∀ n ∈ g.nodes, BlockReads f n.attrs)
    (hedges : ∀ e ∈ g.edges, BlockReads f e.attrs)
    (hsome : (∃ n ∈ g.nodes, Spoiled f n.attrs.entries) ∨
      ∃ e ∈ g.edges, Spoiled f e.attrs.entries) :
    Unreadable (renderBody g) := by
  have hblank : ∀ c ∈ (if !g.nodes.isEmpty && !g.edges.isEmpty then ['\n'] else []), isSpace c := by
    split <;> simp [isSpace]
  have hline : StartsLine ((if !g.nodes.isEmpty && !g.edges.isEmpty then ['\n'] else [])
      ++ (g.edges.flatMap renderEdge ++ "\x7d\n".toList)) := by
    obtain ⟨c, rest, heq, hc⟩ :=
      startsLine_flatMap (l := g.edges) startsStatement_renderEdge startsLine_closing
    exact ⟨c, rest, by rw [skipSpace_append hblank, heq], hc⟩
  refine unreadable_flatMap startsStatement_renderNode
    (fun n hn => (hnodes n hn).imp readsStatement_renderNode unreadable_renderNode) hline ?_
  refine hsome.imp ?_ ?_
  · rintro ⟨n, hn, h⟩
    exact ⟨n, hn, unreadable_renderNode h⟩
  · rintro ⟨e, he, h⟩
    refine unreadable_append hblank (unreadable_flatMap startsStatement_renderEdge
      (fun e he => (hedges e he).imp readsStatement_renderEdge unreadable_renderEdge)
      startsLine_closing ?_)
    exact .inl ⟨e, he, unreadable_renderEdge h⟩

theorem startsLine_renderBody (g : Digraph) : StartsLine (renderBody g) := by
  refine startsLine_flatMap startsStatement_renderNode ?_
  obtain ⟨c, rest, heq, hc⟩ :=
    startsLine_flatMap (l := g.edges) startsStatement_renderEdge startsLine_closing
  refine ⟨c, rest, ?_, hc⟩
  rw [skipSpace_append (by split <;> simp [isSpace]), heq]

/-- A graph with an attribute that breaks is not read back at all. -/
theorem unreadable_render {g : Digraph} (h : ∀ a ∈ g.allAttrs, BlockReads f a)
    (hsome : ∃ a ∈ g.allAttrs, Spoiled f a.entries) :
    Unreadable (renderGraphAttrs g.attrs ++ renderBody g) := by
  obtain ⟨hgraph, hnodes, hedges⟩ := forall_allAttrs.mp h
  by_cases hspoiled : Spoiled f g.attrs.entries
  · exact unreadable_renderGraphAttrs hspoiled _
  · have hbody : Unreadable (renderBody g) := by
      refine unreadable_renderBody hnodes hedges ?_
      obtain ⟨a, ha, hspoils⟩ := hsome
      rw [allAttrs, List.mem_cons, List.mem_append, List.mem_map, List.mem_map] at ha
      rcases ha with rfl | ⟨n, hn, rfl⟩ | ⟨e, he, rfl⟩
      · exact absurd hspoils hspoiled
      · exact .inl ⟨n, hn, hspoils⟩
      · exact .inr ⟨e, he, hspoils⟩
    cases hempty : g.attrs.isEmpty with
    | true => rw [renderGraphAttrs, if_pos hempty]; exact hbody
    | false =>
        exact (readsStatement_renderGraphAttrs hempty (hgraph.resolve_right hspoiled)).unreadable
          (startsLine_renderBody g) hbody

end Read

/-- A graph with an attribute that breaks is not read back. -/
theorem parse_render_of_spoiled {f : AttrValue → AttrValue} {g : Digraph}
    (hstrip : stripComments (renderChars g) = renderChars g)
    (h : ∀ a ∈ g.allAttrs, Read.BlockReads f a)
    (hsome : ∃ a ∈ g.allAttrs, Read.Spoiled f a.entries) :
    ∃ fault, parse g.render = .error fault := by
  have hlines :=
    Read.unreadable_append (l := ['\n']) (by simp [Read.isSpace]) (Read.unreadable_render h hsome)
  obtain ⟨fault, hfault⟩ := hlines ((renderGraphAttrs g.attrs ++ renderBody g).length + 2)
  have hgraph : Read.graph (renderChars g) = .error fault := by
    rw [renderChars_eq, Read.graph_renderOpening]
    change (Read.statements _ (['\n'] ++ (renderGraphAttrs g.attrs ++ renderBody g)) >>= _) = _
    rw [hfault]
    rfl
  rw [parse, render, String.toList_ofList, hstrip, parseStripped, hgraph]
  exact ⟨_, rfl⟩

end Pipewright.Digraph
