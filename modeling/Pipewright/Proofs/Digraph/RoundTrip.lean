import Pipewright.Digraph.Reader
import Pipewright.Proofs.Digraph.Statements
import Pipewright.Proofs.Digraph.Values

/-!
# Written graphs

Nothing in a written graph is taken for a comment, and so it is read back as it was.
-/

/-!
## A written graph has no comments

Taking the comments out of a text that was written leaves it as it is. What
could look like a comment stands between quotes, and there nothing is taken
out; outside of them neither a slash nor a `#` is ever written.

`Intact t` says so of a piece `t` of a text, wherever it stands outside of
comments and quotes and whatever follows it. It passes from pieces to what is
put together from them.
-/

namespace Pipewright.Digraph

/-- Nothing is taken out of the text, and after it the reader of comments is
outside again. -/
def Intact (t : List Char) : Prop :=
  ∀ fresh rest, ∃ fresh', strip (.outside fresh) (t ++ rest) = t ++ strip (.outside fresh') rest

theorem intact_nil : Intact [] := fun fresh _ => ⟨fresh, rfl⟩

theorem Intact.append {s t : List Char} (hs : Intact s) (ht : Intact t) : Intact (s ++ t) := by
  intro fresh rest
  obtain ⟨fresh₁, h₁⟩ := hs fresh (t ++ rest)
  obtain ⟨fresh₂, h₂⟩ := ht fresh₁ rest
  refine ⟨fresh₂, ?_⟩
  rw [List.append_assoc, h₁, h₂, List.append_assoc]

theorem intact_flatMap {α : Type} {f : α → List Char} {l : List α} (h : ∀ a ∈ l, Intact (f a)) :
    Intact (l.flatMap f) := by
  induction l with
  | nil => exact intact_nil
  | cons a l ih =>
      rw [List.flatMap_cons]
      exact (h a (List.mem_cons_self ..)).append (ih fun b hb => h b (List.mem_cons_of_mem _ hb))

/-! ### Characters that start nothing -/

/-- The character starts neither a comment nor a quoted text. -/
def isPlain (c : Char) : Bool := c != '/' && c != '#' && c != '"'

theorem strip_cons {c : Char} (h : isPlain c) (fresh : Bool) (rest : List Char) :
    strip (.outside fresh) (c :: rest)
      = c :: strip (.outside (c == '\n' || fresh && Text.isBlank c)) rest := by
  simp only [isPlain, Bool.and_eq_true, bne_iff_ne, ne_eq] at h
  obtain ⟨⟨hslash, hhash⟩, hquote⟩ := h
  rw [strip]
  · exact fun _ h _ => hslash h
  · exact fun _ h _ => hslash h
  · exact fun _ h => hhash h
  · exact hquote

theorem intact_of_isPlain {t : List Char} (h : ∀ c ∈ t, isPlain c) : Intact t := by
  induction t with
  | nil => exact intact_nil
  | cons c t ih =>
      intro fresh rest
      obtain ⟨fresh', ht⟩ := ih (fun d hd => h d (List.mem_cons_of_mem _ hd))
        (c == '\n' || fresh && Text.isBlank c) rest
      exact ⟨fresh', by rw [List.cons_append, strip_cons (h c (List.mem_cons_self ..)), ht]; rfl⟩

theorem intact_of_all {t : List Char} (h : t.all isPlain) : Intact t :=
  intact_of_isPlain (List.all_eq_true.mp h)

theorem isPlain_of_isWordChar {c : Char} (h : isWordChar c) : isPlain c := by
  simp only [isPlain, Bool.and_eq_true, bne_iff_ne, ne_eq]
  refine ⟨⟨?_, ?_⟩, ?_⟩ <;> (rintro rfl; exact absurd h (by decide))

theorem isPlain_of_isNumberChar {c : Char} (h : Read.isNumberChar c) : isPlain c := by
  simp only [isPlain, Bool.and_eq_true, bne_iff_ne, ne_eq]
  refine ⟨⟨?_, ?_⟩, ?_⟩ <;> (rintro rfl; exact absurd h (by decide))

theorem forall_isPlain_of_isKeyTail {cs : List Char} (h : Read.isKeyTail cs) :
    ∀ c ∈ cs, isPlain c := by
  fun_induction Read.isKeyTail cs with
  | case1 c cs ih =>
      rw [Bool.and_eq_true] at h
      have hc := isPlain_of_isWordChar (Read.isWordChar_of_isWordStart h.1)
      simpa [hc] using And.intro (by decide : isPlain '.') (ih h.2)
  | case2 c cs hdot ih =>
      rw [Bool.and_eq_true] at h
      simpa [isPlain_of_isWordChar h.1] using ih h.2
  | case3 => simp

theorem intact_of_isDottedName {k : List Char} (h : isDottedName k) : Intact k := by
  cases k with
  | nil => exact intact_nil
  | cons c cs =>
      rw [Read.isDottedName_cons, Bool.and_eq_true] at h
      refine intact_of_isPlain (List.forall_mem_cons.mpr ⟨?_, forall_isPlain_of_isKeyTail h.2⟩)
      exact isPlain_of_isWordChar (Read.isWordChar_of_isWordStart h.1)

/-! ### Quotes -/

theorem strip_escapeChar (c : Char) (rest : List Char) :
    strip .quoted (escapeChar c ++ rest) = escapeChar c ++ strip .quoted rest := by
  unfold escapeChar
  split
  · rfl
  · split
    · rfl
    · split
      · rfl
      · next hb hq _ =>
        rw [List.singleton_append, strip]
        · rfl
        · exact fun _ _ h _ => hb h
        · exact hq

theorem strip_escape (cs rest : List Char) :
    strip .quoted (escape cs ++ '"' :: rest) = escape cs ++ '"' :: strip (.outside false) rest := by
  induction cs with
  | nil => rfl
  | cons c cs ih =>
      rw [escape, List.flatMap_cons, List.append_assoc, strip_escapeChar]
      change escapeChar c ++ strip .quoted (escape cs ++ '"' :: rest) = _
      rw [ih, List.append_assoc]
      rfl

theorem strip_quote (cs : List Char) (fresh : Bool) (rest : List Char) :
    strip (.outside fresh) (quote cs ++ rest) = quote cs ++ strip (.outside false) rest := by
  have h : quote cs ++ rest = '"' :: (escape cs ++ '"' :: rest) := by simp [quote]
  rw [h, strip, strip_escape]
  simp [quote]

theorem intact_quote (cs : List Char) : Intact (quote cs) := fun fresh rest =>
  ⟨false, strip_quote cs fresh rest⟩

/-! ### The pieces of a written graph -/

theorem intact_renderId (id : String) : Intact (renderId id) := by
  unfold renderId
  split
  · next h =>
    obtain ⟨c, cs, heq, hc, hcs, -⟩ := Read.isBareName_iff.mp h
    rw [heq]
    refine intact_of_isPlain (List.forall_mem_cons.mpr ⟨?_, ?_⟩)
    · exact isPlain_of_isWordChar (Read.isWordChar_of_isWordStart hc)
    · exact fun d hd => isPlain_of_isWordChar (hcs d hd)
  · exact intact_quote _

theorem intact_renderValue (v : AttrValue) : Intact (renderValue v) := by
  cases v with
  | text s => exact intact_quote _
  | integer i =>
      exact intact_of_isPlain fun c hc =>
        isPlain_of_isNumberChar (Read.isNumberChar_of_mem_intText hc)
  | real x =>
      exact intact_of_isPlain fun c hc =>
        isPlain_of_isNumberChar (Read.isNumberChar_of_mem_render hc)
  | boolean b => cases b <;> exact intact_of_all (by decide)

theorem intact_renderEntry {e : String × AttrValue} (h : isDottedName e.1.toList) :
    Intact (renderEntry e) :=
  (intact_of_isDottedName h).append
    ((intact_of_all (t := ['=']) (by decide)).append (intact_renderValue e.2))

theorem intact_renderAttrs {attrs : Attrs} (h : isDotted attrs) : Intact (renderAttrs attrs) := by
  have hentries := isDotted_iff.mp h
  cases heq : attrs.entries with
  | nil => rw [renderAttrs, heq]; exact intact_nil
  | cons e rest =>
      rw [heq] at hentries
      rw [renderAttrs_of_entries heq]
      refine (intact_renderEntry (hentries e (List.mem_cons_self ..))).append
        (intact_flatMap fun d hd => ?_)
      exact (intact_of_all (by decide)).append
        (intact_renderEntry (hentries d (List.mem_cons_of_mem _ hd)))

theorem intact_renderBlock {attrs : Attrs} (h : isDotted attrs) : Intact (renderBlock attrs) := by
  unfold renderBlock
  split
  · exact intact_nil
  · exact ((intact_of_all (t := [' ', '[']) (by decide)).append (intact_renderAttrs h)).append
      (intact_of_all (by decide))

theorem intact_renderNode {n : Node} (h : isDotted n.attrs) : Intact (renderNode n) :=
  (((intact_of_all (by decide)).append (intact_renderId n.id)).append
    (intact_renderBlock h)).append (intact_of_all (by decide))

theorem intact_renderEdge {e : Edge} (h : isDotted e.attrs) : Intact (renderEdge e) :=
  (((((intact_of_all (by decide)).append (intact_renderId e.source)).append
    (intact_of_all (by decide))).append (intact_renderId e.target)).append
    (intact_renderBlock h)).append (intact_of_all (by decide))

theorem intact_renderOpening (name : String) : Intact (renderOpening name) := by
  unfold renderOpening
  split
  · exact intact_of_all (by decide)
  · exact ((intact_of_all (by decide)).append (intact_renderId name)).append
      (intact_of_all (by decide))

theorem intact_renderGraphAttrs {attrs : Attrs} (h : isDotted attrs) :
    Intact (renderGraphAttrs attrs) := by
  unfold renderGraphAttrs
  split
  · exact intact_nil
  · exact (((intact_of_all (by decide)).append (intact_of_all (by decide))).append
      (intact_renderBlock h)).append (intact_of_all (by decide))

theorem intact_renderChars {g : Digraph} (h : g.hasDottedKeys) : Intact (renderChars g) := by
  obtain ⟨hgraph, hnodes, hedges⟩ := hasDottedKeys_iff.mp h
  refine (((((intact_renderOpening g.name).append (intact_renderGraphAttrs hgraph)).append
    (intact_flatMap fun n hn => intact_renderNode (hnodes n hn))).append ?_).append
    (intact_flatMap fun e he => intact_renderEdge (hedges e he))).append
    (intact_of_all (by decide))
  split
  · exact intact_of_all (by decide)
  · exact intact_nil

theorem stripComments_renderChars {g : Digraph} (h : g.hasDottedKeys) :
    stripComments (renderChars g) = renderChars g := by
  obtain ⟨fresh, hstrip⟩ := intact_renderChars h true []
  rw [List.append_nil] at hstrip
  rw [stripComments, hstrip, strip, List.append_nil]

/-!
## A graph read back from its own text

Writing a graph and reading the text gives the graph again, up to the lines its
statements stand on. What has to hold is said of keys and values only: keys are
dotted names, since they stand without quotes, and every value is read as what
it was. Texts, whole numbers and truth values always are.

`parse_render_of_rereads` is the general statement, with the values allowed to
change on the way.
-/

/-- The graph with every value of an attribute replaced by its image. -/
def mapValues (f : AttrValue → AttrValue) (g : Digraph) : Digraph where
  name := g.name
  attrs := g.attrs.mapValues f
  nodes := g.nodes.map fun n => { n with attrs := n.attrs.mapValues f }
  edges := g.edges.map fun e => { e with attrs := e.attrs.mapValues f }

variable {f : AttrValue → AttrValue}

/-! ### The statements that a graph is written as -/

/-- The statement is that of the node. -/
def IsNode (f : AttrValue → AttrValue) (n : Node) (st : Statement) : Prop :=
  ∃ left, st = .node left n.id (n.attrs.mapValues f)

/-- The statement is that of the edge. -/
def IsEdge (f : AttrValue → AttrValue) (e : Edge) (st : Statement) : Prop :=
  ∃ left, st = .edges left [e.source, e.target] (e.attrs.mapValues f)

/-- The statement of the attributes of the graph, if there are any. -/
def graphStatements (f : AttrValue → AttrValue) (attrs : Attrs) : List Statement :=
  if attrs.isEmpty then [] else [.graphAttrs (attrs.mapValues f)]

theorem nodesOf_edges {line : Nat → Nat} {defaults : Attrs} {edges : List Edge}
    {sts : List Statement} (h : List.Forall₂ (IsEdge f) edges sts) :
    nodesOf line defaults sts = [] := by
  induction h with
  | nil => rw [nodesOf]
  | cons he _ ih =>
      obtain ⟨left, rfl⟩ := he
      simpa only [nodesOf] using ih

theorem nodesOf_nodes {line : Nat → Nat} {nodes : List Node} {sts : List Statement}
    (h : List.Forall₂ (IsNode f) nodes sts) (rest : List Statement) :
    (nodesOf line ∅ (sts ++ rest)).map (fun n => { n with line := 0 })
      = nodes.map (fun n => { n with attrs := n.attrs.mapValues f, line := 0 })
        ++ (nodesOf line ∅ rest).map (fun n => { n with line := 0 }) := by
  induction h with
  | nil => rfl
  | cons hn _ ih =>
      obtain ⟨left, rfl⟩ := hn
      simp only [List.cons_append, nodesOf, List.map_cons, Keyed.empty_merge, ih]

theorem edgesOf_nodes {line : Nat → Nat} {defaults : Attrs} {nodes : List Node}
    {sts : List Statement} (h : List.Forall₂ (IsNode f) nodes sts) (rest : List Statement) :
    edgesOf line defaults (sts ++ rest) = edgesOf line defaults rest := by
  induction h with
  | nil => rfl
  | cons hn _ ih =>
      obtain ⟨left, rfl⟩ := hn
      simpa only [List.cons_append, edgesOf] using ih

theorem edgesOf_edges {line : Nat → Nat} {edges : List Edge} {sts : List Statement}
    (h : List.Forall₂ (IsEdge f) edges sts) :
    (edgesOf line ∅ sts).map (fun e => { e with line := 0 })
      = edges.map (fun e => { e with attrs := e.attrs.mapValues f, line := 0 }) := by
  induction h with
  | nil => rw [edgesOf]; rfl
  | cons he _ ih =>
      obtain ⟨left, rfl⟩ := he
      simp only [edgesOf, edgesOfChain, Keyed.empty_merge, List.map_append, List.map_cons, ih]
      rfl

theorem settingsOf_nodes {nodes : List Node} {sts : List Statement}
    (h : List.Forall₂ (IsNode f) nodes sts) (rest : List Statement) :
    settingsOf (sts ++ rest) = settingsOf rest := by
  induction h with
  | nil => rfl
  | cons hn _ ih =>
      obtain ⟨left, rfl⟩ := hn
      simpa only [List.cons_append, settingsOf] using ih

theorem settingsOf_edges {edges : List Edge} {sts : List Statement}
    (h : List.Forall₂ (IsEdge f) edges sts) : settingsOf sts = [] := by
  induction h with
  | nil => rw [settingsOf]
  | cons he _ ih =>
      obtain ⟨left, rfl⟩ := he
      simpa only [settingsOf] using ih

/-- The statements that a graph is written as declare the graph. -/
theorem unlined_ofStatements (line : Nat → Nat) {g : Digraph} {nodes edges : List Statement}
    (hnodes : List.Forall₂ (IsNode f) g.nodes nodes)
    (hedges : List.Forall₂ (IsEdge f) g.edges edges) :
    (ofStatements line g.name (graphStatements f g.attrs ++ (nodes ++ edges))).unlined
      = (g.mapValues f).unlined := by
  have hsettings : settingsOf (graphStatements f g.attrs ++ (nodes ++ edges))
      = (g.attrs.mapValues f).entries := by
    have htail : settingsOf (nodes ++ edges) = [] := by
      rw [settingsOf_nodes hnodes, settingsOf_edges hedges]
    unfold graphStatements
    split
    · next h => rw [Read.mapValues_of_isEmpty h]; exact htail
    · rw [List.singleton_append, settingsOf, htail, List.append_nil]
  have hnodesOf : nodesOf line ∅ (graphStatements f g.attrs ++ (nodes ++ edges))
      = nodesOf line ∅ (nodes ++ edges) := by
    unfold graphStatements
    split
    · rfl
    · rw [List.singleton_append, nodesOf]
      all_goals simp
  have hedgesOf : edgesOf line ∅ (graphStatements f g.attrs ++ (nodes ++ edges))
      = edgesOf line ∅ edges := by
    unfold graphStatements
    split
    · exact edgesOf_nodes hnodes edges
    · rw [List.singleton_append, edgesOf]
      · exact edgesOf_nodes hnodes edges
      all_goals simp
  simp only [unlined, ofStatements, mapValues, Digraph.mk.injEq, true_and]
  refine ⟨?_, ?_, ?_⟩
  · rw [hsettings, Keyed.ofList_entries]
  · rw [hnodesOf, nodesOf_nodes hnodes, nodesOf_edges hedges, List.map_map]
    simp
  · rw [hedgesOf, edgesOf_edges hedges, List.map_map]
    rfl

/-! ### The text of a graph -/

/-- The lines of the nodes, those of the edges, and the closing brace. -/
def renderBody (g : Digraph) : List Char :=
  g.nodes.flatMap renderNode
    ++ ((if !g.nodes.isEmpty && !g.edges.isEmpty then ['\n'] else [])
    ++ (g.edges.flatMap renderEdge ++ "\x7d\n".toList))

theorem renderChars_eq (g : Digraph) :
    renderChars g = renderOpening g.name ++ (renderGraphAttrs g.attrs ++ renderBody g) := by
  simp [renderChars, renderBody]

namespace Read

theorem startsLine_closing : StartsLine "\x7d\n".toList := ⟨'\x7d', ['\n'], rfl, .inr (.inr rfl)⟩

theorem statements_closing (most : Nat) :
    statements (most + 1) "\x7d\n".toList = .ok ([], "\x7d\n".toList) := rfl

/-- The lines of nodes and edges are read one by one. -/
theorem statements_renderBody {g : Digraph} (hnodes : ∀ n ∈ g.nodes, Rereads f n.attrs)
    (hedges : ∀ e ∈ g.edges, Rereads f e.attrs) (most : Nat) :
    StartsLine (renderBody g) ∧ ∃ nodes edges, List.Forall₂ (IsNode f) g.nodes nodes ∧
      List.Forall₂ (IsEdge f) g.edges edges ∧
      statements (most + g.edges.length + g.nodes.length + 1) (renderBody g)
        = .ok (nodes ++ edges, "\x7d\n".toList) := by
  obtain ⟨hline, edges, hforall, hread⟩ := statements_flatMap
    (fun e he => readsStatement_renderEdge (hedges e he)) startsLine_closing most
  have hsep : ∀ sep : List Char, (∀ c ∈ sep, isSpace c) →
      StartsLine (sep ++ (g.edges.flatMap renderEdge ++ "\x7d\n".toList)) ∧
      ∀ most, statements (most + 1) (sep ++ (g.edges.flatMap renderEdge ++ "\x7d\n".toList))
        = statements (most + 1) (g.edges.flatMap renderEdge ++ "\x7d\n".toList) := by
    intro sep hsep
    refine ⟨?_, fun most => ?_⟩
    · obtain ⟨c, rest, heq, hc⟩ := hline
      exact ⟨c, rest, by rw [skipSpace_append hsep, heq], hc⟩
    · rw [← statements_skipSpace, skipSpace_append hsep, statements_skipSpace]
  obtain ⟨hline', hmore⟩ := hsep (if !g.nodes.isEmpty && !g.edges.isEmpty then ['\n'] else [])
    (by split <;> simp [isSpace])
  obtain ⟨hline'', nodes, hforall', hread'⟩ := statements_flatMap
    (fun n hn => readsStatement_renderNode (hnodes n hn)) hline' (most + g.edges.length)
  refine ⟨hline'', nodes, edges, hforall', hforall, ?_⟩
  rw [renderBody, hread', hmore, hread, statements_closing, mapValue_mapValue]
  change Except.ok (nodes ++ (edges ++ []), _) = _
  rw [List.append_nil]

theorem length_renderBody (g : Digraph) :
    g.nodes.length + g.edges.length + 2 ≤ (renderBody g).length := by
  have hnodes := length_le_length_flatMap (l := g.nodes) (f := renderNode) (by simp [renderNode])
  have hedges := length_le_length_flatMap (l := g.edges) (f := renderEdge) (by simp [renderEdge])
  have hclosing : "\x7d\n".toList.length = 2 := rfl
  simp only [renderBody, List.length_append, hclosing]
  omega

/-- All lines of a written graph are read, whatever blanks stand before them. -/
theorem statements_renderGraphAttrs {g : Digraph} (h : ∀ a ∈ g.allAttrs, Rereads f a) {most : Nat}
    (hmost : g.edges.length + g.nodes.length + 1 ≤ most) :
    ∃ nodes edges, List.Forall₂ (IsNode f) g.nodes nodes ∧
      List.Forall₂ (IsEdge f) g.edges edges ∧
      statements (most + 1) ('\n' :: (renderGraphAttrs g.attrs ++ renderBody g))
        = .ok (graphStatements f g.attrs ++ (nodes ++ edges), "\x7d\n".toList) := by
  obtain ⟨hgraph, hnodes, hedges⟩ := forall_allAttrs.mp h
  obtain ⟨most, rfl⟩ : ∃ m, most = m + g.edges.length + g.nodes.length + 1 :=
    ⟨most - g.edges.length - g.nodes.length - 1, by omega⟩
  have hblank : ∀ most, statements (most + 1) ('\n' :: (renderGraphAttrs g.attrs ++ renderBody g))
      = statements (most + 1) (renderGraphAttrs g.attrs ++ renderBody g) := by
    intro most
    rw [← statements_skipSpace, skipSpace_lineFeed, statements_skipSpace]
  rw [hblank]
  cases hempty : g.attrs.isEmpty with
  | true =>
      obtain ⟨-, nodes, edges, hn, he, hread⟩ := statements_renderBody hnodes hedges (most + 1)
      refine ⟨nodes, edges, hn, he, ?_⟩
      rw [renderGraphAttrs, if_pos hempty, graphStatements, if_pos hempty, List.nil_append,
        List.nil_append, ← hread]
      congr 1
      omega
  | false =>
      obtain ⟨hline, nodes, edges, hn, he, hread⟩ := statements_renderBody hnodes hedges most
      obtain ⟨st, rfl, hfirst⟩ := statements_append (readsStatement_renderGraphAttrs hempty hgraph)
        hline (most + g.edges.length + g.nodes.length)
      refine ⟨nodes, edges, hn, he, ?_⟩
      rw [graphStatements, if_neg (by rw [hempty]; decide), hfirst, hread]
      rfl

/-- After the opening line there are statements, and then the end of the graph. -/
theorem graph_renderOpening (name : String) (text : List Char) :
    graph (renderOpening name ++ text)
      = (statements (text.length + 2) ('\n' :: text) >>= fun r =>
          expecting .closingDigraph (char '\x7d' (skipSpace r.2)) >>= fun c =>
            .ok ((name, r.1), skipSpace c.2)) := by
  have hspace : ∀ s, skipSpace ("digraph".toList ++ s) = "digraph".toList ++ s := fun _ => rfl
  have hstrict : ∀ s, dropWord? "strict".toList ("digraph".toList ++ s) = none := fun _ => rfl
  have hundirected : ∀ s, dropWord? "graph".toList ("digraph".toList ++ s) = none := fun _ => rfl
  have hbrace : ∀ s, char '\x7b' (skipSpace (' ' :: '\x7b' :: s)) = .ok ((), s) := fun _ => rfl
  cases hempty : name.isEmpty with
  | true =>
      have hname : name = "" := String.isEmpty_iff.mp hempty
      have hopening : renderOpening name ++ text = "digraph".toList ++
          (' ' :: '\x7b' :: '\n' :: text) := by
        rw [renderOpening, if_pos hempty]
        rfl
      rw [hopening, graph, hspace, hstrict, hundirected, word_append, hname]
      rfl
  | false =>
      have hopening : renderOpening name ++ text
          = "digraph".toList ++ (' ' :: (renderId name ++ (' ' :: '\x7b' :: '\n' :: text))) := by
        rw [renderOpening, if_neg (by rw [hempty]; decide)]
        simp
      have hskip : skipSpace (' ' :: (renderId name ++ (' ' :: '\x7b' :: '\n' :: text)))
          = renderId name ++ (' ' :: '\x7b' :: '\n' :: text) := skipSpace_renderId _ _
      have hname : Read.name (renderId name ++ (' ' :: '\x7b' :: '\n' :: text))
          = .ok (name, ' ' :: '\x7b' :: '\n' :: text) := name_renderId _ rfl
      rw [hopening, graph, hspace, hstrict, hundirected, word_append]
      simp only [Option.isSome_none, Bool.false_eq_true, if_false, expecting, bind, Except.bind,
        hskip, hname, optional, hbrace, Option.getD_some]
      rfl

end Read

/-- The graph with its values replaced by their images is what its text is read as. -/
theorem parse_render_of_rereads {g : Digraph} (h : ∀ a ∈ g.allAttrs, Read.Rereads f a) :
    ∃ g', parse g.render = .ok g' ∧ g'.unlined = (g.mapValues f).unlined := by
  have hkeys : g.hasDottedKeys := by
    rw [hasDottedKeys, List.all_eq_true]
    exact fun a ha => isDotted_iff.mpr fun e he => (h a ha e he).1
  have hlength := Read.length_renderBody g
  have hmost : g.edges.length + g.nodes.length + 1
      ≤ (renderGraphAttrs g.attrs ++ renderBody g).length + 1 := by
    rw [List.length_append]
    omega
  obtain ⟨nodes, edges, hnodes, hedges, hread⟩ := Read.statements_renderGraphAttrs h hmost
  refine ⟨_, ?_, unlined_ofStatements (lineAt (renderChars g)) hnodes hedges⟩
  have hgraph : Read.graph (renderChars g)
      = .ok ((g.name, graphStatements f g.attrs ++ (nodes ++ edges)), []) := by
    rw [renderChars_eq, Read.graph_renderOpening, hread]
    rfl
  rw [parse, render, String.toList_ofList, stripComments_renderChars hkeys, parseStripped, hgraph]
  rfl

/-! ### Graphs without real numbers -/

def isReal : AttrValue → Bool
  | .real _ => true
  | _ => false

/-- No attribute of the graph is a real number. -/
def hasNoReals (g : Digraph) : Bool :=
  g.allAttrs.all fun attrs => attrs.entries.all fun e => !isReal e.2

theorem readsAs_of_not_isReal {v : AttrValue} (h : isReal v = false) : Read.ReadsAs v v := by
  cases v with
  | text s => exact Read.readsAs_text s
  | integer i => exact Read.readsAs_integer i
  | real x => exact absurd h (by simp [isReal])
  | boolean b => exact Read.readsAs_boolean b

theorem rereads_id {g : Digraph} (hkeys : g.hasDottedKeys) (hreals : g.hasNoReals) :
    ∀ attrs ∈ g.allAttrs, Read.Rereads id attrs := by
  intro attrs hattrs e he
  refine ⟨isDotted_iff.mp (List.all_eq_true.mp hkeys attrs hattrs) e he, ?_⟩
  have hreal := List.all_eq_true.mp (List.all_eq_true.mp hreals attrs hattrs) e he
  exact readsAs_of_not_isReal (by simpa using hreal)

theorem mapValues_id (g : Digraph) : g.mapValues id = g := by
  have h : ∀ attrs : Attrs, attrs.mapValues id = attrs := fun attrs => Keyed.ext (List.map_id _)
  obtain ⟨name, attrs, nodes, edges⟩ := g
  simp [mapValues, h]

/-- A graph with dotted names as keys and without real numbers is read back from its
own text, whatever texts it holds. -/
theorem parse_render {g : Digraph} (hkeys : g.hasDottedKeys) (hreals : g.hasNoReals) :
    ∃ g', parse g.render = .ok g' ∧ g'.unlined = g.unlined := by
  obtain ⟨g', hparse, hg⟩ := parse_render_of_rereads (rereads_id hkeys hreals)
  exact ⟨g', hparse, by rw [hg, mapValues_id]⟩

/-- A graph whose names and texts look like other parts of the language. -/
def trickyGraph : Digraph where
  name := "\x7d\n/\x2f \"\\"
  attrs := ⟨[("_", .text "a /\x2a b"), ("a.b_1", .integer (-9223372036854775808))], by decide⟩
  nodes :=
    [⟨"subgraph", ∅, 1⟩, ⟨"node_2", ∅, 2⟩, ⟨"graphs", ⟨[("k", .boolean true)], by decide⟩, 3⟩,
     ⟨"", ⟨[("label", .text "\"]; \x7d\n#\\n")], by decide⟩, 4⟩, ⟨"é", ∅, 4⟩]
  edges := [⟨"edge", "subgraph1", ∅, 5⟩, ⟨"", "-> b", ⟨[("x", .text "")], by decide⟩, 6⟩]

theorem parse_render_trickyGraph : trickyGraph.hasDottedKeys ∧ trickyGraph.hasNoReals ∧
    ∃ g', parse trickyGraph.render = .ok g' ∧ g'.unlined = trickyGraph.unlined :=
  ⟨by decide, by decide, parse_render (by decide) (by decide)⟩

end Pipewright.Digraph
