import Pipewright.Proofs.Digraph.Places
import Pipewright.Proofs.Digraph.Soundness

/-!
# Scopes of defaults

Nodes and edges are listed in the order of the text, and each of their
attributes comes from their own statement, or else from the last default in
scope of its place that sets the key (`scoping`).

Nodes and edges are found in the same way, `walk`: the defaults are carried
along a block, extended by each default statement, handed to the blocks in it
and given up at its end. What they are at a place is told by `Last`, one step of
which belongs to each step of the walk.
-/

namespace Pipewright.Digraph

def Statement.forNodes : Statement → Attrs
  | .nodeDefaults attrs => attrs
  | _ => ∅

def Statement.forEdges : Statement → Attrs
  | .edgeDefaults attrs => attrs
  | _ => ∅

def Statement.isNode : Statement → Bool
  | .node .. => true
  | _ => false

def Statement.isChain : Statement → Bool
  | .edges .. => true
  | _ => false

/-- The attributes are the statement's own where these set the key, and else what the last default
in scope of the place sets it to, if there is one. -/
def Scoped (adds : Statement → Attrs) (body : List Statement) (p : List Nat) (own attrs : Attrs) :
    Prop :=
  ∀ k, ∃ o, Last (fun st k => (adds st).get? k) (InScope · p) body k o ∧
    attrs.get? k = (own.get? k).or o

/-! ## Walks -/

section Walk

variable {β : Type}

/-- What the statements give with the defaults in force where each one stands. -/
def walk (adds : Statement → Attrs) (gives : Attrs → Statement → List β) (defaults : Attrs) :
    List Statement → List β
  | [] => []
  | .subgraph body :: rest => walk adds gives defaults body ++ walk adds gives defaults rest
  | s :: rest => gives defaults s ++ walk adds gives (defaults.merge (adds s)) rest

/-- The attributes are the defaults in force at the place, where the outer ones hold as well. -/
def InForce (adds : Statement → Attrs) (outer : Attrs) (body : List Statement) (p : List Nat)
    (attrs : Attrs) : Prop :=
  ∀ k, ∃ o, Last (fun st k => (adds st).get? k) (InScope · p) body k o ∧
    attrs.get? k = o.or (outer.get? k)

/-- What the statement at the place, which is wanted, gives with the defaults in force there. -/
def Given (adds : Statement → Attrs) (gives : Attrs → Statement → List β)
    (wanted : Statement → Bool) (outer : Attrs) (body : List Statement) (p : List Nat)
    (group : List β) : Prop :=
  ∃ st attrs, at? body p = some st ∧ wanted st ∧ group = gives attrs st ∧
    InForce adds outer body p attrs

variable {adds : Statement → Attrs} {gives : Attrs → Statement → List β}
  {wanted : Statement → Bool} {outer : Attrs} {s : Statement} {rest inner : List Statement}
  {p : List Nat} {group : List β}

theorem given_first (hwanted : wanted s) (outer : Attrs) (rest : List Statement) :
    Given adds gives wanted outer (s :: rest) [0] (gives outer s) :=
  ⟨s, outer, rfl, hwanted, rfl, fun _ => ⟨none, last_first (List.cons_ne_nil s rest), rfl⟩⟩

theorem Given.past (h : Given adds gives wanted (outer.merge (adds s)) rest p group) :
    Given adds gives wanted outer (s :: rest) (past p) group := by
  obtain ⟨st, attrs, hat, hwanted, hgroup, hforce⟩ := h
  refine ⟨st, attrs, by rwa [at?_past], hwanted, hgroup, fun k => ?_⟩
  obtain ⟨o, hlast, hattrs⟩ := hforce k
  refine ⟨o.or ((adds s).get? k), hlast.past (ne_nil_of_at? hat), ?_⟩
  rw [hattrs, Keyed.get?_merge, Option.or_assoc]

theorem Given.into (hblock : adds (.subgraph inner) = ∅)
    (h : Given adds gives wanted outer inner p group) :
    Given adds gives wanted outer (.subgraph inner :: rest) (0 :: p) group := by
  obtain ⟨st, attrs, hat, hwanted, hgroup, hforce⟩ := h
  have hp := ne_nil_of_at? hat
  refine ⟨st, attrs, by rwa [at?_block hp], hwanted, hgroup, fun k => ?_⟩
  obtain ⟨o, hlast, hattrs⟩ := hforce k
  have hnone : (adds (.subgraph inner)).get? k = none := by rw [hblock]; rfl
  exact ⟨o, hlast.into hp hnone, hattrs⟩

theorem walk_leaf (hs : ∀ inner, s ≠ .subgraph inner) (defaults : Attrs)
    (rest : List Statement) : walk adds gives defaults (s :: rest)
      = gives defaults s ++ walk adds gives (defaults.merge (adds s)) rest := by
  rw [walk]
  exact hs

/-- A walk gives what the statements that are wanted give, in the order of the text and each with
the defaults in force at its place. -/
theorem walk_spec (hgives : ∀ d st, wanted st = false → gives d st = [])
    (hblock : ∀ inner, wanted (.subgraph inner) = false ∧ adds (.subgraph inner) = ∅)
    (outer : Attrs) (body : List Statement) :
    ∃ ps groups, Places body wanted ps ∧ walk adds gives outer body = groups.flatten ∧
      List.Forall₂ (Given adds gives wanted outer body) ps groups := by
  fun_induction walk adds gives outer body with
  | case1 outer => exact ⟨[], [], places_nil, rfl, .nil⟩
  | case2 outer inner rest ihinner ihrest =>
      obtain ⟨hwanted, hadds⟩ := hblock inner
      obtain ⟨ps, groups, hps, hgroups, hinner⟩ := ihinner
      obtain ⟨qs, groups', hqs, hgroups', hrest⟩ := ihrest
      refine ⟨ps.map (0 :: ·) ++ qs.map past, groups ++ groups', (hps.block hwanted).cons hqs, ?_,
        List.rel_append ?_ ?_⟩
      · rw [hgroups, hgroups', List.flatten_append]
      · exact List.forall₂_map_left_iff.mpr (hinner.imp fun _ _ h => h.into hadds)
      · refine List.forall₂_map_left_iff.mpr (hrest.imp fun _ _ h => Given.past ?_)
        rwa [hadds]
  | case3 outer s rest hs ihrest =>
      obtain ⟨qs, groups', hqs, hgroups', hrest⟩ := ihrest
      have hafter :
          List.Forall₂ (Given adds gives wanted outer (s :: rest)) (qs.map past) groups' :=
        List.forall₂_map_left_iff.mpr (hrest.imp fun _ _ h => h.past)
      have hplaces : Places (s :: rest) wanted _ := (places_leaf hs).cons hqs
      cases hwanted : wanted s with
      | true =>
          rw [if_pos hwanted] at hplaces
          refine ⟨[0] :: qs.map past, gives outer s :: groups', hplaces, ?_, ?_⟩
          · rw [hgroups', List.flatten_cons]
          · exact .cons (given_first hwanted outer rest) hafter
      | false =>
          rw [if_neg (by rw [hwanted]; exact Bool.false_ne_true)] at hplaces
          refine ⟨qs.map past, groups', hplaces, ?_, hafter⟩
          rw [hgroups', hgives outer s hwanted, List.nil_append]

end Walk

/-! ## Nodes and edges -/

def nodeGiven (line : Nat → Nat) (defaults : Attrs) : Statement → List Node
  | .node left id attrs => [⟨id, defaults.merge attrs, line left⟩]
  | _ => []

def edgesGiven (line : Nat → Nat) (defaults : Attrs) : Statement → List Edge
  | .edges left chain attrs => edgesOfChain (line left) (defaults.merge attrs) chain
  | _ => []

theorem nodesOf_eq_walk (line : Nat → Nat) (defaults : Attrs) (body : List Statement) :
    nodesOf line defaults body = walk Statement.forNodes (nodeGiven line) defaults body := by
  fun_induction walk Statement.forNodes (nodeGiven line) defaults body with
  | case1 => rw [nodesOf]
  | case2 defaults inner rest ihinner ihrest => rw [nodesOf, ihinner, ihrest]
  | case3 defaults s rest hs ih =>
      rw [← ih]
      cases s with
      | subgraph inner => exact absurd rfl (hs inner)
      | _ => simp [nodesOf, nodeGiven, Statement.forNodes]

theorem edgesOf_eq_walk (line : Nat → Nat) (defaults : Attrs) (body : List Statement) :
    edgesOf line defaults body = walk Statement.forEdges (edgesGiven line) defaults body := by
  fun_induction walk Statement.forEdges (edgesGiven line) defaults body with
  | case1 => rw [edgesOf]
  | case2 defaults inner rest ihinner ihrest => rw [edgesOf, ihinner, ihrest]
  | case3 defaults s rest hs ih =>
      rw [← ih]
      cases s with
      | subgraph inner => exact absurd rfl (hs inner)
      | _ => simp [edgesOf, edgesGiven, Statement.forEdges]

/-- The node is the one of the statement at the place. -/
def NodeAt (line : Nat → Nat) (body : List Statement) (p : List Nat) (n : Node) : Prop :=
  ∃ left own, at? body p = some (.node left n.id own) ∧ n.line = line left ∧
    Scoped Statement.forNodes body p own n.attrs

/-- The edges are those of the chain at the place: one between each name and the next, all with
the same attributes. -/
def EdgesAt (line : Nat → Nat) (body : List Statement) (p : List Nat) (es : List Edge) : Prop :=
  ∃ left chain own attrs, at? body p = some (.edges left chain own) ∧
    Scoped Statement.forEdges body p own attrs ∧ es.length = chain.length - 1 ∧
    ∀ i e, es[i]? = some e → chain[i]? = some e.source ∧ chain[i + 1]? = some e.target ∧
      e.attrs = attrs ∧ e.line = line left

theorem scoped_merge {adds : Statement → Attrs} {body : List Statement} {p : List Nat}
    {defaults : Attrs} (h : InForce adds ∅ body p defaults) (own : Attrs) :
    Scoped adds body p own (defaults.merge own) := by
  intro k
  obtain ⟨o, hlast, hdefaults⟩ := h k
  refine ⟨o, hlast, ?_⟩
  rw [Keyed.get?_merge, hdefaults, Keyed.get?_empty, Option.or_none]

theorem forall₂_flatten {α β : Type} {R : α → β → Prop} {l : List α} {groups : List (List β)}
    (h : List.Forall₂ (fun a group => ∃ b, group = [b] ∧ R a b) l groups) :
    List.Forall₂ R l groups.flatten := by
  induction h with
  | nil => exact .nil
  | cons hhead _ ih =>
      obtain ⟨b, rfl, hb⟩ := hhead
      exact .cons hb ih

theorem places_nodesOf (line : Nat → Nat) (body : List Statement) :
    ∃ ps, Places body Statement.isNode ps ∧
      List.Forall₂ (NodeAt line body) ps (nodesOf line ∅ body) := by
  have hgives : ∀ d st, st.isNode = false → nodeGiven line d st = [] := by
    intro d st hst
    cases st with
    | node => cases hst
    | _ => rfl
  have hblock : ∀ inner, (Statement.subgraph inner).isNode = false ∧
      (Statement.subgraph inner).forNodes = ∅ := fun _ => ⟨rfl, rfl⟩
  obtain ⟨ps, groups, hps, hwalk, hgroups⟩ := walk_spec hgives hblock ∅ body
  refine ⟨ps, hps, ?_⟩
  rw [nodesOf_eq_walk, hwalk]
  refine forall₂_flatten (hgroups.imp fun p group h => ?_)
  obtain ⟨st, defaults, hat, hst, rfl, hforce⟩ := h
  cases st with
  | node left id own => exact ⟨_, rfl, left, own, hat, rfl, scoped_merge hforce own⟩
  | _ => cases hst

theorem length_edgesOfChain (line : Nat) (attrs : Attrs) (chain : List String) :
    (edgesOfChain line attrs chain).length = chain.length - 1 := by
  rw [edgesOfChain, List.length_map, List.length_zip, List.length_tail]
  omega

theorem getElem?_edgesOfChain {line : Nat} {attrs : Attrs} {chain : List String} {i : Nat}
    {e : Edge} (h : (edgesOfChain line attrs chain)[i]? = some e) :
    chain[i]? = some e.source ∧ chain[i + 1]? = some e.target ∧ e.attrs = attrs ∧
      e.line = line := by
  rw [edgesOfChain, List.getElem?_map, Option.map_eq_some_iff] at h
  obtain ⟨⟨source, target⟩, hpair, rfl⟩ := h
  rw [List.getElem?_zip_eq_some, List.getElem?_tail] at hpair
  exact ⟨hpair.1, hpair.2, rfl, rfl⟩

theorem places_edgesOf (line : Nat → Nat) (body : List Statement) :
    ∃ ps groups, Places body Statement.isChain ps ∧ edgesOf line ∅ body = groups.flatten ∧
      List.Forall₂ (EdgesAt line body) ps groups := by
  have hgives : ∀ d st, st.isChain = false → edgesGiven line d st = [] := by
    intro d st hst
    cases st with
    | edges => cases hst
    | _ => rfl
  have hblock : ∀ inner, (Statement.subgraph inner).isChain = false ∧
      (Statement.subgraph inner).forEdges = ∅ := fun _ => ⟨rfl, rfl⟩
  obtain ⟨ps, groups, hps, hwalk, hgroups⟩ := walk_spec hgives hblock ∅ body
  refine ⟨ps, groups, hps, by rw [edgesOf_eq_walk, hwalk], hgroups.imp fun p group h => ?_⟩
  obtain ⟨st, defaults, hat, hst, rfl, hforce⟩ := h
  cases st with
  | edges left chain own =>
      exact ⟨left, chain, own, defaults.merge own, hat, scoped_merge hforce own,
        length_edgesOfChain .., fun _ _ => getElem?_edgesOfChain⟩
  | _ => cases hst

/-! ## Statements in the text -/

section Text

open Grammar

theorem stmt_of_mem {s rest : List Char} {body : List Statement} {st : Statement}
    (h : Stmts s body rest) (hst : st ∈ body) : ∃ s' rest', s' <:+ s ∧ Stmt s' st rest' := by
  induction body generalizing s with
  | nil => exact absurd hst List.not_mem_nil
  | cons first body ih =>
      cases h with
      | cons hspace hfirst hmore =>
          rcases List.mem_cons.mp hst with rfl | hst
          · exact ⟨_, _, hspace.isSuffix, hfirst⟩
          · obtain ⟨s', rest', hs', hstmt⟩ := ih hmore hst
            exact ⟨s', rest', hs'.trans (hfirst.isSuffix.trans hspace.isSuffix), hstmt⟩

/-- What is in a block is derived from the text between its braces. -/
theorem stmts_of_subgraph {s rest : List Char} {inner : List Statement}
    (h : Stmt s (.subgraph inner) rest) : ∃ s₁ rest₁, s₁ <:+ s ∧ Stmts s₁ inner rest₁ := by
  generalize hst : Statement.subgraph inner = st at h
  cases h with
  | block hform =>
      simp only [blockForms, List.mem_cons, Prod.mk.injEq, List.not_mem_nil, or_false] at hform
      rcases hform with ⟨-, rfl⟩ | ⟨-, rfl⟩ | ⟨-, rfl⟩ <;> cases hst
  | subgraph hspace hid hopen hbody hend =>
      obtain rfl := Statement.subgraph.inj hst
      have hname := (hid.isSuffix fun _ => Id.isSuffix).trans hspace.isSuffix
      have hinner := ((List.suffix_cons '\x7b' _).trans hopen.isSuffix).trans hname
      exact ⟨_, _, hinner.trans (List.suffix_append "subgraph".toList _), hbody⟩
  | edges => cases hst
  | node => cases hst
  | graphAttr => cases hst
  | bareNode => cases hst

/-- Every statement of the tree is derived from the text where it stands. -/
theorem stmt_of_at? {s rest : List Char} {body : List Statement} {p : List Nat} {st : Statement}
    (h : Stmts s body rest) (hat : at? body p = some st) :
    ∃ s' rest', s' <:+ s ∧ Stmt s' st rest' := by
  fun_induction at? body p generalizing s rest with
  | case1 => cases hat
  | case2 body i => exact stmt_of_mem h (List.mem_of_getElem? hat)
  | case3 body i j p inner hinner ih =>
      obtain ⟨s₁, rest₁, hs₁, hblock⟩ := stmt_of_mem h (List.mem_of_getElem? hinner)
      obtain ⟨s₂, rest₂, hs₂, hstmts⟩ := stmts_of_subgraph hblock
      obtain ⟨s', rest', hs', hstmt⟩ := ih hstmts hat
      exact ⟨s', rest', hs'.trans (hs₂.trans hs₁), hstmt⟩
  | case4 => cases hat

/-- Of the pairs in a block the last one with a key says what the key is set to. -/
theorem get?_of_block {s rest : List Char} {attrs : Attrs} (h : Block s attrs rest) :
    ∃ s₁ s₂ l, s = '[' :: s₁ ∧ Ws s₁ s₂ ∧ Pairs s₂ l (']' :: rest) ∧
      ∀ k, attrs.get? k = l.reverse.lookup k := by
  obtain ⟨hspace, hpairs⟩ := h
  exact ⟨_, _, _, rfl, hspace, hpairs, fun k => Keyed.get?_ofList _ k⟩

/-- Whatever tree of statements is read, with blocks nested to any depth: the nodes and the edges
are those of its statements in the order of the text, a chain of names giving one edge between each
name and the next, all with the same attributes. Each has for a key what its statement's own block
says last, or else what the last default before it says, in its block or in one around that, and
otherwise nothing; defaults in other blocks are out of scope. The statements, with their blocks,
are those of the text. -/
theorem scoping {s rest : List Char} {name : String} {body : List Statement}
    (h : Read.graph s = .ok ((name, body), rest)) (line : Nat → Nat) :
    (∃ ps, Places body Statement.isNode ps ∧
      List.Forall₂ (NodeAt line body) ps (ofStatements line name body).nodes) ∧
    (∃ ps groups, Places body Statement.isChain ps ∧
      (ofStatements line name body).edges = groups.flatten ∧
      List.Forall₂ (EdgesAt line body) ps groups) ∧
    (∀ p st, at? body p = some st → ∃ s' rest', s' <:+ s ∧ Stmt s' st rest') ∧
    (∀ s' rest' attrs, Block s' attrs rest' → ∃ s₁ s₂ l, s' = '[' :: s₁ ∧ Ws s₁ s₂ ∧
      Pairs s₂ l (']' :: rest') ∧ ∀ k, attrs.get? k = l.reverse.lookup k) := by
  refine ⟨places_nodesOf line body, places_edgesOf line body, fun p st hat => ?_,
    fun _ _ _ => get?_of_block⟩
  obtain ⟨rest', hgraph, -⟩ := Read.leads_graph s (name, body) rest h
  obtain ⟨hword, hspace, hid, hopen, hbody⟩ := hgraph
  obtain ⟨s', rest'', hs', hstmt⟩ := stmt_of_at? hbody hat
  have hname := (hid.isSuffix fun _ => Id.isSuffix).trans hspace.isSuffix
  have hfront := hname.trans ((List.suffix_append _ _).trans hword.isSuffix)
  have hinner := ((List.suffix_cons '\x7b' _).trans hopen.isSuffix).trans hfront
  exact ⟨s', rest'', hs'.trans hinner, hstmt⟩

end Text

/-- Defaults before, in and after a block, one of which sets a key twice. -/
def nestedText : String :=
  "digraph \x7b node [a=1, a=2] u subgraph \x7b node [a=3] v [b=1] edge [c=1] u -> v -> w \x7d
 w node [a=4] u -> w \x7d"

/-- Each node and edge has the defaults of the block it stands in: the block's `a` is gone after
it, and so are its edge defaults. -/
theorem scoping_nestedText : ∃ name body rest,
    Read.graph nestedText.toList = .ok ((name, body), rest) ∧
    ((ofStatements id name body).nodes.map fun n => (n.id, n.attrs)) =
      [("u", .ofList [("a", .integer 2)]), ("v", .ofList [("a", .integer 3), ("b", .integer 1)]),
        ("w", .ofList [("a", .integer 2)])] ∧
    ((ofStatements id name body).edges.map fun e => (e.source, e.target, e.attrs)) =
      [("u", "v", .ofList [("c", .integer 1)]), ("v", "w", .ofList [("c", .integer 1)]),
        ("u", "w", ∅)] ∧
    (∃ ps, Places body Statement.isNode ps ∧
      List.Forall₂ (NodeAt id body) ps (ofStatements id name body).nodes) ∧
    (∃ ps groups, Places body Statement.isChain ps ∧
      (ofStatements id name body).edges = groups.flatten ∧
      List.Forall₂ (EdgesAt id body) ps groups) ∧
    (∀ p st, at? body p = some st → ∃ s' rest', s' <:+ nestedText.toList ∧
      Grammar.Stmt s' st rest') ∧
    (∀ s' rest' attrs, Grammar.Block s' attrs rest' → ∃ s₁ s₂ l, s' = '[' :: s₁ ∧
      Grammar.Ws s₁ s₂ ∧ Grammar.Pairs s₂ l (']' :: rest') ∧
      ∀ k, attrs.get? k = l.reverse.lookup k) := by
  have hread : (Read.graph nestedText.toList).map (fun r =>
      ((ofStatements id r.1.1 r.1.2).nodes.map fun n => (n.id, n.attrs),
        (ofStatements id r.1.1 r.1.2).edges.map fun e => (e.source, e.target, e.attrs))) =
      .ok ([("u", .ofList [("a", .integer 2)]),
          ("v", .ofList [("a", .integer 3), ("b", .integer 1)]),
            ("w", .ofList [("a", .integer 2)])],
        [("u", "v", .ofList [("c", .integer 1)]), ("v", "w", .ofList [("c", .integer 1)]),
          ("u", "w", ∅)]) := by decide +kernel
  cases hgraph : Read.graph nestedText.toList with
  | error f => rw [hgraph] at hread; cases hread
  | ok r =>
      obtain ⟨⟨name, body⟩, rest⟩ := r
      rw [hgraph] at hread
      obtain ⟨hnodes, hedges⟩ := Prod.mk.inj (Except.ok.inj hread)
      exact ⟨name, body, rest, rfl, hnodes, hedges, scoping hgraph id⟩

end Pipewright.Digraph
