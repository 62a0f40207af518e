import Pipewright.Proofs.Digraph.Scoping
import Pipewright.Proofs.Pipeline.Lifting

/-!
# Attributes that are set in blocks

The end of a block takes its defaults back, but not the attributes that are set
on the graph: the last setting of a key in the text counts, in whatever block it
stands. `outerOnly` takes the settings out of all blocks. The nodes and edges are
then the same as before, and the attributes are those that the outer settings
say; so a graph has the attributes of what is left just if no setting in a block
has the last word with a value of its own (`parse_settings`).
-/

namespace Pipewright.Digraph

/-- What the statement sets an attribute of the graph to. -/
def Statement.setting : Statement → String → Option AttrValue
  | .graphAttrs attrs, k => attrs.get? k
  | .graphAttr key v, k => if k = key then some v else none
  | _, _ => none

def Statement.isSetting : Statement → Bool
  | .graphAttrs _ => true
  | .graphAttr _ _ => true
  | _ => false

/-- The statements without those that set attributes of the graph, at every depth. -/
def unset : List Statement → List Statement
  | [] => []
  | .subgraph body :: rest => .subgraph (unset body) :: unset rest
  | s :: rest => (if s.isSetting then [] else [s]) ++ unset rest
termination_by body => sizeOf body

/-- The statements without those in blocks that set attributes of the graph. -/
def outerOnly : List Statement → List Statement
  | [] => []
  | .subgraph body :: rest => .subgraph (unset body) :: outerOnly rest
  | s :: rest => s :: outerOnly rest

def IsOuter (p : List Nat) : Prop := p.length = 1

/-! ## Nodes and edges -/

section Walk

variable {β : Type} {adds : Statement → Attrs} {gives : Attrs → Statement → List β}

/-- A walk to which settings mean nothing goes over the blocks without them in the same way. -/
theorem walk_unset
    (h : ∀ s, s.isSetting → adds s = ∅ ∧ ∀ defaults, gives defaults s = []) (defaults : Attrs)
    (body : List Statement) :
    walk adds gives defaults (unset body) = walk adds gives defaults body := by
  fun_induction unset body generalizing defaults with
  | case1 => rfl
  | case2 inner rest ihinner ihrest => rw [walk, walk, ihinner, ihrest]
  | case3 s rest hs ih =>
      by_cases hsetting : s.isSetting
      · obtain ⟨hadds, hgives⟩ := h s hsetting
        rw [if_pos hsetting, List.nil_append, walk_leaf hs, hadds, hgives, Keyed.merge_empty,
          List.nil_append, ih]
      · rw [if_neg hsetting, List.singleton_append, walk_leaf hs, walk_leaf hs, ih]

theorem walk_outerOnly
    (h : ∀ s, s.isSetting → adds s = ∅ ∧ ∀ defaults, gives defaults s = []) (defaults : Attrs)
    (body : List Statement) :
    walk adds gives defaults (outerOnly body) = walk adds gives defaults body := by
  fun_induction outerOnly body generalizing defaults with
  | case1 => rfl
  | case2 inner rest ih => rw [walk, walk, walk_unset h, ih]
  | case3 s rest hs ih => rw [walk_leaf hs, walk_leaf hs, ih]

end Walk

theorem nodesOf_outerOnly (line : Nat → Nat) (body : List Statement) :
    nodesOf line ∅ (outerOnly body) = nodesOf line ∅ body := by
  rw [nodesOf_eq_walk, nodesOf_eq_walk]
  refine walk_outerOnly (fun s hs => ?_) ∅ body
  cases s with
  | graphAttrs => exact ⟨rfl, fun _ => rfl⟩
  | graphAttr => exact ⟨rfl, fun _ => rfl⟩
  | _ => cases hs

theorem edgesOf_outerOnly (line : Nat → Nat) (body : List Statement) :
    edgesOf line ∅ (outerOnly body) = edgesOf line ∅ body := by
  rw [edgesOf_eq_walk, edgesOf_eq_walk]
  refine walk_outerOnly (fun s hs => ?_) ∅ body
  cases s with
  | graphAttrs => exact ⟨rfl, fun _ => rfl⟩
  | graphAttr => exact ⟨rfl, fun _ => rfl⟩
  | _ => cases hs

/-! ## Attributes of the graph -/

theorem settingsOf_leaf {s : Statement} (hs : ∀ inner, s ≠ .subgraph inner)
    (rest : List Statement) :
    ∃ l, settingsOf (s :: rest) = l ++ settingsOf rest ∧
      ∀ k, l.reverse.lookup k = s.setting k := by
  cases s with
  | graphAttrs attrs =>
      refine ⟨attrs.entries, by rw [settingsOf], fun k => ?_⟩
      rw [← Keyed.get?_ofList, Keyed.ofList_entries]
      rfl
  | graphAttr key v =>
      refine ⟨[(key, v)], by rw [settingsOf]; rfl, fun k => ?_⟩
      exact Keyed.lookup_cons_if key k v []
  | subgraph inner => exact absurd rfl (hs inner)
  | _ => exact ⟨[], by simp [settingsOf], fun _ => rfl⟩

theorem last_settingsOf (body : List Statement) (k : String) :
    Last Statement.setting (fun _ => True) body k ((settingsOf body).reverse.lookup k) := by
  fun_induction unset body with
  | case1 =>
      rw [settingsOf]
      exact last_nil
  | case2 inner rest ihinner ihrest =>
      rw [settingsOf, List.reverse_append, List.lookup_append]
      exact (Last.block rfl ihinner).cons ihrest
  | case3 s rest hs ih =>
      obtain ⟨l, hl, hsetting⟩ := settingsOf_leaf hs rest
      rw [hl, List.reverse_append, List.lookup_append, hsetting]
      exact (last_leaf hs trivial).cons ih

theorem settingsOf_unset (body : List Statement) : settingsOf (unset body) = [] := by
  fun_induction unset body with
  | case1 => rw [settingsOf]
  | case2 inner rest ihinner ihrest => rw [settingsOf, ihinner, ihrest]; rfl
  | case3 s rest hs ih =>
      cases s with
      | subgraph inner => exact absurd rfl (hs inner)
      | _ => simpa [Statement.isSetting, settingsOf] using ih

theorem isOuter_past (q : List Nat) : IsOuter (past q) ↔ IsOuter q := by
  cases q <;> simp [IsOuter, past]

theorem last_outer_block (inner : List Statement) (k : String) :
    Last Statement.setting IsOuter [.subgraph inner] k none := by
  have hone : IsOuter [0] := rfl
  have hlast : Last Statement.setting IsOuter [.subgraph inner] k
      ((Statement.subgraph inner).setting k) := by
    refine last_single hone fun q st hq hat => ?_
    obtain ⟨p, rfl⟩ := zero_of_at? hat
    rw [List.length_eq_zero_iff.mp (Nat.succ.inj hq)]
  exact hlast

theorem last_settingsOf_outerOnly (body : List Statement) (k : String) :
    Last Statement.setting IsOuter body k ((settingsOf (outerOnly body)).reverse.lookup k) := by
  have hone : IsOuter [0] := rfl
  fun_induction outerOnly body with
  | case1 =>
      rw [settingsOf]
      exact last_nil
  | case2 inner rest ih =>
      have hrest := (last_outer_block inner k).cons (ih.congr fun q _ _ => (isOuter_past q).symm)
      rw [Option.or_none] at hrest
      rwa [settingsOf, settingsOf_unset, List.nil_append]
  | case3 s rest hs ih =>
      obtain ⟨l, hl, hsetting⟩ := settingsOf_leaf hs (outerOnly rest)
      rw [hl, List.reverse_append, List.lookup_append, hsetting]
      exact (last_leaf hs hone).cons (ih.congr fun q _ _ => (isOuter_past q).symm)

/-! ## Graphs -/

section Graphs

variable (line : Nat → Nat) (name : String) (body : List Statement)

theorem last_attrs (k : String) :
    Last Statement.setting (fun _ => True) body k ((ofStatements line name body).attrs.get? k) := by
  rw [ofStatements, Keyed.get?_ofList]
  exact last_settingsOf body k

theorem last_attrs_outerOnly (k : String) : Last Statement.setting IsOuter body k
    ((ofStatements line name (outerOnly body)).attrs.get? k) := by
  rw [ofStatements, Keyed.get?_ofList]
  exact last_settingsOf_outerOnly body k

/-- The attributes differ just where a setting in a block has the last word, and another value
than the last one outside of blocks. -/
theorem attrs_ne_outerOnly_iff :
    (ofStatements line name body).attrs ≠ (ofStatements line name (outerOnly body)).attrs ↔
      ∃ k v, Last Statement.setting (fun _ => True) body k (some v) ∧
        ¬ Last Statement.setting IsOuter body k (some v) := by
  have hall := last_attrs line name body
  have houter := last_attrs_outerOnly line name body
  constructor
  · intro hne
    by_contra hsame
    refine hne (Keyed.ext_get? fun k => ?_)
    have hk := hall k
    cases hvalue : (ofStatements line name body).attrs.get? k with
    | none =>
        rw [hvalue] at hk
        have hnone : Last Statement.setting IsOuter body k none := fun q st _ => hk q st trivial
        exact hnone.unique (houter k)
    | some v =>
        rw [hvalue] at hk
        refine Last.unique ?_ (houter k)
        by_contra hlast
        exact hsame ⟨k, v, hk, hlast⟩
  · rintro ⟨k, v, hlast, hnot⟩ heq
    refine hnot ?_
    rw [hlast.unique (hall k), heq]
    exact houter k

end Graphs

/-! ## Pipelines -/

/-- What a pipeline has from the attributes of the graph is what their last settings say. -/
structure SetLast (body : List Statement) (p : Pipeline) : Prop where
  specRef : ∃ o, Last Statement.setting (fun _ => True) body "spec_ref" o ∧
    p.specRef = o.map AttrValue.plain
  checkpointSeq : ∃ o, Last Statement.setting (fun _ => True) body "checkpoint_seq" o ∧
    (o = none → p.checkpointSeq = 0) ∧
    ∀ v, o = some v → ∃ i, v.asInt? = some i ∧ i.toInt = p.checkpointSeq.toNat
  attrs : ∀ k, k ∉ Pipeline.graphKeys →
    Last Statement.setting (fun _ => True) body k (p.attrs.get? k)

/-- What is counted is the attribute, and zero where it is not set. -/
theorem countAttr_eq_ok {bound : Nat} {attrs : Attrs} {key : String} {line n : Nat}
    (h : Pipeline.countAttr bound attrs key line = .ok n) :
    (attrs.get? key = none → n = 0) ∧
      ∀ v, attrs.get? key = some v → ∃ i, v.asInt? = some i ∧ i.toInt = n := by
  unfold Pipeline.countAttr at h
  split at h
  · next hnone =>
    refine ⟨fun _ => (Except.ok.inj h).symm, fun v hv => ?_⟩
    rw [hnone] at hv
    cases hv
  · next v hsome =>
    refine ⟨fun hnone => ?_, fun w hw => ?_⟩
    · rw [hsome] at hnone
      cases hnone
    · obtain rfl := Option.some.inj (hsome.symm.trans hw)
      dsimp only at h
      split at h
      · next i hi =>
        split at h
        · next hrange =>
          refine ⟨i, hi, ?_⟩
          rw [← Except.ok.inj h]
          exact (Int.toNat_of_nonneg hrange.1).symm
        · cases h
      · cases h

theorem setLast_of_ofDigraph {line : Nat → Nat} {name : String} {body : List Statement}
    {p : Pipeline} (h : Pipeline.ofDigraph (ofStatements line name body) = .ok p) :
    SetLast body p := by
  have hlast := last_attrs line name body
  obtain ⟨seq, hseq, h⟩ := bind_eq_ok.mp h
  obtain ⟨nodes, -, h⟩ := bind_eq_ok.mp h
  obtain ⟨edges, -, h⟩ := bind_eq_ok.mp h
  obtain rfl := Except.ok.inj h
  refine ⟨⟨_, hlast "spec_ref", rfl⟩, ⟨_, hlast "checkpoint_seq", ?_⟩, fun k hk => ?_⟩
  · obtain ⟨hnone, hsome⟩ := countAttr_eq_ok hseq
    have hsize : seq < UInt64.size :=
      Nat.lt_trans (Pipeline.countAttr_lt hseq) (by decide)
    refine ⟨fun ho => ?_, fun v hv => ?_⟩
    · dsimp only
      rw [hnone ho]
      rfl
    · obtain ⟨i, hi, hvalue⟩ := hsome v hv
      refine ⟨i, hi, ?_⟩
      rw [hvalue, UInt64.toNat_ofNat_of_lt' hsize]
  · dsimp only
    rw [Pipeline.get?_without, if_neg hk]
    exact hlast k

/-! ## Texts -/

/-- A text that is read declares what the tree of its statements does. -/
theorem parse_eq_ok {text : String} {g : Digraph} (h : parse text = .ok g) :
    ∃ name body rest, Read.graph (stripComments text.toList) = .ok ((name, body), rest) ∧
      g = ofStatements (lineAt (stripComments text.toList)) name body := by
  rw [parse, parseStripped] at h
  split at h
  · cases h
  · next name body rest hread =>
    split at h
    · exact ⟨name, body, rest, hread, (Except.ok.inj h).symm⟩
    · cases h

/-- Of every text that is read: without the settings in blocks it has the same name, nodes and
edges. Each attribute of the graph, and with it each attribute of the pipeline, is what the last
setting of its key in the text says, also where that stands in a block; without the settings in
blocks it is what the last of the others says. So the two have different attributes if and only if
some setting in a block is the last one of its key, and has another value than the last one that
stands in no block. -/
theorem parse_settings {text : String} {g : Digraph} (h : parse text = .ok g) :
    ∃ name body rest outer,
      Read.graph (stripComments text.toList) = .ok ((name, body), rest) ∧
      outer = ofStatements (lineAt (stripComments text.toList)) name (outerOnly body) ∧
      g.name = outer.name ∧ g.nodes = outer.nodes ∧ g.edges = outer.edges ∧
      (∀ k, Last Statement.setting (fun _ => True) body k (g.attrs.get? k)) ∧
      (∀ p, Pipeline.ofDigraph g = .ok p → SetLast body p) ∧
      (∀ k, Last Statement.setting IsOuter body k (outer.attrs.get? k)) ∧
      (g.attrs ≠ outer.attrs ↔ ∃ k v, Last Statement.setting (fun _ => True) body k (some v) ∧
        ¬ Last Statement.setting IsOuter body k (some v)) := by
  obtain ⟨name, body, rest, hread, rfl⟩ := parse_eq_ok h
  exact ⟨name, body, rest, _, hread, rfl, rfl, (nodesOf_outerOnly _ body).symm,
    (edgesOf_outerOnly _ body).symm, last_attrs _ name body, fun _ => setLast_of_ofDigraph,
    last_attrs_outerOnly _ name body, attrs_ne_outerOnly_iff _ name body⟩

/-- A block with a label and a number of its own. -/
def clusterText : String :=
  "digraph \x7b checkpoint_seq = 1 subgraph cluster_a \x7b label = A; checkpoint_seq = 9 \x7d \x7d"

/-- The graph of the text: the block's two settings are attributes of the whole, and its number
has replaced the outer one. -/
def clusterGraph : Digraph :=
  ⟨"", .ofList [("checkpoint_seq", .integer 9), ("label", .text "A")], [], []⟩

/-- The block has the last word on a key, so the attributes are not those of the outer settings. -/
theorem parse_settings_clusterText : parse clusterText = .ok clusterGraph ∧
    ∃ name body rest outer,
      Read.graph (stripComments clusterText.toList) = .ok ((name, body), rest) ∧
      outer = ofStatements (lineAt (stripComments clusterText.toList)) name (outerOnly body) ∧
      outer = ⟨"", .ofList [("checkpoint_seq", .integer 1)], [], []⟩ ∧
      (∀ k, Last Statement.setting (fun _ => True) body k (clusterGraph.attrs.get? k)) ∧
      (∀ p, Pipeline.ofDigraph clusterGraph = .ok p → SetLast body p) ∧
      (∀ k, Last Statement.setting IsOuter body k (outer.attrs.get? k)) ∧
      ∃ k v, Last Statement.setting (fun _ => True) body k (some v) ∧
        ¬ Last Statement.setting IsOuter body k (some v) := by
  have hread : parse clusterText = .ok clusterGraph := by decide +kernel
  have hkept : (Read.graph (stripComments clusterText.toList)).map (fun r =>
      ofStatements (lineAt (stripComments clusterText.toList)) r.1.1 (outerOnly r.1.2)) =
      .ok ⟨"", .ofList [("checkpoint_seq", .integer 1)], [], []⟩ := by decide +kernel
  obtain ⟨name, body, rest, outer, hbody, houter, -, -, -, hlast, hset, hlastOuter, hiff⟩ :=
    parse_settings hread
  rw [hbody, Except.map, ← houter] at hkept
  obtain rfl := Except.ok.inj hkept
  refine ⟨hread, name, body, rest, _, hbody, houter, rfl, hlast, hset, hlastOuter, hiff.mp ?_⟩
  decide +kernel

end Pipewright.Digraph
