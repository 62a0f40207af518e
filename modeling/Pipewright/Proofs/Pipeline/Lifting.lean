import Mathlib.Algebra.Group.Nat.Defs
import Mathlib.Data.List.Forall2
import Pipewright.Pipeline.Lift
import Pipewright.Proofs.Digraph.RoundTrip

/-!
# Graphs and pipelines

A pipeline that is written as a graph is lifted again from it, and a second pass through both
changes nothing.
-/

/-!
## Pipelines written as graphs and lifted again

A pipeline that was lifted from a graph has no value among its free attributes
at a key that is interpreted, and both ends of its edges are declared
(`Lifted`). Written as a graph and lifted again it is the same pipeline, except
that a node without a shape has gained one. Lines play no part in this: they are
carried along, and decide nothing but the place of a fault.
-/

namespace Pipewright

section Results

variable {ε α β : Type}

theorem bind_eq_ok {r : Except ε α} {f : α → Except ε β} {b : β} :
    (r >>= f) = .ok b ↔ ∃ a, r = .ok a ∧ f a = .ok b := by
  cases r with
  | error err => exact ⟨fun h => (by cases h), fun ⟨_, h, _⟩ => (by cases h)⟩
  | ok a => exact ⟨fun h => ⟨a, rfl, h⟩, fun ⟨_, h, h'⟩ => Except.ok.inj h ▸ h'⟩

theorem mapM_eq_ok {f : α → Except ε β} {as : List α} {bs : List β} :
    as.mapM f = .ok bs ↔ List.Forall₂ (fun a b => f a = .ok b) as bs := by
  induction as generalizing bs with
  | nil => simp [pure, Except.pure, eq_comm]
  | cons a as ih =>
      rw [List.mapM_cons, bind_eq_ok, List.forall₂_cons_left_iff]
      refine exists_congr fun b => ?_
      rw [bind_eq_ok, ← exists_and_left]
      refine exists_congr fun bs' => and_congr_right fun _ => and_congr ih ?_
      exact ⟨fun h => (Except.ok.inj h).symm, fun h => h ▸ rfl⟩

/-- What is done to the members of a list is done to members that look the same. -/
theorem mapM_of_map_eq {γ δ : Type} {f : α → Except ε β} {look : α → γ} {view : β → δ}
    (hf : ∀ a b a', f a = .ok b → look a' = look a → ∃ b', f a' = .ok b' ∧ view b' = view b)
    {as as' : List α} {bs : List β} (hbs : as.mapM f = .ok bs) (h : as'.map look = as.map look) :
    ∃ bs', as'.mapM f = .ok bs' ∧ bs'.map view = bs.map view := by
  simp only [mapM_eq_ok] at hbs ⊢
  induction hbs generalizing as' with
  | nil =>
      obtain rfl := List.map_eq_nil_iff.mp h
      exact ⟨[], .nil, rfl⟩
  | cons hb _ ih =>
      obtain ⟨a', rest', rfl, hlook, hrest⟩ := List.map_eq_cons_iff.mp h
      obtain ⟨b', hb', hview⟩ := hf _ _ a' hb hlook
      obtain ⟨bs', hbs', hviews⟩ := ih hrest
      exact ⟨b' :: bs', .cons hb' hbs', by rw [List.map_cons, List.map_cons, hview, hviews]⟩

theorem forall_of_mapM {f : α → Except ε β} {p : β → Prop} {as : List α} {bs : List β}
    (hbs : as.mapM f = .ok bs) (h : ∀ a ∈ as, ∀ b, f a = .ok b → p b) : ∀ b ∈ bs, p b := by
  rw [mapM_eq_ok] at hbs
  induction hbs with
  | nil => simp
  | cons hb _ ih =>
      rw [List.forall_mem_cons] at h ⊢
      exact ⟨h.1 _ hb, ih h.2⟩

end Results

/-! ### Words -/

theorem Kind.ofName?_name (k : Kind) : Kind.ofName? k.name = some k := by cases k <;> rfl

theorem Status.ofName?_name (s : Status) : Status.ofName? s.name = some s := by cases s <;> rfl

theorem Handler.ofName?_name (h : Handler) : Handler.ofName? h.name = some h := by cases h <;> rfl

theorem Condition.ofName?_name (c : Condition) : Condition.ofName? c.name = some c := by
  cases c <;> rfl

namespace Pipeline

/-! ### Attributes -/

/-- The attributes have no value at any of the keys. -/
def Lacks (keys : List String) (attrs : Attrs) : Prop := ∀ k ∈ keys, attrs.get? k = none

theorem get?_without (keys : List String) (attrs : Attrs) (k : String) :
    (without keys attrs).get? k = if k ∈ keys then none else attrs.get? k := by
  unfold without
  induction keys generalizing attrs with
  | nil => simp
  | cons key keys ih =>
      rw [List.foldl_cons, ih, Keyed.get?_erase]
      by_cases heq : k = key <;> by_cases hmem : k ∈ keys <;> simp [heq, hmem]

theorem lacks_without (keys : List String) (attrs : Attrs) : Lacks keys (without keys attrs) := by
  intro k hk
  rw [get?_without, if_pos hk]

theorem get?_putText (key : String) (value : Option String) (attrs : Attrs) (k : String) :
    (putText key value attrs).get? k =
      if k = key then (value.map .text).or (attrs.get? k) else attrs.get? k := by
  cases value with
  | none => simp [putText]
  | some s =>
      rw [putText, Keyed.get?_insert]
      simp

theorem get?_putMerge (merge : Bool) (attrs : Attrs) (k : String) :
    (putMerge merge attrs).get? k =
      if k = "merge" ∧ merge = false then some (.boolean false) else attrs.get? k := by
  cases merge with
  | true => simp [putMerge]
  | false => simp [putMerge, Keyed.get?_insert]

theorem get?_putDefault (key : String) (value : AttrValue) (attrs : Attrs) (k : String) :
    (putDefault key value attrs).get? k =
      if k = key then some ((attrs.get? k).getD value) else attrs.get? k := by
  unfold putDefault
  split
  · next h =>
    by_cases heq : k = key
    · subst heq
      obtain ⟨v, hv⟩ := Option.isSome_iff_exists.mp h
      simp [hv]
    · simp [heq]
  · next h =>
    rw [Keyed.get?_insert]
    by_cases heq : k = key
    · subst heq
      rw [Option.not_isSome_iff_eq_none] at h
      simp [h]
    · simp [heq]

def Node.shaped (n : Node) : Node :=
  { n with extra := putDefault "shape" (.text n.kind.shape) n.extra }

theorem without_nodeAttrs {n : Node} (h : Lacks nodeKeys n.extra) :
    without nodeKeys (nodeAttrs n) = n.shaped.extra := by
  refine Keyed.ext_get? fun k => ?_
  rw [get?_without]
  by_cases hk : k ∈ nodeKeys
  · have hshape : k ≠ "shape" := fun heq => absurd (heq ▸ hk) (by decide)
    rw [if_pos hk, Node.shaped, get?_putDefault, if_neg hshape, h k hk]
  · rw [if_neg hk]
    simp only [nodeKeys, List.mem_cons, List.not_mem_nil, not_or, or_false] at hk
    simp only [nodeAttrs, Node.shaped, get?_putMerge, get?_putText, Keyed.get?_insert, hk, if_false,
      false_and]

/-! ### Attributes read back -/

section Readers

variable {α : Type} {attrs : Attrs} {key : String} {line : Nat}

theorem textAttr_of_map {o : Option String} (h : attrs.get? key = o.map .text) :
    textAttr attrs key = o := by
  rw [textAttr, h]
  cases o <;> rfl

theorem wordAttr_of_map {ofName? : String → Option α} {name : α → String} {o : Option α}
    {unknown : String → String} (hname : ∀ a, ofName? (name a) = some a)
    (h : attrs.get? key = o.map (.text <| name ·)) :
    wordAttr ofName? unknown attrs key line = .ok o := by
  have htext : textAttr attrs key = o.map name := textAttr_of_map (by rw [h, Option.map_map]; rfl)
  rw [wordAttr, htext]
  cases o with
  | none => rfl
  | some a => simp [hname]

theorem countAttr_of_integer {i : Int64} {bound n : Nat} (h : attrs.get? key = some (.integer i))
    (hi : i.toInt = n) (hn : n < bound) : countAttr bound attrs key line = .ok n := by
  rw [countAttr, h]
  simp only [AttrValue.asInt?, hi]
  rw [if_pos ⟨Int.natCast_nonneg n, Int.ofNat_lt.mpr hn⟩]
  rfl

theorem flagAttr_of_map {o : Option Bool} (h : attrs.get? key = o.map .boolean) :
    flagAttr attrs key line = .ok o := by
  rw [flagAttr, h]
  cases o <;> rfl

end Readers

/-! ### Nodes -/

/-- What a node says at the keys that are interpreted. -/
def Node.fields (n : Node) : List (String × Option AttrValue) :=
  [("kind", (some n.kind).map (.text ·.name)), ("status", (some n.status).map (.text ·.name)),
   ("handler", n.handler.map (.text ·.name)), ("worker_role", n.workerRole.map .text),
   ("acceptance", n.acceptance.map .text), ("acceptance_hash", n.acceptanceHash.map .text),
   ("evidence_path", n.evidencePath.map .text), ("evidence_hash", n.evidenceHash.map .text),
   ("retry_count", some (.integer (Int64.ofNat n.retryCount.toNat))),
   ("bead_ref", n.beadRef.map .text), ("spec_ref", n.specRef.map .text),
   ("implemented_by", n.implementedBy.map .text),
   ("impl_completed_at", n.implCompletedAt.map .text),
   ("merge", (if n.merge then none else some false).map .boolean)]

theorem get?_nodeAttrs {n : Node} (h : Lacks nodeKeys n.extra) :
    ∀ e ∈ n.fields, (nodeAttrs n).get? e.1 = e.2 := by
  simp only [Lacks, nodeKeys, List.forall_mem_cons, List.not_mem_nil, false_implies, forall_const,
    and_true] at h
  simp only [Node.fields, List.forall_mem_cons, List.not_mem_nil, false_implies, forall_const,
    and_true]
  simp only [nodeAttrs, get?_putMerge, get?_putText, Keyed.get?_insert, get?_putDefault,
    String.reduceEq, if_false, false_and, if_true, h, Option.or_none, Option.map_map, true_and]
  cases n.merge <;> simp [Function.comp_def]

theorem nodeOf_toNode {n : Node} (h : Lacks nodeKeys n.extra) :
    nodeOf (toNode n) = .ok n.shaped := by
  have hfields := get?_nodeAttrs h
  simp only [Node.fields, List.forall_mem_cons, List.not_mem_nil, false_implies, forall_const,
    and_true] at hfields
  obtain ⟨hkind, hstatus, hhandler, hrole, hacceptance, hpin, hpath, hhash, hretries, hbead, hspec,
    hby, hat, hmerge⟩ := hfields
  have hsize := n.retryCount.toNat_lt
  simp only [nodeOf, toNode, wordAttr_of_map Kind.ofName?_name hkind,
    wordAttr_of_map Status.ofName?_name hstatus, wordAttr_of_map Handler.ofName?_name hhandler,
    countAttr_of_integer hretries (Int64.toInt_ofNat_of_lt (by omega)) hsize,
      flagAttr_of_map hmerge,
    textAttr_of_map hrole, textAttr_of_map hacceptance, textAttr_of_map hpin, textAttr_of_map hpath,
    textAttr_of_map hhash, textAttr_of_map hbead, textAttr_of_map hspec, textAttr_of_map hby,
    textAttr_of_map hat, without_nodeAttrs h]
  cases hm : n.merge <;> simp [Node.shaped, hm, bind, Except.bind, pure, Except.pure]

/-! ### Edges -/

theorem get?_edgeAttrs {e : Edge} (h : Lacks edgeKeys e.extra) :
    (edgeAttrs e).get? "condition"
      = (if e.condition = .unconditional then none else some e.condition).map (.text ·.name) := by
  unfold edgeAttrs
  split
  · exact h _ (by decide)
  · simp [Keyed.get?_insert]

theorem without_edgeAttrs {e : Edge} (h : Lacks edgeKeys e.extra) :
    without edgeKeys (edgeAttrs e) = e.extra := by
  refine Keyed.ext_get? fun k => ?_
  rw [get?_without]
  split
  · next hk => exact (h k hk).symm
  · next hk =>
    have hne : k ≠ "condition" := by simpa [edgeKeys] using hk
    unfold edgeAttrs
    split
    · rfl
    · rw [Keyed.get?_insert, if_neg hne]

theorem checkEndpoint_eq_ok {ids : List String} {e : Digraph.Edge} {endpoint : String} :
    checkEndpoint ids e endpoint = .ok () ↔ endpoint ∈ ids := by
  rw [checkEndpoint, ← List.contains_iff_mem]
  cases ids.contains endpoint <;> simp

theorem edgeOf_toEdge {ids : List String} {e : Edge} (hsource : e.source ∈ ids)
    (htarget : e.target ∈ ids) (h : Lacks edgeKeys e.extra) : edgeOf ids (toEdge e) = .ok e := by
  have hs : checkEndpoint ids (toEdge e) e.source = .ok () := checkEndpoint_eq_ok.mpr hsource
  have ht : checkEndpoint ids (toEdge e) e.target = .ok () := checkEndpoint_eq_ok.mpr htarget
  simp only [toEdge] at hs ht
  simp only [edgeOf, toEdge, hs, ht, wordAttr_of_map Condition.ofName?_name (get?_edgeAttrs h),
    without_edgeAttrs h]
  obtain ⟨source, target, condition, extra, line⟩ := e
  cases condition <;> rfl

/-! ### Graphs -/

def shaped (p : Pipeline) : Pipeline := { p with nodes := p.nodes.map Node.shaped }

/-- What holds of a pipeline that was lifted from a graph. -/
structure Lifted (p : Pipeline) : Prop where
  seq : p.checkpointSeq.toNat < 2 ^ 63
  attrs : Lacks graphKeys p.attrs
  nodes : ∀ n ∈ p.nodes, Lacks nodeKeys n.extra
  ends : ∀ e ∈ p.edges, e.source ∈ p.ids ∧ e.target ∈ p.ids
  edges : ∀ e ∈ p.edges, Lacks edgeKeys e.extra

theorem get?_graphAttrs {p : Pipeline} (h : Lacks graphKeys p.attrs) :
    (graphAttrs p).get? "checkpoint_seq" = some (.integer p.checkpointSeq.toInt64) ∧
      (graphAttrs p).get? "spec_ref" = p.specRef.map .text := by
  simp only [Lacks, graphKeys, List.forall_mem_cons] at h
  simp [graphAttrs, Keyed.get?_insert, get?_putText, h.1]

theorem without_graphAttrs {p : Pipeline} (h : Lacks graphKeys p.attrs) :
    without graphKeys (graphAttrs p) = p.attrs := by
  refine Keyed.ext_get? fun k => ?_
  rw [get?_without]
  split
  · next hk => exact (h k hk).symm
  · next hk =>
    simp only [graphKeys, List.mem_cons, List.not_mem_nil, not_or, or_false] at hk
    simp only [graphAttrs, get?_putText, Keyed.get?_insert, hk, if_false]

theorem toInt_toInt64 {n : UInt64} (h : n.toNat < 2 ^ 63) : n.toInt64.toInt = n.toNat := by
  have hlt : 2 * n.toBitVec.toNat < 2 ^ 64 := by
    change 2 * n.toNat < 2 ^ 64
    omega
  exact BitVec.toInt_eq_toNat_of_lt hlt

theorem ofDigraph_toDigraph {p : Pipeline} (h : p.Lifted) :
    ofDigraph p.toDigraph = .ok p.shaped := by
  obtain ⟨hseq, hspec⟩ := get?_graphAttrs h.attrs
  have hsize : p.checkpointSeq.toNat < UInt64.size := p.checkpointSeq.toNat_lt
  have hnodes : (p.nodes.map toNode).mapM nodeOf = .ok (p.nodes.map Node.shaped) := by
    rw [mapM_eq_ok, List.forall₂_map_left_iff, List.forall₂_map_right_iff, List.forall₂_same]
    exact fun n hn => nodeOf_toNode (h.nodes n hn)
  have hids : (p.nodes.map Node.shaped).map (·.id) = p.ids := by
    rw [List.map_map]
    rfl
  have hedges : (p.edges.map toEdge).mapM (edgeOf p.ids) = .ok p.edges := by
    rw [mapM_eq_ok, List.forall₂_map_left_iff, List.forall₂_same]
    exact fun e he => edgeOf_toEdge (h.ends e he).1 (h.ends e he).2 (h.edges e he)
  simp only [ofDigraph, toDigraph, countAttr_of_integer hseq (toInt_toInt64 h.seq) hsize, hnodes,
    textAttr_of_map hspec, without_graphAttrs h.attrs, bind, Except.bind, hids, hedges]
  simp [shaped, pure, Except.pure]

/-! ### Lines -/

def Node.unlined (n : Node) : Node := { n with line := 0 }

def Edge.unlined (e : Edge) : Edge := { e with line := 0 }

def unlined (p : Pipeline) : Pipeline :=
  { p with nodes := p.nodes.map Node.unlined, edges := p.edges.map Edge.unlined }

section Readers

variable {α : Type} {attrs : Attrs} {key : String} {line : Nat}

theorem wordAttr_line {ofName? : String → Option α} {unknown : String → String} {o : Option α}
    (h : wordAttr ofName? unknown attrs key line = .ok o) (line' : Nat) :
    wordAttr ofName? unknown attrs key line' = .ok o := by
  unfold wordAttr at h ⊢
  split at h
  · exact h
  · split at h
    · exact h
    · cases h

theorem countAttr_line {bound n : Nat} (h : countAttr bound attrs key line = .ok n) (line' : Nat) :
    countAttr bound attrs key line' = .ok n := by
  unfold countAttr at h ⊢
  split at h
  · exact h
  · dsimp only at h ⊢
    split at h
    · split at h
      · next hrange =>
        rw [if_pos hrange]
        exact h
      · cases h
    · cases h

theorem flagAttr_line {o : Option Bool} (h : flagAttr attrs key line = .ok o) (line' : Nat) :
    flagAttr attrs key line' = .ok o := by
  unfold flagAttr at h ⊢
  split at h
  · exact h
  · split at h
    · exact h
    · cases h

end Readers

/-- A node is lifted alike from whatever line it stands on. -/
theorem nodeOf_of_unlined {n n' : Digraph.Node} {m : Node} (h : nodeOf n = .ok m)
    (hn : { n' with line := 0 } = { n with line := 0 }) :
    ∃ m', nodeOf n' = .ok m' ∧ m'.unlined = m.unlined := by
  obtain ⟨id, attrs, line⟩ := n
  obtain ⟨id', attrs', line'⟩ := n'
  obtain ⟨rfl, rfl, -⟩ := Digraph.Node.mk.injEq .. |>.mp hn
  obtain ⟨kind, hkind, h⟩ := bind_eq_ok.mp h
  obtain ⟨status, hstatus, h⟩ := bind_eq_ok.mp h
  obtain ⟨handler, hhandler, h⟩ := bind_eq_ok.mp h
  obtain ⟨retries, hretries, h⟩ := bind_eq_ok.mp h
  obtain ⟨merge, hmerge, h⟩ := bind_eq_ok.mp h
  rw [← Except.ok.inj h]
  simp only [nodeOf, wordAttr_line hkind line', wordAttr_line hstatus line',
    wordAttr_line hhandler line', countAttr_line hretries line', flagAttr_line hmerge line']
  exact ⟨_, rfl, rfl⟩

theorem edgeOf_of_unlined {ids : List String} {e e' : Digraph.Edge} {d : Edge}
    (h : edgeOf ids e = .ok d) (he : { e' with line := 0 } = { e with line := 0 }) :
    ∃ d', edgeOf ids e' = .ok d' ∧ d'.unlined = d.unlined := by
  obtain ⟨source, target, attrs, line⟩ := e
  obtain ⟨source', target', attrs', line'⟩ := e'
  obtain ⟨rfl, rfl, rfl, -⟩ := Digraph.Edge.mk.injEq .. |>.mp he
  obtain ⟨⟨⟩, hsource, h⟩ := bind_eq_ok.mp h
  obtain ⟨⟨⟩, htarget, h⟩ := bind_eq_ok.mp h
  obtain ⟨condition, hcondition, h⟩ := bind_eq_ok.mp h
  rw [← Except.ok.inj h]
  have hs := checkEndpoint_eq_ok (e := ⟨source', target', attrs', line'⟩) |>.mpr
    (checkEndpoint_eq_ok.mp hsource)
  have ht := checkEndpoint_eq_ok (e := ⟨source', target', attrs', line'⟩) |>.mpr
    (checkEndpoint_eq_ok.mp htarget)
  simp only at hs ht
  simp only [edgeOf, hs, ht, wordAttr_line hcondition line']
  exact ⟨_, rfl, rfl⟩

/-- Graphs that differ in lines only are lifted to pipelines that do. -/
theorem ofDigraph_of_unlined {g g' : Digraph} (h : g'.unlined = g.unlined) {p : Pipeline}
    (hp : ofDigraph g = .ok p) : ∃ p', ofDigraph g' = .ok p' ∧ p'.unlined = p.unlined := by
  obtain ⟨seq, hseq, hp⟩ := bind_eq_ok.mp hp
  obtain ⟨nodes, hnodes, hp⟩ := bind_eq_ok.mp hp
  obtain ⟨edges, hedges, hp⟩ := bind_eq_ok.mp hp
  have hname : g'.name = g.name := (congrArg Digraph.name h :)
  have hattrs : g'.attrs = g.attrs := (congrArg Digraph.attrs h :)
  obtain ⟨nodes', hnodes', hn⟩ :=
    mapM_of_map_eq (fun _ _ _ => nodeOf_of_unlined) hnodes (congrArg Digraph.nodes h)
  obtain ⟨edges', hedges', he⟩ :=
    mapM_of_map_eq (fun _ _ _ => edgeOf_of_unlined) hedges (congrArg Digraph.edges h)
  have hids : nodes'.map (·.id) = nodes.map (·.id) := by
    have hview := congrArg (List.map (·.id)) hn
    rwa [List.map_map, List.map_map] at hview
  rw [← Except.ok.inj hp]
  simp only [ofDigraph, hname, hattrs, hseq, hnodes', hids, hedges', bind, Except.bind]
  exact ⟨_, rfl, by simp only [unlined, hn, he]⟩

/-! ### Pipelines in their files -/

/-- What is counted in a graph file fits in 63 bits. -/
theorem countAttr_lt {bound : Nat} {attrs : Attrs} {key : String} {line n : Nat}
    (h : countAttr bound attrs key line = .ok n) : n < 2 ^ 63 := by
  unfold countAttr at h
  split at h
  · rw [← Except.ok.inj h]
    decide
  · dsimp only at h
    split at h
    · next i _ =>
      split at h
      · rw [← Except.ok.inj h]
        have hle : i.toInt ≤ 2 ^ 63 - 1 := Int64.toInt_le i
        omega
      · cases h
    · cases h

/-- The free attributes of a lifted node are those of its statement that are left over. -/
theorem extra_of_nodeOf {n : Digraph.Node} {m : Node} (h : nodeOf n = .ok m) :
    m.extra = without nodeKeys n.attrs := by
  obtain ⟨_, -, h⟩ := bind_eq_ok.mp h
  obtain ⟨_, -, h⟩ := bind_eq_ok.mp h
  obtain ⟨_, -, h⟩ := bind_eq_ok.mp h
  obtain ⟨_, -, h⟩ := bind_eq_ok.mp h
  obtain ⟨_, -, h⟩ := bind_eq_ok.mp h
  rw [← Except.ok.inj h]

theorem ends_of_edgeOf {ids : List String} {e : Digraph.Edge} {d : Edge}
    (h : edgeOf ids e = .ok d) :
    d.source ∈ ids ∧ d.target ∈ ids ∧ d.extra = without edgeKeys e.attrs := by
  obtain ⟨⟨⟩, hsource, h⟩ := bind_eq_ok.mp h
  obtain ⟨⟨⟩, htarget, h⟩ := bind_eq_ok.mp h
  obtain ⟨_, -, h⟩ := bind_eq_ok.mp h
  rw [← Except.ok.inj h]
  exact ⟨checkEndpoint_eq_ok.mp hsource, checkEndpoint_eq_ok.mp htarget, rfl⟩

theorem lifted_ofDigraph {g : Digraph} {p : Pipeline} (h : ofDigraph g = .ok p) : p.Lifted := by
  obtain ⟨seq, hseq, h⟩ := bind_eq_ok.mp h
  obtain ⟨nodes, hnodes, h⟩ := bind_eq_ok.mp h
  obtain ⟨edges, hedges, h⟩ := bind_eq_ok.mp h
  obtain rfl := Except.ok.inj h
  have hlt := countAttr_lt hseq
  refine ⟨?_, lacks_without _ _, ?_, ?_, ?_⟩
  · have hsize : seq < UInt64.size := Nat.lt_trans hlt (by decide)
    rw [UInt64.toNat_ofNat_of_lt' hsize]
    exact hlt
  · exact forall_of_mapM hnodes fun n _ m hm => extra_of_nodeOf hm ▸ lacks_without _ _
  · exact forall_of_mapM hedges fun e _ d hd => ⟨(ends_of_edgeOf hd).1, (ends_of_edgeOf hd).2.1⟩
  · exact forall_of_mapM hedges fun e _ d hd => (ends_of_edgeOf hd).2.2 ▸ lacks_without _ _

theorem lifted_of_parse {text : String} {p : Pipeline} (h : parse text = .ok p) : p.Lifted := by
  obtain ⟨g, -, h⟩ := bind_eq_ok.mp h
  exact lifted_ofDigraph h

/-- The attributes have dotted names for keys, and none of them is a real number. -/
def IsPlain (attrs : Attrs) : Prop :=
  ∀ e ∈ attrs.entries, Digraph.isDottedName e.1.toList ∧ Digraph.isReal e.2 = false

theorem IsPlain.insert {attrs : Attrs} (h : IsPlain attrs) {k : String} {v : AttrValue}
    (hk : Digraph.isDottedName k.toList) (hv : Digraph.isReal v = false) :
    IsPlain (attrs.insert k v) := by
  intro e he
  rcases Keyed.mem_insertEntry he with rfl | he
  · exact ⟨hk, hv⟩
  · exact h e he

theorem IsPlain.putText {attrs : Attrs} (h : IsPlain attrs) {k : String} (o : Option String)
    (hk : Digraph.isDottedName k.toList) : IsPlain (putText k o attrs) := by
  cases o with
  | none => exact h
  | some s => exact h.insert hk rfl

theorem IsPlain.putDefault {attrs : Attrs} (h : IsPlain attrs) {k : String} {v : AttrValue}
    (hk : Digraph.isDottedName k.toList) (hv : Digraph.isReal v = false) :
    IsPlain (putDefault k v attrs) := by
  unfold Pipeline.putDefault
  split
  · exact h
  · exact h.insert hk hv

theorem IsPlain.without {attrs : Attrs} (h : IsPlain attrs) (keys : List String) :
    IsPlain (without keys attrs) := by
  unfold Pipeline.without
  induction keys generalizing attrs with
  | nil => exact h
  | cons key keys ih => exact ih fun e he => h e (List.mem_of_mem_filter he)

/-- The free attributes of the pipeline, of its nodes and of its edges are plain. -/
structure Plain (p : Pipeline) : Prop where
  attrs : IsPlain p.attrs
  nodes : ∀ n ∈ p.nodes, IsPlain n.extra
  edges : ∀ e ∈ p.edges, IsPlain e.extra

theorem isPlain_iff {g : Digraph} :
    (∀ attrs ∈ g.allAttrs, IsPlain attrs) ↔ g.hasDottedKeys ∧ g.hasNoReals := by
  simp only [Digraph.hasDottedKeys, Digraph.hasNoReals, List.all_eq_true, ← forall_and]
  refine forall_congr' fun attrs => forall_congr' fun _ => ?_
  rw [Digraph.isDotted_iff]
  simp [IsPlain, forall_and]

theorem plain_ofDigraph {g : Digraph} {p : Pipeline} (h : ofDigraph g = .ok p)
    (hg : ∀ attrs ∈ g.allAttrs, IsPlain attrs) : p.Plain := by
  obtain ⟨hattrs, hns, hes⟩ := Digraph.forall_allAttrs.mp hg
  obtain ⟨seq, hseq, h⟩ := bind_eq_ok.mp h
  obtain ⟨nodes, hnodes, h⟩ := bind_eq_ok.mp h
  obtain ⟨edges, hedges, h⟩ := bind_eq_ok.mp h
  obtain rfl := Except.ok.inj h
  refine ⟨hattrs.without _, ?_, ?_⟩
  · exact forall_of_mapM hnodes fun n hn m hm => extra_of_nodeOf hm ▸ (hns n hn).without _
  · exact forall_of_mapM hedges fun e he d hd => (ends_of_edgeOf hd).2.2 ▸ (hes e he).without _

theorem isPlain_nodeAttrs {n : Node} (h : IsPlain n.extra) : IsPlain (nodeAttrs n) := by
  have hcounted : IsPlain (putDefault "shape" (.text n.kind.shape) n.extra
      |>.insert "kind" (.text n.kind.name)
      |>.insert "status" (.text n.status.name)
      |>.insert "retry_count" (.integer (Int64.ofNat n.retryCount.toNat))) := by
    refine IsPlain.insert (IsPlain.insert (IsPlain.insert ?_ ?_ rfl) ?_ rfl) ?_ rfl
    · exact h.putDefault (by decide) rfl
    all_goals decide
  unfold nodeAttrs putMerge
  split
  · repeat' first | exact hcounted | refine IsPlain.putText ?_ _ (by decide)
  · refine IsPlain.insert ?_ (by decide) rfl
    repeat' first | exact hcounted | refine IsPlain.putText ?_ _ (by decide)

theorem plain_toDigraph {p : Pipeline} (h : p.Plain) :
    ∀ attrs ∈ p.toDigraph.allAttrs, IsPlain attrs := by
  refine Digraph.forall_allAttrs.mpr ⟨?_, ?_, ?_⟩
  · exact (h.attrs.putText _ (by decide)).insert (by decide) rfl
  · exact List.forall_mem_map.mpr fun n hn => isPlain_nodeAttrs (h.nodes n hn)
  · refine List.forall_mem_map.mpr fun e he => ?_
    change IsPlain (edgeAttrs e)
    unfold edgeAttrs
    split
    · exact h.edges e he
    · exact (h.edges e he).insert (by decide) rfl

theorem allAttrs_unlined (g : Digraph) : g.unlined.allAttrs = g.allAttrs := by
  simp [Digraph.allAttrs, Digraph.unlined, Function.comp_def]

/-- The text of a lifted pipeline that is plain is read as a graph that is plain, and the
graph is lifted to the pipeline again. -/
theorem read_render_of_plain {p : Pipeline} (hlifted : p.Lifted) (hplain : p.Plain) :
    ∃ g p', Digraph.read p.render = .ok g ∧ (∀ attrs ∈ g.allAttrs, IsPlain attrs) ∧
      ofDigraph g = .ok p' ∧ p'.unlined = p.shaped.unlined := by
  obtain ⟨hkeys, hreals⟩ := isPlain_iff.mp (plain_toDigraph hplain)
  obtain ⟨g, hparse, hg⟩ := Digraph.parse_render_of_rereads (Digraph.rereads_id hkeys hreals)
  rw [Digraph.mapValues_id] at hg
  obtain ⟨p', hp', hsame⟩ := ofDigraph_of_unlined hg (ofDigraph_toDigraph hlifted)
  refine ⟨g, p', ?_, ?_, hp', hsame⟩
  · rw [render, Digraph.read, hparse]
    rfl
  · rw [← allAttrs_unlined, hg, allAttrs_unlined]
    exact plain_toDigraph hplain

/-- Such a pipeline is read back from the text of its graph file. -/
theorem parse_render_of_plain {p : Pipeline} (hlifted : p.Lifted) (hplain : p.Plain) :
    ∃ p', parse p.render = .ok p' ∧ p'.unlined = p.shaped.unlined ∧ p'.Lifted ∧ p'.Plain := by
  obtain ⟨g, p', hread, hattrs, hp', hsame⟩ := read_render_of_plain hlifted hplain
  refine ⟨p', ?_, hsame, lifted_ofDigraph hp', plain_ofDigraph hp' hattrs⟩
  rw [parse, hread]
  exact hp'

/-- The edges of the pipeline lead from node to node, and all attributes are ones that are
interpreted. -/
structure Unadorned (p : Pipeline) : Prop where
  seq : p.checkpointSeq.toNat < 2 ^ 63
  attrs : p.attrs = ∅
  nodes : ∀ n ∈ p.nodes, n.extra = ∅
  ends : ∀ e ∈ p.edges, e.source ∈ p.ids ∧ e.target ∈ p.ids
  edges : ∀ e ∈ p.edges, e.extra = ∅

theorem Unadorned.lifted {p : Pipeline} (h : p.Unadorned) : p.Lifted := by
  have hlacks : ∀ keys {attrs : Attrs}, attrs = ∅ → Lacks keys attrs := by
    rintro keys _ rfl _ -
    rfl
  exact ⟨h.seq, hlacks _ h.attrs, fun n hn => hlacks _ (h.nodes n hn), h.ends,
    fun e he => hlacks _ (h.edges e he)⟩

theorem Unadorned.plain {p : Pipeline} (h : p.Unadorned) : p.Plain := by
  have hplain : ∀ {attrs : Attrs}, attrs = ∅ → IsPlain attrs := by
    rintro _ rfl _ hnone
    cases hnone
  exact ⟨hplain h.attrs, fun n hn => hplain (h.nodes n hn), fun e he => hplain (h.edges e he)⟩

end Pipeline

end Pipewright

/-!
## Lifting undoes lowering

Every save lowers a pipeline to a graph, and every load lifts it again. Some
twenty fields are taken out of attribute maps on the one way and put back on the
other, with defaults, overriding rules and values that are left out. What a pass
through both changes is said by `Gains`: a node without a shape gets the one of
its kind, and nothing else happens. The second pass changes nothing, since by
then every node has a shape, so a graph that was lowered once is a fixed point.
-/

namespace Pipewright.Pipeline

/-! ### Shapes -/

/-- The second node is the first one with a shape, its own if it has one. -/
structure Node.Gains (n m : Node) : Prop where
  fields : { m with extra := n.extra } = n
  shape : m.extra.get? "shape" = some ((n.extra.get? "shape").getD (.text n.kind.shape))
  others : ∀ k, k ≠ "shape" → m.extra.get? k = n.extra.get? k

theorem Node.gains_shaped (n : Node) : n.Gains n.shaped where
  fields := rfl
  shape := by
    rw [Node.shaped, get?_putDefault, if_pos rfl]
  others := by
    intro k hk
    rw [Node.shaped, get?_putDefault, if_neg hk]

theorem Node.Gains.eq_shaped {n m : Node} (h : n.Gains m) : m = n.shaped := by
  have hextra : m.extra = n.shaped.extra := by
    refine Keyed.ext_get? fun k => ?_
    by_cases hk : k = "shape"
    · rw [hk, h.shape, n.gains_shaped.shape]
    · rw [h.others k hk, n.gains_shaped.others k hk]
  calc m = { { m with extra := n.extra } with extra := n.shaped.extra } := by rw [← hextra]
    _ = n.shaped := by rw [h.fields]; rfl

/-- A node stays as it is if and only if it has a shape. -/
theorem Node.gains_self_iff {n : Node} : n.Gains n ↔ (n.extra.get? "shape").isSome := by
  constructor
  · intro h
    rw [h.shape]
    rfl
  · intro h
    obtain ⟨v, hv⟩ := Option.isSome_iff_exists.mp h
    exact ⟨rfl, by rw [hv]; rfl, fun _ _ => rfl⟩

theorem Node.isSome_shape_shaped (n : Node) : (n.shaped.extra.get? "shape").isSome := by
  rw [n.gains_shaped.shape]
  rfl

theorem Node.shaped_shaped (n : Node) : n.shaped.shaped = n.shaped :=
  (Node.gains_self_iff.mpr n.isSome_shape_shaped).eq_shaped.symm

/-- The second pipeline is the first one with shapes for the nodes that have none. -/
structure Gains (p q : Pipeline) : Prop where
  fields : { q with nodes := p.nodes } = p
  nodes : List.Forall₂ Node.Gains p.nodes q.nodes

theorem gains_shaped (p : Pipeline) : p.Gains p.shaped where
  fields := rfl
  nodes := by
    rw [shaped, List.forall₂_map_right_iff, List.forall₂_same]
    exact fun n _ => n.gains_shaped

/-! ### Graphs that were lowered -/

/-- Lowering gives a node its shape, so it makes no difference whether it had it before. -/
theorem toNode_shaped (n : Node) : toNode n.shaped = toNode n := by
  have hextra : putDefault "shape" (.text n.shaped.kind.shape) n.shaped.extra
      = putDefault "shape" (.text n.kind.shape) n.extra :=
    congrArg Node.extra n.shaped_shaped
  simp only [toNode, nodeAttrs, hextra]
  rfl

theorem toDigraph_shaped (p : Pipeline) : p.shaped.toDigraph = p.toDigraph := by
  have hnodes : (p.nodes.map Node.shaped).map toNode = p.nodes.map toNode := by
    rw [List.map_map]
    exact List.map_congr_left fun n _ => toNode_shaped n
  rw [toDigraph, toDigraph, shaped, hnodes]
  rfl

/-- A pipeline that is lowered is lifted again as it was, shapes apart, and the graph of a
pipeline that was lifted from whatever graph is a fixed point. -/
theorem lift_lower :
    (∀ p : Pipeline, p.Lifted → ∃ q, ofDigraph p.toDigraph = .ok q ∧ p.Gains q) ∧
    (∀ (d : Digraph) (p : Pipeline), ofDigraph d = .ok p →
      ∃ q, ofDigraph p.toDigraph = .ok q ∧ q.toDigraph = p.toDigraph) := by
  constructor
  · intro p h
    exact ⟨p.shaped, ofDigraph_toDigraph h, p.gains_shaped⟩
  · intro d p h
    exact ⟨p.shaped, ofDigraph_toDigraph (lifted_ofDigraph h), p.toDigraph_shaped⟩

instance (keys : List String) (attrs : Attrs) : Decidable (Lacks keys attrs) :=
  inferInstanceAs (Decidable (∀ k ∈ keys, attrs.get? k = none))

/-- A pipeline in which every field says something, also those that are left out at their
defaults. Its second node has a shape that is not the one of its kind. -/
def laden : Pipeline where
  name := "laden"
  specRef := some "spec.md"
  checkpointSeq := 9223372036854775807
  attrs := .ofList [("rankdir", .text "LR")]
  nodes := [
    { id := "a", kind := .work, status := .failed, handler := some .tool,
      workerRole := some "dev", acceptance := some "it builds", acceptanceHash := some "00",
      evidencePath := some "log.txt", evidenceHash := some "11", retryCount := 4294967295,
      beadRef := some "b-1", specRef := some "spec.md", implementedBy := some "me",
      implCompletedAt := some "now", merge := false,
      extra := .ofList [("label", .text "A"), ("weight", .integer 3)], line := 2 },
    { id := "b", kind := .gate, extra := .ofList [("shape", .text "star")], line := 3 }]
  edges := [
    { source := "a", target := "b", condition := .onFailure,
      extra := .ofList [("color", .text "red")], line := 4 },
    { source := "b", target := "a", line := 5 }]

theorem lifted_laden : laden.Lifted where
  seq := by decide
  attrs := by decide +kernel
  nodes := by decide +kernel
  ends := by decide +kernel
  edges := by decide +kernel

/-- A graph that says what lowering leaves out, and leaves out what lowering says. -/
def terse : Digraph :=
  ⟨"terse", ∅,
   [⟨"a", .ofList [("shape", .text "diamond"), ("merge", .boolean true)], 1⟩, ⟨"b", ∅, 2⟩],
   [⟨"a", "b", .ofList [("condition", .text "unconditional")], 3⟩]⟩

theorem lift_lower_laden : laden.Lifted ∧
    (∃ q, ofDigraph laden.toDigraph = .ok q ∧ laden.Gains q) ∧
    ∃ p, ofDigraph terse = .ok p ∧ p.toDigraph ≠ terse ∧
      ∃ q, ofDigraph p.toDigraph = .ok q ∧ q.toDigraph = p.toDigraph := by
  refine ⟨lifted_laden, lift_lower.1 laden lifted_laden, ?_⟩
  have hlift : ∃ p, ofDigraph terse = .ok p ∧ p.toDigraph ≠ terse := ⟨_, rfl, by decide +kernel⟩
  obtain ⟨p, hp, hne⟩ := hlift
  exact ⟨p, hp, hne, lift_lower.2 terse p hp⟩

end Pipewright.Pipeline
