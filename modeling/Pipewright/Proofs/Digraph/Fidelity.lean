import Pipewright.Proofs.Digraph.Breaking

/-!
# What is read back of what was read

Real numbers in a text are read as the nearest number of double precision, so
every one in a graph that was read is canonical or infinite (`FromText`). That
settles what becomes of them when the graph is written and read again: it is
read back as it is exactly if each real number can be written with its point in
place (`parse_render_iff`).

`Yields` says what holds of all that a part of the reader can answer, and passes
through sequences and alternatives.
-/

namespace Pipewright.Digraph

variable {α β : Type} {P : α → Prop} {Q : β → Prop}

/-! ## Answers of the reader -/

/-- If the reading succeeds, its value has the property. -/
def Yields (P : α → Prop) (r : Reading (α × List Char)) : Prop :=
  ∀ a rest, r = .ok (a, rest) → P a

theorem yields_ok {a : α} (h : P a) (rest : List Char) : Yields P (.ok (a, rest)) := by
  rintro b rest' heq
  cases heq
  exact h

theorem yields_error (f : Refusal) : Yields P (.error f) := by
  intro a rest h
  cases h

theorem Yields.bind {r : Reading (α × List Char)} {f : α × List Char → Reading (β × List Char)}
    (hr : Yields P r) (hf : ∀ a rest, P a → Yields Q (f (a, rest))) : Yields Q (r >>= f) := by
  cases r with
  | ok v => exact hf v.1 v.2 (hr v.1 v.2 rfl)
  | error e => exact yields_error e

theorem Yields.otherwise {r : Reading (α × List Char)} {q : Unit → Reading (α × List Char)}
    (hr : Yields P r) (hq : Yields P (q ())) : Yields P (otherwise r q) := by
  cases r with
  | ok v => exact hr
  | error f =>
      unfold Digraph.otherwise
      dsimp only
      split
      · exact yields_error f
      · exact hq

theorem Yields.mapValue {f : α → β} {r : Reading (α × List Char)} (hr : Yields P r)
    (hf : ∀ a, P a → Q (f a)) : Yields Q (mapValue f r) := by
  cases r with
  | ok v => exact yields_ok (hf v.1 (hr v.1 v.2 rfl)) v.2
  | error e => exact yields_error e

theorem Yields.expecting {r : Reading (α × List Char)} (hr : Yields P r) (e : Expectation) :
    Yields P (expecting e r) := by
  cases r with
  | ok v => exact hr
  | error f => exact yields_error _

theorem Yields.optional {r : Reading (α × List Char)} (hr : Yields P r) (start : List Char) :
    Yields (fun o => ∀ a, o = some a → P a) (optional start r) := by
  cases r with
  | ok v =>
      refine yields_ok ?_ v.2
      intro a h
      cases h
      exact hr v.1 v.2 rfl
  | error f =>
      unfold Digraph.optional
      dsimp only
      split
      · exact yields_error f
      · exact yields_ok nofun start

theorem yields_any (r : Reading (α × List Char)) : Yields (fun _ => True) r :=
  fun _ _ _ => trivial

namespace Read

/-! ## Values -/

theorem isFromText_ofDecimal (negative : Bool) (digits : Nat) (exponent : Int) :
    isFromText (.real (Binary64.ofDecimal negative digits exponent)) := by
  unfold Binary64.ofDecimal
  split
  · exact ⟨by decide, by decide, .inr rfl⟩
  · split
    · trivial
    · cases hround : roundRatio (digits * 10 ^ exponent.toNat) (10 ^ (-exponent).toNat) with
      | none => trivial
      | some m => exact isCanonical_of_roundRatio (Nat.pow_pos (by decide)) hround

theorem yields_real (s : List Char) : Yields (fun x => isFromText (.real x)) (real s) := by
  unfold real
  refine (yields_any _).bind fun whole rest _ => ?_
  refine (yields_any _).bind fun _ rest _ => ?_
  refine (yields_any _).bind fun part rest _ => ?_
  refine yields_ok ?_ rest
  exact isFromText_ofDecimal _ _ _

theorem yields_value (s : List Char) : Yields isFromText (value s) := by
  have htext : ∀ r : Reading (List Char × List Char),
      Yields isFromText (mapValue (fun cs => .text (String.ofList cs)) r) :=
    fun r => (yields_any r).mapValue fun _ _ => trivial
  refine (htext _).otherwise ?_
  refine ((yields_any (truth s)).mapValue fun _ _ => trivial).otherwise ?_
  refine ((yields_real s).mapValue fun _ h => h).otherwise ?_
  refine ((yields_any (integer s)).mapValue fun _ _ => trivial).otherwise ?_
  exact htext _

/-! ## Attributes and statements -/

/-- The entry may come from a block of attributes in a text. -/
def MayBeRead (e : String × AttrValue) : Prop := isDottedName e.1.toList ∧ isFromText e.2

/-- All entries may come from blocks of attributes. -/
def BlockRead (attrs : Attrs) : Prop := ∀ e ∈ attrs.entries, MayBeRead e

theorem blockRead_empty : BlockRead ∅ := by
  intro e he
  cases he

theorem BlockRead.insert {attrs : Attrs} (h : BlockRead attrs) {k : String} {v : AttrValue}
    (hkv : MayBeRead (k, v)) : BlockRead (attrs.insert k v) := by
  intro e he
  rcases Keyed.mem_insertEntry he with rfl | he
  · exact hkv
  · exact h e he

theorem BlockRead.merge {attrs more : Attrs} (h : BlockRead attrs) (hmore : BlockRead more) :
    BlockRead (attrs.merge more) := by
  intro e he
  exact (Keyed.mem_foldl_insert he).elim (h e) (hmore e)

theorem yields_attr (s : List Char) : Yields MayBeRead (attr s) := by
  unfold attr
  have hkey : Yields (fun k => isDottedName k.toList) (key s) :=
    fun _ _ h => isDottedName_of_key h
  refine hkey.bind fun k rest hk => ?_
  refine (yields_any _).bind fun _ rest _ => ?_
  refine ((yields_value _).expecting _).bind fun v rest hv => ?_
  refine yields_ok ?_ rest
  exact ⟨hk, hv⟩

theorem yields_attrs (most : Nat) {seen : Attrs} (hseen : BlockRead seen) (s : List Char) :
    Yields BlockRead (attrs most seen s) := by
  induction most generalizing seen s with
  | zero => exact yields_ok hseen s
  | succ most ih =>
      rw [attrs]
      have hattr := yields_attr s
      rcases hread : attr s with f | ⟨⟨k, v⟩, rest⟩
      · dsimp only
        split
        · exact yields_error f
        · exact yields_ok hseen s
      · exact ih (hseen.insert (hattr (k, v) rest hread)) (skipBetween rest)

theorem yields_attrBlock (s : List Char) : Yields BlockRead (attrBlock s) := by
  unfold attrBlock
  refine (yields_any _).bind fun _ rest _ => ?_
  refine (yields_attrs _ blockRead_empty _).bind fun found rest hfound => ?_
  exact (yields_any _).bind fun _ rest _ => yields_ok hfound rest

theorem yields_keywordBlock (w : String) (s : List Char) :
    Yields BlockRead (keywordBlock w s) := by
  unfold keywordBlock
  refine (yields_any _).bind fun _ rest _ => ?_
  exact (yields_attrBlock _).bind fun block rest hblock => yields_ok hblock _

theorem yields_optional_attrBlock (s : List Char) :
    Yields (fun block : Option Attrs => BlockRead (block.getD ∅)) (optional s (attrBlock s)) := by
  intro block rest h
  have hblock := (yields_attrBlock s).optional s block rest h
  cases block with
  | none => exact blockRead_empty
  | some attrs => exact hblock attrs rfl

/-- The statement, with all that stands in it, may come from a text. -/
inductive StatementRead : Statement → Prop
  | graphAttrs {attrs : Attrs} (h : BlockRead attrs) : StatementRead (.graphAttrs attrs)
  | graphAttr {value : AttrValue} (key : String) (h : isFromText value) :
      StatementRead (.graphAttr key value)
  | nodeDefaults {attrs : Attrs} (h : BlockRead attrs) : StatementRead (.nodeDefaults attrs)
  | edgeDefaults {attrs : Attrs} (h : BlockRead attrs) : StatementRead (.edgeDefaults attrs)
  | node {attrs : Attrs} (left : Nat) (id : String) (h : BlockRead attrs) :
      StatementRead (.node left id attrs)
  | edges {attrs : Attrs} (left : Nat) (chain : List String) (h : BlockRead attrs) :
      StatementRead (.edges left chain attrs)
  | subgraph {body : List Statement} (h : ∀ st ∈ body, StatementRead st) :
      StatementRead (.subgraph body)

theorem yields_declaration (s : List Char) : Yields StatementRead (declaration s) := by
  unfold declaration
  refine (yields_any _).bind fun id rest _ => ?_
  dsimp only
  split
  · refine (yields_any _).bind fun targets rest _ => ?_
    refine (yields_optional_attrBlock rest).bind fun block rest hblock => ?_
    exact yields_ok (.edges _ _ hblock) _
  · split
    · exact yields_error _
    · refine (yields_optional_attrBlock _).bind fun block rest hblock => ?_
      split
      · next attrs _ heq =>
        obtain rfl := (Prod.mk.inj heq).1
        exact yields_ok (.node _ id hblock) _
      · refine ((yields_value _).expecting _).bind fun v rest hv => ?_
        exact yields_ok (.graphAttr id hv) _
      · exact yields_ok (.node _ id blockRead_empty) _

/-- A statement may come from a text if those of the blocks in it do. -/
theorem yields_statement {body : List Char → Reading (List Statement × List Char)}
    (hbody : ∀ s, Yields (fun sts => ∀ st ∈ sts, StatementRead st) (body s)) (s : List Char) :
    Yields StatementRead (statement body s) := by
  have hblock : ∀ (f : Attrs → Statement) (w : String),
      (∀ attrs, BlockRead attrs → StatementRead (f attrs)) →
      Yields StatementRead (mapValue f (keywordBlock w s)) :=
    fun f w hf => (yields_keywordBlock w s).mapValue hf
  refine (hblock .graphAttrs "graph" fun _ => .graphAttrs).otherwise ?_
  refine (hblock .nodeDefaults "node" fun _ => .nodeDefaults).otherwise ?_
  refine (hblock .edgeDefaults "edge" fun _ => .edgeDefaults).otherwise ?_
  refine Yields.otherwise ?_ (yields_declaration s)
  unfold subgraph
  refine (yields_any _).bind fun _ rest _ => ?_
  refine (hbody rest).bind fun inner rest hinner => ?_
  refine (yields_any _).bind fun _ rest _ => ?_
  exact yields_ok (.subgraph hinner) _

theorem yields_statements (most : Nat) (s : List Char) :
    Yields (fun sts => ∀ st ∈ sts, StatementRead st) (statements most s) := by
  induction most generalizing s with
  | zero => exact yields_error _
  | succ most ih =>
      rw [statements]
      split
      · refine yields_ok ?_ []
        exact fun _ h => absurd h List.not_mem_nil
      · refine yields_ok ?_ _
        exact fun _ h => absurd h List.not_mem_nil
      · refine (yields_statement ih _).bind fun first rest hfirst => ?_
        exact (ih rest).mapValue fun sts hsts => List.forall_mem_cons.mpr ⟨hfirst, hsts⟩

theorem yields_graph (s : List Char) :
    Yields (fun g => ∀ st ∈ g.2, StatementRead st) (graph s) := by
  unfold graph
  dsimp only
  split
  · exact yields_error _
  · split
    · exact yields_error _
    · refine (yields_any _).bind fun _ rest _ => ?_
      refine (yields_any _).bind fun _ rest _ => ?_
      refine (yields_any _).bind fun _ rest _ => ?_
      refine (yields_statements _ _).bind fun body rest hbody => ?_
      refine (yields_any _).bind fun _ rest _ => ?_
      refine yields_ok ?_ _
      exact hbody

end Read

open Read

/-! ## What was read -/

theorem blockRead_nodesOf {line : Nat → Nat} {defaults : Attrs} {sts : List Statement}
    (hdefaults : BlockRead defaults) (h : ∀ st ∈ sts, StatementRead st) :
    ∀ n ∈ nodesOf line defaults sts, BlockRead n.attrs := by
  fun_induction nodesOf line defaults sts with
  | case1 => exact fun _ h => absurd h List.not_mem_nil
  | case2 defaults attrs rest ih =>
      obtain ⟨hst, hrest⟩ := List.forall_mem_cons.mp h
      cases hst with
      | nodeDefaults hattrs => exact ih (hdefaults.merge hattrs) hrest
  | case3 defaults left id attrs rest ih =>
      obtain ⟨hst, hrest⟩ := List.forall_mem_cons.mp h
      cases hst with
      | node _ _ hattrs =>
          exact List.forall_mem_cons.mpr ⟨hdefaults.merge hattrs, ih hdefaults hrest⟩
  | case4 defaults body rest ihbody ihrest =>
      obtain ⟨hst, hrest⟩ := List.forall_mem_cons.mp h
      cases hst with
      | subgraph hbody =>
          exact List.forall_mem_append.mpr ⟨ihbody hdefaults hbody, ihrest hdefaults hrest⟩
  | case5 defaults st rest _ _ _ ih => exact ih hdefaults (List.forall_mem_cons.mp h).2

theorem blockRead_edgesOf {line : Nat → Nat} {defaults : Attrs} {sts : List Statement}
    (hdefaults : BlockRead defaults) (h : ∀ st ∈ sts, StatementRead st) :
    ∀ e ∈ edgesOf line defaults sts, BlockRead e.attrs := by
  fun_induction edgesOf line defaults sts with
  | case1 => exact fun _ h => absurd h List.not_mem_nil
  | case2 defaults attrs rest ih =>
      obtain ⟨hst, hrest⟩ := List.forall_mem_cons.mp h
      cases hst with
      | edgeDefaults hattrs => exact ih (hdefaults.merge hattrs) hrest
  | case3 defaults left chain attrs rest ih =>
      obtain ⟨hst, hrest⟩ := List.forall_mem_cons.mp h
      cases hst with
      | edges _ _ hattrs =>
          refine List.forall_mem_append.mpr ⟨fun e he => ?_, ih hdefaults hrest⟩
          obtain ⟨_, -, rfl⟩ := List.mem_map.mp he
          exact hdefaults.merge hattrs
  | case4 defaults body rest ihbody ihrest =>
      obtain ⟨hst, hrest⟩ := List.forall_mem_cons.mp h
      cases hst with
      | subgraph hbody =>
          exact List.forall_mem_append.mpr ⟨ihbody hdefaults hbody, ihrest hdefaults hrest⟩
  | case5 defaults st rest _ _ _ ih => exact ih hdefaults (List.forall_mem_cons.mp h).2

theorem isFromText_settingsOf {sts : List Statement} (h : ∀ st ∈ sts, StatementRead st) :
    ∀ e ∈ settingsOf sts, isFromText e.2 := by
  fun_induction settingsOf sts with
  | case1 => exact fun _ h => absurd h List.not_mem_nil
  | case2 attrs rest ih =>
      obtain ⟨hst, hrest⟩ := List.forall_mem_cons.mp h
      cases hst with
      | graphAttrs hattrs =>
          exact List.forall_mem_append.mpr ⟨fun e he => (hattrs e he).2, ih hrest⟩
  | case3 key value rest ih =>
      obtain ⟨hst, hrest⟩ := List.forall_mem_cons.mp h
      cases hst with
      | graphAttr _ hvalue => exact List.forall_mem_cons.mpr ⟨hvalue, ih hrest⟩
  | case4 body rest ihbody ihrest =>
      obtain ⟨hst, hrest⟩ := List.forall_mem_cons.mp h
      cases hst with
      | subgraph hbody => exact List.forall_mem_append.mpr ⟨ihbody hbody, ihrest hrest⟩
  | case5 st rest _ _ _ ih => exact ih (List.forall_mem_cons.mp h).2

/-- Only a setting of the graph itself can have a key that is no dotted name. -/
theorem blockRead_of_parse {text : String} {g : Digraph} (hparse : parse text = .ok g)
    (hkeys : isDotted g.attrs) : ∀ attrs ∈ g.allAttrs, BlockRead attrs := by
  unfold parse parseStripped at hparse
  split at hparse
  · cases hparse
  · next name body rest hgraph =>
    have hbody : ∀ st ∈ body, StatementRead st := yields_graph _ (name, body) rest hgraph
    split at hparse
    · cases hparse
      refine forall_allAttrs.mpr ⟨fun e he => ⟨isDotted_iff.mp hkeys e he, ?_⟩,
        blockRead_nodesOf blockRead_empty hbody, blockRead_edgesOf blockRead_empty hbody⟩
      exact isFromText_settingsOf hbody e
        ((Keyed.mem_foldl_insert he).resolve_left List.not_mem_nil)
    · cases hparse

/-! ## What is read back -/

/-- The graph holds a real number that is written with an exponent, or as a word. -/
def HasUnpointed (g : Digraph) : Prop :=
  ∃ attrs ∈ g.allAttrs, ∃ e ∈ attrs.entries, ∃ x, e.2 = .real x ∧ isPointed x = false

theorem allAttrs_mapValues (f : AttrValue → AttrValue) (g : Digraph) :
    (g.mapValues f).allAttrs = g.allAttrs.map (·.mapValues f) := by
  simp only [allAttrs, mapValues, List.map_cons, List.map_append, List.map_map]
  rfl

theorem allAttrs_unlined (g : Digraph) : g.unlined.allAttrs = g.allAttrs := by
  simp only [allAttrs, unlined, List.map_map]
  rfl

/-- Replacing values changes the graph if it changes one of them. -/
theorem eq_of_unlined_mapValues {f : AttrValue → AttrValue} {g : Digraph}
    (h : (g.mapValues f).unlined = g.unlined) {attrs : Attrs} (hattrs : attrs ∈ g.allAttrs)
    {e : String × AttrValue} (he : e ∈ attrs.entries) : f e.2 = e.2 := by
  have hall : g.allAttrs.map (·.mapValues f) = g.allAttrs.map id := by
    rw [← allAttrs_mapValues, ← allAttrs_unlined, h, allAttrs_unlined, List.map_id]
  have hentries : attrs.entries.map (fun e => (e.1, f e.2)) = attrs.entries.map id := by
    rw [List.map_id]
    exact congrArg Keyed.entries (List.map_inj_left.mp hall attrs hattrs)
  exact congrArg Prod.snd (List.map_inj_left.mp hentries e he)

/-- A value that stands for itself where it is written is read as what it is. -/
theorem readsAs_self {v : AttrValue} (h : isFromText v)
    (hpointed : ∀ x, v = .real x → isPointed x) :
    ReadsAs v v := by
  cases v with
  | real x =>
      cases x with
      | finite negative m => exact readsAs_pointed h (hpointed _ rfl)
      | infinite negative => exact absurd (hpointed _ rfl) Bool.false_ne_true
      | notANumber => exact h.elim
  | _ => exact readsAs_of_not_isReal rfl

/-- A graph that was read is read back from its own text if and only if none of its real
numbers is written with an exponent or as a word. -/
theorem parse_render_iff {text : String} {g : Digraph} (hparse : parse text = .ok g)
    (hkeys : isDotted g.attrs) :
    (∃ g', parse g.render = .ok g' ∧ g'.unlined = g.unlined) ↔ ¬g.HasUnpointed := by
  have hread := blockRead_of_parse hparse hkeys
  constructor
  · rintro ⟨g', hback, hsame⟩ ⟨attrs, hattrs, e, he, x, hx, hpointed⟩
    have hentries : ∀ attrs ∈ g.allAttrs, ∀ e ∈ attrs.entries,
        EntryReads reread e ∨ EntryBreaks e := by
      intro attrs hattrs e he
      obtain ⟨hkey, hvalue⟩ := hread attrs hattrs e he
      exact (readsAs_or_breaks hvalue).imp (⟨hkey, ·⟩) (⟨hkey, ·⟩)
    -- If an attribute breaks nothing is read back.
    have hreads : ∀ attrs ∈ g.allAttrs, Rereads reread attrs := by
      intro attrs hattrs e he
      refine (hentries attrs hattrs e he).resolve_right fun hbreaks => ?_
      have hdotted : g.hasDottedKeys :=
        List.all_eq_true.mpr fun a ha => isDotted_iff.mpr fun e he => (hread a ha e he).1
      obtain ⟨fault, hfault⟩ := parse_render_of_spoiled (stripComments_renderChars hdotted)
        (fun a ha => blockReads_of_forall (hentries a ha))
        ⟨attrs, hattrs, hentries attrs hattrs, e, he, hbreaks⟩
      rw [hfault] at hback
      cases hback
    -- Otherwise the number is read back as a text.
    obtain ⟨g'', hback', hunlined⟩ := parse_render_of_rereads hreads
    obtain rfl := Except.ok.inj (hback.symm.trans hback')
    have heq := reread_eq_iff.mp
      (eq_of_unlined_mapValues (hunlined.symm.trans hsame) hattrs he) x hx
    rw [hpointed] at heq
    exact Bool.false_ne_true heq
  · intro hnone
    have hreads : ∀ attrs ∈ g.allAttrs, Rereads id attrs := by
      intro attrs hattrs e he
      obtain ⟨hkey, hvalue⟩ := hread attrs hattrs e he
      refine ⟨hkey, readsAs_self hvalue fun x hx => ?_⟩
      cases hpointed : isPointed x with
      | true => rfl
      | false => exact absurd ⟨attrs, hattrs, e, he, x, hx, hpointed⟩ hnone
    obtain ⟨g', hback, hsame⟩ := parse_render_of_rereads hreads
    exact ⟨g', hback, by rw [hsame, mapValues_id]⟩

def vastText : String := "digraph \x7b a [x=12345678901234567890.5] \x7d"

/-- The number is read as the nearest one of double precision. -/
def vastAttrs : Attrs := ⟨[("x", .real (.finite false ⟨6028163525993441, 11⟩))], by decide⟩

def vastGraph : Digraph := ⟨"", ∅, [⟨"a", vastAttrs, 1⟩], []⟩

theorem parse_vastText : parse vastText = .ok vastGraph := by
  have hread : parse vastText
      = .ok (ofStatements (lineAt vastText.toList) "" [.node 30 "a" vastAttrs]) := rfl
  have hnodes : nodesOf (lineAt vastText.toList) ∅ [.node 30 "a" vastAttrs]
      = [⟨"a", vastAttrs, 1⟩] := by
    rw [nodesOf, nodesOf, Keyed.empty_merge]
    rfl
  have hedges : edgesOf (lineAt vastText.toList) ∅ [.node 30 "a" vastAttrs] = [] := by
    rw [edgesOf, edgesOf] <;> simp
  have hsettings : settingsOf [.node 30 "a" vastAttrs] = [] := by
    rw [settingsOf, settingsOf] <;> simp
  rw [hread, ofStatements, hnodes, hedges, hsettings]
  rfl

theorem parse_render_iff_vastText : ∃ g, parse vastText = .ok g ∧ isDotted g.attrs ∧
    g.HasUnpointed ∧ ¬∃ g', parse g.render = .ok g' ∧ g'.unlined = g.unlined := by
  have hdotted : isDotted vastGraph.attrs := rfl
  have hunpointed : vastGraph.HasUnpointed :=
    ⟨vastAttrs, .tail _ (.head _), _, .head _, _, rfl, rfl⟩
  exact ⟨vastGraph, parse_vastText, hdotted, hunpointed,
    fun hback => (parse_render_iff parse_vastText hdotted).mp hback hunpointed⟩

end Pipewright.Digraph
