import Pipewright.Digraph.Reader
import Pipewright.Proofs.Digraph.Values

/-!
# The grammar of graph files

Which texts are graph files once their comments are out, said without a reader:

    digraph = ws 'digraph' ws id? ws '{' stmts '}'
    stmts   = (ws stmt)* ws
    stmt    = ('graph' | 'node' | 'edge') ws attrs ws ';'?
            | 'subgraph' ws id? ws '{' stmts '}' ws ';'?
            | id ws ('->' ws id ws)+ attrs? ws ';'?
            | id ws attrs ws ';'?
            | id ws '=' ws value ws ';'?
            | id ws ';'?
    attrs   = '[' ws (key ws '=' ws value ws (',' | ';')? ws)* ']'

Each nonterminal is a relation between the text from which it is derived, what
it means, and the text after it. In a rule the text after one part is the text
from which the next is derived, so a derivation accounts for every character of
the word in between. The text after a part also says where a token ends: a name,
a key and a bare value go on as long as they can.

The rules leave no choice of meaning where two of them fit. A word before a
block of attributes names a node only if it is none of the three that open such
a block, and a bare value is a text only if it is neither a truth value nor a
number.
-/

namespace Pipewright.Digraph.Grammar

/-! ## Blanks and separators -/

def Ws (s rest : List Char) : Prop := ∃ w, s = w ++ rest ∧ ∀ c ∈ w, Read.isSpace c

theorem Ws.trans {s₁ s₂ s₃ : List Char} (h : Ws s₁ s₂) (h' : Ws s₂ s₃) : Ws s₁ s₃ := by
  obtain ⟨w, rfl, hw⟩ := h
  obtain ⟨w', rfl, hw'⟩ := h'
  exact ⟨w ++ w', (List.append_assoc ..).symm, List.forall_mem_append.mpr ⟨hw, hw'⟩⟩

def Separator (s rest : List Char) : Prop := s = rest ∨ s = ',' :: rest ∨ s = ';' :: rest

def Ending (s rest : List Char) : Prop := Ws s rest ∨ Ws s (';' :: rest)

inductive Opt {α : Type} (part : List Char → α → List Char → Prop) :
    List Char → Option α → List Char → Prop
  | absent (s : List Char) : Opt part s none s
  | present {s rest : List Char} {a : α} (h : part s a rest) : Opt part s (some a) rest

/-! ## Names and values -/

/-- What is between two quotes, up to the second one, with its escapes resolved. -/
inductive Quoted : List Char → List Char → List Char → Prop
  | close (rest : List Char) : Quoted ('"' :: rest) [] rest
  | escape {s cs rest : List Char} (c : Char) (h : Quoted s cs rest) :
      Quoted ('\\' :: c :: s) (Read.unescape c ++ cs) rest
  | plain {s cs rest : List Char} {c : Char} (hquote : c ≠ '"') (hbackslash : c ≠ '\\')
      (h : Quoted s cs rest) : Quoted (c :: s) (c :: cs) rest

def IsSign (w : List Char) : Prop := w = [] ∨ w = ['-'] ∨ w = ['+']

def IsDigits (w : List Char) : Prop := w ≠ [] ∧ ∀ c ∈ w, c.isDigit

def IsFraction (w : List Char) : Prop := w = [] ∨ ∃ ds, w = '.' :: ds ∧ IsDigits ds

/-- `id`: a text in quotes, a bare name, or a numeral. -/
inductive Id : List Char → String → List Char → Prop
  | quoted {s cs rest : List Char} (h : Quoted s cs rest) : Id ('"' :: s) (String.ofList cs) rest
  | bare {c : Char} {w rest : List Char} (hstart : isWordStart c) (hword : ∀ d ∈ w, isWordChar d)
      (hrest : Stops isWordChar rest) : Id (c :: w ++ rest) (String.ofList (c :: w)) rest
  | numeral {sign whole part rest : List Char} (hsign : IsSign sign) (hwhole : IsDigits whole)
      (hpart : IsFraction part) (hrest : Stops Char.isDigit rest) :
      Id (sign ++ whole ++ part ++ rest) (String.ofList (sign ++ whole ++ part)) rest

/-- `key`: bare names with points between them. -/
inductive Key : List Char → String → List Char → Prop
  | dotted {w rest : List Char} (h : isDottedName w) (hrest : Stops isWordChar rest) :
      Key (w ++ rest) (String.ofList w) rest

/-- The word, before the text that follows it, is a truth value or a number. -/
inductive Typed : List Char → AttrValue → List Char → Prop
  | truth (b : Bool) {rest : List Char} (hrest : Stops isWordChar rest) :
      Typed (toString b).toList (.boolean b) rest
  | real {sign whole part rest : List Char} (hsign : IsSign sign) (hwhole : IsDigits whole)
      (hpart : IsDigits part) (hrest : Stops Char.isDigit rest) :
      Typed (sign ++ whole ++ '.' :: part)
        (.real (Binary64.ofDecimal (sign == ['-']) (Numeral.value 0 (whole ++ part))
          (-part.length))) rest
  | integer {sign whole rest : List Char} {i : Int64} (hsign : IsSign sign)
      (hwhole : IsDigits whole) (hfits : Numeral.int64? (sign ++ whole) = some i)
      (hrest : Stops isWordChar rest) : Typed (sign ++ whole) (.integer i) rest

/-- `value`: a text in quotes, a truth value, a number, or a bare word. -/
inductive Value : List Char → AttrValue → List Char → Prop
  | quoted {s cs rest : List Char} (h : Quoted s cs rest) :
      Value ('"' :: s) (.text (String.ofList cs)) rest
  | typed {w rest : List Char} {v : AttrValue} (h : Typed w v rest) : Value (w ++ rest) v rest
  | bare {w rest : List Char} (hne : w ≠ []) (hchars : ∀ c ∈ w, Read.isBareValueChar c)
      (hrest : Stops Read.isBareValueChar rest) (huntyped : ∀ v, ¬ Typed w v rest) :
      Value (w ++ rest) (.text (String.ofList w)) rest

/-! ## Attributes -/

/-- `(key ws '=' ws value ws (',' | ';')? ws)*` -/
inductive Pairs : List Char → List (String × AttrValue) → List Char → Prop
  | nil (s : List Char) : Pairs s [] s
  | cons {s s₁ s₂ s₃ s₄ s₅ s₆ s₇ rest : List Char} {k : String} {v : AttrValue}
      {l : List (String × AttrValue)} (hkey : Key s k s₁) (hequals : Ws s₁ ('=' :: s₂))
      (hspace : Ws s₂ s₃) (hvalue : Value s₃ v s₄) (hbefore : Ws s₄ s₅)
      (hseparator : Separator s₅ s₆) (hafter : Ws s₆ s₇) (hmore : Pairs s₇ l rest) :
      Pairs s ((k, v) :: l) rest

/-- `attrs`; of two pairs with one key the later counts. -/
inductive Block : List Char → Attrs → List Char → Prop
  | brackets {s s₁ rest : List Char} {l : List (String × AttrValue)} (hspace : Ws s s₁)
      (hpairs : Pairs s₁ l (']' :: rest)) : Block ('[' :: s) (Keyed.ofList l) rest

/-! ## Statements -/

/-- The words that open a block of attributes, and what the block then says. -/
def blockForms : List (String × (Attrs → Statement)) :=
  [("graph", .graphAttrs), ("node", .nodeDefaults), ("edge", .edgeDefaults)]

inductive Chain : List Char → List String → List Char → Prop
  | last {s s₁ s₂ rest : List Char} {id : String} (hspace : Ws s s₁) (hid : Id s₁ id s₂)
      (hafter : Ws s₂ rest) : Chain ('-' :: '>' :: s) [id] rest
  | cons {s s₁ s₂ s₃ rest : List Char} {id : String} {ids : List String} (hspace : Ws s s₁)
      (hid : Id s₁ id s₂) (hafter : Ws s₂ s₃) (hmore : Chain s₃ ids rest) :
      Chain ('-' :: '>' :: s) (id :: ids) rest

mutual

inductive Stmt : List Char → Statement → List Char → Prop
  | block {w : String} {f : Attrs → Statement} (hform : (w, f) ∈ blockForms)
      {s s₁ s₂ rest : List Char} {attrs : Attrs} (hspace : Ws s s₁) (hblock : Block s₁ attrs s₂)
      (hend : Ending s₂ rest) : Stmt (w.toList ++ s) (f attrs) rest
  | subgraph {s s₁ s₂ s₃ s₄ rest : List Char} {id : Option String} {body : List Statement}
      (hspace : Ws s s₁) (hid : Opt Id s₁ id s₂) (hopen : Ws s₂ ('\x7b' :: s₃))
      (hbody : Stmts s₃ body ('\x7d' :: s₄)) (hend : Ending s₄ rest) :
      Stmt ("subgraph".toList ++ s) (.subgraph body) rest
  | edges {s s₁ s₂ s₃ s₄ rest : List Char} {id : String} {ids : List String} {attrs : Option Attrs}
      (hid : Id s id s₁) (hspace : Ws s₁ s₂) (hchain : Chain s₂ ids s₃)
      (hblock : Opt Block s₃ attrs s₄) (hend : Ending s₄ rest) :
      Stmt s (.edges s.length (id :: ids) (attrs.getD ∅)) rest
  | node {s s₁ s₂ s₃ rest : List Char} {id : String} {attrs : Attrs} (hid : Id s id s₁)
      (hword : ∀ e ∈ blockForms, s ≠ e.1.toList ++ s₁) (hspace : Ws s₁ s₂)
      (hblock : Block s₂ attrs s₃) (hend : Ending s₃ rest) : Stmt s (.node s.length id attrs) rest
  | graphAttr {s s₁ s₂ s₃ s₄ rest : List Char} {id : String} {v : AttrValue} (hid : Id s id s₁)
      (hequals : Ws s₁ ('=' :: s₂)) (hspace : Ws s₂ s₃) (hvalue : Value s₃ v s₄)
      (hend : Ending s₄ rest) : Stmt s (.graphAttr id v) rest
  | bareNode {s s₁ rest : List Char} {id : String} (hid : Id s id s₁) (hend : Ending s₁ rest) :
      Stmt s (.node s.length id ∅) rest

inductive Stmts : List Char → List Statement → List Char → Prop
  | nil {s rest : List Char} (hspace : Ws s rest) : Stmts s [] rest
  | cons {s s₁ s₂ rest : List Char} {st : Statement} {sts : List Statement} (hspace : Ws s s₁)
      (hstmt : Stmt s₁ st s₂) (hmore : Stmts s₂ sts rest) : Stmts s (st :: sts) rest

end

inductive Graph : List Char → String → List Statement → List Char → Prop
  | digraph {s s₁ s₂ s₃ s₄ rest : List Char} {id : Option String} {body : List Statement}
      (hword : Ws s ("digraph".toList ++ s₁)) (hspace : Ws s₁ s₂) (hid : Opt Id s₂ id s₃)
      (hopen : Ws s₃ ('\x7b' :: s₄)) (hbody : Stmts s₄ body ('\x7d' :: rest)) :
      Graph s (id.getD "") body rest

/-! ## Words

What is derived is a word at the front of the text, and the text after it is left. -/

section Words

variable {s rest : List Char}

theorem Ws.isSuffix (h : Ws s rest) : rest <:+ s := by
  obtain ⟨w, rfl, -⟩ := h
  exact List.suffix_append w rest

theorem Separator.isSuffix (h : Separator s rest) : rest <:+ s := by
  obtain rfl | rfl | rfl := h
  · exact List.suffix_refl s
  · exact List.suffix_cons _ rest
  · exact List.suffix_cons _ rest

theorem Ending.isSuffix (h : Ending s rest) : rest <:+ s := by
  obtain h | h := h
  · exact h.isSuffix
  · exact (List.suffix_cons _ rest).trans h.isSuffix

theorem Opt.isSuffix {α : Type} {part : List Char → α → List Char → Prop} {o : Option α}
    (h : Opt part s o rest) (hpart : ∀ a, part s a rest → rest <:+ s) : rest <:+ s := by
  cases h with
  | absent => exact List.suffix_refl s
  | present h => exact hpart _ h

theorem Quoted.isSuffix {cs : List Char} (h : Quoted s cs rest) : rest <:+ s := by
  induction h with
  | close rest => exact List.suffix_cons _ rest
  | escape c _ ih => exact ih.trans ((List.suffix_cons c _).trans (List.suffix_cons _ _))
  | plain _ _ _ ih => exact ih.trans (List.suffix_cons _ _)

theorem Id.isSuffix {id : String} (h : Id s id rest) : rest <:+ s := by
  cases h with
  | quoted h => exact h.isSuffix.trans (List.suffix_cons _ _)
  | bare => exact List.suffix_append _ rest
  | numeral => exact List.suffix_append _ rest

theorem Key.isSuffix {k : String} (h : Key s k rest) : rest <:+ s := by
  obtain ⟨_, _⟩ := h
  exact List.suffix_append _ rest

theorem Value.isSuffix {v : AttrValue} (h : Value s v rest) : rest <:+ s := by
  cases h with
  | quoted h => exact h.isSuffix.trans (List.suffix_cons _ _)
  | typed => exact List.suffix_append _ rest
  | bare => exact List.suffix_append _ rest

theorem Pairs.isSuffix {l : List (String × AttrValue)} (h : Pairs s l rest) : rest <:+ s := by
  induction h with
  | nil => exact List.suffix_refl _
  | cons hkey hequals hspace hvalue hbefore hseparator hafter _ ih =>
      have hvalue := hvalue.isSuffix.trans (hspace.isSuffix.trans (List.suffix_cons '=' _))
      have hmore := hafter.isSuffix.trans (hseparator.isSuffix.trans hbefore.isSuffix)
      have hkey := hequals.isSuffix.trans hkey.isSuffix
      exact ih.trans (hmore.trans (hvalue.trans hkey))

theorem Block.isSuffix {attrs : Attrs} (h : Block s attrs rest) : rest <:+ s := by
  obtain ⟨hspace, hpairs⟩ := h
  have hopen := hspace.isSuffix.trans (List.suffix_cons '[' _)
  exact (List.suffix_cons ']' rest).trans (hpairs.isSuffix.trans hopen)

theorem Chain.isSuffix {ids : List String} (h : Chain s ids rest) : rest <:+ s := by
  have harrow : ∀ s : List Char, s <:+ '-' :: '>' :: s := fun s => List.suffix_append ['-', '>'] s
  induction h with
  | last hspace hid hafter =>
      exact hafter.isSuffix.trans (hid.isSuffix.trans (hspace.isSuffix.trans (harrow _)))
  | cons hspace hid hafter _ ih =>
      have hfirst := hid.isSuffix.trans (hspace.isSuffix.trans (harrow _))
      exact ih.trans (hafter.isSuffix.trans hfirst)

end Words

mutual

theorem Stmt.isSuffix {s rest : List Char} {st : Statement} (h : Stmt s st rest) : rest <:+ s := by
  cases h with
  | block _ hspace hblock hend =>
      have hattrs := hend.isSuffix.trans (hblock.isSuffix.trans hspace.isSuffix)
      exact hattrs.trans (List.suffix_append _ _)
  | subgraph hspace hid hopen hbody hend =>
      have hname := hid.isSuffix fun _ => Id.isSuffix
      have hword := hname.trans (hspace.isSuffix.trans (List.suffix_append "subgraph".toList _))
      have hinner := hbody.isSuffix.trans ((List.suffix_cons '\x7b' _).trans hopen.isSuffix)
      exact hend.isSuffix.trans ((List.suffix_cons '\x7d' _).trans (hinner.trans hword))
  | edges hid hspace hchain hblock hend =>
      have hattrs := hblock.isSuffix fun _ => Block.isSuffix
      have hids := hchain.isSuffix.trans (hspace.isSuffix.trans hid.isSuffix)
      exact hend.isSuffix.trans (hattrs.trans hids)
  | node hid _ hspace hblock hend =>
      exact hend.isSuffix.trans (hblock.isSuffix.trans (hspace.isSuffix.trans hid.isSuffix))
  | graphAttr hid hequals hspace hvalue hend =>
      have hkey := (List.suffix_cons '=' _).trans (hequals.isSuffix.trans hid.isSuffix)
      exact hend.isSuffix.trans (hvalue.isSuffix.trans (hspace.isSuffix.trans hkey))
  | bareNode hid hend => exact hend.isSuffix.trans hid.isSuffix

theorem Stmts.isSuffix {s rest : List Char} {sts : List Statement} (h : Stmts s sts rest) :
    rest <:+ s := by
  cases h with
  | nil hspace => exact hspace.isSuffix
  | cons hspace hstmt hmore => exact hmore.isSuffix.trans (hstmt.isSuffix.trans hspace.isSuffix)

end

theorem Graph.isSuffix {s rest : List Char} {name : String} {body : List Statement}
    (h : Graph s name body rest) : rest <:+ s := by
  obtain ⟨hword, hspace, hid, hopen, hbody⟩ := h
  have hname := hid.isSuffix fun _ => Id.isSuffix
  have hfront := hspace.isSuffix.trans ((List.suffix_append _ _).trans hword.isSuffix)
  have hinner := hbody.isSuffix.trans ((List.suffix_cons '\x7b' _).trans hopen.isSuffix)
  exact (List.suffix_cons '\x7d' rest).trans (hinner.trans (hname.trans hfront))

end Pipewright.Digraph.Grammar
