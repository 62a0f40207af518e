import Mathlib.Logic.Function.Iterate
import Pipewright.Proofs.Digraph.Lines
import Pipewright.Proofs.Text

/-!
# Progress and bounds

The reader of a graph file has loops, over attributes, over the edges of a
chain and over statements, and statements are read in statements. Nothing counts
their rounds in the language of graph files; they end because every part that
is read takes something of the text (`Progresses`). The bounds that the reader
is given are therefore never met: it answers what any number of rounds that is
greater than the number of characters answers, whatever would come after these
(`EndsIn`).

What remains of a text where a statement begins or where reading stops is noted
by its length alone. In bytes too this length tells where that is: it is the end
of the text behind a place between two characters (`Marks`).
-/

namespace Pipewright.Digraph

namespace Read

/-! ## Parts that take something -/

/-- What the reader leaves, or the place where it gives up, is an end of the text, and if it
succeeds a shorter one. -/
structure Progresses {α : Type} (read : List Char → Reading (α × List Char)) : Prop where
  within : ∀ s, Within s (read s)
  advances : ∀ s, Advances s (read s)

theorem attrBlock_advances (s : List Char) : Advances s (attrBlock s) := by
  unfold attrBlock
  refine Advances.bind (char_advances '[' s) fun _ rest _ => ?_
  refine Within.bind ((attrs_within ..).mono (skipSpace_suffix rest)) fun _ rest _ => ?_
  exact Within.bind (char_within ']' rest).expecting fun _ rest _ => List.suffix_refl rest

/-! ## Recursions that end -/

section Rounds

variable {σ β : Type} {round : (σ → β) → σ → β} {s : σ} {n m : ℕ}

/-- In so many rounds the recursion has come to the answer, and nothing that would come after them
was asked. That might be a final refusal, and no part of the reader passes over one. -/
def EndsIn (round : (σ → β) → σ → β) (n : ℕ) (s : σ) (answer : β) : Prop :=
  ∀ last, round^[n] last s = answer

/-- A recursion that asks only for what is less ends with the answer that it is given a bound
for. -/
theorem endsIn_of_congr (size : σ → ℕ) (bounded : ℕ → σ → β)
    (hsucc : ∀ m, bounded (m + 1) = round (bounded m))
    (hcongr : ∀ f m s, (∀ t, size t < size s → f t = bounded m t) →
      round f s = round (bounded m) s)
    (hn : size s < n) (hm : size s < m) : EndsIn round n s (bounded m s) := by
  intro last
  induction n generalizing m s with
  | zero => omega
  | succ n ih =>
      obtain ⟨m, rfl⟩ := Nat.exists_eq_add_of_le' (Nat.one_le_of_lt hm)
      rw [Function.iterate_succ_apply', hsucc]
      -- what is asked for is less, and for that one round fewer is enough
      exact hcongr _ m s fun t ht => ih (by omega) (by omega)

end Rounds

/-- After a part that takes something, only what is shorter matters. -/
theorem bind_congr_of_advances {α β : Type} {s : List Char} {r : Reading (α × List Char)}
    {f g : α × List Char → Reading (β × List Char)} (hr : Advances s r)
    (hfg : ∀ a rest, rest.length < s.length → f (a, rest) = g (a, rest)) :
    (r >>= f) = (r >>= g) := by
  cases r with
  | ok v => exact hfg v.1 v.2 hr
  | error f => rfl

/-! ## The loop over attributes -/

def attrsRound (again : Attrs × List Char → Reading (Attrs × List Char)) :
    Attrs × List Char → Reading (Attrs × List Char)
  | (seen, s) =>
    match attr s with
    | .ok ((k, v), rest) => again (seen.insert k v, skipBetween rest)
    | .error f => if f.final then .error f else .ok (seen, s)

theorem attrsRound_congr {f g : Attrs × List Char → Reading (Attrs × List Char)}
    {p : Attrs × List Char} (h : ∀ q, q.2.length < p.2.length → f q = g q) :
    attrsRound f p = attrsRound g p := by
  obtain ⟨seen, s⟩ := p
  have hattr := attr_advances s
  cases hread : attr s with
  | error e => simp only [attrsRound, hread]
  | ok v =>
      rw [hread] at hattr
      have hrest : (skipBetween v.2).length < s.length :=
        Nat.lt_of_le_of_lt (skipBetween_suffix v.2).length_le hattr
      simp only [attrsRound, hread]
      exact h (seen.insert v.1.1 v.1.2, skipBetween v.2) hrest

theorem attrs_succ {n : ℕ} {s : List Char} (h : s.length ≤ n) (seen : Attrs) :
    attrs (n + 1) seen s = attrs n seen s := by
  induction n generalizing seen s with
  | zero =>
      obtain rfl := List.length_eq_zero_iff.mp (Nat.le_zero.mp h)
      rfl
  | succ n ih =>
      have hattr := attr_advances s
      rw [attrs, attrs]
      cases hread : attr s with
      | error e => rfl
      | ok v =>
          rw [hread] at hattr
          have hrest : (skipBetween v.2).length < s.length :=
            Nat.lt_of_le_of_lt (skipBetween_suffix v.2).length_le hattr
          exact ih (Nat.le_of_lt_succ (Nat.lt_of_lt_of_le hrest h)) (seen.insert v.1.1 v.1.2)

theorem attrs_endsIn {n : ℕ} {s : List Char} (h : s.length ≤ n) (seen : Attrs) :
    EndsIn attrsRound (s.length + 1) (seen, s) (attrs n seen s) := by
  -- the loop gives what it has seen when no more is allowed; with one more nothing changes
  rw [← attrs_succ h]
  let size : Attrs × List Char → ℕ := fun p => p.2.length
  let bounded : ℕ → Attrs × List Char → Reading (Attrs × List Char) := fun m p => attrs m p.1 p.2
  exact endsIn_of_congr size bounded (fun _ => rfl) (fun _ _ _ => attrsRound_congr)
    (Nat.lt_succ_self _) (Nat.lt_succ_of_le h)

/-! ## The loop over a chain -/

/-- One round of the loop over a chain of edges. -/
def chainRound (again : List Char → Reading (List String × List Char)) (s : List Char) :
    Reading (List String × List Char) := do
  let (id, s) ← expecting .edgeTarget (name (skipSpace s))
  let s := skipSpace s
  match dropWord? ['-', '>'] s with
  | some s => mapValue (id :: ·) (again s)
  | none => return ([id], s)

theorem chainRound_congr {f g : List Char → Reading (List String × List Char)} {s : List Char}
    (h : ∀ t, t.length < s.length → f t = g t) : chainRound f s = chainRound g s := by
  unfold chainRound
  have hname : Advances s (expecting .edgeTarget (name (skipSpace s))) :=
    (name_advances _).expecting.mono (skipSpace_suffix s)
  refine bind_congr_of_advances hname fun id rest hrest => ?_
  dsimp only
  split
  · next more harrow =>
    have hmore := (dropWord?_suffix harrow).1.trans (skipSpace_suffix rest)
    rw [h more (Nat.lt_of_le_of_lt hmore.length_le hrest)]
  · rfl

theorem chain_endsIn {n : ℕ} {s : List Char} (h : s.length < n) :
    EndsIn chainRound (s.length + 1) s (chain n s) :=
  endsIn_of_congr List.length chain (fun _ => rfl) (fun _ _ _ => chainRound_congr)
    (Nat.lt_succ_self _) h

/-! ## The loop over statements, and blocks in blocks -/

/-- One round of the loop over statements; what is asked again is also how a block in a block is
read. -/
def statementsRound (again : List Char → Reading (List Statement × List Char)) (s : List Char) :
    Reading (List Statement × List Char) :=
  match skipSpace s with
  | [] => .ok ([], [])
  | '\x7d' :: rest => .ok ([], '\x7d' :: rest)
  | s => do
    let (first, s) ← statement again s
    mapValue (first :: ·) (again s)

section Statements

variable {f g : List Char → Reading (List Statement × List Char)} {s : List Char}

theorem statement_congr (h : ∀ t, t.length < s.length → f t = g t) :
    statement f s = statement g s := by
  have hsubgraph : subgraph f s = subgraph g s := by
    unfold subgraph
    refine bind_congr_of_advances (subgraphOpening_advances s) fun _ rest hrest => ?_
    dsimp only
    rw [h rest hrest]
  rw [statement, statement, hsubgraph]

theorem statementsRound_congr (hg : ∀ t, Within t (g t))
    (h : ∀ t, t.length < s.length → f t = g t) : statementsRound f s = statementsRound g s := by
  have hspace := (skipSpace_suffix s).length_le
  unfold statementsRound
  split
  · rfl
  · rfl
  · rw [statement_congr fun t ht => h t (Nat.lt_of_lt_of_le ht hspace)]
    refine bind_congr_of_advances (statement_advances hg _) fun first rest hrest => ?_
    dsimp only
    rw [h rest (Nat.lt_of_lt_of_le hrest hspace)]

end Statements

theorem statements_endsIn {n : ℕ} {s : List Char} (h : s.length < n) :
    EndsIn statementsRound (s.length + 1) s (statements n s) :=
  endsIn_of_congr List.length statements (fun _ => rfl)
    (fun _ m _ => statementsRound_congr (statements_within m)) (Nat.lt_succ_self _) h

end Read

/-! ## Places in bytes -/

/-- The number of bytes of a text that is given by its characters. -/
def byteLength (cs : List Char) : ℕ := (String.ofList cs).utf8ByteSize

/-- The line of the place from which so many bytes of the text remain; nothing if the text cannot
be cut there. -/
def lineAtByte? (source : String) (left : ℕ) : Option ℕ :=
  (Text.front? source (source.utf8ByteSize - left)).map fun front => front.toList.count '\n' + 1

/-- The byte at which the last line feed of a text stands. -/
def lastFeed? (text : String) : Option ℕ :=
  match text.toList.reverse.dropWhile (· ≠ '\n') with
  | [] => none
  | _ :: before => some (byteLength before.reverse)

/-- The column behind a text: what follows its last line feed is cut out of it and counted. -/
def columnBehind? (front : String) : Option ℕ :=
  match lastFeed? front with
  | none => some (front.length + 1)
  | some feed => (Text.back? front (feed + 1)).map (·.length + 1)

/-- The line and the column of the place from which so many bytes of the text remain; nothing if
there are fewer bytes, or if the text cannot be cut there. -/
def placeAtByte? (source : String) (left : ℕ) : Option (ℕ × ℕ) := do
  guard (left ≤ source.utf8ByteSize)
  let front ← Text.front? source (source.utf8ByteSize - left)
  return (front.toList.count '\n' + 1, ← columnBehind? front)

theorem columnBehind?_eq (front : String) : columnBehind? front
    = some ((front.toList.reverse.takeWhile (· ≠ '\n')).length + 1) := by
  have hsplit := List.takeWhile_append_dropWhile (p := (· ≠ '\n')) (l := front.toList.reverse)
  have hhead := List.head?_dropWhile_not (· ≠ '\n') front.toList.reverse
  rw [columnBehind?, lastFeed?]
  generalize front.toList.reverse.takeWhile (· ≠ '\n') = line at hsplit ⊢
  cases hback : front.toList.reverse.dropWhile (· ≠ '\n') with
  | nil =>
      rw [hback, List.append_nil] at hsplit
      rw [hsplit, List.length_reverse, String.length_toList]
  | cons c before =>
      rw [hback] at hsplit hhead
      obtain rfl : c = '\n' := by simpa using hhead
      have hfront : front = String.ofList before.reverse ++ "\n" ++ String.ofList line.reverse := by
        rw [← String.toList_inj, ← List.reverse_inj, ← hsplit]
        simp
      have hcut := (Text.cut_append (String.ofList before.reverse ++ "\n")
        (String.ofList line.reverse)).2
      rw [← hfront, String.utf8ByteSize_append] at hcut
      dsimp only
      rw [byteLength, show 1 = "\n".utf8ByteSize from rfl, hcut]
      simp

/-- The rest of the text is the end of it behind a place between two characters, also when its
length is counted in bytes, and the line and the column of that place can be found there. -/
structure Marks (source : String) (rest : List Char) : Prop where
  isSuffix : rest <:+ source.toList
  inside : byteLength rest ≤ source.utf8ByteSize
  boundary : (String.Pos.Raw.mk (source.utf8ByteSize - byteLength rest)).IsValid source
  line : lineAtByte? source (byteLength rest) = some (lineAt source.toList rest.length)
  place : placeAtByte? source (byteLength rest)
    = some (lineAt source.toList rest.length, columnAt source.toList rest.length)

theorem marks_of_isSuffix {source : String} {rest : List Char} (h : rest <:+ source.toList) :
    Marks source rest := by
  obtain ⟨front, hfront⟩ := h
  have hsource : source = String.ofList front ++ String.ofList rest := by
    rw [← String.ofList_append, hfront, String.ofList_toList]
  have hsize : source.utf8ByteSize = byteLength front + byteLength rest := by
    rw [hsource, String.utf8ByteSize_append, byteLength, byteLength]
  have hbefore : source.utf8ByteSize - byteLength rest = byteLength front := by omega
  have htake : source.toList.take (source.toList.length - rest.length) = front := by
    rw [← hfront, List.length_append, Nat.add_sub_cancel, List.take_left]
  have hcut : Text.front? source (byteLength front) = some (String.ofList front) := by
    rw [hsource]
    exact (Text.cut_append _ _).1
  have hinside : byteLength rest ≤ source.utf8ByteSize := by omega
  refine ⟨⟨front, hfront⟩, hinside, ?_, ?_, ?_⟩
  · rw [hbefore, hsource]
    exact Text.isValid_append _ _
  · rw [lineAtByte?, hbefore, hcut, lineAt, htake, Option.map_some, String.toList_ofList]
  · rw [placeAtByte?, hbefore, hcut, lineAt, columnAt, htake]
    simp [hinside, columnBehind?_eq]

/-- The place behind two characters of three bytes, and no place in the second of them. -/
example : placeAtByte? "é\n日本 x" 2 = some (2, 3) ∧ placeAtByte? "é\n日本 x" 4 = none := by
  decide +kernel

/-! ## What is recorded, and where reading stops -/

def stripped (text : String) : String := String.ofList (stripComments text.toList)

theorem toList_stripped (text : String) : (stripped text).toList = stripComments text.toList :=
  String.toList_ofList

/-- Each statement, at whatever depth of blocks, is read from an end of the text; if it notes how
much was left, it notes the length of that. -/
def Recorded (source : String) (body : List Statement) : Prop :=
  ∀ p st, at? body p = some st → ∃ here next, Grammar.Stmt here st next ∧
    (∀ left, st.left? = some left → left = here.length) ∧ Marks source here

theorem recorded_of_suffixes {source : String} {body : List Statement}
    (h : ∀ p st, at? body p = some st →
      ∃ here next, here <:+ source.toList ∧ Grammar.Stmt here st next) : Recorded source body := by
  intro p st hat
  obtain ⟨here, next, hsuffix, hstmt⟩ := h p st hat
  exact ⟨here, next, hstmt, fun _ => hstmt.left, marks_of_isSuffix hsuffix⟩

theorem recorded_of_statements {source : String} {n : ℕ} {s rest : List Char}
    {body : List Statement} (hs : s <:+ source.toList)
    (h : Read.statements n s = .ok (body, rest)) : Recorded source body := by
  refine recorded_of_suffixes fun p st hat => ?_
  obtain ⟨here, next, hsuffix, hstmt⟩ := stmt_of_at? (Read.leads_statements n s body rest h) hat
  exact ⟨here, next, hsuffix.trans hs, hstmt⟩

/-- Reading stopped where this remained. The fault has the line of that place, and also its column
unless a whole graph stands before it. -/
structure Stopped (source : String) (fault : ParseFault) (rest : List Char) : Prop where
  remains : Remains source.toList rest
  marks : Marks source rest
  line : lineAtByte? source (byteLength rest) = some fault.line
  place : fault.reason ≠ .trailing →
    placeAtByte? source (byteLength rest) = some (fault.line, fault.column)
  trailing : fault.reason = .trailing → fault.column = 1

theorem stopped_of_parse {text : String} {fault : ParseFault} (h : parse text = .error fault) :
    ∃ rest, Stopped (stripped text) fault rest := by
  obtain ⟨rest, hremains, -, hline, hcolumn⟩ := parse_eq_error h
  rw [← toList_stripped] at hremains hline hcolumn
  have hmarks := marks_of_isSuffix hremains.isSuffix
  refine ⟨rest, hremains, hmarks, by rw [hmarks.line, hline], fun hreason => ?_, fun hreason => ?_⟩
  · rw [hmarks.place, hline, hcolumn, if_neg hreason]
  · rw [hcolumn, if_pos hreason]

/-- Names, attributes, blocks of attributes and statements that are read take something of the text,
whatever bound is given for what is in blocks. The loops over attributes, over the edges of a chain
and over statements, with the blocks in blocks, come to their answer in at most one round more than
there are characters, and a bound that is not less than that changes nothing. What is left where a
statement begins is the end of the text behind a place between two characters, in every list of
statements that is read; so is what remains of a text that is refused, and the line and the column
of the fault are found by cutting the text there. -/
theorem reading_progress :
    (Read.Progresses Read.name ∧ Read.Progresses Read.attr ∧ Read.Progresses Read.attrBlock ∧
      ∀ n, Read.Progresses (Read.statement (Read.statements n)) ∧
        ∀ s, Within s (Read.statements n s)) ∧
    ((∀ seen s n, s.length ≤ n →
        Read.EndsIn Read.attrsRound (s.length + 1) (seen, s) (Read.attrs n seen s)) ∧
      (∀ s n, s.length < n → Read.EndsIn Read.chainRound (s.length + 1) s (Read.chain n s)) ∧
      ∀ s n, s.length < n →
        Read.EndsIn Read.statementsRound (s.length + 1) s (Read.statements n s)) ∧
    ∀ text,
      (∀ s n body rest, s <:+ (stripped text).toList →
        Read.statements n s = .ok (body, rest) → Recorded (stripped text) body) ∧
      match parse text with
      | .ok g => ∃ name body rest,
          Read.graph (stripped text).toList = .ok ((name, body), rest) ∧
          g = ofStatements (lineAt (stripped text).toList) name body ∧
          Recorded (stripped text) body
      | .error fault => ∃ rest, Stopped (stripped text) fault rest := by
  have hstatements : ∀ n s, Within s (Read.statements n s) := Read.statements_within
  refine ⟨⟨⟨Read.name_within, Read.name_advances⟩, ⟨Read.attr_within, Read.attr_advances⟩,
    ⟨Read.attrBlock_within, Read.attrBlock_advances⟩, fun n => ⟨⟨?_, ?_⟩, hstatements n⟩⟩,
    ⟨fun seen s n h => Read.attrs_endsIn h seen, fun s n => Read.chain_endsIn,
      fun s n => Read.statements_endsIn⟩,
    fun text => ⟨fun s n body rest => recorded_of_statements, ?_⟩⟩
  · exact Read.statement_within (hstatements n)
  · exact Read.statement_advances (hstatements n)
  · cases hparse : parse text with
    | error fault => exact stopped_of_parse hparse
    | ok g =>
        obtain ⟨name, body, rest, hread, hg⟩ := parse_eq_ok hparse
        rw [← toList_stripped] at hread hg
        exact ⟨name, body, rest, hread, hg,
          recorded_of_suffixes fun p st hat => stmt_of_graph hread hat⟩

/-- Characters of several bytes around an edge, in a comment and in a block. -/
def accentedText : String :=
  "digraph \x7b\n \"é\" -> \"日\" // ü\n subgraph \x7b \"本\" [k=\"ü\"] \x7d\n\x7d"

def accentedBody : List Char := (stripped accentedText).toList.drop 9

/-- Where the statement in the block begins, 15 characters are left. -/
theorem reading_progress_accentedText :
    ("k=1, l=2".toList.length ≤ 8 ∧ Read.EndsIn Read.attrsRound ("k=1, l=2".toList.length + 1)
      (∅, "k=1, l=2".toList) (Read.attrs 8 ∅ "k=1, l=2".toList)) ∧
    ("b -> c".toList.length < 7 ∧ Read.EndsIn Read.chainRound ("b -> c".toList.length + 1)
      "b -> c".toList (Read.chain 7 "b -> c".toList)) ∧
    (accentedBody.length < 42 ∧ Read.EndsIn Read.statementsRound (accentedBody.length + 1)
      accentedBody (Read.statements 42 accentedBody)) ∧
    ∃ body rest st here next, accentedBody <:+ (stripped accentedText).toList ∧
      Read.statements 42 accentedBody = .ok (body, rest) ∧ at? body [1, 0] = some st ∧
      st.left? = some 15 ∧ Grammar.Stmt here st next ∧ here.length = 15 ∧
      Marks (stripped accentedText) here := by
  obtain ⟨-, ⟨hattrs, hchain, hstatements⟩, htexts⟩ := reading_progress
  have hlist : "k=1, l=2".toList.length ≤ 8 := by decide
  have hedges : "b -> c".toList.length < 7 := by decide
  have hinner : accentedBody.length < 42 := by decide +kernel
  have hsuffix : accentedBody <:+ (stripped accentedText).toList := List.drop_suffix 9 _
  have hnoted : (Read.statements 42 accentedBody).toOption.bind
      (fun v => (at? v.1 [1, 0]).bind Statement.left?) = some 15 := by decide +kernel
  obtain ⟨⟨body, rest⟩, hread, hfound⟩ := Option.bind_eq_some_iff.mp hnoted
  obtain ⟨st, hat, hleft⟩ := Option.bind_eq_some_iff.mp hfound
  have hok : Read.statements 42 accentedBody = .ok (body, rest) := by
    cases h : Read.statements 42 accentedBody with
    | error f => rw [h] at hread; cases hread
    | ok v => rw [h] at hread; exact congrArg Except.ok (Option.some.inj hread)
  obtain ⟨hrecorded, -⟩ := htexts accentedText
  obtain ⟨here, next, hstmt, hlength, hmarks⟩ :=
    hrecorded accentedBody 42 body rest hsuffix hok [1, 0] st hat
  exact ⟨⟨hlist, hattrs ∅ _ 8 hlist⟩, ⟨hedges, hchain _ 7 hedges⟩,
    ⟨hinner, hstatements _ 42 hinner⟩, body, rest, st, here, next, hsuffix, hok, hat, hleft, hstmt,
    (hlength 15 hleft).symm, hmarks⟩

end Pipewright.Digraph
