import Pipewright.Proofs.Digraph.Parallel

/-!
# A comment in the place of a blank

A block comment is taken out with nothing left in its place but its line feeds, and what
stands behind it is not the first on its line. So a text with a comment is read like the
text with a blank and those line feeds there (`parse_comment_iff`), but for two things: where
nothing else parts the tokens before and behind the comment, they become one, and a `#` that
only the comment keeps from being the first of its line begins no comment.
-/

namespace Pipewright.Digraph

/-! ## Texts that end outside -/

/-- Whatever follows the text, the reader of comments has it outside of comments and quotes;
`fresh` if only white space was on the last line of the text. -/
def LeavesOutside (u : List Char) (fresh : Bool) : Prop :=
  ∀ rest, stripComments (u ++ rest) = stripComments u ++ strip (.outside fresh) rest

/-- If what follows a text is read outside of quotes, what is left of the text ends outside. -/
theorem endsOutside_strip {mode : CommentMode} {u : List Char} {fresh : Bool}
    (h : ∀ rest, strip mode (u ++ rest) = strip mode u ++ strip (.outside fresh) rest) :
    Read.endsOutside (mode == .quoted) (strip mode u) := by
  fun_induction strip mode u with
  | case1 mode =>
      cases mode with
      | quoted => cases h ['/', '/']
      | _ => rfl
  | case2 fresh' rest ih => exact ih fun more => h more
  | case3 fresh' rest ih => exact ih fun more => h more
  | case4 rest ih => exact ih fun more => h more
  | case5 fresh' rest ih => exact ih fun more => (List.cons.inj (h more)).2
  | case6 fresh' c rest hline hblock hhash hquote ih =>
      change Read.endsOutside false (c :: _) = true
      rw [Read.endsOutside_cons hquote]
      cases rest with
      | nil => cases fresh' <;> rfl
      | cons d rest =>
          refine ih fun more => ?_
          have hmore := h more
          rw [List.cons_append, strip] at hmore
          · exact (List.cons.inj hmore).2
          · exact fun rest' hc heq => hline rest hc (by rw [(List.cons.inj heq).1])
          · exact fun rest' hc heq => hblock rest hc (by rw [(List.cons.inj heq).1])
          · exact hhash
          · exact hquote
  | case7 rest ih => exact ih fun more => (List.cons.inj (h more)).2
  | case8 c rest hc ih =>
      refine ih fun more => ?_
      have hmore := h more
      rwa [List.cons_append, strip] at hmore
      exact hc
  | case9 rest ih =>
      refine ih fun more => ?_
      have hmore := h more
      rwa [List.cons_append, strip] at hmore
  | case10 star rest ih =>
      change Read.endsOutside false ('\n' :: _) = true
      rw [Read.endsOutside_cons (by decide)]
      refine ih fun more => ?_
      have hmore := h more
      rw [List.cons_append, strip] at hmore
      exact (List.cons.inj hmore).2
  | case11 star c rest hslash hc ih =>
      refine ih fun more => ?_
      have hmore := h more
      rwa [List.cons_append, strip] at hmore
      · exact hslash
      · exact hc
  | case12 c rest ih => exact ih fun more => (List.cons.inj (List.cons.inj (h more)).2).2
  | case13 rest ih => exact ih fun more => (List.cons.inj (h more)).2
  | case14 c rest hbackslash hquote ih =>
      have hlone : c ≠ '\\' := by
        rintro rfl
        cases rest with
        | nil => cases h ['/', '/']
        | cons d rest => exact hbackslash d rest rfl rfl
      change Read.endsOutside true (c :: _) = true
      rw [Read.endsOutside_quoted hquote hlone]
      refine ih fun more => ?_
      have hmore := h more
      rw [List.cons_append, strip] at hmore
      · exact (List.cons.inj hmore).2
      · exact fun _ _ hc _ => hlone hc
      · exact hquote

theorem LeavesOutside.isClosed {u : List Char} {fresh : Bool} (h : LeavesOutside u fresh) :
    Read.IsClosed (stripComments u) :=
  endsOutside_strip h

/-! ## What stands behind the comment -/

/-- A `#` is the first character of the text apart from white space on its line. -/
def opensWithHash (v : List Char) : Bool :=
  (v.dropWhile fun c => c != '\n' && Text.isBlank c).head? == some '#'

/-- If no `#` stands there, it does not matter whether there was something else on the line. -/
theorem strip_fresh {v : List Char} (h : opensWithHash v = false) :
    strip (.outside true) v = strip (.outside false) v := by
  induction v with
  | nil => rfl
  | cons c v ih =>
      by_cases hplain : isPlain c
      · rw [strip_cons hplain, strip_cons hplain]
        by_cases hfeed : c = '\n'
        · subst hfeed
          rfl
        · by_cases hblank : Text.isBlank c
          · have hrest : opensWithHash v = false := by
              rwa [opensWithHash, List.dropWhile_cons, if_pos (by simp [hfeed, hblank])] at h
            have hnew : (c == '\n') = false := beq_false_of_ne hfeed
            rw [hnew, hblank, Bool.false_or, Bool.false_or, Bool.and_true, Bool.and_true, ih hrest]
          · rw [Bool.eq_false_iff.mpr hblank, Bool.and_false, Bool.and_false]
      · simp only [isPlain, Bool.and_eq_true, bne_iff_ne, ne_eq, not_and_or, not_not] at hplain
        rcases hplain with (rfl | rfl) | rfl
        · cases v with
          | nil => rfl
          | cons d v =>
              by_cases hd : d = '/' ∨ d = '*'
              · rcases hd with rfl | rfl <;> rfl
              · have hslash : Text.isBlank '/' = false := by decide
                have hkeep : ∀ fresh, strip (.outside fresh) ('/' :: d :: v)
                    = '/' :: strip (.outside ('/' == '\n' || fresh && Text.isBlank '/'))
                      (d :: v) := by
                  intro fresh
                  rw [strip]
                  · exact fun _ _ heq => hd (.inl (List.cons.inj heq).1)
                  · exact fun _ _ heq => hd (.inr (List.cons.inj heq).1)
                  · exact fun _ => by decide
                  · decide
                rw [hkeep, hkeep, hslash, Bool.and_false, Bool.and_false]
        · cases h
        · rfl

/-- A comment is taken out up to its end, with its line feeds left. -/
theorem strip_body {body : List Char} (h : ¬['*', '/'] <:+: body) (star : Bool)
    (hstar : star = true → body.head? ≠ some '/') (v : List Char) :
    strip (.block star) (body ++ '*' :: '/' :: v)
      = body.filter (· == '\n') ++ strip (.outside false) v := by
  induction body generalizing star with
  | nil => cases star <;> simp [strip]
  | cons c body ih =>
      have hrest : ¬['*', '/'] <:+: body :=
        fun hin => h (hin.trans (List.suffix_cons c body).isInfix)
      by_cases hfeed : c = '\n'
      · subst hfeed
        have hbody := ih hrest false (fun h => absurd h Bool.false_ne_true)
        rw [List.cons_append, strip, hbody, List.filter_cons_of_pos rfl]
        rfl
      · have hnext : (c == '*') = true → body.head? ≠ some '/' := by
          intro hc hslash
          obtain ⟨body', rfl⟩ := List.head?_eq_some_iff.mp hslash
          rw [beq_iff_eq.mp hc] at h
          exact h ⟨[], body', rfl⟩
        rw [List.cons_append, strip, ih hrest _ hnext,
          List.filter_cons_of_neg (by simpa using hfeed)]
        · rintro rfl rfl
          exact hstar rfl rfl
        · exact hfeed

/-- With line feeds in front of it a text begins its line if it did before, or if there are
some. -/
theorem strip_lineFeeds {l : List Char} (hl : ∀ c ∈ l, c = '\n') (fresh : Bool) (v : List Char) :
    strip (.outside fresh) (l ++ v) = l ++ strip (.outside (fresh || !l.isEmpty)) v := by
  induction l generalizing fresh with
  | nil => simp
  | cons c l ih =>
      rw [List.forall_mem_cons] at hl
      obtain ⟨rfl, hl⟩ := hl
      rw [List.cons_append, strip_cons (by decide), ih hl]
      simp

/-- A block comment is read like a blank with the line feeds of the comment: both texts are graph
files or neither is, and both give the same graph. Where the comment has no line feed, the tokens
around it must not join, and behind it no `#` may stand where only the comment is before it on its
line. -/
theorem parse_comment_iff {u body v : List Char} {fresh : Bool} (hu : LeavesOutside u fresh)
    (hbody : ¬['*', '/'] <:+: body)
    (hapart : '\n' ∈ body ∨ Read.Apart (stripComments u) (strip (.outside false) v))
    (hhash : fresh = true ∨ '\n' ∈ body → opensWithHash v = false) (g : Digraph) :
    parse (String.ofList (u ++ '/' :: '*' :: body ++ '*' :: '/' :: v)) = .ok g
      ↔ parse (String.ofList (u ++ ' ' :: body.filter (· == '\n') ++ v)) = .ok g := by
  have hfeeds : ∀ c ∈ body.filter (· == '\n'), c = '\n' := fun c hc => by
    simpa using (List.mem_filter.mp hc).2
  have hcomment : stripComments (u ++ '/' :: '*' :: body ++ '*' :: '/' :: v)
      = stripComments u ++ (body.filter (· == '\n') ++ strip (.outside false) v) := by
    rw [List.append_assoc, hu, List.cons_append, List.cons_append, strip,
      strip_body hbody false (fun h => absurd h Bool.false_ne_true)]
  have hbehind : strip (.outside (fresh || !(body.filter (· == '\n')).isEmpty)) v
      = strip (.outside false) v := by
    cases hfresh : fresh || !(body.filter (· == '\n')).isEmpty with
    | false => rfl
    | true =>
        refine strip_fresh (hhash ?_)
        simpa using hfresh
  have hblank : stripComments (u ++ ' ' :: body.filter (· == '\n') ++ v)
      = stripComments u ++ ' ' :: (body.filter (· == '\n') ++ strip (.outside false) v) := by
    have hspace : (' ' == '\n' || fresh && Text.isBlank ' ') = fresh := by
      cases fresh <;> decide
    rw [List.append_assoc, hu, List.cons_append, strip_cons (by decide), hspace,
      strip_lineFeeds hfeeds, hbehind]
  have hjoin : Read.Apart (stripComments u)
      (body.filter (· == '\n') ++ strip (.outside false) v) := by
    cases hfilter : body.filter (· == '\n') with
    | nil =>
        refine hapart.resolve_left fun hfeed => ?_
        rw [List.filter_eq_nil_iff] at hfilter
        exact hfilter '\n' hfeed rfl
    | cons c l =>
        obtain rfl : c = '\n' := hfeeds c (by simp [hfilter])
        exact Read.apart_of_isSpace rfl _ _
  rw [parse, parse, String.toList_ofList, String.toList_ofList, hcomment, hblank]
  exact parseStripped_blank hu.isClosed hjoin g

/-- A comment with a line feed stands between two nodes, with no blank around it. -/
theorem parse_comment_iff_lineFeed :
    LeavesOutside "digraph \x7b a".toList false ∧ ¬['*', '/'] <:+: "next\n".toList ∧
      opensWithHash "b \x7d".toList = false ∧
      (parse "digraph \x7b a/*next\n*/b \x7d" = .ok ⟨"", ∅, [⟨"a", ∅, 1⟩, ⟨"b", ∅, 2⟩], []⟩
        ↔ parse "digraph \x7b a \nb \x7d" = .ok ⟨"", ∅, [⟨"a", ∅, 1⟩, ⟨"b", ∅, 2⟩], []⟩) := by
  have hu : LeavesOutside "digraph \x7b a".toList false := fun _ => rfl
  have hbody : ¬['*', '/'] <:+: "next\n".toList := by decide
  have hhash : opensWithHash "b \x7d".toList = false := by decide
  have hiff := parse_comment_iff hu hbody (.inl (by decide)) (fun _ => hhash)
    ⟨"", ∅, [⟨"a", ∅, 1⟩, ⟨"b", ∅, 2⟩], []⟩
  exact ⟨hu, hbody, hhash, hiff⟩

/-- A comment alone does not part two names. -/
example : stripComments "a/**/b".toList = "ab".toList := by decide

end Pipewright.Digraph
