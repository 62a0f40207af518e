import Mathlib.Data.List.Forall2
import Mathlib.Data.List.Infix
import Mathlib.Data.List.Lex
import Pipewright.Digraph.Reader

/-!
# Places of statements

A statement of a tree stands at a place: its number in its block, after the
numbers of the blocks around it from the outside in. The order of the text is
the lexicographic order of the places, where a block comes before what is in it.

`Last` says what the last of some statements that set a key sets it to. It is
found from the statements of a block one by one (`Last.cons`, `Last.block`), and
where the statements are those in scope of a place there is one step for each
way on to that place: past a statement (`Last.past`) and into a block
(`Last.into`).
-/

namespace Pipewright.Digraph

def at? : List Statement → List Nat → Option Statement
  | _, [] => none
  | body, [i] => body[i]?
  | body, i :: j :: p =>
    match body[i]? with
    | some (.subgraph inner) => at? inner (j :: p)
    | _ => none

/-- The statement stands before the other one, in the same block or in one around it. -/
def InScope (q p : List Nat) : Prop := q < p ∧ q.dropLast <+: p.dropLast

/-- The places, in the order of the text, of the statements that are wanted. -/
structure Places (body : List Statement) (wanted : Statement → Bool) (ps : List (List Nat)) :
    Prop where
  ascending : ps.Pairwise (· < ·)
  mem_iff : ∀ p, p ∈ ps ↔ ∃ st, at? body p = some st ∧ wanted st

/-! ## Statements at their places -/

section At

variable {body rest inner : List Statement} {s st : Statement} {p : List Nat}

@[simp] theorem at?_nil_place (body : List Statement) : at? body [] = none := by
  cases body <;> rfl

theorem ne_nil_of_at? (h : at? body p = some st) : p ≠ [] := by
  rintro rfl
  rw [at?_nil_place] at h
  cases h

@[simp] theorem at?_nil (p : List Nat) : at? [] p = none := by
  match p with
  | [] => rfl
  | [_] => rfl
  | _ :: _ :: _ => rfl

@[simp] theorem at?_zero (s : Statement) (rest : List Statement) : at? (s :: rest) [0] = some s :=
  rfl

theorem at?_block (hp : p ≠ []) : at? (.subgraph inner :: rest) (0 :: p) = at? inner p := by
  obtain ⟨j, p, rfl⟩ := List.exists_cons_of_ne_nil hp
  rfl

theorem at?_leaf (hs : ∀ inner, s ≠ .subgraph inner) (hp : p ≠ []) :
    at? (s :: rest) (0 :: p) = none := by
  obtain ⟨j, p, rfl⟩ := List.exists_cons_of_ne_nil hp
  cases s with
  | subgraph inner => exact absurd rfl (hs inner)
  | _ => rfl

/-- The place in a list of statements that has one more in front. -/
def past : List Nat → List Nat
  | [] => []
  | i :: p => (i + 1) :: p

@[simp] theorem at?_past (s : Statement) (rest : List Statement) (p : List Nat) :
    at? (s :: rest) (past p) = at? rest p := by
  match p with
  | [] => simp [past]
  | [_] => rfl
  | _ :: _ :: _ => rfl

/-- A place in the list is one of the first statement or one of those after it. -/
theorem at?_cons_cases (h : at? (s :: rest) p = some st) :
    (∃ q, p = 0 :: q) ∨ ∃ q, p = past q ∧ at? rest q = some st := by
  match p with
  | [] => rw [at?_nil_place] at h; cases h
  | 0 :: q => exact .inl ⟨q, rfl⟩
  | (i + 1) :: q => exact .inr ⟨i :: q, rfl, by rwa [← at?_past s]⟩

theorem at?_first (s : Statement) (rest : List Statement) (q : List Nat) :
    at? (s :: rest) (0 :: q) = at? [s] (0 :: q) := by
  cases q <;> rfl

theorem zero_of_at? (h : at? [s] p = some st) : ∃ q, p = 0 :: q := by
  rcases at?_cons_cases h with ⟨q, rfl⟩ | ⟨q, rfl, hq⟩
  · exact ⟨q, rfl⟩
  · rw [at?_nil] at hq
    cases hq

/-- A block stands before what is in it, and has no other places. -/
theorem at?_block_cases (h : at? [.subgraph inner] p = some st) :
    (p = [0] ∧ st = .subgraph inner) ∨ ∃ q, p = 0 :: q ∧ at? inner q = some st := by
  obtain ⟨q, rfl⟩ := zero_of_at? h
  by_cases hq : q = []
  · subst hq
    exact .inl ⟨rfl, (Option.some.inj h).symm⟩
  · exact .inr ⟨q, rfl, by rwa [at?_block hq] at h⟩

theorem eq_zero_of_leaf (hs : ∀ inner, s ≠ .subgraph inner) (h : at? [s] p = some st) :
    p = [0] := by
  obtain ⟨q, rfl⟩ := zero_of_at? h
  by_cases hq : q = []
  · rw [hq]
  · rw [at?_leaf hs hq] at h
    cases h

end At

/-! ## The order of the text -/

theorem past_lt_past {q p : List Nat} (hq : q ≠ []) (hp : p ≠ []) : past q < past p ↔ q < p := by
  obtain ⟨i, q, rfl⟩ := List.exists_cons_of_ne_nil hq
  obtain ⟨j, p, rfl⟩ := List.exists_cons_of_ne_nil hp
  simp only [past, List.cons_lt_cons_iff, Nat.add_lt_add_iff_right, Nat.add_right_cancel_iff]

theorem zero_lt_past (q : List Nat) {p : List Nat} (hp : p ≠ []) : 0 :: q < past p := by
  obtain ⟨j, p, rfl⟩ := List.exists_cons_of_ne_nil hp
  exact List.cons_lt_cons_iff.mpr (.inl (Nat.succ_pos j))

theorem not_past_lt_zero {q : List Nat} (hq : q ≠ []) (p : List Nat) : ¬ past q < 0 :: p := by
  obtain ⟨i, q, rfl⟩ := List.exists_cons_of_ne_nil hq
  intro h
  rcases List.cons_lt_cons_iff.mp h with h | ⟨h, -⟩
  · exact Nat.not_lt_zero _ h
  · exact Nat.succ_ne_zero i h

theorem zero_lt_zero {q p : List Nat} : 0 :: q < 0 :: p ↔ q < p := by
  simp only [List.cons_lt_cons_iff, Nat.lt_irrefl, false_or, true_and]

/-! ## Places of the statements that are wanted -/

section Places

variable {wanted : Statement → Bool} {s : Statement} {rest inner : List Statement}
  {ps qs : List (List Nat)}

theorem Places.ne_nil (h : Places rest wanted ps) : ∀ p ∈ ps, p ≠ [] := by
  intro p hp
  obtain ⟨st, hat, -⟩ := (h.mem_iff p).mp hp
  exact ne_nil_of_at? hat

theorem places_nil : Places [] wanted [] where
  ascending := .nil
  mem_iff p := by simp

theorem Places.cons (hhead : Places [s] wanted ps) (hrest : Places rest wanted qs) :
    Places (s :: rest) wanted (ps ++ qs.map past) where
  ascending := by
    refine List.pairwise_append.mpr ⟨hhead.ascending, ?_, ?_⟩
    · refine List.pairwise_map.mpr (hrest.ascending.imp_of_mem ?_)
      intro q q' hq hq' hlt
      exact (past_lt_past (hrest.ne_nil q hq) (hrest.ne_nil q' hq')).mpr hlt
    · intro p hp q' hq'
      obtain ⟨q, hq, rfl⟩ := List.mem_map.mp hq'
      obtain ⟨st, hat, -⟩ := (hhead.mem_iff p).mp hp
      obtain ⟨p, rfl⟩ := zero_of_at? hat
      exact zero_lt_past p (hrest.ne_nil q hq)
  mem_iff p := by
    rw [List.mem_append, List.mem_map, hhead.mem_iff]
    constructor
    · rintro (⟨st, hat, hst⟩ | ⟨q, hq, rfl⟩)
      · obtain ⟨q, rfl⟩ := zero_of_at? hat
        exact ⟨st, by rwa [at?_first], hst⟩
      · rwa [at?_past, ← hrest.mem_iff]
    · rintro ⟨st, hat, hst⟩
      rcases at?_cons_cases hat with ⟨q, rfl⟩ | ⟨q, rfl, hq⟩
      · exact .inl ⟨st, by rwa [← at?_first], hst⟩
      · exact .inr ⟨q, (hrest.mem_iff q).mpr ⟨st, hq, hst⟩, rfl⟩

theorem places_leaf (hs : ∀ inner, s ≠ .subgraph inner) :
    Places [s] wanted (if wanted s then [[0]] else []) where
  ascending := by
    split
    · exact List.pairwise_singleton _ _
    · exact .nil
  mem_iff p := by
    constructor
    · intro hp
      split at hp
      · next hwanted => exact ⟨s, by rw [List.mem_singleton.mp hp]; rfl, hwanted⟩
      · exact absurd hp List.not_mem_nil
    · rintro ⟨st, hat, hst⟩
      obtain rfl := eq_zero_of_leaf hs hat
      rw [if_pos (by rwa [Option.some.inj hat])]
      exact List.mem_singleton_self _

theorem Places.block (hblock : wanted (.subgraph inner) = false) (h : Places inner wanted ps) :
    Places [.subgraph inner] wanted (ps.map (0 :: ·)) where
  ascending := List.pairwise_map.mpr (h.ascending.imp fun hlt => zero_lt_zero.mpr hlt)
  mem_iff p := by
    rw [List.mem_map]
    constructor
    · rintro ⟨q, hq, rfl⟩
      rw [at?_block (h.ne_nil q hq)]
      exact (h.mem_iff q).mp hq
    · rintro ⟨st, hat, hst⟩
      rcases at?_block_cases hat with ⟨rfl, rfl⟩ | ⟨q, rfl, hq⟩
      · rw [hblock] at hst
        cases hst
      · exact ⟨q, (h.mem_iff q).mpr ⟨st, hq, hst⟩, rfl⟩

end Places

/-! ## Scopes -/

theorem inScope_past {q p : List Nat} (hq : q ≠ []) (hp : p ≠ []) :
    InScope (past q) (past p) ↔ InScope q p := by
  refine and_congr (past_lt_past hq hp) ?_
  match q, p with
  | [i], [j] => rfl
  | [i], j :: j' :: p => exact iff_of_true (List.nil_prefix) (List.nil_prefix)
  | i :: i' :: q, [j] => simp [past]
  | i :: i' :: q, j :: j' :: p => simp [past]

/-- Of the first statement and what is in it, only the statement itself is in scope further on. -/
theorem inScope_zero_past (q : List Nat) {p : List Nat} (hp : p ≠ []) :
    InScope (0 :: q) (past p) ↔ q = [] := by
  constructor
  · rintro ⟨-, h⟩
    match q, p with
    | [], _ => rfl
    | _ :: _, [_] => simp [past] at h
    | _ :: _, _ :: _ :: _ => simp [past] at h
  · rintro rfl
    exact ⟨zero_lt_past [] hp, List.nil_prefix⟩

theorem inScope_into {q p : List Nat} (hq : q ≠ []) (hp : p ≠ []) :
    InScope (0 :: q) (0 :: p) ↔ InScope q p := by
  refine and_congr zero_lt_zero ?_
  rw [List.dropLast_cons_of_ne_nil hq, List.dropLast_cons_of_ne_nil hp, List.cons_prefix_cons]
  exact and_iff_right rfl

theorem not_inScope_past_zero {q : List Nat} (hq : q ≠ []) (p : List Nat) :
    ¬ InScope (past q) (0 :: p) := fun h => not_past_lt_zero hq p h.1

/-! ## The last statement that sets a key -/

/-- What the last of the statements at the places `here` that set the key sets it to, or nothing
if none of them does. -/
def Last (sets : Statement → String → Option AttrValue) (here : List Nat → Prop)
    (body : List Statement) (k : String) : Option AttrValue → Prop
  | some v => ∃ q st, here q ∧ at? body q = some st ∧ sets st k = some v ∧
      ∀ q' st', here q' → at? body q' = some st' → q < q' → sets st' k = none
  | none => ∀ q st, here q → at? body q = some st → sets st k = none

section Last

variable {sets : Statement → String → Option AttrValue} {here : List Nat → Prop}
  {body rest inner : List Statement} {s : Statement} {k : String} {o o' : Option AttrValue}

theorem Last.unique (h : Last sets here body k o) (h' : Last sets here body k o') : o = o' := by
  match o, o' with
  | none, none => rfl
  | none, some v =>
      obtain ⟨q, st, hq, hat, hv, -⟩ := h'
      rw [h q st hq hat] at hv
      cases hv
  | some v, none =>
      obtain ⟨q, st, hq, hat, hv, -⟩ := h
      rw [h' q st hq hat] at hv
      cases hv
  | some v, some v' =>
      obtain ⟨q, st, hq, hat, hv, hlast⟩ := h
      obtain ⟨q', st', hq', hat', hv', hlast'⟩ := h'
      rcases lt_trichotomy q q' with hlt | rfl | hlt
      · rw [hlast q' st' hq' hat' hlt] at hv'
        cases hv'
      · obtain rfl := Option.some.inj (hat.symm.trans hat')
        exact hv.symm.trans hv'
      · rw [hlast' q st hq hat hlt] at hv
        cases hv

theorem Last.congr {here' : List Nat → Prop} (h : Last sets here body k o)
    (hiff : ∀ q st, at? body q = some st → (here q ↔ here' q)) : Last sets here' body k o := by
  cases o with
  | none => exact fun q st hq hat => h q st ((hiff q st hat).mpr hq) hat
  | some v =>
      obtain ⟨q, st, hq, hat, hv, hlast⟩ := h
      refine ⟨q, st, (hiff q st hat).mp hq, hat, hv, fun q' st' hq' hat' => ?_⟩
      exact hlast q' st' ((hiff q' st' hat').mpr hq') hat'

theorem last_nil : Last sets here [] k none := by
  intro q st _ hat
  rw [at?_nil] at hat
  cases hat

/-- A setting further on counts, and if there is none the one of the first statement. -/
theorem Last.cons (hhead : Last sets here [s] k o)
    (hrest : Last sets (fun q => here (past q)) rest k o') :
    Last sets here (s :: rest) k (o'.or o) := by
  cases o' with
  | some v =>
      obtain ⟨q, st, hq, hat, hv, hlast⟩ := hrest
      refine ⟨past q, st, hq, by rwa [at?_past], hv, fun q' st' hq' hat' hlt => ?_⟩
      rcases at?_cons_cases hat' with ⟨p, rfl⟩ | ⟨p, rfl, hp⟩
      · exact absurd hlt (not_past_lt_zero (ne_nil_of_at? hat) p)
      · rw [past_lt_past (ne_nil_of_at? hat) (ne_nil_of_at? hp)] at hlt
        exact hlast p st' hq' hp hlt
  | none =>
      have hnone : ∀ q st, here q → at? (s :: rest) q = some st →
          (∀ p, q = 0 :: p → sets st k = none) → sets st k = none := by
        intro q st hq hat h
        rcases at?_cons_cases hat with ⟨p, rfl⟩ | ⟨p, rfl, hp⟩
        · exact h p rfl
        · exact hrest p st hq hp
      cases o with
      | none =>
          intro q st hq hat
          refine hnone q st hq hat ?_
          rintro p rfl
          exact hhead (0 :: p) st hq (by rwa [← at?_first])
      | some v =>
          obtain ⟨q, st, hq, hat, hv, hlast⟩ := hhead
          obtain ⟨p, rfl⟩ := zero_of_at? hat
          refine ⟨0 :: p, st, hq, by rwa [at?_first], hv, fun q' st' hq' hat' hlt => ?_⟩
          refine hnone q' st' hq' hat' ?_
          rintro p' rfl
          exact hlast (0 :: p') st' hq' (by rwa [← at?_first]) hlt

/-- What is set in a block is set by the statements in it. -/
theorem Last.block (hblock : sets (.subgraph inner) k = none)
    (h : Last sets (fun q => here (0 :: q)) inner k o) :
    Last sets here [.subgraph inner] k o := by
  cases o with
  | none =>
      intro q st hq hat
      rcases at?_block_cases hat with ⟨rfl, rfl⟩ | ⟨p, rfl, hp⟩
      · exact hblock
      · exact h p st hq hp
  | some v =>
      obtain ⟨q, st, hq, hat, hv, hlast⟩ := h
      refine ⟨0 :: q, st, hq, by rwa [at?_block (ne_nil_of_at? hat)], hv, ?_⟩
      intro q' st' hq' hat' hlt
      rcases at?_block_cases hat' with ⟨rfl, rfl⟩ | ⟨p, rfl, hp⟩
      · exact hblock
      · exact hlast p st' hq' hp (zero_lt_zero.mp hlt)

/-- Of a statement alone, only what it sets itself counts if nothing else in it does. -/
theorem last_single (hhere : here [0])
    (honly : ∀ q st, here q → at? [s] q = some st → q = [0]) : Last sets here [s] k (sets s k) := by
  cases hs : sets s k with
  | none =>
      intro q st hq hat
      obtain rfl := honly q st hq hat
      rw [← Option.some.inj hat]
      exact hs
  | some v =>
      refine ⟨[0], s, hhere, rfl, hs, fun q' st' hq' hat' hlt => ?_⟩
      obtain rfl := honly q' st' hq' hat'
      exact absurd hlt (List.lt_irrefl _)

theorem last_leaf (hs : ∀ inner, s ≠ .subgraph inner) (hhere : here [0]) :
    Last sets here [s] k (sets s k) :=
  last_single hhere fun _ _ _ hat => eq_zero_of_leaf hs hat

/-! ## Statements in scope -/

theorem last_first (hbody : body ≠ []) : Last sets (InScope · [0]) body k none := by
  obtain ⟨s, rest, rfl⟩ := List.exists_cons_of_ne_nil hbody
  rintro q st ⟨hlt, -⟩ hat
  rcases at?_cons_cases hat with ⟨p, rfl⟩ | ⟨p, rfl, hp⟩
  · exact absurd (zero_lt_zero.mp hlt) (List.not_lt_nil p)
  · exact absurd hlt (not_past_lt_zero (ne_nil_of_at? hp) [])

/-- Past a statement, what it sets is in scope as well, but not what is set in it. -/
theorem Last.past {p : List Nat} (hp : p ≠ []) (h : Last sets (InScope · p) rest k o) :
    Last sets (InScope · (past p)) (s :: rest) k (o.or (sets s k)) := by
  refine Last.cons ?_ ?_
  · refine last_single ((inScope_zero_past [] hp).mpr rfl) fun q st hq hat => ?_
    obtain ⟨p', rfl⟩ := zero_of_at? hat
    rw [(inScope_zero_past p' hp).mp hq]
  · exact h.congr fun q st hat => (inScope_past (ne_nil_of_at? hat) hp).symm

/-- What is in scope of a block is in scope in it. -/
theorem Last.into {p : List Nat} (hp : p ≠ []) (hblock : sets (.subgraph inner) k = none)
    (h : Last sets (InScope · p) inner k o) :
    Last sets (InScope · (0 :: p)) (.subgraph inner :: rest) k o := by
  have hinner : Last sets (InScope · (0 :: p)) [.subgraph inner] k o :=
    Last.block hblock (h.congr fun q st hat => (inScope_into (ne_nil_of_at? hat) hp).symm)
  have hafter : Last sets (fun q => InScope (Digraph.past q) (0 :: p)) rest k none :=
    fun q st hq hat => absurd hq (not_inScope_past_zero (ne_nil_of_at? hat) p)
  exact hinner.cons hafter

end Last

end Pipewright.Digraph
