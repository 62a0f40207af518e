import Mathlib.Data.Fintype.Card
import Mathlib.Data.List.Nodup
import Mathlib.Data.Set.Finite.Basic
import Mathlib.Logic.Function.Iterate
import Mathlib.Logic.Relation
import Mathlib.Order.WellFounded
import Pipewright.Keyed
import Pipewright.Pipeline.Lint

/-!
# What the searches find

Both loops are exact. A search that wants nothing has visited, when it ends, the ids to which a
path leads (`Search.mem_visited_iff`), and one that wants some ids finds one just if a path leads
to one (`Search.found_iff`), although it then leaves the rest of the graph alone. What sorting
leaves are the ids to which a path leads from a cycle (`mem_left_iff`), and it has taken all ids
if there are none (`isDone_iff`).

Each loop has an invariant, `Searched` and `Sorted`, that a turn keeps. Paths are the reflexive
and transitive closure of a relation, and an id is on a cycle if the transitive closure relates it
to itself.
-/

namespace Pipewright.Reach

open Relation

/-- Among finitely many members of which none is on a cycle, one has no predecessor. -/
theorem exists_forall_mem_not_rel {α : Type} {r : α → α → Prop} {l : List α} (hne : l ≠ [])
    (hcycle : ∀ a ∈ l, ¬TransGen r a a) : ∃ a ∈ l, ∀ b ∈ l, ¬r b a := by
  let leads : { a // a ∈ l } → { a // a ∈ l } → Prop := fun a b => TransGen r a b
  have : Finite { a // a ∈ l } := l.finite_toSet.to_subtype
  have : IsTrans _ leads := ⟨fun _ _ _ hab hbc => TransGen.trans hab hbc⟩
  have : Std.Irrefl leads := ⟨fun a => hcycle a a.2⟩
  obtain ⟨b, hb⟩ := List.exists_mem_of_ne_nil l hne
  obtain ⟨⟨a, ha⟩, -, hmin⟩ :=
    (Finite.wellFounded_of_trans_of_irrefl leads).has_min Set.univ ⟨⟨b, hb⟩, trivial⟩
  exact ⟨a, ha, fun c hc hca => hmin ⟨c, hc⟩ trivial (.single hca)⟩

/-! ## Breadth first -/

def Succeeds (g : Graph) (a b : String) : Prop := b ∈ g.next a

/-- A path leads from an id to another one that is wanted. -/
def Finds (g : Graph) (wanted : String → Bool) (start : String) : Prop :=
  ∃ v, v ≠ start ∧ wanted v = true ∧ ReflTransGen (Succeeds g) start v

/-- Where a search stands that began at `start` and has found nothing: what follows on an id that
has been visited has been visited too, unless the id still waits. -/
structure Searched (g : Graph) (wanted : String → Bool) (start : String) (s : Search) : Prop where
  going : s.found = false
  start_mem : start ∈ s.visited
  reached : ∀ v ∈ s.visited, ReflTransGen (Succeeds g) start v
  waiting : ∀ v ∈ s.queue, v ∈ s.visited
  closed : ∀ a ∈ s.visited, a ∉ s.queue → ∀ b ∈ g.next a, b ∈ s.visited
  unwanted : ∀ v ∈ s.visited, v ≠ start → wanted v = false

section Search

variable {g : Graph} {wanted : String → Bool} {start v : String} {s : Search}

theorem searched_start (g : Graph) (wanted : String → Bool) (start : String) :
    Searched g wanted start (.start start) where
  going := rfl
  start_mem := List.mem_singleton_self start
  reached a ha := by rw [List.mem_singleton.mp ha]
  waiting _ ha := ha
  closed a ha hnew := absurd ha hnew
  unwanted a ha hne := absurd (List.mem_singleton.mp ha) hne

/-- None of the ids was new and wanted: those that were new have been visited and wait. -/
structure Passed (wanted : String → Bool) (l : List String) (s s' : Search) : Prop where
  going : s'.found = false
  unwanted : ∀ v ∈ l, v ∉ s.visited → wanted v = false
  mem_visited : ∀ v, v ∈ s'.visited ↔ v ∈ s.visited ∨ v ∈ l
  mem_queue : ∀ v, v ∈ s'.queue ↔ v ∈ s.queue ∨ v ∈ l ∧ v ∉ s.visited

theorem look_cases (l : List String) (hgoing : s.found = false) :
    ((s.look wanted l).found = true ∧ ∃ v ∈ l, v ∉ s.visited ∧ wanted v = true) ∨
      Passed wanted l s (s.look wanted l) := by
  induction l generalizing s with
  | nil => exact .inr ⟨hgoing, by simp, by simp [Search.look], by simp [Search.look]⟩
  | cons id rest ih =>
      rw [Search.look]
      split
      · next hseen =>
        have hid : id ∈ s.visited := List.contains_iff_mem.mp hseen
        rcases ih hgoing with ⟨hfound, v, hv, hnew, hwanted⟩ | hpassed
        · exact .inl ⟨hfound, v, List.mem_cons_of_mem _ hv, hnew, hwanted⟩
        · refine .inr ⟨hpassed.going, ?_, fun v => ?_, fun v => ?_⟩
          · exact List.forall_mem_cons.mpr ⟨fun hnew => absurd hid hnew, hpassed.unwanted⟩
          · rw [hpassed.mem_visited, List.mem_cons]
            exact ⟨Or.imp_right .inr, by rintro (h | rfl | h) <;> simp_all⟩
          · rw [hpassed.mem_queue, List.mem_cons]
            exact ⟨Or.imp_right (And.imp_left .inr), by rintro (h | ⟨rfl | h, hnew⟩) <;> simp_all⟩
      · next hunseen =>
        have hid : id ∉ s.visited := fun h => hunseen (List.contains_iff_mem.mpr h)
        split
        · next hwanted => exact .inl ⟨rfl, id, List.mem_cons_self .., hid, hwanted⟩
        · next hunwanted =>
          rcases ih (s := { s with visited := id :: s.visited, queue := s.queue ++ [id] })
            hgoing with
            ⟨hfound, v, hv, hnew, hwanted⟩ | hpassed
          · exact .inl ⟨hfound, v, List.mem_cons_of_mem _ hv, List.not_mem_of_not_mem_cons hnew,
              hwanted⟩
          · refine .inr ⟨hpassed.going, fun v hv hnew => ?_, fun v => ?_, fun v => ?_⟩
            · by_cases hne : v = id
              · exact hne ▸ Bool.eq_false_iff.mpr hunwanted
              · refine hpassed.unwanted v ((List.mem_cons.mp hv).resolve_left hne) ?_
                exact List.not_mem_cons_of_ne_of_not_mem hne hnew
            · rw [hpassed.mem_visited, List.mem_cons, List.mem_cons]
              tauto
            · rw [hpassed.mem_queue, List.mem_append, List.mem_singleton, List.mem_cons,
                List.mem_cons]
              by_cases hne : v = id
              · simp [hne, hid]
              · simp [hne]

/-- A turn keeps the search as it should be, or finds a wanted id to which a path leads. -/
theorem Searched.turn (h : Searched g wanted start s) :
    Searched g wanted start (s.turn g wanted) ∨
      ((s.turn g wanted).found = true ∧ Finds g wanted start) := by
  unfold Search.turn
  cases hqueue : s.queue with
  | nil => exact .inl h
  | cons id rest =>
      have hid : id ∈ s.visited := h.waiting id (hqueue ▸ List.mem_cons_self ..)
      have hpath : ∀ b ∈ g.next id, ReflTransGen (Succeeds g) start b := fun b hb =>
        (h.reached id hid).tail hb
      let popped : Search := { s with queue := rest }
      rcases look_cases (s := popped) (g.next id) h.going with
        ⟨hfound, v, hv, hnew, hwanted⟩ | hpassed
      · refine .inr ⟨hfound, v, ?_, hwanted, hpath v hv⟩
        rintro rfl
        exact hnew h.start_mem
      · refine .inl ⟨hpassed.going, ?_, fun v hv => ?_, fun v hv => ?_, fun a ha hdone b hb => ?_,
          fun v hv hne => ?_⟩
        · exact (hpassed.mem_visited _).mpr (.inl h.start_mem)
        · exact ((hpassed.mem_visited v).mp hv).elim (h.reached v) (hpath v)
        · refine (hpassed.mem_visited v).mpr
            (((hpassed.mem_queue v).mp hv).imp (fun hv => ?_) And.left)
          exact h.waiting v (hqueue ▸ List.mem_cons_of_mem _ hv)
        · rw [hpassed.mem_queue, not_or] at hdone
          have hold : a ∈ s.visited := by
            by_contra hnew
            exact hdone.2 ⟨((hpassed.mem_visited a).mp ha).resolve_left hnew, hnew⟩
          refine (hpassed.mem_visited b).mpr ?_
          by_cases heq : a = id
          · exact .inr (heq ▸ hb)
          · refine .inl (h.closed a hold ?_ b hb)
            rw [hqueue]
            exact List.not_mem_cons_of_ne_of_not_mem heq hdone.1
        · by_cases hold : v ∈ s.visited
          · exact h.unwanted v hold hne
          · exact hpassed.unwanted v (((hpassed.mem_visited v).mp hv).resolve_left hold) hold

/-- When a search ends it has found a wanted id to which a path leads, or none waits any more. -/
theorem Searched.run (h : Searched g wanted start s) :
    ((s.run g wanted).found = true ∧ Finds g wanted start) ∨
      (Searched g wanted start (s.run g wanted) ∧ (s.run g wanted).queue = []) := by
  fun_induction Search.run g wanted s with
  | case1 s hover =>
      refine .inr ⟨h, ?_⟩
      rw [Search.isOver, h.going, Bool.false_or] at hover
      exact List.isEmpty_iff.mp hover
  | case2 s hover ih =>
      rcases h.turn with hgoing | ⟨hfound, hfinds⟩
      · exact ih hgoing
      · have hover' : (s.turn g wanted).isOver := by rw [Search.isOver, hfound, Bool.true_or]
        rw [Search.run, if_pos hover']
        exact .inl ⟨hfound, hfinds⟩

/-- A search in which nothing waits has visited all that is reached. -/
theorem Searched.mem_iff (h : Searched g wanted start s) (hqueue : s.queue = []) :
    v ∈ s.visited ↔ ReflTransGen (Succeeds g) start v := by
  refine ⟨h.reached v, fun hpath => ?_⟩
  induction hpath with
  | refl => exact h.start_mem
  | tail _ hstep ih => exact h.closed _ ih (hqueue ▸ List.not_mem_nil) _ hstep

theorem Search.mem_visited_iff :
    v ∈ (Search.run g (fun _ => false) (.start start)).visited
      ↔ ReflTransGen (Succeeds g) start v := by
  rcases (searched_start g (fun _ => false) start).run with
    ⟨-, w, -, hwanted, -⟩ | ⟨hrun, hqueue⟩
  · cases hwanted
  · exact hrun.mem_iff hqueue

/-- A search finds a wanted id just if a path leads to one. -/
theorem Search.found_iff :
    (Search.run g wanted (.start start)).found = true ↔ Finds g wanted start := by
  rcases (searched_start g wanted start).run with
    ⟨hfound, hfinds⟩ | ⟨hrun, hqueue⟩
  · exact iff_of_true hfound hfinds
  · refine iff_of_false (by simp [hrun.going]) ?_
    rintro ⟨v, hne, hwanted, hpath⟩
    have hunwanted := hrun.unwanted v ((hrun.mem_iff hqueue).mpr hpath) hne
    simp [hwanted] at hunwanted

/-- A search ends, after at most as many turns as ids wait or may come to wait. -/
theorem Search.exists_turns (g : Graph) (wanted : String → Bool) (s : Search) :
    ∃ turns ≤ s.pending g, s.run g wanted = (Search.turn g wanted)^[turns] s ∧
      (s.run g wanted).isOver := by
  fun_induction Search.run g wanted s with
  | case1 s hover => exact ⟨0, Nat.zero_le _, rfl, hover⟩
  | case2 s hover ih =>
      obtain ⟨turns, hle, hrun, hended⟩ := ih
      exact ⟨turns + 1, Nat.lt_of_le_of_lt hle (Search.pending_turn_lt hover), hrun, hended⟩

/-- From one id on a search ends after at most one turn more than there are ends of edges. -/
theorem Search.exists_turns_start (g : Graph) (wanted : String → Bool) (id : String) :
    ∃ turns ≤ g.ends.length + 1,
      Search.run g wanted (.start id) = (Search.turn g wanted)^[turns] (.start id) ∧
      (Search.run g wanted (.start id)).isOver := by
  obtain ⟨turns, hle, hrun⟩ := Search.exists_turns g wanted (.start id)
  have hpending : (Search.start id).pending g ≤ g.ends.length + 1 := by
    rw [Search.pending, Nat.add_comm]
    exact Nat.add_le_add_right (List.length_filter_le ..) 1
  exact ⟨turns, hle.trans hpending, hrun⟩

end Search

/-! ## Counting edges -/

/-- An edge joins two ids if it is there and both are declared. -/
def Joins (ids : List String) (edges : List (String × String)) (a b : String) : Prop :=
  (a, b) ∈ edges ∧ a ∈ ids ∧ b ∈ ids

def joining (ids : List String) (edges : List (String × String)) : List (String × String) :=
  edges.filter fun e => e.1 ∈ ids ∧ e.2 ∈ ids

theorem mem_joining {ids : List String} {edges : List (String × String)} {a b : String} :
    (a, b) ∈ joining ids edges ↔ Joins ids edges a b := by
  simp [joining, Joins]

/-- The tally has counted these edges. -/
structure Counts (ids : List String) (edges : List (String × String)) (t : Tally) : Prop where
  entering : ∀ v, t.entering.get? v =
    if v ∈ ids then some ((joining ids edges).countP (·.2 = v)) else none
  next : ∀ v, (t.next.get? v).getD [] = ((joining ids edges).filter (·.1 = v)).map (·.2)

section Tally

variable {ids : List String} {edges : List (String × String)} {t : Tally} {e : String × String}

theorem Counts.add (h : Counts ids edges t) (e : String × String) :
    Counts ids (edges ++ [e]) (t.add e) := by
  obtain ⟨a, b⟩ := e
  have hjoining : joining ids (edges ++ [(a, b)])
      = joining ids edges ++ if a ∈ ids ∧ b ∈ ids then [(a, b)] else [] := by
    rw [joining, List.filter_append, List.filter_singleton]
    simp [joining]
  unfold Tally.add
  by_cases ha : a ∈ ids
  · by_cases hb : b ∈ ids
    · have hna : (t.entering.get? a).isNone = false := by rw [h.entering, if_pos ha]; rfl
      rw [if_pos ⟨ha, hb⟩] at hjoining
      simp only [hna, h.entering b, if_pos hb, Bool.false_eq_true, if_false]
      constructor
      · intro v
        rw [Keyed.get?_insert, hjoining, List.countP_append, h.entering]
        by_cases hv : v = b
        · simp [hv, hb]
        · simp [hv, Ne.symm hv]
      · intro v
        rw [Keyed.get?_insert, hjoining, List.filter_append, List.map_append, ← h.next]
        by_cases hv : v = a
        · simp [hv]
        · simp [hv, Ne.symm hv]
    · have hnb : t.entering.get? b = none := by rw [h.entering, if_neg hb]
      rw [if_neg fun hboth => hb hboth.2, List.append_nil] at hjoining
      rw [hnb, ite_self]
      exact ⟨hjoining ▸ h.entering, hjoining ▸ h.next⟩
  · have hna : (t.entering.get? a).isNone = true := by rw [h.entering, if_neg ha]; rfl
    rw [if_neg fun hboth => ha hboth.1, List.append_nil] at hjoining
    rw [if_pos hna]
    exact ⟨hjoining ▸ h.entering, hjoining ▸ h.next⟩

theorem counts_tally (ids : List String) (edges : List (String × String)) :
    Counts ids edges (tally ids edges) := by
  have hfold : ∀ (rest before : List (String × String)) (t : Tally), Counts ids before t →
      Counts ids (before ++ rest) (rest.foldl Tally.add t) := by
    intro rest
    induction rest with
    | nil => exact fun before t h => by rwa [List.append_nil]
    | cons e rest ih =>
        intro before t h
        rw [List.append_cons]
        exact ih _ _ (h.add e)
  refine hfold edges [] _ ⟨fun v => ?_, fun v => rfl⟩
  rw [Keyed.get?_ofList, ← List.map_reverse]
  have hlookup : ∀ l : List String,
      (l.map fun id => (id, 0)).lookup v = if v ∈ l then some 0 else none := by
    intro l
    induction l with
    | nil => rfl
    | cons id rest ih =>
        rw [List.map_cons, Keyed.lookup_cons_if, ih]
        by_cases hv : v = id <;> simp [hv]
  simpa [joining] using hlookup ids.reverse

end Tally

/-! ## Taking ids away -/

/-- The id is reached from a cycle. -/
def Trails (ids : List String) (edges : List (String × String)) (v : String) : Prop :=
  ∃ c, TransGen (Joins ids edges) c c ∧ ReflTransGen (Joins ids edges) c v

/-- The edges from ids that have not been taken. -/
def remaining (ids : List String) (edges : List (String × String)) (done : List String) :
    List (String × String) :=
  (joining ids edges).filter (·.1 ∉ done)

/-- Where sorting stands when some ids have been taken and, of the edges from the last one, those to
`rest` are still to be taken away: an id waits or has been taken just if no edge is left that leads
to it, and then no cycle leads to it. -/
structure Sorted (ids : List String) (edges : List (String × String)) (done rest : List String)
    (s : Sorting) : Prop where
  entering : ∀ v, s.entering.get? v =
    if v ∈ ids then some ((remaining ids edges done).countP (·.2 = v) + rest.count v) else none
  declared : ∀ v ∈ rest, v ∈ ids
  nodup : (done ++ s.queue).Nodup
  mem_iff : ∀ v, v ∈ done ++ s.queue ↔ s.entering.get? v = some 0
  apart : ∀ v ∈ done ++ s.queue, ¬Trails ids edges v
  taken : s.taken = done.length

section Sorting

variable {ids done rest queue : List String} {edges : List (String × String)} {s : Sorting}
  {id v : String} {next : Keyed (List String)}

theorem not_trails (h : ∀ a, Joins ids edges a v → ¬Trails ids edges a) : ¬Trails ids edges v := by
  rintro ⟨c, hcycle, hpath⟩
  obtain ⟨a, hca, hav⟩ := TransGen.tail'_iff.mp (hcycle.trans_left hpath)
  exact h a hav ⟨c, hcycle, hca⟩

theorem mem_done_of_joins (hzero : (remaining ids edges done).countP (·.2 = v) = 0) {a : String}
    (ha : Joins ids edges a v) : a ∈ done := by
  by_contra hnot
  have hmem : (a, v) ∈ remaining ids edges done :=
    List.mem_filter.mpr ⟨mem_joining.mpr ha, by simpa using hnot⟩
  exact List.countP_eq_zero.mp hzero _ hmem (by simp)

/-- Taking one more id leaves fewer edges, by those from it. -/
theorem countP_remaining (hid : id ∉ done) :
    (remaining ids edges done).countP (·.2 = v)
      = (remaining ids edges (done ++ [id])).countP (·.2 = v)
        + (((joining ids edges).filter (·.1 = id)).map (·.2)).count v := by
  rw [remaining, remaining]
  induction joining ids edges with
  | nil => rfl
  | cons e l ih =>
      obtain ⟨a, b⟩ := e
      by_cases ha : a = id
      · by_cases hb : b = v <;> simp_all
        omega
      · by_cases hdone : a ∈ done <;> by_cases hb : b = v <;> simp_all
        omega

theorem Sorted.pop (h : Sorted ids edges done [] s) (hqueue : s.queue = id :: queue) :
    Sorted ids edges (done ++ [id]) (((joining ids edges).filter (·.1 = id)).map (·.2))
      { s with queue, taken := s.taken + 1 } := by
  have hlist : done ++ s.queue = (done ++ [id]) ++ queue := by rw [hqueue, List.append_cons]
  have hnodup := h.nodup
  rw [hqueue] at hnodup
  have hid : id ∉ done := fun hmem =>
    (List.nodup_append.mp hnodup).2.2 id hmem id (List.mem_cons_self ..) rfl
  refine ⟨fun v => ?_, fun v hv => ?_, hlist ▸ h.nodup, hlist ▸ h.mem_iff, hlist ▸ h.apart, ?_⟩
  · rw [h.entering v, countP_remaining hid, List.count_nil, Nat.add_zero]
  · obtain ⟨e, he, rfl⟩ := List.mem_map.mp hv
    exact (mem_joining.mp (List.mem_filter.mp he).1).2.2
  · rw [List.length_append, h.taken]
    rfl

theorem Sorted.entered (h : Sorted ids edges done (id :: rest) s) : s.entering.get? id
    = some ((remaining ids edges done).countP (·.2 = id) + rest.count id + 1) := by
  rw [h.entering, if_pos (h.declared id (List.mem_cons_self ..)), List.count_cons_self,
    Nat.add_assoc]

/-- An edge from an id that has been taken is taken away. -/
theorem Sorted.free (h : Sorted ids edges done (id :: rest) s) :
    Sorted ids edges done rest (s.free id) := by
  have hentered := h.entered
  generalize hn : (remaining ids edges done).countP (·.2 = id) + rest.count id = n at hentered
  have hnew : id ∉ done ++ s.queue := fun hmem => by
    rw [h.mem_iff, hentered] at hmem
    cases hmem
  have hget : ∀ v, (s.entering.insert id n).get? v = if v ∈ ids then
      some ((remaining ids edges done).countP (·.2 = v) + rest.count v) else none := by
    intro v
    rw [Keyed.get?_insert]
    by_cases hv : v = id
    · rw [if_pos hv, hv, if_pos (h.declared id (List.mem_cons_self ..)), hn]
    · rw [if_neg hv, h.entering, List.count_cons_of_ne (Ne.symm hv)]
  have hother : ∀ v, v ≠ id → ((s.entering.insert id n).get? v = some 0 ↔ v ∈ done ++ s.queue) := by
    intro v hv
    rw [Keyed.get?_insert, if_neg hv, h.mem_iff]
  have hrest : ∀ v ∈ rest, v ∈ ids := fun v hv => h.declared v (List.mem_cons_of_mem _ hv)
  have hfree : s.free id = { s with
      entering := s.entering.insert id n
      queue := if n = 0 then s.queue ++ [id] else s.queue } := by
    rw [Sorting.free, hentered]
  rw [hfree]
  by_cases hzero : n = 0
  · rw [if_pos hzero]
    have hlist : done ++ (s.queue ++ [id]) = (done ++ s.queue) ++ [id] :=
      (List.append_assoc ..).symm
    refine ⟨hget, hrest, ?_, fun v => ?_, fun v hv => ?_, h.taken⟩
    · rw [hlist]
      exact List.concat_eq_append ▸ h.nodup.concat hnew
    · rw [hlist, List.mem_append, List.mem_singleton]
      by_cases hv : v = id
      · simp [hv, Keyed.get?_insert, hzero]
      · rw [hother v hv]
        simp [hv]
    · rw [hlist, List.mem_append, List.mem_singleton] at hv
      rcases hv with hv | rfl
      · exact h.apart v hv
      · have hnone : (remaining ids edges done).countP (·.2 = v) = 0 := by omega
        exact not_trails fun a ha =>
          h.apart a (List.mem_append_left _ (mem_done_of_joins hnone ha))
  · rw [if_neg hzero]
    refine ⟨hget, hrest, h.nodup, fun v => ?_, h.apart, h.taken⟩
    by_cases hv : v = id
    · subst hv
      exact iff_of_false hnew (by simp [Keyed.get?_insert, hzero])
    · exact (hother v hv).symm

theorem Sorted.foldl_free (h : Sorted ids edges done rest s) :
    Sorted ids edges done [] (rest.foldl Sorting.free s) := by
  induction rest generalizing s with
  | nil => exact h
  | cons id rest ih => exact ih h.free

section Turns

variable (hnext : ∀ v, (next.get? v).getD [] = ((joining ids edges).filter (·.1 = v)).map (·.2))
include hnext

theorem Sorted.turn (h : Sorted ids edges done [] s) :
    ∃ done', Sorted ids edges done' [] (s.turn next) := by
  unfold Sorting.turn
  cases hqueue : s.queue with
  | nil => exact ⟨done, h⟩
  | cons id queue =>
      refine ⟨done ++ [id], Sorted.foldl_free ?_⟩
      rw [hnext]
      exact h.pop hqueue

theorem Sorted.run (h : Sorted ids edges done [] s) :
    ∃ done', Sorted ids edges done' [] (s.run next) ∧ (s.run next).queue = [] := by
  fun_induction Sorting.run next s generalizing done with
  | case1 s hqueue => exact ⟨done, h, hqueue⟩
  | case2 s _ ih =>
      obtain ⟨done', hturn⟩ := h.turn hnext
      exact ih hturn

end Turns

/-- In whatever order the first ids wait, sorting begins as it should. -/
theorem sorted_start (hqueue : queue.Perm (tally ids edges).unentered) :
    Sorted ids edges [] [] ⟨(tally ids edges).entering, queue, 0⟩ := by
  have hcounts := counts_tally ids edges
  have hmem : ∀ v, v ∈ queue ↔ (tally ids edges).entering.get? v = some 0 := by
    intro v
    rw [hqueue.mem_iff, Keyed.get?_eq_some_iff, Tally.unentered, List.mem_map]
    constructor
    · rintro ⟨e, he, rfl⟩
      obtain ⟨he, hzero⟩ := List.mem_filter.mp he
      exact of_decide_eq_true hzero ▸ he
    · exact fun he => ⟨(v, 0), List.mem_filter.mpr ⟨he, rfl⟩, rfl⟩
  have hall : remaining ids edges [] = joining ids edges := by simp [remaining]
  refine ⟨fun v => ?_, nofun, ?_, hmem, fun v hv => ?_, rfl⟩
  · rw [hcounts.entering, hall, List.count_nil, Nat.add_zero]
  · refine hqueue.nodup_iff.mpr ?_
    exact ((tally ids edges).entering.nodup_keys.sublist (List.filter_sublist.map _))
  · have hzero := (hmem v).mp hv
    rw [hcounts.entering, ← hall] at hzero
    split at hzero
    · refine not_trails fun a ha => ?_
      exact absurd (mem_done_of_joins (Option.some.inj hzero) ha) List.not_mem_nil
    · cases hzero

/-! ## What is left -/

theorem mem_left {s : Sorting} : v ∈ s.left ↔ ∃ n, n ≠ 0 ∧ s.entering.get? v = some n := by
  simp only [Sorting.left, List.mem_map, List.mem_filter, decide_eq_true_iff, Prod.exists,
    Keyed.get?_eq_some_iff]
  constructor
  · rintro ⟨w, n, ⟨he, hn⟩, rfl⟩
    exact ⟨n, hn, he⟩
  · rintro ⟨n, hn, he⟩
    exact ⟨v, n, ⟨he, hn⟩, rfl⟩

/-- Where an edge leads to every id from one of them, every id is reached from a cycle. -/
theorem exists_cycle_of_forall_entered {α : Type} {r : α → α → Prop} {l : List α}
    (hentered : ∀ v ∈ l, ∃ a ∈ l, r a v) {v : α} (hv : v ∈ l) :
    ∃ c, TransGen r c c ∧ ReflTransGen r c v := by
  by_contra hnone
  classical
  obtain ⟨a, ha, hfirst⟩ := exists_forall_mem_not_rel (r := r)
    (l := l.filter (ReflTransGen r · v))
    (List.ne_nil_of_mem (List.mem_filter.mpr ⟨hv, decide_eq_true .refl⟩))
    (fun a ha hcycle => hnone ⟨a, hcycle, of_decide_eq_true (List.mem_filter.mp ha).2⟩)
  obtain ⟨hmem, hpath⟩ := List.mem_filter.mp ha
  obtain ⟨b, hb, hba⟩ := hentered a hmem
  have hbv : ReflTransGen r b v := (of_decide_eq_true hpath).head hba
  exact hfirst b (List.mem_filter.mpr ⟨hb, decide_eq_true hbv⟩) hba

/-- When nothing waits, what is left is what trails a cycle. -/
theorem Sorted.mem_left_iff (h : Sorted ids edges done [] s) (hqueue : s.queue = []) :
    v ∈ s.left ↔ Trails ids edges v := by
  have hdone : ∀ v, v ∈ done ↔ s.entering.get? v = some 0 := fun v => by
    rw [← h.mem_iff, hqueue, List.append_nil]
  have hleft : ∀ v, v ∈ s.left ↔ v ∈ ids ∧ v ∉ done := by
    intro v
    rw [mem_left, hdone, h.entering]
    by_cases hv : v ∈ ids <;> simp [hv]
  constructor
  · intro hv
    refine exists_cycle_of_forall_entered (fun w hw => ?_) hv
    obtain ⟨n, hn, hget⟩ := mem_left.mp hw
    rw [h.entering, if_pos ((hleft w).mp hw).1] at hget
    rw [← Option.some.inj hget, List.count_nil, Nat.add_zero, ← Nat.pos_iff_ne_zero,
      List.countP_pos_iff] at hn
    obtain ⟨⟨a, b⟩, hedge, hb⟩ := hn
    obtain rfl : b = w := of_decide_eq_true hb
    obtain ⟨hjoining, hnot⟩ := List.mem_filter.mp hedge
    have hjoins := mem_joining.mp hjoining
    exact ⟨a, (hleft a).mpr ⟨hjoins.2.1, by simpa using hnot⟩, hjoins⟩
  · intro htrails
    refine (hleft v).mpr ⟨?_, fun hv => h.apart v (List.mem_append_left _ hv) htrails⟩
    obtain ⟨c, hcycle, hpath⟩ := htrails
    obtain ⟨a, -, hav⟩ := TransGen.tail'_iff.mp (hcycle.trans_left hpath)
    exact hav.2.2

/-- When nothing waits, all ids have been taken just if none is left. -/
theorem Sorted.isDone_iff (h : Sorted ids edges done [] s) (hqueue : s.queue = []) :
    s.isDone = true ↔ s.left = [] := by
  have hzero : done.Perm ((s.entering.entries.filter (·.2 = 0)).map (·.1)) := by
    have hnodup := h.nodup
    rw [hqueue, List.append_nil] at hnodup
    refine (List.perm_ext_iff_of_nodup hnodup ?_).mpr fun v => ?_
    · exact s.entering.nodup_keys.sublist (List.filter_sublist.map _)
    · have hmem := h.mem_iff v
      rw [hqueue, List.append_nil] at hmem
      rw [hmem, Keyed.get?_eq_some_iff, List.mem_map]
      constructor
      · exact fun he => ⟨(v, 0), List.mem_filter.mpr ⟨he, rfl⟩, rfl⟩
      · rintro ⟨e, he, rfl⟩
        obtain ⟨he, hzero⟩ := List.mem_filter.mp he
        exact of_decide_eq_true hzero ▸ he
  have hsplit := List.length_eq_length_filter_add (l := s.entering.entries) (·.2 = 0)
  have hlength := hzero.length_eq
  rw [List.length_map] at hlength
  have hleft : s.left.length = (s.entering.entries.filter fun e => !decide (e.2 = 0)).length := by
    simp [Sorting.left]
  rw [Sorting.isDone, beq_iff_eq, h.taken, hlength, ← List.length_eq_zero_iff, hleft]
  omega

theorem nodup_left (s : Sorting) : s.left.Nodup :=
  s.entering.nodup_keys.sublist (List.filter_sublist.map _)

/-- Whatever the order in which the first ids wait, sorting leaves what trails a cycle, and it has
taken all ids just if there is no cycle. -/
theorem left_of_perm (hqueue : queue.Perm (tally ids edges).unentered) :
    let s := Sorting.run (tally ids edges).next ⟨(tally ids edges).entering, queue, 0⟩
    (∀ v, v ∈ s.left ↔ Trails ids edges v) ∧ (s.isDone = true ↔ s.left = []) := by
  obtain ⟨done, hsorted, hended⟩ := (sorted_start hqueue).run (counts_tally ids edges).next
  exact ⟨fun v => hsorted.mem_left_iff hended, hsorted.isDone_iff hended⟩

theorem mem_left_sort_iff : v ∈ (sort ids edges).left ↔ Trails ids edges v :=
  (left_of_perm (.refl _)).1 v

theorem isDone_sort_iff : (sort ids edges).isDone = true ↔ (sort ids edges).left = [] :=
  (left_of_perm (.refl _)).2

end Sorting

end Pipewright.Reach
