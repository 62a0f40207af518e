import Mathlib.Data.List.Chain
import Mathlib.Data.List.Nodup
import Mathlib.Data.List.Perm.Subperm
import Pipewright.Proofs.Identity.Conduct
import Pipewright.Proofs.Store.Moves

/-!
# Lineage of identities

An identity names its predecessor by an id, and the lineage follows these names
from file to file. Files can have been edited by hand, so the names may lead in
circles or nowhere. What the search does is determined by the chain of ids alone
(`Walk`): it ends where an id is met again, where no identity is found, or at an
identity without a predecessor, whichever is first. It is never cut off before,
since the ids it has seen are kept in different files, of which there are no
more than entries in the store (`View.walk`).

In a registry that is only changed by its own calls predecessors come before
their successors, so every lineage ends at an identity without one.
-/

namespace Pipewright.Registry

open Pipewright.Action

variable {r : Registry} {s t : Store} {h : Host} {f : String → Option Identity} {K : String → Prop}
  {seen ids others : List String} {id key : String} {answer : Except Error (List Identity)}

/-! ## Chains of ids -/

/-- Ids that begin with one, none of them twice, each one that follows being the predecessor of the
identity before it. -/
structure Chain (f : String → Option Identity) (id : String) (ids : List String) : Prop where
  head : ids.head? = some id
  nodup : ids.Nodup
  linked : ids.IsChain fun a b => ∃ i, f a = some i ∧ i.predecessor = some b

/-- The chain that begins with the id comes to one that shows no identity, before any id comes a
second time. -/
def BreaksAt (f : String → Option Identity) (id key : String) : Prop :=
  ∃ ids, Chain f id ids ∧ ids.getLast? = some key ∧ f key = none

/-- The identities shown under the ids are these, and the last one has no predecessor or names one
of the ids. -/
structure Ends (f : String → Option Identity) (ids : List String) (is : List Identity) : Prop where
  shown : ids.map f = is.map some
  last : ∀ i, is.getLast? = some i → ∀ p, i.predecessor = some p → p ∈ ids

/-- What comes of following predecessors from an id on, when some have been seen: the ids that are
looked up, and the answer. -/
inductive Walk (f : String → Option Identity) :
    List String → String → List String → Except Error (List Identity) → Prop
  | met {seen : List String} {id : String} (old : id ∈ seen) : Walk f seen id [] (.ok [])
  | missing {seen : List String} {id : String} (new : id ∉ seen) (none : f id = none) :
      Walk f seen id [id] (.error (.identityNotFound id))
  | first {seen : List String} {id : String} {i : Identity} (new : id ∉ seen) (some : f id = some i)
      (none : i.predecessor = none) : Walk f seen id [id] (.ok [i])
  | next {seen ids : List String} {id p : String} {i : Identity}
      {answer : Except Error (List Identity)}
      (new : id ∉ seen) (found : f id = some i) (predecessor : i.predecessor = some p)
      (rest : Walk f (id :: seen) p ids answer) :
      Walk f seen id (id :: ids) (answer.map (i :: ·))

namespace Walk

theorem not_mem (h : Walk f seen id ids answer) : ∀ a ∈ ids, a ∉ seen := by
  induction h with
  | met => simp
  | missing new => simpa using new
  | first new => simpa using new
  | next new _ _ _ ih =>
    intro a ha
    rcases List.mem_cons.mp ha with rfl | ha
    · exact new
    · exact fun hold => ih a ha (List.mem_cons_of_mem _ hold)

theorem nodup (h : Walk f seen id ids answer) : ids.Nodup := by
  induction h with
  | met => exact List.nodup_nil
  | missing => exact List.nodup_singleton _
  | first => exact List.nodup_singleton _
  | next _ _ _ rest ih =>
    exact List.nodup_cons.mpr ⟨fun hmem => rest.not_mem _ hmem (List.mem_cons_self ..), ih⟩

/-- They begin with the one that is looked for, if that is new. -/
theorem head? (h : Walk f seen id ids answer) (hnew : id ∉ seen) : ids.head? = some id := by
  cases h with
  | met old => exact absurd old hnew
  | missing | first | next => rfl

theorem linked (h : Walk f seen id ids answer) :
    ids.IsChain fun a b => ∃ i, f a = some i ∧ i.predecessor = some b := by
  induction h with
  | met => exact .nil
  | missing => exact .singleton _
  | first => exact .singleton _
  | @next seen ids id p i answer new found predecessor rest ih =>
    refine ih.cons fun b hb => ?_
    by_cases hp : p ∈ id :: seen
    · cases rest with
      | met => cases hb
      | missing new | first new | next new => exact absurd hp new
    · rw [rest.head? hp] at hb
      exact ⟨i, found, by rw [predecessor, hb]⟩

theorem chain (h : Walk f [] id ids answer) : Chain f id ids :=
  ⟨h.head? List.not_mem_nil, h.nodup, h.linked⟩

/-- The answer is an error where the last id shows nothing; and else it is what the ids show, and
the last identity has no predecessor or names an id that has been seen. -/
theorem answers (h : Walk f seen id ids answer) :
    (∃ key, answer = .error (.identityNotFound key) ∧ ids.getLast? = some key ∧ f key = none) ∨
    ∃ is, answer = .ok is ∧ ids.map f = is.map some ∧ (ids = [] → id ∈ seen) ∧
      ∀ i, is.getLast? = some i → ∀ p, i.predecessor = some p → p ∈ ids ∨ p ∈ seen := by
  induction h with
  | met old => exact .inr ⟨[], rfl, rfl, fun _ => old, by simp⟩
  | @missing seen id _ none => exact .inl ⟨id, rfl, rfl, none⟩
  | @first seen id i _ found none =>
    refine .inr ⟨[i], rfl, by simp [found], by simp, fun j hj p hp => ?_⟩
    obtain rfl : i = j := by simpa using hj
    rw [none] at hp
    cases hp
  | @next seen ids id p i answer _ found predecessor rest ih =>
    rcases ih with ⟨key, rfl, hlast, hnone⟩ | ⟨is, rfl, hshown, hempty, hend⟩
    · refine .inl ⟨key, rfl, ?_, hnone⟩
      rw [List.getLast?_cons, hlast, Option.getD_some]
    · refine .inr ⟨i :: is, rfl, by simp [found, hshown], by simp, fun j hj q hq => ?_⟩
      have hback : ∀ {q}, q ∈ ids ∨ q ∈ id :: seen → q ∈ id :: ids ∨ q ∈ seen := by
        simp only [List.mem_cons]
        tauto
      cases is with
      | nil =>
        -- Nothing was looked up after the identity, so its predecessor had been seen.
        obtain rfl : i = j := by simpa using hj
        obtain rfl := Option.some.inj (predecessor.symm.trans hq)
        exact hback (.inr (hempty (by simpa using hshown)))
      | cons k is => exact hback (hend j (by simpa using hj) q hq)

/-- Where a chain breaks, the walk goes along it to its end. -/
theorem answer_of_breaks (h : Walk f seen id ids answer) (hhead : others.head? = some id)
    (hnew : ∀ a ∈ others, a ∉ seen) (hnodup : others.Nodup)
    (hlinked : others.IsChain fun a b => ∃ i, f a = some i ∧ i.predecessor = some b)
    (hlast : others.getLast? = some key) (hnone : f key = none) :
    answer = .error (.identityNotFound key) := by
  induction h generalizing others with
  | met old => exact absurd old (hnew _ (List.mem_of_head? hhead))
  | @missing seen id _ none =>
    obtain ⟨rest, rfl⟩ := List.head?_eq_some_iff.mp hhead
    cases rest with
    | nil =>
      obtain rfl : id = key := Option.some.inj hlast
      rfl
    | cons b rest =>
      obtain ⟨i, hi, -⟩ := (List.isChain_cons_cons.mp hlinked).1
      rw [none] at hi
      cases hi
  | @first seen id i _ found none =>
    obtain ⟨rest, rfl⟩ := List.head?_eq_some_iff.mp hhead
    cases rest with
    | nil =>
      obtain rfl : id = key := Option.some.inj hlast
      rw [found] at hnone
      cases hnone
    | cons b rest =>
      obtain ⟨j, hj, hb⟩ := (List.isChain_cons_cons.mp hlinked).1
      obtain rfl := Option.some.inj (found.symm.trans hj)
      rw [none] at hb
      cases hb
  | @next seen ids id p i answer _ found predecessor _ ih =>
    obtain ⟨rest, rfl⟩ := List.head?_eq_some_iff.mp hhead
    cases rest with
    | nil =>
      obtain rfl : id = key := Option.some.inj hlast
      rw [found] at hnone
      cases hnone
    | cons b rest =>
      obtain ⟨⟨j, hj, hb⟩, hlinked⟩ := List.isChain_cons_cons.mp hlinked
      obtain rfl := Option.some.inj (found.symm.trans hj)
      obtain rfl := Option.some.inj (predecessor.symm.trans hb)
      obtain ⟨hfresh, hnodup⟩ := List.nodup_cons.mp hnodup
      rw [ih rfl (fun a ha => ?_) hnodup hlinked (by simpa using hlast)]
      · rfl
      · rw [List.mem_cons, not_or]
        exact ⟨fun heq => hfresh (heq ▸ ha), hnew a (List.mem_cons_of_mem _ ha)⟩

theorem answer_eq_error_iff (h : Walk f [] id ids answer) :
    answer = .error (.identityNotFound key) ↔ BreaksAt f id key := by
  constructor
  · intro hanswer
    rcases h.answers with ⟨key', heq, hlast, hnone⟩ | ⟨is, heq, -⟩
    · obtain rfl : key = key' := by simpa [hanswer] using heq
      exact ⟨ids, h.chain, hlast, hnone⟩
    · rw [hanswer] at heq
      cases heq
  · rintro ⟨others, hchain, hlast, hnone⟩
    exact h.answer_of_breaks hchain.head (by simp) hchain.nodup hchain.linked hlast hnone

/-- Where the chain breaks nowhere, the answer is all that it shows, to its end. -/
theorem answer_eq_ok (h : Walk f [] id ids answer) (hwhole : ∀ key, ¬BreaksAt f id key) :
    ∃ is, answer = .ok is ∧ Ends f ids is := by
  rcases h.answers with ⟨key, heq, -⟩ | ⟨is, heq, hshown, -, hend⟩
  · exact absurd (h.answer_eq_error_iff.mp heq) (hwhole key)
  · exact ⟨is, heq, hshown, fun i hi p hp => (hend i hi p hp).resolve_right List.not_mem_nil⟩

end Walk

/-! ## Looking up -/

theorem perform_lineage (r : Registry) (id : String) (h : Host) (s : Store) :
    (r.lineage id).perform h s = (r.lineageFrom (s.entries.length + 1) [] id).perform h s := by
  rw [lineage, perform_bind]
  rfl

/-- Looking up an id of a kind answers the identity that is shown under it, which is kept in a file
of its own, and the predecessor's id is again of the kind. -/
structure View (r : Registry) (h : Host) (s : Store) (K : String → Prop)
    (f : String → Option Identity) : Prop where
  isKey : ∀ {key}, K key → isFileKey key
  get : ∀ {key}, K key → (r.get key).perform h s =
    (match f key with
      | some i => .ok i
      | none => .error (.identityNotFound key), s)
  file : ∀ {key i}, K key → f key = some i →
    ∃ bytes modified, s.at? (s.place (recordFile r.dir key)) = some (.file bytes modified)
  closed : ∀ {key i p}, K key → f key = some i → i.predecessor = some p → K p

namespace View

/-- Ids that show identities are no more than there are entries in the store. -/
theorem length_le (hv : View r h s K f) (hnodup : seen.Nodup)
    (hseen : ∀ a ∈ seen, K a ∧ ∃ i, f a = some i) : seen.length ≤ s.entries.length := by
  have hplaces : (seen.map fun a => s.place (recordFile r.dir a)).Nodup := by
    refine List.Nodup.map_on (fun a ha b hb heq => ?_) hnodup
    exact (Store.place_recordFile_inj (hv.isKey (hseen a ha).1) (hv.isKey (hseen b hb).1)).mp heq
  have hsubset : (seen.map fun a => s.place (recordFile r.dir a)) ⊆ s.entries.map (·.1) := by
    intro place hplace
    obtain ⟨a, ha, rfl⟩ := List.mem_map.mp hplace
    obtain ⟨hkind, i, hi⟩ := hseen a ha
    obtain ⟨bytes, modified, hat⟩ := hv.file hkind hi
    exact List.mem_map_of_mem (Store.mem_entries_of_file hat)
  have hle := (List.subperm_of_subset hplaces hsubset).length_le
  rwa [List.length_map, List.length_map] at hle

theorem lineageFrom (hv : View r h s K f) (hid : K id) (hnodup : seen.Nodup)
    (hseen : ∀ a ∈ seen, K a ∧ ∃ i, f a = some i) {most : Nat}
    (hmost : s.entries.length < most + seen.length) :
    ∃ ids answer, Walk f seen id ids answer ∧
      (r.lineageFrom most seen id).perform h s = (answer, s) := by
  induction most generalizing seen id with
  | zero =>
    have hle := hv.length_le hnodup hseen
    omega
  | succ most ih =>
    rw [Registry.lineageFrom]
    by_cases hmet : id ∈ seen
    · rw [if_pos (List.contains_iff_mem.mpr hmet)]
      exact ⟨_, _, .met hmet, rfl⟩
    · rw [if_neg (mt List.contains_iff_mem.mp hmet), perform_bind, hv.get hid]
      cases hf : f id with
      | none => exact ⟨_, _, .missing hmet hf, rfl⟩
      | some i =>
        dsimp only
        cases hp : i.predecessor with
        | none => exact ⟨_, _, .first hmet hf hp, rfl⟩
        | some p =>
          have hmore : ∀ a ∈ id :: seen, K a ∧ ∃ i, f a = some i := by
            intro a ha
            rcases List.mem_cons.mp ha with rfl | ha
            · exact ⟨hid, i, hf⟩
            · exact hseen a ha
          obtain ⟨ids, answer, hwalk, hperform⟩ := ih (hv.closed hid hf hp)
            (List.nodup_cons.mpr ⟨hmet, hnodup⟩) hmore (by rw [List.length_cons]; omega)
          refine ⟨_, _, .next hmet hf hp hwalk, ?_⟩
          dsimp only
          rw [perform_bind, hperform]
          cases answer <;> rfl

/-- The lineage of an id is a walk from it, to its end. -/
theorem walk (hv : View r h s K f) (hid : K id) :
    ∃ ids answer, Walk f [] id ids answer ∧ (r.lineage id).perform h s = (answer, s) := by
  rw [perform_lineage]
  exact hv.lineageFrom hid List.nodup_nil (by simp) (by simp)

end View

/-! ## Files that can be read -/

/-- The key can be that of a file: it names one, and neither the name nor the path is too long. -/
def Admits (r : Registry) (key : String) : Prop :=
  isFileKey key ∧ Store.isLong (key ++ ".json") = false ∧ (recordFile r.dir key).utf8ByteSize < 4096

/-- The directory of the registry is there, and what looks like the file of an identity in it is
one, whose predecessor has an id that can be that of a file. -/
structure Legible (r : Registry) (s : Store) : Prop where
  dir : s.isDirectory r.dir
  reads : ∀ name, isRecordName name → s.at? (s.place r.dir ++ [name]) ≠ none →
    ∃ i, s.Holds Identity.ofDocument? (Path.join r.dir name) (some i) ∧
      ∀ p, i.predecessor = some p → r.Admits p

def look (r : Registry) (s : Store) (key : String) : Option Identity :=
  match s.at? (s.place (recordFile r.dir key)) with
  | some (.file bytes _) => Json.readRecordBytes Identity.ofDocument? bytes
  | _ => none

theorem get_of_holds {i : Identity} (hkey : isFileKey key)
    (hholds : s.Holds Identity.ofDocument? (recordFile r.dir key) (some i)) (h : Host) :
    (r.get key).perform h s = (.ok i, s) := by
  rw [get, perform_recordPath_bind, if_pos hkey, perform_bind, perform_readRecord? hholds]
  rfl

theorem get_of_missing (hdir : s.isDirectory r.dir) (hkey : r.Admits key)
    (hat : s.at? (s.place (recordFile r.dir key)) = none) (h : Host) :
    (r.get key).perform h s = (.error (.identityNotFound key), s) := by
  obtain ⟨hkey, hshort, hsize⟩ := hkey
  have hname := isName_of_isFileKey hkey
  have hnull : '\x00' ∉ (key ++ ".json").toList := by
    simp only [isFileKey, Bool.and_eq_true, Bool.not_eq_true', List.contains_eq_mem,
      decide_eq_false_iff_not] at hkey
    rw [String.toList_append, List.mem_append, not_or]
    exact ⟨hkey.1.2, by decide⟩
  obtain ⟨start, horigin, -⟩ := Store.locate_eq_ok.mp (Store.isDirectory_iff.mp hdir).1
  have hlocate := Store.locate_join hdir hname (Store.origin_join horigin hname hnull hsize) hshort
  have hbytes : s.readBytes (recordFile r.dir key) = .error .notFound := by
    rw [recordFile, Store.place_join _ _ hname] at hat
    rw [Store.readBytes, Store.find, recordFile, hlocate]
    simp only [bind, Except.bind, hat]
    rfl
  rw [get, perform_recordPath_bind, if_pos hkey, perform_bind, readRecord?, perform_bind,
    perform_readingIfThere, hbytes]
  rfl

theorem look_of_holds {i : Identity}
    (hholds : s.Holds Identity.ofDocument? (recordFile r.dir key) (some i)) :
    r.look s key = some i := by
  obtain ⟨bytes, ⟨modified, hfind⟩, hread⟩ := hholds
  rw [look, (Store.find_eq_file.mp hfind).2.1]
  exact hread

/-- A directory whose files can be read shows what is in them. -/
theorem Legible.view (hs : r.Legible s) (h : Host) : View r h s r.Admits (r.look s) := by
  have hholds : ∀ {key}, r.Admits key → s.at? (s.place (recordFile r.dir key)) ≠ none →
      ∃ i, s.Holds Identity.ofDocument? (recordFile r.dir key) (some i) ∧
        ∀ p, i.predecessor = some p → r.Admits p := by
    intro key hkey hat
    rw [recordFile, Store.place_join _ _ (isName_of_isFileKey hkey.1)] at hat
    exact hs.reads _ (isRecordName_append hkey.1) hat
  have hshown : ∀ {key i}, r.Admits key → r.look s key = some i →
      s.Holds Identity.ofDocument? (recordFile r.dir key) (some i) ∧
        ∀ p, i.predecessor = some p → r.Admits p := by
    intro key i hkey hi
    obtain ⟨j, hj, hclosed⟩ := hholds hkey (fun hat => by rw [look, hat] at hi; cases hi)
    obtain rfl := Option.some.inj (hi.symm.trans (look_of_holds hj))
    exact ⟨hj, hclosed⟩
  refine ⟨fun hkey => hkey.1, fun {key} hkey => ?_, fun hkey hi => ?_, fun hkey hi =>
    (hshown hkey hi).2 _⟩
  · by_cases hat : s.at? (s.place (recordFile r.dir key)) = none
    · have hlook : r.look s key = none := by rw [look, hat]
      rw [hlook]
      exact get_of_missing hs.dir hkey hat h
    · obtain ⟨i, hi, -⟩ := hholds hkey hat
      rw [look_of_holds hi]
      exact get_of_holds hkey.1 hi h
  · obtain ⟨bytes, ⟨modified, hfind⟩, -⟩ := (hshown hkey hi).1
    exact ⟨bytes, modified, (Store.find_eq_file.mp hfind).2.1⟩

/-! ## Registries that were only called -/

/-- Predecessors are there, and come before their successors in some order. -/
theorem Orderly.ranked {is : List Identity} (ho : Orderly is f) (hids : (is.map (·.id)).Nodup) :
    ∃ rank : String → Nat, ∀ a i b, f a = some i → i.predecessor = some b →
      (∃ j, f b = some j) ∧ rank b < rank a := by
  refine ⟨(is.map (·.id)).idxOf, fun a i b hi hb => ?_⟩
  obtain ⟨k, hk, rfl, hsame⟩ := ho.known a i hi
  obtain ⟨front, back, rfl⟩ := List.append_of_mem hk
  have hbefore : b ∈ front.map (·.id) := by
    refine ho.earlier front k back rfl b ?_
    rw [hsame] at hb
    exact hb
  obtain ⟨j, hj, rfl⟩ := List.mem_map.mp hbefore
  obtain ⟨j', hj', -⟩ := ho.shown j (List.mem_append_left _ hj)
  rw [List.map_append, List.nodup_append] at hids
  have hnew : k.id ∉ front.map (·.id) := fun hmem =>
    hids.2.2 _ hmem _ (List.mem_map_of_mem (List.mem_cons_self ..)) rfl
  refine ⟨⟨j', hj'⟩, ?_⟩
  dsimp only
  rw [List.map_append, List.idxOf_append_of_mem hbefore, List.idxOf_append_of_notMem hnew]
  exact Nat.lt_of_lt_of_le (List.idxOf_lt_length_of_mem hbefore) (by simp)

theorem Standing.view {is : List Identity} (hs : r.Standing s f) (ho : Orderly is f)
    (hids : (is.map (·.id)).Nodup) (h : Host) : View r h s (fun key => ∃ i, f key = some i) f where
  isKey := fun ⟨i, hi⟩ => hs.shows.isKey _ i hi
  get := by
    rintro key ⟨i, hi⟩
    have hholds := hs.shows.holds key (hs.shows.isKey key i hi)
    rw [hi] at hholds ⊢
    exact get_of_holds (hs.shows.isKey key i hi) hholds h
  file := by
    rintro key i - hi
    obtain ⟨bytes, modified, hfind⟩ := hs.shows.found hi
    exact ⟨bytes, modified, (Store.find_eq_file.mp hfind).2.1⟩
  closed := by
    rintro key i p - hi hp
    obtain ⟨rank, hrank⟩ := ho.ranked hids
    exact (hrank key i p hi hp).1

/-- Along a chain down an order the last id is the least. -/
theorem Chain.rank_le {rank : String → Nat} (hc : Chain f id ids)
    (hrank : ∀ a i b, f a = some i → i.predecessor = some b → rank b < rank a)
    (hlast : ids.getLast? = some key) : ∀ a ∈ ids, rank key ≤ rank a := by
  have hdown : ids.IsChain fun a b => rank b < rank a :=
    hc.linked.imp fun a b ⟨i, hi, hb⟩ => hrank a i b hi hb
  obtain ⟨front, rfl⟩ := List.getLast?_eq_some_iff.mp hlast
  intro a ha
  rcases List.mem_append.mp ha with hfront | hend
  · have : Trans (fun a b => rank b < rank a) (fun a b => rank b < rank a)
        (fun a b => rank b < rank a) := ⟨fun hab hbc => Nat.lt_trans hbc hab⟩
    exact Nat.le_of_lt ((List.pairwise_append.mp hdown.pairwise).2.2 a hfront key (by simp))
  · rw [List.mem_singleton.mp hend]

/-- Where predecessors come before their successors, an identity that is shown has a lineage, and
that ends at one without a predecessor. -/
theorem Standing.lineage {is : List Identity} {i : Identity} (hs : r.Standing s f)
    (ho : Orderly is f)
    (hids : (is.map (·.id)).Nodup) (hi : f id = some i) (h : Host) :
    ∃ ids js, (r.lineage id).perform h s = (.ok js, s) ∧ Chain f id ids ∧ ids.map f = js.map some ∧
      ∀ j, js.getLast? = some j → j.predecessor = none := by
  obtain ⟨rank, hrank⟩ := ho.ranked hids
  obtain ⟨ids, answer, hwalk, hperform⟩ := (hs.view ho hids h).walk ⟨i, hi⟩
  have hchain := hwalk.chain
  rcases hwalk.answers with ⟨key, rfl, hlast, hnone⟩ | ⟨js, rfl, hshown, -, hend⟩
  · obtain ⟨front, rfl⟩ := List.getLast?_eq_some_iff.mp hlast
    rcases List.eq_nil_or_concat front with rfl | ⟨front, a, rfl⟩
    · obtain rfl : key = id := by simpa using hchain.head
      rw [hi] at hnone
      cases hnone
    · obtain ⟨k, hk, hkey⟩ := (List.isChain_append.mp hchain.linked).2.2 a (by simp) key (by simp)
      obtain ⟨⟨j, hj⟩, -⟩ := hrank a k key hk hkey
      rw [hj] at hnone
      cases hnone
  · refine ⟨ids, js, hperform, hchain, hshown, fun j hj => ?_⟩
    obtain ⟨key, hlast, hkey⟩ : ∃ key, ids.getLast? = some key ∧ f key = some j := by
      have hmap := congrArg List.getLast? hshown
      rw [List.getLast?_map, List.getLast?_map, hj] at hmap
      exact Option.map_eq_some_iff.mp hmap
    cases hp : j.predecessor with
    | none => rfl
    | some p =>
      have hless := (hrank key j p hkey hp).2
      have hmem := (hend j hj p hp).resolve_right List.not_mem_nil
      have hleast := hchain.rank_le (fun a i b hi hb => (hrank a i b hi hb).2) hlast p hmem
      exact absurd hless (Nat.not_lt_of_le hleast)

/-! ## Lineages -/

/-- What the lineage of an id is, for every directory of identities that can be read, whatever
predecessors they name. No identity is found exactly where the chain of ids breaks, and the id that
is not found is the one at which it does. Everywhere else the answer is what stands under the ids of
a chain, and the last of these identities has no predecessor or names one of the ids. In a registry
that was only called from its beginning, and in which no id was made a second time, every identity
that was entered has a lineage, and every lineage ends at an identity without a predecessor. -/
theorem lineage_answers (hs : r.Legible s) (hid : r.Admits id) (h : Host) :
    (∀ key, (r.lineage id).perform h s = (.error (.identityNotFound key), s) ↔
      BreaksAt (r.look s) id key) ∧
    ((∀ key, ¬BreaksAt (r.look s) id key) → ∃ ids is, (r.lineage id).perform h s = (.ok is, s) ∧
      Chain (r.look s) id ids ∧ Ends (r.look s) ids is) ∧
    ∀ s₀ cs t, r.Standing s₀ (fun _ => none) → r.Run s₀ cs t →
      ((r.registered cs).map (·.id)).Nodup →
      (∀ i ∈ r.registered cs, ∃ is, (r.lineage i.id).perform h t = (.ok is, t)) ∧
      ∀ key is, (r.lineage key).perform h t = (.ok is, t) → ∃ f ids, r.Shows t f ∧ Chain f key ids ∧
        ids.map f = is.map some ∧ ∀ i, is.getLast? = some i → i.predecessor = none := by
  obtain ⟨ids, answer, hwalk, hperform⟩ := (hs.view h).walk hid
  refine ⟨fun key => ?_, fun hwhole => ?_, fun s₀ cs t hempty hrun hnodup => ?_⟩
  · rw [hperform, Prod.mk.injEq, and_iff_left rfl, hwalk.answer_eq_error_iff]
  · obtain ⟨is, rfl, hends⟩ := hwalk.answer_eq_ok hwhole
    exact ⟨ids, is, hperform, hwalk.chain, hends⟩
  · obtain ⟨f, hf, ho, -⟩ := hempty.run orderly_nil hrun hnodup
    rw [List.nil_append] at ho
    refine ⟨fun i hi => ?_, fun key is hanswer => ?_⟩
    · obtain ⟨j, hj, -⟩ := ho.shown i hi
      obtain ⟨-, js, hok, -⟩ := hf.lineage ho hnodup hj h
      exact ⟨js, hok⟩
    · rcases hf.perform_get key h with ⟨i, -, hi⟩ | ⟨err, hget⟩
      · obtain ⟨ids, js, hok, hchain, hshown, hend⟩ := hf.lineage ho hnodup hi h
        obtain rfl : js = is := Except.ok.inj (Prod.mk.inj (hok.symm.trans hanswer)).1
        exact ⟨f, ids, hf.shows, hchain, hshown, hend⟩
      · rw [perform_lineage, lineageFrom, if_neg (by simp), perform_bind, hget] at hanswer
        cases hanswer

/-- An identity like the first one, with a predecessor. -/
def heir (id predecessor : String) : Identity := { ada with id, predecessor := some predecessor }

/-- Identities edited by hand: one is its own predecessor, the other one names nobody who is there.
-/
def editedStore : Store where
  entries := [(["home", "ids"], .directory),
    (["home", "ids", "loop.json"], .file (heir "loop" "loop").toJson.fileText.toUTF8 default),
    (["home", "ids", "orphan.json"], .file (heir "orphan" "gone").toJson.fileText.toUTF8 default)]

theorem holds_editedStore :
    editedStore.Holds Identity.ofDocument? "ids/loop.json" (some (heir "loop" "loop")) ∧
    editedStore.Holds Identity.ofDocument? "ids/orphan.json" (some (heir "orphan" "gone")) := by
  have hread : ∀ i : Identity,
      Json.readRecordBytes Identity.ofDocument? i.toJson.fileText.toUTF8 = some i := fun i => by
    rw [Json.readRecordBytes_fileText (Identity.logged.exact i), Identity.logged.reread]
  exact ⟨⟨_, ⟨default, by rfl⟩, hread _⟩, ⟨_, ⟨default, by rfl⟩, hread _⟩⟩

theorem legible_editedStore : plainRegistry.Legible editedStore where
  dir := by decide
  reads := by
    intro name hname hat
    by_cases hloop : name = "loop.json"
    · subst hloop
      refine ⟨_, holds_editedStore.1, fun p hp => ?_⟩
      cases hp
      exact ⟨by decide, by decide, by decide⟩
    · by_cases horphan : name = "orphan.json"
      · subst horphan
        refine ⟨_, holds_editedStore.2, fun p hp => ?_⟩
        cases hp
        exact ⟨by decide, by decide, by decide⟩
      · refine absurd ?_ hat
        have hplace : editedStore.place plainRegistry.dir ++ [name] = ["home", "ids", name] := rfl
        rw [hplace]
        simp [Store.at?, editedStore, hloop, horphan]

theorem look_editedStore :
    plainRegistry.look editedStore "loop" = some (heir "loop" "loop") ∧
    plainRegistry.look editedStore "orphan" = some (heir "orphan" "gone") := by
  have hpaths : recordFile plainRegistry.dir "loop" = "ids/loop.json" ∧
      recordFile plainRegistry.dir "orphan" = "ids/orphan.json" := by decide +kernel
  obtain ⟨hloop, horphan⟩ := holds_editedStore
  rw [← hpaths.1] at hloop
  rw [← hpaths.2] at horphan
  exact ⟨look_of_holds hloop, look_of_holds horphan⟩

theorem chain_loop (hc : Chain (plainRegistry.look editedStore) "loop" ids) : ids = ["loop"] := by
  obtain ⟨rest, rfl⟩ := List.head?_eq_some_iff.mp hc.head
  cases rest with
  | nil => rfl
  | cons b rest =>
    obtain ⟨i, hi, hb⟩ := (List.isChain_cons_cons.mp hc.linked).1
    obtain rfl := Option.some.inj (look_editedStore.1.symm.trans hi)
    obtain rfl : "loop" = b := Option.some.inj hb
    exact absurd (List.mem_cons_self ..) (List.nodup_cons.mp hc.nodup).1

theorem lineage_answers_editedStore :
    plainRegistry.Legible editedStore ∧ plainRegistry.Admits "loop" ∧
      plainRegistry.Admits "orphan" ∧
    (plainRegistry.lineage "loop").perform .idle editedStore =
      (.ok [heir "loop" "loop"], editedStore) ∧
    (plainRegistry.lineage "orphan").perform .idle editedStore =
      (.error (.identityNotFound "gone"), editedStore) ∧
    ∃ is, (plainRegistry.lineage "worker-ada-00000000").perform .idle
      (reportTurn.after plainRegistry) = (.ok is, reportTurn.after plainRegistry) ∧
      ∀ i, is.getLast? = some i → i.predecessor = none := by
  have hloop : plainRegistry.Admits "loop" := ⟨by decide, by decide, by decide⟩
  have horphan : plainRegistry.Admits "orphan" := ⟨by decide, by decide, by decide⟩
  refine ⟨legible_editedStore, hloop, horphan, ?_, ?_, ?_⟩
  · have hwhole : ∀ key, ¬BreaksAt (plainRegistry.look editedStore) "loop" key := by
      rintro key ⟨ids, hchain, hlast, hnone⟩
      rw [chain_loop hchain] at hlast
      obtain rfl : "loop" = key := Option.some.inj hlast
      rw [look_editedStore.1] at hnone
      cases hnone
    obtain ⟨ids, is, hperform, hchain, hends⟩ :=
      (lineage_answers legible_editedStore hloop .idle).2.1 hwhole
    have hshown := hends.shown
    rw [chain_loop hchain, List.map_singleton, look_editedStore.1] at hshown
    obtain rfl : is = [heir "loop" "loop"] :=
      List.map_injective_iff.mpr (fun _ _ => Option.some.inj) hshown.symm
    exact hperform
  · refine ((lineage_answers legible_editedStore horphan .idle).1 "gone").mpr
      ⟨["orphan", "gone"], ⟨rfl, by decide, ?_⟩, rfl, by rfl⟩
    exact .cons_cons ⟨_, look_editedStore.2, rfl⟩ (.singleton _)
  · have hentered : plainRegistry.registered [reportTurn] = [ada] := by
      rw [registered_singleton, Turn.registered?, answer_reportTurn]
      rfl
    have hrun : plainRegistry.Run registryStore [reportTurn] (reportTurn.after plainRegistry) :=
      Run.start.call _ _
    obtain ⟨hthere, hends⟩ := (lineage_answers legible_editedStore hloop .idle).2.2 _ _ _
      standing_registryStore hrun (by rw [hentered]; simp)
    obtain ⟨is, hanswer⟩ := hthere ada (by rw [hentered]; exact List.mem_singleton_self ada)
    obtain ⟨-, -, -, -, -, hfirst⟩ := hends _ _ hanswer
    exact ⟨is, ada_id ▸ hanswer, hfirst⟩

end Pipewright.Registry
