/-!
# Finite maps with keys in order

Attributes of a graph, counts of a summary and the like are maps from texts,
and wherever one is shown its keys stand in ascending order. `Keyed α` is the
list of its entries with that order as part of the type, so two maps with the
same entries are the same value and no printing ever sorts.

Each operation is pinned down by what it does to `get?`.
-/

namespace Pipewright

/-- A finite map from texts, its entries ascending by key. -/
structure Keyed (α : Type) where
  entries : List (String × α)
  ascending : entries.Pairwise (fun a b => a.1 < b.1)

namespace Keyed

variable {α β : Type}

instance [DecidableEq α] : DecidableEq (Keyed α) := fun a b =>
  decidable_of_iff (a.entries = b.entries) (by cases a; cases b; simp)

instance [Repr α] : Repr (Keyed α) := ⟨fun m n => reprPrec m.entries n⟩

def empty : Keyed α := ⟨[], .nil⟩

instance : EmptyCollection (Keyed α) := ⟨empty⟩
instance : Inhabited (Keyed α) := ⟨empty⟩

def isEmpty (m : Keyed α) : Bool := m.entries.isEmpty

def get? (m : Keyed α) (k : String) : Option α := m.entries.lookup k

def keys (m : Keyed α) : List String := m.entries.map (·.1)

/-- The entries with `k` set to `v`: in its place if it is there, else where the
order wants it. -/
def insertEntry (k : String) (v : α) : List (String × α) → List (String × α)
  | [] => [(k, v)]
  | (k', v') :: rest =>
    if k < k' then (k, v) :: (k', v') :: rest
    else if k = k' then (k, v) :: rest
    else (k', v') :: insertEntry k v rest

theorem mem_insertEntry {k : String} {v : α} {l : List (String × α)} {e : String × α}
    (h : e ∈ insertEntry k v l) : e = (k, v) ∨ e ∈ l := by
  induction l with
  | nil => simpa [insertEntry] using h
  | cons a rest ih =>
    obtain ⟨k', v'⟩ := a
    simp only [insertEntry] at h
    split at h
    · simpa using h
    · split at h
      · rcases List.mem_cons.1 h with h | h
        · exact .inl h
        · exact .inr (List.mem_cons_of_mem _ h)
      · rcases List.mem_cons.1 h with h | h
        · exact .inr (by simp [h])
        · rcases ih h with h | h
          · exact .inl h
          · exact .inr (List.mem_cons_of_mem _ h)

theorem pairwise_insertEntry {k : String} {v : α} {l : List (String × α)}
    (h : l.Pairwise (fun a b => a.1 < b.1)) :
    (insertEntry k v l).Pairwise (fun a b => a.1 < b.1) := by
  induction l with
  | nil => simp [insertEntry]
  | cons a rest ih =>
    obtain ⟨k', v'⟩ := a
    obtain ⟨hhead, htail⟩ := List.pairwise_cons.1 h
    simp only [insertEntry]
    split
    · rename_i hlt
      refine List.pairwise_cons.2 ⟨fun e he => ?_, h⟩
      rcases List.mem_cons.1 he with he | he
      · simpa [he] using hlt
      · exact String.lt_trans hlt (hhead e he)
    · split
      · rename_i heq
        subst heq
        exact List.pairwise_cons.2 ⟨fun e he => hhead e he, htail⟩
      · rename_i hlt hne
        refine List.pairwise_cons.2 ⟨fun e he => ?_, ih htail⟩
        rcases mem_insertEntry he with he | he
        · subst he
          refine Decidable.byContradiction fun hge => hne ?_
          exact String.le_antisymm (String.not_lt.1 hge) (String.not_lt.1 hlt)
        · exact hhead e he

/-- The map with `k` set to `v`. -/
def insert (m : Keyed α) (k : String) (v : α) : Keyed α :=
  ⟨insertEntry k v m.entries, pairwise_insertEntry m.ascending⟩

def erase (m : Keyed α) (k : String) : Keyed α :=
  ⟨m.entries.filter (·.1 ≠ k), m.ascending.filter _⟩

/-- The first map with every entry of the second set in it. -/
def merge (m more : Keyed α) : Keyed α :=
  more.entries.foldl (fun acc e => acc.insert e.1 e.2) m

/-- The map that holds the pairs, of several with one key the last. -/
def ofList (l : List (String × α)) : Keyed α :=
  l.foldl (fun acc e => acc.insert e.1 e.2) ∅

/-- The map with every value replaced by its image. -/
def mapValues (f : α → β) (m : Keyed α) : Keyed β :=
  ⟨m.entries.map fun e => (e.1, f e.2),
    List.pairwise_map.2 (by simpa using m.ascending)⟩

/-! ## What the operations do to `get?` -/

@[simp] theorem get?_empty (k : String) : (∅ : Keyed α).get? k = none := rfl

theorem lookup_cons_if {κ : Type} [DecidableEq κ] [BEq κ] [LawfulBEq κ] (k k' : κ) (v : α)
    (l : List (κ × α)) :
    ((k, v) :: l).lookup k' = if k' = k then some v else l.lookup k' := by
  by_cases h : k' = k
  · simp [h]
  · have hb : (k' == k) = false := by simpa using h
    simp [List.lookup_cons, hb, h]

theorem lookup_insertEntry (k : String) (v : α) (l : List (String × α)) (k' : String) :
    (insertEntry k v l).lookup k' = if k' = k then some v else l.lookup k' := by
  induction l with
  | nil => exact lookup_cons_if k k' v []
  | cons e rest ih =>
    obtain ⟨k₀, v₀⟩ := e
    simp only [insertEntry]
    split
    · exact lookup_cons_if k k' v _
    · split
      · rename_i heq
        subst heq
        rw [lookup_cons_if, lookup_cons_if]
        split <;> rfl
      · rename_i hne
        rw [lookup_cons_if, lookup_cons_if, ih]
        by_cases h : k' = k₀
        · simp [h, Ne.symm hne]
        · simp [h]

/-- A value that was set is found, and no other key is touched. -/
theorem get?_insert (m : Keyed α) (k : String) (v : α) (k' : String) :
    (m.insert k v).get? k' = if k' = k then some v else m.get? k' :=
  lookup_insertEntry k v m.entries k'

/-- A value that is set anew stands in the place of the one before. -/
theorem insert_of_get? (m : Keyed α) {k : String} {v : α} (h : m.get? k = some v) (w : α) :
    ∃ front back, m.entries = front ++ (k, v) :: back ∧
      (m.insert k w).entries = front ++ (k, w) :: back := by
  obtain ⟨l, ascending⟩ := m
  change l.lookup k = some v at h
  change ∃ front back, l = front ++ (k, v) :: back ∧
    insertEntry k w l = front ++ (k, w) :: back
  induction l with
  | nil => cases h
  | cons e rest ih =>
    obtain ⟨k₀, v₀⟩ := e
    obtain ⟨hhead, htail⟩ := List.pairwise_cons.1 ascending
    rw [lookup_cons_if] at h
    by_cases heq : k = k₀
    · subst heq
      rw [if_pos rfl] at h
      refine ⟨[], rest, by rw [Option.some.inj h]; rfl, ?_⟩
      rw [insertEntry, if_neg (String.lt_irrefl k), if_pos rfl]
      rfl
    · rw [if_neg heq] at h
      obtain ⟨front, back, hrest, hinsert⟩ := ih htail h
      have hlt : k₀ < k := hhead (k, v) (by simp [hrest])
      have hnot : ¬k < k₀ := fun hgt => String.lt_irrefl k (String.lt_trans hgt hlt)
      refine ⟨(k₀, v₀) :: front, back, by rw [hrest]; rfl, ?_⟩
      rw [insertEntry, if_neg hnot, if_neg heq, hinsert]
      rfl

theorem lookup_filter_ne {κ : Type} [DecidableEq κ] [BEq κ] [LawfulBEq κ] (k : κ)
    (l : List (κ × α)) (k' : κ) :
    (l.filter (·.1 ≠ k)).lookup k' = if k' = k then none else l.lookup k' := by
  induction l with
  | nil => simp
  | cons e rest ih =>
    obtain ⟨k₀, v₀⟩ := e
    rw [List.filter_cons, lookup_cons_if]
    by_cases h₀ : k₀ = k
    · subst h₀
      rw [if_neg (by simp), ih]
      split <;> rfl
    · rw [if_pos (by simpa using h₀), lookup_cons_if, ih]
      by_cases h : k' = k₀
      · subst h
        simp [h₀]
      · simp [h]

/-- A key that was erased is not found, and no other key is touched. -/
theorem get?_erase (m : Keyed α) (k k' : String) :
    (m.erase k).get? k' = if k' = k then none else m.get? k' :=
  lookup_filter_ne k m.entries k'

/-- The image of a map has the images of its values. -/
theorem get?_mapValues (f : α → β) (m : Keyed α) (k : String) :
    (m.mapValues f).get? k = (m.get? k).map f := by
  obtain ⟨l, ascending⟩ := m
  change (l.map fun e => (e.1, f e.2)).lookup k = (l.lookup k).map f
  clear ascending
  induction l with
  | nil => rfl
  | cons e rest ih =>
    obtain ⟨k₀, v₀⟩ := e
    rw [List.map_cons, lookup_cons_if, lookup_cons_if, ih]
    split <;> rfl

end Keyed

end Pipewright

/-!
## Maps and their entries

A map is determined by its entries, and made again from them one by one: an
entry whose key lies above all others goes to the end.
-/

namespace Pipewright.Keyed

variable {α β : Type}

theorem insertEntry_of_forall_lt {k : String} {v : α} {l : List (String × α)}
    (h : ∀ e ∈ l, e.1 < k) : insertEntry k v l = l ++ [(k, v)] := by
  induction l with
  | nil => rfl
  | cons e rest ih =>
      obtain ⟨k', v'⟩ := e
      have hlt : k' < k := h (k', v') (List.mem_cons_self ..)
      have hne : k ≠ k' := fun heq => String.lt_irrefl k (heq ▸ hlt)
      rw [insertEntry, if_neg fun h => String.lt_irrefl _ (String.lt_trans h hlt), if_neg hne,
        ih fun e he => h e (List.mem_cons_of_mem _ he)]
      rfl

theorem ext {m n : Keyed α} (h : m.entries = n.entries) : m = n := by
  cases m; cases n; cases h; rfl

theorem lookup_eq_some_iff_mem {l : List (String × α)}
    (h : l.Pairwise (fun a b => a.1 < b.1)) {k : String} {v : α} :
    l.lookup k = some v ↔ (k, v) ∈ l := by
  induction l with
  | nil => simp
  | cons e rest ih =>
      obtain ⟨k₀, v₀⟩ := e
      obtain ⟨hhead, htail⟩ := List.pairwise_cons.mp h
      rw [lookup_cons_if, List.mem_cons]
      by_cases heq : k = k₀
      · subst heq
        have hnot : (k, v) ∉ rest := fun hmem => String.lt_irrefl k (hhead _ hmem)
        simp [hnot, eq_comm]
      · simp [heq, ih htail]

theorem get?_eq_some_iff {m : Keyed α} {k : String} {v : α} :
    m.get? k = some v ↔ (k, v) ∈ m.entries :=
  lookup_eq_some_iff_mem m.ascending

theorem nodup_keys (m : Keyed α) : (m.entries.map (·.1)).Nodup := by
  refine List.pairwise_map.mpr (m.ascending.imp ?_)
  intro a b hlt heq
  exact String.lt_irrefl b.1 (heq ▸ hlt)

theorem ext_get? {m n : Keyed α} (h : ∀ k, m.get? k = n.get? k) : m = n := by
  have hnodup : ∀ m : Keyed α, m.entries.Nodup := fun m =>
    List.Pairwise.of_map (·.1) (fun a b hne heq => hne (congrArg (·.1) heq)) m.nodup_keys
  have hperm : m.entries.Perm n.entries :=
    (List.perm_ext_iff_of_nodup (hnodup m) (hnodup n)).mpr fun ⟨k, v⟩ => by
      rw [← get?_eq_some_iff, ← get?_eq_some_iff, h]
  have hanti : ∀ a b : String × α, a ∈ m.entries → b ∈ n.entries → a.1 < b.1 → b.1 < a.1 → a = b :=
    fun a b _ _ hab hba => absurd (String.lt_trans hab hba) (String.lt_irrefl _)
  exact ext (hperm.eq_of_pairwise hanti m.ascending n.ascending)

/-- Entries in ascending order that lie above those of a map are added at its end. -/
theorem entries_foldl_insert {l : List (String × α)} {m : Keyed α}
    (hl : l.Pairwise (fun a b => a.1 < b.1)) (hm : ∀ e ∈ m.entries, ∀ d ∈ l, e.1 < d.1) :
    (l.foldl (fun acc e => acc.insert e.1 e.2) m).entries = m.entries ++ l := by
  induction l generalizing m with
  | nil => simp
  | cons e rest ih =>
      obtain ⟨hhead, htail⟩ := List.pairwise_cons.mp hl
      have hins : (m.insert e.1 e.2).entries = m.entries ++ [e] :=
        insertEntry_of_forall_lt fun d hd => hm d hd e (List.mem_cons_self ..)
      rw [List.foldl_cons, ih htail, hins, List.append_assoc]
      · rfl
      · intro d hd d' hd'
        rw [hins] at hd
        rcases List.mem_append.mp hd with hd | hd
        · exact hm d hd d' (List.mem_cons_of_mem _ hd')
        · rw [List.mem_singleton.mp hd]
          exact hhead d' hd'

/-- An entry after pairs were added was there before, or is one of them. -/
theorem mem_foldl_insert {l : List (String × α)} {m : Keyed α} {e : String × α}
    (h : e ∈ (l.foldl (fun acc e => acc.insert e.1 e.2) m).entries) : e ∈ m.entries ∨ e ∈ l := by
  induction l generalizing m with
  | nil => exact .inl h
  | cons a rest ih =>
      rcases ih h with hinsert | hrest
      · rcases mem_insertEntry hinsert with rfl | hm
        · exact .inr (List.mem_cons_self ..)
        · exact .inl hm
      · exact .inr (List.mem_cons_of_mem _ hrest)

/-- A map is what its entries make, one after the other. -/
theorem ofList_entries (m : Keyed α) : ofList m.entries = m :=
  ext (entries_foldl_insert (m := ∅) m.ascending fun _ he => absurd he List.not_mem_nil)

theorem empty_merge (m : Keyed α) : (∅ : Keyed α).merge m = m := ofList_entries m

@[simp] theorem merge_empty (m : Keyed α) : m.merge ∅ = m := rfl

/-! ### What is found after several pairs -/

/-- Of several pairs with one key the last counts, and only then what was there before. -/
theorem get?_foldl_insert (l : List (String × α)) (m : Keyed α) (k : String) :
    (l.foldl (fun acc e => acc.insert e.1 e.2) m).get? k = (l.reverse.lookup k).or (m.get? k) := by
  induction l generalizing m with
  | nil => rfl
  | cons e l ih =>
      rw [List.foldl_cons, ih, get?_insert, List.reverse_cons, List.lookup_append, Option.or_assoc]
      congr 1
      rw [lookup_cons_if]
      split <;> rfl

theorem get?_ofList (l : List (String × α)) (k : String) :
    (ofList l).get? k = l.reverse.lookup k := by
  rw [ofList, get?_foldl_insert, get?_empty, Option.or_none]

theorem get?_merge (m n : Keyed α) (k : String) :
    (m.merge n).get? k = (n.get? k).or (m.get? k) := by
  rw [merge, get?_foldl_insert, ← get?_ofList, ofList_entries]

end Pipewright.Keyed
