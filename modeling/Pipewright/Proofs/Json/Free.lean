import Pipewright.Proofs.Json.Layout

/-!
# Free values

Values of unknown shape are read back, and what has been read once can be read again.
-/

/-!
## Free values read back

A value of which nothing is known in advance is held in memory with whole numbers
of 64 bits and with the fields of objects in ascending order (`isFree`). Such a
value comes back from a file as it was (`ofDocument?_document`), however it is
nested up to the limit of the reader: the fields of an object are added one by
one, and each of them goes behind the ones that are there already.

Values with real numbers are left out. What these are read back as is a matter
of how a numeral is rounded.
-/

namespace Pipewright.Json

open Document

/-! ### Values in memory -/

mutual

/-- The value is one that programs hold, and there is no real number in it. -/
def isFree : Json → Bool
  | integer i => -2 ^ 63 ≤ i && i < 2 ^ 64
  | real _ => false
  | list items => areFree items
  | object fields => decide ((fields.map (·.1)).Pairwise (· < ·)) && haveFree fields
  | _ => true

def areFree : List Json → Bool
  | [] => true
  | v :: rest => isFree v && areFree rest

def haveFree : List (String × Json) → Bool
  | [] => true
  | (_, v) :: rest => isFree v && haveFree rest

end

mutual

/-- How many lists and objects stand around the innermost value. -/
def nesting : Json → Nat
  | list items => nestingOfItems items + 1
  | object fields => nestingOfFields fields + 1
  | _ => 0

def nestingOfItems : List Json → Nat
  | [] => 0
  | v :: rest => max (nesting v) (nestingOfItems rest)

/-- The deepest nesting of the values of the fields. -/
def nestingOfFields : List (String × Json) → Nat
  | [] => 0
  | (_, v) :: rest => max (nesting v) (nestingOfFields rest)

end

mutual

theorem isExact_of_isFree (v : Json) (h : v.isFree) : v.isExact := by
  cases v with
  | real x => cases h
  | list items => exact areExact_of_areFree items h
  | object fields => exact haveExact_of_haveFree fields (Bool.and_eq_true_iff.mp h).2
  | _ => rfl

theorem areExact_of_areFree (items : List Json) (h : areFree items) : areExact items := by
  cases items with
  | nil => rfl
  | cons v items =>
    obtain ⟨hv, hitems⟩ := Bool.and_eq_true_iff.mp h
    exact Bool.and_eq_true_iff.mpr ⟨isExact_of_isFree v hv, areExact_of_areFree items hitems⟩

theorem haveExact_of_haveFree (fields : List (String × Json)) (h : haveFree fields) :
    haveExact fields := by
  cases fields with
  | nil => rfl
  | cons field fields =>
    obtain ⟨hv, hfields⟩ := Bool.and_eq_true_iff.mp h
    exact Bool.and_eq_true_iff.mpr
      ⟨isExact_of_isFree field.2 hv, haveExact_of_haveFree fields hfields⟩

end

/-! ### Reading -/

theorem value?_integer {i : Int} (h : (integer i).isFree) :
    Numeral.value? ⟨i < 0, Pipewright.Numeral.digits i.natAbs, none, none⟩ = some (integer i) := by
  obtain ⟨hlow, hhigh⟩ := Bool.and_eq_true_iff.mp h
  have hlow := of_decide_eq_true hlow
  have hhigh := of_decide_eq_true hhigh
  have hwhole : Numeral.whole? ⟨i < 0, Pipewright.Numeral.digits i.natAbs, none, none⟩
      = some i := by
    rw [Numeral.whole?, if_neg (by simp)]
    simp only [Pipewright.Numeral.value_digits, decide_eq_true_eq]
    by_cases hneg : i < 0
    · rw [if_pos hneg, if_pos (by omega), Option.some.injEq]
      omega
    · rw [if_neg hneg, if_pos (by omega), Option.some.injEq]
      omega
  rw [Numeral.value?, hwhole]

/-- A field with a greater name than all others is set behind them. -/
theorem setField_of_lt {key : String} {v : Json} {seen : List (String × Json)}
    (h : ∀ field ∈ seen, field.1 < key) : setField key v seen = seen ++ [(key, v)] := by
  induction seen with
  | nil => rfl
  | cons field seen ih =>
    have hlt := h field (List.mem_cons_self ..)
    have hne : key ≠ field.1 := by
      rintro rfl
      exact String.lt_irrefl _ hlt
    rw [setField, if_neg (String.lt_asymm hlt), if_neg hne,
      ih fun other hother => h other (List.mem_cons_of_mem _ hother)]
    rfl

mutual

/-- A value is read back, if it is not nested too deep for what is left of the limit. -/
theorem ofDocument?_document (v : Json) (h : v.isFree) {depth : Nat} (hdepth : v.nesting < depth) :
    ofDocument? depth v.document = some v := by
  cases v with
  | integer i => exact value?_integer h
  | real x => cases h
  | list items =>
    rw [nesting] at hdepth
    rw [document, ofDocument?, if_neg (by omega),
      ofItems?_documents items h (show _ < depth - 1 by omega)]
    rfl
  | object fields =>
    obtain ⟨hascending, hfields⟩ := Bool.and_eq_true_iff.mp h
    rw [nesting] at hdepth
    rw [document, ofDocument?, if_neg (by omega),
      ofFields?_fieldDocuments fields hfields (show _ < depth - 1 by omega) []
        (of_decide_eq_true hascending)]
    rfl
  | _ => rfl

theorem ofItems?_documents (items : List Json) (h : areFree items) {depth : Nat}
    (hdepth : nestingOfItems items < depth) : ofItems? depth (documents items) = some items := by
  cases items with
  | nil => rfl
  | cons v items =>
    obtain ⟨hv, hitems⟩ := Bool.and_eq_true_iff.mp h
    rw [nestingOfItems, Nat.max_lt] at hdepth
    rw [documents, ofItems?, ofDocument?_document v hv hdepth.1,
      ofItems?_documents items hitems hdepth.2]
    rfl

theorem ofFields?_fieldDocuments (fields : List (String × Json)) (h : haveFree fields) {depth : Nat}
    (hdepth : nestingOfFields fields < depth) (seen : List (String × Json))
    (hascending : ((seen ++ fields).map (·.1)).Pairwise (· < ·)) :
    ofFields? depth seen (fieldDocuments fields) = some (seen ++ fields) := by
  cases fields with
  | nil => rw [fieldDocuments, ofFields?, List.append_nil]
  | cons field fields =>
    obtain ⟨hv, hfields⟩ := Bool.and_eq_true_iff.mp h
    rw [nestingOfFields, Nat.max_lt] at hdepth
    have hlast : ∀ other ∈ seen, other.1 < field.1 := by
      intro other hother
      rw [List.map_append, List.pairwise_append] at hascending
      exact hascending.2.2 _ (List.mem_map_of_mem hother) _ (List.mem_cons_self ..)
    have hsplit : seen ++ field :: fields = (seen ++ [field]) ++ fields := by simp
    rw [hsplit] at hascending ⊢
    rw [fieldDocuments, ofFields?, ofDocument?_document field.2 hv hdepth.1]
    dsimp only [Option.bind_eq_bind, Option.bind_some]
    rw [setField_of_lt hlast, ofFields?_fieldDocuments fields hfields hdepth.2 _ hascending]

end

theorem asFree_document {v : Json} (h : v.isFree) (hnesting : v.nesting ≤ 126) :
    asFree v.document = some v :=
  ofDocument?_document v h (Nat.lt_succ_of_le hnesting)

/-- A value is read back from a text of its own. -/
theorem parse_compact {v : Json} (h : v.isFree) (hnesting : v.nesting ≤ 127) :
    Json.parse v.compact = some v := by
  rw [Json.parse, Document.parse, compact, String.toList_ofList,
    parseChars_compactChars (isExact_of_isFree v h)]
  exact ofDocument?_document v h (Nat.lt_succ_of_le hnesting)

end Pipewright.Json

/-!
## What is read can be read again

A value that has been read as a free one is written as a text that is read again
wherever there is room for its nesting (`isSome_ofDocument?`), the real numbers in
it included, though these may be others then. What limits it is its nesting alone:
the whole of a text may be nested 127 deep, and a field of a record only 126.
-/

namespace Pipewright.Json

open Document

/-! ### Values that have been read -/

mutual

/-- The numbers in the value are those that programs hold. -/
def IsHeld : Json → Prop
  | integer i => -2 ^ 63 ≤ i ∧ i < 2 ^ 64
  | real x => ∃ negative m, x = .finite negative m ∧ m.IsCanonical
  | list items => AreHeld items
  | object fields => HaveHeld fields
  | _ => True

def AreHeld : List Json → Prop
  | [] => True
  | v :: rest => IsHeld v ∧ AreHeld rest

def HaveHeld : List (String × Json) → Prop
  | [] => True
  | (_, v) :: rest => IsHeld v ∧ HaveHeld rest

end

mutual

theorem isFinite_of_isHeld (v : Json) (h : v.IsHeld) : v.isFinite := by
  cases v with
  | real x =>
    obtain ⟨negative, m, rfl, -⟩ := h
    rfl
  | list items => exact areFinite_of_areHeld items h
  | object fields => exact haveFinite_of_haveHeld fields h
  | _ => rfl

theorem areFinite_of_areHeld (items : List Json) (h : AreHeld items) : areFinite items := by
  cases items with
  | nil => rfl
  | cons v items =>
    exact Bool.and_eq_true_iff.mpr ⟨isFinite_of_isHeld v h.1, areFinite_of_areHeld items h.2⟩

theorem haveFinite_of_haveHeld (fields : List (String × Json)) (h : HaveHeld fields) :
    haveFinite fields := by
  cases fields with
  | nil => rfl
  | cons field fields =>
    exact Bool.and_eq_true_iff.mpr
      ⟨isFinite_of_isHeld field.2 h.1, haveFinite_of_haveHeld fields h.2⟩

end

/-! ### Reading again -/

mutual

/-- A value is read again exactly where there is room for its nesting. -/
theorem isSome_ofDocument? (v : Json) (h : v.IsHeld) {depth : Nat} (hdepth : 0 < depth) :
    (ofDocument? depth v.document).isSome ↔ v.nesting < depth := by
  cases v with
  | integer i =>
    have hfree : (integer i).isFree :=
      Bool.and_eq_true_iff.mpr ⟨decide_eq_true h.1, decide_eq_true h.2⟩
    rw [document, ofDocument?, value?_integer hfree]
    exact iff_of_true rfl hdepth
  | real x =>
    obtain ⟨negative, m, rfl, hm⟩ := h
    obtain ⟨v, hv⟩ := exists_ofDocument?_real negative hm depth
    rw [document, hv]
    exact iff_of_true rfl hdepth
  | list items =>
    rw [document, ofDocument?, nesting]
    split
    · next hshallow => exact iff_of_false (by simp) (by omega)
    · next hroom =>
      rw [Option.isSome_map, isSome_ofItems? items h (show 0 < depth - 1 by omega)]
      omega
  | object fields =>
    rw [document, ofDocument?, nesting]
    split
    · next hshallow => exact iff_of_false (by simp) (by omega)
    · next hroom =>
      rw [Option.isSome_map, isSome_ofFields? fields h (show 0 < depth - 1 by omega)]
      omega
  | _ => exact iff_of_true rfl hdepth

theorem isSome_ofItems? (items : List Json) (h : AreHeld items) {depth : Nat} (hdepth : 0 < depth) :
    (ofItems? depth (documents items)).isSome ↔ nestingOfItems items < depth := by
  cases items with
  | nil => exact iff_of_true rfl hdepth
  | cons v items =>
    have hfirst := isSome_ofDocument? v h.1 hdepth
    have hrest := isSome_ofItems? items h.2 hdepth
    rw [documents, ofItems?, nestingOfItems, Nat.max_lt, ← hfirst, ← hrest]
    cases ofDocument? depth v.document <;> cases ofItems? depth (documents items) <;> simp

theorem isSome_ofFields? (fields : List (String × Json)) (h : HaveHeld fields) {depth : Nat}
    (hdepth : 0 < depth) (seen : List (String × Json)) :
    (ofFields? depth seen (fieldDocuments fields)).isSome ↔ nestingOfFields fields < depth := by
  cases fields with
  | nil => exact iff_of_true (by rw [fieldDocuments, ofFields?]; rfl) hdepth
  | cons field fields =>
    have hfirst := isSome_ofDocument? field.2 h.1 hdepth
    rw [fieldDocuments, ofFields?, nestingOfFields, Nat.max_lt, ← hfirst]
    cases ofDocument? depth field.2.document with
    | none => simp
    | some v => simpa using isSome_ofFields? fields h.2 hdepth _

end

/-! ### Reading -/

theorem isHeld_of_value? {n : Numeral} {v : Json} (h : n.value? = some v) :
    v.IsHeld ∧ v.nesting = 0 := by
  rw [Numeral.value?] at h
  cases hwhole : n.whole? with
  | some i =>
    rw [hwhole] at h
    obtain rfl := Option.some.inj h
    rw [Numeral.whole?] at hwhole
    refine ⟨?_, rfl⟩
    split at hwhole
    · cases hwhole
    dsimp only at hwhole
    split at hwhole <;> split at hwhole
    · next hrange =>
      obtain rfl := Option.some.inj hwhole
      exact ⟨by omega, by omega⟩
    · cases hwhole
    · next hrange =>
      obtain rfl := Option.some.inj hwhole
      exact ⟨by omega, by omega⟩
    · cases hwhole
  | none =>
    rw [hwhole] at h
    obtain ⟨x, hx, rfl⟩ := Option.map_eq_some_iff.mp h
    obtain ⟨m, rfl, hm⟩ := Numeral.isCanonical_of_real? hx
    exact ⟨⟨_, m, rfl, hm⟩, rfl⟩

/-- A field that is set keeps what holds of all of them. -/
theorem held_setField {k : String} {v : Json} (hv : v.IsHeld) {depth : Nat}
    (hdepth : v.nesting < depth)
    {seen : List (String × Json)} (hseen : HaveHeld seen ∧ nestingOfFields seen < depth) :
    HaveHeld (setField k v seen) ∧ nestingOfFields (setField k v seen) < depth := by
  fun_induction setField k v seen with
  | case1 => exact ⟨⟨hv, trivial⟩, Nat.max_lt.mpr ⟨hdepth, hseen.2⟩⟩
  | case2 => exact ⟨⟨hv, hseen.1⟩, Nat.max_lt.mpr ⟨hdepth, hseen.2⟩⟩
  | case3 => exact ⟨⟨hv, hseen.1.2⟩, Nat.max_lt.mpr ⟨hdepth, (Nat.max_lt.mp hseen.2).2⟩⟩
  | case4 k' v' rest _ _ ih =>
    obtain ⟨hfirst, hrest⟩ := Nat.max_lt.mp hseen.2
    obtain ⟨hheld, hnesting⟩ := ih ⟨hseen.1.2, hrest⟩
    exact ⟨⟨hseen.1.1, hheld⟩, Nat.max_lt.mpr ⟨hfirst, hnesting⟩⟩

mutual

/-- What has been read is nested no deeper than there was room for. -/
theorem held_of_ofDocument? (d : Document) {depth : Nat} (hdepth : 0 < depth) {v : Json}
    (h : ofDocument? depth d = some v) : v.IsHeld ∧ v.nesting < depth := by
  cases d with
  | null => exact Option.some.inj h ▸ ⟨trivial, hdepth⟩
  | boolean b => exact Option.some.inj h ▸ ⟨trivial, hdepth⟩
  | number n =>
    obtain ⟨hheld, hnesting⟩ := isHeld_of_value? h
    exact ⟨hheld, hnesting ▸ hdepth⟩
  | text s =>
    obtain ⟨t, -, rfl⟩ := Option.map_eq_some_iff.mp h
    exact ⟨trivial, hdepth⟩
  | list items =>
    rw [ofDocument?] at h
    split at h
    · cases h
    obtain ⟨vs, hvs, rfl⟩ := Option.map_eq_some_iff.mp h
    obtain ⟨hheld, hnesting⟩ := held_of_ofItems? items (show 0 < depth - 1 by omega) hvs
    exact ⟨hheld, show nestingOfItems vs + 1 < depth by omega⟩
  | object fields =>
    rw [ofDocument?] at h
    split at h
    · cases h
    have hroom : 0 < depth - 1 := by omega
    obtain ⟨vs, hvs, rfl⟩ := Option.map_eq_some_iff.mp h
    have hnothing : HaveHeld [] ∧ nestingOfFields [] < depth - 1 := ⟨trivial, hroom⟩
    obtain ⟨hheld, hnesting⟩ := held_of_ofFields? fields hroom hnothing hvs
    exact ⟨hheld, show nestingOfFields vs + 1 < depth by omega⟩

theorem held_of_ofItems? (items : List Document) {depth : Nat} (hdepth : 0 < depth) {vs : List Json}
    (h : ofItems? depth items = some vs) : AreHeld vs ∧ nestingOfItems vs < depth := by
  cases items with
  | nil => exact Option.some.inj h ▸ ⟨trivial, hdepth⟩
  | cons d items =>
    obtain ⟨v, hv, h⟩ := Option.bind_eq_some_iff.mp h
    obtain ⟨rest, hrest, h⟩ := Option.bind_eq_some_iff.mp h
    obtain ⟨hheld, hnesting⟩ := held_of_ofDocument? d hdepth hv
    obtain ⟨hothers, hdeepest⟩ := held_of_ofItems? items hdepth hrest
    exact Option.some.inj h ▸ ⟨⟨hheld, hothers⟩, Nat.max_lt.mpr ⟨hnesting, hdeepest⟩⟩

theorem held_of_ofFields? (fields : List (Option String × Document)) {depth : Nat}
    (hdepth : 0 < depth)
    {seen vs : List (String × Json)} (hseen : HaveHeld seen ∧ nestingOfFields seen < depth)
    (h : ofFields? depth seen fields = some vs) : HaveHeld vs ∧ nestingOfFields vs < depth := by
  cases fields with
  | nil => exact Option.some.inj h ▸ hseen
  | cons field fields =>
    obtain ⟨k, hk, h⟩ := Option.bind_eq_some_iff.mp h
    obtain ⟨v, hv, h⟩ := Option.bind_eq_some_iff.mp h
    obtain ⟨hheld, hnesting⟩ := held_of_ofDocument? field.2 hdepth hv
    exact held_of_ofFields? fields hdepth (held_setField hheld hnesting hseen) h

end

/-- A text that is read as a free value is nested at most 127 deep. -/
theorem held_of_parse {s : String} {v : Json} (h : Json.parse s = some v) :
    v.IsHeld ∧ v.nesting ≤ 127 := by
  obtain ⟨d, -, hd⟩ := Option.bind_eq_some_iff.mp h
  obtain ⟨hheld, hnesting⟩ := held_of_ofDocument? d (Nat.zero_lt_succ 127) hd
  exact ⟨hheld, Nat.le_of_lt_succ hnesting⟩

/-- What has been read from a text of its own is read again inside a record, unless it is nested
127 deep. -/
theorem isSome_asFree {v : Json} (h : v.IsHeld) : (asFree v.document).isSome ↔ v.nesting ≤ 126 :=
  (isSome_ofDocument? v h (Nat.zero_lt_succ 126)).trans Nat.lt_succ_iff

end Pipewright.Json
