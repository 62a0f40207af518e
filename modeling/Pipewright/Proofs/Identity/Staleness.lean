import Pipewright.Proofs.Identity.Conduct

/-!
# Staleness

An identity is stale that is active and gave its last sign of life more than a
number of seconds ago. The search for stale identities works with the instant
that lies so many seconds back, and two limits meet in it. A timeout has a
longest value, and one beyond it is an error that says so. The calendar has a
first year, and a timeout can be short of the one limit and lead far beyond the
other: for these, and for no others, the search leaves the range of the calendar
(`Registry.findStaleAsOf_answers`). Timeouts below 264 thousand years lead
nowhere near it.

Seconds are counted back from an instant as if it stood in no leap second: the
leap second counts as the second after it, unless nothing is counted back.
-/

namespace Pipewright

open Pipewright.Action

/-! ## Counting back -/

namespace Instant

variable {a b : Instant} {n : Nat}

/-- The instant that `n` seconds are counted back from. -/
def leaving (a : Instant) (n : Nat) : Instant :=
  if 1000000000 ≤ a.nanos ∧ n ≠ 0 then ⟨a.seconds + 1, a.nanos - 1000000000⟩ else a

theorem leaving_of_lt (h : a.nanos < 1000000000) (n : Nat) : a.leaving n = a :=
  if_neg fun hleap => absurd hleap.1 (Nat.not_le_of_lt h)

theorem minus_ofSeconds (a : Instant) (n : Nat) :
    a.minus (.ofSeconds n) = (a.leaving n).plusSeconds (-n) := by
  have hseconds : (Span.ofSeconds n).seconds = n := Nat.mul_div_cancel n (by decide)
  have hnanos : (Span.ofSeconds n).subNanos = 0 := Nat.mul_mod_left n 1000000000
  rw [minus, leaving, hseconds, hnanos]
  by_cases hleap : 1000000000 ≤ a.nanos
  · by_cases hn : n = 0
    · subst hn
      simp [hleap, plusSeconds]
    · simp [hleap, hn, plusSeconds, Int.sub_eq_add_neg]
  · simp [hleap, plusSeconds, Int.sub_eq_add_neg]

theorem before_iff :
    a.before b ↔ a.seconds < b.seconds ∨ a.seconds = b.seconds ∧ a.nanos < b.nanos := by
  simp [before]

/-- Going back by seconds on the one side is going on by them on the other. -/
theorem before_plusSeconds_neg (a b : Instant) (n : Nat) :
    a.before (b.plusSeconds (-n)) = (a.plusSeconds n).before b := by
  rw [Bool.eq_iff_iff, before_iff, before_iff, plusSeconds, plusSeconds]
  dsimp only
  omega

/-- The calendar begins with a second, so only whole seconds count. -/
theorem before_earliest_iff : a.before earliest ↔ a.seconds < -8334601228800 := by
  have hearliest : earliest = ⟨-8334601228800, 0⟩ := by decide +kernel
  rw [before_iff, hearliest]
  simp

end Instant

/-! ## Stale identities -/

/-- The identity is active and has given no sign of life that can be read, or the last one more than
`n` seconds before an instant. -/
def Identity.IsStale (i : Identity) (now : Instant) (n : Nat) : Prop :=
  i.isActive ∧ ∀ seen, i.lastSeenAt = some seen → (seen.plusSeconds n).before (now.leaving n)

namespace Registry

variable {r : Registry} {h : Host} {s : Store} {is : List Identity} {now : Instant}

theorem mem_filter_isStale {i : Identity} {n : Nat} :
    i ∈ is.filter (fun i => i.isActive && i.lastSeenAt.all (·.before (now.minus (.ofSeconds n)))) ↔
      i ∈ is ∧ i.IsStale now n := by
  rw [List.mem_filter, Bool.and_eq_true, Option.all_eq_true, Identity.IsStale,
    Instant.minus_ofSeconds]
  simp only [Instant.before_plusSeconds_neg]

/-- The search, one way for each of the two limits and one for what keeps both. -/
theorem perform_findStaleAsOf (hread : r.all.perform h s = (.ok is, s)) (now : Instant) (n : Nat) :
    (r.findStaleAsOf now (.ofSeconds n)).perform h s =
      if 9223372036854775 < n then
        (.error (.other
          ("stale timeout out of range: Source duration value is out of range for the "
          ++ "target type")), s)
      else if (now.leaving n).seconds + 8334601228800 < n then (.error .timeRange, s)
      else (.ok (is.filter fun i =>
        i.isActive && i.lastSeenAt.all (·.before (now.minus (.ofSeconds n)))), s) := by
  have hlongest : longestTimeout < (Span.ofSeconds n).nanos ↔ 9223372036854775 < n := by
    rw [longestTimeout, Span.ofSeconds]
    dsimp only
    omega
  have hearliest : (now.minus (.ofSeconds n)).before .earliest ↔
      (now.leaving n).seconds + 8334601228800 < n := by
    rw [Instant.before_earliest_iff, Instant.minus_ofSeconds, Instant.plusSeconds]
    dsimp only
    omega
  by_cases hlong : 9223372036854775 < n
  · rw [findStaleAsOf, if_pos (hlongest.mpr hlong), if_pos hlong]
    rfl
  · rw [findStaleAsOf, if_neg (mt hlongest.mp hlong), if_neg hlong]
    by_cases hearly : (now.leaving n).seconds + 8334601228800 < n
    · rw [if_pos (hearliest.mpr hearly), if_pos hearly]
      rfl
    · rw [if_neg (mt hearliest.mp hearly), if_neg hearly]
      simp only [perform_bind, hread]
      rfl

/-- What the search for stale identities answers, for every registry that can be read, every instant
and every number of seconds. It leaves the range of the calendar exactly where the timeout is no
longer than the longest one and leads back beyond the calendar's first year; it says that the
timeout is too long exactly where it is; and everywhere else it answers with the stale identities,
in the order in which all are listed. The store stays as it is. -/
theorem findStaleAsOf_answers (hread : r.all.perform h s = (.ok is, s)) (now : Instant)
    (n : UInt64) :
    ((r.findStaleAsOf now (.ofSeconds n.toNat)).perform h s = (.error .timeRange, s) ↔
      (now.leaving n.toNat).seconds + 8334601228800 < n.toNat ∧ n.toNat ≤ 9223372036854775) ∧
    ((∃ text, (r.findStaleAsOf now (.ofSeconds n.toNat)).perform h s = (.error (.other text), s)) ↔
      9223372036854775 < n.toNat) ∧
    ((∃ js, (r.findStaleAsOf now (.ofSeconds n.toNat)).perform h s = (.ok js, s)) ↔
      n.toNat ≤ (now.leaving n.toNat).seconds + 8334601228800 ∧ n.toNat ≤ 9223372036854775) ∧
    ∀ js, (r.findStaleAsOf now (.ofSeconds n.toNat)).perform h s = (.ok js, s) →
      js.Sublist is ∧ ∀ i, i ∈ js ↔ i ∈ is ∧ i.IsStale now n.toNat := by
  have hperform := perform_findStaleAsOf hread now n.toNat
  by_cases hlong : 9223372036854775 < n.toNat
  · rw [if_pos hlong] at hperform
    rw [hperform]
    simp [hlong]
  · rw [if_neg hlong] at hperform
    by_cases hearly : (now.leaving n.toNat).seconds + 8334601228800 < n.toNat
    · rw [if_pos hearly] at hperform
      rw [hperform]
      simp [hlong, hearly, Nat.le_of_not_lt hlong]
    · rw [if_neg hearly] at hperform
      rw [hperform]
      refine ⟨?_, ?_, ?_, ?_⟩
      · simp [hearly]
      · simp [hlong]
      · simp [Nat.le_of_not_lt hlong, Int.not_lt.mp hearly]
      · rintro js hjs
        obtain rfl := Except.ok.inj (Prod.mk.inj hjs).1
        exact ⟨List.filter_sublist, fun i => mem_filter_isStale⟩

/-- An empty registry, searched at the beginning of 2026 with the timeout of a new configuration,
with one that leads back for more than 300 thousand years, and with the longest number. -/
theorem findStaleAsOf_answers_registryStore :
    plainRegistry.all.perform .idle registryStore = (.ok [], registryStore) ∧
    (plainRegistry.findStaleAsOf ⟨1767225600, 0⟩ (.ofSeconds 300)).perform .idle registryStore =
      (.ok [], registryStore) ∧
    (plainRegistry.findStaleAsOf ⟨1767225600, 0⟩ (.ofSeconds 10000000000000)).perform .idle
      registryStore = (.error .timeRange, registryStore) ∧
    ∃ text, (plainRegistry.findStaleAsOf ⟨1767225600, 0⟩ (.ofSeconds 18446744073709551615)).perform
      .idle registryStore = (.error (.other text), registryStore) := by
  have hleaving := Instant.leaving_of_lt (a := ⟨1767225600, 0⟩) (by decide)
  have hread : plainRegistry.all.perform .idle registryStore = (.ok [], registryStore) := by
    have hready : plainRegistry.Ready registryStore fun _ => none :=
      ⟨standing_registryStore, by decide, by decide +kernel⟩
    obtain ⟨is, hread, hmem⟩ := hready.perform_all .idle
    obtain rfl : is = [] := List.eq_nil_iff_forall_not_mem.mpr fun i hi => by
      obtain ⟨key, hkey⟩ := (hmem i).mp hi
      cases hkey
    exact hread
  refine ⟨hread, ?_, (findStaleAsOf_answers hread ⟨1767225600, 0⟩ 10000000000000).1.mpr ?_,
    (findStaleAsOf_answers hread ⟨1767225600, 0⟩ 18446744073709551615).2.1.mpr (by decide)⟩
  · obtain ⟨-, -, hok, hstale⟩ := findStaleAsOf_answers hread ⟨1767225600, 0⟩ 300
    obtain ⟨js, hjs⟩ := hok.mpr (by rw [hleaving]; decide)
    obtain rfl : js = [] := List.sublist_nil.mp (hstale js hjs).1
    exact hjs
  · rw [hleaving]
    decide

/-- Whatever the instant is, up to the last year of the calendar, the longest timeout that is taken
leads beyond its first year. -/
theorem findStaleAsOf_longest (hread : r.all.perform h s = (.ok is, s))
    (hnow : now.seconds ≤ 8210266876799) :
    (r.findStaleAsOf now (.ofSeconds 9223372036854775)).perform h s = (.error .timeRange, s) := by
  have hleaving : (now.leaving 9223372036854775).seconds ≤ now.seconds + 1 := by
    rw [Instant.leaving]
    split
    · exact Int.le_refl _
    · omega
  rw [perform_findStaleAsOf hread, if_neg (Nat.lt_irrefl _), if_pos (by omega)]

end Registry

end Pipewright
