import Pipewright.Proofs.Lifecycle.Clearance

/-!
# The cap on retries

A node counts how often it was taken up again after it had failed. Over a
session the count is that of the records, and it does not exceed what the engine
allows (`Life.retries`); so it never runs over either. When a request finds the
count at its cap the node becomes stuck, and that is the only way there
(`Call.Capped`). From then on nothing happens to it, as little as to a node that
is merged (`Life.settled`).
-/

namespace Pipewright

open Pipeline (Node Ruling)

/-- The record says that the node was taken up again after it had failed. -/
def AuditRecord.isRetry (id : String) (r : AuditRecord) : Bool :=
  r.node = id ∧ r.source = .failed ∧ r.target = .active

/-- How often the records say that the node was taken up again. -/
def AuditRecord.retries (id : String) (rs : List AuditRecord) : Nat := rs.countP (isRetry id)

/-- The status is one that is never left. -/
def Status.Ends (s : Status) : Prop := s = .stuck ∨ s = .merged

theorem Status.Ends.not_canBecome {s t : Status} (h : s.Ends) : ¬s.canBecome t := by
  rcases h with rfl | rfl <;> simp [canBecome, targets]

theorem Status.not_canBecome_stuck (s : Status) : ¬s.canBecome .stuck := by
  cases s <;> decide

namespace Pipeline.Node.Moves

variable {maxRetries : UInt32} {s : Store} {now : Instant} {q : Request} {r : AuditRecord}
  {a : Except Error AuditRecord} {n m : Node}

/-- Only what is recorded as a retry is counted, and it keeps to the cap. -/
theorem retries (h : n.Moves maxRetries s now q r a m) (hcap : n.retryCount ≤ maxRetries) :
    m.retryCount.toNat
        = n.retryCount.toNat + (if r.source = .failed ∧ r.target = .active then 1 else 0) ∧
      m.retryCount ≤ maxRetries := by
  cases h with
  | exhausted => exact ⟨by simp, hcap⟩
  | granted hlegal hretries hcheck =>
      by_cases hretry : n.status = .failed ∧ q.target = .active
      · have hlt := UInt32.lt_iff_toNat_lt.mp (hretries hretry.1)
        have hmax := maxRetries.toNat_lt
        have hcount : (n.retryCount + 1).toNat = n.retryCount.toNat + 1 := by
          rw [UInt32.toNat_add]
          have hone : (1 : UInt32).toNat = 1 := rfl
          omega
        simp only [advance, if_pos hretry]
        exact ⟨hcount, UInt32.le_iff_toNat_le.mpr (by omega)⟩
      · simp only [advance, if_neg hretry]
        exact ⟨rfl, hcap⟩

/-- A node becomes stuck when its retries are used up, and the answer says so. -/
theorem stuck (h : n.Moves maxRetries s now q r a m) (hstuck : m.status = .stuck) :
    n.status = .failed ∧ maxRetries ≤ n.retryCount ∧
      a = .error (.retriesExhausted q.node n.retryCount.toNat) := by
  cases h with
  | exhausted hfailed hretries => exact ⟨hfailed, hretries, rfl⟩
  | granted hlegal =>
      have htarget : q.target = .stuck := hstuck
      rw [htarget] at hlegal
      exact absurd hlegal (Status.not_canBecome_stuck _)

theorem answer (h : n.Moves maxRetries s now q r a m) {id : String} {attempts : Nat}
    (ha : a = .error (.retriesExhausted id attempts)) : m.status = .stuck ∧ id = q.node := by
  cases h with
  | granted => cases ha
  | exhausted => cases ha; exact ⟨rfl, rfl⟩

theorem not_ends (h : n.Moves maxRetries s now q r a m) : ¬n.status.Ends := by
  intro hends
  cases h with
  | granted hlegal => exact hends.not_canBecome hlegal
  | exhausted hfailed => rw [hfailed] at hends; rcases hends with h | h <;> cases h

end Pipeline.Node.Moves

namespace Engine

open AuditRecord (retries)

variable {e : Engine} {graph : String} {s t : Store} {p p₁ p₂ : Pipeline} {c : Call}
  {cs : List Call}
  {n m : Node}

theorem Life.settled (h : e.Life graph n cs m) (hends : n.status.Ends) : m.status = n.status := by
  induction h with
  | born => rfl
  | idle _ _ hsame ih => exact (congrArg Node.status hsame :).trans ih
  | moved _ _ _ hmoves _ ih => exact absurd (ih ▸ hends) hmoves.not_ends

/-- The retries of a node are those that were recorded, and not more than are allowed. -/
theorem Life.retries (h : e.Life graph n cs m) (hzero : n.retryCount = 0) :
    m.retryCount.toNat = AuditRecord.retries n.id (e.recorded graph cs) ∧
      m.retryCount ≤ e.maxRetries := by
  induction h with
  | born =>
      rw [hzero]
      exact ⟨rfl, UInt32.le_iff_toNat_le.mpr (Nat.zero_le _)⟩
  | @idle cs c m m' _ hothers hsame ih =>
      obtain ⟨_, _, rfl⟩ := Node.exists_of_core hsame
      have hnone : AuditRecord.retries n.id (c.records e graph) = 0 := by
        rw [AuditRecord.retries, List.countP_eq_zero]
        intro r hr
        simp [AuditRecord.isRetry, hothers r hr]
      rw [recorded_append, recorded_singleton, AuditRecord.retries, List.countP_append,
        ← AuditRecord.retries, ← AuditRecord.retries, hnone, Nat.add_zero]
      exact ih
  | @moved cs c r m k m' _ hrecords habout hmoves hsame ih =>
      obtain ⟨_, _, rfl⟩ := Node.exists_of_core hsame
      obtain ⟨hnext, hcap⟩ := hmoves.retries ih.2
      rw [recorded_append, recorded_singleton, hrecords, AuditRecord.retries, List.countP_append,
        ← AuditRecord.retries, List.countP_singleton]
      dsimp only
      rw [hnext, ih.1]
      have hid : r.node = n.id := hmoves.record.1.trans habout
      refine ⟨?_, hcap⟩
      simp [AuditRecord.isRetry, hid]

/-! ## Calls and the cap -/

theorem Call.Moving.statusOf? {r : AuditRecord} (h : c.Moving e graph p₁ p₂ r n m) (id : String) :
    p₂.statusOf? id = if id = c.request.node then some m.status else p₁.statusOf? id := by
  have hstatus := congrArg (Option.map Node.status) (h.nodes id)
  rw [Option.map_map] at hstatus
  refine hstatus.trans ?_
  split
  · rfl
  · rw [Option.map_map]
    rfl

/-- Over a session nodes that have ended stay what they are. -/
theorem Lived.settled (h : e.Lived graph p₁ cs p₂) {id : String} {status : Status}
    (hends : status.Ends) (hid : p₁.statusOf? id = some status) :
    p₂.statusOf? id = some status := by
  obtain ⟨n, hn, rfl⟩ := Option.map_eq_some_iff.mp hid
  obtain ⟨m, hm, hlife⟩ := h.survives hn
  rw [Pipeline.statusOf?, hm, Option.map_some, hlife.settled hends]

end Engine

end Pipewright
