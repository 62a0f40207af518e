import Pipewright.Proofs.Lifecycle.Clearance
import Pipewright.Proofs.Lifecycle.Commuting

/-!
# Nodes to which nothing more happens

A node says of itself that it is terminal, and by requests it is seen whether it
is. The two agree in a pipeline that has only been changed by transitions: a
node that moves was not terminal (`Node.Moves.not_terminal`), and any other node
can be moved without evidence by someone, since a node that may not be taken up
again becomes stuck when that is asked for (`Sound.movable`). So where nothing
is in the way of requests the terminal nodes are those whose status no request
changes, and a pipeline that is complete stays so (`terminal_iff_settled`).

Where there is no room to save the graph no request changes the status of any
node (`settled_deepHome`).
-/

namespace Pipewright

open Pipeline (Node Ruling Verdict)

theorem Status.ne_of_canBecome {s t : Status} (h : s.canBecome t) : t ≠ s := by
  rintro rfl
  cases t <;> cases h

namespace Pipeline

variable {p p' : Pipeline} {maxRetries : UInt32} {s : Store} {now : Instant} {q : Request}
  {r : AuditRecord} {a : Except Error AuditRecord} {v : Verdict} {n m : Node}

/-! ## Terminal nodes -/

theorem Node.Moves.status_ne (h : n.Moves maxRetries s now q r a m) : m.status ≠ n.status := by
  cases h with
  | granted hlegal => exact Status.ne_of_canBecome hlegal
  | exhausted hfailed => rw [hfailed]; nofun

/-- A node that moves was not terminal: validated nodes move towards merging only, for which they
have to be work that is to be merged. -/
theorem Node.Moves.not_terminal (h : n.Moves maxRetries s now q r a m) : n.isTerminal = false := by
  cases h with
  | exhausted hfailed => rw [Node.isTerminal, hfailed]
  | granted hlegal _ hcheck =>
      unfold Node.isTerminal
      split
      · next hmerged => rw [hmerged] at hlegal; cases hlegal
      · next hstuck => rw [hstuck] at hlegal; cases hlegal
      · next hvalidated =>
        have htarget : q.target = .mergeReady := by
          rw [hvalidated] at hlegal
          revert hlegal
          cases q.target <;> decide
        obtain ⟨hwork, hmerge⟩ := Guard.merges_of_check hcheck (.inl htarget)
        rw [Node.integrates, hwork, hmerge]
        rfl
      · rfl

/-- In a sound pipeline there is something that can be asked about a node that is not terminal,
without evidence. -/
theorem Sound.movable (h : p.Sound) (hn : n ∈ p.nodes) (hterminal : n.isTerminal = false)
    (maxRetries : UInt32) (s : Store) :
    ∃ target actor r, p.rule maxRetries s ⟨n.id, target, actor, none⟩ = .ok r := by
  have hnode : p.node? n.id = some n :=
    (node?_eq_some_iff (nodup_of_requireValid h.valid)).mpr ⟨hn, rfl⟩
  obtain ⟨actor, hother⟩ : ∃ actor, n.implementedBy ≠ some actor := by
    by_cases hone : n.implementedBy = some "a"
    · exact ⟨"b", by rw [hone]; decide⟩
    · exact ⟨"a", hone⟩
  have hgranted : ∀ target, n.status.canBecome target → target ≠ .validated →
      (target = .mergeReady ∨ target = .merged → n.integrates = true) →
      (n.status = .failed → n.retryCount < maxRetries) →
      ∃ target actor r, p.rule maxRetries s ⟨n.id, target, actor, none⟩ = .ok r :=
    fun target hlegal htarget hmerges hretries => ⟨target, actor, _,
      rule_of_valid h.valid hnode hlegal htarget hmerges rfl (fun _ => hother) hretries s⟩
  cases hstatus : n.status with
  | pending =>
      exact hgranted .active (by rw [hstatus]; rfl) (by simp) (by simp) (by simp [hstatus])
  | active =>
      exact hgranted .implComplete (by rw [hstatus]; rfl) (by simp) (by simp) (by simp [hstatus])
  | implComplete =>
      exact hgranted .failed (by rw [hstatus]; rfl) (by simp) (by simp) (by simp [hstatus])
  | failed =>
      by_cases hretries : n.retryCount < maxRetries
      · exact hgranted .active (by rw [hstatus]; rfl) (by simp) (by simp) fun _ => hretries
      · exact ⟨.active, actor, .exhausted n.retryCount, rule_eq_ok.mpr ⟨n, hnode,
          by rw [hstatus]; rfl, h.valid, .exhausted hstatus (UInt32.not_lt.mp hretries)⟩⟩
  | validated =>
      have hmerges : n.integrates = true := by simpa [Node.isTerminal, hstatus] using hterminal
      exact hgranted .mergeReady (by rw [hstatus]; rfl) (by simp) (fun _ => hmerges)
        (by simp [hstatus])
  | mergeReady =>
      have hmerges : n.integrates = true := by
        obtain ⟨hwork, hmerge⟩ := h.merging n hn (.inl hstatus)
        rw [Node.integrates, hwork, hmerge]
        rfl
      exact hgranted .merged (by rw [hstatus]; rfl) (by simp) (fun _ => hmerges) (by simp [hstatus])
  | merged => simp [Node.isTerminal, hstatus] at hterminal
  | stuck => simp [Node.isTerminal, hstatus] at hterminal

/-! ## Complete pipelines -/

theorem isComplete_iff :
    p.isComplete = true ↔ ∀ n ∈ p.nodes, n.kind = .work → n.isTerminal = true := by
  simp [isComplete, ofKind, imp_iff_not_or]

theorem isComplete_of_unlined (h : p'.unlined = p.shaped.unlined) :
    p'.isComplete = p.isComplete := by
  have hall : ∀ p : Pipeline,
      p.isComplete = p.nodes.all fun n => n.kind != .work || n.isTerminal := by
    intro p
    rw [Bool.eq_iff_iff, isComplete_iff]
    simp [imp_iff_not_or]
  have hnodes : p'.nodes.map Node.unlined = p.shaped.nodes.map Node.unlined := congrArg nodes h
  have hsame := congrArg (List.all · fun n => n.kind != .work || n.isTerminal) hnodes
  simp only [shaped, List.map_map, List.all_map] at hsame
  rw [hall, hall]
  exact hsame

theorem mem_of_judge (h : p.judge maxRetries s now q = .ok v)
    (hm : m ∈ (GraphFile.bumped v.after).nodes) :
    m ∈ p.nodes ∨ ∃ n ∈ p.nodes, n.Moves maxRetries s now q v.record (v.answer q) m := by
  rw [judge_eq] at h
  cases hrule : p.rule maxRetries s q with
  | error err => rw [hrule] at h; cases h
  | ok r =>
      rw [hrule] at h
      obtain rfl := Except.ok.inj h
      obtain ⟨n, hnode, hlegal, -, hon⟩ := rule_eq_ok.mp hrule
      rw [Ruling.after_verdict] at hm
      rw [Ruling.record_verdict, Ruling.answer_verdict]
      rcases mem_modifyFirst hm with hm | ⟨k, hk, rfl⟩
      · exact .inl hm
      · obtain rfl := Option.some.inj (hnode.symm.trans hk)
        exact .inr ⟨n, List.mem_of_find?_eq_some hnode, hon.moves hlegal now⟩

/-- A pipeline that is complete stays so: it is not work that moves. -/
theorem lasting_isComplete : Lasting (·.isComplete = true) where
  judge := by
    intro p maxRetries u now q v hcomplete hjudge
    rw [isComplete_iff] at hcomplete ⊢
    intro m hm hwork
    rcases mem_of_judge hjudge hm with hm | ⟨n, hn, hmoves⟩
    · exact hcomplete m hm hwork
    · have hterminal := hcomplete n hn (hmoves.kind.symm.trans hwork)
      rw [hmoves.not_terminal] at hterminal
      cases hterminal
  reread := fun hcomplete hread => (isComplete_of_unlined hread).trans hcomplete

end Pipeline

namespace Engine

variable {e : Engine} {graph : String} {q : Request} {h : Host} {s t : Store} {p : Pipeline}
  {n : Node}

/-! ## Requests that change a status -/

/-- What a request leaves in the graph file gives the node another status than what it found. -/
def Restatuses (e : Engine) (graph : String) (h : Host) (s : Store) (q : Request) (id : String) :
    Prop :=
  ∃ p p' old new, GraphFile.Bears s graph p ∧
    GraphFile.Bears ((e.transition graph q).perform h s).2 graph p' ∧ p.statusOf? id = some old ∧
    p'.statusOf? id = some new ∧ new ≠ old

/-- A request leaves a graph file with the same nodes, of which only one has another status, and
that was not terminal. -/
theorem statuses_transition (hbears : GraphFile.Bears s graph p) (hplain : p.Plain)
    (hseq : p.checkpointSeq.toNat + 1 < 2 ^ 63) (hshelter : e.Sheltered graph s) (q : Request)
    (h : Host) : ∃ p', GraphFile.Bears ((e.transition graph q).perform h s).2 graph p' ∧
      p'.ids = p.ids ∧ ∀ id, p'.statusOf? id = p.statusOf? id ∨
        ∃ n, p.node? id = some n ∧ n.isTerminal = false ∧ saving graph s = .ok () := by
  have hconduct := conduct hbears hshelter q h
  generalize (e.transition graph q).perform h s = result at hconduct ⊢
  cases hconduct with
  | refused _ hkept => exact ⟨p, hbears.of_keeps hkept, rfl, fun _ => .inl rfl⟩
  | unsaved _ _ hkept => exact ⟨p, hbears.of_keeps hkept, rfl, fun _ => .inl rfl⟩
  | carriedOut hjudge hroom hsaved =>
      obtain ⟨p', hbears', -, hread, -⟩ := hbears.rewritten hplain hjudge hsaved hseq
      obtain ⟨n, m, hnode, hmoves, hnodes⟩ := Pipeline.moves_of_judge hjudge
      refine ⟨p', hbears', (Pipeline.ids_of_unlined hread).trans (Pipeline.ids_of_judge hjudge),
        fun id => ?_⟩
      by_cases hid : id = q.node
      · exact .inr ⟨n, hid ▸ hnode, hmoves.not_terminal, hroom⟩
      · refine .inl ?_
        have hstatus := congrArg (Option.map Node.status) (Pipeline.node?_of_unlined hread id)
        rw [hnodes, if_neg hid, Option.map_map, Option.map_map] at hstatus
        exact hstatus

/-- With nothing in the way the status of a node that is not terminal can be changed. -/
theorem Clear.restatuses (hclear : e.Clear graph h s) (hbears : GraphFile.Bears s graph p)
    (hplain : p.Plain) (hsound : p.Sound) (hseq : p.checkpointSeq.toNat + 1 < 2 ^ 63)
    (hn : n ∈ p.nodes) (hterminal : n.isTerminal = false) :
    ∃ q, e.Restatuses graph h s q n.id := by
  have hnode : p.node? n.id = some n :=
    (Pipeline.node?_eq_some_iff (Pipeline.nodup_of_requireValid hsound.valid)).mpr ⟨hn, rfl⟩
  obtain ⟨target, actor, r, hrule⟩ := hsound.movable hn hterminal e.maxRetries s
  obtain ⟨_, hnode', hlegal, -, hon⟩ := Pipeline.rule_eq_ok.mp hrule
  obtain rfl := Option.some.inj (hnode.symm.trans hnode')
  have hmoves := hon.moves hlegal (h.clock 0)
  obtain ⟨p', hdone⟩ := Clear.call (c := ⟨⟨n.id, target, actor, none⟩, h, s⟩) hclear hbears
    hplain hseq nofun hnode hrule
  obtain ⟨m, hm, hcore⟩ := hdone.node
  have hstatus : m.status = (r.step ⟨n.id, target, actor, none⟩ (h.clock 0) n).status :=
    (congrArg Node.status hcore :)
  refine ⟨⟨n.id, target, actor, none⟩, p, p', n.status, m.status, hbears, hdone.bears,
    congrArg (Option.map Node.status) hnode, congrArg (Option.map Node.status) hm, ?_⟩
  rw [hstatus]
  exact hmoves.status_ne

/-- Over a course of transitions that begins with a valid pipeline all of whose nodes are pending,
terminal nodes are those whose status no request changes where nothing is in the way of requests.
Where the pipeline is not complete the status of some work can be changed, and where it is it stays
so. -/
theorem terminal_iff_settled {k : Nat} (hbears : GraphFile.Bears s graph p) (hplain : p.Plain)
    (herrors : p.errors = []) (hpending : ∀ n ∈ p.nodes, n.status = .pending)
    (hcourse : Course graph s k t) (hseq : p.checkpointSeq.toNat + k + 1 < 2 ^ 63) :
    ∃ p', GraphFile.Bears t graph p' ∧
      (∀ (e : Engine) (h : Host), e.Clear graph h t →
        (∀ q, ∃ p'', GraphFile.Bears ((e.transition graph q).perform h t).2 graph p'' ∧
          p''.ids = p'.ids) ∧
        (∀ n ∈ p'.nodes, n.isTerminal = true ↔ ∀ q, ¬e.Restatuses graph h t q n.id) ∧
        (p'.isComplete = false →
          ∃ n ∈ p'.nodes, n.kind = .work ∧ ∃ q, e.Restatuses graph h t q n.id)) ∧
      (p'.isComplete = true → ∀ k' u, Course graph t k' u →
        p.checkpointSeq.toNat + k + k' < 2 ^ 63 →
          ∃ p'', GraphFile.Bears u graph p'' ∧ p''.isComplete = true) := by
  obtain ⟨p', hbears', hplain', hsound', hnum⟩ := hcourse.lasting Pipeline.lasting_sound hbears
    hplain (Pipeline.sound_of_pending herrors hpending) (by omega)
  have hnodup := Pipeline.nodup_of_requireValid hsound'.valid
  refine ⟨p', hbears', fun e h hclear => ⟨fun q => ?_, fun n hn => ⟨?_, ?_⟩, fun hopen => ?_⟩,
    fun hcomplete k' u hcourse' hseq' => ?_⟩
  · obtain ⟨p'', hbears'', hids, -⟩ :=
      statuses_transition hbears' hplain' (by omega) (.inr hclear.saving) q h
    exact ⟨p'', hbears'', hids⟩
  · rintro hterminal q ⟨p₁, p₂, old, new, hbears₁, hbears₂, hold, hnew, hne⟩
    obtain rfl := hbears'.unique hbears₁
    obtain ⟨p'', hbears'', -, hstatuses⟩ :=
      statuses_transition hbears' hplain' (by omega) (.inr hclear.saving) q h
    obtain rfl := hbears₂.unique hbears''
    rcases hstatuses n.id with hsame | ⟨m, hm, hmoved, -⟩
    · rw [hold, hnew] at hsame
      exact hne (Option.some.inj hsame)
    · rw [(Pipeline.node?_eq_some_iff hnodup).mpr ⟨hn, rfl⟩] at hm
      rw [← Option.some.inj hm, hterminal] at hmoved
      cases hmoved
  · intro hsettled
    by_contra hterminal
    obtain ⟨q, hq⟩ := hclear.restatuses hbears' hplain' hsound' (by omega) hn
      (Bool.eq_false_iff.mpr hterminal)
    exact hsettled q hq
  · obtain ⟨n, hn, hwork, hterminal⟩ : ∃ n ∈ p'.nodes, n.kind = .work ∧ n.isTerminal = false := by
      by_contra hnone
      push Not at hnone
      have hcomplete : p'.isComplete = true := Pipeline.isComplete_iff.mpr fun n hn hwork =>
        Bool.eq_true_of_not_eq_false (hnone n hn hwork)
      rw [hopen] at hcomplete
      cases hcomplete
    exact ⟨n, hn, hwork, hclear.restatuses hbears' hplain' hsound' (by omega) hn hterminal⟩
  · obtain ⟨p'', hbears'', -, hcomplete', -⟩ := hcourse'.lasting Pipeline.lasting_isComplete hbears'
      hplain' hcomplete (by omega)
    exact ⟨p'', hbears'', hcomplete'⟩

/-- After four calls about a piece of work, the last of which made it stuck, no request changes its
status, and some request changes that of another one. -/
theorem terminal_iff_settled_twofold : ∃ p cs t p', GraphFile.Bears (homeStore .twofold) "p.dot" p ∧
    p.Plain ∧ p.errors = [] ∧ (∀ n ∈ p.nodes, n.status = .pending) ∧
    onceEngine.Session "p.dot" (homeStore .twofold) cs t ∧ cs.length = 4 ∧
    Course "p.dot" (homeStore .twofold) (onceEngine.saved "p.dot" cs) t ∧
    p.checkpointSeq.toNat + onceEngine.saved "p.dot" cs + 1 < 2 ^ 63 ∧
    onceEngine.Clear "p.dot" quietHost t ∧ GraphFile.Bears t "p.dot" p' ∧
    p'.statusOf? "a" = some .stuck ∧ (∀ q, ¬onceEngine.Restatuses "p.dot" quietHost t q "a") ∧
    p'.statusOf? "b" = some .pending ∧ ∃ q, onceEngine.Restatuses "p.dot" quietHost t q "b" := by
  obtain ⟨p, c₁, c₂, c₃, p₃, m, hfailing⟩ :=
    failing_twofold (e := onceEngine) rfl "dev" (by decide : "dev" ≠ "judge")
  obtain ⟨c₄, p₄, k, hsession, habout, -, hbears₄, hclear, hk, hstuck⟩ := hfailing.stuck
  obtain ⟨p₀, hbears₀, hplain, hvalid, hseq, hpending, hnodes⟩ := bears_twofold
  obtain rfl := hfailing.bears.unique hbears₀
  have herrors := Pipeline.errors_of_requireValid hvalid
  have hopening : onceEngine.Opening "p.dot" _ p [c₁, c₂, c₃, c₄] := hfailing.opening (by simp)
  have hcourse := hsession.course hfailing.apart
  have hbound : p.checkpointSeq.toNat + onceEngine.saved "p.dot" [c₁, c₂, c₃, c₄] + 1 < 2 ^ 63 := by
    have hle := saved_le_length onceEngine "p.dot" [c₁, c₂, c₃, c₄]
    have hnone := hfailing.seq
    simp only [List.length_cons, List.length_nil] at hle
    omega
  -- No call was about the other piece of work, so it is still pending.
  obtain ⟨n, hn, -, -⟩ := hnodes "b" (by decide)
  obtain ⟨p', hbears', -, -, ⟨-, hlived⟩ | ⟨hfull, -⟩⟩ := hopening.lived hsession
  case inr => exact absurd (clear_homeStore (e := onceEngine) _ rfl).saving hfull
  obtain rfl := hbears₄.unique hbears'
  obtain ⟨n', hn', hlife⟩ := hlived.survives hn
  have hsame := hlife.core_of_others fun c hc => by
    rw [habout c hc, Pipeline.id_of_node? hn]
    decide
  have hwaits : n'.status = .pending :=
    (congrArg Node.status hsame :).trans (hpending n (List.mem_of_find?_eq_some hn))
  obtain ⟨p'', hbears'', hcalls, -⟩ :=
    terminal_iff_settled hfailing.bears hplain herrors hpending hcourse hbound
  obtain rfl := hbears₄.unique hbears''
  obtain ⟨-, hsettled, -⟩ := hcalls onceEngine quietHost hclear
  have hida := Pipeline.id_of_node? hk
  have hidb := Pipeline.id_of_node? hn'
  refine ⟨p, _, _, p₄, hfailing.bears, hplain, herrors, hpending, hsession, rfl, hcourse, hbound,
    hclear, hbears₄, ?_, ?_, ?_, ?_⟩
  · rw [Pipeline.statusOf?, hk, Option.map_some, hstuck]
  · rw [← hida]
    refine (hsettled k (List.mem_of_find?_eq_some hk)).mp ?_
    rw [Node.isTerminal, hstuck]
  · rw [Pipeline.statusOf?, hn', Option.map_some, hwaits]
  · rw [← hidb]
    by_contra hnone
    have hterminal := (hsettled n' (List.mem_of_find?_eq_some hn')).mpr (not_exists.mp hnone)
    rw [Node.isTerminal, hwaits] at hterminal
    cases hterminal

/-! ## Where the graph cannot be saved -/

/-- Without room to save the graph no request changes any status. -/
theorem settled_of_full (hbears : GraphFile.Bears s graph p) (hplain : p.Plain)
    (hseq : p.checkpointSeq.toNat + 1 < 2 ^ 63) (hplaces : s.place graph ≠ s.place e.auditLog)
    (hfull : saving graph s ≠ .ok ()) (q : Request) (h : Host) (id : String) :
    ¬e.Restatuses graph h s q id := by
  rintro ⟨p₁, p₂, old, new, hbears₁, hbears₂, hold, hnew, hne⟩
  obtain rfl := hbears.unique hbears₁
  obtain ⟨p', hbears', -, hstatuses⟩ := statuses_transition hbears hplain hseq (.inl hplaces) q h
  obtain rfl := hbears₂.unique hbears'
  rcases hstatuses id with hsame | ⟨-, -, -, hroom⟩
  · rw [hold, hnew] at hsame
    exact hne (Option.some.inj hsame)
  · exact hfull hroom

/-- A pending node whose status no request changes: the lock of its graph file is free and the audit
log can be added to, but there is no room to save the graph. -/
theorem settled_deepHome : ∃ p n, GraphFile.Bears (shortStore deepHome) "p.dot" p ∧ p.Plain ∧
    p.errors = [] ∧ (∀ n ∈ p.nodes, n.status = .pending) ∧
    Course "p.dot" (shortStore deepHome) 0 (shortStore deepHome) ∧
    p.checkpointSeq.toNat + 0 + 1 < 2 ^ 63 ∧
    (shortStore deepHome).site (lockPath "p.dot")
      = .ok ((shortStore deepHome).place (lockPath "p.dot")) ∧
    quietHost.held.contains ((shortStore deepHome).place (lockPath "p.dot")) = false ∧
    localEngine.logging "p.dot" (shortStore deepHome) = .ok () ∧ n ∈ p.nodes ∧
    ¬(n.isTerminal = true ↔
      ∀ q, ¬localEngine.Restatuses "p.dot" quietHost (shortStore deepHome) q n.id) := by
  obtain ⟨l, l', hplain, hloaded⟩ := loaded_shortStore deepHome
  have hbears := GraphFile.loaded_eq_ok.mp hloaded
  have hlock := found_lock_shortStore deepHome
  have hlogging : localEngine.logging "p.dot" (shortStore deepHome) = .ok () := by
    rw [logging_of_found hlock .empty default]
    exact Store.canAppend_of_find (find_log deepHome).1 .empty default
  have hfull : saving "p.dot" (shortStore deepHome) ≠ .ok () := by
    obtain ⟨fault, hsaving⟩ := saving_deepHome
    rw [hsaving]
    nofun
  have hplaces : (shortStore deepHome).place "p.dot"
      ≠ (shortStore deepHome).place localEngine.auditLog := by
    change (shortStore deepHome).place "p.dot" ≠ (shortStore deepHome).place "audit.jsonl"
    rw [(find_graph deepHome).2, (find_log deepHome).2]
    simp
  have hpending : ∀ n ∈ (Pipeline.shortest l l').shaped.nodes, n.status = .pending := by
    simp [Pipeline.shortest, Pipeline.shaped, Node.shaped]
  obtain ⟨_, _, hlockFind⟩ := hlock
  refine ⟨_, ({ id := "s", kind := .start, line := l } : Node).shaped, hbears, hplain,
    Pipeline.errors_of_requireValid (Pipeline.requireValid_shortest l l'), hpending, .start,
    (by decide : 0 + 0 + 1 < 2 ^ 63), Store.site_of_find hlockFind, rfl, hlogging,
    List.mem_cons_self .., fun hiff => ?_⟩
  have hterminal := hiff.mpr fun q =>
    settled_of_full hbears hplain (by decide : 0 + 1 < 2 ^ 63) hplaces hfull q quietHost _
  cases hterminal

end Engine

end Pipewright
