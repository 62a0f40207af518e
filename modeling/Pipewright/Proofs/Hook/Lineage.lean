import Mathlib.Logic.Relation
import Pipewright.Proofs.Hook.Turns

/-!
# Lineage and resumption

Hooks are linked from both sides, and the work of a hook is gone on with once.
-/

/-!
## Lineage of hooks

A hook that inherits names its predecessor, and a hook that has been consumed
names its successor. The two are written into different files, one after the
other, and calls that write whole hooks anew come in between. Still they are
inverse to each other after every run whose calls are not stopped halfway, and
no hook is its own ancestor (`Lineage`): a new link is made from a hook that was
not consumed to one that did not exist, and nothing else touches the links.

That calls are whole matters. After one that was stopped the successor inherits
and its predecessor does not say so yet.
-/

namespace Pipewright.Rack

variable {r : Rack} {c : Turn} {cs : List Turn} {s t : Store} {f g : String → Option Hook}
  {a b : String}

/-! ### Links -/

/-- Whose work the hook with a key goes on with. -/
def inherited (f : String → Option Hook) (b : String) : Option String :=
  (f b).bind (·.inheritedFrom)

/-- Who goes on with the work of the hook with a key. -/
def consumed (f : String → Option Hook) (a : String) : Option String :=
  (f a).bind (·.consumedBy)

/-- The hook of a successor says whose work it goes on with exactly where the hook of the
predecessor says who goes on, and predecessors come before their successors in some order. -/
structure Lineage (f : String → Option Hook) : Prop where
  inverse : ∀ a b, inherited f b = some a ↔ consumed f a = some b
  ranked : ∃ rank : String → Nat, ∀ a b, inherited f b = some a → rank a < rank b

theorem lineage_none : Lineage fun _ => none where
  inverse := by simp [inherited, consumed]
  ranked := ⟨fun _ => 0, by simp [inherited]⟩

theorem Lineage.acyclic (h : Lineage f) (id : String) :
    ¬Relation.TransGen (fun b a => inherited f b = some a) id id := by
  obtain ⟨rank, hrank⟩ := h.ranked
  have hless : ∀ {b a}, Relation.TransGen (fun b a => inherited f b = some a) b a →
      rank a < rank b := by
    intro b a hpath
    induction hpath with
    | single hlink => exact hrank _ _ hlink
    | tail _ hlink ih => exact (hrank _ _ hlink).trans ih
  exact fun hcycle => Nat.lt_irrefl _ (hless hcycle)

/-- A new link, from a hook that is not consumed to one that is new, keeps the lineage. -/
theorem Lineage.link {p q : String} (h : Lineage f) (hne : p ≠ q) (hnew : f q = none)
    (hfree : consumed f p = none)
    (hinherited : inherited g = Function.update (inherited f) q (some p))
    (hconsumed : consumed g = Function.update (consumed f) p (some q)) : Lineage g := by
  have hstart : inherited f q = none := by rw [inherited, hnew]; rfl
  have hend : consumed f q = none := by rw [consumed, hnew]; rfl
  constructor
  · intro a b
    have hold := h.inverse a b
    rw [hinherited, hconsumed]
    by_cases hb : b = q <;> by_cases ha : a = p
    · subst hb ha
      rw [Function.update_self, Function.update_self]
      exact iff_of_true rfl rfl
    · subst hb
      rw [Function.update_self, Function.update_of_ne ha, ← hold, hstart]
      simp [Ne.symm ha]
    · subst ha
      rw [Function.update_of_ne hb, Function.update_self, hold, hfree]
      simp [Ne.symm hb]
    · rw [Function.update_of_ne hb, Function.update_of_ne ha, hold]
  · obtain ⟨rank, hrank⟩ := h.ranked
    refine ⟨Function.update rank q (rank p + 1), fun a b hlink => ?_⟩
    rw [hinherited] at hlink
    by_cases hb : b = q
    · subst hb
      rw [Function.update_self] at hlink
      obtain rfl : p = a := Option.some.inj hlink
      rw [Function.update_self, Function.update_of_ne hne]
      exact Nat.lt_succ_self _
    · rw [Function.update_of_ne hb] at hlink ⊢
      have ha : a ≠ q := by
        rintro rfl
        rw [h.inverse, hend] at hlink
        cases hlink
      rw [Function.update_of_ne ha]
      exact hrank a b hlink

/-! ### One turn -/

theorem inherited_update (f : String → Option Hook) (id : String) (hook : Hook) :
    inherited (Function.update f id (some hook))
      = Function.update (inherited f) id hook.inheritedFrom := by
  funext key
  by_cases hkey : key = id
  · rw [hkey, inherited, Function.update_self, Function.update_self, Option.bind_some]
  · rw [inherited, Function.update_of_ne hkey, Function.update_of_ne hkey, inherited]

theorem consumed_update (f : String → Option Hook) (id : String) (hook : Hook) :
    consumed (Function.update f id (some hook))
      = Function.update (consumed f) id hook.consumedBy := by
  funext key
  by_cases hkey : key = id
  · rw [hkey, consumed, Function.update_self, Function.update_self, Option.bind_some]
  · rw [consumed, Function.update_of_ne hkey, Function.update_of_ne hkey, consumed]

/-- What a turn does to the links. The first write alone is what a call does that is stopped; the
second one alone is what completes it. -/
inductive Linked (f g : String → Option Hook) : Bool → Prop
  | same {whole : Bool} (inherited : inherited g = inherited f)
      (consumed : consumed g = consumed f) :
      Linked f g whole
  | sown {p q : String} (new : f q = none)
      (inherited : inherited g = Function.update (inherited f) q (some p))
      (consumed : consumed g = consumed f) : Linked f g false
  | completed {p q : String} (inherits : Rack.inherited f q = some p)
      (free : Rack.consumed f p = none)
      (inherited : inherited g = inherited f)
      (consumed : consumed g = Function.update (consumed f) p (some q)) : Linked f g true
  | linked {p q : String} (ne : p ≠ q) (new : f q = none) (free : Rack.consumed f p = none)
      (inherited : inherited g = Function.update (inherited f) q (some p))
      (consumed : consumed g = Function.update (consumed f) p (some q)) : Linked f g true

/-- A hook that is written anew with its links as they were leaves all links as they were. -/
theorem linked_update {id : String} {hook : Hook} {whole : Bool}
    (hinherited : inherited f id = hook.inheritedFrom)
    (hconsumed : consumed f id = hook.consumedBy) :
    Linked f (Function.update f id (some hook)) whole := by
  refine .same ?_ ?_
  · rw [inherited_update, ← hinherited, Function.update_eq_self]
  · rw [consumed_update, ← hconsumed, Function.update_eq_self]

theorem Edited.linked (h : r.Edited c f g) : Linked f g c.ask.isWhole := by
  have hfresh : ∀ {p q before now}, f q = none →
      inherited (Function.update f q (some (seeded before p q now)))
          = Function.update (inherited f) q (some p) ∧
        consumed (Function.update f q (some (seeded before p q now))) = consumed f := by
    intro p q before now hnew
    refine ⟨inherited_update .., ?_⟩
    rw [consumed_update, Function.update_eq_self_iff, consumed, hnew]
    rfl
  cases h with
  | same answer => exact .same rfl rfl
  | created ask new =>
      exact linked_update (by rw [inherited, new]; rfl) (by rw [consumed, new]; rfl)
  | updated ask old =>
      exact linked_update (by rw [inherited, old]; rfl) (by rw [consumed, old]; rfl)
  | @resumed p q before g ask answer ne old free sown =>
      have hfree : consumed f p = none := by rw [consumed, old, Option.bind_some, free]
      have hkept : inherited (Function.update g p (some { before with consumedBy := some q }))
          = inherited g := by
        rw [inherited_update, Function.update_eq_self_iff, inherited, sown.of_ne ne, old,
          Option.bind_some]
      rw [ask]
      cases sown with
      | fresh new =>
          have hlinks := @hfresh p q before (c.host.clock 0) new
          exact .linked ne new hfree (hkept.trans hlinks.1) (by rw [consumed_update, hlinks.2])
      | again succ inherits =>
          refine .completed (q := q) ?_ hfree hkept (consumed_update ..)
          rw [inherited, succ, Option.bind_some, inherits]
  | stopped ask answer ne old free sown =>
      rw [ask]
      cases sown with
      | fresh new => exact .sown new (hfresh new).1 (hfresh new).2
      | again succ inherits => exact .same rfl rfl

theorem Linked.lineage (h : Linked f g true) (hf : Lineage f) : Lineage g := by
  cases h with
  | same inherited consumed =>
      exact ⟨by rw [inherited, consumed]; exact hf.inverse, by rw [inherited]; exact hf.ranked⟩
  | completed inherits free =>
      rw [hf.inverse, free] at inherits
      cases inherits
  | linked ne new free inherited consumed => exact hf.link ne new free inherited consumed

/-- A hook that inherits does so for ever, whether calls are stopped or not. -/
theorem Linked.inherited {whole : Bool} (h : Linked f g whole) (hlink : inherited f b = some a) :
    inherited g b = some a := by
  have hold : ∀ {q}, f q = none → b ≠ q := by
    rintro q hnew rfl
    rw [Rack.inherited, hnew] at hlink
    cases hlink
  cases h with
  | same inherited => rw [inherited, hlink]
  | sown new inherited => rw [inherited, Function.update_of_ne (hold new), hlink]
  | completed _ _ inherited => rw [inherited, hlink]
  | linked _ new _ inherited => rw [inherited, Function.update_of_ne (hold new), hlink]

/-- A hook that has been consumed stays so, by the same successor. -/
theorem Linked.consumed {whole : Bool} (h : Linked f g whole) (hlink : consumed f a = some b) :
    consumed g a = some b := by
  have hold : ∀ {p}, Rack.consumed f p = none → a ≠ p := by
    rintro p hfree rfl
    rw [hlink] at hfree
    cases hfree
  cases h with
  | same _ consumed => rw [consumed, hlink]
  | sown _ _ consumed => rw [consumed, hlink]
  | completed _ free _ consumed => rw [consumed, Function.update_of_ne (hold free), hlink]
  | linked _ _ free _ consumed => rw [consumed, Function.update_of_ne (hold free), hlink]

/-- What a call of `resume` that goes through leaves where all calls before it were whole: a hook
of the successor that says what the one of the predecessor said, which is what is told. -/
theorem Edited.told (h : r.Edited c f g) (hf : Lineage f) {brief : String}
    (hask : c.ask = .resume a b)
    (hanswer : c.answer r = .told (.ok brief)) :
    ∃ before hook, f a = some before ∧ brief = before.brief ∧ g b = some hook ∧
      hook.phase = before.phase ∧ hook.workSummary = before.workSummary ∧
      hook.instructions = before.instructions := by
  cases h with
  | same answer => exact absurd hanswer (answer brief)
  | created ask => rw [hask] at ask; cases ask
  | updated ask => rw [hask] at ask; cases ask
  | stopped ask => rw [hask] at ask; cases ask
  | @resumed p q before g ask answer ne old free sown =>
      have hbrief :
          brief = before.brief := Except.ok.inj (Answer.told.inj (hanswer.symm.trans answer))
      rw [hask] at ask
      cases ask
      cases sown with
      | fresh new =>
          refine ⟨before, seeded before a b (c.host.clock 0), old, hbrief, ?_, rfl, rfl, rfl⟩
          rw [Function.update_of_ne ne.symm, Function.update_self]
      | again succ inherits =>
          have hlink : inherited f b = some a := by rw [inherited, succ, Option.bind_some, inherits]
          rw [hf.inverse, consumed, old, Option.bind_some, free] at hlink
          cases hlink

/-! ### Runs -/

/-- After every run that begins with no hooks and whose calls are not stopped halfway the hooks
have a lineage. Whatever calls come after it, a link that has been made stays, a call changes at
most the hooks it names, and one that goes on with the work of another worker hands over what
that worker's hook says at that moment. -/
theorem run_lineage (hs : r.Shows s fun _ => none) (hrun : r.Run s cs t)
    (hwhole : ∀ c ∈ cs, c.ask.isWhole) :
    ∃ f, r.Shows t f ∧ (∀ a b, inherited f b = some a ↔ consumed f a = some b) ∧
      (∀ id, ¬Relation.TransGen (fun b a => inherited f b = some a) id id) ∧
      (∀ ds u, r.Run t ds u → ∃ g, r.Shows u g ∧
        (∀ a b, inherited f b = some a → inherited g b = some a) ∧
        ∀ a b, consumed f a = some b → consumed g a = some b) ∧
      ∀ ask host, ∃ g, r.Shows (r.reply host t ask).2 g ∧ (∀ id ∉ ask.named, g id = f id) ∧
        ∀ a b brief, ask = .resume a b → (r.reply host t ask).1 = .told (.ok brief) →
          ∃ before hook, f a = some before ∧ brief = before.brief ∧ g b = some hook ∧
            hook.phase = before.phase ∧ hook.workSummary = before.workSummary ∧
            hook.instructions = before.instructions := by
  obtain ⟨f, hf, hlineage⟩ := hs.run lineage_none hrun fun c hc f g hf hedited => by
    have hlinked := hedited.linked
    rw [hwhole c hc] at hlinked
    exact hlinked.lineage hf
  refine ⟨f, hf, hlineage.inverse, hlineage.acyclic, fun ds u hlater => ?_, fun ask host => ?_⟩
  · have hkept : (∀ a b, inherited f b = some a → inherited f b = some a) ∧
        ∀ a b, consumed f a = some b → consumed f a = some b := ⟨fun _ _ h => h, fun _ _ h => h⟩
    exact hf.run hkept hlater fun c _ g g' hg hedited =>
      ⟨fun a b h => hedited.linked.inherited (hg.1 a b h),
        fun a b h => hedited.linked.consumed (hg.2 a b h)⟩
  · obtain ⟨g, hg, hedited⟩ := Shows.turned (c := ⟨ask, host, t⟩) hf
    exact ⟨g, hg, fun id hid => hedited.of_not_mem hid,
      fun a b brief hask hanswer => hedited.told hlineage hask hanswer⟩

/-! ### A rack in use -/

def plainRack : Rack := ⟨"hooks", .standard⟩

/-- A store in which nothing hangs in the rack; two locks have been used. -/
def rackStore : Store where
  entries := [(["home", "hooks"], .directory),
    (["home", "hooks", "a.json.lock"], .file .empty default),
    (["home", "hooks", "b.json.lock"], .file .empty default)]

theorem shows_rackStore : plainRack.Shows rackStore fun _ => none where
  holds := by
    intro key hkey bytes modified hat
    have hmem := Store.mem_entries_of_file hat
    simp only [rackStore, List.mem_cons, Prod.mk.injEq, List.not_mem_nil, or_false, reduceCtorEq,
      and_false, false_or] at hmem
    have hlocks : ∀ name ∈ ["a.json.lock", "b.json.lock"],
        rackStore.place (recordFile "hooks" key) ≠ ["home", "hooks", name] := by
      intro name hname
      exact Store.place_recordFile_ne hkey (by revert name; decide)
    rcases hmem with ⟨hplace, -⟩ | ⟨hplace, -⟩
    · exact hlocks "a.json.lock" (by decide) hplace
    · exact hlocks "b.json.lock" (by decide) hplace
  isKey := nofun
  writable := nofun

def hungTurn : Turn := ⟨.create "a" .planning, .idle, rackStore⟩

theorem run_hungTurn : plainRack.Run rackStore [hungTurn] (hungTurn.after plainRack) :=
  Run.start.call (.create "a" .planning) .idle

/-- The second worker can go on with the work of the first one, and it can be stopped. -/
theorem resumes_hungTurn : ∃ before u v f g,
    plainRack.Shows (hungTurn.after plainRack) f ∧ consumed f "a" = none ∧
    plainRack.reply .idle (hungTurn.after plainRack) (.stop "a" "b") = (.stopped (.ok before), u) ∧
    plainRack.reply .idle (hungTurn.after plainRack) (.resume "a" "b")
      = (.told (.ok before.brief), v) ∧
    plainRack.Shows v g ∧ inherited g "b" = some "a" := by
  have hcan : (hungTurn.after plainRack).CanReplace (recordFile "hooks" "b") :=
    @Store.canReplace_of_landing _ _ (by decide +kernel) [] ["home", "hooks", "b.json"] (by rfl)
      (by rfl)
  have hmissing : (hungTurn.after plainRack).readBytes (recordFile "hooks" "b")
      = .error .notFound := by
    rfl
  have hlock : ∀ {id}, isFileKey id → rackStore.Found (plainRack.lock id) →
      (hungTurn.after plainRack).Found (plainRack.lock id) :=
    fun hid => found_lock_of_turn hungTurn hid
  have ha := @hlock "a" (by decide) ⟨.empty, default, by rfl⟩
  have hb := @hlock "b" (by decide) ⟨.empty, default, by rfl⟩
  rcases shows_rackStore.perform_create "a" .planning .idle with
    ⟨err, t, hperform, -⟩ | ⟨t, -, -, hperform, ht⟩
  · have hok : (plainRack.create "a" .planning).perform .idle rackStore
        = (.ok ⟨"a", .planning, "", (Instant.mk 0 0).stamp, none, none, none⟩,
          hungTurn.after plainRack) := by rfl
    rw [hok] at hperform
    cases hperform
  · obtain rfl : hungTurn.after plainRack = t := congrArg Prod.snd hperform
    obtain ⟨u, hseed, hu⟩ :=
      ht.perform_seed_fresh (p := "a") (q := "b") (Function.update_self ..) rfl
      (by decide) hmissing hcan .idle
    obtain ⟨hstop, v, hresume, hv⟩ := hu.perform_resume_of_seed (p := "a") (q := "b") (by decide)
      (by decide) (by decide) ha hb (by simp [Host.idle]) (by simp [Host.idle])
      (by rw [Function.update_of_ne (by decide), Function.update_self]) hseed
    refine ⟨_, u, v, _, _, ht, ?_, by rw [reply, hstop], by rw [reply, hresume], hv, ?_⟩
    · rw [consumed_update, Function.update_self]
    · rw [inherited_update, Function.update_of_ne (by decide), inherited_update,
        Function.update_self]
      rfl

theorem run_lineage_rackStore : ∃ cs t f brief, plainRack.Shows rackStore (fun _ => none) ∧
    plainRack.Run rackStore cs t ∧ (∀ c ∈ cs, c.ask.isWhole) ∧
    cs.map (·.ask) = [.create "a" .planning, .resume "a" "b"] ∧
    (∃ c ∈ cs, c.answer plainRack = .told (.ok brief)) ∧ plainRack.Shows t f ∧
    inherited f "b" = some "a" ∧ (∀ a b, inherited f b = some a ↔ consumed f a = some b) ∧
    ∀ id, ¬Relation.TransGen (fun b a => inherited f b = some a) id id := by
  obtain ⟨before, u, v, f, g, -, -, -, hresume, hg, hlink⟩ := resumes_hungTurn
  obtain ⟨hanswer, hleft⟩ :=
    Turn.of_ask (c := ⟨.resume "a" "b", .idle, hungTurn.after plainRack⟩) rfl hresume
  have hrun := run_hungTurn.call (.resume "a" "b") .idle
  rw [hleft] at hrun
  have hwhole : ∀ c ∈ [hungTurn, ⟨.resume "a" "b", .idle, hungTurn.after plainRack⟩],
      c.ask.isWhole := by
    intro c hc
    rcases List.mem_pair.mp hc with rfl | rfl <;> rfl
  obtain ⟨f', hf', hinverse, hacyclic, -⟩ := run_lineage shows_rackStore hrun hwhole
  obtain rfl := hf'.unique hg
  exact ⟨_, v, f', before.brief, shows_rackStore, hrun, hwhole, rfl,
    ⟨_, List.mem_pair.mpr (.inr rfl), hanswer⟩, hf', hlink, hinverse, hacyclic⟩

end Pipewright.Rack

/-!
## Going on exactly once

The process may stop between the two writes of `resume`, after any such call and
any number of times. All the same nobody's work is gone on with twice: a call
goes through only where the hook of the predecessor has not been consumed, it
leaves that hook consumed, and a hook that is consumed stays so.

A call that was stopped can be made again. As long as its two hooks are left
alone the second call goes through, tells what the first one would have told, and
leaves what it would have left.
-/

namespace Pipewright.Rack

variable {r : Rack} {c : Turn} {cs ds : List Turn} {s t u v : Store} {f g : String → Option Hook}
  {id p q : String}

/-! ### At most once -/

/-- In the turn somebody goes on with the work of the predecessor. -/
def Turn.goesOn (c : Turn) (r : Rack) (p : String) : Bool :=
  match c.ask, c.answer r with
  | .resume p' _, .told (.ok _) => p' = p
  | _, _ => false

/-- Who goes on consumes the hook of the predecessor, which was not consumed before. -/
theorem Edited.goesOn (h : r.Edited c f g) (hgo : c.goesOn r p) :
    consumed f p = none ∧ consumed g p ≠ none := by
  rw [Turn.goesOn] at hgo
  cases h with
  | same answer =>
      split at hgo
      · next p' q brief hask hanswer => exact absurd hanswer (answer brief)
      · cases hgo
  | created ask => rw [ask] at hgo; cases hgo
  | updated ask => rw [ask] at hgo; cases hgo
  | stopped ask => rw [ask] at hgo; cases hgo
  | resumed ask answer ne old free sown =>
      rw [ask, answer] at hgo
      obtain rfl := of_decide_eq_true hgo
      refine ⟨by rw [consumed, old, Option.bind_some, free], ?_⟩
      rw [consumed_update, Function.update_self]
      exact Option.some_ne_none _

/-- Over a run the work of a predecessor is gone on with at most once, and if it is its hook is
consumed. -/
theorem Shows.run_goesOn (hs : r.Shows s f) (hrun : r.Run s cs t) (p : String) :
    ∃ g, r.Shows t g ∧ (cs.filter (·.goesOn r p)).length ≤ 1 ∧
      (cs.filter (·.goesOn r p) ≠ [] → consumed g p ≠ none) := by
  induction hrun with
  | start => exact ⟨f, hs, Nat.zero_le _, fun h => absurd rfl h⟩
  | @call cs t run ask host ih =>
      obtain ⟨g, hg, hcount, hconsumed⟩ := ih
      obtain ⟨g', hg', hedited⟩ := Shows.turned (c := ⟨ask, host, t⟩) hg
      refine ⟨g', hg', ?_⟩
      rw [List.filter_append, List.length_append]
      cases hgo : (⟨ask, host, t⟩ : Turn).goesOn r p with
      | true =>
          obtain ⟨hbefore, hafter⟩ := hedited.goesOn hgo
          have hnone : cs.filter (·.goesOn r p) = [] := by
            by_contra hsome
            exact hconsumed hsome hbefore
          rw [hnone]
          exact ⟨by simp [hgo], fun _ => hafter⟩
      | false =>
          have hnone : [(⟨ask, host, t⟩ : Turn)].filter (·.goesOn r p) = [] := by simp [hgo]
          rw [hnone, List.append_nil]
          refine ⟨hcount, fun hsome => ?_⟩
          obtain ⟨b, hb⟩ := Option.ne_none_iff_exists'.mp (hconsumed hsome)
          rw [hedited.linked.consumed hb]
          nofun

/-! ### Once more -/

/-- Two hooks and their lock files are there after calls on other hooks. -/
theorem Shows.run_aside (hs : r.Shows s f) (hp : isFileKey p) (hq : isFileKey q)
    (hrun : r.Run s ds t) (hothers : ∀ c ∈ ds, p ∉ c.ask.named ∧ q ∉ c.ask.named)
    (hfound : s.Found (r.lock p)) (hfound' : s.Found (r.lock q)) :
    ∃ g, r.Shows t g ∧ g p = f p ∧ g q = f q ∧ t.Found (r.lock p) ∧ t.Found (r.lock q) := by
  induction hrun with
  | start => exact ⟨f, hs, rfl, rfl, hfound, hfound'⟩
  | @call cs t run ask host ih =>
      obtain ⟨g, hg, hgp, hgq, hlock, hlock'⟩ :=
        ih fun c hc => hothers c (List.mem_append_left _ hc)
      obtain ⟨g', hg', hedited⟩ := Shows.turned (c := ⟨ask, host, t⟩) hg
      obtain ⟨hnp, hnq⟩ := hothers ⟨ask, host, t⟩ (by simp)
      exact ⟨g', hg', (hedited.of_not_mem hnp).trans hgp, (hedited.of_not_mem hnq).trans hgq,
        found_lock_of_turn _ hp hlock, found_lock_of_turn _ hq hlock'⟩

/-- The hook is the same, apart from when it was written. -/
def SameWork (x y : Hook) : Prop := x = { y with lastCheckpointAt := x.lastCheckpointAt }

/-- The first write leaves the same hook of the successor at whatever time it is made. -/
theorem Sown.same {g' : String → Option Hook} {before : Hook} {now now' : Instant}
    (h : Sown p q before now f g) (h' : Sown p q before now' f g') :
    ∃ x y, g q = some x ∧ g' q = some y ∧ SameWork x y := by
  cases h with
  | fresh new =>
      cases h' with
      | fresh =>
          exact ⟨_, _, Function.update_self .., Function.update_self .., rfl⟩
      | again old => rw [new] at old; cases old
  | @again hook old inherits =>
      cases h' with
      | fresh new => rw [new] at old; cases old
      | again => exact ⟨hook, hook, old, old, rfl⟩

/-- A call that goes through from a rack tells the work of the predecessor, and it leaves the hooks
that the first write of another call there and the second would leave. -/
theorem Shows.resume_same {before : Hook} {now : Instant} {host : Host} {brief : String}
    (hs : r.Shows s f) (hold : f p = some before) (hsown : Sown p q before now f g)
    (hresume : r.reply host s (.resume p q) = (.told (.ok brief), t)) :
    brief = before.brief ∧ ∃ g' x y, r.Shows t g' ∧
      some { before with consumedBy := some q } = g' p ∧
      g q = some x ∧ g' q = some y ∧ SameWork x y := by
  rcases hs.perform_resume p q host with
    ⟨err, u, hperform, hrefused, -⟩ |
    ⟨before', g', u, t', hne, hold', -, hsown', -, -, -, -, hwhole, ht'⟩
  · rw [reply, hrefused] at hresume
    cases hresume
  · rw [reply, hwhole] at hresume
    obtain ⟨hanswer, rfl⟩ := Prod.mk.inj hresume
    obtain rfl : before = before' := Option.some.inj (hold.symm.trans hold')
    obtain ⟨x, y, hx, hy, hsame⟩ := hsown.same hsown'
    refine ⟨(Except.ok.inj (Answer.told.inj hanswer)).symm, _, x, y, ht', ?_, hx, ?_, hsame⟩
    · rw [Function.update_self]
    · rw [Function.update_of_ne hne.symm, hy]

/-- After every run, whatever hooks it begins with, and in which calls may have been stopped
halfway, the work of a hook has been gone on with at most once. A call that is stopped halfway and
made again, before another call on its two hooks and while their locks are free, goes through; it
tells what the call would have told, and leaves what it would have left, whenever it had been made.
-/
theorem run_resumption (hs : r.Shows s f) (hrun : r.Run s cs t) (p : String) :
    (cs.filter (·.goesOn r p)).length ≤ 1 ∧
    ∀ q host before u, r.reply host t (.stop p q) = (.stopped (.ok before), u) →
      (∃ w, r.reply host t (.resume p q) = (.told (.ok before.brief), w)) ∧
      ∀ ds v, r.Run u ds v → (∀ c ∈ ds, p ∉ c.ask.named ∧ q ∉ c.ask.named) →
        ∀ host', v.place (r.lock p) ∉ host'.held → v.place (r.lock q) ∉ host'.held →
          ∃ w g, r.reply host' v (.resume p q) = (.told (.ok before.brief), w) ∧ r.Shows w g ∧
            ∀ host'' brief w', r.reply host'' t (.resume p q) = (.told (.ok brief), w') →
              brief = before.brief ∧ ∃ g' x y, r.Shows w' g' ∧ g p = g' p ∧ g q = some x ∧
                g' q = some y ∧ SameWork x y := by
  obtain ⟨f₀, hf, hcount, -⟩ := hs.run_goesOn hrun p
  refine ⟨hcount, fun q host before u hstop => ?_⟩
  rcases hf.perform_resume p q host with
    ⟨err, u', hperform, -⟩ |
    ⟨before', g, u', w, hne, hold, hfree, hsown, hperform, hu, hfound, hfound', hwhole, -⟩
  · rw [reply, hperform] at hstop
    cases hstop
  · rw [reply, hperform] at hstop
    obtain ⟨hanswer, rfl⟩ := Prod.mk.inj hstop
    obtain rfl : before' = before := Except.ok.inj (Answer.stopped.inj hanswer)
    refine ⟨⟨w, by rw [reply, hwhole]⟩, fun ds v hlater hothers host' hlock hlock' => ?_⟩
    obtain ⟨hook, hsuccessor, hinherits⟩ := hsown.successor
    have hp := hf.isKey p before' hold
    have hq := hu.isKey q hook hsuccessor
    obtain ⟨g₁, hg₁, hgp, hgq, hthere, hthere'⟩ := hu.run_aside hp hq hlater hothers hfound hfound'
    have hbefore : g₁ p = some before' := by rw [hgp, hsown.of_ne hne, hold]
    obtain ⟨-, w₁, hagain, hw₁⟩ := hg₁.perform_resume_of_seed hp hq hne hthere hthere' hlock hlock'
      hbefore fun held => hg₁.perform_seed_again hbefore hfree (hgq.trans hsuccessor) hinherits _
    refine ⟨w₁, _, by rw [reply, hagain], hw₁, fun host'' brief w' hother => ?_⟩
    obtain ⟨hbrief, g₂, x, y, hw', hsame⟩ := hf.resume_same hold hsown hother
    refine ⟨hbrief, g₂, x, y, hw', ?_⟩
    rwa [Function.update_self, Function.update_of_ne hne.symm, hgq]

/-- The second worker is stopped halfway and goes on when it asks again, and a third one that asks
for the same work does not. -/
theorem run_resumption_rackStore : ∃ before u w t f cs,
    plainRack.Shows rackStore (fun _ => none) ∧ plainRack.Run rackStore cs t ∧
    cs = [hungTurn, ⟨.stop "a" "b", .idle, hungTurn.after plainRack⟩, ⟨.resume "a" "b", .idle, u⟩,
      ⟨.resume "a" "c", .idle, w⟩] ∧
    cs.filter (·.goesOn plainRack "a") = [⟨.resume "a" "b", .idle, u⟩] ∧
    plainRack.Shows (hungTurn.after plainRack) f ∧
    plainRack.reply .idle (hungTurn.after plainRack) (.stop "a" "b") = (.stopped (.ok before), u) ∧
    plainRack.reply .idle u (.resume "a" "b") = (.told (.ok before.brief), w) := by
  obtain ⟨before, u, v, f, g, hf, -, hstop, -⟩ := resumes_hungTurn
  -- What comes of asking again is told from the rack in which the first hook hangs already.
  obtain ⟨-, hagain⟩ := run_resumption hf .start "a"
  obtain ⟨w, -, hresume, -⟩ := (hagain "b" .idle before u hstop).2 [] u .start (by simp) .idle
    (by simp [Host.idle]) (by simp [Host.idle])
  obtain ⟨-, hleft⟩ :=
    Turn.of_ask (c := ⟨.stop "a" "b", .idle, hungTurn.after plainRack⟩) rfl hstop
  have hstopped := run_hungTurn.call (.stop "a" "b") .idle
  rw [hleft] at hstopped
  obtain ⟨hanswer, hleft'⟩ := Turn.of_ask (c := ⟨.resume "a" "b", .idle, u⟩) rfl hresume
  have hresumed := hstopped.call (.resume "a" "b") .idle
  rw [hleft'] at hresumed
  have hrun := hresumed.call (.resume "a" "c") .idle
  have hgo : (⟨.resume "a" "b", .idle, u⟩ : Turn).goesOn plainRack "a" = true := by
    rw [Turn.goesOn, hanswer]
    rfl
  obtain ⟨hcount, -⟩ := run_resumption shows_rackStore hrun "a"
  simp only [List.cons_append, List.nil_append] at hrun hcount
  have hmem : (⟨.resume "a" "b", .idle, u⟩ : Turn) ∈ List.filter (·.goesOn plainRack "a")
      [hungTurn, ⟨.stop "a" "b", .idle, hungTurn.after plainRack⟩, ⟨.resume "a" "b", .idle, u⟩,
        ⟨.resume "a" "c", .idle, w⟩] := List.mem_filter.mpr ⟨by simp, hgo⟩
  obtain ⟨c, hc⟩ := List.length_eq_one_iff.mp
    (Nat.le_antisymm hcount (List.length_pos_of_mem hmem))
  refine ⟨before, u, w, _, f, _, shows_rackStore, hrun, rfl, ?_, hf, hstop, hresume⟩
  rw [hc] at hmem
  rw [hc, List.mem_singleton.mp hmem]

end Pipewright.Rack
