import Pipewright.Proofs.Identity.Calls

/-!
# Runs of a registry

Turns of a registry, the runs that they form, and what holds of the identities over a run.
-/

/-!
## Turns and runs of a registry

A turn is one call: what is asked, the process that asks, and the store it finds.
All calls of a registry answer an identity or an error. `Edited` lists what a
turn can do to the identities: it enters a new one, or it says something new of
one that is active, when it was seen last or where it stands, or it changes
nothing. `Standing.turned` goes through the calls.
-/

namespace Pipewright.Registry

open Pipewright.Action

/-! ### Calls of a registry -/

/-- What is asked of a registry. -/
inductive Ask where
  | register (role name : String) (more : Particulars)
  | heartbeat (role name : String)
  | heartbeatId (id : String)
  | markCrashed (id : String)
  | markTerminated (id : String)
  deriving DecidableEq, Repr

def call (r : Registry) : Ask → Action Identity
  | .register role name more => r.register role name more
  | .heartbeat role name => r.heartbeat role name
  | .heartbeatId id => r.heartbeatId id
  | .markCrashed id => r.finish id .crashed
  | .markTerminated id => r.finish id .terminated

structure Turn where
  ask : Ask
  host : Host
  before : Store

namespace Turn

def answer (c : Turn) (r : Registry) : Except Error Identity :=
  ((r.call c.ask).perform c.host c.before).1

def after (c : Turn) (r : Registry) : Store := ((r.call c.ask).perform c.host c.before).2

def registered? (c : Turn) (r : Registry) : Option Identity :=
  match c.ask, c.answer r with
  | .register .., .ok i => some i
  | _, _ => none

end Turn

/-- The turns that a registry takes from a store on, and the store they lead to. -/
inductive Run (r : Registry) (s : Store) : List Turn → Store → Prop
  | start : Run r s [] s
  | call {cs : List Turn} {t : Store} (run : Run r s cs t) (ask : Ask) (host : Host) :
      Run r s (cs ++ [⟨ask, host, t⟩]) ((⟨ask, host, t⟩ : Turn).after r)

def registered (r : Registry) (cs : List Turn) : List Identity := cs.filterMap (·.registered? r)

theorem registered_append (r : Registry) (cs ds : List Turn) :
    r.registered (cs ++ ds) = r.registered cs ++ r.registered ds :=
  List.filterMap_append

theorem registered_singleton (r : Registry) (c : Turn) :
    r.registered [c] = (c.registered? r).toList := by
  rw [registered, List.filterMap_cons]
  cases c.registered? r <;> rfl

variable {r : Registry} {c : Turn} {s t : Store} {f g : String → Option Identity}

/-! ### One turn -/

/-- What a turn does to the identities. -/
inductive Edited (r : Registry) (c : Turn) (f : String → Option Identity) :
    (String → Option Identity) → Prop
  | kept (not_registered : c.registered? r = none) : Edited r c f f
  | entered {i : Identity} (registered : c.registered? r = some i)
      (free : ∀ key j, f key = some j → ¬(j.isActive ∧ j.role = i.role ∧ j.name = i.name))
      (known : ∀ p, i.predecessor = some p → ∃ j, f p = some j) :
      Edited r c f (Function.update f i.id (some i))
  | renewed {i j : Identity} (not_registered : c.registered? r = none)
      (answer : c.answer r = .ok j) (old : f i.id = some i) (active : i.isActive)
      (same : i.SameAs j) : Edited r c f (Function.update f i.id (some j))

theorem Turn.answer_of_registered {i : Identity} (h : c.registered? r = some i) :
    c.answer r = .ok i := by
  rw [Turn.registered?] at h
  split at h
  · rename_i j _ hanswer
    obtain rfl := Option.some.inj h
    exact hanswer
  · cases h

theorem Edited.of_error (h : r.Edited c f g) {err : Error} (hanswer : c.answer r = .error err) :
    g = f := by
  cases h with
  | kept => rfl
  | entered registered =>
    rw [Turn.answer_of_registered registered] at hanswer
    cases hanswer
  | renewed _ answer =>
    rw [answer] at hanswer
    cases hanswer

theorem Renews.turned (h : r.Renews f (r.call c.ask) c.host c.before)
    (hnone : c.registered? r = none) : ∃ g, r.Standing (c.after r) g ∧ r.Edited c f g := by
  rcases h with ⟨err, t, hperform, ht⟩ | ⟨i, j, t, hperform, hold, hactive, hsame, ht⟩
  · refine ⟨f, ?_, .kept hnone⟩
    rwa [Turn.after, hperform]
  · have hanswer : c.answer r = .ok j := by rw [Turn.answer, hperform]
    refine ⟨_, ?_, .renewed hnone hanswer hold hactive hsame⟩
    rwa [Turn.after, hperform]

theorem Standing.turned (hs : r.Standing c.before f) :
    ∃ g, r.Standing (c.after r) g ∧ r.Edited c f g := by
  have hfinish : ∀ id status, r.call c.ask = r.finish id status → c.registered? r = none →
      ∃ g, r.Standing (c.after r) g ∧ r.Edited c f g := by
    intro id status hcall hnone
    rcases hs.perform_finish id status c.host with hrenews | ⟨i, t, hperform, ht⟩
    · rw [← hcall] at hrenews
      exact hrenews.turned hnone
    · refine ⟨f, ?_, .kept hnone⟩
      rwa [Turn.after, hcall, hperform]
  cases hask : c.ask with
  | register role name more =>
    have hcall : r.call c.ask = r.register role name more := by rw [hask]; rfl
    rcases hs.perform_register role name more c.host with
      ⟨err, t, hperform, ht⟩ | ⟨i, t, hperform, ht, hfree, hknown⟩
    · have hanswer : c.answer r = .error err := by rw [Turn.answer, hcall, hperform]
      refine ⟨f, ?_, .kept (by rw [Turn.registered?, hask, hanswer])⟩
      rwa [Turn.after, hcall, hperform]
    · have hanswer : c.answer r = .ok i := by rw [Turn.answer, hcall, hperform]
      refine ⟨_, ?_, .entered (by rw [Turn.registered?, hask, hanswer]) hfree hknown⟩
      rwa [Turn.after, hcall, hperform]
  | heartbeat role name =>
    have hrenews := hs.perform_heartbeat role name c.host
    refine Renews.turned ?_ (by rw [Turn.registered?, hask])
    rwa [hask, call]
  | heartbeatId id =>
    have hrenews := hs.perform_heartbeatId id c.host
    refine Renews.turned ?_ (by rw [Turn.registered?, hask])
    rwa [hask, call]
  | markCrashed id => exact hfinish id .crashed (by rw [hask]; rfl) (by rw [Turn.registered?, hask])
  | markTerminated id =>
    exact hfinish id .terminated (by rw [hask]; rfl) (by rw [Turn.registered?, hask])

end Pipewright.Registry

/-!
## Conduct of a registry

Identities are found by role and name or by id, and what is said of them is
written by writing them whole. Still no call does more to an identity than its
purpose is (`run_conduct`). What carries this over a run is `Orderly`: the
identities that are shown are the ones that have been entered, apart from when
they were seen last and where they stand, no two active ones have one role and
one name, and the predecessor of each was entered before it.

An id ends in random digits. That they never make an id a second time is
assumed: a registry does not look whether an id is taken.
-/

namespace Pipewright.Registry

open Pipewright.Action

variable {r : Registry} {c : Turn} {cs ds : List Turn} {s t : Store}
  {f g : String → Option Identity}
  {is js : List Identity} {i j : Identity} {key : String}

/-! ### Order -/

/-- These identities have been entered, in this order, and are shown. -/
structure Orderly (is : List Identity) (f : String → Option Identity) : Prop where
  unique : ∀ a b i j, f a = some i → f b = some j → i.isActive → j.isActive → i.role = j.role →
    i.name = j.name → a = b
  shown : ∀ i ∈ is, ∃ j, f i.id = some j ∧ i.SameAs j
  known : ∀ key j, f key = some j → ∃ i ∈ is, i.id = key ∧ i.SameAs j
  earlier : ∀ front i back, is = front ++ i :: back → ∀ p, i.predecessor = some p →
    p ∈ front.map (·.id)

theorem orderly_nil : Orderly [] fun _ => none where
  unique := fun _ _ _ _ hi => by cases hi
  shown := by simp
  known := by
    intro key j hj
    cases hj
  earlier := by simp

theorem Orderly.free_of_nodup (h : Orderly is f) (hids : ((is ++ [i]).map (·.id)).Nodup) :
    f i.id = none := by
  cases hf : f i.id with
  | none => rfl
  | some j =>
    obtain ⟨k, hk, hid, -⟩ := h.known i.id j hf
    rw [List.map_append, List.nodup_append] at hids
    exact absurd hid (hids.2.2 _ (List.mem_map_of_mem hk) _ (List.mem_singleton_self _))

/-- One more identity is entered, under an id that none has. -/
theorem Orderly.enter (h : Orderly is f) (hids : ((is ++ [i]).map (·.id)).Nodup)
    (hfree : ∀ key j, f key = some j → ¬(j.isActive ∧ j.role = i.role ∧ j.name = i.name))
    (hknown : ∀ p, i.predecessor = some p → ∃ j, f p = some j) :
    Orderly (is ++ [i]) (Function.update f i.id (some i)) where
  unique := by
    intro a b j k hj hk hjactive hkactive hrole hname
    by_cases ha : a = i.id <;> by_cases hb : b = i.id
    · rw [ha, hb]
    · rw [ha, Function.update_self] at hj
      rw [Function.update_of_ne hb] at hk
      obtain rfl := Option.some.inj hj
      exact absurd ⟨hkactive, hrole.symm, hname.symm⟩ (hfree b k hk)
    · rw [Function.update_of_ne ha] at hj
      rw [hb, Function.update_self] at hk
      obtain rfl := Option.some.inj hk
      exact absurd ⟨hjactive, hrole, hname⟩ (hfree a j hj)
    · rw [Function.update_of_ne ha] at hj
      rw [Function.update_of_ne hb] at hk
      exact h.unique a b j k hj hk hjactive hkactive hrole hname
  shown := by
    intro j hj
    rcases List.mem_append.mp hj with hold | hnew
    · obtain ⟨k, hk, hsame⟩ := h.shown j hold
      have hne : j.id ≠ i.id := by
        intro heq
        rw [heq, h.free_of_nodup hids] at hk
        cases hk
      exact ⟨k, by rw [Function.update_of_ne hne, hk], hsame⟩
    · obtain rfl := List.mem_singleton.mp hnew
      exact ⟨j, Function.update_self .., .refl j⟩
  known := by
    intro key j hj
    by_cases hkey : key = i.id
    · rw [hkey, Function.update_self] at hj
      obtain rfl := Option.some.inj hj
      exact ⟨i, List.mem_append_right _ (List.mem_singleton_self i), hkey.symm, .refl i⟩
    · rw [Function.update_of_ne hkey] at hj
      obtain ⟨k, hk, hid, hsame⟩ := h.known key j hj
      exact ⟨k, List.mem_append_left _ hk, hid, hsame⟩
  earlier := by
    intro front j back hsplit p hp
    rcases List.eq_nil_or_concat back with rfl | ⟨back, last, rfl⟩
    · obtain ⟨rfl, hlast⟩ := List.append_inj' hsplit rfl
      cases hlast
      obtain ⟨k, hk⟩ := hknown p hp
      obtain ⟨k', hk', hid, -⟩ := h.known p k hk
      exact hid ▸ List.mem_map_of_mem hk'
    · rw [List.concat_eq_append, ← List.cons_append, ← List.append_assoc] at hsplit
      exact h.earlier front j back (List.append_inj' hsplit rfl).1 p hp

theorem Orderly.renew (h : Orderly is f) (hold : f i.id = some i) (hactive : i.isActive)
    (hsame : i.SameAs j) : Orderly is (Function.update f i.id (some j)) := by
  have hbefore : ∀ {key k}, Function.update f i.id (some j) key = some k →
      ∃ k', f key = some k' ∧ k'.SameAs k ∧ (k.isActive → k'.isActive) := by
    intro key k hk
    by_cases hkey : key = i.id
    · rw [hkey, Function.update_self] at hk
      obtain rfl := Option.some.inj hk
      exact ⟨i, by rw [hkey, hold], hsame, fun _ => hactive⟩
    · rw [Function.update_of_ne hkey] at hk
      exact ⟨k, hk, .refl k, id⟩
  refine ⟨fun a b k l hk hl hkactive hlactive hrole hname => ?_, fun k hk => ?_, fun key k hk => ?_,
    h.earlier⟩
  · obtain ⟨k', hk', hksame, hkact⟩ := hbefore hk
    obtain ⟨l', hl', hlsame, hlact⟩ := hbefore hl
    rw [hksame.role_eq, hlsame.role_eq] at hrole
    rw [hksame.name_eq, hlsame.name_eq] at hname
    exact h.unique a b k' l' hk' hl' (hkact hkactive) (hlact hlactive) hrole hname
  · obtain ⟨k', hk', hksame⟩ := h.shown k hk
    by_cases hkey : k.id = i.id
    · obtain rfl : i = k' := Option.some.inj (by rw [← hold, ← hkey, hk'])
      exact ⟨j, by rw [hkey, Function.update_self], hksame.trans hsame⟩
    · exact ⟨k', by rw [Function.update_of_ne hkey, hk'], hksame⟩
  · obtain ⟨k', hk', hksame, -⟩ := hbefore hk
    obtain ⟨l, hl, hid, hlsame⟩ := h.known key k' hk'
    exact ⟨l, hl, hid, hlsame.trans hksame⟩

/-! ### One turn -/

theorem Edited.orderly (h : r.Edited c f g) (hf : Orderly is f)
    (hids : ((is ++ (c.registered? r).toList).map (·.id)).Nodup) :
    Orderly (is ++ (c.registered? r).toList) g := by
  cases h with
  | kept not_registered =>
    rw [not_registered, Option.toList_none, List.append_nil]
    exact hf
  | entered registered free known =>
    rw [registered, Option.toList_some] at hids ⊢
    exact hf.enter hids free known
  | renewed not_registered _ old active same =>
    rw [not_registered, Option.toList_none, List.append_nil]
    exact hf.renew old active same

/-- A turn leaves every identity the same, and leaves one that has come to its end as it is. -/
theorem Edited.keeps (h : r.Edited c f g) (hf : Orderly is f)
    (hids : ((is ++ (c.registered? r).toList).map (·.id)).Nodup) (hi : f key = some i) :
    ∃ j, g key = some j ∧ i.SameAs j ∧ (¬i.isActive → j = i) := by
  cases h with
  | kept => exact ⟨i, hi, .refl i, fun _ => rfl⟩
  | @entered new registered =>
    rw [registered, Option.toList_some] at hids
    have hkey : key ≠ new.id := by
      rintro rfl
      rw [hf.free_of_nodup hids] at hi
      cases hi
    exact ⟨i, by rw [Function.update_of_ne hkey, hi], .refl i, fun _ => rfl⟩
  | @renewed old new _ _ hold active same =>
    by_cases hkey : key = old.id
    · obtain rfl : old = i := Option.some.inj (by rw [← hold, ← hkey, hi])
      exact ⟨new, by rw [hkey, Function.update_self], same, fun hend => absurd active hend⟩
    · exact ⟨i, by rw [Function.update_of_ne hkey, hi], .refl i, fun _ => rfl⟩

/-! ### Runs -/

/-- A run goes on from order to order, and every identity stays the same. -/
theorem Standing.run (hs : r.Standing s f) (hf : Orderly is f) (hrun : r.Run s cs t)
    (hids : ((is ++ r.registered cs).map (·.id)).Nodup) :
    ∃ g, r.Standing t g ∧ Orderly (is ++ r.registered cs) g ∧
      ∀ key i, f key = some i → ∃ j, g key = some j ∧ i.SameAs j ∧ (¬i.isActive → j = i) := by
  induction hrun with
  | start =>
    rw [registered, List.filterMap_nil, List.append_nil]
    exact ⟨f, hs, hf, fun key i hi => ⟨i, hi, .refl i, fun _ => rfl⟩⟩
  | @call cs t run ask host ih =>
    rw [registered_append, registered_singleton, ← List.append_assoc] at hids ⊢
    obtain ⟨g, hg, horder, hkept⟩ :=
      ih (hids.sublist ((List.sublist_append_left _ _).map _))
    obtain ⟨g', hg', hedited⟩ := Standing.turned (c := ⟨ask, host, t⟩) hg
    refine ⟨g', hg', hedited.orderly horder hids, fun key i hi => ?_⟩
    obtain ⟨j, hj, hsame, hend⟩ := hkept key i hi
    obtain ⟨k, hk, hsame', hend'⟩ := hedited.keeps horder hids hj
    refine ⟨k, hk, hsame.trans hsame', fun hi => ?_⟩
    obtain rfl := hend hi
    exact hend' hi

/-- What holds of the identities of a registry after every run from an empty one, for as long as no
id is made a second time. No two active ones have one role and one name. The ones that have been
entered are there, apart from when they were seen last and where they stand, and there are no
others. The predecessor of each was entered before it. Whatever calls come later, they are still
there and still the same, and one that has come to its end is what it was, its last sign of life
and where it stands included. A call that is refused changes none. -/
theorem run_conduct (hs : r.Standing s fun _ => none) (hrun : r.Run s cs t)
    (hids : ((r.registered cs).map (·.id)).Nodup) :
    ∃ f, r.Shows t f ∧
      (∀ a b i j, f a = some i → f b = some j → i.isActive → j.isActive → i.role = j.role →
        i.name = j.name → a = b) ∧
      (∀ i ∈ r.registered cs, ∃ j, f i.id = some j ∧ i.SameAs j) ∧
      (∀ key j, f key = some j → ∃ i ∈ r.registered cs, i.id = key ∧ i.SameAs j) ∧
      (∀ (front : List Identity) (i : Identity) (back : List Identity),
        r.registered cs = front ++ i :: back → ∀ p, i.predecessor = some p → p ∈ front.map (·.id)) ∧
      (∀ ds u, r.Run t ds u → ((r.registered (cs ++ ds)).map (·.id)).Nodup → ∃ g, r.Shows u g ∧
        ∀ key i, f key = some i → ∃ j, g key = some j ∧ i.SameAs j ∧ (¬i.isActive → j = i)) ∧
      ∀ ask host err, (⟨ask, host, t⟩ : Turn).answer r = .error err →
        r.Shows ((⟨ask, host, t⟩ : Turn).after r) f := by
  obtain ⟨f, hf, horder, -⟩ := hs.run orderly_nil hrun hids
  rw [List.nil_append] at horder
  refine ⟨f, hf.shows, horder.unique, horder.shown, horder.known, horder.earlier,
    fun ds u hlater hids => ?_, fun ask host err hanswer => ?_⟩
  · rw [registered_append] at hids
    obtain ⟨g, hg, -, hkept⟩ := hf.run horder hlater hids
    exact ⟨g, hg.shows, hkept⟩
  · obtain ⟨g, hg, hedited⟩ := Standing.turned (c := ⟨ask, host, t⟩) hf
    obtain rfl := hedited.of_error hanswer
    exact hg.shows

/-! ### A registry in use -/

def plainRegistry : Registry := ⟨"ids", .standard⟩

/-- A store in which the directory of the registry is, and nothing in it. -/
def registryStore : Store where
  entries := [(["home", "ids"], .directory)]

theorem standing_registryStore : plainRegistry.Standing registryStore fun _ => none where
  dir := by decide
  shows := {
    holds := by
      intro key hkey bytes modified hat
      have hmem := Store.mem_entries_of_file hat
      simp [registryStore] at hmem
    isKey := by
      intro key i hi
      cases hi
    writable := by
      intro key i hi
      cases hi }
  ids := by
    intro key i hi
    cases hi
  named := by
    intro name hname hat
    have hmade : registryStore.isDirectory
        (Store.holder plainRegistry.lockFile) := by decide +kernel
    rw [opened_of_isDirectory hmade] at hat
    have hplace : registryStore.place plainRegistry.dir ++ [name] = ["home", "ids", name] := rfl
    rw [hplace] at hat
    exact absurd rfl hat

def reportTurn : Turn := ⟨.register "worker" "ada" {}, .idle, registryStore⟩

/-- The store in which the lock of the registry has been opened. -/
def openedStore : Store := ((openLock plainRegistry.lockFile).perform .idle registryStore).2

def ada : Identity := entered "worker" "ada" {} Host.idle.fresh (Host.idle.clock 0)

theorem ada_id : ada.id = "worker-ada-00000000" := by decide +kernel

theorem perform_write_ada (held : List (List String)) :
    ((plainRegistry.write ada).perform { Host.idle with held := held } openedStore).1 = .ok () := by
  have hcan : openedStore.CanReplace (recordFile "ids" "worker-ada-00000000") :=
    @Store.canReplace_of_landing _ _ (by decide +kernel) []
      ["home", "ids", "worker-ada-00000000.json"] (by rfl) (by rfl)
  have hreplace := hcan ada.toJson.fileText.toUTF8 (Host.idle.clock 0)
  rw [write, perform_recordPath_bind, ada_id, if_pos (by decide), Action.writeRecord,
    perform_replaceFile, plainRegistry, hreplace]
  rfl

theorem answer_reportTurn : reportTurn.answer plainRegistry = .ok ada := by
  rcases standing_registryStore.locked_cases .idle with
    ⟨err, t, -, hperform⟩ | ⟨u, held, hu, hperform⟩
  · have hdone := hperform (pure ())
    rw [show (plainRegistry.locked (pure ())).perform .idle registryStore
      = (.ok (), openedStore) from rfl]
      at hdone
    cases hdone
  · have hdone := hperform (getThe Store)
    rw [show (plainRegistry.locked (getThe Store)).perform .idle registryStore
      = (.ok openedStore, openedStore) from rfl] at hdone
    obtain rfl : openedStore = u := (Prod.mk.inj hdone).2
    obtain ⟨found, hfind, -, hsome⟩ :=
      hu.perform_findActive "worker" "ada" { Host.idle with held := held }
    obtain rfl : found = none := by
      cases found with
      | none => rfl
      | some i => cases (hsome i rfl).1
    have hada : entered "worker" "ada" {} { Host.idle with held := held }.fresh
        ({ Host.idle with held := held }.clock 0) = ada := rfl
    rw [Turn.answer, reportTurn, call, register_eq, hperform, perform_bind, hfind]
    dsimp only
    rw [perform_bind, checkPredecessor, perform_pure]
    dsimp only
    rw [perform_bind, checkHook, perform_pure]
    dsimp only
    rw [perform_enter, hada, perform_write_ada]
    rfl

theorem run_conduct_registryStore : ∃ cs t u f g j,
    plainRegistry.Standing registryStore (fun _ => none) ∧ plainRegistry.Run registryStore cs t ∧
    cs.map (·.ask) = [.register "worker" "ada" {}] ∧ plainRegistry.registered cs = [ada] ∧
    ((plainRegistry.registered cs).map (·.id)).Nodup ∧ plainRegistry.Shows t f ∧
    plainRegistry.Run t [⟨.markCrashed "worker-ada-00000000", .idle, t⟩] u ∧
    plainRegistry.Shows u g ∧ g "worker-ada-00000000" = some j ∧ ada.SameAs j := by
  have hentered : plainRegistry.registered [reportTurn] = [ada] := by
    rw [registered_singleton, Turn.registered?, answer_reportTurn]
    rfl
  have hids : ((plainRegistry.registered [reportTurn]).map (·.id)).Nodup := by
    rw [hentered]
    simp
  have hrun : plainRegistry.Run registryStore [reportTurn] (reportTurn.after plainRegistry) :=
    Run.start.call _ _
  have hlater := (Run.start (r := plainRegistry) (s := reportTurn.after plainRegistry)).call
    (.markCrashed "worker-ada-00000000") .idle
  obtain ⟨f, hf, -, hshown, -, -, hkept, -⟩ := run_conduct standing_registryStore hrun hids
  obtain ⟨i, hi, hsame⟩ := hshown ada (by rw [hentered]; exact List.mem_singleton_self ada)
  have hall : ((plainRegistry.registered ([reportTurn] ++
      [⟨.markCrashed "worker-ada-00000000", .idle, reportTurn.after plainRegistry⟩])).map
      (·.id)).Nodup := by
    rw [registered_append, hentered]
    simp [registered, Turn.registered?]
  obtain ⟨g, hg, hsome⟩ := hkept _ _ hlater hall
  obtain ⟨j, hj, hsame', -⟩ := hsome _ i hi
  rw [ada_id] at hj
  exact ⟨_, _, _, f, g, j, standing_registryStore, hrun, rfl, hentered, hids, hf, hlater, hg, hj,
    hsame.trans hsame'⟩

end Pipewright.Registry
