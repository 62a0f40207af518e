import Mathlib.Logic.Basic
import Pipewright.Proofs.Signal.Turns

/-!
# Delivery of signals

Whoever waits for a signal gets the first one that was sent and has not been
received, of those that are meant, and gets it as it was sent; nobody waits in
vain unless there is none, no signal is received twice, and each of them is at
any time either still waiting or among those that have been taken
(`run_delivery`).

Nothing is written down about the order of signals but the times in front of
their names. So these have to grow, and they have to have their fixed form.
-/

namespace Pipewright.Mailbox

open Pipewright.Action Signal Store

variable {dir : String} {c : Turn} {cs front back : List Turn} {s t : Store}
  {waiting taken waiting' taken' : List Letter} {h : Host}

/-! ## Books -/

def sent (dir : String) (cs : List Turn) : List Parcel := cs.filterMap (·.sent? dir)

def received (dir : String) (cs : List Turn) : List Received := cs.filterMap (·.received? dir)

def outstanding (dir : String) (cs : List Turn) : List Parcel :=
  (sent dir cs).filter fun p => p.name ∉ (received dir cs).map (·.fileName)

theorem sent_append (dir : String) (cs cs' : List Turn) :
    sent dir (cs ++ cs') = sent dir cs ++ sent dir cs' := List.filterMap_append

theorem sent_concat (dir : String) (cs : List Turn) (c : Turn) :
    sent dir (cs ++ [c]) = sent dir cs ++ (c.sent? dir).toList := by
  rw [sent, List.filterMap_append, List.filterMap_cons]
  cases c.sent? dir <;> rfl

theorem received_concat (dir : String) (cs : List Turn) (c : Turn) :
    received dir (cs ++ [c]) = received dir cs ++ (c.received? dir).toList := by
  rw [received, List.filterMap_append, List.filterMap_cons]
  cases c.received? dir <;> rfl

theorem outstanding_concat (dir : String) (cs : List Turn) (c : Turn) :
    outstanding dir (cs ++ [c]) =
    (sent dir cs ++ (c.sent? dir).toList).filter fun p =>
      p.name ∉ (received dir cs ++ (c.received? dir).toList).map (·.fileName) := by
  rw [outstanding, sent_concat, received_concat]

/-- The letters that wait and those that have been taken are what the turns have sent and
received. -/
structure Books (dir : String) (cs : List Turn) (waiting taken : List Letter) : Prop where
  waiting : List.map Letter.parcel waiting = outstanding dir cs
  taken : taken = (received dir cs).map Received.letter
  sent : ∀ r ∈ received dir cs, r.letter.parcel ∈ Mailbox.sent dir cs

namespace Books

theorem nil (dir : String) : Books dir [] [] [] := ⟨rfl, rfl, by simp [received]⟩

theorem mem_sent (hb : Books dir cs waiting taken) {m : Letter} (hm : m ∈ waiting ∨ m ∈ taken) :
    m.parcel ∈ Mailbox.sent dir cs := by
  rcases hm with hm | hm
  · have hmem : m.parcel ∈ outstanding dir cs := hb.waiting ▸ List.mem_map_of_mem hm
    exact (List.mem_filter.mp hmem).1
  · rw [hb.taken] at hm
    obtain ⟨r, hr, rfl⟩ := List.mem_map.mp hm
    exact hb.sent r hr

/-- The first letter that is looked for is the first parcel that is. -/
theorem find?_outstanding (hb : Books dir cs waiting taken) (f : Filter) :
    (outstanding dir cs).find? (·.isFor f)
      = (waiting.find? fun m => f.accepts m.2).map Letter.parcel := by
  rw [← hb.waiting, List.find?_map]
  rfl

theorem of_none (hb : Books dir cs waiting taken) (hsent : c.sent? dir = none)
    (hreceived : c.received? dir = none) : Books dir (cs ++ [c]) waiting taken where
  waiting := by
    rw [outstanding_concat, hsent, hreceived, Option.toList_none, List.append_nil,
      Option.toList_none, List.append_nil]
    exact hb.waiting
  taken := by
    rw [received_concat, hreceived, Option.toList_none, List.append_nil]
    exact hb.taken
  sent := by
    rw [received_concat, sent_concat, hsent, hreceived, Option.toList_none, List.append_nil,
      Option.toList_none, List.append_nil]
    exact hb.sent

theorem of_sent (hb : Books dir cs waiting taken) {m : Letter} (hsent : c.sent? dir = some m.parcel)
    (hreceived : c.received? dir = none) (hnew : ∀ p ∈ Mailbox.sent dir cs, p.name ≠ m.1) :
    Books dir (cs ++ [c]) (waiting ++ [m]) taken where
  waiting := by
    have hname : m.parcel.name ∉ (received dir cs).map (·.fileName) := by
      intro hmem
      obtain ⟨r, hr, heq⟩ := List.mem_map.mp hmem
      exact hnew _ (hb.sent r hr) heq
    rw [outstanding_concat, hsent, hreceived, Option.toList_none, List.append_nil,
      Option.toList_some,
      List.filter_append, List.map_append, hb.waiting, List.filter_singleton]
    simp only [hname, not_false_eq_true, decide_true]
    rfl
  taken := by
    rw [received_concat, hreceived, Option.toList_none, List.append_nil]
    exact hb.taken
  sent := by
    rw [received_concat, sent_concat, hreceived, Option.toList_none, List.append_nil]
    exact fun r hr => List.mem_append_left _ (hb.sent r hr)

theorem of_received {front back : List Letter} {r : Received}
    (hb : Books dir cs (front ++ r.letter :: back) taken) (hsent : c.sent? dir = none)
    (hreceived : c.received? dir = some r) (hnames : ((Mailbox.sent dir cs).map (·.name)).Nodup) :
    Books dir (cs ++ [c]) (front ++ back) (taken ++ [r.letter]) where
  waiting := by
    have hless : outstanding dir (cs ++ [c])
        = (outstanding dir cs).filter fun p => p.name ≠ r.fileName := by
      rw [outstanding_concat, hsent, hreceived, Option.toList_none, List.append_nil,
        Option.toList_some, outstanding, List.filter_filter]
      refine List.filter_congr fun p _ => ?_
      rw [← Bool.decide_and, decide_eq_decide, List.map_append, List.mem_append, List.map_singleton,
        List.mem_singleton, not_or]
      exact and_comm
    have hdistinct : ((List.map Letter.parcel (front ++ r.letter :: back)).map (·.name)).Nodup := by
      rw [hb.waiting]
      exact hnames.sublist (List.filter_sublist.map _)
    have hkept : ∀ m ∈ front ++ back, m.parcel.name ≠ r.fileName := by
      have hperm : (front ++ r.letter :: back).Perm (r.letter :: (front ++ back)) :=
        List.perm_middle
      rw [List.map_map, (hperm.map _).nodup_iff, List.map_cons, List.nodup_cons] at hdistinct
      exact fun m hm heq => hdistinct.1 (List.mem_map.mpr ⟨m, hm, heq⟩)
    have hself : (List.map Letter.parcel (front ++ back)).filter (fun p => p.name ≠ r.fileName)
        = List.map Letter.parcel (front ++ back) := by
      rw [List.filter_eq_self]
      intro p hp
      obtain ⟨m, hm, rfl⟩ := List.mem_map.mp hp
      exact decide_eq_true (hkept m hm)
    have hgone : r.letter.parcel.name = r.fileName := rfl
    rw [hless, ← hb.waiting, ← hself]
    simp [List.filter_append, hgone]
  taken := by
    rw [received_concat, hreceived, Option.toList_some, List.map_append, hb.taken]
    rfl
  sent := by
    rw [received_concat, sent_concat, hsent, hreceived, Option.toList_none, List.append_nil,
      Option.toList_some]
    intro r' hr'
    rcases List.mem_append.mp hr' with hold | hnew
    · exact hb.sent r' hold
    · obtain rfl := List.mem_singleton.mp hnew
      exact hb.mem_sent (.inl (by simp))

theorem xor_of_mem (hb : Books dir cs waiting taken)
    (hnames : ((Mailbox.sent dir cs).map (·.name)).Nodup) {p : Parcel}
    (hp : p ∈ Mailbox.sent dir cs) :
    Xor (p ∈ waiting.map Letter.parcel) (p ∈ taken.map Letter.parcel) := by
  have hwaiting : p ∈ waiting.map Letter.parcel ↔ p.name ∉ (received dir cs).map (·.fileName) := by
    rw [hb.waiting, outstanding, List.mem_filter, decide_eq_true_iff]
    exact and_iff_right hp
  have htaken : p ∈ taken.map Letter.parcel ↔ p.name ∈ (received dir cs).map (·.fileName) := by
    rw [hb.taken, List.map_map]
    constructor
    · intro hmem
      obtain ⟨r, hr, rfl⟩ := List.mem_map.mp hmem
      exact List.mem_map.mpr ⟨r, hr, rfl⟩
    · intro hmem
      obtain ⟨r, hr, hname⟩ := List.mem_map.mp hmem
      obtain rfl := List.inj_on_of_nodup_map hnames (hb.sent r hr) hp hname
      exact List.mem_map.mpr ⟨r, hr, rfl⟩
  rw [hwaiting, htaken]
  by_cases hname : p.name ∈ (received dir cs).map (·.fileName)
  · exact .inr ⟨hname, not_not_intro hname⟩
  · exact .inl ⟨hname, hname⟩

/-- A turn keeps the books, if the names of what is sent differ. -/
theorem turned (hb : Books dir cs waiting taken)
    (hedited : Edited dir c waiting taken waiting' taken')
    (hnames : ((Mailbox.sent dir (cs ++ [c])).map (·.name)).Nodup) :
    Books dir (cs ++ [c]) waiting' taken' := by
  rw [sent_concat, List.map_append, List.nodup_append] at hnames
  have hawait : ∀ {f looks}, c.ask = .await f looks → c.sent? dir = none := by
    intro f looks hask
    rw [Turn.sent?, hask]
  cases hedited with
  | refused ask sent received => exact hb.of_none sent received
  | sent ask sent received =>
    refine hb.of_sent sent received ?_
    intro p hp
    rw [sent] at hnames
    exact hnames.2.2 _ (List.mem_map_of_mem hp) _ (List.mem_singleton_self _)
  | missed ask answer => exact hb.of_none (hawait ask) (by rw [Turn.received?, answer])
  | taken ask answer split =>
    subst split
    exact hb.of_received (hawait ask) (by rw [Turn.received?, answer]) hnames.1

end Books

/-! ## Runs -/

/-- Names that begin with later and later times are different ones. -/
theorem nodup_of_stamps (h : ((sent dir cs).map (stampOf ·.name)).Pairwise (· < ·)) :
    ((sent dir cs).map (·.name)).Nodup := by
  rw [List.pairwise_map] at h
  rw [List.Nodup, List.pairwise_map]
  refine h.imp fun hlt heq => ?_
  rw [heq] at hlt
  exact absurd hlt (List.lt_irrefl _)

/-- What was there before a call is what the calls before it led to. -/
theorem Run.before (h : Run dir s (front ++ c :: back) t) : Run dir s front c.before := by
  generalize hcs : front ++ c :: back = cs at h
  induction h generalizing back with
  | start => exact absurd hcs (by simp)
  | call run ask host ih =>
    rcases List.eq_nil_or_concat back with rfl | ⟨back, last, rfl⟩
    · obtain ⟨rfl, hc⟩ := List.append_inj' hcs rfl
      obtain rfl := List.singleton_inj.mp hc
      exact run
    · rw [List.concat_eq_append, ← List.cons_append, ← List.append_assoc] at hcs
      exact ih (List.append_inj' hcs rfl).1

/-- From an empty mailbox on, the books are kept over a whole run. -/
theorem Run.books (h : Run dir s cs t) (hstart : Standing dir s [] [])
    (hordinary : ∀ c ∈ cs, c.IsOrdinary)
    (hstamps : ((sent dir cs).map (stampOf ·.name)).Pairwise (· < ·))
    (hfits : ∀ p ∈ sent dir cs, Fits dir p.name) :
    ∃ waiting taken, Standing dir t waiting taken ∧ Books dir cs waiting taken := by
  induction h with
  | start => exact ⟨[], [], hstart, .nil dir⟩
  | @call cs t run ask host ih =>
    have hnames := nodup_of_stamps hstamps
    rw [sent_concat] at hstamps hfits
    rw [List.map_append, List.pairwise_append] at hstamps
    obtain ⟨waiting, taken, hstanding, hbooks⟩ := ih
      (fun c hc => hordinary c (List.mem_append_left _ hc)) hstamps.1
      fun p hp => hfits p (List.mem_append_left _ hp)
    -- Every letter has been sent before, so what is sent now has a later name than any of them.
    have hearlier : ∀ p, (⟨ask, host, t⟩ : Turn).sent? dir = some p → ∀ m, m ∈ waiting ∨ m ∈ taken →
        m.1 < p.name := by
      intro p hp m hm
      refine lt_of_stamp_lt (hstamps.2.2 _ (List.mem_map_of_mem (hbooks.mem_sent hm)) _ ?_)
      rw [hp]
      exact List.mem_singleton_self _
    obtain ⟨waiting', taken', hstanding', hedited⟩ :=
      @Standing.turned dir ⟨ask, host, t⟩ _ _ hstanding
      (fun m hm => hfits m.parcel (List.mem_append_left _ (hbooks.mem_sent (.inl hm))))
      (hordinary _ (List.mem_append_right _ (List.mem_singleton_self _)))
      (fun p hp => ⟨fun m hm => hearlier p hp m (.inl hm),
        fun m hm => String.ne_of_lt (hearlier p hp m (.inr hm))⟩)
    exact ⟨waiting', taken', hstanding', hbooks.turned hedited hnames⟩

/-! ## One signal and who waits for it -/

/-- A path that leads nowhere else, however long it is. -/
def dots : Nat → String
  | 0 => "."
  | n + 1 => "./" ++ dots n

theorem utf8ByteSize_dots (n : Nat) : (dots n).utf8ByteSize = 2 * n + 1 := by
  induction n with
  | zero => rfl
  | succ n ih =>
    have hstep : "./".utf8ByteSize = 2 := rfl
    rw [dots, String.utf8ByteSize_append, ih, hstep]
    omega

theorem steps_dots (n : Nat) : Path.steps (dots n) = List.replicate (n + 1) "." := by
  induction n with
  | zero => rfl
  | succ n ih =>
    change Path.stepsOf ("./" ++ dots n).toList = _
    rw [String.toList_append, List.replicate_succ, ← ih]
    exact Path.stepsOf_append_slash ['.'] (dots n).toList

theorem toList_dots (n : Nat) : (dots n).toList.head? = some '.' ∧ '\x00' ∉ (dots n).toList := by
  induction n with
  | zero => exact ⟨rfl, by decide⟩
  | succ n ih =>
    rw [dots, String.toList_append]
    exact ⟨rfl, by simpa using ih.2⟩

/-- The path leads to the working directory if it is not too long. -/
theorem isDirectory_dots {n : Nat} (hn : n ≤ 2025) (s : Store) :
    s.isDirectory (dots n) ∧ s.place (dots n) = s.home := by
  obtain ⟨hhead, hnull⟩ := toList_dots n
  have hsize := utf8ByteSize_dots n
  have habsolute : Path.isAbsolute (dots n) = false := by rw [Path.isAbsolute, hhead]; rfl
  have hplace : s.place (dots n) = s.home := by
    rw [place, steps_dots, habsolute]
    exact foldl_stepFrom_dots s.home (n + 1)
  have hne : dots n ≠ "" := by
    intro hempty
    rw [hempty] at hhead
    cases hhead
  have horigin : s.origin (dots n) = .ok s.home := by
    rw [origin, if_neg (by simpa using hnull), if_neg hne, if_neg (by omega), habsolute]
    rfl
  have hfollow : ∀ k, s.follow s.home (List.replicate k ".") = .ok s.home := by
    intro k
    induction k with
    | zero => rfl
    | succ k ih => exact follow_cons.mpr ⟨s.at?_home, fun h => absurd h (by decide), ih⟩
  refine ⟨isDirectory_iff.mpr ⟨?_, ?_⟩, hplace⟩
  · rw [hplace]
    exact locate_eq_ok.mpr ⟨s.home, horigin, steps_dots n ▸ hfollow (n + 1)⟩
  · rw [hplace]
    exact s.at?_home

/-- In a store with nothing in it a signal is sent. -/
def sending (h : Host) : Turn := ⟨.send "a" "b" "MERGED" .null, h, {}⟩

def awaiting (dir : String) (h : Host) : Turn := ⟨.await {} 0, h, (sending h).after dir⟩

def mailed (h : Host) : Parcel := ⟨fileName "a" "b" .merged (h.clock 0), "a", "b", .merged, .null⟩

theorem origin_draft_dots {n : Nat} (hn : n ≤ 2025) :
    ∃ start, ({} : Store).origin (({} : Store).draft (dots n)) = .ok start := by
  have hname : Path.IsName ".tmp-xxxxxx" := ⟨by decide, 'x', rfl, by decide⟩
  have hsize : (({} : Store).draft (dots n)).utf8ByteSize < 4096 := by
    have houter := Path.utf8ByteSize_join_le "/home" (dots n)
    have hinner := Path.utf8ByteSize_join_le (Path.join "/home" (dots n)) ".tmp-xxxxxx"
    have hhome : "/home".utf8ByteSize = 5 := rfl
    have htemporary : ".tmp-xxxxxx".utf8ByteSize = 11 := rfl
    have hdots := utf8ByteSize_dots n
    exact Nat.lt_of_le_of_lt hinner (by omega)
  have hne : ({} : Store).draft (dots n) ≠ "" := Path.join_ne_empty _ hname
  have hnull : '\x00' ∉ (({} : Store).draft (dots n)).toList := by
    intro hmem
    rcases mem_join hmem with hmem | hslash | hmem
    · rcases mem_join hmem with hmem | hslash | hmem
      · exact absurd hmem (by decide)
      · cases hslash
      · exact (toList_dots n).2 hmem
    · cases hslash
    · exact absurd hmem (by decide)
  rw [origin, if_neg (by simpa using hnull), if_neg hne, if_neg (by omega)]
  exact ⟨_, rfl⟩

theorem exists_perform_send {n : Nat} (hn : n ≤ 2025) (payload : Json)
    (hname : Path.IsName (mailed h).name)
    (hnull : '\x00' ∉ (mailed h).name.toList) (hsize : (mailed h).name.utf8ByteSize ≤ 40) :
    ∃ t, (send (dots n) "a" "b" .merged payload).perform h {}
      = (.ok (Path.join (dots n) (mailed h).name), t) := by
  obtain ⟨hthere, hplace⟩ := isDirectory_dots hn {}
  obtain ⟨start, horigin, -⟩ := locate_eq_ok.mp (isDirectory_iff.mp hthere).1
  have hdots := utf8ByteSize_dots n
  have hshort : isLong (mailed h).name = false := decide_eq_false (by omega)
  have hjoin : (Path.join (dots n) (mailed h).name).utf8ByteSize < 4096 := by
    have hle := Path.utf8ByteSize_join_le (dots n) (mailed h).name
    omega
  have hlocate := locate_join hthere hname (origin_join horigin hname hnull hjoin) hshort
  have hnone : ({} : Store).at? (place {} (dots n) ++ [(mailed h).name]) = none := by
    rw [hplace]
    rfl
  have hsite : ({} : Store).site (Path.join (dots n) (mailed h).name)
      = .ok (place {} (dots n) ++ [(mailed h).name]) := by
    rw [site, Path.ending_join _ hname, hlocate]
    simp [bind, Except.bind, hnone]
    rfl
  obtain ⟨_, hdraft⟩ := origin_draft_dots hn
  exact perform_send_of_site hthere hdraft hsite hnone

theorem sent?_sending {n : Nat} (hn : n ≤ 2025) (hname : Path.IsName (mailed h).name)
    (hnull : '\x00' ∉ (mailed h).name.toList) (hsize : (mailed h).name.utf8ByteSize ≤ 40) :
    (sending h).sent? (dots n) = some (mailed h) := by
  obtain ⟨t, hperform⟩ := exists_perform_send hn .null hname hnull hsize
  obtain ⟨hanswer, -⟩ := Turn.of_ask (c := sending h) rfl
    (show reply (dots n) h {} (.send "a" "b" "MERGED" .null) = (.sent (.ok _), t) by
      rw [reply, show SignalType.ofText "MERGED" = .merged by decide, hperform])
  rw [Turn.sent?, hanswer]
  change some (Parcel.mk ((Path.fileName? (Path.join (dots n) (mailed h).name)).getD "") _ _ _ _)
    = _
  rw [Path.fileName?_join _ hname]
  rfl

theorem run_mailing (dir : String) (h : Host) :
    Run dir {} [sending h, awaiting dir h] ((awaiting dir h).after dir) :=
  (Run.start.call (.send "a" "b" "MERGED" .null) h).call (.await {} 0) h

theorem sent_mailing {n : Nat} (hsent : (sending h).sent? (dots n) = some (mailed h)) :
    sent (dots n) [sending h, awaiting (dots n) h] = [mailed h] ∧
      outstanding (dots n) [sending h] = [mailed h] := by
  have hreceived : (sending h).received? (dots n) = none := rfl
  have hlast : (awaiting (dots n) h).sent? (dots n) = none := rfl
  constructor
  · simp [sent, hsent, hlast]
  · simp [outstanding, sent, received, hsent, hreceived]

theorem opened_dots {n : Nat} (hn : n ≤ 2025) :
    (({} : Store).makeDirs (dots n)).1 = .ok () ∧
      ∀ rest, rest ≠ [] → (opened (dots n) {}).at? (place {} (dots n) ++ rest) = none := by
  obtain ⟨hthere, hplace⟩ := isDirectory_dots hn {}
  rw [opened, makeDirs_of_isDirectory hthere, hplace]
  refine ⟨rfl, ?_⟩
  intro rest hrest
  cases rest with
  | nil => exact absurd rfl hrest
  | cons name rest => rfl

/-- The host has a clock that runs in the year 10000. -/
def lateHost : Host := { Host.idle with clock := fun _ => ⟨253402300800, 0⟩ }

theorem name_mailed : (mailed .idle).name = "19700101T000000000000Z-a-b-MERGED.json" ∧
    (mailed lateHost).name = "+100000101T000000000000Z-a-b-MERGED.json" := by decide +kernel

theorem sent?_idle {n : Nat} (hn : n ≤ 2025) : (sending .idle).sent? (dots n)
    = some (mailed .idle) := by
  refine sent?_sending hn ?_ ?_ ?_ <;> rw [name_mailed.1]
  · exact ⟨by decide, 'n', rfl, by decide⟩
  · decide
  · decide

theorem sent?_late : (sending lateHost).sent? (dots 0) = some (mailed lateHost) := by
  refine sent?_sending (Nat.zero_le _) ?_ ?_ ?_ <;> rw [name_mailed.2]
  · exact ⟨by decide, 'n', rfl, by decide⟩
  · decide
  · decide

/-! ## Delivery -/

/-- In an empty mailbox, whose signals are sent later and later, each wait ends with the first
signal that was sent and not received, of those that are meant, and in vain only if there is none;
no signal is received twice; and whatever was sent either waits or has been taken. -/
theorem run_delivery (hdir : dir ≠ "") (hmade : (s.makeDirs dir).1 = .ok ())
    (hempty : ∀ rest, rest ≠ [] → (opened dir s).at? (s.place dir ++ rest) = none)
    (hrun : Run dir s cs t) (hordinary : ∀ c ∈ cs, c.IsOrdinary)
    (hstamps : ((sent dir cs).map (stampOf ·.name)).Pairwise (· < ·))
    (hfits : ∀ p ∈ sent dir cs, Fits dir p.name) :
    (∀ (front : List Turn) (c : Turn) (back : List Turn) (f : Filter) (looks : Nat),
      cs = front ++ c :: back → c.ask = .await f looks →
      ∃ r, c.answer dir = .received (.ok r) ∧
        r.map (·.letter.parcel) = (outstanding dir front).find? (·.isFor f)) ∧
    ((received dir cs).map (·.fileName)).Nodup ∧
    ∀ p ∈ sent dir cs, ∀ host, ∃ ms ms',
      (pending dir).perform host t = (.ok ms, t) ∧ (processed dir).perform host t = (.ok ms', t) ∧
        Xor (p ∈ ms.map Letter.parcel) (p ∈ ms'.map Letter.parcel) := by
  have hstart := standing_nil hdir hmade hempty
  have hnames := nodup_of_stamps hstamps
  obtain ⟨waiting, taken, hstanding, hbooks⟩ := hrun.books hstart hordinary hstamps hfits
  refine ⟨?_, ?_, ?_⟩
  · rintro front c back f looks rfl hask
    rw [sent_append, List.map_append, List.pairwise_append] at hstamps
    rw [sent_append] at hfits
    obtain ⟨waiting, taken, hstanding, hbooks⟩ := hrun.before.books hstart
      (fun c hc => hordinary c (List.mem_append_left _ hc)) hstamps.1
      fun p hp => hfits p (List.mem_append_left _ hp)
    obtain ⟨r, hanswer, hfound⟩ := hstanding.answer_await
      (fun m hm => hfits m.parcel (List.mem_append_left _ (hbooks.mem_sent (.inl hm)))) hask
    refine ⟨r, hanswer, ?_⟩
    rw [hbooks.find?_outstanding, ← hfound, Option.map_map]
    rfl
  · have hnodup := hstanding.mail.nodup
    rw [List.map_append, List.nodup_append, hbooks.taken, List.map_map] at hnodup
    exact hnodup.2.1
  · intro p hp host
    have hxor := hbooks.xor_of_mem hnames hp
    obtain ⟨m, hm, rfl⟩ : ∃ m, (m ∈ waiting ∨ m ∈ taken) ∧ m.parcel = p := by
      rcases hxor.or with hmem | hmem <;> obtain ⟨m, hm, rfl⟩ := List.mem_map.mp hmem
      · exact ⟨m, .inl hm, rfl⟩
      · exact ⟨m, .inr hm, rfl⟩
    obtain ⟨ms, hpending, hms⟩ := hstanding.perform_pending host
    obtain ⟨ms', hprocessed, hms'⟩ := hstanding.perform_processed hm (hfits m.parcel hp) host
    refine ⟨ms, ms', hpending, hprocessed, ?_⟩
    simp only [List.mem_map, hms, hms'] at hxor ⊢
    exact hxor

theorem run_delivery_dots : ∃ t, dots 0 ≠ "" ∧ (({} : Store).makeDirs (dots 0)).1 = .ok () ∧
    (∀ rest, rest ≠ [] → (opened (dots 0) {}).at? (place {} (dots 0) ++ rest) = none) ∧
    Run (dots 0) {} [sending .idle, awaiting (dots 0) .idle] t ∧
    (∀ c ∈ [sending .idle, awaiting (dots 0) .idle], c.IsOrdinary) ∧
    sent (dots 0) [sending .idle, awaiting (dots 0) .idle] = [mailed .idle] ∧
    Fits (dots 0) (mailed .idle).name ∧
    ∃ r, (awaiting (dots 0) .idle).answer (dots 0) = .received (.ok (some r)) ∧
      r.letter.parcel = mailed .idle := by
  obtain ⟨hmade, hempty⟩ := opened_dots (Nat.zero_le 2025)
  obtain ⟨hsent, houtstanding⟩ := sent_mailing (sent?_idle (Nat.zero_le 2025))
  have hrun := run_mailing (dots 0) .idle
  have hordinary : ∀ c ∈ [sending .idle, awaiting (dots 0) .idle], c.IsOrdinary := by
    have hdated : Instant.IsDated default := ⟨by decide, by decide, by decide⟩
    refine List.forall_mem_cons.mpr ⟨⟨fun _ => hdated, ?_⟩,
      List.forall_mem_singleton.mpr ⟨fun _ => hdated, nofun⟩⟩
    rintro _ _ _ payload ⟨⟩
    decide
  have hfits : Fits (dots 0) (mailed .idle).name := by
    rw [name_mailed.1]
    exact ⟨by decide⟩
  obtain ⟨hawait, -⟩ := run_delivery (by decide) hmade hempty hrun hordinary
    (by rw [hsent]; exact List.pairwise_singleton _ _)
    (by rw [hsent]; exact List.forall_mem_singleton.mpr hfits)
  obtain ⟨r, hanswer, hfound⟩ := hawait [sending .idle] (awaiting (dots 0) .idle) [] {} 0 rfl rfl
  rw [houtstanding] at hfound
  obtain ⟨r, rfl, hr⟩ := Option.map_eq_some_iff.mp (hfound.trans (List.find?_cons_of_pos rfl))
  exact ⟨_, by decide, hmade, hempty, hrun, hordinary, hsent, hfits, r, hanswer, hr⟩

/-- A signal is sent while nothing is in the mailbox, and who waits for it next is not answered
it. -/
structure Lost (dir : String) (h : Host) : Prop where
  named : dir ≠ ""
  made : (({} : Store).makeDirs dir).1 = .ok ()
  empty : ∀ rest, rest ≠ [] → (opened dir {}).at? (place {} dir ++ rest) = none
  run : ∃ t, Run dir {} [sending h, awaiting dir h] t
  payload : Json.null.isFree ∧ Json.null.nesting ≤ 100
  stamps : ((sent dir [sending h, awaiting dir h]).map (stampOf ·.name)).Pairwise (· < ·)
  lost : ¬∃ r, (awaiting dir h).answer dir = .received (.ok r) ∧
    r.map (·.letter.parcel) = (outstanding dir [sending h]).find? (·.isFor {})

theorem lost_of_not_fits {n : Nat} (hn : n ≤ 2025)
    (hsent : (sending h).sent? (dots n) = some (mailed h))
    (hlost : isSignalFile (mailed h).name → ¬Fits (dots n) (mailed h).name) : Lost (dots n) h where
  named := by
    intro hempty
    have hhead := (toList_dots n).1
    rw [hempty] at hhead
    cases hhead
  made := (opened_dots hn).1
  empty := (opened_dots hn).2
  run := ⟨_, run_mailing (dots n) h⟩
  payload := by decide
  stamps := by
    rw [(sent_mailing hsent).1]
    exact List.pairwise_singleton _ _
  lost := by
    rw [(sent_mailing hsent).2]
    rintro ⟨r, hanswer, hfound⟩
    cases r with
    | none => cases hfound
    | some r =>
      have hname : r.fileName = (mailed h).name := congrArg Parcel.name (Option.some.inj hfound)
      have htake : ((take? (dots n) {}).perform h ((sending h).after (dots n))).1 = .ok (some r) :=
        Answer.received.inj hanswer
      obtain ⟨hfile, hfits⟩ := fits_of_take? (Prod.ext htake rfl)
      rw [hname] at hfile hfits
      exact hlost hfile hfits

/-- Signals are lost whose paths get too long when they are taken, and those that are sent when four
digits are not enough for the year any more. -/
theorem lost_far_and_late : Lost (dots 2025) .idle ∧ Lost (dots 0) lateHost := by
  constructor
  · refine lost_of_not_fits (Nat.le_refl _) (sent?_idle (Nat.le_refl _)) ?_
    intro _ hfits
    have hinner := Path.le_utf8ByteSize_join (dots 2025) "processed" (by decide)
    have houter := Path.le_utf8ByteSize_join (processedDir (dots 2025)) (mailed .idle).name (by
      rw [name_mailed.1]
      decide)
    have hname : (mailed .idle).name.utf8ByteSize = 38 := by rw [name_mailed.1]; rfl
    have hprocessed : "processed".utf8ByteSize = 9 := rfl
    have hshort := hfits.short
    rw [utf8ByteSize_dots] at hinner
    rw [processedDir] at houter hshort
    omega
  · refine lost_of_not_fits (Nat.zero_le _) sent?_late fun hfile => absurd hfile ?_
    rw [name_mailed.2]
    decide

end Pipewright.Mailbox
