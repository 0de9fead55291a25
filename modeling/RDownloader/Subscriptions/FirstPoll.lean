import RDownloader.Subscriptions.NewOnce

/-!
# What was listed at the first successful poll

Until a subscription is primed its polls accept nothing, and what a poll archives is never
accepted again.
A poll archives a part of what it listed when that is more than one poll takes, and primes the
subscription all the same.
-/

namespace RDownloader

namespace Subscriptions

/-- Whether the filters of a primed subscription accept an entry. -/
def Subscription.Accepts (subscription : Subscription) (item : DiscoveredItem) : Prop :=
  item.refused = none ∧ subscription.filterDecision (candidateOf item) = .ok ()

theorem Subscription.decision_primed {subscription : Subscription} {item : DiscoveredItem}
    {now : Instant} : subscription.decision item true now = .ok () ↔ subscription.Accepts item := by
  unfold decision Accepts
  cases hrefused : item.refused with
  | none => exact ⟨fun h => ⟨rfl, h⟩, fun h => h.2⟩
  | some reason => exact ⟨fun h => (nomatch h), fun h => (nomatch h.1)⟩

/-- The backlog policy only refuses. -/
theorem Subscription.Accepts.of_decision {subscription : Subscription} {item : DiscoveredItem}
    {primed : Bool} {now : Instant} (h : subscription.decision item primed now = .ok ()) :
    subscription.Accepts item := by
  suffices hprimed : subscription.decision item true now = .ok () from decision_primed.mp hprimed
  cases primed with
  | true => exact h
  | false =>
    unfold decision at h ⊢
    cases hrefused : item.refused with
    | some reason =>
      rw [hrefused] at h
      cases h
    | none =>
      rw [hrefused] at h
      dsimp only [evaluate] at h ⊢
      cases hbacklog : backlogDecision (candidateOf item) now subscription.backlog with
      | error reason =>
        rw [hbacklog] at h
        cases h
      | ok =>
        rw [hbacklog] at h
        exact h

namespace PollState

variable {identity : Identity} {library : SubscriptionId → Subscription}
  {state next last : PollState} {event : PollEvent}

/-- Nothing that is known, accepted or primed is forgotten. -/
structure Grows (state next : PollState) : Prop where
  knows : ∀ key, state.tables.Knows key → next.tables.Knows key
  accepted : ∀ key ∈ state.accepted, key ∈ next.accepted
  primed : ∀ subscription, state.primed subscription → next.primed subscription

/-- What is true of a poll under way. -/
structure PollSound (identity : Identity) (library : SubscriptionId → Subscription)
    (state : PollState) (poll : Poll) : Prop where
  primed : poll.primed → state.primed poll.subscriptionId
  archived : poll.stage ≠ .requesting → poll.stage ≠ .finishing none →
    ∀ item ∈ poll.listed.take (itemsPerPoll (library poll.subscriptionId).kind),
      state.tables.Knows (poll.subscriptionId, identity.keyOf item)
  accepted : ∀ created, poll.stage = .archived created →
    ∀ row ∈ created, row.state = .pending → row.key ∈ state.accepted

theorem PollSound.grows {poll : Poll} (h : PollSound identity library state poll)
    (hgrows : state.Grows next) : PollSound identity library next poll where
  primed hprimed := hgrows.primed _ (h.primed hprimed)
  archived hrequesting hfailed item hmem :=
    hgrows.knows _ (h.archived hrequesting hfailed item hmem)
  accepted created hstage row hmem hpending :=
    hgrows.accepted _ (h.accepted created hstage row hmem hpending)

/-- What is true of the database and of the polls under way. -/
structure Sound (identity : Identity) (library : SubscriptionId → Subscription)
    (state : PollState) : Prop where
  tables : state.tables.Sound
  polls : ∀ id poll, state.polls id = some poll → PollSound identity library state poll
  handed : ∀ key ∈ state.handed, key ∈ state.accepted

theorem step_grows (h : state.tables.Sound)
    (hstep : step identity library state event = some next) : state.Grows next := by
  have htables : ∀ key, state.tables.Knows key → next.tables.Knows key := by
    rcases step_archives h hstep with hnothing | ⟨id, poll, items, now, -, -, rfl⟩
    · exact fun key => (hnothing.knows key).mpr
    · exact (h.recordItems ..).kept
  have haccepted : ∀ key ∈ state.accepted, key ∈ next.accepted := by
    rcases step_archives h hstep with hnothing | ⟨id, poll, items, now, -, -, rfl⟩
    · exact fun key => (hnothing.accepted ▸ ·)
    · exact fun key => List.mem_append_left _
  refine ⟨htables, haccepted, ?_⟩
  cases step_cases identity library hstep with
  | @finishes _ poll =>
    intro subscription hprimed
    by_cases hsame : subscription = poll.subscriptionId
    · exact (if_pos hsame).trans (Bool.or_eq_true_iff.mpr (.inr hprimed))
    · exact (if_neg hsame).trans hprimed
  | _ => exact fun _ => id

/-- A step that gives one poll another stage, or ends it. -/
theorem Sound.setPoll (h : Sound identity library state) (hgrows : state.Grows next)
    (htables : next.tables.Sound) (hhanded : ∀ key ∈ next.handed, key ∈ next.accepted)
    {id : PollId} {poll : Option Poll}
    (hpolls : ∀ other, next.polls other = if other = id then poll else state.polls other)
    (hpoll : ∀ again, poll = some again → PollSound identity library next again) :
    Sound identity library next := by
  refine ⟨htables, fun other again hagain => ?_, hhanded⟩
  rw [hpolls] at hagain
  split at hagain
  · exact hpoll again hagain
  · exact (h.polls other again hagain).grows hgrows

theorem PollSound.failed {poll : Poll} (h : PollSound identity library state poll) :
    PollSound identity library state { poll with stage := .finishing none } where
  primed := h.primed
  archived _ hfailed := absurd rfl hfailed
  accepted _ hstage := nomatch hstage

/-- A poll that has archived goes on. -/
theorem PollSound.goesOn {poll : Poll} (h : PollSound identity library state poll)
    (hrequesting : poll.stage ≠ .requesting) (hfailed : poll.stage ≠ .finishing none)
    {stage : PollStage} (hstage : ∀ created, stage ≠ .archived created) :
    PollSound identity library state { poll with stage } where
  primed := h.primed
  archived _ _ := h.archived hrequesting hfailed
  accepted created hsame := absurd hsame (hstage created)

/-- The part of a listing that one poll takes is archived. -/
theorem archive_knows (h : state.tables.Sound) (id : PollId) (poll : Poll)
    (items : List DiscoveredItem) (now : Instant) {item : DiscoveredItem}
    (hmem : item ∈ items.take (itemsPerPoll (library poll.subscriptionId).kind)) :
    (archive identity library state id poll items now).tables.Knows
      (poll.subscriptionId, identity.keyOf item) :=
  (h.recordItems ..).archived _ (List.mem_map_of_mem hmem)

theorem step_sound (h : Sound identity library state)
    (hstep : step identity library state event = some next) : Sound identity library next := by
  have hgrows := step_grows h.tables hstep
  have htables : next.tables.Sound := by
    rcases step_archives h.tables hstep with hnothing | ⟨id, poll, items, now, -, -, rfl⟩
    · exact hnothing.sound
    · exact (h.tables.recordItems ..).sound
  have hkept (key) (hmem : key ∈ state.handed) : key ∈ next.accepted :=
    hgrows.accepted key (h.handed key hmem)
  cases step_cases identity library hstep with
  | begin subscription =>
    refine h.setPoll hgrows htables hkept (fun _ => rfl) fun again hagain => ?_
    obtain rfl := Option.some.inj hagain
    exact
      { primed := id
        archived := fun hrequesting => absurd rfl hrequesting
        accepted := fun _ hstage => nomatch hstage }
  | failed hpoll | unarchived _ _ hpoll | crashes _ hpoll =>
    refine h.setPoll hgrows htables hkept (fun _ => rfl) fun again hagain => ?_
    obtain rfl := Option.some.inj hagain
    exact ((h.polls _ _ hpoll).grows hgrows).failed
  | @archives id poll items now hpoll hstage =>
    refine h.setPoll hgrows htables hkept (fun _ => rfl) fun again hagain => ?_
    obtain rfl := Option.some.inj hagain
    exact
      { primed := ((h.polls _ _ hpoll).grows hgrows).primed
        archived := fun _ _ _ => archive_knows h.tables id poll items now
        accepted := fun created hsame row hmem hpending => by
          obtain rfl := PollStage.archived.inj hsame
          refine List.mem_append_right _ (List.mem_map_of_mem (List.mem_filter.mpr ⟨hmem, ?_⟩))
          rw [hpending]
          rfl }
  | forReview _ _ hpoll hstage | unmarked hpoll hstage | marks hpoll hstage =>
    refine h.setPoll hgrows htables hkept (fun _ => rfl) fun again hagain => ?_
    obtain rfl := Option.some.inj hagain
    refine ((h.polls _ _ hpoll).grows hgrows).goesOn ?_ ?_ (fun _ => PollStage.noConfusion)
    all_goals
      rw [hstage]
      exact PollStage.noConfusion
  | @hands id poll made taken hpoll hstage =>
    refine h.setPoll hgrows htables (fun key hmem => ?_) (fun _ => rfl) fun again hagain => ?_
    · rcases List.mem_append.mp hmem with hold | hnew
      · exact hkept key hold
      · obtain ⟨row, hrow, rfl⟩ := List.mem_map.mp hnew
        obtain ⟨hmade, hpending⟩ := List.mem_filter.mp hrow
        exact (h.polls _ _ hpoll).accepted made hstage row hmade (of_decide_eq_true hpending).1
    · obtain rfl := Option.some.inj hagain
      refine ((h.polls _ _ hpoll).grows hgrows).goesOn ?_ ?_ (fun _ => PollStage.noConfusion)
      all_goals
        rw [hstage]
        exact PollStage.noConfusion
  | unrecorded | finishes | stops =>
    exact h.setPoll hgrows htables hkept (fun _ => rfl) fun _ hagain => nomatch hagain
  | setsItem | setsPending | compacts =>
    exact ⟨htables, fun other again hagain => (h.polls other again hagain).grows hgrows, hkept⟩

theorem sound_empty : Sound identity library {} where
  tables := sound_initial
  polls _ _ hpoll := nomatch hpoll
  handed _ hmem := nomatch hmem

theorem itemRecord_accepted {subscription : Subscription} {primed : Bool} {now : Instant}
    {item : DiscoveredItem}
    (h : (itemRecord identity subscription primed now item).state ≠ .skipped) :
    subscription.decision item primed now = .ok () := by
  unfold itemRecord at h
  dsimp only at h
  split at h
  · assumption
  · exact absurd rfl h

/-- What a poll accepts was not known, and passed the filters. -/
theorem mem_accepted_archive (h : state.tables.Sound) {id : PollId} {poll : Poll}
    {items : List DiscoveredItem} {now : Instant} {key : SubscriptionId × String}
    (hmem : key ∈ (archive identity library state id poll items now).accepted) :
    key ∈ state.accepted ∨ (¬state.tables.Knows key ∧ ∃ item ∈ items,
      key = (poll.subscriptionId, identity.keyOf item) ∧
        (library poll.subscriptionId).decision item (treatedAsPrimed library poll) now =
          .ok ()) := by
  rcases List.mem_append.mp hmem with hold | hnew
  · exact .inl hold
  obtain ⟨row, hrow, rfl⟩ := List.mem_map.mp hnew
  obtain ⟨hmade, hstate⟩ := List.mem_filter.mp hrow
  have hrecords := h.recordItems poll.subscriptionId now
    (itemRecords identity (library poll.subscriptionId) items (treatedAsPrimed library poll) now)
  obtain ⟨record, hrecord, hkey, hsame⟩ := hrecords.listed row hmade
  obtain ⟨item, hitem, rfl⟩ := List.mem_map.mp hrecord
  refine .inr ⟨(hrecords.new row hmade).1, item, List.mem_of_mem_take hitem, hkey, ?_⟩
  exact itemRecord_accepted (hsame ▸ of_decide_eq_true hstate)

/-- The filters refuse whatever a poll of the subscription lists while it takes it for unprimed. -/
def RefusesHistory (library : SubscriptionId → Subscription) (subscription : SubscriptionId)
    (state : PollState) (event : PollEvent) : Prop :=
  ∀ id items now poll, event = .listed id items now false → state.polls id = some poll →
    poll.subscriptionId = subscription → poll.primed = false →
      ∀ item ∈ items, (library subscription).decision item false now ≠ .ok ()

theorem Reached.sound
    (h : (machine identity library).Reaches allowed state) : Sound identity library state := by
  refine h.invariant _ ?_ fun _ _ _ hsound _ hstep => step_sound hsound hstep
  rintro state rfl
  exact sound_empty

/-- As long as a subscription with a history is not primed, nothing of it has been accepted. -/
theorem none_accepted {subscription : SubscriptionId}
    (hkind : (library subscription).kind.hasBacklog = true)
    (h : (machine identity library).Reaches (RefusesHistory library subscription) state)
    (hprimed : state.primed subscription = false) :
    ∀ key ∈ state.accepted, key.1 ≠ subscription := by
  induction h with
  | initial h =>
    obtain rfl : _ = PollState.mk .. := h
    exact fun _ hmem => nomatch hmem
  | @step state event next h hallowed hstep ih =>
    have hsound := Reached.sound h
    have hunprimed : state.primed subscription = false := by
      by_contra hbefore
      have hafter := (step_grows hsound.tables hstep).primed _ (Bool.of_not_eq_false hbefore)
      exact Bool.false_ne_true (hprimed.symm.trans hafter)
    rcases step_archives hsound.tables hstep with
      hnothing | ⟨id, poll, items, now, hpoll, hevent, rfl⟩
    · exact fun key hmem => ih hunprimed key (hnothing.accepted ▸ hmem)
    intro key hmem hsame
    rcases mem_accepted_archive hsound.tables hmem with hold | ⟨-, item, hitem, rfl, hdecision⟩
    · exact ih hunprimed key hold hsame
    -- The poll began while the subscription was not primed.
    obtain rfl : poll.subscriptionId = subscription := hsame
    have hbegan : poll.primed = false := by
      by_contra hbegan
      have hrow := (hsound.polls id poll hpoll).primed (Bool.of_not_eq_false hbegan)
      exact Bool.false_ne_true (hunprimed.symm.trans hrow)
    have htreated : treatedAsPrimed library poll = false := by
      rw [treatedAsPrimed, hbegan, hkind]
      rfl
    rw [htreated] at hdecision
    exact hallowed id items now poll hevent hpoll rfl hbegan item hitem hdecision

/-- What is accepted later was not known, and some entry under its key passes the filters. -/
theorem mem_accepted_later (h : Sound identity library state) {later : List PollEvent}
    (hrun : (machine identity library).run state later = some last) :
    Sound identity library last ∧ ∀ key ∈ last.accepted, key ∈ state.accepted ∨
      (¬state.tables.Knows key ∧ ∃ item, identity.keyOf item = key.2 ∧
        (library key.1).Accepts item) := by
  induction later generalizing state with
  | nil =>
    obtain rfl := Option.some.inj hrun
    exact ⟨h, fun _ => .inl⟩
  | cons event later ih =>
    obtain ⟨next, hstep, hrest⟩ := Option.bind_eq_some_iff.mp hrun
    obtain ⟨hlast, haccepted⟩ := ih (step_sound h hstep) hrest
    refine ⟨hlast, fun key hmem => ?_⟩
    rcases haccepted key hmem with hnext | ⟨hnew, hitem⟩
    · rcases step_archives h.tables hstep with hnothing | ⟨id, poll, items, now, -, -, rfl⟩
      · exact .inl (hnothing.accepted ▸ hnext)
      · refine (mem_accepted_archive h.tables hnext).imp_right ?_
        rintro ⟨hnew, item, -, rfl, hdecision⟩
        exact ⟨hnew, item, rfl, .of_decision hdecision⟩
    · exact .inr ⟨fun hold => hnew ((step_grows h.tables hstep).knows key hold), hitem⟩

theorem itemsPerPoll_pos (kind : SubscriptionKind) : 0 < itemsPerPoll kind := by
  cases kind <;> decide

/-- A poll of a primed subscription accepts an entry that is not known and passes the filters. -/
theorem mem_accepted_archive_of_accepts (h : state.tables.Sound) (id : PollId) {poll : Poll}
    (hprimed : poll.primed = true) {item : DiscoveredItem} {now : Instant}
    (hnew : ¬state.tables.Knows (poll.subscriptionId, identity.keyOf item))
    (haccepts : (library poll.subscriptionId).Accepts item) :
    (poll.subscriptionId, identity.keyOf item) ∈
      (archive identity library state id poll [item] now).accepted := by
  have htreated : treatedAsPrimed library poll = true := by
    rw [treatedAsPrimed, hprimed]
    rfl
  obtain ⟨room, hroom⟩ := Nat.exists_eq_add_one.mpr
    (itemsPerPoll_pos (library poll.subscriptionId).kind)
  have hrecords : itemRecords identity (library poll.subscriptionId) [item] true now =
      [itemRecord identity (library poll.subscriptionId) true now item] := by
    rw [itemRecords, hroom, List.take_succ_cons, List.take_nil]
    rfl
  have hstate : (itemRecord identity (library poll.subscriptionId) true now item).state =
      .pending := by
    unfold itemRecord
    rw [Subscription.decision_primed.mpr haccepts]
  have hrecorded := (h.recordItem poll.subscriptionId
    (itemRecord identity (library poll.subscriptionId) true now item) now).2
  unfold archive
  rw [htreated, hrecords]
  dsimp only [ItemTables.recordItems]
  generalize (state.tables.recordItem poll.subscriptionId
    (itemRecord identity (library poll.subscriptionId) true now item) now).2.created = created
    at hrecorded
  cases hrecorded with
  | passed hknown => exact absurd hknown hnew
  | made =>
    refine List.mem_append_right _ (List.mem_map.mpr ⟨_, List.mem_filter.mpr
      ⟨List.mem_append_left _ (List.mem_singleton_self _), ?_⟩, rfl⟩)
    exact decide_eq_true (hstate ▸ SubscriptionItemState.noConfusion)

/-- After this poll, which is about to end, no entry it listed is accepted or handed over. -/
def NeverImported (identity : Identity) (library : SubscriptionId → Subscription)
    (state : PollState) (id : PollId) (poll : Poll) : Prop :=
  ∀ later last, (machine identity library).run state (.finish id false :: later) = some last →
    ∀ item ∈ poll.listed, (poll.subscriptionId, identity.keyOf item) ∉ last.accepted ∧
      (poll.subscriptionId, identity.keyOf item) ∉ last.handed

/-- A subscription that its row calls primed, and a poll of it that has begun. -/
theorem step_begin {subscription : SubscriptionId} (hprimed : state.primed subscription = true) :
    step identity library state (.begin subscription) =
      some { state.setPoll state.nextPoll (some ⟨subscription, true, [], .requesting⟩) with
        nextPoll := state.nextPoll + 1 } := by
  rw [← hprimed]
  rfl

/-- Once a subscription is primed, an entry that is not known and passes the filters is taken as
soon as it is listed. -/
theorem accepted_next {id : PollId} {poll : Poll} {outcome : PollCounts} {item : DiscoveredItem}
    (h : state.tables.Sound) (hpoll : state.polls id = some poll)
    (hstage : poll.stage = .finishing (some outcome))
    (hnew : ¬state.tables.Knows (poll.subscriptionId, identity.keyOf item))
    (haccepts : (library poll.subscriptionId).Accepts item) :
    ∃ later last, (machine identity library).run state (.finish id false :: later) = some last ∧
      (poll.subscriptionId, identity.keyOf item) ∈ last.accepted := by
  let primed := (state.setPoll id none).finishRun poll.subscriptionId (some outcome)
  let started : Poll := ⟨poll.subscriptionId, true, [], .requesting⟩
  let begun : PollState := { primed.setPoll primed.nextPoll (some started) with
    nextPoll := primed.nextPoll + 1 }
  have hfinish : step identity library state (.finish id false) = some primed := by
    simp only [step, hpoll, hstage, Option.bind_eq_bind, Option.bind_some]
    rfl
  have hbegin : step identity library primed (.begin poll.subscriptionId) = some begun :=
    step_begin (if_pos rfl)
  have hlist : step identity library begun (.listed primed.nextPoll [item] 0 false) =
      some (archive identity library begun primed.nextPoll started [item] 0) := by
    have hthere : begun.polls primed.nextPoll = some started := if_pos rfl
    simp only [step, hthere, Option.bind_eq_bind, Option.bind_some]
    rfl
  have hbegunSound : begun.tables.Sound := h
  have haccepted : (poll.subscriptionId, identity.keyOf item) ∈
      (archive identity library begun primed.nextPoll started [item] 0).accepted :=
    mem_accepted_archive_of_accepts hbegunSound _ rfl hnew haccepts
  refine ⟨[.begin poll.subscriptionId, .listed primed.nextPoll [item] 0 false], _, ?_, haccepted⟩
  simp only [Machine.run, machine, hfinish, hbegin, hlist, Option.bind_some]

/-- What was listed at the poll that primed a subscription is never accepted or handed over exactly
if the entries that the poll did not archive are known all the same or can never pass the
filters. -/
theorem neverImported_iff {id : PollId} {poll : Poll} {outcome : PollCounts}
    (hkind : (library poll.subscriptionId).kind.hasBacklog = true)
    (hreach : (machine identity library).Reaches
      (RefusesHistory library poll.subscriptionId) state)
    (hpoll : state.polls id = some poll) (hstage : poll.stage = .finishing (some outcome))
    (hfirst : state.primed poll.subscriptionId = false) :
    NeverImported identity library state id poll ↔
      ∀ item ∈ poll.listed.drop (itemsPerPoll (library poll.subscriptionId).kind),
        state.tables.Knows (poll.subscriptionId, identity.keyOf item) ∨
          ∀ again, identity.keyOf again = identity.keyOf item →
            ¬(library poll.subscriptionId).Accepts again := by
  have hsound := Reached.sound hreach
  constructor
  · intro hnever item hmem
    by_contra hopen
    obtain ⟨hnew, hagain⟩ := not_or.mp hopen
    obtain ⟨again, hkey, haccepts⟩ : ∃ again, identity.keyOf again = identity.keyOf item ∧
        (library poll.subscriptionId).Accepts again := by
      by_contra hno
      exact hagain fun again hkey haccepts => hno ⟨again, hkey, haccepts⟩
    obtain ⟨later, last, hrun, haccepted⟩ :=
      accepted_next hsound.tables hpoll hstage (hkey ▸ hnew) haccepts
    exact (hnever later last hrun item (List.mem_of_mem_drop hmem)).1 (hkey ▸ haccepted)
  · intro hcap later last hrun item hmem
    obtain ⟨hlast, haccepted⟩ := mem_accepted_later hsound hrun
    suffices h : (poll.subscriptionId, identity.keyOf item) ∉ last.accepted from
      ⟨h, fun hhanded => h (hlast.handed _ hhanded)⟩
    intro hbad
    rcases haccepted _ hbad with hbefore | ⟨hnew, again, hkey, haccepts⟩
    · exact none_accepted hkind hreach hfirst _ hbefore rfl
    rw [← List.take_append_drop (itemsPerPoll (library poll.subscriptionId).kind) poll.listed]
      at hmem
    rcases List.mem_append.mp hmem with htaken | hleft
    · refine hnew ((hsound.polls id poll hpoll).archived ?_ ?_ item htaken)
      all_goals
        rw [hstage]
        simp
    · rcases hcap item hleft with hknown | hrefused
      · exact hnew hknown
      · exact hrefused again hkey haccepts

/-- Keys by the address, and no marked passwords. -/
def byAddress : Identity where
  keyOf item := "url:" ++ item.url
  markedPassword _ := none

/-- A feed that is followed from now on, without filters. -/
def plainFeed : Subscription where
  kind := .feed
  mode := .review
  backlog := .fromNow
  filterDecision _ := .ok ()

/-- The nth entry of a feed. -/
def feedEntry (n : Nat) : DiscoveredItem where
  title := "entry"
  url := "https://example.org/" ++ String.ofList (List.replicate n 'e')
  publishedAt := some 0

theorem keyOf_feedEntry {n m : Nat}
    (h : byAddress.keyOf (feedEntry n) = byAddress.keyOf (feedEntry m)) : n = m := by
  have hlength := congrArg String.length h
  simp only [byAddress, feedEntry, String.length_append, String.length_ofList,
    List.length_replicate] at hlength
  omega

/-- A first poll of the feed that is about to end has archived what one poll takes. -/
theorem polled (count : Nat) :
    ∃ state poll outcome,
      (machine byAddress fun _ => plainFeed).Reaches (RefusesHistory (fun _ => plainFeed) 0) state ∧
      state.polls 0 = some poll ∧ poll.subscriptionId = 0 ∧
      poll.stage = .finishing (some outcome) ∧ state.primed 0 = false ∧
      poll.listed = (List.range count).map feedEntry ∧
      ∀ key, state.tables.Knows key → ∃ n < count, n < maxItemsPerPoll ∧
        key = (0, byAddress.keyOf (feedEntry n)) := by
  let begun : Poll := ⟨0, false, [], .requesting⟩
  let first : PollState := { setPoll {} 0 (some begun) with nextPoll := 1 }
  let items := (List.range count).map feedEntry
  let second := archive byAddress (fun _ => plainFeed) first 0 begun items 0
  let records := itemRecords byAddress plainFeed items false 0
  let created := (ItemTables.recordItems {} 0 0 records).2.created
  let listed : Poll := { begun with listed := items, stage := .archived created }
  let last := second.setPoll 0
    (some { listed with stage := .finishing (some (counts listed created)) })
  let feeds := machine byAddress fun _ => plainFeed
  have hfirst : feeds.step {} (.begin 0) = some first := rfl
  have hsecond : feeds.step first (.listed 0 items 0 false) = some second := rfl
  have hlast : feeds.step second (.handOver 0 [] false) = some last := rfl
  have hreach : feeds.Reaches (RefusesHistory (fun _ => plainFeed) 0) last := by
    refine .step (.step (.step (.initial rfl) ?_ hfirst) ?_ hsecond) ?_ hlast
    · exact fun _ _ _ _ hevent => nomatch hevent
    · intro id items' now poll hevent _ _ _ item hmem
      obtain ⟨-, rfl, rfl, -⟩ := PollEvent.listed.inj hevent
      obtain ⟨n, -, rfl⟩ := List.mem_map.mp hmem
      exact fun h => nomatch h
    · exact fun _ _ _ _ hevent => nomatch hevent
  refine ⟨last, _, _, hreach, rfl, rfl, rfl, rfl, rfl, fun key hknown => ?_⟩
  have hrecords := sound_initial.recordItems 0 0 records
  rcases hrecords.origin key hknown with hbefore | hmade
  · rcases hbefore with hbefore | hbefore <;> cases hbefore
  obtain ⟨row, hrow, rfl⟩ := List.mem_map.mp hmade
  obtain ⟨record, hrecord, hkey, -⟩ := hrecords.listed row hrow
  obtain ⟨item, hitem, rfl⟩ := List.mem_map.mp hrecord
  rw [← List.map_take, List.take_range] at hitem
  obtain ⟨n, hn, rfl⟩ := List.mem_map.mp hitem
  have hlt := List.mem_range.mp hn
  exact ⟨n, (Nat.lt_min.mp hlt).2, (Nat.lt_min.mp hlt).1, hkey⟩

theorem short_feed_neverImported :
    ∃ state poll, poll.listed = [feedEntry 0] ∧
      NeverImported byAddress (fun _ => plainFeed) state 0 poll := by
  obtain ⟨state, poll, outcome, hreach, hpoll, hsub, hstage, hfirst, hlisted, -⟩ := polled 1
  rw [← hsub] at hreach hfirst
  refine ⟨state, poll, hlisted, (neverImported_iff rfl hreach hpoll hstage hfirst).mpr ?_⟩
  rw [hlisted]
  exact fun _ hmem => nomatch hmem

/-- The last entry of a feed that lists one more than a poll takes is taken by the second poll. -/
theorem long_feed_imported :
    ¬∀ state id poll outcome,
      (machine byAddress fun _ => plainFeed).Reaches
        (RefusesHistory (fun _ => plainFeed) poll.subscriptionId) state →
      state.polls id = some poll → poll.stage = .finishing (some outcome) →
      state.primed poll.subscriptionId = false →
        NeverImported byAddress (fun _ => plainFeed) state id poll := by
  intro h
  obtain ⟨state, poll, outcome, hreach, hpoll, hsub, hstage, hfirst, hlisted, hknows⟩ :=
    polled (maxItemsPerPoll + 1)
  have hnew : ¬state.tables.Knows
      (poll.subscriptionId, byAddress.keyOf (feedEntry maxItemsPerPoll)) := by
    intro hknown
    obtain ⟨n, -, hlt, heq⟩ := hknows _ hknown
    exact Nat.ne_of_gt hlt (keyOf_feedEntry (Prod.mk.inj heq).2)
  obtain ⟨later, last, hrun, haccepted⟩ :=
    @accepted_next byAddress (fun _ => plainFeed) state 0 poll outcome _
      (Reached.sound hreach).tables hpoll hstage hnew ⟨rfl, rfl⟩
  have hnever := h state 0 poll outcome (hsub ▸ hreach) hpoll hstage (hsub ▸ hfirst)
  refine (hnever later last hrun _ ?_).1 haccepted
  rw [hlisted]
  exact List.mem_map_of_mem (List.mem_range.mpr (Nat.lt_succ_self _))

end PollState

end Subscriptions

end RDownloader
