import RDownloader.Lib.Machine
import RDownloader.Subscriptions.Archive

/-!
# The polls (`rd-api-core/src/subscription_service/poll.rs`, `rd-subscription/src/filter.rs`)

A poll works with the subscription as it was when the poll began, and several may be under way.
Each touches the database in statements of its own, between which anything else may happen.
When the next poll is due is not modelled: a poll may begin at any time.
-/

namespace RDownloader

namespace Subscriptions

inductive SubscriptionKind
  | media
  | gallery
  | feed
  | indexer
  | siteRule
  | script
  | gitRelease
  deriving DecidableEq, Repr

/-- Whether the first poll protects against a backlog. -/
def SubscriptionKind.hasBacklog : SubscriptionKind → Bool
  | script => false
  | _ => true

inductive SubscriptionMode
  | review
  | autoQueue
  deriving DecidableEq, Repr

inductive BacklogPolicy
  | fromNow
  | since (cutoff : Instant)
  | reviewAll
  deriving DecidableEq, Repr

/-- One item as a source described it. -/
structure DiscoveredItem where
  sourceId : Option String := none
  title : String
  url : String
  publishedAt : Option Instant := none
  durationSeconds : Option Nat := none
  language : Option String := none
  height : Option Nat := none
  publishedRaw : Option String := none
  sourceCategory : Option String := none
  mediaType : Option String := none
  attributes : List (String × String) := []
  releaseKey : Option String := none
  password : Option String := none
  /-- The adapter's own verdict. -/
  refused : Option FilterReason := none
  deriving DecidableEq, Repr

/-- What the filters judge. -/
structure CandidateItem where
  title : String
  publishedAt : Option Instant
  durationSeconds : Option Nat
  language : Option String
  height : Option Nat
  deriving DecidableEq, Repr

def candidateOf (item : DiscoveredItem) : CandidateItem where
  title := item.title
  publishedAt := item.publishedAt
  durationSeconds := item.durationSeconds
  language := item.language
  height := item.height

/-- What a poll goes by. -/
structure Subscription where
  kind : SubscriptionKind
  mode : SubscriptionMode
  backlog : BacklogPolicy
  /-- `filter_decision` with the filters of the subscription. -/
  filterDecision : CandidateItem → Except FilterReason Unit

/-- The first poll's verdict on an item that already existed. -/
def backlogDecision (item : CandidateItem) (now : Instant) :
    BacklogPolicy → Except FilterReason Unit
  | .fromNow => if item.publishedAt.all (· ≤ now) then .error .backlog else .ok ()
  | .since cutoff => if item.publishedAt.all (· < cutoff) then .error .backlog else .ok ()
  | .reviewAll => .ok ()

/-- `PreparedFilters::evaluate`. -/
def Subscription.evaluate (subscription : Subscription) (item : CandidateItem) (primed : Bool)
    (now : Instant) : Except FilterReason Unit := do
  if !primed then backlogDecision item now subscription.backlog
  subscription.filterDecision item

def maxItemsPerPoll : Nat := 500
def defaultLimit : Nat := 100
def maxPages : Nat := 20
def maxIndexerItems : Nat := maxPages * defaultLimit

/-- Most items one poll of a kind archives. -/
def itemsPerPoll : SubscriptionKind → Nat
  | .indexer => maxIndexerItems
  | _ => maxItemsPerPoll

/-- What is read off an item: the canonical key and the password its title is marked with. -/
structure Identity where
  keyOf : DiscoveredItem → String
  markedPassword : String → Option String

variable (identity : Identity)

/-- Accepted or refused; the adapter's own refusal is as final as a filter's. -/
def Subscription.decision (subscription : Subscription) (item : DiscoveredItem) (primed : Bool)
    (now : Instant) : Except FilterReason Unit :=
  match item.refused with
  | some reason => .error reason
  | none => subscription.evaluate (candidateOf item) primed now

/-- The archive row of an item. -/
def itemRecord (subscription : Subscription) (primed : Bool) (now : Instant)
    (item : DiscoveredItem) : NewSubscriptionItem where
  itemKey := identity.keyOf item
  title := item.title
  url := item.url
  publishedAt := item.publishedAt
  durationSeconds := item.durationSeconds
  state :=
    match subscription.decision item primed now with
    | .ok () => .pending
    | .error _ => .skipped
  reason :=
    match subscription.decision item primed now with
    | .ok () => none
    | .error reason => some reason
  sourceCategory := item.sourceCategory
  mediaType := item.mediaType
  attributes := item.attributes
  password := item.password.or (identity.markedPassword item.title)

/-- The archive rows of one poll's items. -/
def itemRecords (subscription : Subscription) (items : List DiscoveredItem) (primed : Bool)
    (now : Instant) : List NewSubscriptionItem :=
  (items.take (itemsPerPoll subscription.kind)).map (itemRecord identity subscription primed now)

/-- What a successful poll counted. -/
structure PollCounts where
  found : Nat
  accepted : Nat
  skipped : Nat
  deriving DecidableEq, Repr

/-- Where a poll is. -/
inductive PollStage
  | requesting
  /-- The items are archived. -/
  | archived (created : List SubscriptionItem)
  /-- The LinkGrabber has taken these of them, and they are still pending. -/
  | handed (created : List SubscriptionItem) (handed : List SubscriptionItemId)
  /-- The run is to be recorded; without counts it failed. -/
  | finishing (counts : Option PollCounts)
  deriving DecidableEq, Repr

/-- A poll that is under way. -/
structure Poll where
  subscriptionId : SubscriptionId
  /-- As it was when the poll began. -/
  primed : Bool
  /-- What the source answered. -/
  listed : List DiscoveredItem := []
  stage : PollStage := .requesting
  deriving DecidableEq, Repr

/-- A run as it is recorded. -/
structure SubscriptionRun where
  subscriptionId : SubscriptionId
  counts : Option PollCounts
  deriving DecidableEq, Repr

abbrev PollId := Nat

/-- The database, the polls under way, and what they have done. -/
structure PollState where
  tables : ItemTables := {}
  /-- The column `primed`. -/
  primed : SubscriptionId → Bool := fun _ => false
  runs : List SubscriptionRun := []
  polls : PollId → Option Poll := fun _ => none
  /-- No poll from here on has begun. -/
  nextPoll : PollId := 0
  /-- The keys `record_items` has returned as newly created. -/
  created : List (SubscriptionId × String) := []
  /-- Those of them that the poll accepted. -/
  accepted : List (SubscriptionId × String) := []
  /-- The keys that polls have handed to the LinkGrabber. -/
  handed : List (SubscriptionId × String) := []

inductive PollEvent
  /-- The subscription is due, or somebody checks it now. -/
  | begin (subscription : SubscriptionId)
  /-- The request fails, or the poll panics. -/
  | failed (poll : PollId)
  /-- The source answers, and the items are archived unless the statement fails. -/
  | listed (poll : PollId) (items : List DiscoveredItem) (now : Instant) (fault : Bool)
  /-- The LinkGrabber takes these of the accepted items, unless the crash point stops the poll. -/
  | handOver (poll : PollId) (taken : List SubscriptionItemId) (crashPoint : Bool)
  | markQueued (poll : PollId) (fault : Bool)
  | finish (poll : PollId) (fault : Bool)
  /-- The process stops, and the poll with it. -/
  | stop (poll : PollId)
  /-- Decisions of a review. -/
  | setItem (id : SubscriptionItemId) (state : SubscriptionItemState)
  | setPending (ids : List SubscriptionItemId) (state : SubscriptionItemState)
  | compact (before : Instant) (scan : List SubscriptionItemId)

namespace PollState

def setPoll (state : PollState) (id : PollId) (poll : Option Poll) : PollState :=
  { state with polls := fun other => if other = id then poll else state.polls other }

variable (library : SubscriptionId → Subscription)

/-- A source without a history is primed from its first run. -/
def treatedAsPrimed (poll : Poll) : Bool :=
  poll.primed || !(library poll.subscriptionId).kind.hasBacklog

/-- A backlog collection is always reviewed, whatever the mode says. -/
def autoQueue (poll : Poll) : Bool :=
  (library poll.subscriptionId).mode = .autoQueue &&
    !(!treatedAsPrimed library poll && (library poll.subscriptionId).backlog = .reviewAll)

/-- The counts of a poll that archived. -/
def counts (poll : Poll) (created : List SubscriptionItem) : PollCounts :=
  let accepted := (created.filter fun row => row.state ≠ .skipped).length
  { found := poll.listed.length, accepted, skipped := created.length - accepted }

/-- The records go into the archive. -/
def archive (state : PollState) (id : PollId) (poll : Poll) (items : List DiscoveredItem)
    (now : Instant) : PollState :=
  let (tables, recorded) := state.tables.recordItems poll.subscriptionId now
    (itemRecords identity (library poll.subscriptionId) items (treatedAsPrimed library poll) now)
  { state.setPoll id (some { poll with listed := items, stage := .archived recorded.created }) with
    tables
    created := state.created ++ recorded.created.map (·.key)
    accepted := state.accepted ++
      (recorded.created.filter fun row => row.state ≠ .skipped).map (·.key) }

/-- `queue_accepted`, up to the statement that marks the items. -/
def handOver (state : PollState) (id : PollId) (poll : Poll) (created : List SubscriptionItem)
    (taken : List SubscriptionItemId) : PollState :=
  let handed := created.filter fun row => row.state = .pending ∧ row.id ∈ taken
  { state.setPoll id (some { poll with stage := .handed created (handed.map (·.id)) }) with
    handed := state.handed ++ handed.map (·.key) }

/-- `finish_run`: a run that did not fail primes the subscription. -/
def finishRun (state : PollState) (subscription : SubscriptionId) (counts : Option PollCounts) :
    PollState :=
  { state with
    runs := state.runs ++ [⟨subscription, counts⟩]
    primed := fun other =>
      if other = subscription then counts.isSome || state.primed other else state.primed other }

def step (state : PollState) : PollEvent → Option PollState
  | .begin subscription =>
    some { state.setPoll state.nextPoll
        (some ⟨subscription, state.primed subscription, [], .requesting⟩)
      with nextPoll := state.nextPoll + 1 }
  | .failed id => do
    let poll ← state.polls id
    some (state.setPoll id (some { poll with stage := .finishing none }))
  | .listed id items now fault => do
    let poll ← state.polls id
    match poll.stage with
    | .requesting =>
      if fault then some (state.setPoll id (some { poll with stage := .finishing none }))
      else some (archive identity library state id poll items now)
    | _ => none
  | .handOver id taken crashPoint => do
    let poll ← state.polls id
    match poll.stage with
    | .archived created =>
      if !autoQueue library poll then
        some (state.setPoll id (some { poll with stage := .finishing (counts poll created) }))
      else if crashPoint then some (state.setPoll id (some { poll with stage := .finishing none }))
      else some (state.handOver id poll created taken)
    | _ => none
  | .markQueued id fault => do
    let poll ← state.polls id
    match poll.stage with
    | .handed created handed =>
      let state := state.setPoll id (some { poll with stage := .finishing (counts poll created) })
      -- A failure is logged, and the poll goes on.
      if fault then some state
      else some { state with tables := state.tables.setPendingItemsState handed .queued }
    | _ => none
  | .finish id fault => do
    let poll ← state.polls id
    match poll.stage with
    | .finishing counts =>
      let state := state.setPoll id none
      if fault then some state else some (state.finishRun poll.subscriptionId counts)
    | _ => none
  | .stop id => do
    let _ ← state.polls id
    some (state.setPoll id none)
  | .setItem id itemState => do
    let tables ← state.tables.setItemState id itemState
    some { state with tables }
  | .setPending ids itemState =>
    some { state with tables := state.tables.setPendingItemsState ids itemState }
  | .compact before scan => some { state with tables := state.tables.compactItems before scan }

def machine : Machine PollState PollEvent where
  initial state := state = {}
  step := step identity library

/-- What a step does, one constructor for each way it can go. -/
inductive StepsTo (state : PollState) : PollEvent → PollState → Prop
  | begin (subscription : SubscriptionId) : StepsTo state (.begin subscription)
      { state.setPoll state.nextPoll
          (some ⟨subscription, state.primed subscription, [], .requesting⟩)
        with nextPoll := state.nextPoll + 1 }
  | failed {id : PollId} {poll : Poll} (hpoll : state.polls id = some poll) :
      StepsTo state (.failed id) (state.setPoll id (some { poll with stage := .finishing none }))
  | unarchived {id : PollId} {poll : Poll} (items : List DiscoveredItem) (now : Instant)
      (hpoll : state.polls id = some poll) (hstage : poll.stage = .requesting) :
      StepsTo state (.listed id items now true)
        (state.setPoll id (some { poll with stage := .finishing none }))
  | archives {id : PollId} {poll : Poll} (items : List DiscoveredItem) (now : Instant)
      (hpoll : state.polls id = some poll) (hstage : poll.stage = .requesting) :
      StepsTo state (.listed id items now false)
        (archive identity library state id poll items now)
  | forReview {id : PollId} {poll : Poll} {made : List SubscriptionItem}
      (taken : List SubscriptionItemId) (crashPoint : Bool) (hpoll : state.polls id = some poll)
      (hstage : poll.stage = .archived made) (hmode : autoQueue library poll = false) :
      StepsTo state (.handOver id taken crashPoint)
        (state.setPoll id (some { poll with stage := .finishing (counts poll made) }))
  | crashes {id : PollId} {poll : Poll} {made : List SubscriptionItem}
      (taken : List SubscriptionItemId) (hpoll : state.polls id = some poll)
      (hstage : poll.stage = .archived made) : StepsTo state (.handOver id taken true)
        (state.setPoll id (some { poll with stage := .finishing none }))
  | hands {id : PollId} {poll : Poll} {made : List SubscriptionItem}
      (taken : List SubscriptionItemId) (hpoll : state.polls id = some poll)
      (hstage : poll.stage = .archived made) : StepsTo state (.handOver id taken false)
        (state.handOver id poll made taken)
  | unmarked {id : PollId} {poll : Poll} {made : List SubscriptionItem}
      {ids : List SubscriptionItemId} (hpoll : state.polls id = some poll)
      (hstage : poll.stage = .handed made ids) : StepsTo state (.markQueued id true)
        (state.setPoll id (some { poll with stage := .finishing (counts poll made) }))
  | marks {id : PollId} {poll : Poll} {made : List SubscriptionItem}
      {ids : List SubscriptionItemId} (hpoll : state.polls id = some poll)
      (hstage : poll.stage = .handed made ids) : StepsTo state (.markQueued id false)
        { state.setPoll id (some { poll with stage := .finishing (counts poll made) }) with
          tables := state.tables.setPendingItemsState ids .queued }
  | unrecorded {id : PollId} {poll : Poll} {outcome : Option PollCounts}
      (hpoll : state.polls id = some poll) (hstage : poll.stage = .finishing outcome) :
      StepsTo state (.finish id true) (state.setPoll id none)
  | finishes {id : PollId} {poll : Poll} {outcome : Option PollCounts}
      (hpoll : state.polls id = some poll) (hstage : poll.stage = .finishing outcome) :
      StepsTo state (.finish id false)
        ((state.setPoll id none).finishRun poll.subscriptionId outcome)
  | stops {id : PollId} {poll : Poll} (hpoll : state.polls id = some poll) :
      StepsTo state (.stop id) (state.setPoll id none)
  | setsItem {item : SubscriptionItemId} {itemState : SubscriptionItemState} {tables : ItemTables}
      (hset : state.tables.setItemState item itemState = some tables) :
      StepsTo state (.setItem item itemState) { state with tables }
  | setsPending (ids : List SubscriptionItemId) (itemState : SubscriptionItemState) :
      StepsTo state (.setPending ids itemState)
        { state with tables := state.tables.setPendingItemsState ids itemState }
  | compacts (before : Instant) (scan : List SubscriptionItemId) :
      StepsTo state (.compact before scan)
        { state with tables := state.tables.compactItems before scan }

theorem step_cases {state next : PollState} {event : PollEvent}
    (hstep : step identity library state event = some next) :
    StepsTo identity library state event next := by
  cases event with
  | begin subscription =>
    obtain rfl := Option.some.inj hstep
    exact .begin subscription
  | failed id =>
    obtain ⟨poll, hpoll, hnext⟩ := Option.bind_eq_some_iff.mp hstep
    obtain rfl := Option.some.inj hnext
    exact .failed hpoll
  | listed id items now fault =>
    obtain ⟨poll, hpoll, hnext⟩ := Option.bind_eq_some_iff.mp hstep
    split at hnext
    case h_2 => cases hnext
    next hstage =>
      cases fault with
      | true =>
        obtain rfl := Option.some.inj hnext
        exact .unarchived items now hpoll hstage
      | false =>
        obtain rfl := Option.some.inj hnext
        exact .archives items now hpoll hstage
  | handOver id taken crashPoint =>
    obtain ⟨poll, hpoll, hnext⟩ := Option.bind_eq_some_iff.mp hstep
    split at hnext
    case h_2 => cases hnext
    next created hstage =>
      split at hnext
      case isTrue hmode =>
        obtain rfl := Option.some.inj hnext
        exact .forReview taken crashPoint hpoll hstage (by simpa using hmode)
      case isFalse =>
        cases crashPoint with
        | true =>
          obtain rfl := Option.some.inj hnext
          exact .crashes taken hpoll hstage
        | false =>
          obtain rfl := Option.some.inj hnext
          exact .hands taken hpoll hstage
  | markQueued id fault =>
    obtain ⟨poll, hpoll, hnext⟩ := Option.bind_eq_some_iff.mp hstep
    dsimp only at hnext
    split at hnext
    case h_2 => cases hnext
    next created handed hstage =>
      cases fault with
      | true =>
        obtain rfl := Option.some.inj hnext
        exact .unmarked hpoll hstage
      | false =>
        obtain rfl := Option.some.inj hnext
        exact .marks hpoll hstage
  | finish id fault =>
    obtain ⟨poll, hpoll, hnext⟩ := Option.bind_eq_some_iff.mp hstep
    dsimp only at hnext
    split at hnext
    case h_2 => cases hnext
    next counts hstage =>
      cases fault with
      | true =>
        obtain rfl := Option.some.inj hnext
        exact .unrecorded hpoll hstage
      | false =>
        obtain rfl := Option.some.inj hnext
        exact .finishes hpoll hstage
  | stop id =>
    obtain ⟨poll, hpoll, hnext⟩ := Option.bind_eq_some_iff.mp hstep
    obtain rfl := Option.some.inj hnext
    exact .stops hpoll
  | setItem id itemState =>
    obtain ⟨tables, hset, hnext⟩ := Option.bind_eq_some_iff.mp hstep
    obtain rfl := Option.some.inj hnext
    exact .setsItem hset
  | setPending ids itemState =>
    obtain rfl := Option.some.inj hstep
    exact .setsPending ids itemState
  | compact before scan =>
    obtain rfl := Option.some.inj hstep
    exact .compacts before scan

end PollState

end Subscriptions

end RDownloader
