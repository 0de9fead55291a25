import RDownloader.Core.Words
import RDownloader.Lib.Machine
import RDownloader.Usenet.Nntp

/-!
# The lines of one news server (`rd-usenet/src/pool.rs`, `pool/slot.rs`, `pool/line.rs`)

A pool keeps a list of connections, each carrying up to two requests. A request chooses its place
under the list's lock; everything else it does interleaves with the other requests, which may be
cancelled wherever they wait, and with the server, which answers in any order.
-/

namespace RDownloader

/-- `PIPELINE_DEPTH`. -/
def pipelineDepth : Nat := 2

/-- `ARTICLE_ATTEMPTS`. -/
def articleAttempts : Nat := 3

/-- `MAX_PASSES`. -/
def maxPasses : Nat := 3 * articleAttempts

/-- `REMEMBERED`: ids remembered per line. -/
def remembered : Nat := 2 * pipelineDepth + 2

/-! ## One line -/

/-- An answer of the server, and the command it answers. -/
structure Answered (δ : Type u) where
  command : Text
  answer : NntpAnswer δ

inductive Progress (δ : Type u) where
  | pending
  /-- Its request has read this answer to the end. -/
  | finished (read : Answered δ)
  /-- Its request left before it had read one. -/
  | dropped

/-- A request's turn to read, in the order of the commands sent. -/
structure Turn (δ : Type u) where
  command : Text
  progress : Progress δ := .pending

/-- One connection. -/
structure Line (δ : Type u) where
  /-- The writer is locked. -/
  writing : Bool := false
  inFlight : Nat := 0
  broken : Bool := false
  /-- Held by a request that must not share the line. -/
  reserved : Bool := false
  /-- The last few ids sent. -/
  sent : List Text := []
  turns : List (Turn δ) := []
  /-- The commands the server has yet to answer. -/
  unanswered : List Text := []
  /-- Its answers that nobody has read. -/
  wire : List (Answered δ) := []

/-- What the `222` line said about the body it introduced. -/
inductive Named where
  | requested
  | nothing
  /-- An id nobody on this line asked for. -/
  | other (answered : Text)

inductive Outcome (δ : Type u) where
  | body (data : δ) (named : Named)
  | unavailable (status : Text) (alone : Bool)
  | serverFault (status : Text)
  | swapped (answered : Text)
  | broken (error : Text)
  /-- An earlier request broke the line and took this one's answer with it. -/
  | collateral

namespace Line

def remember (line : Line δ) (messageId : Text) : List Text :=
  (if line.sent.length = remembered then line.sent.drop 1 else line.sent) ++ [messageId]

def settleTurn (line : Line δ) (turn : Nat) (progress : Progress δ) : Line δ :=
  { line with turns := line.turns.modify turn fun turn => { turn with progress } }

/-- `Turn::finish`. -/
def finishTurn (line : Line δ) (turn : Nat) (read : Answered δ) : Line δ :=
  line.settleTurn turn (.finished read)

/-- The `Turn` is dropped before it has finished. -/
def dropTurn (line : Line δ) (turn : Nat) : Line δ :=
  { line.settleTurn turn .dropped with broken := true }

/-- The command is on its way, and the request behind takes its place after it. -/
def send (line : Line δ) (expected : Text) : Line δ :=
  { line with
    writing := false
    sent := line.remember expected
    turns := line.turns ++ [{ command := expected }]
    unanswered := line.unanswered ++ [expected] }

/-- Sending fails, or is given up; the server may have been sent the whole command. -/
def abandonSend (line : Line δ) (expected : Text) (delivered : Bool) : Line δ :=
  { line with
    writing := false
    unanswered := if delivered then line.unanswered ++ [expected] else line.unanswered }

/-- How far the request is that sent before this turn's. -/
def beforeTurn (line : Line δ) (turn : Nat) : Option (Progress δ) :=
  match turn with
  | 0 => none
  | turn + 1 => (line.turns[turn]?).map (·.progress)

/-- `Line::exchange`, from the answer on. -/
def readAnswer (line : Line δ) (turn : Nat) (expected : Text) : Option (Outcome δ × Line δ) :=
  match line.wire with
  | [] => none
  | read :: wire =>
    let line := { line with wire }
    some <| match readBody read.answer with
    | .ok body =>
      match body.messageId with
      | none => (.body body.data .nothing, line.finishTurn turn read)
      | some answered =>
        if answered = expected then (.body body.data .requested, line.finishTurn turn read)
        -- not finished on purpose: the turn's drop breaks the line
        else if answered ∈ line.sent then (.swapped answered, line.dropTurn turn)
        else (.body body.data (.other answered), line.finishTurn turn read)
    | .error (.unavailable status) =>
      (.unavailable status (line.inFlight = 1), line.finishTurn turn read)
    | .error (.serverFault status) => (.serverFault status, line.dropTurn turn)
    | .error (.broken error) => (.broken error, line.dropTurn turn)

end Line

/-! ## One request -/

/-- A transient answer. -/
inductive ArticleFault where
  | connect (error : Text)
  | undecoded (error : Text)
  | returned (status : Text)
  | broken (error : Text)

inductive FaultDetail where
  /-- The first fault, and how many there were. -/
  | afterAttempts (first : Option ArticleFault) (faults : Nat)
  /-- The connection kept breaking under earlier requests. -/
  | keptBreaking

inductive FetchError where
  | unavailable (status : Text)
  | serverFault (detail : FaultDetail)

/-- What `ServerPool::article` carries from one pass to the next. -/
structure ArticleLoop where
  unconfirmed : Option Text := none
  faults : Nat := 0
  firstFault : Option ArticleFault := none

/-- One request's place on a line. -/
structure Slot where
  line : Nat
  exclusive : Bool

/-- What a request does once it has left its line. `none` is the answer of a cancelled one. -/
inductive AfterSlot (α : Type v) where
  | again (loop : ArticleLoop)
  | finish (result : Option (Except FetchError α))

inductive RequestPhase (δ : Type u) (α : Type v) where
  /-- At the head of the loop. -/
  | between
  /-- In `slot`, waiting for the list's lock. -/
  | looking
  /-- It holds the lock, and the broken lines are off the list. -/
  | choosing
  | connecting
  /-- The connection is made and not on the list yet. -/
  | opened (slot : Slot)
  /-- It is on the list, and its reservation still counts. -/
  | pushed (slot : Slot)
  /-- On a line, waiting to send. -/
  | placed (slot : Slot)
  | sending (slot : Slot)
  /-- Waiting for its turn to read. -/
  | queued (slot : Slot) (turn : Nat)
  | reading (slot : Slot) (turn : Nat)
  | answered (slot : Slot) (outcome : Outcome δ)
  | leaving (slot : Slot) (next : AfterSlot α)
  | done (result : Option (Except FetchError α))

structure Request (δ : Type u) (α : Type v) where
  messageId : Text
  loop : ArticleLoop := {}
  passes : Nat := 0
  phase : RequestPhase δ α := .between

namespace ArticleLoop

/-- `count_fault`. -/
def countFault (loop : ArticleLoop) (fault : ArticleFault) : ArticleLoop :=
  { loop with
    faults := loop.faults + 1
    firstFault := if loop.faults = 0 then some fault else loop.firstFault }

/-- What the request returns when its passes or its attempts are used up. -/
def exhausted (loop : ArticleLoop) : Except FetchError α :=
  if 0 < loop.faults then .error (.serverFault (.afterAttempts loop.firstFault loop.faults))
  else
    match loop.unconfirmed with
    | some status => .error (.unavailable status)
    | none => .error (.serverFault .keptBreaking)

/-- What an outcome ends in. -/
def settle (decodeYenc : δ → Except Text α) (depth : Nat) (loop : ArticleLoop) :
    Outcome δ → AfterSlot α
  | .body data _ =>
    match decodeYenc data with
    | .ok article => .finish (some (.ok article))
    | .error error => .again (loop.countFault (.undecoded error))
  | .unavailable status alone =>
    if alone || depth = 1 then .finish (some (.error (.unavailable status)))
    else .again { loop with unconfirmed := some status }
  | .serverFault status => .again (loop.countFault (.returned status))
  | .swapped _ => .again loop
  | .broken error => .again (loop.countFault (.broken error))
  | .collateral => .again loop

end ArticleLoop

/-- The request retires its line on this outcome. -/
def Outcome.retires : Outcome δ → Bool
  | .serverFault _ | .swapped _ | .broken _ | .collateral => true
  | .body .. | .unavailable .. => false

/-- The outcome shows that the server does not keep pipelined answers in step, or that nobody can
tell. -/
def Outcome.outOfStep : Outcome δ → Bool
  | .body _ .requested => false
  | .body .. | .swapped _ => true
  | _ => false

namespace RequestPhase

/-- The place the request has on a line. -/
def slot? : RequestPhase δ α → Option Slot
  | .opened slot | .pushed slot | .placed slot | .sending slot | .queued slot _ | .reading slot _
  | .answered slot _ | .leaving slot _ => some slot
  | .between | .looking | .choosing | .connecting | .done _ => none

def isDone : RequestPhase δ α → Bool
  | .done _ => true
  | _ => false

end RequestPhase

/-- The id the request names to the server. -/
def Request.expected (request : Request δ α) : Text := request.messageId.trimBrackets

/-! ## The pool -/

structure ServerPool (δ : Type u) (α : Type v) where
  /-- Connections this pool may open to the server. -/
  connections : Nat
  /-- Commands a line may carry at once. -/
  depth : Nat
  /-- Every line there has been, as far as `opened`. -/
  lines : Nat → Line δ := fun _ => {}
  opened : Nat := 0
  /-- The list of lines. -/
  listed : List Nat := []
  /-- The list's lock is held. -/
  locked : Bool := false
  connecting : Nat := 0
  requests : List (Request δ α) := []
  /-- What the server has answered. -/
  answers : List (Answered δ) := []

inductive Choice where
  | use (slot : Slot)
  | connect
  | wait

/-- What a request does next. -/
inductive Act where
  | pass
  | lock
  | choose
  | connected
  | connectFails (error : Text)
  | push
  | unreserve
  | lockWriter
  | send
  | sendFails (error : Text) (delivered : Bool)
  | turn
  | read
  | readBreaks (error : Text)
  | settle
  | leave
  /-- Its future is dropped; a command it was sending may have gone out whole. -/
  | cancel (delivered : Bool)

inductive PoolEvent (δ : Type u) where
  | ask (messageId : Text)
  | act (request : Nat) (act : Act)
  /-- The server answers one of the commands it has not answered yet. -/
  | serve (line index : Nat) (answer : NntpAnswer δ)

namespace ServerPool

/-- `ServerPool::new`; `outOfStep` says whether the server is known for answers out of step. -/
def new (connections : Nat) (outOfStep : Bool) : ServerPool δ α where
  connections
  depth := if outOfStep then 1 else pipelineDepth

def put (pool : ServerPool δ α) (index : Nat) (request : Request δ α)
    (phase : RequestPhase δ α) : ServerPool δ α :=
  { pool with requests := pool.requests.set index { request with phase } }

def updateLine (pool : ServerPool δ α) (index : Nat) (f : Line δ → Line δ) : ServerPool δ α :=
  { pool with lines := fun i => if i = index then f (pool.lines i) else pool.lines i }

/-- `retain` on the list. -/
def retain (pool : ServerPool δ α) (keep : Nat → Bool) : ServerPool δ α :=
  { pool with listed := pool.listed.filter keep }

/-- Whether the line may be joined. -/
def joinable (pool : ServerPool δ α) (index : Nat) : Bool := !(pool.lines index).reserved

/-- The first of the lines that carry the fewest requests: `min_by_key`. -/
def leastLoaded (pool : ServerPool δ α) : List Nat → Option Nat
  | [] => none
  | index :: rest =>
    match pool.leastLoaded rest with
    | none => some index
    | some other =>
      if (pool.lines other).inFlight < (pool.lines index).inFlight then some other else some index

/-- The choice `slot` makes under the lock. -/
def choice (pool : ServerPool δ α) (alone : Bool) : Choice :=
  let idle := pool.listed.find? fun i => pool.joinable i && (pool.lines i).inFlight = 0
  let room := pool.listed.length + pool.connecting < pool.connections
  match idle with
  | some line => .use ⟨line, alone⟩
  | none =>
    if room then .connect
    else if alone then .wait
    else
      match pool.leastLoaded (pool.listed.filter fun i =>
          pool.joinable i && (pool.lines i).inFlight < pool.depth) with
      | some line => .use ⟨line, false⟩
      | none => .wait

/-- `take`: one place on the line. -/
def take (pool : ServerPool δ α) (slot : Slot) : ServerPool δ α :=
  pool.updateLine slot.line fun line =>
    { line with inFlight := line.inFlight + 1, reserved := line.reserved || slot.exclusive }

/-- The `Slot` is dropped. -/
def release (pool : ServerPool δ α) (slot : Slot) : ServerPool δ α :=
  pool.updateLine slot.line fun line =>
    { line with inFlight := line.inFlight - 1, reserved := line.reserved && !slot.exclusive }

/-- The `Connecting` is dropped. -/
def unreserve (pool : ServerPool δ α) : ServerPool δ α :=
  { pool with connecting := pool.connecting - 1 }

/-- `retire`. -/
def retire (pool : ServerPool δ α) (line : Nat) : ServerPool δ α :=
  (pool.updateLine line fun line => { line with broken := true }).retain (· ≠ line)

/-- A cancelled request lets go of what it holds. -/
def cancel (pool : ServerPool δ α) (index : Nat) (request : Request δ α) (delivered : Bool) :
    Option (ServerPool δ α) :=
  let leaving slot := RequestPhase.leaving slot (.finish none)
  match request.phase with
  | .between | .looking => some (pool.put index request (.done none))
  | .connecting => some (pool.unreserve.put index request (.done none))
  | .opened slot => some ((pool.release slot).unreserve.put index request (.done none))
  | .placed slot => some (pool.put index request (leaving slot))
  -- nothing marks the line: there is no turn yet
  | .sending slot =>
    some ((pool.updateLine slot.line (·.abandonSend request.expected delivered)).put index request
      (leaving slot))
  | .queued slot turn | .reading slot turn =>
    some ((pool.updateLine slot.line (·.dropTurn turn)).put index request (leaving slot))
  | .answered slot outcome =>
    if outcome.retires then
      some ((pool.updateLine slot.line fun line => { line with broken := true }).put index request
        (leaving slot))
    else none
  | .choosing | .pushed _ | .leaving .. | .done _ => none

section
variable (decodeYenc : δ → Except Text α)

/-- A request takes its next step. -/
def act (pool : ServerPool δ α) (index : Nat) (request : Request δ α) (act : Act) :
    Option (ServerPool δ α) :=
  match request.phase, act with
  | .between, .pass =>
    if request.passes = maxPasses ∨ articleAttempts ≤ request.loop.faults then
      some (pool.put index request (.done (some request.loop.exhausted)))
    else some (pool.put index { request with passes := request.passes + 1 } .looking)
  | .looking, .lock =>
    if pool.locked then none
    else
      some ({ pool.retain (fun line => !(pool.lines line).broken) with locked := true }.put index
        request .choosing)
  | .choosing, .choose =>
    let unlocked := { pool with locked := false }
    match pool.choice request.loop.unconfirmed.isSome with
    | .use slot => some ((unlocked.take slot).put index request (.placed slot))
    | .connect =>
      some ({ unlocked with connecting := pool.connecting + 1 }.put index request .connecting)
    | .wait => some (unlocked.put index request .looking)
  | .connecting, .connected =>
    let slot := ⟨pool.opened, request.loop.unconfirmed.isSome⟩
    some (({ pool with opened := pool.opened + 1 }.take slot).put index request (.opened slot))
  | .connecting, .connectFails error =>
    some (pool.unreserve.put index
      { request with loop := request.loop.countFault (.connect error) } .between)
  | .opened slot, .push =>
    if pool.locked then none
    else some ({ pool with listed := pool.listed ++ [slot.line] }.put index request (.pushed slot))
  | .pushed slot, .unreserve => some (pool.unreserve.put index request (.placed slot))
  | .placed slot, .lockWriter =>
    let line := pool.lines slot.line
    if line.writing then none
    else if line.broken then some (pool.put index request (.answered slot .collateral))
    else
      some ((pool.updateLine slot.line fun line => { line with writing := true }).put index request
        (.sending slot))
  | .sending slot, .send =>
    if '\r' ∈ request.messageId ∨ '\n' ∈ request.messageId then none
    else
      some ((pool.updateLine slot.line (·.send request.expected)).put index request
        (.queued slot (pool.lines slot.line).turns.length))
  | .sending slot, .sendFails error delivered =>
    some ((pool.updateLine slot.line fun line =>
      { line.abandonSend request.expected delivered with broken := true }).put index request
        (.answered slot (.broken error)))
  | .queued slot turn, .turn =>
    let line := pool.lines slot.line
    let collateral := (pool.updateLine slot.line (·.dropTurn turn)).put index request
      (.answered slot .collateral)
    match line.beforeTurn turn with
    | some .pending => none
    | some .dropped => some collateral
    | none | some (.finished _) =>
      if line.broken then some collateral
      else some (pool.put index request (.reading slot turn))
  | .reading slot turn, .read =>
    ((pool.lines slot.line).readAnswer turn request.expected).map fun (outcome, line) =>
      (pool.updateLine slot.line fun _ => line).put index request (.answered slot outcome)
  | .reading slot turn, .readBreaks error =>
    some ((pool.updateLine slot.line (·.dropTurn turn)).put index request
      (.answered slot (.broken error)))
  | .answered slot outcome, .settle =>
    let next := request.loop.settle decodeYenc pool.depth outcome
    let depth := if outcome.outOfStep then 1 else pool.depth
    if outcome.retires then
      if pool.locked then none
      else some ({ pool.retire slot.line with depth }.put index request (.leaving slot next))
    else some ({ pool with depth }.put index request (.leaving slot next))
  | .leaving slot next, .leave =>
    some <| match next with
    | .again loop => (pool.release slot).put index { request with loop } .between
    | .finish result => (pool.release slot).put index request (.done result)
  | _, .cancel delivered => pool.cancel index request delivered
  | _, _ => none

def serve (pool : ServerPool δ α) (line index : Nat) (answer : NntpAnswer δ) :
    Option (ServerPool δ α) :=
  (pool.lines line).unanswered[index]?.map fun command =>
    let answered : Answered δ := ⟨command, answer⟩
    { pool.updateLine line fun line =>
        { line with
          unanswered := line.unanswered.eraseIdx index
          wire := line.wire ++ [answered] } with
      answers := answered :: pool.answers }

def step (pool : ServerPool δ α) : PoolEvent δ → Option (ServerPool δ α)
  | .ask messageId =>
    -- one permit per request the server may see at once
    if pool.requests.countP (!·.phase.isDone) < pool.connections * pipelineDepth then
      some { pool with requests := pool.requests ++ [{ messageId }] }
    else none
  | .act index act => pool.requests[index]?.bind fun request =>
      pool.act decodeYenc index request act
  | .serve line index answer => pool.serve line index answer

def machine : Machine (ServerPool δ α) (PoolEvent δ) where
  initial pool := ∃ connections outOfStep, 0 < connections ∧ pool = new connections outOfStep
  step := step decodeYenc

end
end ServerPool

/-! ## The pools of a set of servers -/

structure NntpServerConfig where
  host : Text
  port : Nat
  maxConnections : Nat

/-- `NntpPool::gauged`: one pool for each server, and the connections they may hold in all.
`outOfStep` are the servers whose answers were found out of step before. -/
def gauged (outOfStep : Text × Nat → Bool) (configs : List NntpServerConfig) (cap : Option Nat) :
    Except String (List (ServerPool δ α) × Nat) :=
  match configs with
  | [] => .error "no enabled NNTP server is configured"
  | configs => configs.foldlM add ([], 0)
where
  add : List (ServerPool δ α) × Nat → NntpServerConfig →
      Except String (List (ServerPool δ α) × Nat)
    | (servers, maxParallel), config =>
      if config.maxConnections = 0 then .error "NNTP server connection limit is zero"
      else
        let connections := match cap with
          | none => config.maxConnections
          | some cap => min config.maxConnections (max cap 1)
        if u64Max < maxParallel + connections then .error "NNTP connection limit overflow"
        else
          .ok (servers ++ [.new connections (outOfStep (config.host, config.port))],
            maxParallel + connections)

end RDownloader
