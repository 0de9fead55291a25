import RDownloader.Core.Words
import RDownloader.Lib.Broadcast

/-!
# The event bus

The live channel and the bounded replay buffer beside it. A send writes both under one lock, and a
follower that fell behind takes what it missed from the buffer, with a fresh receiver from the same
step.
-/

namespace RDownloader

abbrev EventId := Nat

structure EventEnvelope where
  id : EventId
  /-- The payload as it is serialised. -/
  payload : List UInt8
  deriving DecidableEq, Repr

structure Buffered where
  event : EventEnvelope
  bytes : Nat
  seq : Nat
  deriving DecidableEq, Repr

/-- `LIVE_CAPACITY`. -/
def liveCapacity : Nat := 512

/-- The live channel plus the bounded buffer, as they are behind the lock. -/
structure EventBus where
  live : Broadcast EventEnvelope := { capacity := liveCapacity }
  buffer : List Buffered := []
  bytes : Nat := 0
  maxEvents : Nat
  maxBytes : Nat
  nextSeq : Nat := 0

inductive Replay
  | events (events : List EventEnvelope)
  | expired
  deriving DecidableEq, Repr

/-- `Iterator::rposition`. -/
def rposition (p : α → Bool) (l : List α) : Option Nat :=
  (l.reverse.findIdx? p).map (l.length - 1 - ·)

/-- What a follower that fell behind takes from the buffer, and where it goes on from. -/
structure CatchUp where
  events : List EventEnvelope
  live : Nat
  next : Nat
  lost : Nat

namespace EventBus

variable (bus : EventBus)

def bounded (events bytes : Nat) : EventBus := { maxEvents := events, maxBytes := bytes }

/-- The oldest go until the bounds are met, and the newest always stays. -/
def evict : List Buffered → Nat → List Buffered × Nat
  | [], bytes => ([], bytes)
  | evicted :: rest, bytes =>
    if 1 < (evicted :: rest).length ∧
        (bus.maxEvents < (evicted :: rest).length ∨ bus.maxBytes < bytes) then
      evict rest (bytes - evicted.bytes)
    else (evicted :: rest, bytes)

def record (event : EventEnvelope) : EventBus :=
  let bytes := event.payload.length
  let kept := bus.evict (bus.buffer ++ [⟨event, bytes, bus.nextSeq⟩]) (saturatingAdd bus.bytes bytes)
  { bus with buffer := kept.1, bytes := kept.2, nextSeq := bus.nextSeq + 1 }

def send (event : EventEnvelope) : EventBus :=
  let bus := bus.record event
  { bus with live := bus.live.send event }

/-- A receiver for everything sent from now on. -/
def subscribe : Nat := bus.live.tail

def resume (after : EventId) : Replay × Nat :=
  match rposition (·.event.id = after) bus.buffer with
  | some position => (.events ((bus.buffer.drop (position + 1)).map (·.event)), bus.subscribe)
  | none => (.expired, bus.subscribe)

/-- Everything buffered from a sequence number on, and a receiver for everything after. -/
def since (first : Nat) : CatchUp where
  events := (bus.buffer.filter (first ≤ ·.seq)).map (·.event)
  live := bus.subscribe
  next := bus.nextSeq
  lost := (bus.buffer.head?.elim bus.nextSeq (·.seq)) - first

end EventBus

/-- A subscriber that takes what it fell behind on from the buffer. -/
structure Follower where
  live : Nat
  /-- The sequence number of the next event the live receiver hands over. -/
  next : Nat
  replayed : List EventEnvelope := []
  /-- Its receiver said it lagged, and it turns to the bus next. -/
  behind : Bool := false
  deriving DecidableEq, Repr

def EventBus.follow (bus : EventBus) : Follower := { live := bus.subscribe, next := bus.nextSeq }

/-- One turn of the loop of `recv`: the lock is taken in a turn of its own. What it returns, if the
call ends with it. -/
def Follower.turn (follower : Follower) (bus : EventBus) : Follower × Option (Told EventEnvelope) :=
  if follower.behind then
    let catchUp := bus.since follower.next
    ({ live := catchUp.live, next := catchUp.next, replayed := catchUp.events },
      if 0 < catchUp.lost then some (.lagged catchUp.lost) else none)
  else
    match follower.replayed with
    | event :: replayed => ({ follower with replayed }, some (.item event))
    | [] =>
      match bus.live.recv follower.live with
      | (.got event, live) => ({ follower with live, next := follower.next + 1 }, some (.item event))
      | (.lagged _, live) => ({ follower with live, behind := true }, none)
      | (.empty, live) => ({ follower with live }, none)

/-- At most so many turns, until one returns. -/
def Follower.recv (bus : EventBus) : Nat → Follower → Follower × Option (Told EventEnvelope)
  | 0, follower => (follower, none)
  | turns + 1, follower =>
    match follower.turn bus with
    | (follower, some told) => (follower, some told)
    | (follower, none) => recv bus turns follower

end RDownloader
