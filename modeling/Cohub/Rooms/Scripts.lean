import Mathlib.Data.List.Sort
import Cohub.Lib.ExpiringKey
import Cohub.Lib.Mealy
import Cohub.Lib.OrderedMap

/-! # The scripts of app rooms

    `packages/infra/src/app-room/scripts.ts`: the Lua scripts that keep a
    room's seats, its sequence number and its history in Redis.  Each script
    runs atomically, at the time Redis tells it (`NOW`, in milliseconds).

    A room's keys are the meta record that `createAppRoom` writes once, a hash
    of members, a sorted set of leases, the sequence counter, the window of
    the publish rate, the history stream and its meta hash.  All of them
    expire with the room, the rate window after two seconds.

    What the scripts only pass on (presence, model, publications, event data)
    is of a type `Data`.  The length of a history entry's JSON text is a
    parameter: the order of its members is not fixed. -/

namespace Cohub.Rooms

/-! ## The keys of a room -/

inductive ActorKind where
  | user | agent | cli
  deriving DecidableEq

/-- What the scripts read of the room's meta record. -/
structure RoomMeta where
  expiresAtMs     : Nat
  maxParticipants : Nat
  seatPerUser     : Bool

/-- A member as stored.  Fields that Lua may set to `nil` are optional. -/
structure RoomMember (Data : Type) where
  participantId : String
  joinedAt : String
  userKey : String
  kind : Option ActorKind
  model : Option Data
  connectionId : String
  instanceId : Option String
  leaseSeconds : Option Nat
  presence : Option Data
  rtcSessionId : Option String
  publications : Option Data
  deriving DecidableEq

/-- What `public` leaves of a member. -/
structure PublicMember (Data : Type) where
  participantId : String
  joinedAt : String
  userKey : String
  kind : ActorKind
  model : Option Data
  presence : Option Data
  publications : Option Data
  deriving DecidableEq

/-- `existing.kind or "user"`. -/
def RoomMember.kindOrUser {Data : Type} (member : RoomMember Data) : ActorKind :=
  member.kind.getD .user

def RoomMember.public {Data : Type} (member : RoomMember Data) : PublicMember Data :=
  { participantId := member.participantId, joinedAt := member.joinedAt, userKey := member.userKey
    kind := member.kindOrUser, model := member.model, presence := member.presence
    publications := member.publications }

structure RateWindow where
  second : Nat
  count  : Nat

/-- An entry of the history stream; `size` is its field `z`. -/
structure HistoryEntry (Data : Type) where
  sequence : Nat
  id : String
  timestamp : Nat
  type : String
  clientEventId : Option String
  sender : String
  data : Data
  size : Nat

/-- The history stream; it remembers the last id it ever had. -/
structure HistoryStream (Data : Type) where
  entries : List (HistoryEntry Data)
  lastId  : Nat

structure HistoryMeta where
  bytes : Int
  floor : Option Nat

instance {Data : Type} : Inhabited (OrderedMap String (RoomMember Data)) := ⟨OrderedMap.empty⟩
instance : Inhabited (OrderedMap String Nat) := ⟨OrderedMap.empty⟩
instance : Inhabited HistoryMeta := ⟨{ bytes := 0, floor := none }⟩

/-- The keys of a room, at the time Redis has. -/
structure AppRoom (Data : Type) where
  now : Nat
  roomMeta : ExpiringKey (Option RoomMeta)
  members : ExpiringKey (OrderedMap String (RoomMember Data))
  leases : ExpiringKey (OrderedMap String Nat)
  sequence : ExpiringKey (Option Nat)
  rate : ExpiringKey (Option RateWindow)
  history : ExpiringKey (Option (HistoryStream Data))
  historyMeta : ExpiringKey HistoryMeta

/-- A room as `createAppRoom` leaves it. -/
def createAppRoom (Data : Type) (now : Nat) (info : RoomMeta) : AppRoom Data :=
  { now := now
    roomMeta := { value := some info, deadline := some info.expiresAtMs }
    members := .absent, leases := .absent, sequence := .absent, rate := .absent
    history := .absent, historyMeta := .absent }

/-! ## What clients send and get -/

/-- The seat a script is about: the participant and the connection (`owner`). -/
structure SeatRef where
  participantId : String
  owner         : String
  deriving DecidableEq

/-- The arguments of `CLAIM_SEAT`. -/
structure ClaimInput (Data : Type) where
  seat : SeatRef
  leaseSeconds : Nat
  joinedAt : String
  userKey : String
  instanceId : Option String
  kind : ActorKind
  model : Option Data
  hosted : Bool
  /-- A presence to set, which may be `null`. -/
  presence : Option (Option Data)

/-- The arguments of `PUBLISH`. -/
structure PublishInput (Data : Type) where
  seat : SeatRef
  eventId : String
  event : String
  data : Data
  dataLength : Nat
  maxRate : Nat
  clientEventId : Option String
  record : Bool
  maxLength : Nat
  maxBytes : Nat

inductive RoomScript (Data : Type) where
  | claimSeat (input : ClaimInput Data)
  | leave (seat : SeatRef)
  | renew (seat : SeatRef) (leaseSeconds : Nat)
  | setPresence (seat : SeatRef) (leaseSeconds : Nat) (presence : Option Data)
  | publish (input : PublishInput Data)
  | readHistory (after : Int) (limit : Nat)
  | announce
  | sweep

/-- The event a publish sends to the room. -/
structure PublishedEvent (Data : Type) where
  sequence : Nat
  id : String
  timestamp : Nat
  event : String
  data : Data
  clientEventId : Option String
  sender : String
  recorded : Bool

/-- What a script returns.  `failed` is an error of a Redis command. -/
inductive RoomReply (Data : Type) where
  | code (value : Int)
  | claimed (isNew : Bool) (member : PublicMember Data) (droppedPublications : Bool)
      (swept : List String)
  | left (member : PublicMember Data)
  | presence (member : PublicMember Data)
  | published (event : PublishedEvent Data)
  | history (entries : List (HistoryEntry Data)) (truncated : Bool) (latest : Nat)
  | announced (sequence : Nat)
  | swept (participantIds : List String)
  | failed

namespace AppRoom

variable {Data : Type}

/-! ## Parts of scripts -/

/-- Time passes; keys past their deadline are gone. -/
def elapse (room : AppRoom Data) (elapsed : Nat) : AppRoom Data :=
  let now := room.now + elapsed
  { now := now
    roomMeta := room.roomMeta.expire now, members := room.members.expire now
    leases := room.leases.expire now, sequence := room.sequence.expire now
    rate := room.rate.expire now, history := room.history.expire now
    historyMeta := room.historyMeta.expire now }

/-- Members of a sorted set, by score and then by name. -/
def byScore (leases : OrderedMap String Nat) : List (String × Nat) :=
  leases.entries.insertionSort fun a b => a.2 < b.2 ∨ a.2 = b.2 ∧ a.1 ≤ b.1

/-- `zrangebyscore(leases, -inf, now)`. -/
def expiredSeats (room : AppRoom Data) : List String :=
  ((byScore room.leases.value).filter fun e => e.2 ≤ room.now).map Prod.fst

/-- Delete an entry; a key without entries does not exist. -/
def deleteEntry {α : Type} [Inhabited (OrderedMap String α)] (key : ExpiringKey (OrderedMap String α))
    (id : String) : ExpiringKey (OrderedMap String α) :=
  let rest := key.value.delete id
  if rest.size = 0 then .absent else key.write rest

/-- `hdel(members, id)` and `zrem(leases, id)`. -/
def removeSeat (room : AppRoom Data) (id : String) : AppRoom Data :=
  { room with members := deleteEntry room.members id, leases := deleteEntry room.leases id }

/-- `LIVE_ROOM`. -/
def liveRoom (room : AppRoom Data) : Except Int RoomMeta :=
  match room.roomMeta.value with
  | none => .error (-1)
  | some info => if info.expiresAtMs ≤ room.now then .error (-2) else .ok info

/-- `OWNED_SEAT`. -/
def ownedSeat (room : AppRoom Data) (seat : SeatRef) : Except Int (RoomMember Data) :=
  match room.members.value.get? seat.participantId, room.leases.value.get? seat.participantId with
  | some member, some lease =>
      if lease ≤ room.now then .error (-3)
      else if member.connectionId ≠ seat.owner then .error (-5)
      else .ok member
  | _, _ => .error (-3)

/-- `zadd(leases, min(now + leaseSeconds * 1000, expiresAtMs), id)`. -/
def setLease (room : AppRoom Data) (info : RoomMeta) (leaseSeconds : Nat) (id : String) :
    AppRoom Data :=
  { room with
    leases := room.leases.write
      (room.leases.value.set id (min (room.now + leaseSeconds * 1000) info.expiresAtMs)) }

/-- `hset(members, id, member)`. -/
def setMember (room : AppRoom Data) (id : String) (member : RoomMember Data) : AppRoom Data :=
  { room with members := room.members.write (room.members.value.set id member) }

/-- `incr(sequence)` and its deadline. -/
def nextSequence (room : AppRoom Data) (info : RoomMeta) : AppRoom Data × Nat :=
  let sequence := room.sequence.value.getD 0 + 1
  ({ room with sequence := (room.sequence.write (some sequence)).expireAt info.expiresAtMs }, sequence)

/-! ## Seats -/

/-- The seat of a user who has one already, where the room allows one only. -/
def seatOfUser (room : AppRoom Data) (userKey : String) : Option String :=
  (byScore room.leases.value).findSome? fun e =>
    match room.members.value.get? e.1 with
    | some existing =>
        if existing.userKey = userKey ∧ existing.kindOrUser = .user then some e.1 else none
    | none => none

/-- The participant whose seat a claim takes. -/
def claimedId (room : AppRoom Data) (info : RoomMeta) (input : ClaimInput Data) : String :=
  if info.seatPerUser ∧ input.kind = .user then
    (room.seatOfUser input.userKey).getD input.seat.participantId
  else input.seat.participantId

/-- A seat is taken over by another instance of its client. -/
def isOtherInstance (current : RoomMember Data) (input : ClaimInput Data) : Bool :=
  input.instanceId.isNone || current.instanceId != input.instanceId

def claimingMember (current : Option (RoomMember Data)) (id : String) (input : ClaimInput Data) :
    RoomMember Data :=
  let kept := match current with
    | some member =>
        if isOtherInstance member input then
          { member with rtcSessionId := none, publications := none }
        else member
    | none =>
        { participantId := id, joinedAt := input.joinedAt, userKey := input.userKey
          kind := none, model := none, connectionId := "", instanceId := none
          leaseSeconds := none, presence := none, rtcSessionId := none, publications := none }
  { kept with
    userKey := input.userKey
    kind := some input.kind
    model := input.model
    connectionId := input.seat.owner
    instanceId := input.instanceId
    leaseSeconds := if input.hosted then some input.leaseSeconds else none
    presence := input.presence.getD kept.presence }

/-- `CLAIM_SEAT` after the sweep. -/
def claimSwept (room : AppRoom Data) (info : RoomMeta) (input : ClaimInput Data)
    (swept : List String) : AppRoom Data × RoomReply Data :=
  let id := room.claimedId info input
  let current := room.members.value.get? id
  if current.isNone ∧ info.maxParticipants ≤ room.leases.value.size then (room, .code (-3))
  else
    let member := claimingMember current id input
    let seated := (room.setMember id member).setLease info input.leaseSeconds id
    ({ seated with
        members := seated.members.expireAt info.expiresAtMs
        leases := seated.leases.expireAt info.expiresAtMs },
      .claimed current.isNone member.public
        (current.any fun c => isOtherInstance c input && c.publications.isSome) swept)

/-- `CLAIM_SEAT`. -/
def claimSeat (room : AppRoom Data) (input : ClaimInput Data) : AppRoom Data × RoomReply Data :=
  match room.liveRoom with
  | .error code => (room, .code code)
  | .ok info =>
      let swept := room.expiredSeats
      (swept.foldl removeSeat room).claimSwept info input swept

/-- `LEAVE`. -/
def leave (room : AppRoom Data) (seat : SeatRef) : AppRoom Data × RoomReply Data :=
  match room.members.value.get? seat.participantId with
  | none => (room, .code 0)
  | some member =>
      if member.connectionId ≠ seat.owner then (room, .code (-1))
      else (room.removeSeat seat.participantId, .left member.public)

/-- Go on with the room's meta record and the member of an owned seat. -/
def withSeat (room : AppRoom Data) (seat : SeatRef)
    (next : RoomMeta → RoomMember Data → AppRoom Data × RoomReply Data) :
    AppRoom Data × RoomReply Data :=
  match room.liveRoom with
  | .error code => (room, .code code)
  | .ok info =>
      match room.ownedSeat seat with
      | .error code => (room, .code code)
      | .ok member => next info member

/-- `RENEW`. -/
def renew (room : AppRoom Data) (seat : SeatRef) (leaseSeconds : Nat) :
    AppRoom Data × RoomReply Data :=
  room.withSeat seat fun info member =>
    (room.setLease info (member.leaseSeconds.getD leaseSeconds) seat.participantId, .code 1)

/-- `SET_PRESENCE`. -/
def setPresence (room : AppRoom Data) (seat : SeatRef) (leaseSeconds : Nat)
    (presence : Option Data) : AppRoom Data × RoomReply Data :=
  room.withSeat seat fun info member =>
    let next := { member with presence := presence }
    ((room.setMember seat.participantId next).setLease info
        (member.leaseSeconds.getD leaseSeconds) seat.participantId, .presence next.public)

/-- `SWEEP`. -/
def sweep (room : AppRoom Data) : AppRoom Data × RoomReply Data :=
  let removed := room.expiredSeats
  (removed.foldl removeSeat room, .swept removed)

/-! ## Events -/

/-- Count a publish in the window of the current second. -/
def countPublish (room : AppRoom Data) : AppRoom Data × Nat :=
  let second := room.now / 1000
  let count := match room.rate.value with
    | some window => if window.second = second then window.count + 1 else 1
    | none => 1
  ({ room with
      rate := { value := some { second := second, count := count }
                deadline := some (room.now + 2000) } }, count)

/-- The eviction loop: drop the oldest entries while there are too many or
    they are too large. -/
def evict (maxLength maxBytes : Nat) :
    List (HistoryEntry Data) → HistoryMeta → List (HistoryEntry Data) × HistoryMeta
  | [], info => ([], info)
  | oldest :: rest, info =>
      if maxLength < rest.length + 1 ∨ maxBytes < info.bytes then
        evict maxLength maxBytes rest
          { bytes := info.bytes - oldest.size, floor := some oldest.sequence }
      else (oldest :: rest, info)

/-- Record an event.  `xadd` fails unless its id is greater than all before. -/
def recordEvent (room : AppRoom Data) (info : RoomMeta) (entry : HistoryEntry Data)
    (maxLength maxBytes : Nat) : Option (AppRoom Data) :=
  let historyMeta :=
    if room.history.value.isNone then { room.historyMeta.value with bytes := 0 }
    else room.historyMeta.value
  let stream := room.history.value.getD { entries := [], lastId := 0 }
  if entry.sequence ≤ stream.lastId then none
  else
    let kept := evict maxLength maxBytes (stream.entries ++ [entry])
      { historyMeta with bytes := historyMeta.bytes + entry.size }
    some { room with
      history := (room.history.write (some { entries := kept.1, lastId := entry.sequence })).expireAt
        info.expiresAtMs
      historyMeta := (room.historyMeta.write kept.2).expireAt info.expiresAtMs }

def publishedEvent (input : PublishInput Data) (now sequence : Nat) : PublishedEvent Data :=
  { sequence := sequence, id := input.eventId, timestamp := now, event := input.event
    data := input.data, clientEventId := input.clientEventId
    sender := input.seat.participantId, recorded := input.record }

def publishedEntry (entryLength : PublishedEvent Data → Nat) (input : PublishInput Data)
    (now sequence : Nat) : HistoryEntry Data :=
  { sequence := sequence, id := input.eventId, timestamp := now, type := input.event
    clientEventId := input.clientEventId, sender := input.seat.participantId, data := input.data
    size := entryLength (publishedEvent input now sequence) + input.dataLength }

/-- A publish renews the lease of a seat that has its own lease time. -/
def renewPublisher (room : AppRoom Data) (info : RoomMeta) (member : RoomMember Data)
    (seat : SeatRef) : AppRoom Data :=
  match member.leaseSeconds with
  | some leaseSeconds => room.setLease info leaseSeconds seat.participantId
  | none => room

/-- `PUBLISH` after the rate check. -/
def publishCounted (entryLength : PublishedEvent Data → Nat) (room : AppRoom Data) (info : RoomMeta)
    (member : RoomMember Data) (input : PublishInput Data) : AppRoom Data × RoomReply Data :=
  let numbered := (room.renewPublisher info member input.seat).nextSequence info
  let reply := .published (publishedEvent input room.now numbered.2)
  if input.record then
    match numbered.1.recordEvent info (publishedEntry entryLength input room.now numbered.2)
        input.maxLength input.maxBytes with
    | some recorded => (recorded, reply)
    | none => (numbered.1, .failed)
  else (numbered.1, reply)

/-- `PUBLISH`. -/
def publish (entryLength : PublishedEvent Data → Nat) (room : AppRoom Data)
    (input : PublishInput Data) : AppRoom Data × RoomReply Data :=
  room.withSeat input.seat fun info member =>
    let counted := room.countPublish
    if input.maxRate < counted.2 then (counted.1, .code (-4))
    else publishCounted entryLength counted.1 info member input

/-- `READ_HISTORY`. -/
def readHistory (room : AppRoom Data) (after : Int) (limit : Nat) : RoomReply Data :=
  let entries := (room.history.value.map HistoryStream.entries).getD []
  let latest := room.sequence.value.getD 0
  if after < 0 then .history (entries.drop (entries.length - limit)) false latest
  else
    .history ((entries.filter fun entry => after < entry.sequence).take limit)
      (after < (room.historyMeta.value.floor.getD 0 : Nat)) latest

/-- `ANNOUNCE`. -/
def announce (room : AppRoom Data) : AppRoom Data × RoomReply Data :=
  match room.liveRoom with
  | .error code => (room, .code code)
  | .ok info =>
      let numbered := room.nextSequence info
      (numbered.1, .announced numbered.2)

def runScript (entryLength : PublishedEvent Data → Nat) (room : AppRoom Data) :
    RoomScript Data → AppRoom Data × RoomReply Data
  | .claimSeat input => room.claimSeat input
  | .leave seat => room.leave seat
  | .renew seat leaseSeconds => room.renew seat leaseSeconds
  | .setPresence seat leaseSeconds presence => room.setPresence seat leaseSeconds presence
  | .publish input => room.publish entryLength input
  | .readHistory after limit => (room, room.readHistory after limit)
  | .announce => room.announce
  | .sweep => room.sweep

/-- A room over time: each input is a script and the time since the one
    before. -/
def machine (entryLength : PublishedEvent Data → Nat) :
    Mealy (AppRoom Data) (Nat × RoomScript Data) (RoomReply Data) where
  step room input :=
    let ran := (room.elapse input.1).runScript entryLength input.2
    (ran.1, [ran.2])

end AppRoom

end Cohub.Rooms
