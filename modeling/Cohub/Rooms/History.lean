import Mathlib.Data.Rat.Floor
import Cohub.Rooms.Seats

/-! # The history of an app room

    `AppRoomStore.publish` and `AppRoomStore.history` of
    `packages/infra/src/app-room/store.ts`: recorded events go to a history of
    limited length and size, and a reader fetches them page by page while the
    room goes on.  The invariant says what the history still has (`HistoryInv`);
    from it follows what a reader has got after any number of pages.

    Cursors and sequence numbers are below 10^14, the numbers Lua writes out in
    full. -/

namespace Cohub.Rooms

open List

variable {Data : Type}

/-! ## Pages -/

def REALTIME_ROOM_HISTORY_PAGE : Nat := 200

/-- `RealtimeRoomHistoryEvent`. -/
structure RoomHistoryEvent (Data : Type) where
  id : String
  timestamp : Nat
  sequence : Nat
  type : String
  data : Data
  clientEventId : Option String
  sender : String
  deriving DecidableEq

def HistoryEntry.toHistoryEvent (entry : HistoryEntry Data) : RoomHistoryEvent Data :=
  { id := entry.id, timestamp := entry.timestamp, sequence := entry.sequence, type := entry.type
    data := entry.data, clientEventId := entry.clientEventId, sender := entry.sender }

/-- `RealtimeRoomHistory`. -/
structure HistoryPage (Data : Type) where
  events    : List (RoomHistoryEvent Data)
  cursor    : Int
  truncated : Bool
  deriving DecidableEq

/-- `limit` as `history` sends it. -/
def historyLimit (limit : Option Rat) : Nat :=
  (min (max 1 (limit.map Rat.floor |>.getD REALTIME_ROOM_HISTORY_PAGE))
    (REALTIME_ROOM_HISTORY_PAGE : Int)).toNat

/-- `after` as `history` sends it. -/
def historyAfter (after : Option Rat) : Int :=
  match after with
  | none => -1
  | some after => max 0 after.floor

namespace AppRoom

/-- `history`. -/
def historyPage (room : AppRoom Data) (after limit : Option Rat) : HistoryPage Data :=
  match room.readHistory (historyAfter after) (historyLimit limit) with
  | .history entries truncated latest =>
      let events := entries.map HistoryEntry.toHistoryEvent
      { events := events
        cursor :=
          match events.getLast? with
          | some last =>
              if events.length = historyLimit limit then last.sequence
              else max (historyAfter after) latest
          | none => max (historyAfter after) latest
        truncated := truncated }
  | _ => { events := [], cursor := 0, truncated := false }

/-! ## A room and its reader -/

/-- What happens to a room: a script after some time, or a page after some
    time. -/
inductive RoomStep (Data : Type) where
  | script (elapsed : Nat) (script : RoomScript Data)
  | page (elapsed : Nat) (limit : Option Rat)

/-- What a step hands out. -/
inductive RoomOutput (Data : Type) where
  | reply (reply : RoomReply Data)
  | page (page : HistoryPage Data)

/-- A room and the cursor of a reader. -/
structure ReadRoom (Data : Type) where
  room   : AppRoom Data
  cursor : Rat

/-- `publish` sends the limits of the history with every event. -/
def withLimits (maxLength maxBytes : Nat) : RoomScript Data → RoomScript Data
  | .publish input => .publish { input with maxLength := maxLength, maxBytes := maxBytes }
  | script => script

/-- A room with a reader that continues from the cursor of its last page. -/
def readMachine (entryLength : PublishedEvent Data → Nat) (maxLength maxBytes : Nat) :
    Mealy (ReadRoom Data) (RoomStep Data) (RoomOutput Data) where
  step s
    | .script elapsed script =>
        let ran := (s.room.elapse elapsed).runScript entryLength
          (withLimits maxLength maxBytes script)
        ({ s with room := ran.1 }, [.reply ran.2])
    | .page elapsed limit =>
        let room := s.room.elapse elapsed
        let page := room.historyPage (some s.cursor) limit
        ({ room := room, cursor := page.cursor }, [.page page])

def repliesOf (outputs : List (RoomOutput Data)) : List (RoomReply Data) :=
  outputs.filterMap fun
    | .reply reply => some reply
    | .page _ => none

def pagesOf (outputs : List (RoomOutput Data)) : List (HistoryPage Data) :=
  outputs.filterMap fun
    | .reply _ => none
    | .page page => some page

/-- The event a publish recorded, as a reader gets it. -/
def recordedEvent : RoomReply Data → Option (RoomHistoryEvent Data)
  | .published event =>
      if event.recorded then
        some { id := event.id, timestamp := event.timestamp, sequence := event.sequence
               type := event.event, data := event.data, clientEventId := event.clientEventId
               sender := event.sender }
      else none
  | _ => none

/-- Every event that was recorded, in order. -/
def recordedEvents (replies : List (RoomReply Data)) : List (RoomHistoryEvent Data) :=
  replies.filterMap recordedEvent

/-- The events a reader got. -/
def collected (outputs : List (RoomOutput Data)) : List (RoomHistoryEvent Data) :=
  (pagesOf outputs).flatMap (·.events)

/-- No page reported that events are missing. -/
def Untruncated (outputs : List (RoomOutput Data)) : Prop :=
  ∀ page ∈ pagesOf outputs, page.truncated = false

def totalSize : List (HistoryEntry Data) → Int
  | [] => 0
  | entry :: rest => entry.size + totalSize rest

/-! ## What the history has -/

/-- The number of the last event that was evicted. -/
def floorOf (info : HistoryMeta) : Nat := info.floor.getD 0

theorem evict_spec (maxLength maxBytes : Nat) (entries : List (HistoryEntry Data))
    (info : HistoryMeta) (hsorted : (entries.map HistoryEntry.sequence).Pairwise (· < ·))
    (habove : ∀ entry ∈ entries, floorOf info < entry.sequence)
    (hbytes : info.bytes = totalSize entries) :
    let kept := evict maxLength maxBytes entries info
    floorOf info ≤ floorOf kept.2 ∧
      kept.1 = entries.filter (fun entry => floorOf kept.2 < entry.sequence) ∧
      kept.1.length ≤ maxLength ∧ kept.2.bytes ≤ maxBytes ∧ kept.2.bytes = totalSize kept.1 := by
  induction entries generalizing info with
  | nil =>
    refine ⟨Nat.le_refl _, rfl, Nat.zero_le _, ?_, hbytes⟩
    show info.bytes ≤ maxBytes
    rw [hbytes]
    exact Int.natCast_nonneg maxBytes
  | cons oldest rest ih =>
    rw [map_cons, pairwise_cons] at hsorted
    intro kept
    have hkept : kept = evict maxLength maxBytes (oldest :: rest) info := rfl
    rw [evict] at hkept
    split at hkept
    · -- the oldest goes, and its number is the new floor
      have hfloor : floorOf { bytes := info.bytes - oldest.size, floor := some oldest.sequence } =
          oldest.sequence := rfl
      obtain ⟨hle, hrest, hlength, hsize, hcount⟩ := ih
        { bytes := info.bytes - oldest.size, floor := some oldest.sequence } hsorted.2
        (fun entry hentry => hsorted.1 _ (mem_map_of_mem hentry))
        (by rw [hbytes]; show oldest.size + totalSize rest - oldest.size = _; omega)
      rw [← hkept, hfloor] at hle
      rw [← hkept] at hrest hlength hsize hcount
      refine ⟨?_, ?_, hlength, hsize, hcount⟩
      · have habove := habove oldest mem_cons_self
        omega
      · rw [hrest, filter_cons_of_neg (by simpa using hle)]
    · next hwithin =>
      rw [hkept]
      refine ⟨le_rfl, ?_, ?_, ?_, hbytes⟩
      · rw [filter_eq_self.mpr]
        intro entry hentry
        exact decide_eq_true (habove entry hentry)
      · show rest.length + 1 ≤ maxLength
        omega
      · show info.bytes ≤ maxBytes
        omega

theorem evict_floor (maxLength maxBytes : Nat) (entries : List (HistoryEntry Data))
    (info : HistoryMeta) :
    floorOf (evict maxLength maxBytes entries info).2 = floorOf info ∨
      ∃ entry ∈ entries, floorOf (evict maxLength maxBytes entries info).2 = entry.sequence := by
  induction entries generalizing info with
  | nil => exact .inl rfl
  | cons oldest rest ih =>
    rw [evict]
    split
    · rcases ih { bytes := info.bytes - oldest.size, floor := some oldest.sequence } with
        hfloor | ⟨entry, hentry, hfloor⟩
      · exact .inr ⟨oldest, mem_cons_self, hfloor⟩
      · exact .inr ⟨entry, mem_cons_of_mem _ hentry, hfloor⟩
    · exact .inl rfl

/-- The entries of the history; none if it does not exist. -/
def historyEntries (room : AppRoom Data) : List (HistoryEntry Data) :=
  (room.history.value.map HistoryStream.entries).getD []

/-- The history of a room created with `info`, after some replies. -/
structure HistoryInv (info : RoomMeta) (maxLength maxBytes : Nat) (room : AppRoom Data)
    (replies : List (RoomReply Data)) : Prop where
  /-- The history lasts as long as the room, and its meta hash as long as it. -/
  lasting : ∀ d ∈ room.history.deadline, info.expiresAtMs ≤ d
  sameDeadline : room.history.deadline = room.historyMeta.deadline
  /-- It has the events past the floor. -/
  retained : room.now ≤ info.expiresAtMs →
    room.historyEntries.map HistoryEntry.toHistoryEvent =
      (recordedEvents replies).filter fun event => floorOf room.historyMeta.value < event.sequence
  /-- The floor is no later than the last event. -/
  floorLe : floorOf room.historyMeta.value ≤ (room.history.value.map HistoryStream.lastId).getD 0
  /-- It is within its limits, and the counter is right. -/
  limited : ∀ stream ∈ room.history.value,
    stream.entries.length ≤ maxLength ∧ totalSize stream.entries ≤ maxBytes ∧
      room.historyMeta.value.bytes = totalSize stream.entries
  /-- All recorded numbers are positive. -/
  positive : ∀ event ∈ recordedEvents replies, 0 < event.sequence

variable {info : RoomMeta} {maxLength maxBytes : Nat} {room room' : AppRoom Data}
  {replies : List (RoomReply Data)}

theorem historyInv_created (now : Nat) (info : RoomMeta) (maxLength maxBytes : Nat) :
    HistoryInv info maxLength maxBytes (createAppRoom Data now info) [] where
  lasting := by
    intro d hd
    cases hd
  sameDeadline := rfl
  retained _ := rfl
  floorLe := le_rfl
  limited := by
    intro stream hstream
    cases hstream
  positive := by
    intro event hevent
    cases hevent

theorem HistoryInv.elapse (hinv : HistoryInv info maxLength maxBytes room replies) (elapsed : Nat) :
    HistoryInv info maxLength maxBytes (room.elapse elapsed) replies := by
  have hnow : (room.elapse elapsed).now = room.now + elapsed := rfl
  have hhistory : (room.elapse elapsed).history = room.history.expire (room.now + elapsed) := rfl
  have hmeta : (room.elapse elapsed).historyMeta = room.historyMeta.expire (room.now + elapsed) := rfl
  rcases ExpiringKey.expire_same hinv.sameDeadline (room.now + elapsed) with ⟨hh, hm⟩ | ⟨hh, hm⟩
  · rw [hh] at hhistory
    rw [hm] at hmeta
    refine ⟨?_, ?_, ?_, ?_, ?_, hinv.positive⟩
    · rw [hhistory]
      exact hinv.lasting
    · rw [hhistory, hmeta]
      exact hinv.sameDeadline
    · intro hlive
      unfold historyEntries
      rw [hhistory, hmeta]
      exact hinv.retained (by omega)
    · rw [hhistory, hmeta]
      exact hinv.floorLe
    · rw [hhistory, hmeta]
      exact hinv.limited
  · rw [hh] at hhistory
    rw [hm] at hmeta
    refine ⟨?_, ?_, ?_, ?_, ?_, hinv.positive⟩
    · intro d hd
      rw [hhistory] at hd
      cases hd
    · rw [hhistory, hmeta]
      rfl
    · -- what is dropped while the room lasts was never there
      intro hlive
      have hkept : room.history.expire (room.now + elapsed) = room.history := by
        apply ExpiringKey.expire_of_le
        intro d hd
        have hle := hinv.lasting d hd
        omega
      have hkeptMeta : room.historyMeta.expire (room.now + elapsed) = room.historyMeta := by
        apply ExpiringKey.expire_of_le
        intro d hd
        have hle := hinv.lasting d (hinv.sameDeadline ▸ hd)
        omega
      unfold historyEntries
      rw [hhistory, hmeta, ← hh, ← hm, hkept, hkeptMeta]
      exact hinv.retained (by omega)
    · rw [hhistory, hmeta]
      exact le_rfl
    · intro stream hstream
      rw [hhistory] at hstream
      cases hstream

/-- A script that leaves the history alone. -/
structure KeepsHistory (room room' : AppRoom Data) : Prop where
  now         : room'.now = room.now
  history     : room'.history = room.history
  historyMeta : room'.historyMeta = room.historyMeta

theorem KeepsHistory.trans {room'' : AppRoom Data} (h : KeepsHistory room room')
    (h' : KeepsHistory room' room'') : KeepsHistory room room'' :=
  ⟨h'.now.trans h.now, h'.history.trans h.history, h'.historyMeta.trans h.historyMeta⟩

theorem HistoryInv.of_same (hinv : HistoryInv info maxLength maxBytes room replies)
    (h : KeepsHistory room room') : HistoryInv info maxLength maxBytes room' replies := by
  refine ⟨?_, ?_, ?_, ?_, ?_, hinv.positive⟩
  · rw [h.history]
    exact hinv.lasting
  · rw [h.history, h.historyMeta]
    exact hinv.sameDeadline
  · unfold historyEntries
    rw [h.now, h.history, h.historyMeta]
    exact hinv.retained
  · rw [h.history, h.historyMeta]
    exact hinv.floorLe
  · rw [h.history, h.historyMeta]
    exact hinv.limited

variable {reply : RoomReply Data} {result : AppRoom Data × RoomReply Data}
    {events : List (RoomHistoryEvent Data)}

theorem HistoryInv.of_keeps (hinv : HistoryInv info maxLength maxBytes room replies)
    (h : KeepsHistory room room') (hreply : recordedEvent reply = none) :
    HistoryInv info maxLength maxBytes room' (replies ++ [reply]) := by
  have hreplies : recordedEvents (replies ++ [reply]) = recordedEvents replies := by
    simp [recordedEvents, filterMap_append, hreply]
  have hsame := hinv.of_same h
  refine ⟨hsame.lasting, hsame.sameDeadline, ?_, hsame.floorLe, hsame.limited, ?_⟩
  · rw [hreplies]
    exact hsame.retained
  · rw [hreplies]
    exact hsame.positive

theorem keepsHistory_removeSeats (room : AppRoom Data) (ids : List String) :
    KeepsHistory room (ids.foldl AppRoom.removeSeat room) := by
  induction ids generalizing room with
  | nil => exact ⟨rfl, rfl, rfl⟩
  | cons id rest ih =>
    have hfirst : KeepsHistory room (room.removeSeat id) := ⟨rfl, rfl, rfl⟩
    exact hfirst.trans (ih (room.removeSeat id))

/-- A script that leaves the history alone and records nothing. -/
structure Unrecorded (room : AppRoom Data) (result : AppRoom Data × RoomReply Data) : Prop where
  keeps : KeepsHistory room result.1
  none  : recordedEvent result.2 = none

theorem unrecorded_reply (room : AppRoom Data)
    (h : recordedEvent reply = none) : Unrecorded room (room, reply) := ⟨⟨rfl, rfl, rfl⟩, h⟩

theorem unrecorded_withSeat {seat : SeatRef}
    {next : RoomMeta → RoomMember Data → AppRoom Data × RoomReply Data}
    (hnext : ∀ info member, Unrecorded room (next info member)) :
    Unrecorded room (room.withSeat seat next) := by
  rcases room.withSeat_cases seat next with ⟨code, h⟩ | ⟨i, member, -, -, -, h⟩
  · rw [h]
    exact unrecorded_reply room rfl
  · rw [h]
    exact hnext i member

theorem unrecorded_claimSeat (room : AppRoom Data) (input : ClaimInput Data) :
    Unrecorded room (room.claimSeat input) := by
  unfold AppRoom.claimSeat
  cases room.liveRoom with
  | error code => exact unrecorded_reply room rfl
  | ok info =>
    have hswept := keepsHistory_removeSeats room room.expiredSeats
    simp only
    unfold AppRoom.claimSwept
    simp only
    split
    · exact ⟨hswept, rfl⟩
    · exact ⟨hswept.trans ⟨rfl, rfl, rfl⟩, rfl⟩

theorem unrecorded_leave (room : AppRoom Data) (seat : SeatRef) :
    Unrecorded room (room.leave seat) := by
  unfold AppRoom.leave
  split
  · exact unrecorded_reply room rfl
  · split
    · exact unrecorded_reply room rfl
    · exact ⟨⟨rfl, rfl, rfl⟩, rfl⟩

theorem unrecorded_announce (room : AppRoom Data) : Unrecorded room room.announce := by
  unfold AppRoom.announce
  split
  · exact unrecorded_reply room rfl
  · exact ⟨⟨rfl, rfl, rfl⟩, rfl⟩

/-- The history with its meta hash before an event is recorded. -/
def historyStream (room : AppRoom Data) : HistoryStream Data :=
  room.history.value.getD { entries := [], lastId := 0 }

/-- The meta hash before an event is recorded: the counter starts at zero. -/
def countedMeta (room : AppRoom Data) : HistoryMeta :=
  if room.history.value.isNone then { room.historyMeta.value with bytes := 0 }
  else room.historyMeta.value

theorem floorOf_countedMeta (room : AppRoom Data) :
    floorOf room.countedMeta = floorOf room.historyMeta.value := by
  unfold countedMeta
  split <;> rfl

theorem entries_historyStream (room : AppRoom Data) :
    room.historyStream.entries = room.historyEntries := by
  unfold historyStream historyEntries
  cases room.history.value <;> rfl

theorem lastId_historyStream (room : AppRoom Data) :
    room.historyStream.lastId = (room.history.value.map HistoryStream.lastId).getD 0 := by
  unfold historyStream
  cases room.history.value <;> rfl

/-- What recording an event does to the history. -/
structure Records (info : RoomMeta) (maxLength maxBytes : Nat) (room : AppRoom Data)
    (entry : HistoryEntry Data) (room' : AppRoom Data) (kept : List (HistoryEntry Data) × HistoryMeta) :
    Prop where
  new : room.historyStream.lastId < entry.sequence
  now : room'.now = room.now
  sequence : room'.sequence = room.sequence
  evicted : evict maxLength maxBytes (room.historyStream.entries ++ [entry])
    { room.countedMeta with bytes := room.countedMeta.bytes + entry.size } = kept
  history : room'.history =
    { value := some { entries := kept.1, lastId := entry.sequence }, deadline := some info.expiresAtMs }
  historyMeta : room'.historyMeta = { value := kept.2, deadline := some info.expiresAtMs }

variable {entry : HistoryEntry Data} {lo : Int} {elapsed : Nat}

theorem recordEvent_spec (h : room.recordEvent info entry maxLength maxBytes = some room') :
    ∃ kept, Records info maxLength maxBytes room entry room' kept := by
  unfold AppRoom.recordEvent at h
  simp only at h
  split at h
  · cases h
  · next hnew =>
    injection h with h
    subst h
    exact ⟨_, Nat.lt_of_not_le hnew, rfl, rfl, rfl, rfl, rfl⟩

variable (entries : List (HistoryEntry Data))

theorem totalSize_concat (entry : HistoryEntry Data) :
    totalSize (entries ++ [entry]) = totalSize entries + entry.size := by
  induction entries with
  | nil => show (entry.size : Int) + 0 = 0 + entry.size; omega
  | cons e rest ih =>
    show (e.size : Int) + totalSize (rest ++ [entry]) = e.size + totalSize rest + entry.size
    rw [ih]
    omega

theorem filter_map_toHistoryEvent (floor : Nat) (entries : List (HistoryEntry Data)) :
    (entries.filter fun e => floor < e.sequence).map HistoryEntry.toHistoryEvent =
      (entries.map HistoryEntry.toHistoryEvent).filter fun event => floor < event.sequence := by
  rw [filter_map]
  rfl

/-- The entries are in order, the last id the greatest. -/
def Ordered (room : AppRoom Data) : Prop :=
  ∀ stream ∈ room.history.value, (stream.entries.map HistoryEntry.sequence).Pairwise (· < ·) ∧
    ∀ entry ∈ stream.entries, entry.sequence ≤ stream.lastId

section

variable (hinv : HistoryInv info maxLength maxBytes room replies)
include hinv

theorem HistoryInv.recordEvent (hordered : room.Ordered) (hlive : room.now ≤ info.expiresAtMs)
    (h : room.recordEvent info entry maxLength maxBytes = some room')
    (hreply : recordedEvent reply = some entry.toHistoryEvent) :
    HistoryInv info maxLength maxBytes room' (replies ++ [reply]) := by
  obtain ⟨kept, hrecords⟩ := recordEvent_spec h
  have hnew := hrecords.new
  have hreplies : recordedEvents (replies ++ [reply]) =
      recordedEvents replies ++ [entry.toHistoryEvent] := by
    simp [recordedEvents, filterMap_append, hreply]
  have hretained := hinv.retained hlive
  rw [← entries_historyStream, ← floorOf_countedMeta] at hretained
  have hfloorLast := hinv.floorLe
  rw [← lastId_historyStream, ← floorOf_countedMeta] at hfloorLast
  -- the entries are in order, past the floor, and counted
  have hold : (room.historyStream.entries.map HistoryEntry.sequence).Pairwise (· < ·) ∧
      ∀ e ∈ room.historyStream.entries, e.sequence ≤ room.historyStream.lastId := by
    unfold historyStream
    cases hvalue : room.history.value with
    | none => exact ⟨List.Pairwise.nil, fun _ he => absurd he not_mem_nil⟩
    | some s => exact hordered s hvalue
  have hbelow : ∀ e ∈ room.historyStream.entries ++ [entry], e.sequence ≤ entry.sequence := by
    intro e he
    rcases mem_append.mp he with he | he
    · have hle := hold.2 e he
      omega
    · rw [mem_singleton.mp he]
  have hsorted : ((room.historyStream.entries ++ [entry]).map HistoryEntry.sequence).Pairwise
      (· < ·) := by
    rw [map_append, pairwise_append]
    refine ⟨hold.1, pairwise_singleton _ _, ?_⟩
    intro a ha b hb
    obtain ⟨e, he, rfl⟩ := mem_map.mp ha
    have hle := hold.2 e he
    simp only [map_cons, map_nil, mem_singleton] at hb
    omega
  have habove : ∀ e ∈ room.historyStream.entries ++ [entry],
      floorOf room.countedMeta < e.sequence := by
    intro e he
    rcases mem_append.mp he with he | he
    · have hmem : e.toHistoryEvent ∈ room.historyStream.entries.map HistoryEntry.toHistoryEvent :=
        mem_map_of_mem he
      rw [hretained, mem_filter] at hmem
      exact of_decide_eq_true hmem.2
    · rw [mem_singleton.mp he]
      omega
  have hcounted : room.countedMeta.bytes = totalSize room.historyStream.entries := by
    unfold countedMeta historyStream
    cases hvalue : room.history.value with
    | none => rfl
    | some s => exact (hinv.limited s hvalue).2.2
  have hspec := evict_spec maxLength maxBytes (room.historyStream.entries ++ [entry])
    { room.countedMeta with bytes := room.countedMeta.bytes + entry.size } hsorted habove (by
      rw [totalSize_concat, ← hcounted])
  have hlast := evict_floor maxLength maxBytes (room.historyStream.entries ++ [entry])
    { room.countedMeta with bytes := room.countedMeta.bytes + entry.size }
  have haddedFloor : floorOf { room.countedMeta with
      bytes := room.countedMeta.bytes + entry.size } = floorOf room.countedMeta := rfl
  simp only [hrecords.evicted, haddedFloor] at hspec hlast
  obtain ⟨hfloor, hkept, hlength, hsize, hcount⟩ := hspec
  refine ⟨?_, ?_, ?_, ?_, ?_, ?_⟩
  · intro d hd
    rw [hrecords.history] at hd
    cases hd
    exact le_rfl
  · rw [hrecords.history, hrecords.historyMeta]
  · -- the events past the new floor are past the old one
    intro _
    unfold historyEntries
    rw [hrecords.history, hrecords.historyMeta]
    show kept.1.map _ = _
    rw [hkept, filter_map_toHistoryEvent, map_append, hretained, hreplies]
    show (_ ++ [entry.toHistoryEvent]).filter _ = _
    rw [filter_append, filter_append, filter_filter]
    congr 1
    apply filter_congr
    intro event _
    rw [Bool.eq_iff_iff, Bool.and_eq_true, decide_eq_true_eq, decide_eq_true_eq]
    omega
  · rw [hrecords.history, hrecords.historyMeta]
    show floorOf kept.2 ≤ entry.sequence
    rcases hlast with heq | ⟨e, he, heq⟩
    · omega
    · rw [heq]
      exact hbelow e he
  · rw [hrecords.history, hrecords.historyMeta]
    intro s hs
    cases hs
    refine ⟨hlength, ?_, hcount⟩
    rw [← hcount]
    exact hsize
  · rw [hreplies]
    intro event hevent
    rcases mem_append.mp hevent with hevent | hevent
    · exact hinv.positive event hevent
    · rw [mem_singleton.mp hevent]
      show 0 < entry.sequence
      omega

theorem HistoryInv.publish
    (hordered : room.Ordered) (hcreated : ∀ i ∈ room.roomMeta.value, i = info)
    (entryLength : PublishedEvent Data → Nat) (input : PublishInput Data)
    (hlength : input.maxLength = maxLength) (hbytes : input.maxBytes = maxBytes) :
    HistoryInv info maxLength maxBytes (room.publish entryLength input).1
      (replies ++ [(room.publish entryLength input).2]) := by
  unfold AppRoom.publish
  rcases room.withSeat_cases input.seat _ with ⟨code, h⟩ | ⟨i, member, hi, hlive, -, h⟩ <;> rw [h]
  · exact hinv.of_keeps ⟨rfl, rfl, rfl⟩ rfl
  · have hmeta := hcreated i hi
    subst hmeta
    simp only
    split
    · have hkeeps : KeepsHistory room room.countPublish.1 := ⟨rfl, rfl, rfl⟩
      apply hinv.of_keeps hkeeps
      rfl
    · -- counting, renewing and numbering leave the history alone
      unfold AppRoom.publishCounted
      simp only
      set numbered := ((room.countPublish.1.renewPublisher i member input.seat).nextSequence i)
        with hnumbered
      have hkeeps : KeepsHistory room numbered.1 := by
        rw [hnumbered]
        unfold AppRoom.renewPublisher
        split <;> exact ⟨rfl, rfl, rfl⟩
      split
      · next hrecord =>
        split
        · next recorded hsome =>
          rw [hlength, hbytes] at hsome
          apply (hinv.of_same hkeeps).recordEvent _ _ hsome
          · show recordedEvent (.published _) = _
            simp only [recordedEvent, publishedEvent, hrecord, if_true]
            rfl
          · unfold Ordered
            rw [hkeeps.history]
            exact hordered
          · rw [hkeeps.now]
            omega
        · exact hinv.of_keeps hkeeps rfl
      · next hrecord =>
        apply hinv.of_keeps hkeeps
        simp [recordedEvent, publishedEvent, hrecord]

theorem HistoryInv.of_unrecorded (h : Unrecorded room result) :
    HistoryInv info maxLength maxBytes result.1 (replies ++ [result.2]) :=
  hinv.of_keeps h.keeps h.none

theorem HistoryInv.runScript
    (hordered : room.Ordered) (hcreated : ∀ i ∈ room.roomMeta.value, i = info)
    (entryLength : PublishedEvent Data → Nat) (script : RoomScript Data) :
    HistoryInv info maxLength maxBytes
      (room.runScript entryLength (withLimits maxLength maxBytes script)).1
      (replies ++ [(room.runScript entryLength (withLimits maxLength maxBytes script)).2]) := by
  cases script with
  | claimSeat input => exact hinv.of_unrecorded (unrecorded_claimSeat room input)
  | leave seat => exact hinv.of_unrecorded (unrecorded_leave room seat)
  | renew seat leaseSeconds =>
    exact hinv.of_unrecorded (unrecorded_withSeat fun _ _ => ⟨⟨rfl, rfl, rfl⟩, rfl⟩)
  | setPresence seat leaseSeconds presence =>
    exact hinv.of_unrecorded (unrecorded_withSeat fun _ _ => ⟨⟨rfl, rfl, rfl⟩, rfl⟩)
  | publish input => exact hinv.publish hordered hcreated entryLength _ rfl rfl
  | readHistory after limit =>
    apply hinv.of_unrecorded
    apply unrecorded_reply
    unfold AppRoom.readHistory
    simp only
    split <;> rfl
  | announce => exact hinv.of_unrecorded (unrecorded_announce room)
  | sweep => exact hinv.of_unrecorded ⟨keepsHistory_removeSeats room room.expiredSeats, rfl⟩

/-! ## What a page has -/

/-- The events after `lo` and up to `hi`. -/
def eventsBetween (lo hi : Int) (events : List (RoomHistoryEvent Data)) :
    List (RoomHistoryEvent Data) :=
  events.filter fun event => lo < event.sequence ∧ event.sequence ≤ hi

/-- The events after `lo`. -/
def eventsAfter (lo : Int) (events : List (RoomHistoryEvent Data)) : List (RoomHistoryEvent Data) :=
  events.filter fun event => lo < event.sequence

/-- Events in order, each number once. -/
def InOrder (events : List (RoomHistoryEvent Data)) : Prop :=
  (events.map RoomHistoryEvent.sequence).Pairwise (· < ·)

end

theorem InOrder.filter (h : InOrder events)
    (p : RoomHistoryEvent Data → Bool) : InOrder (events.filter p) :=
  List.Pairwise.sublist (List.Sublist.map _ filter_sublist) h

theorem eventsBetween_append (h : InOrder events) {mid hi : Int} (hlo : lo ≤ mid) (hhi : mid ≤ hi) :
    eventsBetween lo mid events ++ eventsBetween mid hi events = eventsBetween lo hi events := by
  induction events with
  | nil => rfl
  | cons event rest ih =>
    unfold InOrder at h
    rw [map_cons, pairwise_cons] at h
    have hrest := ih h.2
    have hlater : ∀ e ∈ rest, event.sequence < e.sequence := by
      intro e he
      exact h.1 e.sequence (mem_map_of_mem he)
    unfold eventsBetween at hrest ⊢
    by_cases hmid : (event.sequence : Int) ≤ mid
    · rw [filter_cons_of_neg (l := rest) (p := fun e => decide (mid < e.sequence ∧ _))
        (by simp; omega)]
      by_cases hin : lo < (event.sequence : Int)
      · rw [filter_cons_of_pos (by simp; omega), filter_cons_of_pos (by simp; omega),
          cons_append, hrest]
      · rw [filter_cons_of_neg (by simp; omega), filter_cons_of_neg (by simp; omega),
          hrest]
    · -- from here on all are past `mid`
      have hnone : (event :: rest).filter
          (fun e => decide (lo < (e.sequence : Int) ∧ (e.sequence : Int) ≤ mid)) = [] := by
        rw [filter_eq_nil_iff]
        intro e he
        rcases mem_cons.mp he with rfl | he
        · simp only [decide_eq_true_eq]
          omega
        · have hlt := hlater e he
          simp only [decide_eq_true_eq]
          omega
      rw [hnone, nil_append]
      apply filter_congr
      intro e he
      have hpast : mid < (e.sequence : Int) := by
        rcases mem_cons.mp he with rfl | he
        · omega
        · have hlt := hlater e he
          omega
      rw [decide_eq_decide]
      omega

theorem take_eq_between (h : InOrder events)
    (hlo : ∀ event ∈ events, lo < event.sequence) {count : Nat} {last : RoomHistoryEvent Data}
    (hlast : (events.take count).getLast? = some last) :
    events.take count = eventsBetween lo last.sequence events := by
  have hsplit := take_append_drop count events
  obtain ⟨front, hfront⟩ := getLast?_eq_some_iff.mp hlast
  unfold InOrder at h
  rw [← hsplit, map_append, pairwise_append] at h
  unfold eventsBetween
  conv => rhs; rw [← hsplit]
  rw [filter_append, filter_eq_self.mpr, filter_eq_nil_iff.mpr, append_nil]
  · intro event hevent
    have hlt := h.2.2 last.sequence (mem_map_of_mem (mem_of_getLast? hlast))
      event.sequence (mem_map_of_mem hevent)
    simp only [decide_eq_true_eq]
    omega
  · intro event hevent
    have hle : event.sequence ≤ last.sequence := by
      have hfirst := h.1
      rw [hfront, map_append, pairwise_append] at hfirst
      rw [hfront] at hevent
      rcases mem_append.mp hevent with hevent | hevent
      · have := hfirst.2.2 event.sequence (mem_map_of_mem hevent) last.sequence (by simp)
        omega
      · rw [mem_singleton.mp hevent]
    have := hlo event (mem_of_mem_take hevent)
    simp only [decide_eq_true_eq]
    omega

theorem map_recordedEvents_sublist (replies : List (RoomReply Data)) :
    ((recordedEvents replies).map RoomHistoryEvent.sequence).Sublist (replies.filterMap sequenceOf) := by
  induction replies with
  | nil => exact List.Sublist.refl _
  | cons reply rest ih =>
    have hrest : ((rest.filterMap recordedEvent).map RoomHistoryEvent.sequence).Sublist
      (rest.filterMap sequenceOf) := ih
    unfold recordedEvents
    cases hevent : recordedEvent reply with
    | none =>
      rw [filterMap_cons_none hevent]
      cases hnumber : sequenceOf reply with
      | none => rwa [filterMap_cons_none hnumber]
      | some number =>
        rw [filterMap_cons_some hnumber]
        exact hrest.cons number
    | some event =>
      -- a recorded event was published under its number
      have hnumber : sequenceOf reply = some event.sequence := by
        cases reply with
        | published published =>
          unfold recordedEvent at hevent
          simp only at hevent
          split at hevent
          · injection hevent with hevent
            rw [← hevent]
            rfl
          · cases hevent
        | _ => cases hevent
      rw [filterMap_cons_some hevent, filterMap_cons_some hnumber, map_cons]
      exact hrest.cons_cons _

theorem NumberInv.inOrder (hnumbers : NumberInv info room replies) :
    InOrder (recordedEvents replies) :=
  hnumbers.increasing.sublist (map_recordedEvents_sublist replies)

theorem NumberInv.recorded_le (hnumbers : NumberInv info room replies)
    (hlive : room.now < info.expiresAtMs) :
    ∀ event ∈ recordedEvents replies, event.sequence ≤ room.sequence.value.getD 0 := by
  intro event hevent
  apply hnumbers.counted hlive
  exact (map_recordedEvents_sublist replies).subset (mem_map_of_mem hevent)

theorem historyLimit_pos (limit : Option Rat) : 0 < historyLimit limit := by
  unfold historyLimit REALTIME_ROOM_HISTORY_PAGE
  omega

theorem historyAfter_nonneg (cursor : Rat) : 0 ≤ historyAfter (some cursor) := le_max_left _ _

theorem historyAfter_intCast {cursor : Int} (h : 0 ≤ cursor) :
    historyAfter (some (cursor : Rat)) = cursor := by
  unfold historyAfter
  simp only [Rat.floor_intCast]
  omega

/-- What a page has: of the events after the cursor, those up to the new
    cursor; all of them if there are fewer than it may have. -/
structure PageSpec (events : List (RoomHistoryEvent Data)) (latest : Nat) (after : Int) (limit : Nat)
    (page : HistoryPage Data) : Prop where
  forward  : after ≤ page.cursor
  bounded  : page.cursor ≤ max after latest
  between  : page.events = eventsBetween after page.cursor events
  complete : page.events.length < limit → page.events = eventsAfter after events

theorem historyPage_cases {after limit : Option Rat} {entries : List (HistoryEntry Data)}
    {truncated : Bool} {latest : Nat}
    (hread : room.readHistory (historyAfter after) (historyLimit limit) =
      .history entries truncated latest) :
    (room.historyPage after limit).events = entries.map HistoryEntry.toHistoryEvent ∧
      (room.historyPage after limit).truncated = truncated ∧
      ((∃ last, (entries.map HistoryEntry.toHistoryEvent).getLast? = some last ∧
          entries.length = historyLimit limit ∧
          (room.historyPage after limit).cursor = last.sequence) ∨
        entries.length ≠ historyLimit limit ∧
          (room.historyPage after limit).cursor = max (historyAfter after) latest) := by
  unfold AppRoom.historyPage
  rw [hread]
  refine ⟨rfl, rfl, ?_⟩
  simp only
  cases hlast : (entries.map HistoryEntry.toHistoryEvent).getLast? with
  | none =>
    right
    rw [getLast?_eq_none_iff, map_eq_nil_iff] at hlast
    have hpositive := historyLimit_pos limit
    refine ⟨?_, rfl⟩
    rw [hlast]
    exact ne_of_lt hpositive
  | some last =>
    simp only [length_map]
    split
    · next hfull => exact .inl ⟨last, rfl, hfull, rfl⟩
    · next hfull => exact .inr ⟨hfull, rfl⟩

theorem eventsBetween_eventsAfter (lo hi : Int) (events : List (RoomHistoryEvent Data)) :
    eventsBetween lo hi (eventsAfter lo events) = eventsBetween lo hi events := by
  unfold eventsBetween eventsAfter
  rw [filter_filter]
  apply filter_congr
  intro event _
  rw [Bool.eq_iff_iff, Bool.and_eq_true, decide_eq_true_eq, decide_eq_true_eq]
  omega

theorem HistoryInv.retained_after (hinv : HistoryInv info maxLength maxBytes room replies)
    (hlive : room.now ≤ info.expiresAtMs) {after : Int}
    (hafter : (floorOf room.historyMeta.value : Int) ≤ after) :
    (room.historyEntries.filter fun entry => after < entry.sequence).map
      HistoryEntry.toHistoryEvent = eventsAfter after (recordedEvents replies) := by
  have hmap : (room.historyEntries.filter fun entry => after < entry.sequence).map
      HistoryEntry.toHistoryEvent =
        eventsAfter after (room.historyEntries.map HistoryEntry.toHistoryEvent) := by
    unfold eventsAfter
    rw [filter_map]
    rfl
  rw [hmap, hinv.retained hlive]
  unfold eventsAfter
  rw [filter_filter]
  apply filter_congr
  intro event _
  rw [Bool.eq_iff_iff, Bool.and_eq_true, decide_eq_true_eq, decide_eq_true_eq]
  omega

theorem historyPage_spec (hinv : HistoryInv info maxLength maxBytes room replies)
    (hnumbers : NumberInv info room replies) (hlive : room.now < info.expiresAtMs) (cursor : Rat)
    (limit : Option Rat) (htruncated : (room.historyPage (some cursor) limit).truncated = false) :
    PageSpec (recordedEvents replies) (room.sequence.value.getD 0) (historyAfter (some cursor))
      (historyLimit limit) (room.historyPage (some cursor) limit) := by
  have hnonneg : 0 ≤ historyAfter (some cursor) := historyAfter_nonneg cursor
  have hread : room.readHistory (historyAfter (some cursor)) (historyLimit limit) =
      .history ((room.historyEntries.filter fun entry => historyAfter (some cursor) < entry.sequence).take
        (historyLimit limit)) (historyAfter (some cursor) < (floorOf room.historyMeta.value : Nat))
        (room.sequence.value.getD 0) := by
    unfold AppRoom.readHistory
    simp only [if_neg (show ¬ historyAfter (some cursor) < 0 by omega)]
    rfl
  obtain ⟨hevents, hflag, hcursor⟩ := historyPage_cases hread
  rw [hflag, decide_eq_false_iff_not] at htruncated
  -- past the cursor, nothing was evicted
  have hafter := hinv.retained_after (le_of_lt hlive) (Int.not_lt.mp htruncated)
  rw [map_take, hafter] at hevents hcursor
  set page := room.historyPage (some cursor) limit with hpage
  set after := historyAfter (some cursor) with hafterDef
  have hpast : ∀ event ∈ eventsAfter after (recordedEvents replies), after < event.sequence := by
    intro event hevent
    exact of_decide_eq_true (mem_filter.mp hevent).2
  have hlength : (eventsAfter after (recordedEvents replies)).length =
      (room.historyEntries.filter fun entry => after < entry.sequence).length := by
    rw [← hafter, length_map]
  have hinOrder : InOrder (eventsAfter after (recordedEvents replies)) := hnumbers.inOrder.filter _
  have hlatest := hnumbers.recorded_le hlive
  -- a page that is not full has all there is
  have hall : page.events.length < historyLimit limit →
      page.events = eventsAfter after (recordedEvents replies) := by
    intro hshort
    rw [hevents, length_take] at hshort
    rw [hevents, take_of_length_le (by omega)]
  rcases hcursor with ⟨last, hlast, hfull, hnext⟩ | ⟨hshort, hnext⟩
  · have hmem := mem_of_mem_take (mem_of_getLast? hlast)
    have hlastPast := hpast last hmem
    have hlastLe := hlatest last (mem_filter.mp hmem).1
    refine ⟨by omega, by omega, ?_, hall⟩
    rw [hevents, hnext, take_eq_between hinOrder hpast hlast, eventsBetween_eventsAfter]
  · rw [length_take, ← hlength] at hshort
    refine ⟨by omega, by omega, ?_, hall⟩
    rw [hall (by rw [hevents, length_take]; omega), hnext]
    unfold eventsAfter eventsBetween
    apply filter_congr
    intro event hevent
    have hle := hlatest event hevent
    rw [decide_eq_decide]
    omega

/-! ## All runs -/

/-- The counter does not fall, and a recorded event is past it. -/
structure Counts (room : AppRoom Data) (result : AppRoom Data × RoomReply Data) : Prop where
  now     : result.1.now = room.now
  counter : room.sequence.value.getD 0 ≤ result.1.sequence.value.getD 0
  later   : ∀ event ∈ recordedEvent result.2, room.sequence.value.getD 0 < event.sequence

theorem counts_of_silent (h : Silent room result) : Counts room result := by
  refine ⟨h.keeps.now, by rw [h.keeps.sequence], ?_⟩
  intro event hevent
  have hnone := h.none
  cases hreply : result.2 with
  | published published =>
    rw [hreply] at hnone
    cases hnone
  | _ =>
    rw [hreply] at hevent
    cases hevent

variable (entryLength : PublishedEvent Data → Nat)

theorem counts_publishCounted (room : AppRoom Data)
    (info : RoomMeta) (member : RoomMember Data) (input : PublishInput Data) :
    Counts room (publishCounted entryLength room info member input) := by
  have hkeeps := keepsNumbers_renewPublisher room info member input.seat
  have hnumbered : ((room.renewPublisher info member input.seat).nextSequence info).1.sequence.value.getD
      0 = room.sequence.value.getD 0 + 1 := by
    show (room.renewPublisher info member input.seat).sequence.value.getD 0 + 1 = _
    rw [hkeeps.sequence]
  have hcounter : room.sequence.value.getD 0 ≤
      ((room.renewPublisher info member input.seat).nextSequence info).1.sequence.value.getD 0 := by
    omega
  have hreply : ((room.renewPublisher info member input.seat).nextSequence info).2 =
      room.sequence.value.getD 0 + 1 := hnumbered
  have hlater : ∀ event ∈ recordedEvent (.published (publishedEvent input room.now
      ((room.renewPublisher info member input.seat).nextSequence info).2)),
        room.sequence.value.getD 0 < event.sequence := by
    intro event hevent
    unfold recordedEvent at hevent
    simp only at hevent
    split at hevent
    · injection hevent with hevent
      rw [← hevent]
      show _ < ((room.renewPublisher info member input.seat).nextSequence info).2
      omega
    · cases hevent
  unfold AppRoom.publishCounted
  simp only
  split
  · split
    · next recorded hrecorded =>
      obtain ⟨kept, hrecords⟩ := recordEvent_spec hrecorded
      refine ⟨hrecords.now.trans hkeeps.now, ?_, hlater⟩
      show _ ≤ recorded.sequence.value.getD 0
      rw [hrecords.sequence]
      exact hcounter
    · exact ⟨hkeeps.now, hcounter, nofun⟩
  · exact ⟨hkeeps.now, hcounter, hlater⟩

theorem counts_runScript (room : AppRoom Data)
    (script : RoomScript Data) : Counts room (room.runScript entryLength script) := by
  cases script with
  | claimSeat input => exact counts_of_silent (silent_claimSeat room input)
  | leave seat => exact counts_of_silent (silent_leave room seat)
  | renew seat leaseSeconds => exact counts_of_silent (silent_renew room seat leaseSeconds)
  | setPresence seat leaseSeconds presence =>
    exact counts_of_silent (silent_setPresence room seat leaseSeconds presence)
  | publish input =>
    show Counts room (room.publish entryLength input)
    unfold AppRoom.publish
    rcases room.withSeat_cases input.seat _ with ⟨code, h⟩ | ⟨i, member, -, -, -, h⟩ <;> rw [h]
    · exact counts_of_silent (silent_code room code)
    · simp only
      split
      · exact ⟨rfl, le_rfl, nofun⟩
      · have hcounts := counts_publishCounted entryLength room.countPublish.1 i member input
        exact ⟨hcounts.now, hcounts.counter, hcounts.later⟩
  | readHistory after limit => exact counts_of_silent (silent_readHistory room after limit)
  | announce =>
    show Counts room room.announce
    unfold AppRoom.announce
    split
    · exact counts_of_silent (silent_code room _)
    · exact ⟨rfl, Nat.le_succ _, nofun⟩
  | sweep => exact counts_of_silent (silent_sweep room)

theorem NumberInv.counter_elapse (hnumbers : NumberInv info room replies)
    (hlive : room.now + elapsed < info.expiresAtMs) :
    (room.elapse elapsed).sequence = room.sequence := by
  show room.sequence.expire (room.now + elapsed) = room.sequence
  apply ExpiringKey.expire_of_le
  intro d hd
  have hle := hnumbers.lasting d hd
  omega

/-- A room and what a reader has got of it, starting after `start`: where
    nothing was truncated, the events up to its cursor. -/
structure GotInv (start : Int) (s : ReadRoom Data) (outputs : List (RoomOutput Data)) : Prop where
  forward : start ≤ historyAfter (some s.cursor)
  /-- The reader is not past the counter, unless it started there. -/
  bounded : historyAfter (some s.cursor) ≤ max start (s.room.sequence.value.getD 0)
  got     : collected outputs =
    eventsBetween start (historyAfter (some s.cursor)) (recordedEvents (repliesOf outputs))

structure PagingInv (info : RoomMeta) (maxLength maxBytes : Nat) (start : Int)
    (s : ReadRoom Data) (outputs : List (RoomOutput Data)) : Prop where
  seats   : SeatInv info s.room
  numbers : NumberInv info s.room (repliesOf outputs)
  kept    : HistoryInv info maxLength maxBytes s.room (repliesOf outputs)
  reader  : s.room.now < info.expiresAtMs → Untruncated outputs → GotInv start s outputs

variable {start : Int} {s : ReadRoom Data} {outputs : List (RoomOutput Data)}

theorem repliesOf_reply (outputs : List (RoomOutput Data)) (reply : RoomReply Data) :
    repliesOf (outputs ++ [.reply reply]) = repliesOf outputs ++ [reply] := by
  unfold repliesOf
  rw [filterMap_append]
  rfl

theorem repliesOf_page (outputs : List (RoomOutput Data)) (page : HistoryPage Data) :
    repliesOf (outputs ++ [.page page]) = repliesOf outputs := by
  unfold repliesOf
  rw [filterMap_append]
  exact append_nil _

theorem pagesOf_reply (outputs : List (RoomOutput Data)) (reply : RoomReply Data) :
    pagesOf (outputs ++ [.reply reply]) = pagesOf outputs := by
  unfold pagesOf
  rw [filterMap_append]
  exact append_nil _

theorem pagesOf_page (outputs : List (RoomOutput Data)) (page : HistoryPage Data) :
    pagesOf (outputs ++ [.page page]) = pagesOf outputs ++ [page] := by
  unfold pagesOf
  rw [filterMap_append]
  rfl

theorem GotInv.script (hinv : GotInv start s outputs) (hcounts : Counts s.room result) :
    GotInv start { s with room := result.1 } (outputs ++ [.reply result.2]) := by
  have hcounter := hcounts.counter
  have hbounded := hinv.bounded
  have hforward := hinv.forward
  refine ⟨hinv.forward, ?_, ?_⟩
  · show historyAfter (some s.cursor) ≤ max start (result.1.sequence.value.getD 0)
    omega
  · unfold collected
    rw [pagesOf_reply, repliesOf_reply]
    show collected outputs = _
    rw [hinv.got]
    unfold eventsBetween recordedEvents
    rw [filterMap_append, filter_append]
    have hnone : ([result.2].filterMap recordedEvent).filter (fun event =>
        start < (event.sequence : Int) ∧ (event.sequence : Int) ≤ historyAfter (some s.cursor)) = [] := by
      rw [filter_eq_nil_iff]
      intro event hevent
      obtain ⟨reply, hreply, hrecorded⟩ := mem_filterMap.mp hevent
      rw [mem_singleton.mp hreply] at hrecorded
      have hlater := hcounts.later event hrecorded
      simp only [decide_eq_true_eq]
      omega
    rw [hnone, append_nil]

theorem GotInv.page (hinv : GotInv start s outputs) {page : HistoryPage Data} {limit : Nat}
    (hordered : InOrder (recordedEvents (repliesOf outputs)))
    (hspec : PageSpec (recordedEvents (repliesOf outputs)) (s.room.sequence.value.getD 0)
      (historyAfter (some s.cursor)) limit page) :
    GotInv start { s with cursor := page.cursor } (outputs ++ [.page page]) := by
  have hnonneg := historyAfter_nonneg s.cursor
  have hforward := hspec.forward
  have hbounded := hspec.bounded
  have hold := hinv.bounded
  have hstart := hinv.forward
  have hcursor : historyAfter (some (page.cursor : Rat)) = page.cursor :=
    historyAfter_intCast (by omega)
  refine ⟨?_, ?_, ?_⟩
  · show start ≤ historyAfter (some (page.cursor : Rat))
    omega
  · show historyAfter (some (page.cursor : Rat)) ≤ max start (s.room.sequence.value.getD 0)
    omega
  · show collected (outputs ++ [.page page]) = eventsBetween start
      (historyAfter (some (page.cursor : Rat))) _
    unfold collected
    rw [pagesOf_page, repliesOf_page, flatMap_append, hcursor]
    show collected outputs ++ (page.events ++ []) = _
    rw [append_nil, hinv.got, hspec.between, eventsBetween_append hordered hinv.forward hforward]

theorem GotInv.elapse (hinv : GotInv start s outputs) (hnumbers : NumberInv info s.room replies)
    (hlive : s.room.now + elapsed < info.expiresAtMs) :
    GotInv start { s with room := s.room.elapse elapsed } outputs := by
  refine ⟨hinv.forward, ?_, hinv.got⟩
  show _ ≤ max start ((s.room.elapse elapsed).sequence.value.getD 0)
  rw [hnumbers.counter_elapse hlive]
  exact hinv.bounded

theorem PagingInv.step (entryLength : PublishedEvent Data → Nat)
    (hinv : PagingInv info maxLength maxBytes start s outputs) (step : RoomStep Data) :
    PagingInv info maxLength maxBytes start ((readMachine entryLength maxLength maxBytes).step s step).1
      (outputs ++ ((readMachine entryLength maxLength maxBytes).step s step).2) := by
  cases step with
  | script elapsed script =>
    have hseats := hinv.seats.elapse elapsed
    have hnumbers := hinv.numbers.elapse elapsed
    have hkept := hinv.kept.elapse elapsed
    refine ⟨hseats.runScript entryLength _, ?_, ?_, ?_⟩
    · show NumberInv info _ (repliesOf (outputs ++ [.reply _]))
      rw [repliesOf_reply]
      exact hnumbers.runScript hseats.created entryLength _
    · show HistoryInv info maxLength maxBytes _ (repliesOf (outputs ++ [.reply _]))
      rw [repliesOf_reply]
      exact hkept.runScript hnumbers.recorded hseats.created entryLength script
    · intro hlive huntruncated
      have hcounts := counts_runScript entryLength (s.room.elapse elapsed)
        (withLimits maxLength maxBytes script)
      have hlive : s.room.now + elapsed < info.expiresAtMs := lt_of_le_of_lt
        (le_of_eq hcounts.now.symm) hlive
      have hbefore : Untruncated outputs := by
        change Untruncated (outputs ++ [.reply _]) at huntruncated
        unfold Untruncated at huntruncated
        rwa [pagesOf_reply] at huntruncated
      exact ((hinv.reader (by omega) hbefore).elapse hinv.numbers hlive).script hcounts
  | page elapsed limit =>
    have hnumbers := hinv.numbers.elapse elapsed
    have hkept := hinv.kept.elapse elapsed
    refine ⟨hinv.seats.elapse elapsed, ?_, ?_, ?_⟩
    · show NumberInv info _ (repliesOf (outputs ++ [.page _]))
      rw [repliesOf_page]
      exact hnumbers
    · show HistoryInv info maxLength maxBytes _ (repliesOf (outputs ++ [.page _]))
      rw [repliesOf_page]
      exact hkept
    · intro hlive huntruncated
      have hlive : s.room.now + elapsed < info.expiresAtMs := hlive
      have hbefore : Untruncated outputs := by
        intro page hpage
        apply huntruncated page
        show page ∈ pagesOf (outputs ++ [.page _])
        rw [pagesOf_page]
        exact mem_append_left _ hpage
      have hgot := (hinv.reader (by omega) hbefore).elapse hinv.numbers hlive
      apply hgot.page hnumbers.inOrder (historyPage_spec hkept hnumbers hlive s.cursor limit _)
      apply huntruncated
      show _ ∈ pagesOf (outputs ++ [.page _])
      rw [pagesOf_page]
      exact mem_append_right _ mem_cons_self

theorem pagingInv_run (maxLength maxBytes now : Nat)
    (info : RoomMeta) (cursor : Rat) (steps : List (RoomStep Data)) :
    let ran := (readMachine entryLength maxLength maxBytes).run
      { room := createAppRoom Data now info, cursor := cursor } steps
    PagingInv info maxLength maxBytes (historyAfter (some cursor)) ran.1 ran.2 := by
  apply Mealy.run_outputs_invariant (m := readMachine entryLength maxLength maxBytes)
  · exact fun s outputs step hinv => hinv.step entryLength step
  · refine ⟨seatInv_created now info, numberInv_created now info,
      historyInv_created now info maxLength maxBytes, ?_⟩
    intro _ _
    exact ⟨Int.le_refl _, le_max_left _ _, rfl⟩

def publishOf (participantId : String) : PublishInput Unit :=
  { seat := { participantId := participantId, owner := participantId }, eventId := "e", event := "chat"
    data := (), dataLength := 2, maxRate := 20, clientEventId := none, record := true
    maxLength := 1000, maxBytes := 1000000 }

end AppRoom

end Cohub.Rooms
