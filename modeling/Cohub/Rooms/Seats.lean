import Cohub.Lib.Loop
import Cohub.Rooms.Scripts

/-! # The seats of an app room

    The members hash and the lease set of a room describe one table of seats.
    This file has the invariant that keeps them together and within the room's
    limits (`SeatInv`), the one that keeps its numbers growing (`NumberInv`),
    that every script preserves both, and what follows for all runs. -/

namespace Cohub.Rooms

open List OrderedMap

namespace AppRoom

variable {Data : Type}

/-! ## The invariant of seats -/

/-- The members and the leases of a room created with `info`. -/
structure SeatInv (info : RoomMeta) (room : AppRoom Data) : Prop where
  /-- The meta record is the one the room was created with, while it lasts. -/
  created : ∀ i ∈ room.roomMeta.value, i = info
  /-- A member has a lease and a lease has a member. -/
  sameDomain : ∀ id, room.members.value.has id = room.leases.value.has id
  /-- Both keys expire together. -/
  sameDeadline : room.members.deadline = room.leases.deadline
  /-- There are not too many. -/
  capacity : room.leases.value.size ≤ info.maxParticipants
  /-- A user has one seat, where the room allows one only. -/
  oneSeat : info.seatPerUser = true → ∀ a b ma mb,
    room.members.value.get? a = some ma → room.members.value.get? b = some mb →
    ma.kindOrUser = .user → mb.kindOrUser = .user → ma.userKey = mb.userKey → a = b

variable {info : RoomMeta} {room room' : AppRoom Data} {α : Type} {id : String}
    {member : RoomMember Data} {entry : HistoryEntry Data} {replies : List (RoomReply Data)}

theorem SeatInv.of_absent (hmeta : ∀ i ∈ room.roomMeta.value, i = info)
    (hmembers : room.members = .absent) (hleases : room.leases = .absent) : SeatInv info room where
  created := hmeta
  sameDomain := by
    intro id
    rw [hmembers, hleases]
    rfl
  sameDeadline := by rw [hmembers, hleases]; rfl
  capacity := by
    rw [hleases]
    exact Nat.zero_le _
  oneSeat := by
    intro _ a b ma mb ha
    rw [hmembers] at ha
    cases ha

theorem SeatInv.of_same (hinv : SeatInv info room)
    (hmeta : ∀ i ∈ room'.roomMeta.value, i = info) (hmembers : room'.members = room.members)
    (hleases : room'.leases = room.leases) : SeatInv info room' where
  created := hmeta
  sameDomain := by rw [hmembers, hleases]; exact hinv.sameDomain
  sameDeadline := by rw [hmembers, hleases]; exact hinv.sameDeadline
  capacity := by rw [hleases]; exact hinv.capacity
  oneSeat := by rw [hmembers]; exact hinv.oneSeat

variable (now : Nat)

theorem seatInv_created (info : RoomMeta) : SeatInv info (createAppRoom Data now info) := by
  apply SeatInv.of_absent _ rfl rfl
  intro i hi
  cases hi
  rfl

/-! ### Section 1.1: Parts of scripts -/

theorem get?_deleteEntry [Inhabited (OrderedMap String α)]
    (hdefault : (default : OrderedMap String α) = OrderedMap.empty)
    (key : ExpiringKey (OrderedMap String α)) (id k : String) :
    (deleteEntry key id).value.get? k = if k = id then none else key.value.get? k := by
  rw [← get?_delete]
  unfold deleteEntry
  simp only
  split
  · next hsize =>
    rw [get?_of_size_eq_zero hsize, ExpiringKey.value_absent, hdefault]
    rfl
  · rfl

theorem size_deleteEntry_le [Inhabited (OrderedMap String α)]
    (hdefault : (default : OrderedMap String α) = OrderedMap.empty)
    (key : ExpiringKey (OrderedMap String α)) (id : String) :
    (deleteEntry key id).value.size ≤ key.value.size := by
  unfold deleteEntry
  simp only
  split
  · rw [ExpiringKey.value_absent, hdefault]
    exact Nat.zero_le _
  · exact key.value.size_delete_le id

theorem deadline_deleteEntry [Inhabited (OrderedMap String α)]
    (key : ExpiringKey (OrderedMap String α)) (id : String) :
    (deleteEntry key id).deadline = if (key.value.delete id).size = 0 then none else key.deadline := by
  unfold deleteEntry
  simp only
  split <;> rfl

variable {m : OrderedMap String α} {seat : SeatRef} {maxLength maxBytes : Nat}
    {input : PublishInput Data} {reply : RoomReply Data}

theorem has_eq_of_get? {β : Type} {m' : OrderedMap String β}
    (h : m.has id = m'.has id) : m.get? id = none ↔ m'.get? id = none := by
  unfold has at h
  cases hm : m.get? id <;> cases hm' : m'.get? id <;> simp [hm, hm'] at h ⊢

section

variable (hinv : SeatInv info room)
include hinv

theorem SeatInv.removeSeat (id : String) : SeatInv info (room.removeSeat id) := by
  have hmembers := get?_deleteEntry (α := RoomMember Data) rfl room.members id
  have hleases := get?_deleteEntry (α := Nat) rfl room.leases id
  constructor
  · exact hinv.created
  · intro k
    show (deleteEntry room.members id).value.has k = (deleteEntry room.leases id).value.has k
    unfold has
    rw [hmembers, hleases]
    by_cases hk : k = id
    · simp [hk]
    · simpa [hk, has] using hinv.sameDomain k
  · show (deleteEntry room.members id).deadline = (deleteEntry room.leases id).deadline
    -- both become empty or none does, as they have the same names
    have hempty : (room.members.value.delete id).size = 0 ↔ (room.leases.value.delete id).size = 0 := by
      rw [size_eq_zero_iff, size_eq_zero_iff]
      apply forall_congr'
      intro k
      rw [get?_delete, get?_delete]
      by_cases hk : k = id
      · simp [hk]
      · simpa [hk] using has_eq_of_get? (hinv.sameDomain k)
    rw [deadline_deleteEntry, deadline_deleteEntry, hinv.sameDeadline]
    simp only [hempty]
  · have := size_deleteEntry_le (α := Nat) rfl room.leases id
    have := hinv.capacity
    show (deleteEntry room.leases id).value.size ≤ _
    omega
  · intro hone a b ma mb ha hb
    change (deleteEntry room.members id).value.get? a = some ma at ha
    change (deleteEntry room.members id).value.get? b = some mb at hb
    rw [hmembers] at ha hb
    split at ha
    · cases ha
    · split at hb
      · cases hb
      · exact hinv.oneSeat hone a b ma mb ha hb

theorem SeatInv.removeSeats
    (ids : List String) : SeatInv info (ids.foldl AppRoom.removeSeat room) := by
  induction ids generalizing room with
  | nil => exact hinv
  | cons id rest ih => exact ih (hinv.removeSeat id)

theorem SeatInv.elapse (elapsed : Nat) : SeatInv info (room.elapse elapsed) := by
  have hcreated : ∀ i ∈ (room.elapse elapsed).roomMeta.value, i = info := by
    intro i hi
    change i ∈ (room.roomMeta.expire (room.now + elapsed)).value at hi
    rcases room.roomMeta.expire_eq (room.now + elapsed) with hkey | ⟨hkey, -⟩
    · rw [hkey] at hi
      exact hinv.created i hi
    · rw [hkey] at hi
      cases hi
  rcases ExpiringKey.expire_same hinv.sameDeadline (room.now + elapsed) with ⟨hm, hl⟩ | ⟨hm, hl⟩
  · exact hinv.of_same hcreated hm hl
  · exact SeatInv.of_absent hcreated hm hl

theorem SeatInv.setLease
    (i : RoomMeta) (leaseSeconds : Nat) (hid : room.members.value.has id = true) :
    SeatInv info (room.setLease i leaseSeconds id) where
  created := hinv.created
  sameDomain := by
    intro k
    show room.members.value.has k = (room.leases.value.set id _).has k
    rw [hinv.sameDomain k]
    unfold has
    rw [get?_set]
    by_cases hk : k = id
    · have hlease := hinv.sameDomain id
      rw [hid] at hlease
      rw [if_pos hk, hk]
      exact hlease.symm
    · rw [if_neg hk]
  sameDeadline := hinv.sameDeadline
  capacity := by
    show (room.leases.value.set id _).size ≤ _
    rw [size_set_of_has _ _ (by rw [← hinv.sameDomain id]; exact hid)]
    exact hinv.capacity
  oneSeat := hinv.oneSeat

theorem SeatInv.setMember {current : RoomMember Data}
    (hid : room.members.value.get? id = some current) (huser : member.userKey = current.userKey)
    (hkind : member.kindOrUser = current.kindOrUser) : SeatInv info (room.setMember id member) where
  created := hinv.created
  sameDomain := by
    intro k
    show (room.members.value.set id member).has k = room.leases.value.has k
    rw [← hinv.sameDomain k]
    unfold has
    rw [get?_set]
    by_cases hk : k = id
    · rw [if_pos hk, hk, hid]
      rfl
    · rw [if_neg hk]
  sameDeadline := hinv.sameDeadline
  capacity := hinv.capacity
  oneSeat := by
    -- each member reads like the one that was stored
    have hstored : ∀ k m, (room.members.value.set id member).get? k = some m →
        ∃ m', room.members.value.get? k = some m' ∧ m'.userKey = m.userKey ∧
          m'.kindOrUser = m.kindOrUser := by
      intro k m hm
      rw [get?_set] at hm
      split at hm
      · next hk =>
        cases hm
        exact ⟨current, by rw [hk]; exact hid, huser.symm, hkind.symm⟩
      · exact ⟨m, hm, rfl, rfl⟩
    intro hone a b ma mb ha hb hka hkb hkey
    obtain ⟨ma', ha', hua, hka'⟩ := hstored a ma ha
    obtain ⟨mb', hb', hub, hkb'⟩ := hstored b mb hb
    exact hinv.oneSeat hone a b ma' mb' ha' hb' (hka'.trans hka) (hkb'.trans hkb)
      ((hua.trans hkey).trans hub.symm)

/-! ### Section 1.2: Claims -/

end

theorem mem_byScore {leases : OrderedMap String Nat} {e : String × Nat} :
    e ∈ byScore leases ↔ leases.get? e.1 = some e.2 := by
  unfold byScore
  rw [mem_insertionSort, ← mem_entries_iff]

theorem SeatInv.seatOfUser (hinv : SeatInv info room) (userKey : String) :
    (∃ id member, room.seatOfUser userKey = some id ∧ room.members.value.get? id = some member ∧
      member.userKey = userKey ∧ member.kindOrUser = .user) ∨
    (room.seatOfUser userKey = none ∧ ∀ id member, room.members.value.get? id = some member →
      member.kindOrUser = .user → member.userKey ≠ userKey) := by
  unfold AppRoom.seatOfUser
  cases hfound : (byScore room.leases.value).findSome? _ with
  | some id =>
    left
    obtain ⟨e, -, he⟩ := exists_of_findSome?_eq_some hfound
    split at he
    · next existing hexisting =>
      split at he
      · next hmatch =>
        cases he
        exact ⟨_, existing, rfl, hexisting, hmatch.1, hmatch.2⟩
      · cases he
    · cases he
  | none =>
    right
    refine ⟨rfl, ?_⟩
    intro id member hmember hkind huser
    rw [findSome?_eq_none_iff] at hfound
    have hlease := hinv.sameDomain id
    unfold has at hlease
    rw [hmember] at hlease
    obtain ⟨lease, hget⟩ := Option.isSome_iff_exists.mp hlease.symm
    have := hfound (id, lease) (mem_byScore.mpr hget)
    simp [hmember, hkind, huser] at this

theorem SeatInv.claimedId (hinv : SeatInv info room)
    (hone : info.seatPerUser = true) (input : ClaimInput Data) (hkind : input.kind = .user) :
    ∀ id member, room.members.value.get? id = some member → member.kindOrUser = .user →
      member.userKey = input.userKey → id = room.claimedId info input := by
  intro id member hmember hmemberKind huser
  unfold AppRoom.claimedId
  rw [if_pos ⟨hone, hkind⟩]
  rcases hinv.seatOfUser input.userKey with ⟨id', member', hfound, hmember', huser', hkind'⟩ |
    ⟨-, hnone⟩
  · rw [hfound]
    exact hinv.oneSeat hone id id' member member' hmember hmember' hmemberKind hkind'
      (huser.trans huser'.symm)
  · exact absurd huser (hnone id member hmember hmemberKind)

theorem SeatInv.claimSwept (hinv : SeatInv info room) (input : ClaimInput Data)
    (swept : List String) : SeatInv info (room.claimSwept info input swept).1 := by
  unfold AppRoom.claimSwept
  simp only
  split
  · exact hinv
  · next hroom =>
    set id := room.claimedId info input with hid
    set member := claimingMember (room.members.value.get? id) id input with hmember
    have hmemberUser : member.userKey = input.userKey := rfl
    have hmemberKind : member.kindOrUser = input.kind := rfl
    constructor
    · exact hinv.created
    · intro k
      show (room.members.value.set id member).has k = (room.leases.value.set id _).has k
      have hk := hinv.sameDomain k
      unfold has at hk ⊢
      rw [get?_set, get?_set]
      by_cases hkid : k = id
      · simp [hkid]
      · simpa [hkid] using hk
    · rfl
    · show (room.leases.value.set id _).size ≤ info.maxParticipants
      by_cases hheld : room.leases.value.has id = true
      · rw [size_set_of_has _ _ hheld]
        exact hinv.capacity
      · -- a new seat: the room was not full
        have hnone : room.members.value.get? id = none := by
          have := hinv.sameDomain id
          unfold has at this hheld
          cases hget : room.members.value.get? id with
          | none => rfl
          | some m =>
            rw [hget] at this
            exact absurd this.symm hheld
        have hfree : ¬ info.maxParticipants ≤ room.leases.value.size := by
          intro hfull
          exact hroom ⟨by rw [hnone]; rfl, hfull⟩
        have := room.leases.value.size_set_le id
          (min (room.now + input.leaseSeconds * 1000) info.expiresAtMs)
        have hshow : ((room.setMember id member).now) = room.now := rfl
        rw [hshow]
        omega
    · intro hone a b ma mb ha hb hka hkb hkey
      change (room.members.value.set id member).get? a = some ma at ha
      change (room.members.value.set id member).get? b = some mb at hb
      rw [get?_set] at ha hb
      by_cases haid : a = id
      · by_cases hbid : b = id
        · rw [haid, hbid]
        · rw [if_pos haid] at ha
          rw [if_neg hbid] at hb
          cases ha
          have := hinv.claimedId hone input (hmemberKind.symm.trans hka) b mb hb hkb
            (hkey.symm.trans hmemberUser)
          exact absurd this hbid
      · rw [if_neg haid] at ha
        by_cases hbid : b = id
        · rw [if_pos hbid] at hb
          cases hb
          have := hinv.claimedId hone input (hmemberKind.symm.trans hkb) a ma ha hka
            (hkey.trans hmemberUser)
          exact absurd this haid
        · rw [if_neg hbid] at hb
          exact hinv.oneSeat hone a b ma mb ha hb hka hkb hkey

/-! ### Section 1.3: Scripts -/

theorem liveRoom_ok (h : room.liveRoom = .ok info) :
    room.roomMeta.value = some info ∧ room.now < info.expiresAtMs := by
  unfold AppRoom.liveRoom at h
  split at h
  · cases h
  · next i hi =>
    split at h
    · cases h
    · next hlive =>
      cases h
      exact ⟨hi, by omega⟩

/-- The seat is held by this connection and its lease has not run out. -/
structure OwnsLiveSeat (room : AppRoom Data) (seat : SeatRef) (member : RoomMember Data) : Prop where
  held  : room.members.value.get? seat.participantId = some member
  owner : member.connectionId = seat.owner
  live  : ∃ lease, room.leases.value.get? seat.participantId = some lease ∧ room.now < lease

theorem ownedSeat_ok (h : room.ownedSeat seat = .ok member) : room.OwnsLiveSeat seat member := by
  unfold AppRoom.ownedSeat at h
  split at h
  · next m lease hm hlease =>
    split at h
    · cases h
    · next hlive =>
      split at h
      · cases h
      · next howner =>
        cases h
        exact ⟨hm, by simpa using howner, lease, hlease, by omega⟩
  · cases h

theorem withSeat_cases (room : AppRoom Data) (seat : SeatRef)
    (next : RoomMeta → RoomMember Data → AppRoom Data × RoomReply Data) :
    (∃ code, room.withSeat seat next = (room, .code code)) ∨
      ∃ info member, room.roomMeta.value = some info ∧ room.now < info.expiresAtMs ∧
        room.OwnsLiveSeat seat member ∧ room.withSeat seat next = next info member := by
  unfold AppRoom.withSeat
  cases hlive : room.liveRoom with
  | error code => exact .inl ⟨code, rfl⟩
  | ok info =>
    cases howned : room.ownedSeat seat with
    | error code => exact .inl ⟨code, rfl⟩
    | ok member =>
      obtain ⟨hmeta, hnow⟩ := liveRoom_ok hlive
      exact .inr ⟨info, member, hmeta, hnow, ownedSeat_ok howned, rfl⟩

theorem SeatInv.claimSeat (hinv : SeatInv info room)
    (input : ClaimInput Data) : SeatInv info (room.claimSeat input).1 := by
  unfold AppRoom.claimSeat
  cases hlive : room.liveRoom with
  | error code => exact hinv
  | ok i =>
    have hi := hinv.created i (liveRoom_ok hlive).1
    subst hi
    exact (hinv.removeSeats room.expiredSeats).claimSwept input room.expiredSeats

theorem SeatInv.leave (hinv : SeatInv info room)
    (seat : SeatRef) : SeatInv info (room.leave seat).1 := by
  unfold AppRoom.leave
  split
  · exact hinv
  · split
    · exact hinv
    · exact hinv.removeSeat seat.participantId

theorem has_of_get? {v : α} (h : m.get? id = some v) : m.has id = true := (m.has_iff id).mpr ⟨v, h⟩

theorem SeatInv.renew (hinv : SeatInv info room)
    (seat : SeatRef) (leaseSeconds : Nat) : SeatInv info (room.renew seat leaseSeconds).1 := by
  unfold AppRoom.renew
  rcases room.withSeat_cases seat _ with ⟨code, h⟩ | ⟨i, member, -, -, howned, h⟩
  · rw [h]
    exact hinv
  · rw [h]
    exact hinv.setLease i _ (has_of_get? howned.held)

theorem SeatInv.setPresence (hinv : SeatInv info room) (seat : SeatRef) (leaseSeconds : Nat)
    (presence : Option Data) : SeatInv info (room.setPresence seat leaseSeconds presence).1 := by
  unfold AppRoom.setPresence
  rcases room.withSeat_cases seat _ with ⟨code, h⟩ | ⟨i, member, -, -, howned, h⟩
  · rw [h]
    exact hinv
  · rw [h]
    have hset : SeatInv info (room.setMember seat.participantId { member with presence := presence }) :=
      hinv.setMember howned.held rfl rfl
    apply hset.setLease i
    exact has_of_get? (get?_set_self _ _ _)

theorem recordEvent_seats (h : room.recordEvent info entry maxLength maxBytes = some room') :
    room'.members = room.members ∧ room'.leases = room.leases ∧ room'.roomMeta = room.roomMeta := by
  unfold AppRoom.recordEvent at h
  simp only at h
  split at h
  · cases h
  · cases h
    exact ⟨rfl, rfl, rfl⟩

section

variable (hinv : SeatInv info room)
include hinv

theorem SeatInv.renewPublisher (i : RoomMeta)
    (hheld : room.members.value.get? seat.participantId = some member) :
    SeatInv info (room.renewPublisher i member seat) := by
  unfold AppRoom.renewPublisher
  split
  · exact hinv.setLease i _ (has_of_get? hheld)
  · exact hinv

theorem SeatInv.publishCounted (entryLength : PublishedEvent Data → Nat) (i : RoomMeta)
    (hheld : room.members.value.get? input.seat.participantId = some member) :
    SeatInv info (publishCounted entryLength room i member input).1 := by
  have hleased := hinv.renewPublisher i hheld
  have hnumbered : SeatInv info ((room.renewPublisher i member input.seat).nextSequence i).1 :=
    hleased.of_same hleased.created rfl rfl
  unfold AppRoom.publishCounted
  simp only
  split
  · split
    · next recorded hrecorded =>
      obtain ⟨hmembers, hleases, hmeta⟩ := recordEvent_seats hrecorded
      apply hnumbered.of_same _ hmembers hleases
      rw [hmeta]
      exact hnumbered.created
    · exact hnumbered
  · exact hnumbered

theorem SeatInv.publish (entryLength : PublishedEvent Data → Nat) (input : PublishInput Data) :
    SeatInv info (room.publish entryLength input).1 := by
  unfold AppRoom.publish
  rcases room.withSeat_cases input.seat _ with ⟨code, h⟩ | ⟨i, member, -, -, howned, h⟩
  · rw [h]
    exact hinv
  · rw [h]
    have hcounted : SeatInv info room.countPublish.1 := hinv.of_same hinv.created rfl rfl
    simp only
    split
    · exact hcounted
    · exact hcounted.publishCounted entryLength i howned.held

theorem SeatInv.announce :
    SeatInv info room.announce.1 := by
  unfold AppRoom.announce
  split
  · exact hinv
  · exact hinv.of_same hinv.created rfl rfl

theorem SeatInv.runScript (entryLength : PublishedEvent Data → Nat) (script : RoomScript Data) :
    SeatInv info (room.runScript entryLength script).1 := by
  cases script with
  | claimSeat input => exact hinv.claimSeat input
  | leave seat => exact hinv.leave seat
  | renew seat leaseSeconds => exact hinv.renew seat leaseSeconds
  | setPresence seat leaseSeconds presence => exact hinv.setPresence seat leaseSeconds presence
  | publish input => exact hinv.publish entryLength input
  | readHistory after limit => exact hinv
  | announce => exact hinv.announce
  | sweep => exact hinv.removeSeats room.expiredSeats

/-! ## The invariant of numbers -/

/-- The numbers given out by publishes and announcements. -/
def sequenceOf : RoomReply Data → Option Nat
  | .published event => some event.sequence
  | .announced sequence => some sequence
  | _ => none

/-- The numbers of a room created with `info`, after some replies. -/
structure NumberInv (info : RoomMeta) (room : AppRoom Data) (replies : List (RoomReply Data)) :
    Prop where
  /-- The counter lasts as long as the room. -/
  lasting : ∀ d ∈ room.sequence.deadline, info.expiresAtMs ≤ d
  /-- No number was given out twice, and later ones are greater. -/
  increasing : (replies.filterMap sequenceOf).Pairwise (· < ·)
  /-- While the room lasts, the counter is the last number given out. -/
  counted : room.now < info.expiresAtMs →
    ∀ s ∈ replies.filterMap sequenceOf, s ≤ room.sequence.value.getD 0
  /-- No script broke off. -/
  unbroken : ∀ reply ∈ replies, reply ≠ .failed
  /-- The recorded events are in order. -/
  recorded : ∀ stream ∈ room.history.value,
    (stream.entries.map HistoryEntry.sequence).Pairwise (· < ·) ∧
      ∀ entry ∈ stream.entries, entry.sequence ≤ stream.lastId
  /-- While the room lasts, no event was recorded under a later number. -/
  last : room.now < info.expiresAtMs →
    ∀ stream ∈ room.history.value, stream.lastId ≤ room.sequence.value.getD 0

end

theorem numberInv_created (info : RoomMeta) :
    NumberInv info (createAppRoom Data now info) [] where
  lasting := by
    intro d hd
    cases hd
  increasing := List.Pairwise.nil
  counted := by
    intro _ s hs
    cases hs
  unbroken := by
    intro reply hreply
    cases hreply
  recorded := by
    intro stream hstream
    cases hstream
  last := by
    intro _ stream hstream
    cases hstream

theorem NumberInv.elapse (hinv : NumberInv info room replies) (elapsed : Nat) :
    NumberInv info (room.elapse elapsed) replies := by
  have hnow : (room.elapse elapsed).now = room.now + elapsed := rfl
  have hsequence : (room.elapse elapsed).sequence = room.sequence.expire (room.now + elapsed) := rfl
  have hhistory : ∀ stream ∈ (room.elapse elapsed).history.value, stream ∈ room.history.value := by
    intro stream hstream
    change stream ∈ (room.history.expire (room.now + elapsed)).value at hstream
    rcases room.history.expire_eq (room.now + elapsed) with hkey | ⟨hkey, -⟩
    · rwa [hkey] at hstream
    · rw [hkey] at hstream
      cases hstream
  -- while the room lasts, so does the counter
  have hkept : room.now + elapsed < info.expiresAtMs →
      (room.elapse elapsed).sequence = room.sequence := by
    intro hlive
    rw [hsequence]
    apply ExpiringKey.expire_of_le
    intro d hd
    have := hinv.lasting d hd
    omega
  constructor
  · intro d hd
    rw [hsequence] at hd
    rcases room.sequence.expire_eq (room.now + elapsed) with hkey | ⟨hkey, -⟩
    · rw [hkey] at hd
      exact hinv.lasting d hd
    · rw [hkey] at hd
      cases hd
  · exact hinv.increasing
  · intro hlive s hs
    rw [hnow] at hlive
    rw [hkept hlive]
    exact hinv.counted (by omega) s hs
  · exact hinv.unbroken
  · exact fun stream hstream => hinv.recorded stream (hhistory stream hstream)
  · intro hlive stream hstream
    rw [hnow] at hlive
    rw [hkept hlive]
    exact hinv.last (by omega) stream (hhistory stream hstream)

/-- A script that leaves the numbers alone. -/
structure KeepsNumbers (room room' : AppRoom Data) : Prop where
  now      : room'.now = room.now
  sequence : room'.sequence = room.sequence
  history  : room'.history = room.history

theorem KeepsNumbers.trans {room'' : AppRoom Data} (h : KeepsNumbers room room')
    (h' : KeepsNumbers room' room'') : KeepsNumbers room room'' :=
  ⟨h'.now.trans h.now, h'.sequence.trans h.sequence, h'.history.trans h.history⟩

theorem keepsNumbers_removeSeats (room : AppRoom Data) (ids : List String) :
    KeepsNumbers room (ids.foldl AppRoom.removeSeat room) := by
  induction ids generalizing room with
  | nil => exact ⟨rfl, rfl, rfl⟩
  | cons id rest ih =>
    have hfirst : KeepsNumbers room (room.removeSeat id) := ⟨rfl, rfl, rfl⟩
    exact hfirst.trans (ih (room.removeSeat id))

theorem unbroken_concat (h : ∀ reply ∈ replies, reply ≠ .failed) (hreply : reply ≠ .failed) :
    ∀ r ∈ replies ++ [reply], r ≠ .failed := by
  intro r hr
  rcases mem_append.mp hr with hr | hr
  · exact h r hr
  · rw [mem_singleton] at hr
    rw [hr]
    exact hreply

/-- A script that leaves the numbers alone and gives none out. -/
structure Silent (room : AppRoom Data) (result : AppRoom Data × RoomReply Data) : Prop where
  keeps    : KeepsNumbers room result.1
  none     : sequenceOf result.2 = none
  unbroken : result.2 ≠ .failed

theorem NumberInv.of_silent (hinv : NumberInv info room replies)
    {result : AppRoom Data × RoomReply Data} (h : Silent room result) :
    NumberInv info result.1 (replies ++ [result.2]) := by
  have hreplies : (replies ++ [result.2]).filterMap sequenceOf = replies.filterMap sequenceOf := by
    simp [filterMap_append, h.none]
  constructor
  · rw [h.keeps.sequence]; exact hinv.lasting
  · rw [hreplies]; exact hinv.increasing
  · rw [hreplies, h.keeps.now, h.keeps.sequence]; exact hinv.counted
  · exact unbroken_concat hinv.unbroken h.unbroken
  · rw [h.keeps.history]; exact hinv.recorded
  · rw [h.keeps.now, h.keeps.history, h.keeps.sequence]; exact hinv.last

theorem silent_code (room : AppRoom Data) (code : Int) : Silent room (room, .code code) :=
  ⟨⟨rfl, rfl, rfl⟩, rfl, by intro h; cases h⟩

theorem silent_claimSwept (room : AppRoom Data) (info : RoomMeta) (input : ClaimInput Data)
    (swept : List String) : Silent room (room.claimSwept info input swept) := by
  unfold AppRoom.claimSwept
  simp only
  split
  · exact silent_code room (-3)
  · exact ⟨⟨rfl, rfl, rfl⟩, rfl, by intro h; cases h⟩

theorem silent_claimSeat (room : AppRoom Data) (input : ClaimInput Data) :
    Silent room (room.claimSeat input) := by
  unfold AppRoom.claimSeat
  cases room.liveRoom with
  | error code => exact silent_code room code
  | ok info =>
    have hswept := keepsNumbers_removeSeats room room.expiredSeats
    have hclaim := silent_claimSwept (room.expiredSeats.foldl AppRoom.removeSeat room) info input
      room.expiredSeats
    exact ⟨hswept.trans hclaim.keeps, hclaim.none, hclaim.unbroken⟩

theorem silent_leave (room : AppRoom Data) (seat : SeatRef) : Silent room (room.leave seat) := by
  unfold AppRoom.leave
  split
  · exact silent_code room 0
  · split
    · exact silent_code room (-1)
    · exact ⟨⟨rfl, rfl, rfl⟩, rfl, by intro h; cases h⟩

theorem silent_renew (room : AppRoom Data) (seat : SeatRef) (leaseSeconds : Nat) :
    Silent room (room.renew seat leaseSeconds) := by
  unfold AppRoom.renew
  rcases room.withSeat_cases seat _ with ⟨code, h⟩ | ⟨i, member, -, -, -, h⟩
  · rw [h]
    exact silent_code room code
  · rw [h]
    exact ⟨⟨rfl, rfl, rfl⟩, rfl, by intro h; cases h⟩

theorem silent_setPresence (room : AppRoom Data) (seat : SeatRef) (leaseSeconds : Nat)
    (presence : Option Data) : Silent room (room.setPresence seat leaseSeconds presence) := by
  unfold AppRoom.setPresence
  rcases room.withSeat_cases seat _ with ⟨code, h⟩ | ⟨i, member, -, -, -, h⟩
  · rw [h]
    exact silent_code room code
  · rw [h]
    exact ⟨⟨rfl, rfl, rfl⟩, rfl, by intro h; cases h⟩

theorem silent_readHistory (room : AppRoom Data) (after : Int) (limit : Nat) :
    Silent room (room, room.readHistory after limit) := by
  unfold AppRoom.readHistory
  simp only
  split <;> exact ⟨⟨rfl, rfl, rfl⟩, rfl, by intro h; cases h⟩

theorem silent_sweep (room : AppRoom Data) : Silent room room.sweep :=
  ⟨keepsNumbers_removeSeats room room.expiredSeats, rfl, by intro h; cases h⟩

theorem NumberInv.nextSequence (hinv : NumberInv info room replies)
    (hlive : room.now < info.expiresAtMs)
    (hreply : sequenceOf reply = some (room.nextSequence info).2) (hunbroken : reply ≠ .failed) :
    NumberInv info (room.nextSequence info).1 (replies ++ [reply]) := by
  have hnumber : (room.nextSequence info).2 = room.sequence.value.getD 0 + 1 := rfl
  have hcounter : (room.nextSequence info).1.sequence.value.getD 0 = room.sequence.value.getD 0 + 1 :=
    rfl
  have hreplies : (replies ++ [reply]).filterMap sequenceOf =
      replies.filterMap sequenceOf ++ [room.sequence.value.getD 0 + 1] := by
    simp [filterMap_append, hreply, hnumber]
  constructor
  · intro d hd
    cases hd
    exact le_rfl
  · rw [hreplies, pairwise_append]
    refine ⟨hinv.increasing, pairwise_singleton _ _, ?_⟩
    intro s hs t ht
    have hle := hinv.counted hlive s hs
    rw [mem_singleton] at ht
    omega
  · intro _ s hs
    rw [hreplies, mem_append] at hs
    rw [hcounter]
    rcases hs with hs | hs
    · have := hinv.counted hlive s hs
      omega
    · rw [mem_singleton] at hs
      omega
  · exact unbroken_concat hinv.unbroken hunbroken
  · exact hinv.recorded
  · intro _ stream hstream
    have := hinv.last hlive stream hstream
    rw [hcounter]
    omega

theorem evict_sublist (maxLength maxBytes : Nat) (entries : List (HistoryEntry Data))
    (info : HistoryMeta) : (evict maxLength maxBytes entries info).1.Sublist entries := by
  induction entries generalizing info with
  | nil => exact List.Sublist.refl _
  | cons oldest rest ih =>
    rw [evict]
    split
    · exact (ih _).cons oldest
    · exact List.Sublist.refl _

theorem NumberInv.recordEvent (hinv : NumberInv info room replies)
    (h : room.recordEvent info entry maxLength maxBytes = some room')
    (hentry : entry.sequence = room.sequence.value.getD 0) : NumberInv info room' replies := by
  unfold AppRoom.recordEvent at h
  simp only at h
  split at h
  · cases h
  · next hnew =>
    cases h
    set stream := room.history.value.getD { entries := [], lastId := 0 } with hstream
    have hold : (stream.entries.map HistoryEntry.sequence).Pairwise (· < ·) ∧
        ∀ e ∈ stream.entries, e.sequence ≤ stream.lastId := by
      rw [hstream]
      cases hvalue : room.history.value with
      | none => simp
      | some s => exact hinv.recorded s hvalue
    have hadded : ((stream.entries ++ [entry]).map HistoryEntry.sequence).Pairwise (· < ·) := by
      rw [map_append, pairwise_append]
      refine ⟨hold.1, pairwise_singleton _ _, ?_⟩
      intro a ha b hb
      rw [mem_map] at ha
      obtain ⟨e, he, rfl⟩ := ha
      have hle := hold.2 e he
      simp only [map_cons, map_nil, mem_singleton] at hb
      omega
    constructor
    · exact hinv.lasting
    · exact hinv.increasing
    · exact hinv.counted
    · exact hinv.unbroken
    · intro s hs
      cases hs
      have hkept := fun bytes => evict_sublist maxLength maxBytes (stream.entries ++ [entry]) bytes
      refine ⟨hadded.sublist ((hkept _).map _), ?_⟩
      intro e he
      rcases mem_append.mp ((hkept _).subset he) with he | he
      · have hle := hold.2 e he
        show e.sequence ≤ entry.sequence
        omega
      · rw [mem_singleton] at he
        rw [he]
    · intro _ s hs
      cases hs
      show entry.sequence ≤ room.sequence.value.getD 0
      omega

theorem recordEvent_isSome (info : RoomMeta)
    (hnew : ∀ stream ∈ room.history.value, stream.lastId < room.sequence.value.getD 0)
    (hentry : entry.sequence = room.sequence.value.getD 0)
    (hpositive : 0 < entry.sequence) (maxLength maxBytes : Nat) :
    ∃ room', room.recordEvent info entry maxLength maxBytes = some room' := by
  unfold AppRoom.recordEvent
  simp only
  rw [if_neg]
  · exact ⟨_, rfl⟩
  · cases hvalue : room.history.value with
    | none =>
      show ¬ entry.sequence ≤ 0
      omega
    | some s =>
      have := hnew s hvalue
      show ¬ entry.sequence ≤ s.lastId
      omega

theorem keepsNumbers_renewPublisher (room : AppRoom Data) (info : RoomMeta)
    (member : RoomMember Data) (seat : SeatRef) :
    KeepsNumbers room (room.renewPublisher info member seat) := by
  unfold AppRoom.renewPublisher
  split <;> exact ⟨rfl, rfl, rfl⟩

section

variable (hinv : NumberInv info room replies)
include hinv

theorem NumberInv.publishCounted
    (hlive : room.now < info.expiresAtMs) (entryLength : PublishedEvent Data → Nat)
    (member : RoomMember Data) (input : PublishInput Data) :
    NumberInv info (publishCounted entryLength room info member input).1
      (replies ++ [(publishCounted entryLength room info member input).2]) := by
  have hkeeps := keepsNumbers_renewPublisher room info member input.seat
  set leased := room.renewPublisher info member input.seat with hleased
  have hleasedInv : NumberInv info leased replies := by
    constructor
    · rw [hkeeps.sequence]; exact hinv.lasting
    · exact hinv.increasing
    · rw [hkeeps.now, hkeeps.sequence]; exact hinv.counted
    · exact hinv.unbroken
    · rw [hkeeps.history]; exact hinv.recorded
    · rw [hkeeps.now, hkeeps.history, hkeeps.sequence]; exact hinv.last
  have hleasedLive : leased.now < info.expiresAtMs := by
    rw [hkeeps.now]
    exact hlive
  have hnumbered : NumberInv info (leased.nextSequence info).1
      (replies ++ [.published (publishedEvent input room.now (leased.nextSequence info).2)]) := by
    apply hleasedInv.nextSequence hleasedLive <;> simp [sequenceOf, publishedEvent]
  unfold AppRoom.publishCounted
  simp only [← hleased]
  split
  · -- the number is new, so the entry is recorded
    have hnew : ∀ stream ∈ (leased.nextSequence info).1.history.value,
        stream.lastId < (leased.nextSequence info).1.sequence.value.getD 0 := by
      intro stream hstream
      have hle := hleasedInv.last hleasedLive stream hstream
      show stream.lastId < leased.sequence.value.getD 0 + 1
      omega
    have hentry : (publishedEntry entryLength input room.now
        (leased.nextSequence info).2).sequence =
          (leased.nextSequence info).1.sequence.value.getD 0 := rfl
    obtain ⟨recorded, hrecorded⟩ := recordEvent_isSome info hnew hentry (Nat.succ_pos _)
      input.maxLength input.maxBytes
    rw [hrecorded]
    exact hnumbered.recordEvent hrecorded rfl
  · exact hnumbered

theorem NumberInv.publish (hcreated : ∀ i ∈ room.roomMeta.value, i = info)
    (entryLength : PublishedEvent Data → Nat) (input : PublishInput Data) :
    NumberInv info (room.publish entryLength input).1
      (replies ++ [(room.publish entryLength input).2]) := by
  unfold AppRoom.publish
  rcases room.withSeat_cases input.seat _ with ⟨code, h⟩ | ⟨i, member, hi, hlive, -, h⟩ <;> rw [h]
  · exact hinv.of_silent (silent_code room code)
  · have hmeta := hcreated i hi
    subst hmeta
    simp only
    split
    · apply hinv.of_silent
      exact ⟨⟨rfl, rfl, rfl⟩, rfl, by intro h; cases h⟩
    · have hcounted : NumberInv i room.countPublish.1 replies :=
        ⟨hinv.lasting, hinv.increasing, hinv.counted, hinv.unbroken, hinv.recorded, hinv.last⟩
      exact hcounted.publishCounted hlive entryLength member input

theorem NumberInv.announce (hcreated : ∀ i ∈ room.roomMeta.value, i = info) :
    NumberInv info room.announce.1 (replies ++ [room.announce.2]) := by
  unfold AppRoom.announce
  cases hroom : room.liveRoom with
  | error code => exact hinv.of_silent (silent_code room code)
  | ok i =>
    obtain ⟨hi, hlive⟩ := liveRoom_ok hroom
    have hmeta := hcreated i hi
    subst hmeta
    apply hinv.nextSequence hlive <;> simp [sequenceOf]

theorem NumberInv.runScript (hcreated : ∀ i ∈ room.roomMeta.value, i = info)
    (entryLength : PublishedEvent Data → Nat) (script : RoomScript Data) :
    NumberInv info (room.runScript entryLength script).1
      (replies ++ [(room.runScript entryLength script).2]) := by
  cases script with
  | claimSeat input => exact hinv.of_silent (silent_claimSeat room input)
  | leave seat => exact hinv.of_silent (silent_leave room seat)
  | renew seat leaseSeconds => exact hinv.of_silent (silent_renew room seat leaseSeconds)
  | setPresence seat leaseSeconds presence =>
    exact hinv.of_silent (silent_setPresence room seat leaseSeconds presence)
  | publish input => exact hinv.publish hcreated entryLength input
  | readHistory after limit => exact hinv.of_silent (silent_readHistory room after limit)
  | announce => exact hinv.announce hcreated
  | sweep => exact hinv.of_silent (silent_sweep room)

/-! ## All runs -/

/-- The participants whose lease has not run out. -/
def liveSeats (room : AppRoom Data) : List String :=
  (room.leases.value.entries.filter fun e => room.now < e.2).map Prod.fst

end

theorem length_liveSeats_le (room : AppRoom Data) :
    room.liveSeats.length ≤ room.leases.value.size := by
  unfold liveSeats
  rw [length_map]
  exact length_filter_le _ _

theorem run_inv (entryLength : PublishedEvent Data → Nat) (now : Nat) (info : RoomMeta)
    (inputs : List (Nat × RoomScript Data)) :
    SeatInv info ((machine entryLength).run (createAppRoom Data now info) inputs).1 ∧
      NumberInv info ((machine entryLength).run (createAppRoom Data now info) inputs).1
        ((machine entryLength).run (createAppRoom Data now info) inputs).2 := by
  apply Mealy.run_outputs_invariant (I := fun room replies =>
    SeatInv info room ∧ NumberInv info room replies) (m := machine entryLength)
  · intro room replies input hinv
    have hseats := hinv.1.elapse input.1
    exact ⟨hseats.runScript entryLength input.2,
      (hinv.2.elapse input.1).runScript hseats.created entryLength input.2⟩
  · exact ⟨seatInv_created now info, numberInv_created now info⟩

theorem publish_owned {entryLength : PublishedEvent Data → Nat} {event : PublishedEvent Data}
    (h : (room.publish entryLength input).2 = .published event) :
    ∃ member, room.OwnsLiveSeat input.seat member := by
  unfold AppRoom.publish at h
  rcases room.withSeat_cases input.seat _ with ⟨code, hcode⟩ | ⟨i, member, -, -, howned, -⟩
  · rw [hcode] at h
    cases h
  · exact ⟨member, howned⟩

/-- After any run of scripts and any time after it: members and leases name
    the same participants, no more seats are live than the room allows, a room
    with one seat for each user has at most one live seat of kind user for a
    user key, and what is published comes from the owner of a live seat.  All
    numbers given out and all recorded events are in increasing order. -/
theorem app_room_seats (entryLength : PublishedEvent Data → Nat) (now : Nat) (info : RoomMeta)
    (inputs : List (Nat × RoomScript Data)) (elapsed : Nat) :
    let ran := (machine entryLength).run (createAppRoom Data now info) inputs
    let room := ran.1.elapse elapsed
    (∀ id, room.members.value.has id = room.leases.value.has id) ∧
    room.liveSeats.length ≤ info.maxParticipants ∧
    (info.seatPerUser = true → ∀ a ∈ room.liveSeats, ∀ b ∈ room.liveSeats, ∀ ma mb,
      room.members.value.get? a = some ma → room.members.value.get? b = some mb →
      ma.kindOrUser = .user → mb.kindOrUser = .user → ma.userKey = mb.userKey → a = b) ∧
    (∀ input event, (room.publish entryLength input).2 = .published event →
      ∃ member, room.OwnsLiveSeat input.seat member) ∧
    (ran.2.filterMap sequenceOf).Pairwise (· < ·) ∧
    (∀ reply ∈ ran.2, reply ≠ .failed) ∧
    ∀ stream ∈ room.history.value, (stream.entries.map HistoryEntry.sequence).Pairwise (· < ·) := by
  intro ran room
  obtain ⟨hseats, hnumbers⟩ := run_inv entryLength now info inputs
  have hseatsLater : SeatInv info room := hseats.elapse elapsed
  have hnumbersLater : NumberInv info room ran.2 := hnumbers.elapse elapsed
  refine ⟨hseatsLater.sameDomain, ?_, ?_, ?_, hnumbers.increasing, hnumbers.unbroken, ?_⟩
  · have hlive := room.length_liveSeats_le
    have hcapacity := hseatsLater.capacity
    omega
  · intro hone a _ b _ ma mb ha hb hka hkb hkey
    exact hseatsLater.oneSeat hone a b ma mb ha hb hka hkb hkey
  · intro input event h
    exact publish_owned h
  · exact fun stream hstream => (hnumbersLater.recorded stream hstream).1

/-- A claim on behalf of one user, from the browser or from the CLI. -/
def claimOf (kind : ActorKind) (participantId : String) : ClaimInput Unit :=
  { seat := { participantId := participantId, owner := participantId }, leaseSeconds := 60
    joinedAt := "", userKey := "ada", instanceId := none, kind := kind, model := none
    hosted := false, presence := none }

/-- A user in the browser and the user's CLI hold two live seats in a room with
    one seat for each user. -/
theorem app_room_user_and_cli_seats :
    let info : RoomMeta := { expiresAtMs := 7200000, maxParticipants := 16, seatPerUser := true }
    let room := ((machine fun _ => 0).run (createAppRoom Unit 0 info)
      [(1, .claimSeat (claimOf .user "tab")), (1, .claimSeat (claimOf .cli "cli"))]).1
    info.seatPerUser = true ∧ room.liveSeats = ["tab", "cli"] ∧
      (room.members.value.get? "tab").map RoomMember.userKey = some "ada" ∧
      (room.members.value.get? "cli").map RoomMember.userKey = some "ada" := by
  decide +kernel

end AppRoom

end Cohub.Rooms
