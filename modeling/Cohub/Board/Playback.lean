import Cohub.Lib.Mealy
import Cohub.Lib.Number

/-! # Shared playback

    `boardPlaybackPosition` and `applyBoardPlayback` of
    `packages/core/src/board/store.ts`.  A board plays one animation at a time.
    What is stored is the position at the last command and the time of that
    command; the position at another time is computed from them.

    The animations are a table of headers that the commands do not change (a
    write to the animation being played stops the playback).  Times are whole
    milliseconds; `Math.max(0, now - effectiveAt)` is truncated subtraction. -/

namespace Cohub.Board

open Number

/-- `BoardMarker`, without its label. -/
structure PlaybackMarker where
  at_   : Rat
  pause : Bool
  /-- The schema takes no negative time. -/
  nonneg : 0 ≤ at_

/-- What playback reads of `BoardAnimationHeader`. -/
structure PlaybackHeader where
  duration : Rat
  loop     : Bool
  /-- `play` is `"always"`. -/
  always   : Bool
  markers  : List PlaybackMarker
  /-- The schema takes positive durations only. -/
  positive : 0 < duration

inductive BoardPlaybackStatus where
  | playing | paused | stopped
  deriving DecidableEq

structure BoardPlaybackSnapshot where
  playbackId : String
  animationId : String
  animationRevision : Nat
  revision : Nat
  status : BoardPlaybackStatus
  position : Rat
  effectiveAt : Nat
  timeScale : Rat
  seed : String
  commandId : String

/-- What a `BoardPlaybackCommand` asks for.  The schema takes positions that
    are not negative and positive time scales up to four. -/
inductive BoardPlaybackRequest where
  | play (animationId : String) (position : Option { p : Rat // 0 ≤ p })
      (timeScale : Option { s : Rat // 0 < s ∧ s ≤ 4 }) (seed : Option String)
  | pause
  | resume
  | seek (position : { p : Rat // 0 ≤ p })
  | next
  | stop

structure BoardPlaybackCommand where
  commandId : String
  request   : BoardPlaybackRequest

/-- The animation starts over at its end. -/
def PlaybackHeader.loops (header : PlaybackHeader) : Bool := header.loop || header.always

namespace BoardPlaybackSnapshot

/-- The position without regard to markers and the end. -/
def rawPosition (playback : BoardPlaybackSnapshot) (now : Nat) : Rat :=
  playback.position + ((now - playback.effectiveAt : Nat) : Rat) * playback.timeScale

/-- A pause marker between the stored position and a later one. -/
def passes (playback : BoardPlaybackSnapshot) (position : Rat) (marker : PlaybackMarker) : Bool :=
  marker.pause && decide (playback.position < marker.at_) && decide (marker.at_ ≤ position)

/-- The pause marker that holds playback: the first one in the list. -/
def holdsAt (playback : BoardPlaybackSnapshot) (header : PlaybackHeader) (now : Nat) :
    Option PlaybackMarker :=
  header.markers.find? (playback.passes (playback.rawPosition now))

def boardPlaybackPosition (playback : BoardPlaybackSnapshot) (header : PlaybackHeader)
    (now : Nat) : Rat :=
  if playback.status ≠ .playing then playback.position
  else match playback.holdsAt header now with
    | some pause => pause.at_
    | none =>
        if header.loops then remainder (playback.rawPosition now) header.duration
        else minimum (playback.rawPosition now) header.duration

end BoardPlaybackSnapshot

open BoardPlaybackSnapshot

/-- The next pause marker after a position, first in the list. -/
def nextPause (header : PlaybackHeader) (position : Rat) : Option PlaybackMarker :=
  header.markers.find? fun marker => marker.pause && decide (position < marker.at_)

/-- Where `next` goes on, before the thousandth it adds. -/
def nextFrom (header : PlaybackHeader) (status : BoardPlaybackStatus) (position : Rat) : Rat :=
  match nextPause header position with
  | some marker => if status = .paused ∧ position < marker.at_ then marker.at_ else position
  | none => position

/-- A `BoardError`. -/
structure BoardError where
  status  : Nat
  code    : String
  message : String
  deriving DecidableEq

/-- The animations of a board: headers and revisions. -/
abbrev PlaybackTable := String → Option (PlaybackHeader × Nat)

def loadAnimation (animations : PlaybackTable) (id : String) :
    Except BoardError (PlaybackHeader × Nat) :=
  match animations id with
  | some row => .ok row
  | none => .error { status := 404, code := "ANIMATION_NOT_FOUND"
                     message := "Animation " ++ id ++ " does not exist." }

/-- A command other than `play`, over the header of what is played. -/
def changePlayback (current : BoardPlaybackSnapshot) (header : PlaybackHeader)
    (command : BoardPlaybackCommand) (now : Nat) : Option BoardPlaybackSnapshot :=
  let position := boardPlaybackPosition current header now
  let base := { current with
    revision := current.revision + 1, effectiveAt := now, commandId := command.commandId }
  match command.request with
  | .play _ _ _ _ | .stop => none
  | .pause => some { base with status := .paused, position := position }
  | .resume => some { base with status := .playing, position := position }
  | .seek position => some { base with position := minimum position.val header.duration }
  | .next => some { base with
      status := .playing, position := nextFrom header current.status position + 1 / 1000 }

/-- `applyBoardPlayback`; `playbackId` is the random id of a new playback. -/
def applyBoardPlayback (animations : PlaybackTable) (playbackId : String)
    (current : Option BoardPlaybackSnapshot) (command : BoardPlaybackCommand) (now : Nat) :
    Except BoardError (Option BoardPlaybackSnapshot) :=
  if current.any fun c => c.commandId = command.commandId then .ok current
  else match command.request with
    | .play animationId position timeScale seed => do
        let row ← loadAnimation animations animationId
        return some {
          playbackId := playbackId
          animationId := animationId
          animationRevision := row.2
          revision := (current.elim 0 BoardPlaybackSnapshot.revision) + 1
          status := .playing
          position := minimum (position.elim 0 Subtype.val) row.1.duration
          effectiveAt := now
          timeScale := timeScale.elim 1 Subtype.val
          seed := seed.getD animationId
          commandId := command.commandId }
    | _ =>
        match current with
        | none => .error { status := 409, code := "PLAYBACK_NOT_ACTIVE"
                           message := "Nothing is playing." }
        | some current => do
            let row ← loadAnimation animations current.animationId
            return changePlayback current row.1 command now

/-- A board's playback and the time of the last command. -/
structure PlaybackState where
  now      : Nat
  playback : Option BoardPlaybackSnapshot

/-- A command, the time since the one before, and the random id. -/
structure PlaybackInput where
  elapsed    : Nat
  playbackId : String
  command    : BoardPlaybackCommand

/-- Commands at times that do not decrease; one that fails changes nothing. -/
def playbackMachine (animations : PlaybackTable) :
    Mealy PlaybackState PlaybackInput (Except BoardError (Option BoardPlaybackSnapshot)) where
  step s input :=
    let now := s.now + input.elapsed
    let result := applyBoardPlayback animations input.playbackId s.playback input.command now
    ({ now := now, playback := result.toOption.getD s.playback }, [result])

/-! ## Reading the position -/

/-- Of the pause markers passed, the first one listed is the earliest. -/
def EarliestFirst (playback : BoardPlaybackSnapshot) (header : PlaybackHeader) (now : Nat) : Prop :=
  ∀ held ∈ playback.holdsAt header now, ∀ marker ∈ header.markers,
    playback.passes (playback.rawPosition now) marker = true → held.at_ ≤ marker.at_

/-- The position is inside the timeline.  A looping animation is at its start
    when it is at its end. -/
def PlaybackHeader.Within (header : PlaybackHeader) (position : Rat) : Prop :=
  if header.loops then position < header.duration else position ≤ header.duration

theorem passes_iff (playback : BoardPlaybackSnapshot) (position : Rat) (marker : PlaybackMarker) :
    playback.passes position marker = true ↔
      marker.pause = true ∧ playback.position < marker.at_ ∧ marker.at_ ≤ position := by
  simp [passes, and_assoc]

variable {playback : BoardPlaybackSnapshot} {header : PlaybackHeader} {now : Nat}
    {animations : PlaybackTable} {playbackId : String} {current : Option BoardPlaybackSnapshot}
    {command : BoardPlaybackCommand} {held : PlaybackMarker} {result : Option BoardPlaybackSnapshot}

theorem holdsAt_some (h : playback.holdsAt header now = some held) :
    held ∈ header.markers ∧ held.pause = true ∧ playback.position < held.at_ ∧
      held.at_ ≤ playback.rawPosition now :=
  ⟨List.mem_of_find?_eq_some h, (passes_iff _ _ _).mp (List.find?_some h)⟩

theorem holdsAt_none (h : playback.holdsAt header now = none) {marker : PlaybackMarker}
    (hmem : marker ∈ header.markers) (hpause : marker.pause = true)
    (hafter : playback.position < marker.at_) : playback.rawPosition now < marker.at_ := by
  have hpasses := List.find?_eq_none.mp h marker hmem
  rw [passes_iff] at hpasses
  by_contra hle
  exact hpasses ⟨hpause, hafter, by linarith⟩

theorem read_not_playing (h : playback.status ≠ .playing) :
    boardPlaybackPosition playback header now = playback.position := by
  unfold boardPlaybackPosition
  rw [if_pos h]

theorem read_held (hplaying : playback.status = .playing)
    (hheld : playback.holdsAt header now = some held) :
    boardPlaybackPosition playback header now = held.at_ := by
  unfold boardPlaybackPosition
  rw [if_neg (by simp [hplaying]), hheld]

theorem read_free
    (hplaying : playback.status = .playing) (hnone : playback.holdsAt header now = none) :
    boardPlaybackPosition playback header now =
      if header.loops then remainder (playback.rawPosition now) header.duration
      else minimum (playback.rawPosition now) header.duration := by
  unfold boardPlaybackPosition
  rw [if_neg (by simp [hplaying]), hnone]

theorem boardPlaybackPosition_le_raw
    (hplaying : playback.status = .playing) (hloops : header.loops = false) (now : Nat) :
    boardPlaybackPosition playback header now ≤ playback.rawPosition now := by
  cases hheld : playback.holdsAt header now with
  | some held =>
    rw [read_held hplaying hheld]
    exact (holdsAt_some hheld).2.2.2
  | none =>
    rw [read_free hplaying hheld, hloops]
    exact minimum_le_left _ _

theorem stops_iff (playback : BoardPlaybackSnapshot) (header : PlaybackHeader)
    (hloops : header.loops = false) (now : Nat) :
    (∀ marker ∈ header.markers, marker.pause = true → playback.position < marker.at_ →
      boardPlaybackPosition playback header now ≤ marker.at_) ↔
    (playback.status = .playing → EarliestFirst playback header now) := by
  constructor
  · intro hstops hplaying held hheld marker hmem hpasses
    rw [passes_iff] at hpasses
    rw [← read_held hplaying hheld]
    exact hstops marker hmem hpasses.1 hpasses.2.1
  · intro hfirst marker hmem hpause hafter
    by_cases hplaying : playback.status = .playing
    · by_cases hpassed : marker.at_ ≤ playback.rawPosition now
      · -- a passed marker: playback is held at the first one listed
        have hpasses := (passes_iff playback (playback.rawPosition now) marker).mpr
          ⟨hpause, hafter, hpassed⟩
        cases hheld : playback.holdsAt header now with
        | some held =>
          rw [read_held hplaying hheld]
          exact hfirst hplaying held hheld marker hmem hpasses
        | none =>
          have := holdsAt_none hheld hmem hpause hafter
          linarith
      · have := boardPlaybackPosition_le_raw hplaying hloops now
        linarith
    · rw [read_not_playing hplaying]
      exact hafter.le

theorem read_at_anchor_iff
    (hplaying : playback.status = .playing) (hposition : 0 ≤ playback.position) :
    boardPlaybackPosition playback header playback.effectiveAt = playback.position ↔
      header.Within playback.position := by
  have hraw : playback.rawPosition playback.effectiveAt = playback.position := by
    simp [rawPosition]
  have hnone : playback.holdsAt header playback.effectiveAt = none := by
    apply List.find?_eq_none.mpr
    intro marker _ hpasses
    rw [passes_iff, hraw] at hpasses
    linarith [hpasses.2.1, hpasses.2.2]
  rw [read_free hplaying hnone, hraw]
  unfold PlaybackHeader.Within
  cases header.loops with
  | true => simpa using remainder_eq_self_iff hposition header.positive
  | false =>
    simp only [Bool.false_eq_true, if_false]
    constructor
    · intro h
      rw [← h]
      exact minimum_le_right _ _
    · exact minimum_eq_left

/-! ## Commands -/

/-- Where playing goes on from: the marker that holds it, or its stored
    position while it is not playing.  None while nothing holds it. -/
def startsFrom (playback : BoardPlaybackSnapshot) (header : PlaybackHeader) (now : Nat) :
    Option Rat :=
  if playback.status = .playing then (playback.holdsAt header now).map PlaybackMarker.at_
  else some playback.position

/-- What `next` adds does not lead out of the timeline. -/
def NextWithin (playback : BoardPlaybackSnapshot) (header : PlaybackHeader) (now : Nat) : Prop :=
  match startsFrom playback header now with
  | some position => header.Within (nextFrom header playback.status position + 1 / 1000)
  | none =>
      if header.loops then
        remainder (playback.rawPosition now) header.duration + 1 / 1000 < header.duration
      else playback.rawPosition now + 1 / 1000 ≤ header.duration

/-- The command starts playing inside the timeline, or starts nothing. -/
def CommandWithin (header : PlaybackHeader) (current : Option BoardPlaybackSnapshot)
    (request : BoardPlaybackRequest) (now : Nat) : Prop :=
  match request with
  | .play _ position _ _ => header.loops = true → position.elim 0 Subtype.val < header.duration
  | .pause | .stop => True
  | .resume => ∀ c ∈ current, ∀ position ∈ startsFrom c header now, header.Within position
  | .seek position => ∀ c ∈ current, c.status = .playing → header.loops = true →
      position.val < header.duration
  | .next => ∀ c ∈ current, NextWithin c header now

/-- What every stored playback meets. -/
structure PlaybackInv (playback : BoardPlaybackSnapshot) : Prop where
  position  : 0 ≤ playback.position
  timeScale : 0 < playback.timeScale

theorem PlaybackInv.rawPosition (hinv : PlaybackInv playback)
    (now : Nat) : 0 ≤ playback.rawPosition now := by
  unfold BoardPlaybackSnapshot.rawPosition
  have hposition := hinv.position
  have hadvance : 0 ≤ ((now - playback.effectiveAt : Nat) : Rat) * playback.timeScale :=
    mul_nonneg (Nat.cast_nonneg _) hinv.timeScale.le
  linarith

theorem PlaybackInv.read (hinv : PlaybackInv playback)
    (header : PlaybackHeader) (now : Nat) : 0 ≤ boardPlaybackPosition playback header now := by
  unfold boardPlaybackPosition
  split
  · exact hinv.position
  · split
    · next marker _ => exact marker.nonneg
    · split
      · exact remainder_nonneg _ header.positive
      · exact le_minimum (hinv.rawPosition now) header.positive.le

theorem within_of_not_held
    (hplaying : playback.status = .playing) (hnone : playback.holdsAt header now = none) :
    header.Within (boardPlaybackPosition playback header now) := by
  rw [read_free hplaying hnone]
  unfold PlaybackHeader.Within
  cases header.loops with
  | true => exact remainder_lt _ header.positive
  | false => exact minimum_le_right _ _

theorem read_of_startsFrom {position : Rat} (h : startsFrom playback header now = some position) :
    boardPlaybackPosition playback header now = position := by
  unfold startsFrom at h
  split at h
  · next hplaying =>
    obtain ⟨held, hheld, rfl⟩ := Option.map_eq_some_iff.mp h
    exact read_held hplaying hheld
  · next hplaying =>
    cases h
    exact read_not_playing hplaying

theorem startsFrom_none (h : startsFrom playback header now = none) :
    playback.status = .playing ∧ playback.holdsAt header now = none := by
  unfold startsFrom at h
  split at h
  · next hplaying => exact ⟨hplaying, Option.map_eq_none_iff.mp h⟩
  · cases h

theorem resume_within_iff (playback : BoardPlaybackSnapshot) (header : PlaybackHeader) (now : Nat) :
    header.Within (boardPlaybackPosition playback header now) ↔
      ∀ position ∈ startsFrom playback header now, header.Within position := by
  cases hstart : startsFrom playback header now with
  | some position =>
    rw [read_of_startsFrom hstart]
    simp
  | none =>
    obtain ⟨hplaying, hnone⟩ := startsFrom_none hstart
    simpa using within_of_not_held hplaying hnone

theorem nextFrom_playing (header : PlaybackHeader) (position : Rat) :
    nextFrom header .playing position = position := by
  unfold nextFrom
  split <;> simp

theorem next_within_iff (playback : BoardPlaybackSnapshot) (header : PlaybackHeader) (now : Nat) :
    header.Within (nextFrom header playback.status
      (boardPlaybackPosition playback header now) + 1 / 1000) ↔ NextWithin playback header now := by
  unfold NextWithin
  cases hstart : startsFrom playback header now with
  | some position => rw [read_of_startsFrom hstart]
  | none =>
    obtain ⟨hplaying, hnone⟩ := startsFrom_none hstart
    rw [hplaying, nextFrom_playing, read_free hplaying hnone]
    unfold PlaybackHeader.Within
    cases header.loops with
    | true => simp
    | false =>
      -- the end of the timeline plus a thousandth is past the end
      simp only [Bool.false_eq_true, if_false]
      unfold minimum
      split
      · constructor <;> intro h <;> linarith
      · exact Iff.rfl

theorem applyBoardPlayback_cases (hnew : ∀ c ∈ current, c.commandId ≠ command.commandId)
    (h : applyBoardPlayback animations playbackId current command now = .ok result) :
    (∃ id position timeScale seed header revision next,
      command.request = .play id position timeScale seed ∧ result = some next ∧
      animations id = some (header, revision) ∧ next.animationId = id ∧ next.status = .playing ∧
      next.position = minimum (position.elim 0 Subtype.val) header.duration ∧
      next.effectiveAt = now ∧ next.timeScale = timeScale.elim 1 Subtype.val) ∨
    (∃ c header revision, current = some c ∧ animations c.animationId = some (header, revision) ∧
      (∀ id position timeScale seed, command.request ≠ .play id position timeScale seed) ∧
      result = changePlayback c header command now) := by
  unfold applyBoardPlayback at h
  have hfirst : ¬ (current.any fun c => decide (c.commandId = command.commandId)) = true := by
    cases current with
    | none => simp
    | some c => simpa using hnew c rfl
  rw [if_neg hfirst] at h
  -- both kinds of command look their animation up first
  have hload : ∀ {id : String} {row : PlaybackHeader × Nat},
      loadAnimation animations id = .ok row → animations id = some row := by
    intro id row hrow
    unfold loadAnimation at hrow
    split at hrow
    · next hsome =>
      cases hrow
      exact hsome
    · cases hrow
  cases hrequest : command.request with
  | play id position timeScale seed =>
    left
    rw [hrequest] at h
    simp only at h
    cases hrow : loadAnimation animations id with
    | error e =>
      rw [hrow] at h
      cases h
    | ok row =>
      rw [hrow] at h
      cases h
      exact ⟨id, position, timeScale, seed, row.1, row.2, _, rfl, rfl, hload hrow, rfl, rfl, rfl, rfl,
        rfl⟩
  | pause | resume | seek position | next | stop =>
    right
    rw [hrequest] at h
    simp only at h
    cases hcurrent : current with
    | none =>
      rw [hcurrent] at h
      cases h
    | some c =>
      rw [hcurrent] at h
      simp only at h
      cases hrow : loadAnimation animations c.animationId with
      | error e =>
        rw [hrow] at h
        cases h
      | ok row =>
        rw [hrow] at h
        cases h
        exact ⟨c, row.1, row.2, rfl, hload hrow, (by simp), rfl⟩

theorem PlaybackInv.applyBoardPlayback (hinv : ∀ c ∈ current, PlaybackInv c)
    (h : applyBoardPlayback animations playbackId current command now = .ok result) :
    ∀ next ∈ result, PlaybackInv next := by
  intro next hnext
  by_cases hnew : ∀ c ∈ current, c.commandId ≠ command.commandId
  · rcases applyBoardPlayback_cases hnew h with
      ⟨id, position, timeScale, seed, header, revision, started, -, hresult, -, -, -, hposition, -,
        hscale⟩ | ⟨c, header, revision, hcurrent, -, hplay, hresult⟩
    · rw [hresult] at hnext
      cases hnext
      constructor
      · rw [hposition]
        apply le_minimum _ header.positive.le
        cases position with
        | none => exact le_refl _
        | some position => exact position.2
      · rw [hscale]
        cases timeScale with
        | none => exact one_pos
        | some timeScale => exact timeScale.2.1
    · have hc := hinv c hcurrent
      have hread := hc.read header now
      rw [hresult] at hnext
      unfold changePlayback at hnext
      cases hrequest : command.request with
      | play id position timeScale seed => exact absurd hrequest (hplay id position timeScale seed)
      | stop =>
        rw [hrequest] at hnext
        cases hnext
      | pause | resume =>
        rw [hrequest] at hnext
        cases hnext
        exact ⟨hread, hc.timeScale⟩
      | seek position =>
        rw [hrequest] at hnext
        cases hnext
        exact ⟨le_minimum position.2 header.positive.le, hc.timeScale⟩
      | next =>
        rw [hrequest] at hnext
        cases hnext
        refine ⟨?_, hc.timeScale⟩
        show 0 ≤ nextFrom header c.status _ + 1 / 1000
        have hfrom : 0 ≤ nextFrom header c.status (boardPlaybackPosition c header now) := by
          unfold nextFrom
          split
          · next marker _ =>
            split
            · exact marker.nonneg
            · exact hread
          · exact hread
        linarith
  · -- a repeated command leaves the playback as it is
    have hrepeated : (current.any fun c => decide (c.commandId = command.commandId)) = true := by
      cases current with
      | none => simp at hnew
      | some c => simpa using hnew
    unfold Cohub.Board.applyBoardPlayback at h
    rw [if_pos hrepeated] at h
    cases h
    exact hinv next hnext

theorem command_agrees_iff {next : BoardPlaybackSnapshot} {revision : Nat}
    (hinv : ∀ c ∈ current, PlaybackInv c) (hnew : ∀ c ∈ current, c.commandId ≠ command.commandId)
    (h : applyBoardPlayback animations playbackId current command now = .ok (some next))
    (hheader : animations next.animationId = some (header, revision)) :
    boardPlaybackPosition next header now = next.position ↔
      CommandWithin header current command.request now := by
  have hnext := PlaybackInv.applyBoardPlayback hinv h next rfl
  rcases applyBoardPlayback_cases hnew h with
    ⟨id, position, timeScale, seed, header', revision', started, hrequest, hresult, hload, hid,
      hplaying, hposition, hnow, -⟩ | ⟨c, header', revision', hcurrent, hload, hplay, hresult⟩
  · cases hresult
    rw [hid, hload] at hheader
    cases hheader
    rw [hrequest, ← hnow, read_at_anchor_iff hplaying hnext.position, hposition]
    unfold PlaybackHeader.Within CommandWithin
    have hle := minimum_le_right (position.elim 0 Subtype.val) header.duration
    cases header.loops with
    | false => simpa using hle
    | true =>
      simp only [if_true, forall_const]
      unfold minimum
      split
      · constructor <;> intro hlt <;> linarith
      · exact Iff.rfl
  · have hanimation : next.animationId = c.animationId := by
      unfold changePlayback at hresult
      cases hrequest : command.request with
      | play id position timeScale seed => exact absurd hrequest (hplay id position timeScale seed)
      | stop =>
        rw [hrequest] at hresult
        cases hresult
      | pause | resume | seek position | next =>
        rw [hrequest] at hresult
        cases hresult
        rfl
    rw [hanimation, hload] at hheader
    cases hheader
    unfold changePlayback at hresult
    cases hrequest : command.request with
    | play id position timeScale seed => exact absurd hrequest (hplay id position timeScale seed)
    | stop =>
      rw [hrequest] at hresult
      cases hresult
    | pause =>
      rw [hrequest] at hresult
      cases hresult
      simp [CommandWithin, read_not_playing]
    | resume =>
      rw [hrequest] at hresult
      cases hresult
      apply Iff.trans (read_at_anchor_iff rfl hnext.position)
      apply Iff.trans (resume_within_iff c header now)
      simp [CommandWithin, hcurrent]
    | seek position =>
      rw [hrequest] at hresult
      injection hresult with hseek
      have hstatus : next.status = c.status := by rw [hseek]
      have hposition : next.position = minimum position.val header.duration := by rw [hseek]
      have hnow : now = next.effectiveAt := by rw [hseek]
      by_cases hplaying : c.status = .playing
      · rw [hnow, read_at_anchor_iff (hstatus.trans hplaying) hnext.position, hposition]
        have hle := minimum_le_right position.val header.duration
        simp only [CommandWithin, PlaybackHeader.Within, hcurrent, Option.mem_def, Option.some.injEq,
          forall_eq', hplaying, forall_const]
        cases header.loops with
        | false => simpa using hle
        | true =>
          simp only [if_true, forall_const]
          unfold minimum
          split
          · constructor <;> intro hlt <;> linarith
          · exact Iff.rfl
      · -- a paused playback reads as stored
        rw [read_not_playing (by rw [hstatus]; exact hplaying)]
        simp [CommandWithin, hcurrent, hplaying]
    | next =>
      rw [hrequest] at hresult
      cases hresult
      apply Iff.trans (read_at_anchor_iff rfl hnext.position)
      apply Iff.trans (next_within_iff c header now)
      simp [CommandWithin, hcurrent]

/-! ## All runs -/

theorem run_playbackInv (animations : PlaybackTable) (start : Nat) (inputs : List PlaybackInput) :
    ∀ playback ∈ ((playbackMachine animations).run { now := start, playback := none } inputs).1.playback,
      PlaybackInv playback := by
  apply Mealy.run_invariant_of_step (m := playbackMachine animations)
    (I := fun s => ∀ playback ∈ s.playback, PlaybackInv playback)
  · intro s input hinv
    show ∀ playback ∈ (applyBoardPlayback animations input.playbackId s.playback input.command
      (s.now + input.elapsed)).toOption.getD s.playback, PlaybackInv playback
    cases happly : applyBoardPlayback animations input.playbackId s.playback input.command
      (s.now + input.elapsed) with
    | error e => exact hinv
    | ok result => exact PlaybackInv.applyBoardPlayback hinv happly
  · intro playback hplayback
    cases hplayback

/-- An animation whose pause markers are not listed by time. -/
def unsortedHeader : PlaybackHeader :=
  { duration := 10, loop := false, always := false
    markers := [{ at_ := 8, pause := true, nonneg := by decide },
      { at_ := 3, pause := true, nonneg := by decide }]
    positive := by decide }

end Cohub.Board
