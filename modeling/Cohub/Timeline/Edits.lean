import Mathlib.Data.List.Sort
import Cohub.Lib.Number
import Cohub.Board.Patch

/-! # Edits of the timeline

    `packages/sdk/src/board/model/timeline.ts`: what the timeline of the
    editor does to the tracks of one animation.

    Times are rational numbers, and a minimum over nothing, which is infinite
    in the source, is `none`.  A keyframe without a value has the value `null`.
    What a track's value is between keyframes and how an easing is cut in two
    are parameters (`TrackCurves`), and so is the random id of a new track.
    A split gets the copy of every target it splits from its caller. -/

namespace Cohub.Timeline

open Number Cohub.Board

/-! ## Tracks -/

structure BoardKeyframe where
  at_   : Rat
  value : Json
  ease  : Option String

/-- `BoardTrack.composite`. -/
inductive TrackComposite where
  | replace | add
  deriving DecidableEq

/-- `BoardTrack.interpolation`. -/
inductive TrackInterpolation where
  | auto | step | spline
  deriving DecidableEq

structure BoardTrack where
  target : String
  property : String
  keyframes : List BoardKeyframe
  composite : TrackComposite
  interpolation : TrackInterpolation
  orient : Option Bool

structure BoardMarker where
  at_   : Rat
  label : Option String
  pause : Option Bool

abbrev Tracks := OrderedMap String BoardTrack

/-- What the timeline edits of a `BoardAnimation`. -/
structure TimelineAnimation where
  duration : Rat
  markers  : List BoardMarker
  tracks   : Tracks

structure BoardSpan where
  start : Rat
  end_  : Rat
  deriving DecidableEq

structure BoardTimelinePlacement where
  at_      : Rat
  duration : Option Rat
  from_    : Option Rat
  rate     : Option Rat

/-- Sampling a track (`sampleTrack`), cutting an easing (`splitEase`), and the
    id of a new track (`createBoardEntityId`). -/
structure TrackCurves where
  sampleTrack : BoardDocument → BoardTrack → Rat → Json
  splitEase   : Option String → Rat → Option String × Option String
  entityId    : Tracks → String

/-- `BOARD_SPAN_DEFAULT_MS`. -/
def boardSpanDefaultMs : Rat := 3000

/-- `BOARD_SPAN_MIN_MS`. -/
def boardSpanMinMs : Rat := 40

/-- `VISIBLE`. -/
def visibleProperty : String := "visible"

/-! ## Targets and spans -/

def findBoardKeyTrack (tracks : Tracks) (target property : String) : Option (String × BoardTrack) :=
  tracks.entries.find? fun e =>
    e.2.target = target && e.2.property = property && e.2.composite = .replace

/-- `document.items[target]`. -/
def documentItem (document : BoardDocument) (target : String) : Option Json :=
  readMember (document.items.get? target) target

def targetType (document : BoardDocument) (target : String) : Option String :=
  if target = boardCameraTarget then some boardCameraTarget
  else if (documentAnimation document target).isSome then some "animation"
  else if (document.board.get? "scripts").any fun scripts =>
      (readMember (scripts.get? target) target).isSome then some "script"
  else (documentItem document target).bind itemType

def boardPlayProperty (document : BoardDocument) (target : String) : Option String :=
  match targetType document target with
  | some "video" | some "audio" => some "props.time"
  | some "animation" => some "time"
  | _ => none

/-- `item.props.snapshot?.durationMs || null`. -/
def mediaDuration (item : Json) : Option Rat :=
  ((((item.get? "props").bind fun props => props.get? "snapshot").bind fun snapshot =>
    snapshot.get? "durationMs").bind Json.asNum?).filter fun ms => ms != 0

def boardPlayLength (document : BoardDocument) (target : String) : Option Rat :=
  match documentItem document target with
  | some item =>
      if itemType item = some "video" ∨ itemType item = some "audio" then mediaDuration item
      else (documentAnimation document target).bind fun header =>
        (header.get? "duration").bind Json.asNum?
  | none => (documentAnimation document target).bind fun header =>
      (header.get? "duration").bind Json.asNum?

/-- The loop of `visibleSpan`: the start, the last time it was shown, and the
    end. -/
def visibleSteps (keyframes : List BoardKeyframe) : Option Rat × Rat × Option Rat :=
  keyframes.foldl
    (fun acc keyframe =>
      if keyframe.value ≠ .bool false then (acc.1 <|> some keyframe.at_, keyframe.at_, none)
      else if acc.1.isSome ∧ acc.2.2.isNone then (acc.1, acc.2.1, some keyframe.at_)
      else acc)
    (none, -1, none)

def visibleSpan (track : BoardTrack) (duration : Rat) : Option BoardSpan :=
  let steps := visibleSteps track.keyframes
  steps.1.map fun start => { start := start, end_ := steps.2.2.getD (maximum duration steps.2.1) }

def boardClipSpan (visible play : Option BoardTrack) (duration : Rat) : Option BoardSpan :=
  match visible with
  | some track => visibleSpan track duration
  | none =>
      match play.bind fun p => p.keyframes.head?, play.bind fun p => p.keyframes.getLast? with
      | some first, some last =>
          if first.at_ < last.at_ then some { start := first.at_, end_ := last.at_ } else none
      | _, _ => none

def playTrack (document : BoardDocument) (tracks : Tracks) (target : String) :
    Option (String × BoardTrack) :=
  (boardPlayProperty document target).bind fun property => findBoardKeyTrack tracks target property

def boardTargetSpan (document : BoardDocument) (animation : TimelineAnimation) (target : String) :
    Option BoardSpan :=
  boardClipSpan ((findBoardKeyTrack animation.tracks target visibleProperty).map Prod.snd)
    ((playTrack document animation.tracks target).map Prod.snd) animation.duration

/-! ## Keyframes -/

def visibleAt (at_ : Rat) (shown : Bool) : BoardKeyframe :=
  { at_ := at_, value := .bool shown, ease := none }

def visibleKeyframes (start end_ : Rat) : List BoardKeyframe :=
  if end_ ≤ start then [visibleAt 0 false]
  else
    (if 0 < start then [visibleAt 0 false] else []) ++
      [visibleAt start true, visibleAt end_ false]

/-- `a === b`, for values: two objects are never the same. -/
def sameValue (a b : Json) : Bool :=
  match a with
  | .arr _ | .obj _ => false
  | _ => decide (a = b)

/-- A round of `normalizeVisible`: a later keyframe of the same time replaces
    the earlier one, and one that changes nothing is left out. -/
def normalizeStep (result : List BoardKeyframe) (keyframe : BoardKeyframe) : List BoardKeyframe :=
  let rest :=
    if result.getLast?.any fun previous => previous.at_ = keyframe.at_ then result.dropLast
    else result
  if rest.getLast?.any fun previous => sameValue previous.value keyframe.value then rest
  else rest ++ [keyframe]

/-- By time, and in the given order at one time. -/
def sortKeyframes (keyframes : List BoardKeyframe) : List BoardKeyframe :=
  keyframes.insertionSort fun a b => a.at_ ≤ b.at_

def normalizeVisible (keyframes : List BoardKeyframe) : List BoardKeyframe :=
  let result := (sortKeyframes keyframes).foldl normalizeStep []
  match result.head? with
  | some first =>
      if first.value ≠ .bool false ∧ 0 < first.at_ then visibleAt 0 false :: result else result
  | none => result

def withDuration (animation : TimelineAnimation) (end_ : Rat) : TimelineAnimation :=
  if animation.duration < end_ then { animation with duration := ceil end_ } else animation

def shiftKeyframes (keyframes : List BoardKeyframe) (shift : Rat) : List BoardKeyframe :=
  keyframes.map fun keyframe => { keyframe with at_ := keyframe.at_ + shift }

def withoutAnchor (track : BoardTrack) : List BoardKeyframe :=
  match track.keyframes with
  | first :: second :: rest =>
      if track.property = visibleProperty ∧ first.at_ = 0 ∧ first.value = .bool false then
        second :: rest
      else track.keyframes
  | _ => track.keyframes

def slope (a b : Option BoardKeyframe) : Rat :=
  match a, b with
  | some a, some b =>
      if b.at_ ≤ a.at_ then 0
      else match a.value.asNum?, b.value.asNum? with
        | some from_, some to_ => (to_ - from_) / (b.at_ - a.at_)
        | _, _ => 0
  | _, _ => 0

/-- `keyframes.at(-2)`. -/
def secondLast (keyframes : List BoardKeyframe) : Option BoardKeyframe :=
  keyframes.dropLast.getLast?

def withEase (keyframe : BoardKeyframe) (ease : Option String) : BoardKeyframe :=
  { keyframe with ease := ease.filter fun e => e != "" && e != "linear" }

def newBoardTrackId (curves : TrackCurves) (tracks : Tracks) (target property : String) : String :=
  let id := target ++ "-" ++ property.replace "." "-"
  if id.length ≤ 160 ∧ tracks.has id = false then id else curves.entityId tracks

def setTrack (curves : TrackCurves) (tracks : Tracks) (target property : String)
    (keyframes : List BoardKeyframe) (interpolation : TrackInterpolation) : Tracks :=
  match findBoardKeyTrack tracks target property with
  | some existing => tracks.set existing.1 { existing.2 with keyframes := keyframes }
  | none => tracks.set (newBoardTrackId curves tracks target property)
      { target := target, property := property, keyframes := keyframes, composite := .replace
        interpolation := interpolation, orient := none }

section Edits

variable (curves : TrackCurves) (document : BoardDocument)

def playValue (track : BoardTrack) (time : Rat) : Rat :=
  match track.keyframes.head?, track.keyframes.getLast? with
  | some first, some last =>
      if time < first.at_ then
        maximum 0 (first.value.asNum?.getD 0 -
          slope (some first) track.keyframes[1]? * (first.at_ - time))
      else if last.at_ < time then
        maximum 0 (last.value.asNum?.getD 0 +
          slope (secondLast track.keyframes) (some last) * (time - last.at_))
      else (curves.sampleTrack document track time).asNum?.getD 0
  | _, _ => 0

def cutTrack (track : BoardTrack) (time : Rat) : List BoardKeyframe × List BoardKeyframe :=
  let keyframes := track.keyframes
  let before := keyframes.filter fun keyframe => keyframe.at_ ≤ time
  let after := keyframes.filter fun keyframe => time ≤ keyframe.at_
  -- the keyframes around the cut, where it falls between two
  match keyframes.findIdx? fun keyframe => time ≤ keyframe.at_ with
  | none => (before, after)
  | some index =>
      match if index = 0 then none else keyframes[index - 1]?, keyframes[index]? with
      | some a, some b =>
          if b.at_ = time then (before, after)
          else
            let value := curves.sampleTrack document track time
            let eases :=
              if track.interpolation = .step then (b.ease, b.ease)
              else curves.splitEase b.ease ((time - a.at_) / (b.at_ - a.at_))
            (before ++ [withEase { at_ := time, value := value, ease := none } eases.1],
              { at_ := time, value := value, ease := none } :: withEase b eases.2 :: after.drop 1)
      | _, _ => (before, after)

/-! ## Clips -/

/-- The least of some times; none where there is none. -/
def earliestOf (times : List (Option Rat)) : Option Rat :=
  times.foldl
    (fun least time =>
      match least, time with
      | some a, some b => some (minimum a b)
      | some a, none => some a
      | none, b => b)
    none

def shiftBody (track : BoardTrack) (shift : Rat) : List BoardKeyframe :=
  let body := withoutAnchor track
  if (body.head?.elim 0 BoardKeyframe.at_) < -shift then
    -- what would move below zero is cut off
    let after := (cutTrack curves document { track with keyframes := body } (-shift)).2
    if after.isEmpty then (body.getLast?.map fun last => { last with at_ := -shift }).toList
    else after
  else body

def shiftTrack (track : BoardTrack) (shift : Rat) : BoardTrack :=
  let moved := shiftKeyframes (shiftBody curves document track shift) shift
  { track with
    keyframes := if track.property = visibleProperty then normalizeVisible moved else moved }

def boardShiftTargets (animation : TimelineAnimation) (targets : List String) (delta : Rat) :
    TimelineAnimation :=
  let owned := animation.tracks.entries.filter fun e => targets.contains e.2.target
  let spans := targets.map (boardTargetSpan document animation)
  let keyed := earliestOf (owned.map fun e => (withoutAnchor e.2).head?.map BoardKeyframe.at_)
  match earliestOf (spans.map fun span => (span.map BoardSpan.start) <|> keyed) with
  | none => animation
  | some earliest =>
      let shift := Number.round (maximum delta (-earliest))
      if shift = 0 then animation
      else
        let spansEnd := spans.foldl
          (fun end_ span => maximum end_ (span.elim 0 fun s => s.end_ + shift)) 0
        let moved := owned.map fun e => (e.1, shiftTrack curves document e.2 shift)
        let end_ :=
          if spans.any Option.isSome then spansEnd
          else moved.foldl
            (fun end_ e => maximum end_ (e.2.keyframes.getLast?.elim 0 BoardKeyframe.at_)) spansEnd
        withDuration { animation with tracks := animation.tracks.setAll moved } end_

def boardPlaceTarget (animation : TimelineAnimation) (target : String)
    (placement : BoardTimelinePlacement) : TimelineAnimation :=
  let at_ := maximum 0 (Number.round placement.at_)
  match boardTargetSpan document animation target with
  | some existing => boardShiftTargets curves document animation [target] (at_ - existing.start)
  | none =>
      let rate := (placement.rate.filter (0 < ·)).getD 1
      let from_ := maximum 0 (placement.from_.getD 0)
      let remaining := ((boardPlayLength document target).filter (from_ < ·)).map fun length =>
        (length - from_) / rate
      let duration := maximum boardSpanMinMs
        (Number.round ((placement.duration <|> remaining).getD boardSpanDefaultMs))
      let shown :=
        if (documentItem document target).isSome then
          setTrack curves animation.tracks target visibleProperty
            (visibleKeyframes at_ (at_ + duration)) .step
        else animation.tracks
      let tracks := match boardPlayProperty document target with
        | some property => setTrack curves shown target property
            [{ at_ := at_, value := .num from_, ease := none },
              { at_ := at_ + duration, value := .num (from_ + duration * rate), ease := none }]
            .auto
        | none => shown
      withDuration { animation with tracks := tracks } (at_ + duration)

inductive SpanEdge where
  | start | end_
  deriving DecidableEq

def BoardSpan.edge (span : BoardSpan) : SpanEdge → Rat
  | .start => span.start
  | .end_ => span.end_

/-- `boardTrimLimits`; no end is an infinite one. -/
def boardTrimLimits (animation : TimelineAnimation) (target : String) : Rat × Option Rat :=
  match playTrack document animation.tracks target with
  | none => (0, none)
  | some play =>
      match play.2.keyframes.head?, play.2.keyframes.getLast? with
      | some first, some last =>
          let head := slope (some first) play.2.keyframes[1]?
          let tail := slope (secondLast play.2.keyframes) (some last)
          let start := match first.value.asNum? with
            | some value => if 0 < head then first.at_ - value / head else 0
            | none => 0
          let end_ := match boardPlayLength document target, last.value.asNum? with
            | some length, some value =>
                if 0 < tail then some (last.at_ + (length - value) / tail) else none
            | _, _ => none
          (maximum 0 (ceil start), end_.map fun e => maximum last.at_ (floor e))
      | _, _ => (0, none)

/-- The time a trim moves an edge to. -/
def trimTime (animation : TimelineAnimation) (target : String) (span : BoardSpan) (edge : SpanEdge)
    (at_ : Rat) : Rat :=
  let limits := boardTrimLimits document animation target
  match edge with
  | .start => Number.round (minimum (maximum at_ limits.1) (span.end_ - boardSpanMinMs))
  | .end_ => Number.round (maximum (limits.2.elim at_ (minimum at_)) (span.start + boardSpanMinMs))

/-- The keyframes that a trim leaves of the track that plays the target. -/
def trimPlay (track : BoardTrack) (edge : SpanEdge) (time : Rat) : List BoardKeyframe :=
  match track.keyframes.head?, track.keyframes.getLast? with
  | some first, some last =>
      if first.at_ < time ∧ time < last.at_ then
        match edge with
        | .start => (cutTrack curves document track time).2
        | .end_ => (cutTrack curves document track time).1
      else
        let cut : BoardKeyframe :=
          { at_ := time, value := .num (playValue curves document track time), ease := none }
        match edge with
        | .start => cut :: track.keyframes.filter fun keyframe => time < keyframe.at_
        | .end_ => (track.keyframes.filter fun keyframe => keyframe.at_ < time) ++ [cut]
  | _, _ => track.keyframes

def BoardSpan.withEdge (span : BoardSpan) (time : Rat) : SpanEdge → BoardSpan
  | .start => { start := time, end_ := span.end_ }
  | .end_ => { start := span.start, end_ := time }

/-- The tracks of a trim, `next` being the new span of the clip. -/
def trimTracks (animation : TimelineAnimation) (target : String) (edge : SpanEdge) (time : Rat)
    (next : BoardSpan) : Tracks :=
  let shown :=
    if (findBoardKeyTrack animation.tracks target visibleProperty).isSome then
      setTrack curves animation.tracks target visibleProperty
        (visibleKeyframes next.start next.end_) .step
    else animation.tracks
  match playTrack document shown target with
  | some play => shown.set play.1
      { play.2 with keyframes := trimPlay curves document play.2 edge time }
  | none => shown

def boardTrimTarget (animation : TimelineAnimation) (target : String) (edge : SpanEdge)
    (at_ : Rat) : TimelineAnimation :=
  match boardTargetSpan document animation target with
  | none => animation
  | some span =>
      let time := trimTime document animation target span edge at_
      if time = span.edge edge then animation
      else
        let next := span.withEdge time edge
        let tracks := trimTracks curves document animation target edge time next
        withDuration { animation with tracks := tracks } next.end_

/-- The two parts of a track that a split cuts. -/
def splitTrack (animation : TimelineAnimation) (track : BoardTrack) (time : Rat) :
    List BoardKeyframe × List BoardKeyframe :=
  let own :=
    if track.property = visibleProperty then boardTargetSpan document animation track.target
    else none
  match own with
  | some span =>
      (visibleKeyframes span.start (minimum span.end_ time),
        visibleKeyframes (maximum span.start time) span.end_)
  | none =>
      let next := (track.keyframes.findIdx? fun keyframe => time ≤ keyframe.at_).getD
        track.keyframes.length
      (track.keyframes.take (next + 2), track.keyframes.drop (next - 2))

/-- A round of `boardSplitTarget`: the track keeps the first part, and the copy
    of its target gets the second. -/
def splitRound (animation : TimelineAnimation) (copies : OrderedMap String String) (time : Rat)
    (tracks : Tracks) (e : String × BoardTrack) : Tracks :=
  -- a target with no copy, or an empty one, stays
  match (copies.get? e.2.target).filter (· != "") with
  | none => tracks
  | some copy =>
      let parts := splitTrack document animation e.2 time
      let first := tracks.set e.1 { e.2 with keyframes := parts.1 }
      first.set (newBoardTrackId curves first copy e.2.property)
        { e.2 with target := copy, keyframes := parts.2 }

/-- `boardSplitTarget`; none where there is nothing to split. -/
def boardSplitTarget (animation : TimelineAnimation) (target : String)
    (copies : OrderedMap String String) (at_ : Rat) : Option TimelineAnimation :=
  let time := Number.round at_
  match boardTargetSpan document animation target with
  | none => none
  | some span =>
      if time < span.start + boardSpanMinMs ∨ span.end_ - boardSpanMinMs < time then none
      else
        let cut := animation.tracks.entries.foldl
          (splitRound curves document animation copies time) animation.tracks
        let copy := (copies.get? target).getD ""
        let tracks :=
          if (documentItem document target).isSome ∧
              (findBoardKeyTrack animation.tracks target visibleProperty).isNone then
            setTrack curves
              (setTrack curves cut target visibleProperty (visibleKeyframes span.start time) .step)
              copy visibleProperty (visibleKeyframes time span.end_) .step
          else cut
        some { animation with tracks := tracks }

def boardRemoveTarget (animation : TimelineAnimation) (target : String) : TimelineAnimation :=
  { animation with tracks := animation.tracks.filter fun _ track => track.target ≠ target }

/-! ## Time -/

/-- A track with new keyframes; none where a track is left without. -/
def retimeTrack (keyframes : BoardTrack → List BoardKeyframe) (track : BoardTrack) :
    Option BoardTrack :=
  if track.property = visibleProperty then
    let next := normalizeVisible (keyframes track)
    some { track with keyframes := if next.isEmpty then [visibleAt 0 false] else next }
  else if (keyframes track).isEmpty then none
  else some { track with keyframes := keyframes track }

def retime (animation : TimelineAnimation) (keyframes : BoardTrack → List BoardKeyframe)
    (markers : List BoardMarker) (duration : Rat) : TimelineAnimation :=
  { duration := maximum 1 (Number.round duration)
    markers := markers
    tracks := OrderedMap.ofList (animation.tracks.entries.filterMap fun e =>
      (retimeTrack keyframes e.2).map fun track => (e.1, track)) }

def join (before after : List BoardKeyframe) : List BoardKeyframe :=
  match before.getLast?, after with
  | some last, first :: rest =>
      if first.at_ ≠ last.at_ then before ++ first :: rest
      else if first.value = last.value ∨
          rest.head?.any fun second => second.at_ ≤ first.at_ + 1 then
        before ++ rest
      else before ++ { first with at_ := first.at_ + 1 } :: rest
  | _, _ => before ++ after

/-- The keyframes of a track without the time between two cuts. -/
def removedKeyframes (start end_ : Rat) (track : BoardTrack) : List BoardKeyframe :=
  let before := (cutTrack curves document track start).1
  let after := shiftKeyframes (cutTrack curves document track end_).2 (-(end_ - start))
  if track.property = visibleProperty then before ++ after else join before after

/-- The markers without the time between two cuts. -/
def removedMarkers (start end_ : Rat) (markers : List BoardMarker) : List BoardMarker :=
  (markers.filter fun marker => marker.at_ ≤ start ∨ end_ ≤ marker.at_).map fun marker =>
    if end_ ≤ marker.at_ then { marker with at_ := marker.at_ - (end_ - start) } else marker

def boardRemoveTime (animation : TimelineAnimation) (from_ to_ : Rat) : TimelineAnimation :=
  let start := maximum 0 (Number.round (minimum from_ to_))
  let end_ := Number.round (maximum from_ to_)
  if end_ - start ≤ 0 then animation
  else retime animation (removedKeyframes curves document start end_)
    (removedMarkers start end_ animation.markers)
    (animation.duration - (minimum end_ animation.duration - minimum start animation.duration))

def insertedKeyframes (time gap : Rat) (track : BoardTrack) : List BoardKeyframe :=
  let body := withoutAnchor track
  let anchor := track.keyframes.take (track.keyframes.length - body.length)
  if time ≤ body.head?.elim 0 BoardKeyframe.at_ then anchor ++ shiftKeyframes body gap
  else
    let cut := cutTrack curves document track time
    if cut.2.any fun keyframe => time < keyframe.at_ then cut.1 ++ shiftKeyframes cut.2 gap
    else cut.1

def boardInsertTime (animation : TimelineAnimation) (at_ length : Rat) : TimelineAnimation :=
  let time := maximum 0 (Number.round at_)
  let gap := Number.round length
  if gap ≤ 0 then animation
  else retime animation (insertedKeyframes curves document time gap)
    (animation.markers.map fun marker =>
      if time < marker.at_ then { marker with at_ := marker.at_ + gap } else marker)
    (if time < animation.duration then animation.duration + gap else animation.duration)

/-! ## Edits -/

inductive TimelineEdit where
  | place (target : String) (placement : BoardTimelinePlacement)
  | shift (targets : List String) (delta : Rat)
  | trim (target : String) (edge : SpanEdge) (at_ : Rat)
  | split (target : String) (copies : OrderedMap String String) (at_ : Rat)
  | removeTarget (target : String)
  | insertTime (at_ length : Rat)
  | removeTime (from_ to_ : Rat)

/-- The animation after an edit; a split with nothing to split changes none. -/
def applyEdit (animation : TimelineAnimation) : TimelineEdit → TimelineAnimation
  | .place target placement => boardPlaceTarget curves document animation target placement
  | .shift targets delta => boardShiftTargets curves document animation targets delta
  | .trim target edge at_ => boardTrimTarget curves document animation target edge at_
  | .split target copies at_ => (boardSplitTarget curves document animation target copies at_).getD
      animation
  | .removeTarget target => boardRemoveTarget animation target
  | .insertTime at_ length => boardInsertTime curves document animation at_ length
  | .removeTime from_ to_ => boardRemoveTime curves document animation from_ to_

end Edits

end Cohub.Timeline
