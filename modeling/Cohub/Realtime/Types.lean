import Cohub.Lib.Json
import Cohub.Lib.Text

/-! # Realtime patches and their stream keys

    The part of `packages/protocol/src/realtime/types.ts` that the gateway,
    the SDK and the Agent share: patch operations, the payload of a
    `session.turn.patch` event, and the key under which patches belong to one
    stream.

    Sequence numbers are integers: `sendOutputSchema` lets nothing else out.
    A field typed `string | null` is an `Option String`. -/

namespace Cohub.Realtime

/-! ## Strings -/

/-- `value.trim()` is the empty string. -/
def isBlank (s : String) : Bool := s.toList.all Text.isWhiteSpace

/-- `getNonEmptyString`: the string itself, unless it is blank. -/
def getNonEmptyString (value : Option String) : Option String :=
  value.filter fun s => !isBlank s

theorem getNonEmptyString_of_not_blank {s : String} (h : isBlank s = false) :
    getNonEmptyString (some s) = some s := by
  simp [getNonEmptyString, h]

/-! ## Operations and payloads -/

/-- `RealtimePatchOperation`.  `value` is the compacted append, which carries
    neither an operation name nor a path. -/
inductive RealtimePatchOperation where
  | append  (p : String) (v : Json)
  | replace (p : String) (v : Json)
  | add     (p : String) (v : Json)
  | merge   (p : String) (v : Fields)
  | remove  (p : String)
  | value   (v : Json)
  deriving DecidableEq

/-- A `session.turn.patch` event: the envelope's space and session and the
    payload. -/
structure SessionTurnPatch where
  spaceId : Option String
  sessionId : Option String
  turnId : Option String
  messageId : Option String
  messageOrdinal : Option Nat
  sourceMessageId : Option String
  anchorUserMessageId : Option String
  seq : Int
  baseSeq : Int
  ops : List RealtimePatchOperation
  deriving DecidableEq

/-! ## Stream keys -/

/-- The part of the stream key that names the message. -/
def messageKey (p : SessionTurnPatch) : Option String :=
  getNonEmptyString p.messageId
    <|> getNonEmptyString p.sourceMessageId
    <|> getNonEmptyString p.anchorUserMessageId
    <|> p.messageOrdinal.map fun n => "ordinal:" ++ toString n

/-- `getSessionTurnPatchStreamKey`: patches with the same key form one stream.
    (`includeSessionFallback` would add `payload.sessionId`, which the payload
    of a patch does not have.) -/
def getSessionTurnPatchStreamKey (p : SessionTurnPatch) : Option String :=
  match getNonEmptyString p.turnId, messageKey p with
  | some turnId, some key => some (turnId ++ ":" ++ key)
  | none, some key => some key
  | some turnId, none => some turnId
  | none, none => none

theorem no_ids_of_streamKey_none {p : SessionTurnPatch}
    (h : getSessionTurnPatchStreamKey p = none) :
    getNonEmptyString p.turnId = none ∧ getNonEmptyString p.messageId = none := by
  unfold getSessionTurnPatchStreamKey at h
  split at h
  · cases h
  · cases h
  · cases h
  · next hturn hkey =>
    refine ⟨hturn, ?_⟩
    unfold messageKey at hkey
    cases hm : getNonEmptyString p.messageId with
    | none => rfl
    | some m => simp [hm] at hkey

end Cohub.Realtime
