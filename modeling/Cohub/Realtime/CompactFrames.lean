import Mathlib.Data.Nat.Digits.Defs
import Cohub.Lib.Mealy
import Cohub.Realtime.Types

/-! # Compact patch frames on a websocket connection

    `apps/gateway/src/index.ts` sends most patches of a stream as a compact
    frame: an alias, the sequence numbers and one operation.  The client
    (`packages/sdk/src/websocket.ts`) fills in the session, turn, message,
    ordinal and anchor from the last whole frame it saw under that alias.

    The gateway keeps a table from stream keys to aliases, the client a table
    from aliases to contexts.  They are two halves of one table, from stream
    keys to the identity announced last (`announce` below): a compact frame
    decodes to the patch it was built from exactly when that table has the
    patch's own identity for its stream.

    The tables are not dropped in step.  A persisted message makes the client
    forget every stream of the message's turn, while the gateway deletes the
    alias filed under the turn id, and the alias of a stream with a message is
    filed under `turn:message`. -/

namespace Cohub.Realtime

open List OrderedMap

/-! ## The gateway's side -/

/-- What the gateway keeps for one connection. -/
structure WsConnectionContext where
  capabilities           : List String
  compactStreamAliases   : OrderedMap String String
  nextCompactStreamAlias : Nat

/-- `WS_COMPACT_STREAM_CAPABILITY`. -/
def wsCompactStreamCapability : String := "session.compact_stream.v1"

/-- A realtime envelope as far as the two tables look at it.  `messagePersisted`
    carries `message.meta.turnId` when that is a string. -/
inductive RealtimeEnvelope where
  | patch (p : SessionTurnPatch)
  | messagePersisted (turnId : Option String)
  | other

/-- `RealtimeCompactFrame`: `d` is a compacted append, `p` names its operation
    and path. -/
inductive RealtimeCompactFrame where
  | d (sid : String) (s b : Int) (v : Json)
  | p (sid : String) (s b : Int) (o p : String) (v : Option Json)

/-- One websocket message.  A whole patch carries the alias in `_rt.sid` when
    the connection may later receive compact frames. -/
inductive WireFrame where
  | compact (frame : RealtimeCompactFrame)
  | patch (rtSid : Option String) (p : SessionTurnPatch)
  | messagePersisted (turnId : Option String)
  | other

/-- `isNonNegativeInteger`, for a number that is an integer. -/
def isNonNegativeInteger (n : Int) : Bool := 0 ≤ n

def getPatchStreamId : RealtimeEnvelope → Option String
  | .patch p => getSessionTurnPatchStreamKey p
  | _ => none

def getPersistedTurnId : RealtimeEnvelope → Option String
  | .messagePersisted turnId => getNonEmptyString turnId
  | _ => none

/-- `buildCompactFrame`: only a later patch with a single append is compact. -/
def buildCompactFrame (p : SessionTurnPatch) (sid : String) : Option RealtimeCompactFrame :=
  if !isNonNegativeInteger p.seq || !isNonNegativeInteger p.baseSeq then none
  else if p.baseSeq = 0 then none
  else match p.ops with
    | [.value v] => some (.d sid p.seq p.baseSeq v)
    | [.append path v] => some (.p sid p.seq p.baseSeq "append" path (some v))
    | _ => none

/-- The digits of `Number.prototype.toString(36)`. -/
def digit36 (d : Nat) : Char :=
  if d < 10 then Char.ofNat (48 + d) else Char.ofNat (87 + d)

/-- `n.toString(36)` for a positive `n`. -/
def toString36 (n : Nat) : String := String.ofList ((Nat.digits 36 n).reverse.map digit36)

def getOrCreateCompactStreamAlias (ctx : WsConnectionContext) (streamId : String) :
    String × WsConnectionContext :=
  match ctx.compactStreamAliases.get? streamId with
  | some existing => (existing, ctx)
  | none =>
      let next := ctx.nextCompactStreamAlias + 1
      (toString36 next,
        { ctx with nextCompactStreamAlias := next
                   compactStreamAliases := ctx.compactStreamAliases.set streamId (toString36 next) })

def rememberRealtimeEnvelopeForConnection (ctx : WsConnectionContext)
    (envelope : RealtimeEnvelope) : WsConnectionContext :=
  match getPatchStreamId envelope with
  | some patchStreamId => (getOrCreateCompactStreamAlias ctx patchStreamId).2
  | none =>
      match getPersistedTurnId envelope with
      | some persistedTurnId =>
          { ctx with compactStreamAliases := ctx.compactStreamAliases.delete persistedTurnId }
      | none => ctx

/-- `canUseCompact` of `sendWsRealtime`, for an envelope with a stream id. -/
def canUseCompact (ctx : WsConnectionContext) : Bool :=
  wsCompactStreamCapability ∈ ctx.capabilities

/-- The compact frame `sendWsRealtime` sends for a patch, if it sends one: the
    connection takes compact frames, its stream has an alias, and the patch
    has the compact form. -/
def compactFrameFor (ctx : WsConnectionContext) (p : SessionTurnPatch) :
    Option RealtimeCompactFrame :=
  if canUseCompact ctx then
    (getSessionTurnPatchStreamKey p).bind fun streamId =>
      (ctx.compactStreamAliases.get? streamId).bind fun existingSid =>
        buildCompactFrame p existingSid
  else none

/-- The whole frame of an envelope, and the context after announcing an alias. -/
def wholeFrameFor (ctx : WsConnectionContext) :
    RealtimeEnvelope → WireFrame × WsConnectionContext
  | .patch p =>
      match getSessionTurnPatchStreamKey p with
      | some streamId =>
          if canUseCompact ctx then
            let created := getOrCreateCompactStreamAlias ctx streamId
            (.patch (some created.1) p, created.2)
          else (.patch none p, ctx)
      | none => (.patch none p, ctx)
  | .messagePersisted turnId => (.messagePersisted turnId, ctx)
  | .other => (.other, ctx)

def sendWsRealtime (ctx : WsConnectionContext) (envelope : RealtimeEnvelope) :
    WireFrame × WsConnectionContext :=
  let whole :=
    let sent := wholeFrameFor ctx envelope
    (sent.1, rememberRealtimeEnvelopeForConnection sent.2 envelope)
  match envelope with
  | .patch p =>
      match compactFrameFor ctx p with
      | some frame => (.compact frame, ctx)
      | none => whole
  | _ => whole

/-- `resetConnectionIdentity` and the capabilities of the new identity. -/
def authenticate (ctx : WsConnectionContext) (capabilities : List String) : WsConnectionContext :=
  { ctx with capabilities := capabilities, compactStreamAliases := OrderedMap.empty }

/-! ## The client's side -/

structure CompactStreamContext where
  spaceId : Option String
  sessionId : Option String
  turnId : Option String
  messageId : Option String
  messageOrdinal : Option Nat
  anchorUserMessageId : Option String
  deriving DecidableEq

/-- `compactStreamContexts`. -/
abbrev CompactStreamContexts := OrderedMap String CompactStreamContext

/-- The context a whole frame leaves behind. -/
def contextOf (p : SessionTurnPatch) : CompactStreamContext :=
  { spaceId := p.spaceId, sessionId := p.sessionId, turnId := p.turnId
    messageId := p.messageId, messageOrdinal := p.messageOrdinal
    anchorUserMessageId := p.anchorUserMessageId }

/-- The alias under which the client files a whole frame: `_rt.sid`, else the
    turn id, else the message id; an empty one is not filed. -/
def contextSid (rtSid : Option String) (p : SessionTurnPatch) : Option String :=
  (getNonEmptyString rtSid <|> p.turnId <|> p.messageId).filter fun sid => sid ≠ ""

/-- Drop what belongs to a persisted message's turn; an empty turn id names
    nothing. -/
def forgetTurn {κ : Type} [DecidableEq κ] {α : Type} (turnOf : α → Option String)
    (table : OrderedMap κ α) (turnId : Option String) : OrderedMap κ α :=
  match turnId with
  | some t => if t = "" then table else table.filter fun _ e => turnOf e ≠ some t
  | none => table

def rememberCompactStreamContext (contexts : CompactStreamContexts) :
    WireFrame → CompactStreamContexts
  | .patch rtSid p =>
      match contextSid rtSid p with
      | some sid => contexts.set sid (contextOf p)
      | none => contexts
  | .messagePersisted turnId => forgetTurn CompactStreamContext.turnId contexts turnId
  | _ => contexts

/-- `isRealtimeCompactFrame`, for a frame of the right shape. -/
def isRealtimeCompactFrame : RealtimeCompactFrame → Bool
  | .d sid s b _ => sid ≠ "" && 0 ≤ s && 0 ≤ b
  | .p sid s b o p _ =>
      sid ≠ "" && 0 ≤ s && 0 ≤ b
        && o ∈ ["append", "replace", "add", "merge", "remove"] && p ≠ ""

def compactFrameToPatchOperation : RealtimeCompactFrame → Option RealtimePatchOperation
  | .d _ _ _ v => some (.value v)
  | .p _ _ _ o p v =>
      if o = "remove" then some (.remove p)
      else match v with
        | none => none
        | some v =>
            if o = "merge" then if v.isRecord then some (.merge p v.fields) else none
            else if o = "append" then some (.append p v)
            else if o = "replace" then some (.replace p v)
            else if o = "add" then some (.add p v)
            else none

/-- The alias of a compact frame. -/
def RealtimeCompactFrame.sid : RealtimeCompactFrame → String
  | .d sid _ _ _ => sid
  | .p sid _ _ _ _ _ => sid

/-- The sequence number of a compact frame. -/
def RealtimeCompactFrame.seq : RealtimeCompactFrame → Int
  | .d _ s _ _ => s
  | .p _ s _ _ _ _ => s

/-- The base sequence number of a compact frame. -/
def RealtimeCompactFrame.baseSeq : RealtimeCompactFrame → Int
  | .d _ _ b _ => b
  | .p _ _ b _ _ _ => b

/-- What the client makes of one websocket message: a patch envelope, one of
    its two error reports, or another event. -/
inductive ClientEvent where
  | patch (p : SessionTurnPatch)
  | unknownStream (sid : String)
  | invalidFrame
  | other
  deriving DecidableEq

/-- The patch envelope `handleCompactFrame` builds. -/
def compactEnvelope (context : CompactStreamContext) (frame : RealtimeCompactFrame)
    (op : RealtimePatchOperation) : SessionTurnPatch :=
  { spaceId := context.spaceId, sessionId := context.sessionId, turnId := context.turnId
    messageId := context.messageId, messageOrdinal := context.messageOrdinal
    sourceMessageId := context.messageId, anchorUserMessageId := context.anchorUserMessageId
    seq := frame.seq, baseSeq := frame.baseSeq, ops := [op] }

/-- `handleCompactFrame`, up to handing the envelope on. -/
def handleCompactFrame (contexts : CompactStreamContexts) (frame : RealtimeCompactFrame) :
    ClientEvent :=
  match contexts.get? frame.sid with
  | none => .unknownStream frame.sid
  | some context =>
      if context.sessionId = none ∨ context.sessionId = some "" then .unknownStream frame.sid
      else match compactFrameToPatchOperation frame with
        | none => .invalidFrame
        | some op => .patch (compactEnvelope context frame op)

/-- `handleMessage`, as far as the two tables are concerned. -/
def handleMessage (contexts : CompactStreamContexts) (frame : WireFrame) :
    CompactStreamContexts × ClientEvent :=
  match frame with
  | .compact compact =>
      if isRealtimeCompactFrame compact then (contexts, handleCompactFrame contexts compact)
      else (contexts, .invalidFrame)
  | .patch _ p => (rememberCompactStreamContext contexts frame, .patch p)
  | _ => (rememberCompactStreamContext contexts frame, .other)

/-! ## The connection -/

/-- Both ends of a connection; frames arrive in the order they are sent. -/
structure Connection where
  gateway : WsConnectionContext
  client  : CompactStreamContexts

/-- What happens to a connection: the gateway sends an envelope, or the
    connection adopts an identity with its capabilities. -/
inductive ConnectionAction where
  | send (envelope : RealtimeEnvelope)
  | auth (capabilities : List String)

/-- One action, with what the client makes of the frame it is sent. -/
def connectionStep (c : Connection) : ConnectionAction → Connection × List ClientEvent
  | .send envelope =>
      let sent := sendWsRealtime c.gateway envelope
      let received := handleMessage c.client sent.1
      ({ gateway := sent.2, client := received.1 }, [received.2])
  | .auth capabilities => ({ c with gateway := authenticate c.gateway capabilities }, [])

def connection : Mealy Connection ConnectionAction ClientEvent := ⟨connectionStep⟩

/-- A connection that was just opened. -/
def freshConnection : Connection :=
  { gateway := { capabilities := [], compactStreamAliases := OrderedMap.empty
                 nextCompactStreamAlias := 0 }
    client := OrderedMap.empty }

def connectionAfter (actions : List ConnectionAction) : Connection :=
  (connection.run freshConnection actions).1

/-- What the client makes of a patch sent after `past`. -/
def decoded (past : List ConnectionAction) (p : SessionTurnPatch) : ClientEvent :=
  let c := connectionAfter past
  (handleMessage c.client (sendWsRealtime c.gateway (.patch p)).1).2

/-! ## Aliases

    Aliases are base-36 numerals: never blank, and different for different
    counter values. -/

theorem digit36_not_trimmed : ∀ d < 36, Text.isWhiteSpace (digit36 d) = false := by decide

theorem digit36_injOn : ∀ d < 36, ∀ e < 36, digit36 d = digit36 e → d = e := by decide

theorem map_digit36_injective : ∀ {xs ys : List Nat}, (∀ d ∈ xs, d < 36) → (∀ d ∈ ys, d < 36) →
    xs.map digit36 = ys.map digit36 → xs = ys
  | [], [], _, _, _ => rfl
  | [], _ :: _, _, _, h => by simp at h
  | _ :: _, [], _, _, h => by simp at h
  | x :: xs, y :: ys, hx, hy, h => by
      obtain ⟨hhead, htail⟩ := List.cons.inj h
      have hxy : x = y :=
        digit36_injOn x (hx x mem_cons_self) y (hy y mem_cons_self) hhead
      have hrest : xs = ys :=
        map_digit36_injective (fun d hd => hx d (mem_cons_of_mem _ hd))
          (fun d hd => hy d (mem_cons_of_mem _ hd)) htail
      rw [hxy, hrest]

variable {n : Nat}

theorem toString36_injective {m : Nat} (h : toString36 m = toString36 n) : m = n := by
  have hmap := String.ofList_injective h
  rw [← Nat.digits_inj_iff (b := 36)]
  have hrev : (Nat.digits 36 m).reverse = (Nat.digits 36 n).reverse := by
    refine map_digit36_injective ?_ ?_ hmap
    all_goals
      intro d hd
      exact Nat.digits_lt_base (by omega) (mem_reverse.mp hd)
  exact reverse_injective hrev

theorem isBlank_toString36 (h : n ≠ 0) : isBlank (toString36 n) = false := by
  have hne : Nat.digits 36 n ≠ [] := Nat.digits_ne_nil_iff_ne_zero.mpr h
  obtain ⟨d, hd⟩ := exists_mem_of_ne_nil _ hne
  have hlt : d < 36 := Nat.digits_lt_base (by omega) hd
  unfold isBlank toString36
  rw [String.toList_ofList, all_eq_false]
  refine ⟨digit36 d, ?_, by simp [digit36_not_trimmed d hlt]⟩
  exact mem_map_of_mem (mem_reverse.mpr hd)

theorem ne_empty_of_not_blank {s : String} (h : isBlank s = false) : s ≠ "" := by
  rintro rfl
  exact absurd h (by decide)

/-! ## The announcement table

    The table the two sides would have to share: for each stream the context
    of its last whole frame, forgotten with the turn. -/

/-- What a patch says about itself besides its numbers and operations. -/
structure PatchIdentity where
  sessionId : Option String
  turnId : Option String
  messageId : Option String
  messageOrdinal : Option Nat
  anchorUserMessageId : Option String
  deriving DecidableEq

def CompactStreamContext.identity (c : CompactStreamContext) : PatchIdentity :=
  { sessionId := c.sessionId, turnId := c.turnId, messageId := c.messageId
    messageOrdinal := c.messageOrdinal, anchorUserMessageId := c.anchorUserMessageId }

def SessionTurnPatch.identity (p : SessionTurnPatch) : PatchIdentity := (contextOf p).identity

/-- The table after one action; `g` is the gateway before it. -/
def announce (g : WsConnectionContext) (table : CompactStreamContexts) :
    ConnectionAction → CompactStreamContexts
  | .send (.patch p) =>
      match getSessionTurnPatchStreamKey p with
      | some streamId =>
          if canUseCompact g && (compactFrameFor g p).isNone then
            table.set streamId (contextOf p)
          else table
      | none => table
  | .send (.messagePersisted turnId) => forgetTurn CompactStreamContext.turnId table turnId
  | .send .other => table
  | .auth _ => OrderedMap.empty

/-- The table after a list of actions that starts at `c` with `table`. -/
def announcedFrom (c : Connection) (table : CompactStreamContexts) :
    List ConnectionAction → CompactStreamContexts
  | [] => table
  | a :: rest => announcedFrom (connectionStep c a).1 (announce c.gateway table a) rest

/-- The table after a list of actions on a fresh connection. -/
def announced (past : List ConnectionAction) : CompactStreamContexts :=
  announcedFrom freshConnection OrderedMap.empty past

/-- Aliases are numerals already counted, and no two streams share one. -/
structure AliasesFresh (g : WsConnectionContext) : Prop where
  counted   : ∀ k a, g.compactStreamAliases.get? k = some a →
    ∃ n, n ≠ 0 ∧ n ≤ g.nextCompactStreamAlias ∧ a = toString36 n
  injective : ∀ k k' a, g.compactStreamAliases.get? k = some a →
    g.compactStreamAliases.get? k' = some a → k = k'

/-- The client holds, under a stream's alias, what was announced for the
    stream, as long as the connection takes compact frames. -/
structure Mirrors (c : Connection) (table : CompactStreamContexts) : Prop where
  fresh  : AliasesFresh c.gateway
  mirror : canUseCompact c.gateway = true → ∀ k a,
    c.gateway.compactStreamAliases.get? k = some a → c.client.get? a = table.get? k

/-! ### What one action does -/

theorem getOrCreate_get? (g : WsConnectionContext) (k : String) :
    (getOrCreateCompactStreamAlias g k).2.compactStreamAliases.get? k =
      some (getOrCreateCompactStreamAlias g k).1 := by
  unfold getOrCreateCompactStreamAlias
  split
  · next a h => exact h
  · simp

variable {g : WsConnectionContext} {k a : String} {p : SessionTurnPatch}
    {frame : RealtimeCompactFrame}

theorem getOrCreate_of_get? (h : g.compactStreamAliases.get? k = some a) :
    getOrCreateCompactStreamAlias g k = (a, g) := by
  unfold getOrCreateCompactStreamAlias
  rw [h]

@[simp] theorem getOrCreate_capabilities (g : WsConnectionContext) (k : String) :
    (getOrCreateCompactStreamAlias g k).2.capabilities = g.capabilities := by
  unfold getOrCreateCompactStreamAlias
  split <;> rfl

theorem AliasesFresh.getOrCreate (h : AliasesFresh g) (k : String) :
    AliasesFresh (getOrCreateCompactStreamAlias g k).2 ∧
      ∀ k', k' ≠ k → (getOrCreateCompactStreamAlias g k).2.compactStreamAliases.get? k' =
        g.compactStreamAliases.get? k' := by
  unfold getOrCreateCompactStreamAlias
  cases hk : g.compactStreamAliases.get? k with
  | some a => exact ⟨h, fun _ _ => rfl⟩
  | none =>
    refine ⟨⟨?_, ?_⟩, fun k' hne => get?_set_ne _ _ hne⟩
    · intro k' a ha
      simp only [get?_set] at ha
      split at ha
      · exact ⟨g.nextCompactStreamAlias + 1, by omega, le_refl _, (Option.some.inj ha).symm⟩
      · obtain ⟨n, hn0, hn, rfl⟩ := h.counted k' a ha
        exact ⟨n, hn0, Nat.le_succ_of_le hn, rfl⟩
    · -- an old alias is a smaller numeral than the new one
      have hnew : ∀ k' a, g.compactStreamAliases.get? k' = some a →
          a ≠ toString36 (g.nextCompactStreamAlias + 1) := by
        intro k' a ha heq
        obtain ⟨n, _, hn, rfl⟩ := h.counted k' a ha
        have := toString36_injective heq
        omega
      intro k₁ k₂ a h₁ h₂
      simp only [get?_set] at h₁ h₂
      split at h₁ <;> split at h₂
      · next e₁ e₂ => rw [e₁, e₂]
      · exact absurd (Option.some.inj h₁).symm (hnew k₂ a h₂)
      · exact absurd (Option.some.inj h₂).symm (hnew k₁ a h₁)
      · exact h.injective k₁ k₂ a h₁ h₂

theorem AliasesFresh.delete (h : AliasesFresh g) (k : String) :
    AliasesFresh { g with compactStreamAliases := g.compactStreamAliases.delete k } := by
  have hold : ∀ k' a, (g.compactStreamAliases.delete k).get? k' = some a →
      g.compactStreamAliases.get? k' = some a := by
    intro k' a ha
    rw [get?_delete] at ha
    split at ha
    · cases ha
    · exact ha
  exact ⟨fun k' a ha => h.counted k' a (hold k' a ha),
    fun k₁ k₂ a h₁ h₂ => h.injective k₁ k₂ a (hold k₁ a h₁) (hold k₂ a h₂)⟩

theorem AliasesFresh.not_blank (h : AliasesFresh g)
    (ha : g.compactStreamAliases.get? k = some a) : isBlank a = false := by
  obtain ⟨n, hn0, _, rfl⟩ := h.counted k a ha
  exact isBlank_toString36 hn0

theorem get?_forgetTurn {κ : Type} [DecidableEq κ] {α : Type} (turnOf : α → Option String)
    (table : OrderedMap κ α) (turnId : Option String) (k : κ) :
    (forgetTurn turnOf table turnId).get? k =
      (table.get? k).filter fun e => turnId = none ∨ turnId = some "" ∨ turnOf e ≠ turnId := by
  unfold forgetTurn
  cases turnId with
  | none => cases table.get? k <;> simp [Option.filter_some]
  | some t =>
    by_cases ht : t = ""
    · simp only [ht, if_true]
      cases table.get? k <;> simp [Option.filter_some]
    · simp only [if_neg ht, get?_filter]
      cases table.get? k <;> simp [ht]

theorem get?_remember_of_no_stream (hkey : getSessionTurnPatchStreamKey p = none)
    (ha : isBlank a = false) (contexts : CompactStreamContexts) :
    (rememberCompactStreamContext contexts (.patch none p)).get? a = contexts.get? a := by
  obtain ⟨hturn, hmessage⟩ := no_ids_of_streamKey_none hkey
  simp only [rememberCompactStreamContext]
  cases hsid : contextSid none p with
  | none => rfl
  | some sid =>
    have hne : a ≠ sid := by
      rintro rfl
      unfold contextSid at hsid
      rw [Option.filter_eq_some_iff] at hsid
      have hid : p.turnId = some a ∨ p.messageId = some a := by
        cases ht : p.turnId with
        | none => exact .inr (by simpa [getNonEmptyString, ht] using hsid.1)
        | some t => exact .inl (by simpa [getNonEmptyString, ht] using hsid.1)
      rcases hid with hid | hid
      · rw [hid, getNonEmptyString_of_not_blank ha] at hturn; cases hturn
      · rw [hid, getNonEmptyString_of_not_blank ha] at hmessage; cases hmessage
    exact get?_set_ne _ _ hne

variable {c : Connection} {table : CompactStreamContexts} {past : List ConnectionAction}

theorem Mirrors.sendWhole (h : Mirrors c table) (hkey : getSessionTurnPatchStreamKey p = some k)
    (hcan : canUseCompact c.gateway = true) (hnone : compactFrameFor c.gateway p = none) :
    Mirrors (connectionStep c (.send (.patch p))).1 (table.set k (contextOf p)) := by
  set created := getOrCreateCompactStreamAlias c.gateway k with hcreated
  have hown : created.2.compactStreamAliases.get? k = some created.1 :=
    getOrCreate_get? c.gateway k
  obtain ⟨hfresh, hothers⟩ := h.fresh.getOrCreate k
  have hblank : isBlank created.1 = false := hfresh.not_blank hown
  have hsid : contextSid (some created.1) p = some created.1 := by
    unfold contextSid
    rw [getNonEmptyString_of_not_blank hblank]
    simp [ne_empty_of_not_blank hblank]
  have hstep : (connectionStep c (.send (.patch p))).1 =
      { gateway := created.2, client := c.client.set created.1 (contextOf p) } := by
    have hagain : getOrCreateCompactStreamAlias created.2 k = (created.1, created.2) :=
      getOrCreate_of_get? hown
    simp only [connectionStep, sendWsRealtime, hnone, wholeFrameFor, hkey, hcan, if_true,
      rememberRealtimeEnvelopeForConnection, getPatchStreamId, ← hcreated, hagain,
      handleMessage, rememberCompactStreamContext, hsid]
  rw [hstep]
  refine ⟨hfresh, ?_⟩
  intro _ k' a ha
  by_cases hk' : k' = k
  · subst hk'
    have haa : a = created.1 := Option.some.inj (ha.symm.trans hown)
    rw [haa, get?_set_self, get?_set_self]
  · -- another stream's alias is another string
    have hne : a ≠ created.1 := fun heq => hk' (hfresh.injective k' k a ha (heq ▸ hown))
    rw [get?_set_ne _ _ hne, get?_set_ne _ _ hk']
    exact h.mirror hcan k' a (by rw [← hothers k' hk']; exact ha)

theorem Mirrors.step {c : Connection} {table : CompactStreamContexts} (h : Mirrors c table)
    (a : ConnectionAction) : Mirrors (connectionStep c a).1 (announce c.gateway table a) := by
  cases a with
  | auth capabilities =>
    exact ⟨⟨by simp [connectionStep, authenticate], by simp [connectionStep, authenticate]⟩,
      by simp [connectionStep, authenticate]⟩
  | send envelope =>
    cases envelope with
    | other => exact h
    | messagePersisted turnId =>
      have hclient : (connectionStep c (.send (.messagePersisted turnId))).1.client =
          forgetTurn CompactStreamContext.turnId c.client turnId := rfl
      refine ⟨?_, ?_⟩
      · simp only [connectionStep, sendWsRealtime, wholeFrameFor,
          rememberRealtimeEnvelopeForConnection, getPatchStreamId]
        split
        · exact h.fresh.delete _
        · exact h.fresh
      · intro hcan k a ha
        have hcan' : canUseCompact c.gateway = true := by
          simp only [connectionStep, sendWsRealtime, wholeFrameFor,
            rememberRealtimeEnvelopeForConnection, getPatchStreamId] at hcan
          split at hcan <;> exact hcan
        have hold : c.gateway.compactStreamAliases.get? k = some a := by
          simp only [connectionStep, sendWsRealtime, wholeFrameFor,
            rememberRealtimeEnvelopeForConnection, getPatchStreamId] at ha
          split at ha
          · rw [get?_delete] at ha
            split at ha
            · cases ha
            · exact ha
          · exact ha
        rw [hclient, announce, get?_forgetTurn, get?_forgetTurn, h.mirror hcan' k a hold]
    | patch p =>
      cases hkey : getSessionTurnPatchStreamKey p with
      | none =>
        -- no stream: the gateway stays, the client files the frame under a blank id at most
        have hnone : compactFrameFor c.gateway p = none := by
          unfold compactFrameFor
          rw [hkey]
          split <;> rfl
        have hannounce : announce c.gateway table (.send (.patch p)) = table := by
          simp only [announce, hkey]
        rw [hannounce]
        have hstep : (connectionStep c (.send (.patch p))).1 =
            { gateway := c.gateway
              client := rememberCompactStreamContext c.client (.patch none p) } := by
          simp only [connectionStep, sendWsRealtime, hnone, wholeFrameFor, hkey,
            rememberRealtimeEnvelopeForConnection, getPatchStreamId, getPersistedTurnId,
            handleMessage]
        rw [hstep]
        refine ⟨h.fresh, ?_⟩
        intro hcan k a ha
        rw [get?_remember_of_no_stream hkey (h.fresh.not_blank ha)]
        exact h.mirror hcan k a ha
      | some k =>
        by_cases hcan : canUseCompact c.gateway = true
        · cases hframe : compactFrameFor c.gateway p with
          | some frame =>
            have hannounce : announce c.gateway table (.send (.patch p)) = table := by
              simp only [announce, hkey, hframe]
              simp
            have hstep : (connectionStep c (.send (.patch p))).1 = c := by
              simp only [connectionStep, sendWsRealtime, hframe, handleMessage]
              split <;> rfl
            rw [hannounce, hstep]
            exact h
          | none =>
            have hannounce : announce c.gateway table (.send (.patch p)) =
                table.set k (contextOf p) := by
              simp only [announce, hkey, hframe, hcan]
              simp
            rw [hannounce]
            exact h.sendWhole hkey hcan hframe
        · -- without the capability only the alias is remembered
          have hnone : compactFrameFor c.gateway p = none := by
            unfold compactFrameFor
            rw [if_neg hcan]
          have hgateway : (connectionStep c (.send (.patch p))).1.gateway =
              (getOrCreateCompactStreamAlias c.gateway k).2 := by
            simp only [connectionStep, sendWsRealtime, hnone, wholeFrameFor, hkey, if_neg hcan,
              rememberRealtimeEnvelopeForConnection, getPatchStreamId]
          refine ⟨?_, ?_⟩
          · rw [hgateway]; exact (h.fresh.getOrCreate k).1
          · intro hcan'
            rw [hgateway] at hcan'
            exact absurd (by simpa [canUseCompact] using hcan') (by simpa [canUseCompact] using hcan)

/-! ## When a run loses nothing -/

/-- The patch reaches the client with its own session, turn, message, ordinal,
    anchor, numbers and operations. -/
def Reconstructs (past : List ConnectionAction) (p : SessionTurnPatch) : Prop :=
  ∃ q, decoded past p = .patch q ∧ q.identity = p.identity ∧
    q.seq = p.seq ∧ q.baseSeq = p.baseSeq ∧ q.ops = p.ops

/-- The last whole frame of the patch's stream said what the patch says, its
    turn has not been persisted since, the session is named, and an append
    has a path. -/
structure AnnouncedAs (past : List ConnectionAction) (p : SessionTurnPatch) : Prop where
  stream  : ∃ k context, getSessionTurnPatchStreamKey p = some k ∧
    (announced past).get? k = some context ∧ context.identity = p.identity
  session : p.sessionId ≠ none ∧ p.sessionId ≠ some ""
  path    : ∀ v, p.ops ≠ [.append "" v]

theorem freshConnection_mirrors : Mirrors freshConnection OrderedMap.empty :=
  ⟨⟨by simp [freshConnection], by simp [freshConnection]⟩, by simp [freshConnection]⟩

theorem mirrors_run (h : Mirrors c table) :
    ∀ past, Mirrors (connection.run c past).1 (announcedFrom c table past) := by
  intro past
  induction past generalizing c table with
  | nil => exact h
  | cons a rest ih =>
    rw [Mealy.run_cons]
    exact ih (h.step a)

theorem mirrors_after (past : List ConnectionAction) :
    Mirrors (connectionAfter past) (announced past) :=
  mirrors_run freshConnection_mirrors past

theorem compactFrameFor_eq_some (h : compactFrameFor g p = some frame) :
    canUseCompact g = true ∧ ∃ k a, getSessionTurnPatchStreamKey p = some k ∧
      g.compactStreamAliases.get? k = some a ∧ buildCompactFrame p a = some frame := by
  unfold compactFrameFor at h
  split at h
  · next hcan =>
    obtain ⟨k, hk, h⟩ := Option.bind_eq_some_iff.mp h
    obtain ⟨a, ha, h⟩ := Option.bind_eq_some_iff.mp h
    exact ⟨hcan, k, a, hk, ha, h⟩
  · cases h

theorem buildCompactFrame_spec {sid : String} (h : buildCompactFrame p sid = some frame) :
    frame.sid = sid ∧ frame.seq = p.seq ∧ frame.baseSeq = p.baseSeq ∧
      (∃ op, compactFrameToPatchOperation frame = some op ∧ p.ops = [op]) ∧
      (isRealtimeCompactFrame frame = true ↔ sid ≠ "" ∧ ∀ v, p.ops ≠ [.append "" v]) := by
  unfold buildCompactFrame at h
  split at h
  · cases h
  · next hint =>
    have hnum : 0 ≤ p.seq ∧ 0 ≤ p.baseSeq := by
      simpa [isNonNegativeInteger] using hint
    split at h
    · cases h
    · split at h
      · next v hops =>
        cases h
        refine ⟨rfl, rfl, rfl, ⟨.value v, rfl, hops⟩, ?_⟩
        simp [isRealtimeCompactFrame, hnum, hops]
      · next path v hops =>
        cases h
        refine ⟨rfl, rfl, rfl, ⟨.append path v, rfl, hops⟩, ?_⟩
        simp [isRealtimeCompactFrame, hnum, hops]
      · cases h

theorem reconstructs_of_whole
    (h : compactFrameFor (connectionAfter past).gateway p = none) : Reconstructs past p := by
  refine ⟨p, ?_, rfl, rfl, rfl, rfl⟩
  simp only [decoded, sendWsRealtime, h, wholeFrameFor]
  split
  · split <;> rfl
  · rfl

theorem reconstructs_iff_of_compact
    (h : compactFrameFor (connectionAfter past).gateway p = some frame) :
    Reconstructs past p ↔ AnnouncedAs past p := by
  obtain ⟨hcan, k, a, hkey, halias, hbuild⟩ := compactFrameFor_eq_some h
  obtain ⟨hsid, hseq, hbase, ⟨op, hop, hops⟩, hframe⟩ := buildCompactFrame_spec hbuild
  have hm := mirrors_after past
  have hclient : (connectionAfter past).client.get? a = (announced past).get? k :=
    hm.mirror hcan k a halias
  have hane : a ≠ "" := ne_empty_of_not_blank (hm.fresh.not_blank halias)
  have hdecoded : decoded past p =
      if isRealtimeCompactFrame frame then
        handleCompactFrame (connectionAfter past).client frame
      else .invalidFrame := by
    simp only [decoded, sendWsRealtime, h, handleMessage]
    split <;> rfl
  constructor
  · rintro ⟨q, hq, hid, -, -, -⟩
    rw [hdecoded] at hq
    split at hq
    · next hvalid =>
      unfold handleCompactFrame at hq
      rw [hsid, hclient, hop] at hq
      split at hq
      · cases hq
      · next context hget =>
        split at hq
        · cases hq
        · next hsession =>
          have hqdef := ClientEvent.patch.inj hq
          have hsame : context.identity = p.identity := by
            rw [← hid, ← hqdef]; rfl
          have hs : context.sessionId = p.sessionId := congrArg PatchIdentity.sessionId hsame
          rw [hs] at hsession
          exact ⟨⟨k, context, hkey, hget, hsame⟩, not_or.mp hsession, (hframe.mp hvalid).2⟩
    · cases hq
  · rintro ⟨⟨k', context, hkey', hget, hsame⟩, hsession, hpath⟩
    have hkk : k' = k := Option.some.inj (hkey'.symm.trans hkey)
    have hs : context.sessionId = p.sessionId := congrArg PatchIdentity.sessionId hsame
    refine ⟨compactEnvelope context frame op, ?_, hsame, hseq, hbase, hops.symm⟩
    rw [hdecoded, if_pos (hframe.mpr ⟨hane, hpath⟩)]
    unfold handleCompactFrame
    rw [hsid, hclient, ← hkk, hget, hop]
    simp only [hs, hsession.1, hsession.2, or_self, if_false]

/-- **Compact frames lose nothing, exactly as long as they were announced.**
    A run reconstructs every patch if and only if every patch that goes out
    compact was announced as it is. -/
theorem compact_frames_lossless_iff (actions : List ConnectionAction) :
    (∀ past p rest, actions = past ++ .send (.patch p) :: rest → Reconstructs past p) ↔
      ∀ past p rest, actions = past ++ .send (.patch p) :: rest →
        (compactFrameFor (connectionAfter past).gateway p).isSome = true → AnnouncedAs past p := by
  constructor
  · intro hall past p rest heq hsome
    obtain ⟨frame, hframe⟩ := Option.isSome_iff_exists.mp hsome
    exact (reconstructs_iff_of_compact hframe).mp (hall past p rest heq)
  · intro hall past p rest heq
    cases hframe : compactFrameFor (connectionAfter past).gateway p with
    | none => exact reconstructs_of_whole hframe
    | some frame =>
      exact (reconstructs_iff_of_compact hframe).mpr (hall past p rest heq (by rw [hframe]; rfl))

/-! ### A persisted message in the middle of a turn -/

/-- Message `m2` of turn `t`: the keyframe, or a later append. -/
def exampleStreamPatch (seq baseSeq : Int) : SessionTurnPatch :=
  { spaceId := some "space", sessionId := some "session", turnId := some "t"
    messageId := some "m2", messageOrdinal := some 1, sourceMessageId := none
    anchorUserMessageId := some "u", seq := seq, baseSeq := baseSeq
    ops := [.append "/message/content/blocks/0/text" (.str "hi")] }

/-- The keyframe of `m2`, then the record of the turn's previous message. -/
def examplePersistedMidTurn : List ConnectionAction :=
  [.auth [wsCompactStreamCapability], .send (.patch (exampleStreamPatch 1 0)),
    .send (.messagePersisted (some "t"))]

/-- The next append of `m2` goes out under an alias the client has forgotten. -/
theorem compact_frame_after_persisted_is_unknown :
    decoded examplePersistedMidTurn (exampleStreamPatch 2 1) = .unknownStream "1" ∧
      ¬ Reconstructs examplePersistedMidTurn (exampleStreamPatch 2 1) := by
  have hdecoded : decoded examplePersistedMidTurn (exampleStreamPatch 2 1) =
      .unknownStream "1" := by decide
  refine ⟨hdecoded, ?_⟩
  rintro ⟨q, hq, -⟩
  rw [hdecoded] at hq
  cases hq

end Cohub.Realtime
