import Cohub.Lib.Json

/-! # The compaction that bounds a context

    The messages of a context (`packages/protocol/src/runtime/context.ts`):
    the compaction that bounds them, and what is selected.

    A compaction has the order of its time, or else that of its place in the
    list.  Section 2 says which compaction of a list wins when the places count
    from another message, or count compactions only: the selection ranks a
    whole history, a reader ranks candidates and then what it has loaded. -/

namespace Cohub.Context

open List

/-! ## Messages -/

/-- `ContentBlock`: the members of the object. -/
abbrev ContentBlock := Fields

inductive Role where
  | user
  | assistant
  | system
  deriving DecidableEq

/-- The members of `message.meta` that a reader fills.  A missing member is
    `undefined`, and a time is in milliseconds. -/
structure MessageMeta where
  agentSessionEntryId : Option Json := none
  messageKind : Option Json := none
  compaction : Option Json := none
  nativeApi : Option Json := none
  generationTaskId : Option Json := none
  generationStatus : Option Json := none
  command : Option Json := none
  llmContextText : Option Json := none
  createdAt : Option Int := none
  deriving DecidableEq

/-- `RuntimeContextMessage`. -/
structure Message where
  id : String
  turnId : String
  role : Role
  content : List ContentBlock
  provider : Option String := none
  model : Option String := none
  usage : Option Json := none
  stopReason : Option String := none
  errorMessage : Option String := none
  metadata : Option MessageMeta := none
  deriving DecidableEq

/-- `block.type === "system_note" && block.note_type === "compacted"`. -/
def isCompactedNote (block : ContentBlock) : Bool :=
  block.get? "type" = some (.str "system_note") ∧ block.get? "note_type" = some (.str "compacted")

def isCompaction (message : Message) : Bool :=
  message.role = .system ∧ message.content.any isCompactedNote

/-- A member that `??` takes: there, and not `null`. -/
def present : Option Json → Option Json
  | some .null => none
  | value => value

section

variable (dateParse : Json → Option Int)

/-- `Date.parse(compaction?.compactedAt ?? String(message.meta?.createdAt ?? ""))`,
    if that is finite.  `dateParse` is `Date.parse` on a stored value. -/
def timeOf (message : Message) : Option Int :=
  let compaction := message.metadata.bind MessageMeta.compaction
  match present (compaction.bind fun value => value.get? "compactedAt") with
  | some compactedAt => dateParse compactedAt
  | none => message.metadata.bind MessageMeta.createdAt

/-- The loop of `findLatestCompactionIndex`. -/
def latestFrom : List Message → Nat → Int → Option Nat → Option Nat
  | [], _, _, boundary => boundary
  | message :: rest, index, latest, boundary =>
      if isCompaction message = false then latestFrom rest (index + 1) latest boundary
      else
        let order : Int := (timeOf dateParse message).getD index
        if latest ≤ order then latestFrom rest (index + 1) order (some index)
        else latestFrom rest (index + 1) latest boundary

/-- `none` is the index -1. -/
def findLatestCompactionIndex (messages : List Message) : Option Nat :=
  latestFrom dateParse messages 0 (-1) none

def selectRuntimeContextMessages (messages : List Message) : List Message :=
  match findLatestCompactionIndex dateParse messages with
  | none => messages
  | some boundary =>
      match messages[boundary]? with
      | none => messages
      | some compaction =>
          compaction :: (messages.drop (boundary + 1)).filter fun message => !isCompaction message

/-! ## Which compaction wins -/

/-- The order of the message at a place that counts as `number`, if it is a
    compaction. -/
def orderAt (messages : List Message) (number : Nat → Nat) (place : Nat) : Option Int :=
  (messages[place]?).bind fun message =>
    if isCompaction message then some ((timeOf dateParse message).getD (number place)) else none

/-- The last of the highest order, among the compactions from `first` on. -/
structure Wins (messages : List Message) (number : Nat → Nat) (first place : Nat) : Prop where
  from_first : first ≤ place
  highest    : ∃ order, orderAt dateParse messages number place = some order ∧ -1 ≤ order ∧
    ∀ other order', first ≤ other → orderAt dateParse messages number other = some order' →
      order' < order ∨ order' = order ∧ other ≤ place

variable {dateParse} {messages : List Message} {number : Nat → Nat} {first place : Nat}

theorem orderAt_append_left {other : List Message} (h : place < messages.length) :
    orderAt dateParse (messages ++ other) number place = orderAt dateParse messages number place := by
  unfold orderAt
  rw [getElem?_append_left h]

theorem orderAt_of_le (h : messages.length ≤ place) :
    orderAt dateParse messages number place = none := by
  unfold orderAt
  rw [getElem?_eq_none h]
  rfl

variable {order latest : Int} {boundary : Option Nat} {message : Message}

theorem lt_of_orderAt (h : orderAt dateParse messages number place = some order) :
    place < messages.length := by
  by_contra hle
  rw [orderAt_of_le (not_lt.mp hle)] at h
  cases h

theorem orderAt_snoc (message : Message) :
    orderAt dateParse (messages ++ [message]) number messages.length =
      if isCompaction message then some ((timeOf dateParse message).getD (number messages.length))
      else none := by
  unfold orderAt
  rw [getElem?_append_right (le_refl _), Nat.sub_self]
  rfl

/-- What the loop has found after a part of the list. -/
def Found (dateParse : Json → Option Int) (messages : List Message) (latest : Int) :
    Option Nat → Prop
  | none => latest = -1 ∧ ∀ other order,
      orderAt dateParse messages id other = some order → order < -1
  | some place => Wins dateParse messages id 0 place ∧
      orderAt dateParse messages id place = some latest

theorem Found.skip (h : Found dateParse messages latest boundary)
    (hnone : orderAt dateParse (messages ++ [message]) id messages.length = none ∨
      ∃ order, orderAt dateParse (messages ++ [message]) id messages.length = some order ∧
        order < latest) :
    Found dateParse (messages ++ [message]) latest boundary := by
  have hother : ∀ other order, orderAt dateParse (messages ++ [message]) id other = some order →
      orderAt dateParse messages id other = some order ∨ order < latest := by
    intro other order horder
    have hlt := lt_of_orderAt horder
    rw [length_append, length_singleton] at hlt
    rcases Nat.lt_succ_iff_lt_or_eq.mp hlt with hlt | rfl
    · rw [orderAt_append_left hlt] at horder
      exact .inl horder
    · rcases hnone with hnone | ⟨order', horder', hless⟩
      · rw [horder] at hnone
        cases hnone
      · rw [horder] at horder'
        injection horder' with heq
        exact .inr (heq ▸ hless)
  cases boundary with
  | none =>
    refine ⟨h.1, ?_⟩
    intro other order horder
    rcases hother other order horder with hold | hnew
    · exact h.2 other order hold
    · exact h.1 ▸ hnew
  | some place =>
    obtain ⟨hwins, hlatest⟩ := h
    obtain ⟨order, horder, hmin, hhighest⟩ := hwins.highest
    rw [hlatest] at horder
    injection horder with horder
    subst horder
    have hplace := lt_of_orderAt hlatest
    have hlatest' : orderAt dateParse (messages ++ [message]) id place = some latest := by
      rw [orderAt_append_left hplace]
      exact hlatest
    refine ⟨⟨hwins.from_first, latest, hlatest', hmin, ?_⟩, hlatest'⟩
    intro other order' hfirst horder'
    rcases hother other order' horder' with hold | hnew
    · exact hhighest other order' hfirst hold
    · exact .inl hnew

theorem Found.take (h : Found dateParse messages latest boundary)
    (horder : orderAt dateParse (messages ++ [message]) id messages.length = some order)
    (hle : latest ≤ order) :
    Found dateParse (messages ++ [message]) order (some messages.length) := by
  have hmin : -1 ≤ latest := by
    cases boundary with
    | none => exact h.1.ge
    | some place =>
      obtain ⟨hwins, hlatest⟩ := h
      obtain ⟨order', horder', hmin, _⟩ := hwins.highest
      rw [hlatest] at horder'
      injection horder' with heq
      rw [heq]
      exact hmin
  refine ⟨⟨Nat.zero_le _, order, horder, hmin.trans hle, ?_⟩, horder⟩
  intro other order' _ horder'
  have hlt := lt_of_orderAt horder'
  rw [length_append, length_singleton] at hlt
  rcases Nat.lt_succ_iff_lt_or_eq.mp hlt with hlt | rfl
  · rw [orderAt_append_left hlt] at horder'
    cases boundary with
    | none =>
      have hless := h.2 other order' horder'
      exact .inl (hless.trans_le (hmin.trans hle))
    | some place =>
      obtain ⟨hwins, hlatest⟩ := h
      obtain ⟨order'', horder'', _, hhighest⟩ := hwins.highest
      rw [hlatest] at horder''
      injection horder'' with heq
      have hother := hhighest other order' (Nat.zero_le _) horder'
      omega
  · rw [horder] at horder'
    injection horder' with heq
    exact .inr ⟨heq.symm, le_refl _⟩

theorem latestFrom_found (rest : List Message) (h : Found dateParse messages latest boundary) :
    ∃ latest', Found dateParse (messages ++ rest) latest'
      (latestFrom dateParse rest messages.length latest boundary) := by
  induction rest generalizing messages latest boundary with
  | nil =>
    rw [append_nil]
    exact ⟨latest, h⟩
  | cons message rest ih =>
    have hsnoc : orderAt dateParse (messages ++ [message]) id messages.length =
        if isCompaction message then some ((timeOf dateParse message).getD (id messages.length))
        else none := orderAt_snoc message
    have hnext : messages ++ message :: rest = (messages ++ [message]) ++ rest := by simp
    have hlength : messages.length + 1 = (messages ++ [message]).length := by simp
    unfold latestFrom
    rw [hnext, hlength]
    split
    · next hkind =>
      rw [hkind] at hsnoc
      exact ih (h.skip (.inl hsnoc))
    · next hkind =>
      rw [if_pos (Bool.not_eq_false _ ▸ hkind)] at hsnoc
      simp only
      split
      · next hle => exact ih (h.take hsnoc hle)
      · next hless => exact ih (h.skip (.inr ⟨_, hsnoc, not_le.mp hless⟩))

/-- What the result of `findLatestCompactionIndex` says of a list. -/
def Boundary (dateParse : Json → Option Int) (messages : List Message) : Option Nat → Prop
  | none => ∀ other order, orderAt dateParse messages id other = some order → order < -1
  | some place => Wins dateParse messages id 0 place

theorem findLatestCompactionIndex_boundary (dateParse : Json → Option Int)
    (messages : List Message) :
    Boundary dateParse messages (findLatestCompactionIndex dateParse messages) := by
  have hempty : Found dateParse [] (-1) none := by
    refine ⟨rfl, ?_⟩
    intro other order h
    exact absurd (lt_of_orderAt h) (Nat.not_lt_zero _)
  obtain ⟨latest, hfound⟩ := latestFrom_found messages hempty
  rw [nil_append, length_nil] at hfound
  unfold findLatestCompactionIndex
  cases hindex : latestFrom dateParse messages 0 (-1) none with
  | none =>
    rw [hindex] at hfound
    exact hfound.2
  | some place =>
    rw [hindex] at hfound
    exact hfound.1

/-! ## A part of a history, and its compactions -/

theorem orderAt_drop (first place : Nat) :
    orderAt dateParse (messages.drop first) id place =
      orderAt dateParse messages (fun p => p - first) (first + place) := by
  have hnumber : (fun p => p - first) (first + place) = id place := Nat.add_sub_cancel_left _ _
  unfold orderAt
  rw [getElem?_drop, hnumber]

theorem wins_of_drop {first : Nat} (h : Wins dateParse (messages.drop first) id 0 place) :
    Wins dateParse messages (fun p => p - first) first (first + place) := by
  obtain ⟨order, horder, hmin, hhighest⟩ := h.highest
  rw [orderAt_drop] at horder
  refine ⟨Nat.le_add_right _ _, order, horder, hmin, ?_⟩
  intro other order' hfirst horder'
  have hother : first + (other - first) = other := by omega
  rw [← hother, ← orderAt_drop] at horder'
  have := hhighest (other - first) order' (Nat.zero_le _) horder'
  omega

/-- How many compactions there are before a place. -/
def compactionsBefore (messages : List Message) (place : Nat) : Nat :=
  (messages.take place).countP isCompaction

theorem compactionsBefore_le (messages : List Message) (place : Nat) :
    compactionsBefore messages place ≤ place :=
  countP_le_length.trans (length_take_le _ _)

variable {place' : Nat}

theorem compactionsBefore_mono (h : place ≤ place') :
    compactionsBefore messages place ≤ compactionsBefore messages place' := by
  unfold compactionsBefore
  exact (take_sublist_take_left h).countP_le

theorem compactionsBefore_lt
    (hmessage : messages[place]? = some message) (hkind : isCompaction message = true)
    (h : place < place') : compactionsBefore messages place < compactionsBefore messages place' := by
  have hnext : compactionsBefore messages (place + 1) = compactionsBefore messages place + 1 := by
    unfold compactionsBefore
    rw [take_add_one, hmessage, countP_append]
    simp [hkind]
  have hmono : compactionsBefore messages (place + 1) ≤ compactionsBefore messages place' :=
    compactionsBefore_mono h
  omega

theorem getElem?_filter_compactionsBefore
    (hmessage : messages[place]? = some message) (hkind : isCompaction message = true) :
    (messages.filter isCompaction)[compactionsBefore messages place]? = some message := by
  have hsplit := take_append_drop place messages
  have hdrop : messages.drop place = message :: messages.drop (place + 1) := by
    obtain ⟨hlt, hget⟩ := List.getElem?_eq_some_iff.mp hmessage
    rw [drop_eq_getElem_cons hlt, hget]
  rw [hdrop] at hsplit
  unfold compactionsBefore
  conv_lhs => rw [← hsplit, filter_append, filter_cons_of_pos hkind]
  rw [countP_eq_length_filter, getElem?_append_right (by rw [hsplit]), hsplit, Nat.sub_self]
  rfl

theorem exists_place_of_filter {number : Nat}
    (h : (messages.filter isCompaction)[number]? = some message) :
    ∃ place, messages[place]? = some message ∧ compactionsBefore messages place = number := by
  induction messages generalizing number with
  | nil => cases h
  | cons head rest ih =>
    by_cases hhead : isCompaction head = true
    · rw [filter_cons_of_pos hhead] at h
      cases number with
      | zero => exact ⟨0, h, rfl⟩
      | succ number =>
        rw [getElem?_cons_succ] at h
        obtain ⟨place, hplace, hcount⟩ := ih h
        refine ⟨place + 1, hplace, ?_⟩
        unfold compactionsBefore at hcount ⊢
        rw [take_succ_cons, countP_cons_of_pos hhead, hcount]
    · rw [filter_cons_of_neg hhead] at h
      obtain ⟨place, hplace, hcount⟩ := ih h
      refine ⟨place + 1, hplace, ?_⟩
      unfold compactionsBefore at hcount ⊢
      rw [take_succ_cons, countP_cons_of_neg hhead, hcount]

theorem orderAt_eq_some (h : orderAt dateParse messages number place = some order) :
    ∃ message, messages[place]? = some message ∧ isCompaction message = true ∧
      (timeOf dateParse message).getD (number place) = order := by
  unfold orderAt at h
  rw [Option.bind_eq_some_iff] at h
  obtain ⟨message, hmessage, horder⟩ := h
  split at horder
  · next hkind =>
    injection horder with horder
    exact ⟨message, hmessage, hkind, horder⟩
  · cases horder

theorem orderAt_of_compaction (hmessage : messages[place]? = some message)
    (hkind : isCompaction message = true) :
    orderAt dateParse messages number place =
      some ((timeOf dateParse message).getD (number place)) := by
  unfold orderAt
  rw [hmessage, Option.bind_some, if_pos hkind]

theorem orderAt_filter
    (h : orderAt dateParse messages (compactionsBefore messages) place = some order) :
    orderAt dateParse (messages.filter isCompaction) id (compactionsBefore messages place) =
      some order := by
  obtain ⟨message, hmessage, hkind, horder⟩ := orderAt_eq_some h
  rw [orderAt_of_compaction (getElem?_filter_compactionsBefore hmessage hkind) hkind]
  exact congrArg some horder

theorem wins_of_filter {number : Nat}
    (h : Wins dateParse (messages.filter isCompaction) id 0 number) :
    ∃ place, compactionsBefore messages place = number ∧
      Wins dateParse messages (compactionsBefore messages) 0 place := by
  obtain ⟨order, horder, hmin, hhighest⟩ := h.highest
  obtain ⟨message, hmessage, hkind, hvalue⟩ := orderAt_eq_some horder
  obtain ⟨place, hplace, hnumber⟩ := exists_place_of_filter hmessage
  refine ⟨place, hnumber, Nat.zero_le _, order, ?_, hmin, ?_⟩
  · rw [orderAt_of_compaction hplace hkind, hnumber]
    exact congrArg some hvalue
  · intro other order' _ horder'
    rcases hhighest _ order' (Nat.zero_le _) (orderAt_filter horder') with hless | ⟨heq, hle⟩
    · exact .inl hless
    · refine Or.inr ⟨heq, ?_⟩
      by_contra hlater
      have hlt := compactionsBefore_lt hplace hkind (not_le.mp hlater)
      omega

/-! ## When the numberings agree -/

section

variable (dateParse messages)

def Timed (place : Nat) (time : Int) : Prop :=
  ∃ message, messages[place]? = some message ∧ isCompaction message = true ∧
    timeOf dateParse message = some time

/-- A compaction without a time. -/
def Untimed (place : Nat) : Prop :=
  ∃ message, messages[place]? = some message ∧ isCompaction message = true ∧
    timeOf dateParse message = none

def LastUntimed (place : Nat) : Prop :=
  Untimed dateParse messages place ∧ ∀ other, Untimed dateParse messages other → other ≤ place

/-- The last of the compactions with the latest time. -/
def LatestTimed (place : Nat) (time : Int) : Prop :=
  Timed dateParse messages place time ∧
    ∀ other time', Timed dateParse messages other time' →
      time' < time ∨ time' = time ∧ other ≤ place

end

/-- A compaction without a time that counts as `number` outranks one with a
    time. -/
def Outranks (number place : Nat) (time : Int) (timed : Nat) : Prop :=
  time < number ∨ time = number ∧ timed < place

/-- The last compaction without a time: it is outranked by the latest time in
    the whole list; or among the compactions alone, but not in the whole list
    and not where the latest time's turn starts; or nowhere. -/
def RanksAgree (dateParse : Json → Option Int) (messages : List Message) (turnStart : Nat → Nat) :
    Prop :=
  ∀ place, LastUntimed dateParse messages place →
    (∃ timed time, LatestTimed dateParse messages timed time ∧
      (¬ Outranks place place time timed ∨
        ¬ Outranks (compactionsBefore messages place) place time timed ∧
          turnStart timed ≤ place ∧ Outranks (place - turnStart timed) place time timed)) ∨
    (∀ timed time, Timed dateParse messages timed time →
      Outranks (compactionsBefore messages place) place time timed ∧
        (turnStart place ≤ timed → Outranks (place - turnStart place) place time timed))

variable {time : Int}

theorem Outranks.mono {number number' : Nat} {timed : Nat} (h : Outranks number place time timed)
    (hle : number ≤ number') : Outranks number' place time timed := by
  unfold Outranks at h ⊢
  omega

theorem Timed.orderAt (h : Timed dateParse messages place time) :
    orderAt dateParse messages number place = some time := by
  obtain ⟨message, hmessage, hkind, htime⟩ := h
  rw [orderAt_of_compaction hmessage hkind, htime]
  rfl

theorem Untimed.orderAt (h : Untimed dateParse messages place) :
    orderAt dateParse messages number place = some (number place : Int) := by
  obtain ⟨message, hmessage, hkind, htime⟩ := h
  rw [orderAt_of_compaction hmessage hkind, htime]
  rfl

theorem timed_or_untimed (h : orderAt dateParse messages number place = some order) :
    (∃ time, Timed dateParse messages place time) ∨ Untimed dateParse messages place := by
  obtain ⟨message, hmessage, hkind, _⟩ := orderAt_eq_some h
  cases htime : timeOf dateParse message with
  | none => exact .inr ⟨message, hmessage, hkind, htime⟩
  | some time => exact .inl ⟨time, message, hmessage, hkind, htime⟩

theorem Wins.timed_or_untimed (h : Wins dateParse messages number first place) :
    (∃ time, Timed dateParse messages place time) ∨ Untimed dateParse messages place := by
  obtain ⟨order, horder, _⟩ := h.highest
  exact Context.timed_or_untimed horder

theorem Untimed.not_timed (h : Untimed dateParse messages place) :
    ¬ Timed dateParse messages place time := by
  rintro ⟨message', hmessage', _, htime'⟩
  obtain ⟨message, hmessage, _, htime⟩ := h
  rw [hmessage] at hmessage'
  injection hmessage' with heq
  rw [← heq, htime] at htime'
  cases htime'

theorem Wins.of_timed (h : Wins dateParse messages number first place)
    (htimed : Timed dateParse messages place time) :
    (∀ other time', first ≤ other → Timed dateParse messages other time' →
      time' < time ∨ time' = time ∧ other ≤ place) ∧
    ∀ other, first ≤ other → Untimed dateParse messages other →
      ¬ Outranks (number other) other time place := by
  obtain ⟨order, horder, _, hhighest⟩ := h.highest
  rw [htimed.orderAt] at horder
  injection horder with horder
  subst horder
  refine ⟨fun other time' hfirst hother => hhighest other time' hfirst hother.orderAt, ?_⟩
  intro other hfirst hother houtranks
  have := hhighest other _ hfirst hother.orderAt
  unfold Outranks at houtranks
  omega

theorem Wins.of_untimed (h : Wins dateParse messages number first place)
    (hmono : ∀ p p', first ≤ p → p ≤ p' → number p ≤ number p')
    (huntimed : Untimed dateParse messages place) :
    (∀ other, first ≤ other → Untimed dateParse messages other → other ≤ place) ∧
    ∀ other time, first ≤ other → Timed dateParse messages other time →
      Outranks (number place) place time other := by
  obtain ⟨order, horder, _, hhighest⟩ := h.highest
  rw [huntimed.orderAt] at horder
  injection horder with horder
  subst horder
  refine ⟨?_, ?_⟩
  · intro other hfirst hother
    by_contra hlater
    have hle := hmono place other h.from_first (by omega)
    have := hhighest other _ hfirst hother.orderAt
    omega
  · intro other time hfirst hother
    have hne : other ≠ place := by
      rintro rfl
      exact huntimed.not_timed hother
    have := hhighest other _ hfirst hother.orderAt
    unfold Outranks
    omega

/-- The winner of the whole list, the winner among the compactions alone, and
    the winner from the start of that one's turn. -/
structure Winners (dateParse : Json → Option Int) (messages : List Message) (turnStart : Nat → Nat)
    (start whole loaded : Nat) : Prop where
  among  : Wins dateParse messages (compactionsBefore messages) 0 start
  before : turnStart start ≤ start
  inAll  : Wins dateParse messages id 0 whole
  inPart : Wins dateParse messages (fun p => p - turnStart start) (turnStart start) loaded

section

variable {turnStart : Nat → Nat} {start whole loaded : Nat}

theorem Winners.start_untimed (h : Winners dateParse messages turnStart start whole loaded)
    (hstart : Untimed dateParse messages start) :
    LastUntimed dateParse messages start ∧ whole = start := by
  obtain ⟨hlast, houtranks⟩ := h.among.of_untimed (fun _ _ _ => compactionsBefore_mono) hstart
  have hlast' : LastUntimed dateParse messages start :=
    ⟨hstart, fun other hother => hlast other (Nat.zero_le _) hother⟩
  refine ⟨hlast', ?_⟩
  rcases h.inAll.timed_or_untimed with ⟨time, htimed⟩ | huntimed
  · -- counting more, it outranks the more
    have hover := houtranks whole time (Nat.zero_le _) htimed
    exact absurd (hover.mono (compactionsBefore_le messages start))
      ((h.inAll.of_timed htimed).2 start (Nat.zero_le _) hstart)
  · have hwhole := (h.inAll.of_untimed (fun _ _ _ h => h) huntimed).1 start (Nat.zero_le _) hstart
    exact le_antisymm (hlast'.2 whole huntimed) hwhole

variable {time time' : Int}

theorem Winners.latest_of_start (h : Winners dateParse messages turnStart start whole loaded)
    (hstart : Timed dateParse messages start time) : LatestTimed dateParse messages start time :=
  ⟨hstart, fun other time' hother => (h.among.of_timed hstart).1 other time' (Nat.zero_le _) hother⟩

theorem LatestTimed.unique {place' : Nat} (h : LatestTimed dateParse messages place time)
    (h' : LatestTimed dateParse messages place' time') : place = place' ∧ time = time' := by
  have hle := h.2 place' time' h'.1
  have hle' := h'.2 place time h.1
  omega

section

variable (h : Winners dateParse messages turnStart start whole loaded)
  (hstart : Timed dateParse messages start time)
include h hstart

theorem Winners.loaded_timed
    (hloaded : Timed dateParse messages loaded time') : loaded = start := by
  have hle := (h.latest_of_start hstart).2 loaded time' hloaded
  have hle' := (h.inPart.of_timed hloaded).1 start time h.before hstart
  omega

theorem Winners.whole_timed (hwhole : Timed dateParse messages whole time') : whole = start := by
  have hle := (h.latest_of_start hstart).2 whole time' hwhole
  have hle' := (h.inAll.of_timed hwhole).1 start time (Nat.zero_le _) hstart
  omega

end

theorem sub_mono (k : Nat) : ∀ p p', k ≤ p → p ≤ p' → p - k ≤ p' - k := by
  intro p p' _ h
  omega

section

variable (h : Winners dateParse messages turnStart start whole loaded)
include h

theorem Winners.eq_of_kind
    (hkind : Untimed dateParse messages whole ↔ Untimed dateParse messages loaded) :
    loaded = whole := by
  rcases h.among.timed_or_untimed with ⟨time, hstart⟩ | hstart
  · rcases h.inAll.timed_or_untimed with ⟨time', hwhole⟩ | hwhole
    · rcases h.inPart.timed_or_untimed with ⟨time'', hloaded⟩ | hloaded
      · rw [h.loaded_timed hstart hloaded, h.whole_timed hstart hwhole]
      · exact absurd hwhole (hkind.mpr hloaded).not_timed
    · have hloaded := hkind.mp hwhole
      have hle := (h.inAll.of_untimed (fun _ _ _ h => h) hwhole).1 loaded (Nat.zero_le _) hloaded
      have hfrom := h.inPart.from_first
      have hle' := (h.inPart.of_untimed (sub_mono _) hloaded).1 whole (hfrom.trans hle) hwhole
      exact le_antisymm hle hle'
  · obtain ⟨hlast, hwhole⟩ := h.start_untimed hstart
    rw [hwhole] at hkind ⊢
    have hloaded := hkind.mp hstart
    have hle := hlast.2 loaded hloaded
    have hle' := (h.inPart.of_untimed (sub_mono _) hloaded).1 start h.before hstart
    exact le_antisymm hle hle'

theorem Winners.ranksAgree (heq : loaded = whole) : RanksAgree dateParse messages turnStart := by
  intro place hplace
  rcases h.among.timed_or_untimed with ⟨time, hstart⟩ | hstart
  · refine Or.inl ⟨start, time, h.latest_of_start hstart, ?_⟩
    have hunder := (h.among.of_timed hstart).2 place (Nat.zero_le _) hplace.1
    rcases h.inAll.timed_or_untimed with ⟨time', hwhole⟩ | hwhole
    · have hsame := h.whole_timed hstart hwhole
      subst hsame
      exact .inl ((h.inAll.of_timed hstart).2 place (Nat.zero_le _) hplace.1)
    · have hle := hplace.2 whole hwhole
      have hle' := (h.inAll.of_untimed (fun _ _ _ h => h) hwhole).1 place (Nat.zero_le _) hplace.1
      have hsame : loaded = place := heq.trans (le_antisymm hle hle')
      subst hsame
      refine Or.inr ⟨hunder, h.inPart.from_first, ?_⟩
      exact (h.inPart.of_untimed (sub_mono _) hplace.1).2 start time h.before hstart
  · obtain ⟨hlast, hwhole⟩ := h.start_untimed hstart
    have hsame : place = start := le_antisymm (hlast.2 place hplace.1) (hplace.2 start hstart)
    subst hsame
    refine Or.inr fun timed time htimed => ⟨?_, ?_⟩
    · exact (h.among.of_untimed (fun _ _ _ => compactionsBefore_mono) hstart).2 timed time
        (Nat.zero_le _) htimed
    · intro hfrom
      rw [hwhole] at heq
      have hloaded := h.inPart
      rw [heq] at hloaded
      exact (hloaded.of_untimed (sub_mono _) hstart).2 timed time hfrom htimed

theorem Winners.eq_of_ranksAgree
    (hagree : RanksAgree dateParse messages turnStart) : loaded = whole := by
  apply h.eq_of_kind
  rcases h.among.timed_or_untimed with ⟨time, hstart⟩ | hstart
  · rcases h.inAll.timed_or_untimed with ⟨time', hwhole⟩ | hwhole
    · have hsame := h.whole_timed hstart hwhole
      refine iff_of_false (fun huntimed => huntimed.not_timed hwhole) ?_
      intro hloaded
      -- what outranks the start in the part does so in the whole
      have hover := (h.inPart.of_untimed (sub_mono _) hloaded).2 start time h.before hstart
      rw [hsame] at hwhole
      have hwins := h.inAll
      rw [hsame] at hwins
      exact (hwins.of_timed hstart).2 loaded (Nat.zero_le _) hloaded
        (hover.mono (Nat.sub_le _ _))
    · refine iff_of_true hwhole ?_
      obtain ⟨hlast, hover⟩ := h.inAll.of_untimed (fun _ _ _ h => h) hwhole
      have hplace : LastUntimed dateParse messages whole :=
        ⟨hwhole, fun other hother => hlast other (Nat.zero_le _) hother⟩
      rcases hagree whole hplace with ⟨timed, time', hlatest, hcase⟩ | hall
      · obtain ⟨rfl, rfl⟩ := hlatest.unique (h.latest_of_start hstart)
        rcases hcase with hunder | ⟨_, hfrom, hpart⟩
        · exact absurd (hover timed time' (Nat.zero_le _) hstart) hunder
        · rcases h.inPart.timed_or_untimed with ⟨time'', hloaded⟩ | hloaded
          · have hsame := h.loaded_timed hstart hloaded
            have hwins := h.inPart
            rw [hsame] at hwins
            exact absurd hpart ((hwins.of_timed hstart).2 whole hfrom hwhole)
          · exact hloaded
      · exact absurd (hall start time hstart).1
          ((h.among.of_timed hstart).2 whole (Nat.zero_le _) hwhole)
  · obtain ⟨hlast, hwhole⟩ := h.start_untimed hstart
    rw [hwhole]
    refine iff_of_true hstart ?_
    rcases h.inPart.timed_or_untimed with ⟨time, hloaded⟩ | hloaded
    · have hunder := (h.inPart.of_timed hloaded).2 start h.before hstart
      rcases hagree start hlast with ⟨timed, time', hlatest, hcase⟩ | hall
      · have hover := (h.among.of_untimed (fun _ _ _ => compactionsBefore_mono) hstart).2 timed time'
          (Nat.zero_le _) hlatest.1
        rcases hcase with hwhole' | ⟨hcount, _⟩
        · exact absurd (hover.mono (compactionsBefore_le messages start)) hwhole'
        · exact absurd hover hcount
      · exact absurd ((hall loaded time hloaded).2 h.inPart.from_first) hunder
    · exact hloaded

end

end

end

end Cohub.Context
