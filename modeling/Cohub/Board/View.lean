import Cohub.Board.Parsing

/-! # What a board is

    A board seen from outside: which items, animations, tracks and scripts it
    has, without the order or the records they are kept in.  `WellFormed` says
    when everything a board refers to is there and of the right kind.

    `BoardDocument.view` and `Pending.view` are the views of a document and of
    a document with a patch's pending values; the delta of a patch leads from
    the one to the other (`view_applyBoardDelta`). -/

namespace Cohub.Board

open Option OrderedMap

/-! ## Views -/

/-- The lookups of a board; an animation is its header. -/
@[ext] structure BoardView where
  item      : String → Option Json
  animation : String → Option Json
  track     : String → String → Option Json
  script    : String → Bool

namespace BoardView

def parent (V : BoardView) (id : String) : Option String := (V.item id).bind itemParent

/-- `n` steps up from an id. -/
def climb (V : BoardView) : Nat → Option String → Option String
  | 0, cursor => cursor
  | n + 1, cursor => V.climb n (cursor.bind V.parent)

/-- `b` is the parent of `a`. -/
def IsParent (V : BoardView) (a b : String) : Prop := V.parent a = some b

/-- A time track of animation `a` drives animation `b`. -/
def Nests (V : BoardView) (a b : String) : Prop :=
  (V.animation a).isSome = true ∧ (V.animation b).isSome = true ∧
    ∃ t v, V.track a t = some v ∧ trackProperty v = "time" ∧ trackTarget v = b

/-- Something of this id is on the board, or it is the camera. -/
def HasTarget (V : BoardView) (id : String) : Prop :=
  id = boardCameraTarget ∨ (V.item id).isSome = true ∨ (V.animation id).isSome = true ∨
    V.script id = true

/-- A well-formed board. -/
structure WellFormed (V : BoardView) : Prop where
  /-- Items and animations have ids that `BoardIdSchema` accepts. -/
  legal : ∀ id, (V.item id).isSome = true ∨ (V.animation id).isSome = true → isBoardId id = true
  /-- Every parent exists and is a frame. -/
  parent : ∀ id item q, V.item id = some item → itemParent item = some q →
    ∃ frame, V.item q = some frame ∧ itemType frame = some "frame"
  /-- Nothing is inside itself. -/
  acyclic : ∀ id, ¬ Relation.TransGen V.IsParent id id
  /-- No item has more than 64 ancestors. -/
  depth : ∀ id, (V.item id).isSome = true → V.climb (maxParentDepth + 1) (some id) = none
  /-- Arrow ends are bound to other items that are no arrows. -/
  binding : ∀ id arrow b, V.item id = some arrow → b ∈ arrowBindings arrow →
    b ≠ id ∧ ∃ target, V.item b = some target ∧ itemType target ≠ some "arrow"
  /-- Every track drives something that exists. -/
  target : ∀ a t v, (V.animation a).isSome = true → V.track a t = some v →
    V.HasTarget (trackTarget v)
  /-- No animation drives itself, directly or not. -/
  nesting : ∀ a, ¬ Relation.TransGen V.Nests a a
  /-- No id is used twice. -/
  itemOrAnimation : ∀ id, ¬ ((V.item id).isSome = true ∧ (V.animation id).isSome = true)
  itemOrScript : ∀ id, ¬ ((V.item id).isSome = true ∧ V.script id = true)
  animationOrScript : ∀ id, ¬ ((V.animation id).isSome = true ∧ V.script id = true)

/-! ## Climbing -/

@[simp] theorem climb_none (V : BoardView) (n : Nat) : V.climb n none = none := by
  induction n with
  | zero => rfl
  | succ n ih => exact ih

theorem climb_succ (V : BoardView) (n : Nat) (cursor : Option String) :
    V.climb (n + 1) cursor = (V.climb n cursor).bind V.parent := by
  induction n generalizing cursor with
  | zero => rfl
  | succ n ih => exact ih (cursor.bind V.parent)

theorem climb_add (V : BoardView) (m n : Nat) (cursor : Option String) :
    V.climb (m + n) cursor = V.climb n (V.climb m cursor) := by
  induction m generalizing cursor with
  | zero => rw [zero_add]; rfl
  | succ m ih =>
    rw [Nat.succ_add]
    exact ih (cursor.bind V.parent)

variable {V : BoardView}

theorem climb_of_transGen {a b : String}
    (h : Relation.TransGen V.IsParent a b) : ∃ n, V.climb (n + 1) (some a) = some b := by
  induction h with
  | single hab => exact ⟨0, hab⟩
  | tail _ hbc ih =>
    obtain ⟨n, hn⟩ := ih
    refine ⟨n + 1, ?_⟩
    rw [climb_succ, hn]
    exact hbc

theorem acyclic_of_climb {id : String} {k : Nat}
    (h : V.climb k (some id) = none) : ¬ Relation.TransGen V.IsParent id id := by
  intro hcycle
  obtain ⟨n, hn⟩ := climb_of_transGen hcycle
  -- going round the cycle never ends
  have hround : ∀ m, V.climb (m * (n + 1)) (some id) = some id := by
    intro m
    induction m with
    | zero => rw [Nat.zero_mul]; rfl
    | succ m ih => rw [Nat.succ_mul, climb_add, ih, hn]
  have hend : V.climb (k * (n + 1)) (some id) = none := by
    have hsplit : k * (n + 1) = k + k * n := by rw [Nat.mul_succ, add_comm]
    rw [hsplit, climb_add, h, climb_none]
  rw [hround k] at hend
  cases hend

end BoardView

/-! ## Views of documents and of pending values -/

def BoardDocument.view (document : BoardDocument) : BoardView :=
  { item := document.items.get?
    animation := fun id => (document.animations.get? id).map BoardAnimation.header
    track := fun a t => (document.animations.get? a).bind fun animation => animation.tracks.get? t
    script := fun id =>
      (Fields.get? (((document.board.get? "scripts").map Json.fields).getD []) id).isSome }

def Pending.view (p : Pending) (document : BoardDocument) : BoardView :=
  { item := fun id => (p.items.get? id).getD (document.items.get? id)
    animation := fun id =>
      (p.animations.get? id).getD ((document.animations.get? id).map BoardAnimation.header)
    track := fun a t =>
      if ((p.animations.get? a).getD
          ((document.animations.get? a).map BoardAnimation.header)).isSome then
        (p.trackEntry a t).getD
          ((document.animations.get? a).bind fun animation => animation.tracks.get? t)
      else none
    script := p.script (createDocumentState document) }

/-- Pending values are objects, not something inherited. -/
structure Pending.Proper (p : Pending) : Prop where
  item : ∀ id v, p.items.get? id = some (some v) → v.isRecord = true
  track : ∀ a t v, p.trackEntry a t = some (some v) → v.isRecord = true

theorem get?_writeEntry {α : Type} (m : OrderedMap String α) (id k : String) (v : Option α) :
    (writeEntry m id v).get? k = if k = id then v else m.get? k := by
  cases v with
  | some w => exact get?_set m id k w
  | none => exact get?_delete m id k

theorem get?_writeHeaders (animations : OrderedMap String BoardAnimation)
    (headers : OrderedMap String (Option Json)) (id : String) :
    (headers.entries.foldl writeHeader animations).get? id =
      ((headers.get? id).map fun header => header.map fun h =>
        { header := h
          tracks := ((animations.get? id).map BoardAnimation.tracks).getD OrderedMap.empty }).getD
        (animations.get? id) := by
  have hstep : ∀ (acc : OrderedMap String BoardAnimation) (e : String × Option Json) (k : String),
      (writeHeader acc e).get? k =
        if k = e.1 then e.2.map fun h =>
          { header := h, tracks := ((acc.get? e.1).map BoardAnimation.tracks).getD OrderedMap.empty }
        else acc.get? k :=
    fun acc e k => get?_writeEntry acc e.1 k _
  exact get?_foldl_entries (f := fun _ header stored => header.map fun h =>
    { header := h, tracks := (stored.map BoardAnimation.tracks).getD OrderedMap.empty })
    hstep animations headers id

theorem get?_writeTracks (tracks : OrderedMap String Json) (delta : OrderedMap String (Option Json))
    (t : String) : (writeTracks tracks delta).get? t = (delta.get? t).getD (tracks.get? t) := by
  have h := get?_foldl_entries (f := fun _ value _ => value)
    (fun (acc : OrderedMap String Json) (e : String × Option Json) k =>
      get?_writeEntry acc e.1 k e.2) tracks delta t
  rw [map_id'] at h
  exact h

theorem get?_writeAllTracks (animations : OrderedMap String BoardAnimation)
    (tracks : OrderedMap String (OrderedMap String (Option Json))) (id : String) :
    (tracks.entries.foldl writeAnimationTracks animations).get? id =
      (animations.get? id).map fun animation =>
        { animation with tracks :=
            ((tracks.get? id).map (writeTracks animation.tracks)).getD animation.tracks } := by
  have hstep : ∀ (acc : OrderedMap String BoardAnimation)
      (e : String × OrderedMap String (Option Json)) (k : String),
      (writeAnimationTracks acc e).get? k =
        if k = e.1 then (acc.get? e.1).map fun animation =>
          { animation with tracks := writeTracks animation.tracks e.2 } else acc.get? k := by
    intro acc e k
    unfold writeAnimationTracks
    cases hget : acc.get? e.1 with
    | none =>
      by_cases hk : k = e.1
      · simp [hk, hget]
      · simp [hk]
    | some current => simp only [get?_set, map_some]
  rw [get?_foldl_entries (f := fun _ delta stored => stored.map
    fun (animation : BoardAnimation) =>
      { animation with tracks := writeTracks animation.tracks delta }) hstep]
  cases tracks.get? id <;> cases animations.get? id <;> rfl

variable {own : Option Json} {name : String} {p : Pending}

theorem readMember_eq_record {v : Json}
    (hv : v.isRecord = true) : readMember own name = some v ↔ own = some v := by
  cases own with
  | some w => rfl
  | none =>
    simp only [readMember]
    split
    · constructor
      · intro h
        cases h
        cases hv
      · intro h; cases h
    · simp

theorem eq_own_of_readMember_eq {value : Option Json}
    (hvalue : ∀ v, value = some v → v.isRecord = true) (h : readMember own name = value) :
    own = value := by
  cases value with
  | some v => exact (readMember_eq_record (hvalue v rfl)).mp h
  | none =>
    cases own with
    | none => rfl
    | some w => cases h

theorem getD_filter_changed {entry : Option (Option Json)}
    (hvalue : ∀ v, entry = some (some v) → v.isRecord = true) :
    (entry.filter fun value => readMember own name != value).getD own = entry.getD own := by
  cases entry with
  | none => rfl
  | some value =>
    by_cases hsame : readMember own name = value
    · have hown := eq_own_of_readMember_eq (fun v hv => hvalue v (by rw [hv])) hsame
      have hdrop : (readMember own name != value) = false := by simpa using hsame
      simp only [Option.filter, hdrop]
      exact hown
    · have hkeep : (readMember own name != value) = true := by simpa using hsame
      simp only [Option.filter, hkeep]
      rfl

variable (document : BoardDocument)

theorem get?_items_of_delta (delta : BoardDelta) (id : String) :
    (applyBoardDelta document delta).items.get? id =
      (delta.items.get? id).getD (document.items.get? id) := by
  have h := get?_foldl_entries (f := fun _ value _ => value)
    (fun (acc : OrderedMap String Json) (e : String × Option Json) k =>
      get?_writeEntry acc e.1 k e.2) document.items delta.items id
  rw [map_id'] at h
  exact h

theorem get?_items_applyBoardDelta (hp : p.Proper) (id : String) :
    (applyBoardDelta document (deltaAfter (createDocumentState document) p)).items.get? id =
      (p.items.get? id).getD (document.items.get? id) := by
  rw [get?_items_of_delta]
  show ((p.items.filter fun id value => readMember (document.items.get? id) id != value).get? id).getD
    _ = _
  rw [get?_filter]
  exact getD_filter_changed fun v hv => hp.item id v hv

def storedTracks (document : BoardDocument) (a : String) : OrderedMap String Json :=
  ((document.animations.get? a).map BoardAnimation.tracks).getD OrderedMap.empty

variable (a : String)

theorem get?_storedTracks (t : String) :
    (storedTracks document a).get? t =
      (document.animations.get? a).bind fun animation => animation.tracks.get? t := by
  unfold storedTracks
  cases document.animations.get? a <;> rfl

theorem get?_tracks_deltaAfter (hp : p.Proper) (a t : String) :
    ((((deltaAfter (createDocumentState document) p).tracks.get? a).map
        (writeTracks (storedTracks document a))).getD (storedTracks document a)).get? t =
      (p.trackEntry a t).getD ((storedTracks document a).get? t) := by
  have hdelta : (deltaAfter (createDocumentState document) p).tracks.get? a =
      ((p.tracks.get? a).map (changedTracks (createDocumentState document) a)).filter
        fun ts => ts.size != 0 := by
    show ((p.tracks.mapValues _).filter _).get? a = _
    rw [get?_filter, get?_mapValues]
  rw [hdelta]
  cases hentry : p.tracks.get? a with
  | none =>
    unfold Pending.trackEntry
    rw [hentry]
    rfl
  | some pending =>
    have hpending : p.trackEntry a t = pending.get? t := by
      unfold Pending.trackEntry
      rw [hentry]
      rfl
    have hchanged : (changedTracks (createDocumentState document) a pending).get? t =
        (pending.get? t).filter fun value => documentTrack document a t != value :=
      get?_filter _ _ _
    have hgetD : ((changedTracks (createDocumentState document) a pending).get? t).getD
        ((storedTracks document a).get? t) =
          (pending.get? t).getD ((storedTracks document a).get? t) := by
      rw [hchanged, get?_storedTracks]
      unfold documentTrack
      cases document.animations.get? a with
      | some animation =>
        exact getD_filter_changed fun v hv => hp.track a t v (hpending.trans hv)
      | none =>
        cases pending.get? t with
        | none => rfl
        | some value => cases value <;> rfl
    rw [hpending, map_some]
    by_cases hsize : (changedTracks (createDocumentState document) a pending).size = 0
    · have hempty := get?_of_size_eq_zero hsize t
      rw [hempty] at hgetD
      have hdrop : ((changedTracks (createDocumentState document) a pending).size != 0) = false := by
        simpa using hsize
      simp only [Option.filter, hdrop]
      exact hgetD
    · have hkeep : ((changedTracks (createDocumentState document) a pending).size != 0) = true := by
        simpa using hsize
      simp only [Option.filter, hkeep, if_true, map_some, getD_some]
      rw [get?_writeTracks]
      exact hgetD

theorem get?_animations_of_delta (delta : BoardDelta) (a : String) :
    (applyBoardDelta document delta).animations.get? a =
      ((delta.animations.get? a).getD
          ((document.animations.get? a).map BoardAnimation.header)).map fun header =>
        { header := header
          tracks := ((delta.tracks.get? a).map (writeTracks (storedTracks document a))).getD
            (storedTracks document a) } := by
  have h := get?_writeAllTracks (delta.animations.entries.foldl writeHeader document.animations)
    delta.tracks a
  show (List.foldl writeAnimationTracks _ _).get? a = _
  rw [h, get?_writeHeaders]
  unfold storedTracks
  cases delta.animations.get? a with
  | none => cases document.animations.get? a <;> rfl
  | some header => cases header <;> rfl

theorem get?_animations_applyBoardDelta (p : Pending) (a : String) :
    (applyBoardDelta document (deltaAfter (createDocumentState document) p)).animations.get? a =
      ((p.animations.get? a).getD
          ((document.animations.get? a).map BoardAnimation.header)).map fun header =>
        { header := header
          tracks := (((deltaAfter (createDocumentState document) p).tracks.get? a).map
            (writeTracks (storedTracks document a))).getD (storedTracks document a) } :=
  get?_animations_of_delta document _ a

theorem view_applyBoardDelta (hp : p.Proper) :
    (applyBoardDelta document (deltaAfter (createDocumentState document) p)).view =
      p.view document := by
  have hitem : (applyBoardDelta document (deltaAfter (createDocumentState document) p)).view.item =
      (p.view document).item :=
    funext fun id => get?_items_applyBoardDelta document hp id
  have hanimation : (applyBoardDelta document
      (deltaAfter (createDocumentState document) p)).view.animation =
      (p.view document).animation := by
    funext a
    show Option.map _ (get? _ a) = _
    rw [get?_animations_applyBoardDelta, map_map]
    exact congrFun map_id _
  have htrack : (applyBoardDelta document (deltaAfter (createDocumentState document) p)).view.track =
      (p.view document).track := by
    funext a t
    show Option.bind (get? _ a) _ = _
    rw [get?_animations_applyBoardDelta]
    show _ = if _ then _ else _
    cases (p.animations.get? a).getD ((document.animations.get? a).map BoardAnimation.header) with
    | none => rfl
    | some header =>
      show get? _ t = _
      rw [get?_tracks_deltaAfter document hp, get?_storedTracks]
      rfl
  have hscript : (applyBoardDelta document
      (deltaAfter (createDocumentState document) p)).view.script = (p.view document).script := by
    have hboard : (applyBoardDelta document (deltaAfter (createDocumentState document) p)).board =
        p.settings.getD document.board := by
      show ((p.settings.filter fun settings => settings != document.board).getD document.board) = _
      cases p.settings with
      | none => rfl
      | some settings =>
        by_cases hsame : settings = document.board
        · simp [Option.filter, hsame]
        · simp [Option.filter, hsame]
    funext id
    show (Fields.get? ((((applyBoardDelta document _).board.get? "scripts").map _).getD []) id).isSome
      = _
    rw [hboard]
    rfl
  exact BoardView.ext hitem hanimation htrack hscript

end Cohub.Board
