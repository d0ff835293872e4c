import Mathlib.Tactic.Linarith
import Cohub.Board.DrawOrder
import Cohub.Board.Inverse

/-! # Where new items are placed

    The `z` that the items loop of `applyBoardPatch` gives to an item without
    one: one more than the highest `z` of its siblings, read from a document
    (`createDocumentState`) or from the database (`preloadState`), and counted
    up for every item the patch adds to the same group.

    A new item is above all that was there.  Among the items the same patch
    places, the count leaves out stored items without a `z`: such an item and
    the next new one get the same `z`, and their ids decide (`tied`). -/

namespace Cohub.Board

open List

/-! ## The highest `z` in the database -/

section Preload

variable (document : BoardDocument) (patch : BoardPatch)

/-- `newParents`: the groups that get an item without `z`. -/
def newParents : List String :=
  patch.items.entries.filterMap fun e =>
    if e.2 ≠ .null ∧ (e.2.get? "z").isNone ∧ (document.items.get? e.1).isNone then
      some ((itemParent e.2).getD "")
    else none

/-- The parent of a group's items, none for the roots. -/
def parentOfGroup (group : String) : Option String := if group = "" then none else some group

/-- The `z` column of a group. -/
def groupZs (parent : Option String) : List Rat :=
  (document.items.entries.filter fun e => itemParent e.2 = parent).map fun e => (itemZ e.2).getD 0

/-- The greater of two numbers. -/
def higher (a b : Rat) : Rat := if a < b then b else a

/-- `max(z)`, where there are rows. -/
def greatest : List Rat → Option Rat
  | [] => none
  | z :: zs => some (zs.foldl higher z)

/-- `state.maxZ` after `preloadState`: 0 where the group was not asked for or
    has no rows. -/
def preloadMaxZ (parent : Option String) : Rat :=
  let group := parent.getD ""
  if (newParents document patch).contains group then
    (greatest (groupZs document (parentOfGroup group))).getD 0
  else 0

/-- The lookups the items loop uses: those of a document or those preloaded for
    the patch. -/
inductive ReadsItems : BoardState → Prop where
  | document : ReadsItems (createDocumentState document)
  | preloaded (state : BoardState) (hitem : state.item = document.items.get?)
      (hmax : state.maxZ = preloadMaxZ document patch) : ReadsItems state

end Preload

/-! ## Entries without `z` -/

section Entries

variable (state : BoardState)

/-- The candidate for an item, before it gets a `z`. -/
def mergedItem (e : String × Json) : Json :=
  let body := Json.obj (stripId e.2.fields)
  if isReplacing (state.item e.1) body then body else mergePatch (state.item e.1) body

/-- The entry writes an item whose candidate has no `z`. -/
def lacksZ (e : String × Json) : Bool :=
  decide (e.2 ≠ .null) && ((mergedItem state e).get? "z").isNone

/-- The entry adds an item without `z`. -/
def addsWithoutZ (e : String × Json) : Bool := lacksZ state e && (state.item e.1).isNone

/-- The entry's item is placed automatically: it has no `z` and had none. -/
def isPlaced (e : String × Json) : Bool :=
  lacksZ state e && ((state.item e.1).bind itemZ).isNone

/-- The group of an entry's item. -/
def groupOf (e : String × Json) : String := (itemParent (mergedItem state e)).getD ""

/-- How many entries add an item without `z` to a group. -/
def addedTo (group : String) (l : List (String × Json)) : Nat :=
  (l.filter fun e => addsWithoutZ state e && decide (groupOf state e = group)).length

/-- A stored item without `z` and a later new one get the same `z`, and the
    ids put the new one below. -/
def Tied (l : List (String × Json)) : Prop :=
  ∃ before b between a after, l = before ++ b :: (between ++ a :: after) ∧
    isPlaced state b = true ∧ (state.item b.1).isSome = true ∧ addsWithoutZ state a = true ∧
    groupOf state b = groupOf state a ∧ addedTo state (groupOf state a) between = 0 ∧
    ¬ Text.Le b.1 a.1

variable {state}

theorem isPlaced_of_addsWithoutZ {e : String × Json} (h : addsWithoutZ state e = true) :
    isPlaced state e = true := by
  unfold addsWithoutZ at h
  unfold isPlaced
  rw [Bool.and_eq_true] at h ⊢
  refine ⟨h.1, ?_⟩
  rw [Option.isNone_iff_eq_none.mp h.2]
  rfl

variable (group : String)

@[simp] theorem addedTo_nil : addedTo state group [] = 0 := rfl

theorem addedTo_append (l l' : List (String × Json)) :
    addedTo state group (l ++ l') = addedTo state group l + addedTo state group l' := by
  unfold addedTo
  rw [filter_append, length_append]

theorem addedTo_cons (e : String × Json) (l : List (String × Json)) :
    addedTo state group (e :: l) =
      (if addsWithoutZ state e = true ∧ groupOf state e = group then 1 else 0) +
        addedTo state group l := by
  unfold addedTo
  rw [filter_cons]
  by_cases h : addsWithoutZ state e = true ∧ groupOf state e = group
  · rw [if_pos (by simpa using h), if_pos h, length_cons, add_comm]
  · rw [if_neg (by simpa using h), if_neg h, zero_add]

end Entries

/-! ## One item -/

section Step

variable {rules : TextRules} {state : BoardState} {options : BoardApplyOptions}

theorem exists_mergedItem (state : BoardState) (e : String × Json) :
    ∃ fs : Fields, mergedItem state e = .obj fs := by
  unfold mergedItem
  dsimp only
  split
  · exact ⟨_, rfl⟩
  · exact ⟨_, by rw [mergePatch]⟩

theorem parentOfGroup_getD {parent : Option String} (h : ∀ q, parent = some q → isBoardId q = true) :
    parent = parentOfGroup (parent.getD "") := by
  unfold parentOfGroup
  cases parent with
  | none => rfl
  | some q =>
    have hne : q ≠ "" := by
      rintro rfl
      exact absurd (h "" rfl) (by decide)
    rw [Option.getD_some, if_neg hne]

variable {e : String × Json}

theorem applyItem_placed {acc : ItemPhase} (hlacks : lacksZ state e = true)
    (hok : (applyItem rules state options acc e.1 e.2).phase.2 = []) :
    let top := (acc.zByParent.get? (groupOf state e)).getD
      (state.maxZ (itemParent (mergedItem state e)))
    itemParent (mergedItem state e) = parentOfGroup (groupOf state e) ∧
    (applyItem rules state options acc e.1 e.2).zByParent =
      (if addsWithoutZ state e = true then acc.zByParent.set (groupOf state e) (top + 1)
        else acc.zByParent) ∧
    (isPlaced state e = true → ∃ item,
      (applyItem rules state options acc e.1 e.2).phase.1.items.get? e.1 = some (some item) ∧
      itemZ item = some (top + 1) ∧ itemParent item = itemParent (mergedItem state e)) := by
  intro top
  obtain ⟨id, value⟩ := e
  have hlacks' := hlacks
  unfold lacksZ at hlacks'
  rw [Bool.and_eq_true, decide_eq_true_eq] at hlacks'
  obtain ⟨hvalue, hz⟩ := hlacks'
  have hadds : addsWithoutZ state (id, value) = (state.item id).isNone := by
    unfold addsWithoutZ
    rw [hlacks, Bool.true_and]
  have hplaced : isPlaced state (id, value) = ((state.item id).bind itemZ).isNone := by
    unfold isPlaced
    rw [hlacks, Bool.true_and]
  obtain ⟨fs, hfs⟩ := exists_mergedItem state (id, value)
  rw [hadds, hplaced]
  unfold applyItem at hok ⊢
  rw [if_neg hvalue] at hok ⊢
  dsimp only at hok ⊢
  -- the candidate of the source is `mergedItem`
  have hmerged : (if isReplacing (state.item id) (Json.obj (stripId value.fields)) = true then
      Json.obj (stripId value.fields)
      else mergePatch (state.item id) (Json.obj (stripId value.fields))) =
      mergedItem state (id, value) := rfl
  rw [hmerged] at hok ⊢
  simp only [hz, if_true, Bool.true_and] at hok ⊢
  have htop : top = (acc.zByParent.get? ((itemParent (mergedItem state (id, value))).getD "")).getD
      (state.maxZ (itemParent (mergedItem state (id, value)))) := rfl
  rw [← htop] at hok ⊢
  generalize hparse : parseBoardItem rules _ ("items." ++ id) _ = parsed at hok ⊢
  cases parsed with
  | error diagnostics =>
    rw [(append_eq_nil_iff.mp hok).2] at hparse
    exact absurd hparse (parseBoardItem_ne_error_nil rules _ _ _)
  | ok item =>
    obtain ⟨hitemZ, hparent, hlegal⟩ := parseBoardItem_place hparse
    have hsame : itemParent item = itemParent (mergedItem state (id, value)) := by
      rw [hparent, hfs]
      unfold itemParent
      rw [Json.get?_obj, Json.get?_obj, Fields.get?_set_ne _ _ (by decide)]
      rfl
    have hitemZ := hitemZ (((state.item id).bind itemZ).getD (top + 1)) (by
      rw [Json.get?_obj, Fields.get?_set_self])
    refine ⟨parentOfGroup_getD (fun q hq => hlegal q (hsame.trans hq)), ?_, ?_⟩
    · dsimp only
      split <;> rfl
    · intro hnone
      have hcurrent : (state.item id).bind itemZ = none := Option.isNone_iff_eq_none.mp hnone
      rw [hcurrent, Option.getD_none] at hitemZ
      refine ⟨item, ?_, hitemZ, hsame⟩
      dsimp only
      split
      · next hequal =>
        -- what is stored has no `z`
        cases hc : state.item id with
        | none =>
          rw [hc] at hequal
          cases hequal
        | some c =>
          rw [hc] at hequal hcurrent
          have heq : c = item := of_decide_eq_true hequal
          rw [Option.bind_some, heq, hitemZ] at hcurrent
          cases hcurrent
      · exact OrderedMap.get?_set_self _ _ _

theorem applyItem_not_placed (acc : ItemPhase) (hlacks : lacksZ state e = false) :
    (applyItem rules state options acc e.1 e.2).zByParent = acc.zByParent := by
  obtain ⟨id, value⟩ := e
  unfold applyItem
  split
  · split <;> rfl
  · next hvalue =>
    dsimp only
    have hz : ((mergedItem state (id, value)).get? "z").isNone = false := by
      unfold lacksZ at hlacks
      rw [decide_eq_true hvalue, Bool.true_and] at hlacks
      exact hlacks
    have hmerged : (if isReplacing (state.item id) (Json.obj (stripId value.fields)) = true then
        Json.obj (stripId value.fields)
        else mergePatch (state.item id) (Json.obj (stripId value.fields))) =
        mergedItem state (id, value) := rfl
    rw [hmerged]
    simp only [hz, Bool.false_and, Bool.false_eq_true, if_false]
    split
    · rfl
    · split <;> rfl

theorem applyItem_frame (acc : ItemPhase) (e : String × Json) {id : String} (hid : id ≠ e.1) :
    (applyItem rules state options acc e.1 e.2).phase.1.items.get? id =
      acc.phase.1.items.get? id := by
  rcases applyItem_cases rules state options acc e.1 e.2 with heq | heq | ⟨parsed, -, -, heq⟩
  · rw [heq]
  · rw [heq]
    exact OrderedMap.get?_set_ne _ _ hid
  · rw [heq]
    exact OrderedMap.get?_set_ne _ _ hid

end Step

/-! ## The loop -/

section Run

variable (rules : TextRules) (state : BoardState) (options : BoardApplyOptions)

/-- The items loop over some entries. -/
def applyItems (start : ItemPhase) (l : List (String × Json)) : ItemPhase :=
  l.foldl (fun acc e => applyItem rules state options acc e.1 e.2) start

def writeItems (patch : BoardPatch) : ItemPhase :=
  applyItems rules state options
    { phase := applySettings rules state options patch.board, zByParent := OrderedMap.empty }
    patch.items.entries

variable {rules state options}

theorem applyItems_append (start : ItemPhase) (l l' : List (String × Json)) :
    applyItems rules state options start (l ++ l') =
      applyItems rules state options (applyItems rules state options start l) l' := foldl_append

theorem applyItems_cons (start : ItemPhase) (e : String × Json) (l : List (String × Json)) :
    applyItems rules state options start (e :: l) =
      applyItems rules state options (applyItem rules state options start e.1 e.2) l := rfl

variable {start : ItemPhase} {l : List (String × Json)}

theorem applyItems_ok
    (h : (applyItems rules state options start l).phase.2 = []) : start.phase.2 = [] := by
  have hfollows : Follows start.phase (applyItems rules state options start l).phase :=
    Loop.foldl_rel (R := fun x y : ItemPhase => Follows x.phase y.phase) (fun _ => Follows.refl _)
      (fun _ _ _ h h' => h.trans h')
      (fun acc e _ => (applyItem_follows rules state options acc e.1 e.2).1) start
  exact hfollows.errors h

theorem applyItems_frame {id : String} (hid : id ∉ l.map Prod.fst) :
    (applyItems rules state options start l).phase.1.items.get? id =
      start.phase.1.items.get? id := by
  induction l generalizing start with
  | nil => rfl
  | cons e rest ih =>
    rw [map_cons, mem_cons, not_or] at hid
    rw [applyItems_cons, ih hid.2, applyItem_frame _ _ hid.1]

theorem zByParent_applyItems (hstart : start.zByParent = OrderedMap.empty)
    (l : List (String × Json)) (hok : (applyItems rules state options start l).phase.2 = [])
    (group : String) :
    (applyItems rules state options start l).zByParent.get? group =
      if addedTo state group l = 0 then none
      else some (state.maxZ (parentOfGroup group) + addedTo state group l) := by
  induction l using reverseRecOn with
  | nil =>
    show start.zByParent.get? group = _
    rw [hstart]
    rfl
  | append_singleton l e ih =>
    have hstep : applyItems rules state options start (l ++ [e]) =
        applyItem rules state options (applyItems rules state options start l) e.1 e.2 :=
      applyItems_append start l [e]
    have hbefore : (applyItems rules state options start l).phase.2 = [] := by
      rw [applyItems_append] at hok
      exact applyItems_ok hok
    have ih := ih hbefore
    rw [hstep] at hok ⊢
    have hother : ¬ (addsWithoutZ state e = true ∧ groupOf state e = group) →
        addedTo state group (l ++ [e]) = addedTo state group l := by
      intro hnot
      rw [addedTo_append, addedTo_cons, if_neg hnot, addedTo_nil, Nat.add_zero]
    cases hlacks : lacksZ state e with
    | false =>
      have hadds : addsWithoutZ state e = false := by
        unfold addsWithoutZ
        rw [hlacks, Bool.false_and]
      rw [applyItem_not_placed _ hlacks, ih, hother (by simp [hadds])]
    | true =>
      obtain ⟨hparent, hz, -⟩ := applyItem_placed hlacks hok
      rw [hz]
      cases hadds : addsWithoutZ state e with
      | false => rw [if_neg (by simp), ih, hother (by simp [hadds])]
      | true =>
        rw [if_pos rfl, OrderedMap.get?_set]
        by_cases hgroup : group = groupOf state e
        · have hcount : addedTo state group (l ++ [e]) = addedTo state group l + 1 := by
            rw [addedTo_append, addedTo_cons, if_pos ⟨hadds, hgroup.symm⟩, addedTo_nil]
          have htop : ((applyItems rules state options start l).zByParent.get? group).getD
              (state.maxZ (parentOfGroup group)) =
              state.maxZ (parentOfGroup group) + addedTo state group l := by
            rw [ih]
            split
            · next hzero => simp [hzero]
            · rfl
          rw [if_pos hgroup, hparent, ← hgroup, htop, hcount, if_neg (Nat.succ_ne_zero _)]
          push_cast
          rw [add_assoc]
        · rw [if_neg hgroup, ih, hother fun h => hgroup h.2.symm]

theorem z_of_placed (hstart : start.zByParent = OrderedMap.empty)
    {before after : List (String × Json)} {e : String × Json} (hl : l = before ++ e :: after)
    (hnodup : (l.map Prod.fst).Nodup) (hok : (applyItems rules state options start l).phase.2 = [])
    (he : isPlaced state e = true) :
    ∃ item, (applyItems rules state options start l).phase.1.items.get? e.1 = some (some item) ∧
      itemZ item = some (state.maxZ (parentOfGroup (groupOf state e)) +
        addedTo state (groupOf state e) before + 1) ∧
      itemParent item = parentOfGroup (groupOf state e) := by
  subst hl
  rw [applyItems_append, applyItems_cons] at hok ⊢
  have hstep := applyItems_ok hok
  have hbefore : (applyItems rules state options start before).phase.2 = [] :=
    applyItems_ok (l := [e]) hstep
  have hlacks : lacksZ state e = true := by
    unfold isPlaced at he
    rw [Bool.and_eq_true] at he
    exact he.1
  obtain ⟨hparent, -, hitem⟩ := applyItem_placed hlacks hstep
  obtain ⟨item, hget, hz, hitemParent⟩ := hitem he
  -- the entries after it write other items
  have hlater : e.1 ∉ after.map Prod.fst := by
    rw [map_append, map_cons, nodup_append, nodup_cons] at hnodup
    exact hnodup.2.1.1
  refine ⟨item, ?_, ?_, hitemParent.trans hparent⟩
  · rw [applyItems_frame hlater]
    exact hget
  · rw [hz, hparent, zByParent_applyItems hstart before hbefore]
    split
    · next hzero => simp [hzero]
    · rfl

end Run

/-! ## The highest `z` -/

theorem le_higher (a b : Rat) : a ≤ higher a b ∧ b ≤ higher a b := by
  unfold higher
  split
  · next h => exact ⟨h.le, le_refl b⟩
  · next h => exact ⟨le_refl a, not_lt.mp h⟩

theorem le_foldl_higher (zs : List Rat) (start : Rat) :
    start ≤ zs.foldl higher start ∧ ∀ z ∈ zs, z ≤ zs.foldl higher start := by
  induction zs generalizing start with
  | nil => exact ⟨le_refl start, by simp⟩
  | cons z zs ih =>
    obtain ⟨hstart, hall⟩ := ih (higher start z)
    obtain ⟨hfirst, hsecond⟩ := le_higher start z
    refine ⟨hfirst.trans hstart, ?_⟩
    intro z' hz'
    rcases mem_cons.mp hz' with rfl | hz'
    · exact hsecond.trans hstart
    · exact hall z' hz'

theorem le_greatest {zs : List Rat} {z : Rat} (hz : z ∈ zs) : z ≤ (greatest zs).getD 0 := by
  cases zs with
  | nil => cases hz
  | cons z₀ zs =>
    obtain ⟨hfirst, hall⟩ := le_foldl_higher zs z₀
    rcases mem_cons.mp hz with rfl | hz
    · exact hfirst
    · exact hall z hz

variable {document : BoardDocument} {e a : String × Json} {state : BoardState}

theorem mem_groupZs
    (he : e ∈ document.items.entries) : (itemZ e.2).getD 0 ∈ groupZs document (itemParent e.2) :=
  mem_map.mpr ⟨e, mem_filter.mpr ⟨he, by simp⟩, rfl⟩

theorem documentMaxZ_eq (document : BoardDocument) (parent : Option String) :
    documentMaxZ document parent = (groupZs document parent).foldl higher 0 := by
  have hfold : ∀ (l : List (String × Json)) (start : Rat), l.foldl
      (fun top e => if itemParent e.2 = parent ∧ top < (itemZ e.2).getD 0 then (itemZ e.2).getD 0
        else top) start =
      ((l.filter fun e => itemParent e.2 = parent).map fun e => (itemZ e.2).getD 0).foldl higher
        start := by
    intro l
    induction l with
    | nil => intro start; rfl
    | cons e l ih =>
      intro start
      rw [foldl_cons, filter_cons]
      by_cases hparent : itemParent e.2 = parent
      · rw [if_pos (decide_eq_true hparent), map_cons, foldl_cons, ← ih]
        unfold higher
        simp only [hparent, true_and]
      · rw [if_neg fun h => hparent h.1, ih, if_neg (by simpa using hparent)]
  exact hfold _ 0

theorem get?_mergedItem (hnew : state.item a.1 = none)
    {k : String} (hk : k ≠ "id") : (mergedItem state a).get? k = a.2.get? k := by
  unfold mergedItem isReplacing
  rw [hnew]
  show Fields.get? (stripId a.2.fields) k = _
  unfold stripId
  rw [Fields.get?_erase_ne _ hk]
  cases a.2 <;> rfl

theorem getD_parentOfGroup (group : String) : (parentOfGroup group).getD "" = group := by
  unfold parentOfGroup
  split
  · next h => exact h.symm
  · rfl

variable {patch : BoardPatch} {s : String × Json}

theorem mem_newParents (hitem : state.item = document.items.get?) (ha : a ∈ patch.items.entries)
    (hadds : addsWithoutZ state a = true) : groupOf state a ∈ newParents document patch := by
  unfold addsWithoutZ lacksZ at hadds
  rw [Bool.and_eq_true, Bool.and_eq_true, decide_eq_true_eq] at hadds
  obtain ⟨⟨hvalue, hz⟩, hnew⟩ := hadds
  have hnone : state.item a.1 = none := Option.isNone_iff_eq_none.mp hnew
  have hgroup : groupOf state a = (itemParent a.2).getD "" := by
    unfold groupOf itemParent
    rw [get?_mergedItem hnone (by decide)]
  rw [get?_mergedItem hnone (by decide)] at hz
  rw [hitem] at hnew
  unfold newParents
  refine mem_filterMap.mpr ⟨a, ha, ?_⟩
  rw [if_pos ⟨hvalue, hz, hnew⟩, hgroup]

theorem le_maxZ (hstate : ReadsItems document patch state) (ha : a ∈ patch.items.entries)
    (hadds : addsWithoutZ state a = true) (hs : s ∈ document.items.entries)
    (hgroup : itemParent s.2 = parentOfGroup (groupOf state a)) :
    (itemZ s.2).getD 0 ≤ state.maxZ (parentOfGroup (groupOf state a)) := by
  have hmem := mem_groupZs hs
  rw [hgroup] at hmem
  cases hstate with
  | document =>
    show _ ≤ documentMaxZ document _
    rw [documentMaxZ_eq]
    exact (le_foldl_higher _ 0).2 _ hmem
  | preloaded _ hitem hmax =>
    rw [hmax]
    unfold preloadMaxZ
    dsimp only
    rw [getD_parentOfGroup, if_pos (contains_iff_mem.mpr (mem_newParents hitem ha hadds))]
    exact le_greatest hmem

/-! ## On top -/

/-- The item `a` is drawn above the item `b` of its group. -/
def drawnAbove (a : String × Json) (b : String × Json) : Prop :=
  (itemZ b.2).getD 0 < (itemZ a.2).getD 0 ∨
    (itemZ b.2).getD 0 = (itemZ a.2).getD 0 ∧ Text.Le b.1 a.1 ∧ b.1 ≠ a.1

/-- Every item the patch adds without `z` is drawn above every sibling that was
    stored, and above every sibling the patch placed before. -/
def OnTop (document : BoardDocument) (patch : BoardPatch) (state : BoardState) (after : Pending) :
    Prop :=
  ∀ before a rest, patch.items.entries = before ++ a :: rest → addsWithoutZ state a = true →
    ∃ item, after.items.get? a.1 = some (some item) ∧
      (∀ s ∈ document.items.entries, itemParent s.2 = itemParent item → drawnAbove (a.1, item) s) ∧
      ∀ b ∈ before, isPlaced state b = true → ∀ item', after.items.get? b.1 = some (some item') →
        itemParent item' = itemParent item → drawnAbove (a.1, item) (b.1, item')

variable {document : BoardDocument} {patch : BoardPatch} {state : BoardState}
variable {rules : TextRules} {options : BoardApplyOptions}

theorem parentOfGroup_injective : Function.Injective parentOfGroup := by
  intro a b h
  rw [← getD_parentOfGroup a, ← getD_parentOfGroup b, h]

theorem placed_spec (hok : (writeItems rules state options patch).phase.2 = [])
    {before after : List (String × Json)}
    (hsplit : patch.items.entries = before ++ e :: after) (he : isPlaced state e = true) :
    ∃ item, (writeItems rules state options patch).phase.1.items.get? e.1 = some (some item) ∧
      itemZ item = some (state.maxZ (parentOfGroup (groupOf state e)) +
        addedTo state (groupOf state e) before + 1) ∧
      itemParent item = parentOfGroup (groupOf state e) :=
  z_of_placed rfl hsplit patch.items.nodup hok he

theorem drawnAbove_stored (hstate : ReadsItems document patch state)
    {item : Json} {n : Nat} (ha : a ∈ patch.items.entries) (hadds : addsWithoutZ state a = true)
    (hz : itemZ item = some (state.maxZ (parentOfGroup (groupOf state a)) + n + 1))
    (hs : s ∈ document.items.entries) (hsibling : itemParent s.2 = parentOfGroup (groupOf state a)) :
    drawnAbove (a.1, item) s := by
  left
  have hle := le_maxZ hstate ha hadds hs hsibling
  have hn : (0 : Rat) ≤ n := Nat.cast_nonneg n
  simp only [hz, Option.getD_some]
  linarith

theorem addsWithoutZ_iff (he : isPlaced state e = true) :
    addsWithoutZ state e = true ↔ (state.item e.1).isSome = false := by
  unfold isPlaced at he
  rw [Bool.and_eq_true] at he
  unfold addsWithoutZ
  rw [he.1, Bool.true_and]
  cases state.item e.1 <;> simp

theorem onTop_iff (hstate : ReadsItems document patch state)
    (hok : (writeItems rules state options patch).phase.2 = []) :
    OnTop document patch state (writeItems rules state options patch).phase.1 ↔
      ¬ Tied state patch.items.entries := by
  have hnodup := patch.items.nodup
  -- the counts of a placed item and of a later new one of its group
  have hcount : ∀ (before between : List (String × Json)) (b a : String × Json),
      groupOf state b = groupOf state a →
      addedTo state (groupOf state a) (before ++ b :: between) =
        addedTo state (groupOf state b) before +
          ((if addsWithoutZ state b = true then 1 else 0) +
            addedTo state (groupOf state a) between) := by
    intro before between b a hgroup
    rw [addedTo_append, addedTo_cons, hgroup]
    simp
  constructor
  · rintro htop ⟨before, b, between, a, after, hl, hb, hstored, ha, hgroup, hnone, hle⟩
    have hl' : patch.items.entries = (before ++ b :: between) ++ a :: after := by
      rw [hl, append_assoc, cons_append]
    obtain ⟨itemB, hgetB, hzB, hparentB⟩ := placed_spec hok hl hb
    obtain ⟨itemA, hgetA, hzA, hparentA⟩ := placed_spec hok hl' (isPlaced_of_addsWithoutZ ha)
    obtain ⟨item, hget, -, hplaced⟩ := htop _ a after hl' ha
    obtain rfl : itemA = item := Option.some.inj (Option.some.inj (hgetA.symm.trans hget))
    have habove := hplaced b (by simp) hb itemB hgetB (by rw [hparentB, hparentA, hgroup])
    have hold : ¬ addsWithoutZ state b = true := by
      rw [addsWithoutZ_iff hb, hstored]
      simp
    rw [hcount _ _ _ _ hgroup, if_neg hold, hnone, hgroup] at hzA
    rw [hgroup] at hzB
    rcases habove with hlt | ⟨-, hbelow, -⟩
    · simp [hzA, hzB] at hlt
    · exact hle hbelow
  · intro hfree before a rest hl ha
    obtain ⟨item, hget, hz, hparent⟩ := placed_spec hok hl (isPlaced_of_addsWithoutZ ha)
    have hmem : a ∈ patch.items.entries := by simp [hl]
    refine ⟨item, hget, ?_, ?_⟩
    · intro s hs hsibling
      exact drawnAbove_stored hstate hmem ha hz hs (hsibling.trans hparent)
    · intro b hb hplaced item' hget' hsame
      obtain ⟨l, between, rfl⟩ := append_of_mem hb
      have hlb : patch.items.entries = l ++ b :: (between ++ a :: rest) := by
        rw [hl, append_assoc, cons_append]
      obtain ⟨itemB, hgetB, hzB, hparentB⟩ := placed_spec hok hlb hplaced
      obtain rfl : itemB = item' := Option.some.inj (Option.some.inj (hgetB.symm.trans hget'))
      have hgroup : groupOf state b = groupOf state a := by
        apply parentOfGroup_injective
        rw [← hparentB, hsame, hparent]
      rw [hcount _ _ _ _ hgroup, hgroup] at hz
      rw [hgroup] at hzB
      by_cases hraised : addsWithoutZ state b = true ∨ addedTo state (groupOf state a) between ≠ 0
      · left
        have hone : 1 ≤ (if addsWithoutZ state b = true then 1 else 0) +
            addedTo state (groupOf state a) between := by
          rcases hraised with hraised | hraised
          · rw [if_pos hraised]
            omega
          · omega
        have hcast : (1 : Rat) ≤ (((if addsWithoutZ state b = true then 1 else 0) +
            addedTo state (groupOf state a) between : Nat) : Rat) := by exact_mod_cast hone
        simp only [hz, hzB, Option.getD_some]
        push_cast at hcast ⊢
        linarith
      · rw [not_or, not_not] at hraised
        obtain ⟨hold, hnone⟩ := hraised
        -- the same `z`: the ids decide
        rw [if_neg hold, hnone] at hz
        right
        refine ⟨by simp [hz, hzB], ?_, ?_⟩
        · by_contra hle
          refine hfree ⟨l, b, between, a, rest, hlb, hplaced, ?_, ha, hgroup, hnone, hle⟩
          rw [addsWithoutZ_iff hplaced, Bool.not_eq_false] at hold
          exact hold
        · rw [hlb, map_append, map_cons, nodup_append, nodup_cons] at hnodup
          intro heq
          exact hnodup.2.1.1 (mem_map.mpr ⟨a, by simp, heq.symm⟩)

/-! ## A stored item without `z` -/

/-- A frame as it is stored, without a `z`. -/
def unplacedFrame : Json :=
  record [("opacity", .num 1), ("origin", record [("x", .num (1 / 2)), ("y", .num (1 / 2))]),
    ("position", record [("x", .num 0), ("y", .num 0)]), ("props", record [("clip", .bool true),
    ("label", .str "")]), ("rotation", .num 0), ("scale", .num 1),
    ("size", record [("height", .num 320), ("width", .num 480)]), ("style", .obj []),
    ("type", .str "frame")]

/-- A board of one such frame. -/
def unplacedDocument : BoardDocument :=
  { board := .obj [], items := OrderedMap.ofList [("b", unplacedFrame)]
    animations := OrderedMap.empty }

/-- A patch that fades the frame and adds another. -/
def fadeAndAdd : BoardPatch :=
  { board := none
    items := OrderedMap.ofList [("b", record [("opacity", .num 0)]),
      ("a", record [("type", .str "frame")])]
    animations := OrderedMap.empty }

theorem writeItems_fadeAndAdd : (writeItems allTextRules (createDocumentState unplacedDocument)
    BoardApplyOptions.none fadeAndAdd).phase.2 = [] := by
  decide +kernel

theorem tied_fadeAndAdd :
    Tied (createDocumentState unplacedDocument) fadeAndAdd.items.entries :=
  ⟨[], ("b", record [("opacity", .num 0)]), [], ("a", record [("type", .str "frame")]), [],
    rfl, by decide, by decide, by decide, by decide, by decide, by decide⟩

theorem nested_unplaced : Nested unplacedDocument.items := by
  have hitem : ∀ id item, unplacedDocument.items.get? id = some item → item = unplacedFrame := by
    intro id item h
    have hmem := (unplacedDocument.items.mem_entries_iff id item).mpr h
    have hentries : unplacedDocument.items.entries = [("b", unplacedFrame)] := rfl
    rw [hentries, mem_singleton] at hmem
    exact (Prod.mk.inj hmem).2
  have hroot : itemParent unplacedFrame = none := rfl
  constructor
  · decide
  · intro id item q hid hparent
    rw [hitem id item hid, hroot] at hparent
    cases hparent
  · intro id hbelow
    obtain ⟨p, hp, -⟩ := Relation.TransGen.head'_iff.mp hbelow
    obtain ⟨item, hid, hparent, -⟩ := parentAmong_eq_some.mp hp
    rw [hitem id item hid, hroot] at hparent
    cases hparent

/-- A patch leads from one board to the next; both keep to names of their own. -/
def Patched (rules : TextRules) (before after : BoardDocument) : Prop :=
  before.view.OwnNames ∧ ∃ layout patch options, patch.OwnNames ∧
    applyBoardPatchToDocument rules layout before patch options = .ok after

variable {rules : TextRules} {document : BoardDocument}

theorem Patched.wellFormed {before : BoardDocument} (h : Patched rules before document)
    (hwf : before.view.WellFormed) : document.view.WellFormed := by
  obtain ⟨hown, layout, patch, options, hpatch, hafter⟩ := h
  unfold applyBoardPatchToDocument at hafter
  split at hafter
  · next hok =>
    cases hafter
    obtain ⟨written, p, haccepted, rfl⟩ := accepted_of_applyBoardPatch hwf hown hpatch hok
    rw [view_applyBoardDelta before haccepted.proper]
    exact haccepted.wellFormed hwf hown
  · cases hafter

/-- Every board that patches make out of nothing is drawn in the order of its tree. -/
theorem patched_drawnInOrder
    (h : Relation.ReflTransGen (Patched rules) (emptyBoardDocument rules) document) :
    DrawnInOrder document.items (orderBoardItems document.items) := by
  have hwf : document.view.WellFormed := by
    induction h with
    | refl => exact wellFormed_of_empty rfl rfl
    | tail _ hpatched ih => exact hpatched.wellFormed ih
  exact (nested_of_wellFormed hwf).drawnInOrder

/-- The board of a frame with a shape in it. -/
theorem patched_drawnInOrder_shapePatch :
    ∃ document : BoardDocument, document.items.has "box" = true ∧
      DrawnInOrder document.items (orderBoardItems document.items) := by
  have hrun : succeedsWith (fun document => document.items.has "box")
      (applyBoardPatchToDocument allTextRules originLayout (emptyBoardDocument allTextRules)
        shapePatch BoardApplyOptions.none) = true := by decide +kernel
  obtain ⟨document, hdocument, hbox⟩ := exists_of_succeedsWith hrun
  have hown : (emptyBoardDocument allTextRules).view.OwnNames :=
    ownNames_of_empty rfl rfl (by decide +kernel)
  exact ⟨document, hbox, patched_drawnInOrder (.single ⟨hown, _, _, _, by decide +kernel, hdocument⟩)⟩

end Cohub.Board
