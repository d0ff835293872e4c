import Cohub.Board.MergePatch

/-! # The patch between two values

    `diffMergePatch` of `packages/protocol/src/board-patch.ts`: the merge patch
    that leads from one value to another, or none when they are equal.  It reads
    the members of both objects by name, and a name that every object inherits
    is always found. -/

namespace Cohub.Board

open Fields Json Option

mutual
/-- `diffMergePatch` for a present value before; absent when there is nothing
    to change. -/
def diffMergePatch : Json → Option Json → Option Json
  | before, some after =>
      if boardJsonEquals before after then none
      else match before, after with
        | .obj bs, .obj as =>
            some (.obj (diffMembers bs as
              ((as.filter fun e => !(Fields.keys bs).contains e.1))))
        | _, after => some after
  | _, none => some .null
/-- The loop of `diffMergePatch` over the members before, with the members
    that only exist after. -/
def diffMembers : List (String × Json) → Fields → Fields → Fields
  | [], _, added => added
  | (k, v) :: rest, as, added =>
      match diffMergePatch v (readMember (Fields.get? as k) k) with
      | some change => Fields.set (diffMembers rest as added) k change
      | none => diffMembers rest as added
end

/-- A value with the changes of a diff, if there are any. -/
def withDiff (before : Json) (diff : Option Json) : Json :=
  match diff with
  | none => before
  | some patch => mergePatch (some before) patch

/-- No changes, or none that a patch could name. -/
def isEmptyDiff (diff : Option Json) : Bool := diff = none ∨ diff = some (.obj [])

mutual
/-- No member is `null`, down to the values that are no objects. -/
def NullFree : Json → Prop
  | .obj fs => NullFreeFields fs
  | _ => True
def NullFreeFields : List (String × Json) → Prop
  | [] => True
  | (_, v) :: rest => v ≠ .null ∧ NullFree v ∧ NullFreeFields rest
end

mutual
/-- No member that is lost has a name that every object inherits. -/
def Told : Json → Json → Prop
  | .obj bs, .obj as => ToldFields bs as
  | _, _ => True
def ToldFields : List (String × Json) → Fields → Prop
  | [], _ => True
  | (k, v) :: rest, as =>
      (match Fields.get? as k with
        | none => isInherited k = false
        | some w => Told v w) ∧ ToldFields rest as
end

/-! ## Members of a diff -/

variable {fs bs as : Fields} {v w : Json} {k : String}

theorem nullFreeFields_iff :
    NullFreeFields fs ↔ ∀ e ∈ fs, e.2 ≠ .null ∧ NullFree e.2 := by
  induction fs with
  | nil => exact ⟨fun _ => nofun, fun _ => trivial⟩
  | cons e rest ih => rw [NullFreeFields, ih, List.forall_mem_cons, and_assoc]

theorem NullFree.get? (h : NullFree (.obj fs)) (hv : fs.get? k = some v) : v ≠ .null ∧ NullFree v := by
  rw [NullFree, nullFreeFields_iff] at h
  exact h _ (mem_of_get? hv)

/-- What a lost, kept or changed member may be. -/
def ToldMember (k : String) (v : Json) : Option Json → Prop
  | none => isInherited k = false
  | some w => Told v w

theorem toldFields_iff : ToldFields bs as ↔ ∀ e ∈ bs, ToldMember e.1 e.2 (as.get? e.1) := by
  induction bs with
  | nil => exact ⟨fun _ => nofun, fun _ => trivial⟩
  | cons e rest ih =>
    obtain ⟨k, v⟩ := e
    rw [ToldFields, ih, List.forall_mem_cons]
    refine and_congr_left fun _ => ?_
    unfold ToldMember
    cases as.get? k <;> rfl

theorem get?_diffMembers (hnodup : (bs.map Prod.fst).Nodup) (added : Fields) :
    (diffMembers bs as added).get? k = (bs.get? k).elim (added.get? k) fun v =>
      (diffMergePatch v (readMember (as.get? k) k)).or (added.get? k) := by
  induction bs with
  | nil => rfl
  | cons e rest ih =>
    obtain ⟨k₀, v₀⟩ := e
    rw [List.map_cons, List.nodup_cons] at hnodup
    rw [diffMembers, get?_cons]
    by_cases hk : k = k₀
    · subst hk
      have hrest : Fields.get? rest k = none := (get?_eq_none_iff _ _).mpr hnodup.1
      rw [if_pos rfl, elim_some]
      cases diffMergePatch v₀ (readMember (as.get? k) k) with
      | none =>
        rw [none_or]
        exact (ih hnodup.2).trans (by rw [hrest]; rfl)
      | some change =>
        rw [some_or]
        exact (get?_set _ _ _ _).trans (if_pos rfl)
    · rw [if_neg hk, ← ih hnodup.2]
      cases diffMergePatch v₀ (readMember (as.get? k₀) k₀) with
      | none => rfl
      | some change => exact (get?_set _ _ _ _).trans (if_neg hk)

theorem sizeOf_lt_of_get? (h : fs.get? k = some v) : sizeOf v < sizeOf (Json.obj fs) := by
  have hmem := List.sizeOf_lt_of_mem (mem_of_get? h)
  rw [Prod.mk.sizeOf_spec] at hmem
  rw [Json.obj.sizeOf_spec]
  omega

theorem sorted_mergeMembers {target : Fields} (h : Fields.Sorted target) (members : Fields) :
    Fields.Sorted (mergeMembers target members) := by
  induction members with
  | nil => exact h
  | cons e rest ih =>
    obtain ⟨k, v⟩ := e
    by_cases hv : v = .null
    · subst hv
      exact List.Pairwise.filter _ ih
    · rw [mergeMembers_cons hv]
      exact sorted_set ih k _

/-! ## A patch brings the value about -/

theorem mergePatch_new (hcanonical : w.Canonical) (hnull : NullFree w) {target : Option Json}
    (htarget : (target.map fields).getD [] = []) : mergePatch target w = w := by
  induction hn : sizeOf w using Nat.strong_induction_on generalizing w target with
  | _ n ih =>
    cases w with
    | obj members =>
      obtain ⟨hsorted, hmembers⟩ := (canonical_obj_iff _).mp hcanonical
      rw [mergePatch, htarget]
      refine congrArg Json.obj (Fields.Sorted.ext (sorted_mergeMembers sorted_nil _) hsorted
        fun k => ?_)
      rw [get?_mergeMembers]
      cases hk : Fields.get? members k with
      | none => rfl
      | some v =>
        obtain ⟨hne, hfree⟩ := hnull.get? hk
        show (if v = .null then none else some (mergePatch none v)) = some v
        rw [if_neg hne, ih _ (hn ▸ sizeOf_lt_of_get? hk) (hmembers k v hk) hfree rfl rfl]
    | _ => rfl

theorem told_self (hcanonical : v.Canonical) : Told v v := by
  induction hn : sizeOf v using Nat.strong_induction_on generalizing v with
  | _ n ih =>
    cases v with
    | obj fs =>
      obtain ⟨hsorted, hmembers⟩ := (canonical_obj_iff _).mp hcanonical
      rw [Told, toldFields_iff]
      rintro ⟨k, v⟩ hmem
      have hk := (get?_eq_some_iff hsorted k v).mpr hmem
      rw [hk]
      exact ih _ (hn ▸ sizeOf_lt_of_get? hk) (hmembers k v hk) rfl
    | _ => trivial

/-- The changes of two objects, member by member. -/
def changes (bs as : Fields) : Fields :=
  diffMembers bs as (as.filter fun e => !(Fields.keys bs).contains e.1)

theorem diffMergePatch_eq (v w : Json) : diffMergePatch v (some w) =
    if v = w then none
    else match v, w with
      | .obj bs, .obj as => some (.obj (changes bs as))
      | _, w => some w := by
  rw [diffMergePatch.eq_def]
  unfold boardJsonEquals changes
  by_cases h : v = w
  · simp only [h, decide_true, if_true]
  · simp only [h, decide_false, Bool.false_eq_true, if_false]

theorem diffMergePatch_ne_null (hw : w ≠ .null) : diffMergePatch v (some w) ≠ some .null := by
  rw [diffMergePatch_eq]
  split
  · nofun
  · split
    · nofun
    · exact fun h => hw (Option.some.inj h)

theorem get?_changes (hsorted : Fields.Sorted bs) : (changes bs as).get? k =
    (bs.get? k).elim (as.get? k) fun v => diffMergePatch v (readMember (as.get? k) k) := by
  have hadded : Fields.get? (as.filter fun e => !(Fields.keys bs).contains e.1) k =
      if (!(Fields.keys bs).contains k) = true then as.get? k else none :=
    OrderedMap.lookupEntry_filter (fun k => !(Fields.keys bs).contains k) k as
  unfold changes
  rw [get?_diffMembers hsorted.nodup, hadded]
  cases hk : bs.get? k with
  | none =>
    have hnot := (get?_eq_none_iff bs k).mp hk
    rw [elim_none, elim_none, if_pos (by simpa using hnot)]
  | some v =>
    have hin : k ∈ Fields.keys bs := (mem_keys_iff bs k).mpr ⟨v, hk⟩
    rw [elim_some, elim_some, if_neg (by simpa using hin), or_none]

theorem member_eq_iff (hbs : (Json.obj bs).Canonical) (has : (Json.obj as).Canonical)
    (hnull : NullFree (.obj as)) (k : String)
    (ih : ∀ v w, bs.get? k = some v → as.get? k = some w →
      (withDiff v (diffMergePatch v (some w)) = w ↔ Told v w)) :
    (mergeMembers bs (changes bs as)).get? k = as.get? k ↔
      ∀ v, bs.get? k = some v → ToldMember k v (as.get? k) := by
  obtain ⟨hbsorted, hbmembers⟩ := (canonical_obj_iff _).mp hbs
  obtain ⟨-, hamembers⟩ := (canonical_obj_iff _).mp has
  rw [get?_mergeMembers, get?_changes hbsorted]
  cases hb : bs.get? k with
  | none =>
    rw [elim_none]
    refine ⟨fun _ v hv => absurd hv (some_ne_none v).symm, fun _ => ?_⟩
    cases ha : as.get? k with
    | none => rfl
    | some w =>
      obtain ⟨hne, hfree⟩ := hnull.get? ha
      show (if w = .null then none else some (mergePatch none w)) = some w
      rw [if_neg hne, mergePatch_new (hamembers k w ha) hfree rfl]
  | some v =>
    rw [elim_some]
    cases ha : as.get? k with
    | none =>
      have hv := hbmembers k v hb
      cases hname : isInherited k with
      | false =>
        rw [readMember_eq_own hname, diffMergePatch]
        exact ⟨fun _ _ _ => hname, fun _ => rfl⟩
      | true =>
        have hnative : v ≠ .native k := by
          rintro rfl
          exact hv
        have hdiff : diffMergePatch v (readMember none k) = some (.native k) := by
          rw [readMember, hname, if_pos rfl, diffMergePatch_eq, if_neg hnative]
          cases v <;> rfl
        rw [hdiff]
        refine ⟨fun hsome => (by cases hsome), fun h => ?_⟩
        have hnot := h v rfl
        unfold ToldMember at hnot
        rw [hname] at hnot
        cases hnot
    | some w =>
      obtain ⟨hne, -⟩ := hnull.get? ha
      rw [readMember_some]
      have hmember := ih v w hb ha
      have hgoal : (∀ v', some v = some v' → ToldMember k v' (some w)) ↔ Told v w :=
        ⟨fun h => h v rfl, fun h v' hv' => Option.some.inj hv' ▸ h⟩
      rw [hgoal, ← hmember]
      unfold withDiff
      cases hdiff : diffMergePatch v (some w) with
      | none => exact some_inj
      | some patch =>
        have hpatch : patch ≠ .null := fun h => diffMergePatch_ne_null hne (h ▸ hdiff)
        show (if patch = .null then none else some (mergePatch (some v) patch)) = some w ↔ _
        rw [if_neg hpatch]
        exact some_inj

theorem withDiff_eq_iff (hv : v.Canonical) (hw : w.Canonical) (hnull : NullFree w) :
    withDiff v (diffMergePatch v (some w)) = w ↔ Told v w := by
  induction hn : sizeOf v using Nat.strong_induction_on generalizing v w with
  | _ n ih =>
    rw [diffMergePatch_eq]
    split
    · next heq =>
      subst heq
      exact ⟨fun _ => told_self hv, fun _ => rfl⟩
    · next hne =>
      split
      · next bs as =>
        have hbsorted := ((canonical_obj_iff _).mp hv).1
        have hasorted := ((canonical_obj_iff _).mp hw).1
        have hmember := fun k => member_eq_iff hv hw hnull k fun v' w' hv' hw' =>
          ih _ (hn ▸ sizeOf_lt_of_get? hv') (((canonical_obj_iff _).mp hv).2 k v' hv')
            (((canonical_obj_iff _).mp hw).2 k w' hw') (hnull.get? hw').2 rfl
        show Json.obj (mergeMembers bs (changes bs as)) = .obj as ↔ _
        rw [Told, toldFields_iff]
        constructor
        · rintro heq ⟨k, v'⟩ hmem
          have hk := (get?_eq_some_iff hbsorted k v').mpr hmem
          exact (hmember k).mp (congrArg (Fields.get? · k) (Json.obj.inj heq)) v' hk
        · intro htold
          refine congrArg Json.obj (Fields.Sorted.ext (sorted_mergeMembers hbsorted _) hasorted
            fun k => (hmember k).mpr fun v' hv' => htold (k, v') (mem_of_get? hv'))
      · next hnot =>
        have hnew : mergePatch (some v) w = w := by
          cases w with
          | obj as =>
            refine mergePatch_new hw hnull ?_
            cases v with
            | obj bs => exact (hnot bs as rfl rfl).elim
            | _ => rfl
          | _ => rfl
        refine ⟨fun _ => ?_, fun _ => hnew⟩
        cases v with
        | obj bs =>
          cases w with
          | obj as => exact (hnot bs as rfl rfl).elim
          | _ => trivial
        | _ => trivial

/-- The laws of merge patches, for two objects: the diff leads from the first to
    the second, it is empty exactly when they are equal, and a patch leaves
    every member that it does not name. -/
def DiffLaws (before after : Json) : Prop :=
  withDiff before (diffMergePatch before (some after)) = after ∧
    (isEmptyDiff (diffMergePatch before (some after)) = true ↔
      boardJsonEquals before after = true) ∧
    ∀ (patch : Fields) (k : String), patch.get? k = none →
      (mergePatch (some before) (.obj patch)).get? k = before.get? k

/-- A patch that arrives twice changes nothing the second time. -/
theorem mergePatch_twice {target : Option Json} (hcanonical : ∀ v, target = some v → v.Canonical)
    (patch : Json) : mergePatch (some (mergePatch target patch)) patch = mergePatch target patch := by
  induction hn : sizeOf patch using Nat.strong_induction_on generalizing target patch with
  | _ n ih =>
    cases patch with
    | obj members =>
      have hfields : Fields.Sorted ((target.map Json.fields).getD []) ∧
          ∀ k v, ((target.map Json.fields).getD []).get? k = some v → v.Canonical := by
        cases target with
        | none => exact ⟨Fields.sorted_nil, fun k v hv => by cases hv⟩
        | some v =>
          have hv := hcanonical v rfl
          cases v with
          | obj fs => exact (canonical_obj_iff _).mp hv
          | _ => exact ⟨Fields.sorted_nil, fun k v hv => by cases hv⟩
      obtain ⟨hsorted, hmembers⟩ := hfields
      have hmerged := sorted_mergeMembers hsorted members
      refine congrArg Json.obj (Fields.Sorted.ext (sorted_mergeMembers hmerged members) hmerged
        fun k => ?_)
      show (mergeMembers (mergeMembers _ members) members).get? k = _
      rw [get?_mergeMembers, get?_mergeMembers]
      cases hk : Fields.get? members k with
      | none => rfl
      | some v =>
        by_cases hv : v = .null
        · simp only [if_pos hv]
        · simp only [if_neg hv]
          exact congrArg some (ih _ (hn ▸ sizeOf_lt_of_get? hk) (hmembers k) v rfl)
    | _ => rfl

theorem mergePatch_twice_renamed :
    let patch := Json.obj [("size", .null), ("width", .num 1)]
    mergePatch (some (mergePatch none patch)) patch = mergePatch none patch :=
  mergePatch_twice (fun v hv => by cases hv) _

end Cohub.Board
