import Mathlib.Algebra.Order.Ring.Rat
import Mathlib.Data.List.Dedup
import Cohub.Lib.KeyedList
import Cohub.Stream.AppendCursor

/-! # From a difference back to the content

    What the client makes of the operations the producer wrote: applied to the
    block they were taken from, the edits of `diffContentBlocks` give the next
    block (`applyEdits_diffContentBlocks`), and at the client the operations of
    one block change that block and leave the others alone.  The second half
    is about lists of blocks as maps from stream indices. -/

namespace Cohub.Stream

open Cohub.Realtime Fields Json KeyedList List Option

/-! ## Edits of one block -/

/-- An edit of the members of an object. -/
def applyEdit (root : Fields) (e : List String × Edit) : Option Fields :=
  match e.2 with
  | .append suffix => appendDeepOnContentBlock suffix root e.1
  | .replace v => setDeepOnContentBlock v root e.1

/-- Edits one after the other. -/
def applyEdits (root : Fields) (edits : List (List String × Edit)) : Option Fields :=
  edits.foldlM applyEdit root

/-- An edit below a member. -/
def below (k : String) (e : List String × Edit) : List String × Edit := (k :: e.1, e.2)

theorem applyEdits_nil (root : Fields) : applyEdits root [] = some root := rfl

theorem applyEdits_cons (root : Fields) (e : List String × Edit)
    (edits : List (List String × Edit)) :
    applyEdits root (e :: edits) = (applyEdit root e).bind fun root => applyEdits root edits := by
  unfold applyEdits
  rw [foldlM_cons]
  rfl

theorem applyEdits_append (root : Fields) (edits edits' : List (List String × Edit)) :
    applyEdits root (edits ++ edits') =
      (applyEdits root edits).bind fun root => applyEdits root edits' := by
  unfold applyEdits
  rw [foldlM_append]
  rfl

variable {root : Fields} {e : List String × Edit} {edits : List (List String × Edit)}
    {block block' p : ContentBlock} {blocks content : List ContentBlock} {i : Nat} {s : PatchBlocks}
  {child child' prev next : Fields} {k : String}
    {diff : Option Json → Json → Option (List (List String × Edit))} {keys : List String}
    {p' : ContentBlock}

theorem applyEdit_below (hchild : root.get? k = some (.obj child)) (hpath : e.1 ≠ [])
    (h : applyEdit child e = some child') :
    applyEdit root (below k e) = some (root.set k (.obj child')) := by
  unfold applyEdit below at *
  cases he : e.2 with
  | append suffix =>
    rw [he] at h
    show JsonPointer.modify _ root (k :: e.1) = _
    rw [JsonPointer.modify_cons hchild hpath]
    exact map_eq_some_iff.mpr ⟨child', h, rfl⟩
  | replace v =>
    rw [he] at h
    show JsonPointer.modify _ root (k :: e.1) = _
    rw [JsonPointer.modify_cons hchild hpath]
    exact map_eq_some_iff.mpr ⟨child', h, rfl⟩

/-- The object with one member changed: same order, other members alike. -/
structure SetsMember (root : Fields) (k : String) (v : Option Json) (root' : Fields) : Prop where
  sorted  : root'.Sorted
  changed : root'.get? k = v
  others  : ∀ k', k' ≠ k → root'.get? k' = root.get? k'

theorem applyEdits_below (hroot : root.Sorted) (hchild : root.get? k = some (.obj child))
    (hpaths : ∀ e ∈ edits, e.1 ≠ []) (h : applyEdits child edits = some child') :
    ∃ root', applyEdits root (edits.map (below k)) = some root' ∧
      SetsMember root k (some (.obj child')) root' := by
  induction edits generalizing root child with
  | nil =>
    rw [applyEdits_nil, Option.some.injEq] at h
    subst h
    exact ⟨root, rfl, hroot, hchild, fun _ _ => rfl⟩
  | cons e rest ih =>
    rw [applyEdits_cons, bind_eq_some_iff] at h
    obtain ⟨mid, he, hrest⟩ := h
    have hbelow := applyEdit_below hchild (hpaths e mem_cons_self) he
    obtain ⟨root', happly, hset⟩ := ih (sorted_set hroot k (.obj mid))
      (get?_set_self root k _) (fun e' he' => hpaths e' (mem_cons_of_mem _ he')) hrest
    refine ⟨root', ?_, hset.sorted, hset.changed, ?_⟩
    · rw [map_cons, applyEdits_cons, hbelow]
      exact happly
    · intro k' hk'
      rw [hset.others k' hk', get?_set_ne root _ hk']

/-- The edits taken from one member's values change the member from the first
    value to the second, in any object that has the first. -/
def Carries (diff : Option Json → Json → Option (List (List String × Edit)))
    (prev : Option Json) (next : Json) : Prop :=
  ∀ edits, diff prev next = some edits → ∀ (root : Fields) (k : String), root.Sorted →
    root.get? k = prev →
    ∃ root', applyEdits root (edits.map (below k)) = some root' ∧
      SetsMember root k (some next) root'

theorem applyEdits_diffMembers
    (hdiff : ∀ k ∈ keys, ∀ v, next.get? k = some v → Carries diff (prev.get? k) v)
    (hkeys : keys.Nodup) (h : diffMembers diff prev next keys = some edits)
    (hroot : root.Sorted) (hprev : ∀ k ∈ keys, root.get? k = prev.get? k) :
    ∃ root', applyEdits root edits = some root' ∧ root'.Sorted ∧
      ∀ k, root'.get? k = if k ∈ keys then next.get? k else root.get? k := by
  induction keys generalizing edits root with
  | nil =>
    rw [diffMembers, Option.some.injEq] at h
    subst h
    exact ⟨root, rfl, hroot, fun k => by simp⟩
  | cons k rest ih =>
    obtain ⟨hk, hrest⟩ := nodup_cons.mp hkeys
    rw [diffMembers] at h
    split at h
    · cases h
    · next v hv =>
      obtain ⟨child, hchild, h⟩ := bind_eq_some_iff.mp h
      obtain ⟨out, hout, rfl⟩ := map_eq_some_iff.mp h
      obtain ⟨mid, hmid, hset⟩ := hdiff k mem_cons_self v hv child hchild root k hroot
        (hprev k mem_cons_self)
      have hmidPrev : ∀ k' ∈ rest, mid.get? k' = prev.get? k' := by
        intro k' hk'
        have hne : k' ≠ k := fun heq => hk (heq ▸ hk')
        rw [hset.others k' hne]
        exact hprev k' (mem_cons_of_mem _ hk')
      obtain ⟨root', happly, hsorted, hget⟩ := ih
        (fun k' hk' => hdiff k' (mem_cons_of_mem _ hk')) hrest hout hset.sorted hmidPrev
      refine ⟨root', ?_, hsorted, ?_⟩
      · rw [applyEdits_append]
        show (applyEdits root (child.map (below k))).bind _ = _
        rw [hmid]
        exact happly
      · intro k'
        rw [hget]
        by_cases hk' : k' = k
        · subst hk'
          rw [if_neg hk, if_pos mem_cons_self, hset.changed, hv]
        · simp [hk', hset.others k' hk']

theorem nodup_unionKeys (prev next : Fields) : (unionKeys prev next).Nodup := by
  unfold unionKeys
  exact (perm_insertionSort (· ≤ ·) _).nodup_iff.mpr (nodup_dedup _)

theorem mem_unionKeys (prev next : Fields) (k : String) :
    k ∈ unionKeys prev next ↔ k ∈ prev.keys ∨ k ∈ next.keys := by
  unfold unionKeys
  rw [mem_insertionSort, mem_dedup, mem_append]

theorem mem_diffMembers (h : diffMembers diff prev next keys = some edits) :
    ∀ e ∈ edits, ∃ k ∈ keys, ∃ v child, next.get? k = some v ∧ diff (prev.get? k) v = some child ∧
      ∃ e' ∈ child, e = below k e' := by
  induction keys generalizing edits with
  | nil =>
    rw [diffMembers, Option.some.injEq] at h
    subst h
    exact nofun
  | cons k rest ih =>
    rw [diffMembers] at h
    split at h
    · cases h
    · next v hv =>
      obtain ⟨child, hchild, h⟩ := bind_eq_some_iff.mp h
      obtain ⟨out, hout, rfl⟩ := map_eq_some_iff.mp h
      intro e he
      rcases mem_append.mp he with he | he
      · obtain ⟨e', he', rfl⟩ := List.mem_map.mp he
        exact ⟨k, mem_cons_self, v, child, hv, hchild, e', he', rfl⟩
      · obtain ⟨k', hk', rest'⟩ := ih hout e he
        exact ⟨k', mem_cons_of_mem _ hk', rest'⟩

theorem carries_diffUnknownToOps (levels : Nat) :
    ∀ (prev : Option Json) (next : Json), (∀ v ∈ prev, v.Canonical) → next.Canonical →
      Carries (diffUnknownToOps levels) prev next := by
  induction levels with
  | zero =>
    intro prev next _ _ edits hedits
    cases hedits
  | succ levels ih =>
    intro prev next hprev hnext edits hedits root k hroot hget
    -- what replaces the member, and what leaves it
    have hreplace : edits = [([], .replace next)] →
        ∃ root', applyEdits root (edits.map (below k)) = some root' ∧
          SetsMember root k (some next) root' := by
      rintro rfl
      refine ⟨root.set k next, rfl, sorted_set hroot k next, get?_set_self root k next,
        fun k' hk' => get?_set_ne root next hk'⟩
    have hkeep : edits = [] → prev = some next →
        ∃ root', applyEdits root (edits.map (below k)) = some root' ∧
          SetsMember root k (some next) root' := by
      rintro rfl hsame
      exact ⟨root, rfl, hroot, hget.trans hsame, fun _ _ => rfl⟩
    unfold diffUnknownToOps at hedits
    split at hedits
    · cases hedits
    · exact hreplace (Option.some.inj hedits).symm
    · next _ p n _ =>
      split at hedits
      · next hprefix =>
        -- the suffix goes behind the text the member has
        have hedits := (Option.some.inj hedits).symm
        subst hedits
        obtain ⟨tail, htail⟩ := List.isPrefixOf_iff_prefix.mp hprefix.1
        have hjoin : p ++ String.ofList (n.toList.drop p.toList.length) = n := by
          rw [← String.toList_inj, String.toList_append, String.toList_ofList, ← htail,
            drop_left]
        refine ⟨root.set k (.str n), ?_, sorted_set hroot k _,
          get?_set_self root k _, fun k' hk' => get?_set_ne root _ hk'⟩
        show (applyEdit root ([k], .append _)).bind _ = _
        unfold applyEdit appendDeepOnContentBlock
        simp only [JsonPointer.modify_singleton, hget, appendToString, map_some,
          bind_some, hjoin]
        rfl
      · split at hedits
        · exact hreplace (Option.some.inj hedits).symm
        · next hne =>
          refine hkeep (Option.some.inj hedits).symm ?_
          rw [not_not.mp hne]
    · next lower p n hlevels =>
      obtain rfl : levels = lower := Nat.succ.inj hlevels
      have hp := (canonical_obj_iff p).mp (hprev _ rfl)
      have hn := (canonical_obj_iff n).mp hnext
      have hdiff : ∀ k ∈ unionKeys p n, ∀ v, Fields.get? n k = some v →
          Carries (diffUnknownToOps levels) (Fields.get? p k) v :=
        fun k _ v hv => ih _ _ (fun w hw => hp.2 k w hw) (hn.2 k v hv)
      obtain ⟨child', hchild, hsorted, hmembers⟩ := applyEdits_diffMembers hdiff
        (nodup_unionKeys p n) hedits hp.1 fun _ _ => rfl
      have hall : child' = n := by
        refine Fields.Sorted.ext hsorted hn.1 ?_
        intro k'
        rw [hmembers]
        split
        · rfl
        · next hnot =>
          rw [mem_unionKeys, not_or] at hnot
          rw [(get?_eq_none_iff p k').mpr hnot.1, (get?_eq_none_iff n k').mpr hnot.2]
      subst hall
      refine applyEdits_below hroot hget ?_ hchild
      intro e he
      obtain ⟨_, _, _, _, _, _, e', _, rfl⟩ := mem_diffMembers hedits e he
      exact cons_ne_nil _ _
    · split at hedits
      · exact hreplace (Option.some.inj hedits).symm
      · next hne =>
        refine hkeep (Option.some.inj hedits).symm ?_
        rw [not_not.mp hne]

theorem applyEdits_diffContentBlocks {prev next : ContentBlock} (hprev : Json.Canonical (.obj prev))
    (hnext : Json.Canonical (.obj next)) (h : diffContentBlocks (some prev) next = some edits) :
    applyEdits prev edits = some next := by
  unfold diffContentBlocks at h
  simp only at h
  split at h
  · cases h
  · next hcompatible =>
    have hp := (canonical_obj_iff prev).mp hprev
    have hn := (canonical_obj_iff next).mp hnext
    have htype : prev.get? "type" = next.get? "type" :=
      type_eq_of_compatible (by simpa using hcompatible)
    obtain ⟨root', happly, hsorted, hmembers⟩ := applyEdits_diffMembers
      (fun k _ v hv => carries_diffUnknownToOps _ _ _ (fun w hw => hp.2 k w hw) (hn.2 k v hv))
      ((nodup_unionKeys prev next).filter _) h hp.1 fun _ _ => rfl
    have hall : root' = next := by
      refine Fields.Sorted.ext hsorted hn.1 ?_
      intro k
      rw [hmembers]
      split
      · rfl
      · next hnot =>
        by_cases hk : k = "type"
        · rw [hk, htype]
        · have hunion : k ∉ unionKeys prev next := fun hmem =>
            hnot (mem_filter.mpr ⟨hmem, by simpa using hk⟩)
          rw [mem_unionKeys, not_or] at hunion
          rw [(get?_eq_none_iff prev k).mpr hunion.1,
            (get?_eq_none_iff next k).mpr hunion.2]
    rw [happly, hall]

/-! ## Edits and the index of a block -/

/-- The place is neither the index of a block nor around it. -/
def KeepsIndex (path : List String) : Prop :=
  path ≠ [] ∧ path ≠ ["_meta"] ∧ ∀ rest, path ≠ "_meta" :: "streamIndex" :: rest

theorem getStreamIndex_of_modify {change : Option Json → Option Json} {path : List String}
    (hpath : KeepsIndex path) (h : JsonPointer.modify change block path = some block') :
    getStreamIndex block' = getStreamIndex block := by
  obtain ⟨hnil, hmeta, hindex⟩ := hpath
  unfold getStreamIndex
  cases path with
  | nil => exact absurd rfl hnil
  | cons k rest =>
    by_cases hk : k = "_meta"
    · subst hk
      cases rest with
      | nil => exact absurd rfl hmeta
      | cons next rest =>
        -- below `_meta`, but beside the index
        have hne : next ≠ "streamIndex" := fun heq => hindex rest (by rw [heq])
        obtain ⟨child, child', hget, hmodify, hget'⟩ := JsonPointer.modify_below h
        have hframe := (JsonPointer.modify_frame hmodify).1 "streamIndex" (Ne.symm hne)
        rw [hget, hget', bind_some, bind_some, get?_obj, get?_obj, hframe]
    · rw [(JsonPointer.modify_frame h).1 "_meta" (Ne.symm hk)]

theorem getStreamIndex_applyEdit (hpath : KeepsIndex e.1) (h : applyEdit block e = some block') :
    getStreamIndex block' = getStreamIndex block := by
  unfold applyEdit at h
  split at h <;> exact getStreamIndex_of_modify hpath h

theorem meta_of_getStreamIndex {i : Rat} (h : getStreamIndex block = some i) :
    ∃ fs, block.get? "_meta" = some (.obj fs) ∧ Fields.get? fs "streamIndex" = some (.num i) := by
  obtain ⟨_meta, hmeta, h⟩ := bind_eq_some_iff.mp h
  obtain ⟨v, hv, hnum⟩ := bind_eq_some_iff.mp h
  cases _meta with
  | obj fs =>
    refine ⟨fs, hmeta, ?_⟩
    cases v <;> simp [asNum?] at hnum
    rw [← hnum]
    exact hv
  | _ => cases hv

theorem keepsIndex_of_mem_diffContentBlocks {prev next : ContentBlock} {i : Rat}
    (hprev : getStreamIndex prev = some i) (hnext : getStreamIndex next = some i)
    (h : diffContentBlocks (some prev) next = some edits) : ∀ e ∈ edits, KeepsIndex e.1 := by
  intro e he
  obtain ⟨pm, hpm, hpi⟩ := meta_of_getStreamIndex hprev
  obtain ⟨nm, hnm, hni⟩ := meta_of_getStreamIndex hnext
  unfold diffContentBlocks at h
  simp only at h
  split at h
  · cases h
  · obtain ⟨k, -, v, child, hv, hchild, e', he', rfl⟩ := mem_diffMembers h e he
    by_cases hk : k = "_meta"
    · subst hk
      rw [hnm, Option.some.injEq] at hv
      subst hv
      rw [hpm] at hchild
      obtain ⟨k', -, v', child', hv', hchild', e'', he'', rfl⟩ := mem_diffMembers hchild e' he'
      have hne : k' ≠ "streamIndex" := by
        rintro rfl
        rw [hni, Option.some.injEq] at hv'
        subst hv'
        rw [hpi] at hchild'
        -- equal numbers have no edit
        simp only [diffUnknownToOps, ne_eq, not_true_eq_false, if_false,
          Option.some.injEq] at hchild'
        subst hchild'
        cases he''
      refine ⟨cons_ne_nil _ _, ?_, ?_⟩
      · intro heq
        simp [below] at heq
      · intro rest heq
        simp only [below, cons.injEq, true_and] at heq
        exact hne heq.1
    · refine ⟨cons_ne_nil _ _, ?_, ?_⟩
      · intro heq
        simp only [below, cons.injEq] at heq
        exact hk heq.1
      · intro rest heq
        simp only [below, cons.injEq] at heq
        exact hk heq.1

/-! ## Operations at the client -/

/-- The client's block with an index. -/
def blockAt (blocks : List ContentBlock) (k : Option Rat) : Option ContentBlock :=
  KeyedList.lookup getStreamIndex blocks k

/-- No index occurs twice. -/
def DistinctIndices (blocks : List ContentBlock) : Prop := KeyedList.Distinct getStreamIndex blocks

theorem findBlockByStreamIndex_eq (blocks : List ContentBlock) (i : Rat) :
    findBlockByStreamIndex blocks i = position getStreamIndex blocks (some i) := rfl

/-- The client's blocks with the one at an index set. -/
structure SetsBlock (blocks : List ContentBlock) (i : Nat) (block : ContentBlock)
    (blocks' : List ContentBlock) : Prop where
  distinct : DistinctIndices blocks'
  lookup   : ∀ k, blockAt blocks' k = if k = some (i : Rat) then some block else blockAt blocks k

theorem SetsBlock.trans {mid blocks' : List ContentBlock} (h : SetsBlock blocks i block mid)
    (h' : SetsBlock mid i block' blocks') : SetsBlock blocks i block' blocks' := by
  refine ⟨h'.distinct, ?_⟩
  intro k
  rw [h'.lookup]
  split
  · rfl
  · next hk => rw [h.lookup, if_neg hk]

theorem withStreamIndex_eq {i : Rat} (hblock : IsBlock block)
    (hi : getStreamIndex block = some i) : withStreamIndex block i = block := by
  obtain ⟨fs, hmeta, hindex⟩ := meta_of_getStreamIndex hi
  have hblock := (canonical_obj_iff block).mp hblock.canonical
  have hfs := (canonical_obj_iff fs).mp (hblock.2 _ _ hmeta)
  unfold withStreamIndex
  rw [hmeta]
  show block.set "_meta" (.obj (Fields.set fs "streamIndex" (.num i))) = block
  rw [hfs.1.set_eq_self hindex, hblock.1.set_eq_self hmeta]

theorem applyPatchOp_replaceBlock
    (hblock : IsBlock block) (hi : getStreamIndex block = some (i : Rat))
    (hs : DistinctIndices s.next)
    (hfit : ∀ p ∈ blockAt s.next (some (i : Rat)),
      blockIdentityCompatible p block = true ∨ isToolBlock block = false) :
    ∃ next, applyPatchOp s (.replace (blockPath i) (.obj block)) = some { s with next := next } ∧
      SetsBlock s.next i block next := by
  obtain ⟨t, ht⟩ := hblock.typed
  have hfind : findBlockForReplacement s.next i block =
      position getStreamIndex s.next (some (i : Rat)) := by
    unfold findBlockForReplacement
    rw [findBlockByStreamIndex_eq, findIdx?_and getStreamIndex hs]
    cases hat : blockAt s.next (some (i : Rat)) with
    | none =>
      have hnone := (position_eq_none_iff getStreamIndex s.next _).mpr hat
      rw [hnone]
      split <;> simp
    | some p =>
      have hat : KeyedList.lookup getStreamIndex s.next (some (i : Rat)) = some p := hat
      rw [hat]
      by_cases hcompatible : blockIdentityCompatible p block = true
      · cases hpos : position getStreamIndex s.next (some (i : Rat)) with
        | none =>
          rw [position_eq_none_iff, hat] at hpos
          cases hpos
        | some n => simp [hcompatible]
      · rcases hfit p (by assumption) with h | h
        · exact absurd h hcompatible
        · simp [hcompatible, h]
  refine ⟨replaceBlock s.next (blockPath i) (.obj block), ?_, ?_⟩
  · unfold applyPatchOp
    simp only [matchBlockSubPath_blockPath]
  · have hwith := withStreamIndex_eq hblock hi
    unfold replaceBlock
    rw [matchBlockPath_blockPath]
    simp only [ht, isSome_some, if_true, hwith, hfind]
    cases hpos : position getStreamIndex s.next (some (i : Rat)) with
    | some n =>
      obtain ⟨hdistinct, hlookup⟩ := lookup_set getStreamIndex hs hpos hi
      exact ⟨hdistinct, hlookup⟩
    | none =>
      have hnone := (position_eq_none_iff getStreamIndex s.next _).mp hpos
      obtain ⟨hdistinct, hlookup⟩ := lookup_concat getStreamIndex hs (hi ▸ hnone)
      rw [hi] at hlookup
      exact ⟨hdistinct, hlookup⟩

theorem writeAtBlockSubpath_eq {write : ContentBlock → List String → Option ContentBlock}
    {segments : List String} (hs : DistinctIndices blocks)
    (hp : blockAt blocks (some (i : Rat)) = some p) (hreadable : Readable segments)
    (hwrite : write p segments = some p') (hp' : getStreamIndex p' = some (i : Rat)) :
    ∃ blocks', writeAtBlockSubpath write blocks i (JsonPointer.encode segments) = some blocks' ∧
      SetsBlock blocks i p' blocks' := by
  cases hpos : position getStreamIndex blocks (some (i : Rat)) with
  | none =>
    have hnone : blockAt blocks (some (i : Rat)) = none :=
      (position_eq_none_iff getStreamIndex blocks _).mp hpos
    rw [hp] at hnone
    cases hnone
  | some n =>
    have hget : blocks[n]? = some p := (getElem?_position getStreamIndex hpos).trans hp
    obtain ⟨hdistinct, hlookup⟩ := lookup_set getStreamIndex hs hpos hp'
    refine ⟨blocks.set n p', ?_, hdistinct, hlookup⟩
    unfold writeAtBlockSubpath
    rw [findBlockByStreamIndex_eq, hpos, JsonPointer.decode_encode hreadable.1]
    simp only [hget, bind_some, hwrite, map_some]

theorem applyPatchOp_renderEdit (hs : DistinctIndices s.next)
    (hp : blockAt s.next (some (i : Rat)) = some p) (hreadable : Readable e.1)
    (hkeeps : KeepsIndex e.1) (he : applyEdit p e = some p') :
    ∃ s', applyPatchOp s (renderEdit (blockPath i) e) = some s' ∧ SetsBlock s.next i p' s'.next := by
  have hpi : getStreamIndex p = some (i : Rat) := key_of_lookup getStreamIndex hp
  have hp' : getStreamIndex p' = some (i : Rat) := (getStreamIndex_applyEdit hkeeps he).trans hpi
  obtain ⟨segments, edit⟩ := e
  cases edit with
  | append suffix =>
    have he : appendDeepOnContentBlock suffix p segments = some p' := he
    obtain ⟨blocks', hwrite, hset⟩ := writeAtBlockSubpath_eq hs hp hreadable he hp'
    refine ⟨{ s with next := blocks', appendPath := some (joinPointerPath (blockPath i) segments) },
      ?_, hset⟩
    show applyPatchOp s (.append (joinPointerPath (blockPath i) segments) (.str suffix)) = _
    unfold applyPatchOp appendPatchStreamValue
    simp only [matchBlockSubPath_joinPointerPath i hreadable, bind_some]
    exact map_eq_some_iff.mpr ⟨blocks', hwrite, rfl⟩
  | replace v =>
    have he : setDeepOnContentBlock v p segments = some p' := he
    obtain ⟨blocks', hwrite, hset⟩ := writeAtBlockSubpath_eq hs hp hreadable he hp'
    refine ⟨{ s with next := blocks' }, ?_, hset⟩
    show applyPatchOp s (.replace (joinPointerPath (blockPath i) segments) v) = _
    unfold applyPatchOp
    simp only [matchBlockSubPath_joinPointerPath i hreadable]
    exact map_eq_some_iff.mpr ⟨blocks', hwrite, rfl⟩

theorem applyPatchOps_renderEdits (hs : DistinctIndices s.next)
    (hp : blockAt s.next (some (i : Rat)) = some p) (hreadable : ∀ e ∈ edits, Readable e.1)
    (hkeeps : ∀ e ∈ edits, KeepsIndex e.1) (h : applyEdits p edits = some block) :
    ∃ s', (edits.map (renderEdit (blockPath i))).foldlM applyPatchOp s = some s' ∧
      SetsBlock s.next i block s'.next := by
  induction edits generalizing s p with
  | nil =>
    rw [applyEdits_nil, Option.some.injEq] at h
    subst h
    refine ⟨s, rfl, hs, ?_⟩
    intro k
    split
    · next hk => rw [hk, hp]
    · rfl
  | cons e rest ih =>
    rw [applyEdits_cons, bind_eq_some_iff] at h
    obtain ⟨p', he, hrest⟩ := h
    obtain ⟨mid, hop, hset⟩ := applyPatchOp_renderEdit hs hp (hreadable e mem_cons_self)
      (hkeeps e mem_cons_self) he
    have hp' : blockAt mid.next (some (i : Rat)) = some p' := by rw [hset.lookup, if_pos rfl]
    obtain ⟨s', hfold, hset'⟩ := ih hset.distinct hp'
      (fun e' he' => hreadable e' (mem_cons_of_mem _ he'))
      (fun e' he' => hkeeps e' (mem_cons_of_mem _ he')) hrest
    refine ⟨s', ?_, hset.trans hset'⟩
    rw [map_cons, foldlM_cons, bind_eq_bind, hop]
    exact hfold

/-- The block the client has, if any, can be turned into the next one: by the
    edits taken from it, all at places the client can read, or as a whole. -/
def Fits (stored held : Option ContentBlock) (block : ContentBlock) : Prop :=
  match diffContentBlocks stored block with
  | some edits => held = stored ∧ ∀ e ∈ edits, Readable e.1
  | none => ∀ p ∈ held, blockIdentityCompatible p block = true ∨ isToolBlock block = false

def blockPatch (stored : Option ContentBlock) (i : Nat) (block : ContentBlock) :
    List RealtimePatchOperation :=
  match diffContentBlocksToOps (blockPath i) stored block with
  | some diffResult => diffResult
  | none => [.replace (blockPath i) (.obj block)]

theorem applyPatchOps_blockPatch {stored : Option ContentBlock}
    (hblock : IsBlock block) (hi : getStreamIndex block = some (i : Rat))
    (hs : DistinctIndices s.next) (hstored : ∀ p ∈ stored, IsBlock p)
    (hfits : Fits stored (blockAt s.next (some (i : Rat))) block) :
    ∃ s', (blockPatch stored i block).foldlM applyPatchOp s = some s' ∧
      SetsBlock s.next i block s'.next := by
  unfold Fits at hfits
  unfold blockPatch diffContentBlocksToOps
  cases hdiff : diffContentBlocks stored block with
  | some edits =>
    rw [hdiff] at hfits
    obtain ⟨hheld, hreadable⟩ := hfits
    cases stored with
    | none => cases hdiff
    | some p =>
      have hpi : getStreamIndex p = some (i : Rat) := key_of_lookup getStreamIndex hheld
      exact applyPatchOps_renderEdits hs hheld hreadable
        (keepsIndex_of_mem_diffContentBlocks hpi hi hdiff)
        (applyEdits_diffContentBlocks (hstored p rfl).canonical hblock.canonical hdiff)
  | none =>
    rw [hdiff] at hfits
    obtain ⟨next, hop, hset⟩ := applyPatchOp_replaceBlock hblock hi hs hfits
    refine ⟨{ s with next := next }, ?_, hset⟩
    rw [map_none, foldlM_cons, bind_eq_bind, hop]
    rfl

theorem applyPatchOp_remove (i : Nat) (hs : DistinctIndices s.next) :
    ∃ next, applyPatchOp s (.remove (blockPath i)) = some { s with next := next } ∧
      DistinctIndices next ∧
      ∀ k, blockAt next k = if k = some (i : Rat) then none else blockAt s.next k := by
  refine ⟨removeBlock s.next (blockPath i), rfl, ?_⟩
  unfold removeBlock
  simp only [matchBlockPath_blockPath, findBlockByStreamIndex_eq]
  cases hpos : position getStreamIndex s.next (some (i : Rat)) with
  | some n => exact lookup_eraseIdx getStreamIndex hs hpos
  | none =>
    refine ⟨hs, ?_⟩
    intro k
    have hnone := (position_eq_none_iff getStreamIndex s.next _).mp hpos
    by_cases hk : k = some (i : Rat)
    · rw [if_pos hk, hk]
      exact hnone
    · rw [if_neg hk]

theorem applyPatchOps_removes {indices : List Rat}
    (hindices : ∀ q ∈ indices, ∃ i : Nat, q = i) (hs : DistinctIndices s.next) :
    ∃ s', (indices.map fun i => RealtimePatchOperation.remove (blockPath i)).foldlM
        applyPatchOp s = some s' ∧ DistinctIndices s'.next ∧
      ∀ k, blockAt s'.next k =
        if ∃ i ∈ indices, k = some i then none else blockAt s.next k := by
  induction indices generalizing s with
  | nil => exact ⟨s, rfl, hs, fun k => by simp⟩
  | cons q rest ih =>
    obtain ⟨i, rfl⟩ := hindices q mem_cons_self
    obtain ⟨next, hop, hdistinct, hlookup⟩ := applyPatchOp_remove i hs
    obtain ⟨s', hfold, hdistinct', hlookup'⟩ := ih (s := { s with next := next })
      (fun q hq => hindices q (mem_cons_of_mem _ hq)) hdistinct
    refine ⟨s', ?_, hdistinct', ?_⟩
    · rw [map_cons, foldlM_cons, bind_eq_bind, hop]
      exact hfold
    · intro k
      rw [hlookup', hlookup]
      by_cases hk : k = some (i : Rat)
      · simp [hk]
      · simp [hk]

theorem applyPatchOps_keyframeOps (event : SessionStreamEvent) (s : PatchBlocks) :
    ∃ anchor, (keyframeOps event).foldlM applyPatchOp s =
      some { s with anchorUserMessageId := anchor } := by
  have hstatus : matchBlockSubPath "/message/status" = none ∧
      matchBlockPath "/message/status" = none := by decide +kernel
  have hend : matchBlockSubPath "/message/end_turn" = none ∧
      matchBlockPath "/message/end_turn" = none := by decide +kernel
  unfold keyframeOps
  simp only [foldlM_cons, foldlM_nil, bind_eq_bind, applyPatchOp, hstatus.1,
    hend.1, replaceBlock, hstatus.2, hend.2, bind_some, if_true, Option.pure_def]
  exact ⟨_, rfl⟩

/-! ## Content -/

/-- The content of a message: blocks with ascending indices. -/
structure IsContent (content : List ContentBlock) : Prop where
  blocks    : ∀ b ∈ content, IsBlock b ∧ ∃ i : Nat, getStreamIndex b = some (i : Rat)
  ascending : content.Pairwise fun a b =>
    ∀ i j, getStreamIndex a = some i → getStreamIndex b = some j → i < j

theorem IsContent.distinct (h : IsContent content) : DistinctIndices content := by
  unfold DistinctIndices KeyedList.Distinct
  rw [List.Nodup, pairwise_map]
  refine List.Pairwise.imp_of_mem ?_ h.ascending
  intro a b ha _ hlt heq
  obtain ⟨-, i, hi⟩ := h.blocks a ha
  exact lt_irrefl _ (hlt i i hi (heq ▸ hi))

instance : Std.Total fun a b => streamIndexLe a b = true where
  total a b := by
    unfold streamIndexLe
    cases getStreamIndex a with
    | none => cases getStreamIndex b <;> simp
    | some i =>
      cases getStreamIndex b with
      | none => simp
      | some j => simpa using le_total i j

instance : IsTrans ContentBlock fun a b => streamIndexLe a b = true where
  trans a b c := by
    unfold streamIndexLe
    cases getStreamIndex a <;> cases getStreamIndex b <;> cases getStreamIndex c <;> simp
    exact fun hij hjk => le_trans hij hjk

theorem sortBlocksByStreamIndex_eq (hblocks : DistinctIndices blocks) (hcontent : IsContent content)
    (h : ∀ k, blockAt blocks k = blockAt content k) : sortBlocksByStreamIndex blocks = content := by
  refine insertionSort_eq_of_lookup getStreamIndex hblocks hcontent.distinct ?_ ?_ h
  · refine List.Pairwise.imp_of_mem ?_ hcontent.ascending
    intro a b ha hb hlt
    obtain ⟨-, i, hi⟩ := hcontent.blocks a ha
    obtain ⟨-, j, hj⟩ := hcontent.blocks b hb
    unfold streamIndexLe
    rw [hi, hj]
    simpa using (hlt _ _ hi hj).le
  · intro a ha b hb hab hba
    obtain ⟨-, i, hi⟩ := hcontent.blocks a ha
    obtain ⟨-, j, hj⟩ := hcontent.blocks b hb
    unfold streamIndexLe at hab hba
    rw [hi, hj] at hab hba
    have hij : (i : Rat) ≤ j := by simpa using hab
    have hji : (j : Rat) ≤ i := by simpa using hba
    rw [hi, hj, le_antisymm hij hji]

theorem resolveFullBlockFromSnapshot_eq (hcontent : IsContent content) (hblock : block ∈ content)
    (hi : getStreamIndex block = some (i : Rat)) :
    resolveFullBlockFromSnapshot (some content) i block = block := by
  unfold resolveFullBlockFromSnapshot
  simp only [getD_some]
  cases hfind : content.find? fun b =>
      streamIndexOr b (-1) = (i : Rat) && blockIdentityCompatible b block with
  | none => rfl
  | some b =>
    have hb := mem_of_find?_eq_some hfind
    have hprops := find?_some hfind
    obtain ⟨-, j, hj⟩ := hcontent.blocks b hb
    have hindex : getStreamIndex b = getStreamIndex block := by
      simp only [streamIndexOr, hj, getD_some, Bool.and_eq_true, decide_eq_true_eq] at hprops
      rw [hj, hi, hprops.1]
    have hlook := (KeyedList.lookup_eq_some_iff getStreamIndex hcontent.distinct
      (getStreamIndex block) b).mpr ⟨hb, hindex⟩
    rw [(KeyedList.lookup_eq_some_iff getStreamIndex hcontent.distinct
      (getStreamIndex block) block).mpr ⟨hblock, rfl⟩] at hlook
    exact (Option.some.inj hlook).symm

end Cohub.Stream
