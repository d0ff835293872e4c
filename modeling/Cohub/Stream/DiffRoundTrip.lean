import Cohub.Stream.RoundTrip

/-! # The round trip of a block diff

    What the client makes of the operations of `diffContentBlocksToOps` for
    all blocks of a content at once.  The client finds the place of an
    operation with a pattern, and the pattern does not match every path that
    the producer writes: `Readable` says which keys it can read, and an index
    must be a natural number.  The round trip holds exactly where every place
    that changes can be read (`diff_round_trip_iff`). -/

namespace Cohub.Stream

open Cohub.Realtime Fields Json KeyedList List Option

/-! ## The places that change -/

/-- The two values are objects. -/
def BothObjects (prev : Option Json) (next : Json) : Prop :=
  ∃ p n, prev = some (.obj p) ∧ next = .obj n

/-- `path` leads to values that differ and are not compared any deeper. -/
inductive ChangedAt : Option Json → Json → List String → Prop where
  | here {prev : Option Json} {next : Json} (hleaf : ¬ BothObjects prev next)
      (hne : prev ≠ some next) : ChangedAt prev next []
  | member {p n : Fields} {k : String} {v : Json} {path : List String}
      (hk : Fields.get? n k = some v) (hchanged : ChangedAt (Fields.get? p k) v path) :
      ChangedAt (some (.obj p)) (.obj n) (k :: path)

/-- What stands at a place before a change. -/
def valueBelow (prev : Option Json) (path : List String) : Option Json :=
  prev.bind fun v => v.at? path

variable {next : Json} {path segments : List String} {edits : List (List String × Edit)} {i j : Rat}
    {prev blocks : List ContentBlock} {block : ContentBlock} {s s' : PatchBlocks}
    {e : List String × Edit}

theorem ChangedAt.value_ne {prev : Option Json}
    (h : ChangedAt prev next path) : valueBelow prev path ≠ next.at? path := by
  induction h with
  | here hleaf hne => simpa [valueBelow] using hne
  | @member p n k v path hk hchanged ih =>
    rw [at?_cons, get?_obj, hk]
    exact ih

theorem ChangedAt.eq_nil_of_append {prev : Option Json} {rest : List String}
    (h : ChangedAt prev next path) (hbelow : ChangedAt prev next (path ++ rest)) : rest = [] := by
  induction h with
  | here hleaf hne =>
    cases hbelow with
    | here => rfl
    | member => exact absurd ⟨_, _, rfl, rfl⟩ hleaf
  | @member p n k v path hk hchanged ih =>
    rw [cons_append] at hbelow
    cases hbelow with
    | @member _ _ _ v' _ hk' hchanged' =>
      obtain rfl : v = v' := Option.some.inj (hk.symm.trans hk')
      exact ih hchanged'

variable {other keys : List String} {diff : Option Json → Json → Option (List (List String × Edit))}
    {ops : List RealtimePatchOperation} {key : String}

theorem ChangedAt.apart {prev : Option Json}
    (h : ChangedAt prev next path) (hother : ChangedAt prev next other) (hne : path ≠ other) :
    ¬ path <+: other ∧ ¬ other <+: path := by
  constructor
  · intro hprefix
    obtain ⟨rest, rfl⟩ := hprefix
    rw [h.eq_nil_of_append hother, append_nil] at hne
    exact hne rfl
  · intro hprefix
    obtain ⟨rest, rfl⟩ := hprefix
    rw [hother.eq_nil_of_append h, append_nil] at hne
    exact hne rfl

theorem at?_modify {change : Option Json → Option Json} {root root' : Fields}
    (h : JsonPointer.modify change root path = some root')
    (hapart : ¬ path <+: other ∧ ¬ other <+: path) :
    (Json.obj root').at? other = (Json.obj root).at? other := by
  induction path generalizing root root' other with
  | nil => exact absurd (List.nil_prefix) hapart.1
  | cons k rest ih =>
    cases other with
    | nil => exact absurd (List.nil_prefix) hapart.2
    | cons k' rest' =>
      rw [at?_cons, at?_cons, get?_obj, get?_obj]
      by_cases hk : k' = k
      · subst hk
        rw [cons_prefix_cons, cons_prefix_cons] at hapart
        cases rest with
        | nil => exact absurd ⟨rfl, List.nil_prefix⟩ hapart.1
        | cons next rest =>
          obtain ⟨child, child', hget, hmodify, hget'⟩ := JsonPointer.modify_below h
          rw [hget, hget', bind_some, bind_some]
          exact ih hmodify ⟨fun hp => hapart.1 ⟨rfl, hp⟩, fun hp => hapart.2 ⟨rfl, hp⟩⟩
      · rw [(JsonPointer.modify_frame h).1 k' hk]

/-! ## The places of the edits -/

theorem exists_mem_diffMembers {prev next : Fields}
    (h : diffMembers diff prev next keys = some edits) (path : List String) :
    (∃ e ∈ edits, e.1 = path) ↔ ∃ k ∈ keys, ∃ v child rest, Fields.get? next k = some v ∧
      diff (Fields.get? prev k) v = some child ∧ path = k :: rest ∧ ∃ e ∈ child, e.1 = rest := by
  induction keys generalizing edits with
  | nil =>
    rw [diffMembers, Option.some.injEq] at h
    subst h
    simp
  | cons k keys ih =>
    rw [diffMembers] at h
    split at h
    · cases h
    · next v hv =>
      obtain ⟨child, hchild, h⟩ := bind_eq_some_iff.mp h
      obtain ⟨out, hout, rfl⟩ := map_eq_some_iff.mp h
      constructor
      · rintro ⟨e, he, rfl⟩
        rcases mem_append.mp he with he | he
        · obtain ⟨e', he', rfl⟩ := List.mem_map.mp he
          exact ⟨k, mem_cons_self, v, child, e'.1, hv, hchild, rfl, e', he', rfl⟩
        · obtain ⟨k', hk', hrest⟩ := (ih hout).mp ⟨e, he, rfl⟩
          exact ⟨k', mem_cons_of_mem _ hk', hrest⟩
      · rintro ⟨k', hk', v', child', rest, hv', hchild', rfl, e, he, rfl⟩
        rcases mem_cons.mp hk' with rfl | hk'
        · obtain rfl : v = v' := Option.some.inj (hv.symm.trans hv')
          obtain rfl : child = child' := Option.some.inj (hchild.symm.trans hchild')
          exact ⟨below k' e, mem_append_left _ (List.mem_map.mpr ⟨e, he, rfl⟩), rfl⟩
        · obtain ⟨e', he', hpath⟩ := (ih hout).mpr
            ⟨k', hk', v', child', e.1, hv', hchild', rfl, e, he, rfl⟩
          exact ⟨e', mem_append_right _ he', hpath⟩

theorem exists_of_diffMembers {prev next : Fields}
    (h : diffMembers diff prev next keys = some edits) {k : String} (hk : k ∈ keys) :
    ∃ v child, Fields.get? next k = some v ∧ diff (Fields.get? prev k) v = some child := by
  induction keys generalizing edits with
  | nil => cases hk
  | cons k' keys ih =>
    rw [diffMembers] at h
    split at h
    · cases h
    · next v hv =>
      obtain ⟨child, hchild, h⟩ := bind_eq_some_iff.mp h
      obtain ⟨out, hout, rfl⟩ := map_eq_some_iff.mp h
      rcases mem_cons.mp hk with rfl | hk
      · exact ⟨v, child, hv, hchild⟩
      · exact ih hout hk

theorem exists_mem_diffUnknownToOps (levels : Nat) :
    ∀ (prev : Option Json) (next : Json) (edits : List (List String × Edit)),
      diffUnknownToOps levels prev next = some edits →
      ∀ path, (∃ e ∈ edits, e.1 = path) ↔ ChangedAt prev next path := by
  induction levels with
  | zero =>
    intro prev next edits h
    cases h
  | succ levels ih =>
    intro prev next edits h path
    -- where the values are compared as a whole, the only place is the value itself
    have hone : ∀ edit, ¬ BothObjects prev next → prev ≠ some next → edits = [([], edit)] →
        ((∃ e ∈ edits, e.1 = path) ↔ ChangedAt prev next path) := by
      rintro edit hleaf hne rfl
      constructor
      · rintro ⟨e, he, rfl⟩
        rw [mem_singleton] at he
        subst he
        exact .here hleaf hne
      · intro hchanged
        cases hchanged with
        | here => exact ⟨_, mem_singleton_self _, rfl⟩
        | member => exact absurd ⟨_, _, rfl, rfl⟩ hleaf
    have hnone : ¬ BothObjects prev next → prev = some next → edits = [] →
        ((∃ e ∈ edits, e.1 = path) ↔ ChangedAt prev next path) := by
      rintro hleaf heq rfl
      constructor
      · rintro ⟨e, he, -⟩
        cases he
      · intro hchanged
        cases hchanged with
        | here _ hne => exact absurd heq hne
        | member => exact absurd ⟨_, _, rfl, rfl⟩ hleaf
    unfold diffUnknownToOps at h
    split at h
    · cases h
    · exact hone _ (by simp [BothObjects]) (by simp) (Option.some.inj h).symm
    · next _ p n _ =>
      have hleaf : ¬ BothObjects (some (.str p)) (.str n) := by simp [BothObjects]
      split at h
      · next hprefix =>
        refine hone _ hleaf ?_ (Option.some.inj h).symm
        intro heq
        simp only [Option.some.injEq, Json.str.injEq] at heq
        subst heq
        exact absurd hprefix.2 (lt_irrefl _)
      · split at h
        · next hne => exact hone _ hleaf (by simpa using hne) (Option.some.inj h).symm
        · next hne => exact hnone hleaf (by simpa using hne) (Option.some.inj h).symm
    · next lower p n hlevels =>
      obtain rfl : levels = lower := Nat.succ.inj hlevels
      rw [exists_mem_diffMembers h]
      constructor
      · rintro ⟨k, -, v, child, rest, hv, hchild, rfl, hrest⟩
        exact .member hv ((ih _ _ _ hchild rest).mp hrest)
      · intro hchanged
        cases hchanged with
        | here hleaf => exact absurd ⟨_, _, rfl, rfl⟩ hleaf
        | @member _ _ k v rest hv hrest =>
          -- the loop ended, so it has the edits of every key of `next`
          have hk : k ∈ unionKeys p n := by
            rw [mem_unionKeys]
            right
            by_contra hk
            rw [(get?_eq_none_iff n k).mpr hk] at hv
            cases hv
          obtain ⟨v', child, hv', hchild⟩ := exists_of_diffMembers h hk
          obtain rfl : v = v' := Option.some.inj (hv.symm.trans hv')
          exact ⟨k, hk, v, child, rest, hv, hchild, rfl, (ih _ _ _ hchild rest).mpr hrest⟩
    · next after _ _ _ _ before _ _ hobj =>
      have hleaf : ¬ BothObjects (some before) after := by
        rintro ⟨p, n, hp, hn⟩
        exact hobj p n hn (Option.some.inj hp)
      split at h
      · next hne => exact hone _ hleaf (by simpa using hne) (Option.some.inj h).symm
      · next hne => exact hnone hleaf (by simpa using hne) (Option.some.inj h).symm

theorem exists_mem_diffContentBlocks {prev next : ContentBlock}
    (hnext : IsBlock next) (h : diffContentBlocks (some prev) next = some edits) (path : List String) :
    (∃ e ∈ edits, e.1 = path) ↔ ChangedAt (some (.obj prev)) (.obj next) path := by
  unfold diffContentBlocks at h
  simp only at h
  split at h
  · cases h
  · next hcompatible =>
    have htype : prev.get? "type" = next.get? "type" :=
      type_eq_of_compatible (by simpa using hcompatible)
    obtain ⟨t, ht⟩ := hnext.typed
    rw [exists_mem_diffMembers h]
    constructor
    · rintro ⟨k, -, v, child, rest, hv, hchild, rfl, hrest⟩
      exact .member hv ((exists_mem_diffUnknownToOps _ _ _ _ hchild rest).mp hrest)
    · intro hchanged
      cases hchanged with
      | here hleaf => exact absurd ⟨_, _, rfl, rfl⟩ hleaf
      | @member _ _ k v rest hv hrest =>
        have hk : k ∈ (unionKeys prev next).filter (· ≠ "type") := by
          rw [mem_filter, mem_unionKeys]
          refine ⟨.inr ?_, ?_⟩
          · by_contra hk
            rw [(get?_eq_none_iff next k).mpr hk] at hv
            cases hv
          · rw [decide_eq_true_eq]
            rintro rfl
            rw [htype, hv] at hrest
            rw [ht, Option.some.injEq] at hv
            subst hv
            cases hrest with
            | here _ hne => exact hne rfl
        obtain ⟨v', child, hv', hchild⟩ := exists_of_diffMembers h hk
        obtain rfl : v = v' := Option.some.inj (hv.symm.trans hv')
        exact ⟨k, hk, v, child, rest, hv, hchild, rfl,
          (exists_mem_diffUnknownToOps _ _ _ _ hchild rest).mpr hrest⟩

/-! ## Paths that the client cannot read -/

theorem matchBlockIndex_blocksPath {path : String} {text : List Char}
    (h : path.toList = blocksPath ++ text) :
    matchBlockIndex path = if text.takeWhile Char.isDigit = [] then none
      else some (Nat.ofDigitChars 10 (text.takeWhile Char.isDigit) 0, text.dropWhile Char.isDigit) := by
  have hprefix : blocksPath.isPrefixOf (blocksPath ++ text) := by
    rw [List.isPrefixOf_iff_prefix]
    exact prefix_append _ _
  unfold matchBlockIndex
  rw [h, if_pos hprefix, drop_left]

theorem numberToString_of_not_natural (hi : ¬ ∃ n : Nat, i = n) :
    (∃ text, (numberToString i).toList = '-' :: text) ∨
      ∃ n : Nat, ∃ text, (numberToString i).toList = (toString n).toList ++ '.' :: text := by
  have hsign : ∀ n : Nat, (toString (Int.negSucc n)).toList = '-' :: (toString (n + 1)).toList := by
    intro n
    show ("-" ++ toString (n + 1)).toList = _
    rw [String.toList_append]
    rfl
  unfold numberToString
  split
  · next hden =>
    -- a whole number that is no index is negative
    cases hnum : i.num with
    | ofNat n =>
      refine absurd ⟨n, ?_⟩ hi
      rw [← Rat.coe_int_num_of_den_eq_one hden, hnum]
      rfl
    | negSucc n => exact .inl ⟨_, hsign n⟩
  · cases hnum : i.num with
    | ofNat n =>
      refine Or.inr ⟨n, (toString i.den).toList, ?_⟩
      rw [String.toList_append, String.toList_append, append_assoc]
      rfl
    | negSucc n =>
      refine Or.inl ⟨(toString (n + 1)).toList ++ ("." ++ toString i.den).toList, ?_⟩
      rw [String.append_assoc, String.toList_append, hsign]
      rfl

theorem matchBlockIndex_of_not_natural (hi : ¬ ∃ n : Nat, i = n) (rest : List Char) :
    matchBlockIndex (blockPath i ++ String.ofList rest) = none ∨
      ∃ n tail, matchBlockIndex (blockPath i ++ String.ofList rest) = some (n, '.' :: tail) := by
  have hpath : (blockPath i ++ String.ofList rest).toList =
      blocksPath ++ ((numberToString i).toList ++ rest) := by
    unfold blockPath
    rw [String.toList_append, String.toList_ofList, String.toList_append, append_assoc]
    rfl
  rw [matchBlockIndex_blocksPath hpath]
  rcases numberToString_of_not_natural hi with ⟨text, htext⟩ | ⟨n, text, htext⟩
  · left
    rw [htext, cons_append, takeWhile_cons_of_neg (by decide), if_pos rfl]
  · right
    have hdigits : ∀ c ∈ (toString n).toList, c.isDigit = true := fun c hc => isDigit_of_mem_toString hc
    rw [htext, append_assoc, takeWhile_append_of_pos hdigits,
      dropWhile_append_of_pos hdigits, cons_append,
      takeWhile_cons_of_neg (by decide), dropWhile_cons_of_neg (by decide),
      append_nil, if_neg (toString_ne_nil n)]
    exact ⟨_, _, rfl⟩

theorem matchBlockIndex_joinPointerPath (n : Nat) (segments : List String) :
    matchBlockIndex (joinPointerPath (blockPath n) segments) =
      some (n, JsonPointer.encodeTail segments) := by
  apply matchBlockIndex_append
  cases segments with
  | nil => simp [JsonPointer.encodeTail]
  | cons s rest =>
    intro c hc
    simp only [JsonPointer.encodeTail, cons_append, head?_cons, mem_def,
      Option.some.injEq] at hc
    subst hc
    decide

theorem matchBlockPath_joinPointerPath (i : Rat) (h : segments ≠ []) :
    matchBlockPath (joinPointerPath (blockPath i) segments) = none := by
  unfold matchBlockPath
  by_cases hi : ∃ n : Nat, i = n
  · obtain ⟨n, rfl⟩ := hi
    rw [matchBlockIndex_joinPointerPath, bind_some]
    cases segments with
    | nil => exact absurd rfl h
    | cons s rest => simp [JsonPointer.encodeTail]
  · rcases matchBlockIndex_of_not_natural hi (JsonPointer.encodeTail segments) with hnone | ⟨n, tail, hsome⟩
    · unfold joinPointerPath
      rw [hnone]
      rfl
    · unfold joinPointerPath
      rw [hsome]
      simp

/-- The client can read the place of an edit. -/
def ReadablePlace (i : Rat) (path : List String) : Prop := (∃ n : Nat, i = n) ∧ Readable path

theorem matchBlockSubPath_of_not_readable (h : ¬ ReadablePlace i segments) :
    matchBlockSubPath (joinPointerPath (blockPath i) segments) = none := by
  unfold matchBlockSubPath
  by_cases hi : ∃ n : Nat, i = n
  · -- then the keys are what cannot be read
    have hkeys : ¬ Readable segments := fun hkeys => h ⟨hi, hkeys⟩
    obtain ⟨n, rfl⟩ := hi
    rw [matchBlockIndex_joinPointerPath, bind_some]
    cases segments with
    | nil => rfl
    | cons s rest =>
      have hencode : (JsonPointer.encode (s :: rest)).toList =
          (JsonPointer.encodeSegment s).toList ++ JsonPointer.encodeTail rest := by
        unfold JsonPointer.encode
        rw [String.toList_ofList]
        rfl
      have hunread : (JsonPointer.encodeSegment s).toList ++ JsonPointer.encodeTail rest = [] ∨
          ((JsonPointer.encodeSegment s).toList ++ JsonPointer.encodeTail rest).any isLineTerminator = true := by
        unfold Readable at hkeys
        rw [← hencode]
        by_cases hempty : JsonPointer.encode (s :: rest) = ""
        · left
          rw [hempty]
          rfl
        · right
          simpa [hempty] using hkeys
      simp only [JsonPointer.encodeTail, cons_append]
      rw [if_pos hunread]
  · rcases matchBlockIndex_of_not_natural hi (JsonPointer.encodeTail segments) with hnone | ⟨n, tail, hsome⟩
    · unfold joinPointerPath
      rw [hnone]
      rfl
    · unfold joinPointerPath
      rw [hsome]
      rfl

/-! ## Contents -/

/-- No member is called `__proto__`, for which an assignment makes no member. -/
def NoProto (v : Json) : Prop := ∀ path, v.at? (path ++ ["__proto__"]) = none

/-- Two contents whose blocks are paired by their index, each index used once. -/
structure Paired (prev next : List ContentBlock) : Prop where
  prevBlocks : ∀ b ∈ prev, IsBlock b
  nextBlocks : ∀ b ∈ next, IsBlock b ∧ ∃ i, getStreamIndex b = some i
  prevDistinct : DistinctIndices prev
  nextDistinct : DistinctIndices next
  pairs : ∀ k, (blockAt prev k).isSome = (blockAt next k).isSome
  noProto : ∀ b ∈ next, NoProto (.obj b)

/-- The operations of `diffContentBlocksToOps` for every block of `next`, in
    turn; none where one of them falls back. -/
def contentDiff (prev : List ContentBlock) : List ContentBlock → Option (List RealtimePatchOperation)
  | [] => some []
  | block :: rest =>
      (diffContentBlocksToOps (blockPath (streamIndexOr block 0)) (blockAt prev (getStreamIndex block))
        block).bind fun ops => (contentDiff prev rest).map fun later => ops ++ later

/-- The client makes `next` of its blocks `prev`, in its own order. -/
def Yields (prev : List ContentBlock) (ops : List RealtimePatchOperation) (appendPath : Option String)
    (next : List ContentBlock) : Prop :=
  ∃ s, applyPatchOpsToBlocks prev ops appendPath = some s ∧ s.next = sortBlocksByStreamIndex next

/-- The values of a block with its predecessor differ at a place. -/
def BlockChangedAt (prev : List ContentBlock) (block : ContentBlock) (path : List String) : Prop :=
  ChangedAt ((blockAt prev (getStreamIndex block)).map Json.obj) (.obj block) path

/-- The client can read every place at which the contents differ. -/
def ChangesReadable (prev next : List ContentBlock) : Prop :=
  ∀ block ∈ next, ∀ i, getStreamIndex block = some i → ∀ path, BlockChangedAt prev block path →
    ReadablePlace i path

theorem contentDiff_cons {rest : List ContentBlock}
    (h : contentDiff prev (block :: rest) = some ops) :
    ∃ edits later, diffContentBlocks (blockAt prev (getStreamIndex block)) block = some edits ∧
      contentDiff prev rest = some later ∧
      ops = edits.map (renderEdit (blockPath (streamIndexOr block 0))) ++ later := by
  rw [contentDiff, bind_eq_some_iff] at h
  obtain ⟨own, hown, h⟩ := h
  obtain ⟨later, hlater, rfl⟩ := map_eq_some_iff.mp h
  obtain ⟨edits, hedits, rfl⟩ := map_eq_some_iff.mp hown
  exact ⟨edits, later, hedits, hlater, rfl⟩

theorem namesPath_contentDiff {next : List ContentBlock}
    (h : contentDiff prev next = some ops) : ∀ op ∈ ops, NamesPath op := by
  induction next generalizing ops with
  | nil =>
    rw [contentDiff, Option.some.injEq] at h
    subst h
    simp
  | cons block rest ih =>
    obtain ⟨edits, later, -, hlater, rfl⟩ := contentDiff_cons h
    intro op hop
    rcases mem_append.mp hop with hop | hop
    · obtain ⟨e, -, rfl⟩ := List.mem_map.mp hop
      exact namesPath_renderEdit _ e
    · exact ih hlater op hop

/-! ### Where every place can be read -/

theorem applyPatchOps_blockEdits {p : ContentBlock}
    (hp : IsBlock p) (hblock : IsBlock block)
    (hi : getStreamIndex block = some i) (hs : DistinctIndices s.next)
    (hat : blockAt s.next (some i) = some p) (hedits : diffContentBlocks (some p) block = some edits)
    (hread : ∀ path, ChangedAt (some (.obj p)) (.obj block) path → ReadablePlace i path) :
    ∃ s', (edits.map (renderEdit (blockPath i))).foldlM applyPatchOp s = some s' ∧
      DistinctIndices s'.next ∧
      ∀ k, blockAt s'.next k = if k = some i then some block else blockAt s.next k := by
  have happly := applyEdits_diffContentBlocks hp.canonical hblock.canonical hedits
  have hplaces : ∀ e ∈ edits, ReadablePlace i e.1 := fun e he =>
    hread e.1 ((exists_mem_diffContentBlocks hblock hedits e.1).mp ⟨e, he, rfl⟩)
  cases edits with
  | nil =>
    -- nothing changes, so the index is not read either
    rw [applyEdits_nil, Option.some.injEq] at happly
    subst happly
    refine ⟨s, rfl, hs, fun k => ?_⟩
    split
    · next hk => rw [hk, hat]
    · rfl
  | cons e rest =>
    obtain ⟨n, rfl⟩ := (hplaces e mem_cons_self).1
    have hpi : getStreamIndex p = some (n : Rat) := key_of_lookup getStreamIndex hat
    obtain ⟨s', hfold, hset⟩ := applyPatchOps_renderEdits hs hat (fun e he => (hplaces e he).2)
      (keepsIndex_of_mem_diffContentBlocks hpi hi hedits) happly
    exact ⟨s', hfold, hset.distinct, hset.lookup⟩

theorem applyPatchOps_contentDiff (hprev : ∀ b ∈ prev, IsBlock b) :
    ∀ (next : List ContentBlock) {ops : List RealtimePatchOperation} {s : PatchBlocks},
      (∀ b ∈ next, IsBlock b ∧ ∃ i, getStreamIndex b = some i) → DistinctIndices next →
      contentDiff prev next = some ops → ChangesReadable prev next → DistinctIndices s.next →
      (∀ b ∈ next, blockAt s.next (getStreamIndex b) = blockAt prev (getStreamIndex b)) →
      ∃ s', ops.foldlM applyPatchOp s = some s' ∧ DistinctIndices s'.next ∧
        ∀ k, blockAt s'.next k = (blockAt next k <|> blockAt s.next k) := by
  intro next
  induction next with
  | nil =>
    intro ops s _ _ hops _ hs _
    rw [contentDiff, Option.some.injEq] at hops
    subst hops
    exact ⟨s, rfl, hs, fun k => rfl⟩
  | cons block rest ih =>
    intro ops s hnext hdistinct hops hread hs hheld
    obtain ⟨edits, later, hedits, hlater, rfl⟩ := contentDiff_cons hops
    obtain ⟨hblock, i, hi⟩ := hnext block mem_cons_self
    obtain ⟨hfresh, hdistinct'⟩ := hdistinct.cons
    have hheldBlock := hheld block mem_cons_self
    have hreadBlock := hread block mem_cons_self i hi
    unfold BlockChangedAt at hreadBlock
    have hindex : streamIndexOr block 0 = i := by simp [streamIndexOr, hi]
    rw [hi] at hedits hheldBlock hreadBlock
    rw [hindex]
    cases hp : blockAt prev (some i) with
    | none =>
      rw [hp] at hedits
      cases hedits
    | some p =>
      rw [hp] at hedits hheldBlock hreadBlock
      obtain ⟨mid, hmid, hmidDistinct, hmidAt⟩ := applyPatchOps_blockEdits
        (hprev p (mem_of_lookup getStreamIndex hp)) hblock hi hs hheldBlock hedits hreadBlock
      -- the other blocks are still the ones of `prev`
      have hmidHeld : ∀ b ∈ rest, blockAt mid.next (getStreamIndex b) = blockAt prev (getStreamIndex b) := by
        intro b hb
        rw [hmidAt, if_neg (hi ▸ hfresh b hb)]
        exact hheld b (mem_cons_of_mem _ hb)
      obtain ⟨s', hfold, hs', hat⟩ := ih (fun b hb => hnext b (mem_cons_of_mem _ hb)) hdistinct' hlater
        (fun b hb => hread b (mem_cons_of_mem _ hb)) hmidDistinct hmidHeld
      refine ⟨s', ?_, hs', ?_⟩
      · rw [foldlM_append, bind_eq_bind, hmid]
        exact hfold
      · intro k
        rw [hat, hmidAt]
        unfold blockAt
        rw [KeyedList.lookup_cons, hi]
        by_cases hk : k = some i
        · have hnone : KeyedList.lookup getStreamIndex rest k = none := by
            rw [KeyedList.lookup_eq_none_iff]
            intro b hb
            rw [hk, ← hi]
            exact hfresh b hb
          rw [if_pos hk, if_pos hk.symm, hnone]
          rfl
        · rw [if_neg hk, if_neg (Ne.symm hk)]

/-! ### Where one place cannot be read -/

/-- The value at a place of the client's block with an index. -/
def clientValue (blocks : List ContentBlock) (i : Rat) (path : List String) : Option Json :=
  valueBelow ((blockAt blocks (some i)).map Json.obj) path

/-- What the client keeps while it applies the operations: the indices it has,
    and the value at a place that it cannot read. -/
structure Untouched (i : Rat) (path : List String) (s s' : PatchBlocks) : Prop where
  distinct : DistinctIndices s'.next
  indices  : ∀ k, (blockAt s'.next k).isSome = (blockAt s.next k).isSome
  value    : clientValue s'.next i path = clientValue s.next i path

theorem Untouched.trans {mid : PatchBlocks}
    (h : Untouched i path s mid) (h' : Untouched i path mid s') : Untouched i path s s' where
  distinct := h'.distinct
  indices := fun k => (h'.indices k).trans (h.indices k)
  value := h'.value.trans h.value

theorem writeAtBlockSubpath_some {write : ContentBlock → List String → Option ContentBlock}
    {blocks' : List ContentBlock}
    (hs : DistinctIndices blocks) (hheld : (blockAt blocks (some j)).isSome = true)
    (hreadable : Readable segments)
    (h : writeAtBlockSubpath write blocks j (JsonPointer.encode segments) = some blocks')
    (hkeeps : ∀ p p', getStreamIndex p = some j → write p segments = some p' → getStreamIndex p' = some j) :
    ∃ p p', blockAt blocks (some j) = some p ∧ write p segments = some p' ∧ DistinctIndices blocks' ∧
      ∀ k, blockAt blocks' k = if k = some j then some p' else blockAt blocks k := by
  obtain ⟨p, hp⟩ := isSome_iff_exists.mp hheld
  unfold writeAtBlockSubpath at h
  rw [findBlockByStreamIndex_eq, JsonPointer.decode_encode hreadable.1] at h
  cases hpos : position getStreamIndex blocks (some j) with
  | none =>
    have hnone : blockAt blocks (some j) = none :=
      (position_eq_none_iff getStreamIndex blocks _).mp hpos
    rw [hp] at hnone
    cases hnone
  | some n =>
    have hget : blocks[n]? = some p := (getElem?_position getStreamIndex hpos).trans hp
    simp only [hpos, hget, bind_some, map_eq_some_iff] at h
    obtain ⟨p', hwrite, rfl⟩ := h
    have hp' := hkeeps p p' (key_of_lookup getStreamIndex hp) hwrite
    obtain ⟨hdistinct, hlookup⟩ := lookup_set getStreamIndex hs hpos hp'
    exact ⟨p, p', hp, hwrite, hdistinct, hlookup⟩

theorem writeAt_of_applyPatchOp {n : Nat}
    (hreadable : Readable e.1) (h : applyPatchOp s (renderEdit (blockPath n) e) = some s') :
    writeAtBlockSubpath (fun block segments => applyEdit block (segments, e.2)) s.next n
      (JsonPointer.encode e.1) = some s'.next := by
  obtain ⟨segments, edit⟩ := e
  cases edit with
  | append suffix =>
    have hop : applyPatchOp s (.append (joinPointerPath (blockPath n) segments) (.str suffix)) = some s' := h
    unfold applyPatchOp appendPatchStreamValue at hop
    simp only [matchBlockSubPath_joinPointerPath n hreadable, bind_some] at hop
    obtain ⟨next, hwrite, rfl⟩ := map_eq_some_iff.mp hop
    exact hwrite
  | replace v =>
    have hop : applyPatchOp s (.replace (joinPointerPath (blockPath n) segments) v) = some s' := h
    unfold applyPatchOp at hop
    simp only [matchBlockSubPath_joinPointerPath n hreadable] at hop
    obtain ⟨next, hwrite, rfl⟩ := map_eq_some_iff.mp hop
    exact hwrite

theorem applyPatchOp_of_not_readable (hunread : ¬ ReadablePlace j e.1) (hne : e.1 ≠ [])
    (h : applyPatchOp s (renderEdit (blockPath j) e) = some s') : s' = s := by
  obtain ⟨segments, edit⟩ := e
  have hsub : matchBlockSubPath (joinPointerPath (blockPath j) segments) = none :=
    matchBlockSubPath_of_not_readable hunread
  have hblock : matchBlockPath (joinPointerPath (blockPath j) segments) = none :=
    matchBlockPath_joinPointerPath j hne
  cases edit with
  | append suffix =>
    have hop : applyPatchOp s (.append (joinPointerPath (blockPath j) segments) (.str suffix)) = some s' := h
    simp [applyPatchOp, appendPatchStreamValue, hsub] at hop
  | replace v =>
    have hop : applyPatchOp s (.replace (joinPointerPath (blockPath j) segments) v) = some s' := h
    unfold applyPatchOp replaceBlock at hop
    simp only [hsub, hblock, Option.some.injEq] at hop
    exact hop.symm

theorem exists_modify_of_applyEdit {block' : ContentBlock} {edit : Edit}
    (h : applyEdit block (path, edit) = some block') :
    ∃ change, JsonPointer.modify change block path = some block' := by
  cases edit with
  | append suffix => exact ⟨_, h⟩
  | replace v => exact ⟨_, h⟩

theorem untouched_applyPatchOp (hpath : ¬ ReadablePlace i path) (hne : e.1 ≠ [])
    (hkeeps : KeepsIndex e.1) (hapart : j = i → e.1 ≠ path → ¬ e.1 <+: path ∧ ¬ path <+: e.1)
    (hs : DistinctIndices s.next) (hheld : (blockAt s.next (some j)).isSome = true)
    (h : applyPatchOp s (renderEdit (blockPath j) e) = some s') : Untouched i path s s' := by
  by_cases hread : ReadablePlace j e.1
  · obtain ⟨⟨n, rfl⟩, hreadable⟩ := hread
    obtain ⟨p, p', hp, hwrite, hdistinct, hat⟩ := writeAtBlockSubpath_some hs hheld hreadable
      (writeAt_of_applyPatchOp hreadable h)
      (fun p p' hp hwrite => (getStreamIndex_applyEdit hkeeps hwrite).trans hp)
    refine ⟨hdistinct, ?_, ?_⟩
    · intro k
      rw [hat]
      split
      · next hk => rw [hk, hp]; rfl
      · rfl
    · unfold clientValue
      rw [hat]
      split
      · next hk =>
        -- the same block, but beside the place
        have hin : (n : Rat) = i := (Option.some.inj hk).symm
        have hother : e.1 ≠ path := by
          rintro rfl
          exact hpath ⟨⟨n, hin.symm⟩, hreadable⟩
        obtain ⟨change, hmodify⟩ := exists_modify_of_applyEdit hwrite
        rw [hk, hp]
        exact at?_modify hmodify (hapart hin hother)
      · rfl
  · rw [applyPatchOp_of_not_readable hread hne h]
    exact ⟨hs, fun _ => rfl, rfl⟩

theorem untouched_blockEdits (hpath : ¬ ReadablePlace i path)
    (hne : ∀ e ∈ edits, e.1 ≠ []) (hkeeps : ∀ e ∈ edits, KeepsIndex e.1)
    (hapart : ∀ e ∈ edits, j = i → e.1 ≠ path → ¬ e.1 <+: path ∧ ¬ path <+: e.1)
    (hs : DistinctIndices s.next) (hheld : (blockAt s.next (some j)).isSome = true)
    (h : (edits.map (renderEdit (blockPath j))).foldlM applyPatchOp s = some s') :
    Untouched i path s s' := by
  induction edits generalizing s with
  | nil =>
    obtain rfl : s = s' := Option.some.inj h
    exact ⟨hs, fun _ => rfl, rfl⟩
  | cons e rest ih =>
    rw [map_cons, foldlM_cons, bind_eq_bind, bind_eq_some_iff] at h
    obtain ⟨mid, hop, hrest⟩ := h
    have hfirst := untouched_applyPatchOp hpath (hne e mem_cons_self) (hkeeps e mem_cons_self)
      (hapart e mem_cons_self) hs hheld hop
    refine hfirst.trans (ih (fun e' he' => hne e' (mem_cons_of_mem _ he'))
      (fun e' he' => hkeeps e' (mem_cons_of_mem _ he'))
      (fun e' he' => hapart e' (mem_cons_of_mem _ he')) hfirst.distinct ?_ hrest)
    rw [hfirst.indices]
    exact hheld

theorem untouched_contentDiff (hpath : ¬ ReadablePlace i path) :
    ∀ (next : List ContentBlock) {ops : List RealtimePatchOperation} {s s' : PatchBlocks},
      (∀ b ∈ next, IsBlock b ∧ ∃ i, getStreamIndex b = some i) →
      (∀ b ∈ next, getStreamIndex b = some i → BlockChangedAt prev b path) →
      contentDiff prev next = some ops → DistinctIndices s.next →
      (∀ b ∈ next, (blockAt s.next (getStreamIndex b)).isSome = true) →
      ops.foldlM applyPatchOp s = some s' → Untouched i path s s' := by
  intro next
  induction next with
  | nil =>
    intro ops s s' _ _ hops hs _ h
    rw [contentDiff, Option.some.injEq] at hops
    subst hops
    obtain rfl : s = s' := Option.some.inj h
    exact ⟨hs, fun _ => rfl, rfl⟩
  | cons block rest ih =>
    intro ops s s' hnext hchanged hops hs hheld h
    obtain ⟨edits, later, hedits, hlater, rfl⟩ := contentDiff_cons hops
    obtain ⟨hblock, j, hj⟩ := hnext block mem_cons_self
    have hindex : streamIndexOr block 0 = j := by simp [streamIndexOr, hj]
    have hheldBlock := hheld block mem_cons_self
    have hchangedBlock := hchanged block mem_cons_self
    unfold BlockChangedAt at hchangedBlock
    rw [hj] at hedits hheldBlock hchangedBlock
    rw [foldlM_append, bind_eq_bind, bind_eq_some_iff, hindex] at h
    obtain ⟨mid, hmid, hrest⟩ := h
    cases hp : blockAt prev (some j) with
    | none =>
      rw [hp] at hedits
      cases hedits
    | some p =>
      rw [hp] at hedits hchangedBlock
      have hpj : getStreamIndex p = some j := key_of_lookup getStreamIndex hp
      have hplaces : ∀ e ∈ edits, ChangedAt (some (.obj p)) (.obj block) e.1 := fun e he =>
        (exists_mem_diffContentBlocks hblock hedits e.1).mp ⟨e, he, rfl⟩
      have hkeeps := keepsIndex_of_mem_diffContentBlocks hpj hj hedits
      have hfirst := untouched_blockEdits hpath (fun e he => (hkeeps e he).1) hkeeps
        (fun e he hji hne => (hplaces e he).apart (hchangedBlock (by rw [hji])) hne) hs hheldBlock hmid
      refine hfirst.trans (ih (fun b hb => hnext b (mem_cons_of_mem _ hb))
        (fun b hb => hchanged b (mem_cons_of_mem _ hb)) hlater hfirst.distinct ?_ hrest)
      intro b hb
      rw [hfirst.indices]
      exact hheld b (mem_cons_of_mem _ hb)

/-! ### The round trip -/

theorem blockAt_sortBlocksByStreamIndex (h : DistinctIndices blocks) (k : Option Rat) :
    DistinctIndices (sortBlocksByStreamIndex blocks) ∧
      blockAt (sortBlocksByStreamIndex blocks) k = blockAt blocks k := by
  have hperm : (sortBlocksByStreamIndex blocks).Perm blocks := perm_insertionSort _ _
  have hdistinct : DistinctIndices (sortBlocksByStreamIndex blocks) := by
    unfold DistinctIndices KeyedList.Distinct at *
    exact ((hperm.map getStreamIndex).nodup_iff).mpr h
  refine ⟨hdistinct, ?_⟩
  apply ext
  intro b
  unfold blockAt
  rw [KeyedList.lookup_eq_some_iff getStreamIndex hdistinct, KeyedList.lookup_eq_some_iff getStreamIndex h,
    hperm.mem_iff]

theorem sortBlocksByStreamIndex_congr {next : List ContentBlock} (hblocks : DistinctIndices blocks)
    (hnext : DistinctIndices next) (hindices : ∀ b ∈ next, ∃ i, getStreamIndex b = some i)
    (h : ∀ k, blockAt blocks k = blockAt next k) :
    sortBlocksByStreamIndex blocks = sortBlocksByStreamIndex next := by
  obtain ⟨hsorted, -⟩ := blockAt_sortBlocksByStreamIndex hnext none
  refine insertionSort_eq_of_lookup getStreamIndex hblocks hsorted
    (pairwise_insertionSort _ _) ?_ fun k => ?_
  · intro a ha b hb hab hba
    have hmem : ∀ c ∈ sortBlocksByStreamIndex next, c ∈ next := fun c hc =>
      (mem_insertionSort _).mp hc
    obtain ⟨i, hi⟩ := hindices a (hmem a ha)
    obtain ⟨j, hj⟩ := hindices b (hmem b hb)
    unfold streamIndexLe at hab hba
    rw [hi, hj] at hab hba
    have hij : i ≤ j := by simpa using hab
    have hji : j ≤ i := by simpa using hba
    rw [hi, hj, le_antisymm hij hji]
  · exact (h k).trans (blockAt_sortBlocksByStreamIndex hnext k).2.symm

/-- The client makes the next content of the compacted operations exactly where
    it can read every place at which the contents differ. -/
theorem diff_round_trip_iff {prev next : List ContentBlock} {ops : List RealtimePatchOperation}
    (hpaired : Paired prev next) (hops : contentDiff prev next = some ops)
    (event : SessionStreamEvent) (now : Int) (tables : PatchDelta) {appendPath : Option String}
    (hcursor : Follows (cursorPath (startCursor event (pruneExpired now tables))) appendPath) :
    Yields prev (compactAppendPatchOps event now ops tables).1 appendPath next ↔
      ChangesReadable prev next := by
  -- a client that knows the cursor reads the operations as they were meant
  have hread := (readAppends_of_follows now (namesPath_contentDiff hops) hcursor).1
  have hcompacted : applyPatchOpsToBlocks prev (compactAppendPatchOps event now ops tables).1 appendPath =
      applyPatchOpsToBlocks prev ops appendPath := by
    unfold applyPatchOpsToBlocks
    rw [show (compactAppendPatchOps event now ops tables).1 =
      (compactLoop now (startCursor event (pruneExpired now tables)) ops).1 from rfl,
      foldlM_of_readAppends hread]
  have hheld : ∀ b ∈ next, (blockAt prev (getStreamIndex b)).isSome = true := by
    intro b hb
    rw [hpaired.pairs, Option.isSome_iff_exists]
    exact ⟨b, (KeyedList.lookup_eq_some_iff getStreamIndex hpaired.nextDistinct _ b).mpr ⟨hb, rfl⟩⟩
  unfold Yields
  rw [hcompacted]
  constructor
  · rintro ⟨s, happly, hs⟩ block hblock i hi path hchanged
    by_contra hpath
    obtain ⟨s', hfold, rfl⟩ := Option.map_eq_some_iff.mp happly
    have hown : ∀ b ∈ next, getStreamIndex b = some i → BlockChangedAt prev b path := by
      intro b hb hbi
      have hsame := (KeyedList.lookup_eq_some_iff getStreamIndex hpaired.nextDistinct (some i) b).mpr ⟨hb, hbi⟩
      rw [(KeyedList.lookup_eq_some_iff getStreamIndex hpaired.nextDistinct (some i) block).mpr
        ⟨hblock, hi⟩, Option.some.injEq] at hsame
      rw [← hsame]
      exact hchanged
    have huntouched := untouched_contentDiff hpath next hpaired.nextBlocks hown hops hpaired.prevDistinct
      hheld hfold
    -- the value of the old block stands where the new one should
    have hat : blockAt s'.next (some i) = some block := by
      rw [← (blockAt_sortBlocksByStreamIndex huntouched.distinct (some i)).2]
      rw [show sortBlocksByStreamIndex s'.next = sortBlocksByStreamIndex next from hs]
      rw [(blockAt_sortBlocksByStreamIndex hpaired.nextDistinct (some i)).2]
      exact (KeyedList.lookup_eq_some_iff getStreamIndex hpaired.nextDistinct _ block).mpr ⟨hblock, hi⟩
    have hvalue := huntouched.value
    unfold clientValue at hvalue
    rw [hat] at hvalue
    unfold BlockChangedAt at hchanged
    rw [hi] at hchanged
    exact hchanged.value_ne hvalue.symm
  · intro hread
    obtain ⟨s', hfold, hs', hat⟩ := applyPatchOps_contentDiff hpaired.prevBlocks next
      (s := { next := prev, anchorUserMessageId := none, appendPath := appendPath })
      hpaired.nextBlocks hpaired.nextDistinct hops hread hpaired.prevDistinct fun b hb => rfl
    refine ⟨{ s' with next := sortBlocksByStreamIndex s'.next }, ?_, ?_⟩
    · unfold applyPatchOpsToBlocks
      rw [hfold]
      rfl
    · refine sortBlocksByStreamIndex_congr hs' hpaired.nextDistinct (fun b hb => (hpaired.nextBlocks b hb).2)
        fun k => ?_
      rw [hat]
      -- `prev` has no index that `next` lacks
      cases hk : blockAt next k with
      | some b => rfl
      | none =>
        have hpair := hpaired.pairs k
        rw [hk, Option.isSome_none, Option.isSome_eq_false_iff, Option.isNone_iff_eq_none] at hpair
        exact hpair

/-! ## A tool call with one input -/

theorem noProto_obj {fs : Fields} (hfs : Fields.get? fs "__proto__" = none)
    (h : ∀ k v, Fields.get? fs k = some v → NoProto v) : NoProto (.obj fs) := by
  intro path
  cases path with
  | nil => rw [nil_append, at?_cons, get?_obj, hfs, bind_none]
  | cons k path =>
    rw [cons_append, at?_cons, get?_obj]
    cases hk : Fields.get? fs k with
    | none => rfl
    | some v => exact h k v hk path

theorem noProto_leaf {v : Json} (h : v.fields = []) : NoProto v := by
  intro path
  cases path with
  | nil => rw [nil_append, at?_cons, Json.get?, h]; rfl
  | cons k path => rw [cons_append, at?_cons, Json.get?, h]; rfl

/-- A call of a tool that writes, with one text as its input. -/
def writeCall (key text : String) : ContentBlock :=
  [("_meta", .obj [("streamIndex", .num 0)]), ("id", .str "call"), ("input", .obj [(key, .str text)]),
    ("name", .str "write"), ("type", .str "tool_use")]

theorem isBlock_writeCall (key text : String) : IsBlock (writeCall key text) := by
  refine ⟨?_, ⟨"tool_use", rfl⟩, ?_⟩
  · simp only [writeCall, Json.Canonical, Json.CanonicalFields, and_true, Fields.Sorted, pairwise_cons,
      mem_cons, not_mem_nil, or_false, forall_eq_or_imp, forall_eq, List.Pairwise.nil,
      IsEmpty.forall_iff, implies_true]
    decide +kernel
  · intro v hv
    obtain rfl : Json.obj [("streamIndex", .num 0)] = v := Option.some.inj hv
    rfl

theorem noProto_writeCall (hkey : key ≠ "__proto__") (text : String) :
    NoProto (.obj (writeCall key text)) := by
  have hinput : NoProto (.obj [(key, .str text)]) := by
    apply noProto_obj
    · simp [get?_cons, Ne.symm hkey]
    · intro k v hk
      rw [get?_cons] at hk
      split at hk
      · rw [← Option.some.inj hk]
        exact noProto_leaf rfl
      · cases hk
  apply noProto_obj rfl
  intro k v hk
  have hmem := mem_of_get? hk
  simp only [writeCall, mem_cons, Prod.mk.injEq, not_mem_nil, or_false] at hmem
  rcases hmem with ⟨-, rfl⟩ | ⟨-, rfl⟩ | ⟨-, rfl⟩ | ⟨-, rfl⟩ | ⟨-, rfl⟩
  · apply noProto_obj rfl
    intro k v hk
    obtain ⟨-, rfl⟩ : k = "streamIndex" ∧ v = .num 0 := by simpa using mem_of_get? hk
    exact noProto_leaf rfl
  · exact noProto_leaf rfl
  · exact hinput
  · exact noProto_leaf rfl
  · exact noProto_leaf rfl

theorem paired_writeCall (hkey : key ≠ "__proto__") (text text' : String) :
    Paired [writeCall key text] [writeCall key text'] := by
  have hindex : ∀ text : String, getStreamIndex (writeCall key text) = some 0 := fun _ => rfl
  constructor
  · simpa using isBlock_writeCall key text
  · simpa using ⟨isBlock_writeCall key text', 0, hindex text'⟩
  · simp [DistinctIndices, KeyedList.Distinct]
  · simp [DistinctIndices, KeyedList.Distinct]
  · intro k
    unfold blockAt
    rw [KeyedList.lookup_cons, KeyedList.lookup_cons, hindex, hindex]
    split <;> rfl
  · simpa using noProto_writeCall hkey text'

def continuingEvent : SessionStreamEvent :=
  { spaceId := "space", sessionId := "session", turnId := none, messageId := none
    messageOrdinal := some 0, sourceMessageId := none, anchorUserMessageId := none, seq := 2, baseSeq := 1
    content := [], snapshotContent := none, replaceContent := false }

/-- A key with a slash and a tilde, behind which the text grows. -/
theorem diff_round_trip_escaped_key :
    Yields [writeCall "a/~b" "x"]
      (compactAppendPatchOps continuingEvent 0
        [.append "/message/content/blocks/0/input/a~1~0b" (.str "y")] PatchDelta.empty).1 none
      [writeCall "a/~b" "xy"] := by
  have hpaired : Paired [writeCall "a/~b" "x"] [writeCall "a/~b" "xy"] := paired_writeCall (by decide) "x" "xy"
  refine (diff_round_trip_iff hpaired (by decide +kernel) continuingEvent 0 PatchDelta.empty (.inl rfl)).mpr ?_
  intro block hblock i hi path hchanged
  obtain rfl := List.mem_singleton.mp hblock
  obtain rfl : (0 : Rat) = i := Option.some.inj hi
  have hedits : diffContentBlocks (some (writeCall "a/~b" "x")) (writeCall "a/~b" "xy") =
      some [(["input", "a/~b"], .append "y")] := by decide +kernel
  obtain ⟨e, he, rfl⟩ := (exists_mem_diffContentBlocks (isBlock_writeCall _ _) hedits path).mpr hchanged
  obtain rfl := List.mem_singleton.mp he
  exact ⟨⟨0, rfl⟩, by decide +kernel⟩

/-- Where the key has a line break, the path of the append does not match the
    client's pattern, and the client refuses the patch. -/
theorem diff_round_trip_line_break :
    Paired [writeCall "a\nb" "x"] [writeCall "a\nb" "xy"] ∧
      contentDiff [writeCall "a\nb" "x"] [writeCall "a\nb" "xy"] =
        some [.append "/message/content/blocks/0/input/a\nb" (.str "y")] ∧
      ¬ Yields [writeCall "a\nb" "x"] [.append "/message/content/blocks/0/input/a\nb" (.str "y")] none
        [writeCall "a\nb" "xy"] := by
  refine ⟨paired_writeCall (by decide) "x" "xy", by decide +kernel, ?_⟩
  rintro ⟨s, happly, -⟩
  have hnone : applyPatchOpsToBlocks [writeCall "a\nb" "x"]
      [.append "/message/content/blocks/0/input/a\nb" (.str "y")] none = none := by decide +kernel
  rw [hnone] at happly
  cases happly

end Cohub.Stream
