import Cohub.Stream.RuntimeStream

/-! # The tables of the patch builder

    What the patch builder has stored while it publishes the messages of one
    stream: every block of the last patch under a key of its message, its index
    and its identity.  A patch built from these tables turns what a client has
    into the content of the event as long as the stored blocks are the client's
    (`Fits`). -/

namespace Cohub.Stream

open Cohub.Realtime List Option OrderedMap

/-! ## Keys of the tables -/

/-- What the keys of an identity's messages start with. -/
def cursorPrefix (identity : StreamIdentity) : String :=
  identity.sessionId ++ ":" ++ (if isBlank identity.turnId then "" else identity.turnId ++ ":") ++
    ("turn:" ++ identity.turnId ++ ":assistant:")

def messageKeyOf (identity : StreamIdentity) (ordinal : Nat) : String :=
  cursorPrefix identity ++ toString ordinal

def blockKey (identity : StreamIdentity) (ordinal i : Nat) (blockIdentity : String) : String :=
  messageKeyOf identity ordinal ++ ":" ++ toString i ++ ":" ++ blockIdentity

theorem colon_notMem_toString (n : Nat) : ':' ∉ (toString n).toList := by
  intro h
  have hdigit := isDigit_of_mem_toString h
  revert hdigit
  decide

variable {m n : Nat} {identity : StreamIdentity} {s s' : PatchDelta}

theorem toString_injective (h : (toString m).toList = (toString n).toList) : m = n := by
  rw [toList_toString, toList_toString] at h
  have hnum := congrArg (fun digits => Nat.ofDigitChars 10 digits 0) h
  simpa only [Nat.ofDigitChars_ten_toDigits] using hnum

theorem toString_colon_injective {r r' : List Char}
    (h : (toString m).toList ++ ':' :: r = (toString n).toList ++ ':' :: r') : m = n ∧ r = r' := by
  have htake := congrArg (List.takeWhile (· ≠ ':')) h
  have hm : ∀ c ∈ (toString m).toList, decide (c ≠ ':') = true :=
    fun c hc => decide_eq_true fun heq => colon_notMem_toString m (heq ▸ hc)
  have hn : ∀ c ∈ (toString n).toList, decide (c ≠ ':') = true :=
    fun c hc => decide_eq_true fun heq => colon_notMem_toString n (heq ▸ hc)
  rw [takeWhile_append_of_pos hm, takeWhile_append_of_pos hn] at htake
  have hmn : m = n := toString_injective (by simpa using htake)
  subst hmn
  have htail := append_cancel_left h
  exact ⟨rfl, (List.cons.inj htail).2⟩

theorem messageKeyOf_injective (h : messageKeyOf identity m = messageKeyOf identity n) : m = n := by
  have hlist := congrArg String.toList h
  unfold messageKeyOf at hlist
  rw [String.toList_append, String.toList_append] at hlist
  exact toString_injective (append_cancel_left hlist)

variable {i : Nat}

theorem blockKey_injective {j : Nat} {s t : String}
    (h : blockKey identity m i s = blockKey identity n j t) : m = n ∧ i = j ∧ s = t := by
  have hlist := congrArg String.toList h
  unfold blockKey messageKeyOf at hlist
  simp only [String.toList_append, append_assoc] at hlist
  have hcolon : ":".toList = [':'] := rfl
  rw [hcolon] at hlist
  obtain ⟨hmn, htail⟩ := toString_colon_injective (append_cancel_left hlist)
  obtain ⟨hij, hst⟩ := toString_colon_injective htail
  exact ⟨hmn, hij, String.toList_inj.mp hst⟩

/-- An event of a message of the stream, with its whole content. -/
structure OfMessage (identity : StreamIdentity) (ordinal : Nat) (event : SessionStreamEvent) :
    Prop where
  key      : patchCursorKey event = messageKeyOf identity ordinal
  snapshot : event.snapshotContent = some event.content
  content  : IsContent event.content

theorem patchCursorKey_eventOf (identity : StreamIdentity) (job : PublishJob) (sequence : Nat)
    (resync : Bool) :
    patchCursorKey (RuntimeStream.eventOf identity job sequence resync) =
      messageKeyOf identity job.ordinal := by
  have hmessage : getNonEmptyString
      (some ("turn:" ++ identity.turnId ++ ":assistant:" ++ toString job.ordinal)) =
        some ("turn:" ++ identity.turnId ++ ":assistant:" ++ toString job.ordinal) := by
    apply getNonEmptyString_of_not_blank
    unfold isBlank
    rw [String.toList_append, String.toList_append, String.toList_append]
    rfl
  unfold patchCursorKey getSessionTurnPatchStreamKey messageKey messageKeyOf cursorPrefix
  simp only [RuntimeStream.eventOf, SessionStreamEvent.envelope, hmessage, orElse_eq_orElse, orElse_some]
  by_cases hblank : isBlank identity.turnId = true
  · have hturn : getNonEmptyString (some identity.turnId) = none := by
      simp [getNonEmptyString, hblank]
    rw [hturn, if_pos hblank]
    simp [String.append_assoc]
  · have hturn := getNonEmptyString_of_not_blank (by simpa using hblank)
    rw [hturn, if_neg hblank]
    simp [String.append_assoc]

theorem OfMessage.of_job {job : PublishJob} (hjob : IsContent job.content)
    (schema : Bool) (sequence : Nat) (resync : Bool) :
    OfMessage identity job.ordinal
      (RuntimeSystem.received schema (RuntimeStream.eventOf identity job sequence resync)) :=
  ⟨patchCursorKey_eventOf identity job sequence resync, rfl, hjob⟩

/-! ## The tables -/

def PatchDelta.store (s : PatchDelta) (key : String) (now : Int) (block : ContentBlock) :
    PatchDelta :=
  let snapshot : StreamBlockSnapshot := { lastSeenAt := now, block := block }
  { s with streamBlockSnapshots := s.streamBlockSnapshots.set key snapshot }

theorem get?_store (s : PatchDelta) (key key' : String) (now : Int) (block : ContentBlock) :
    (s.store key now block).streamBlockSnapshots.get? key' =
      if key' = key then some { lastSeenAt := now, block := block }
      else s.streamBlockSnapshots.get? key' :=
  get?_set _ _ _ _

def storedBlock (s : PatchDelta) (key : String) : Option ContentBlock :=
  (s.streamBlockSnapshots.get? key).map (·.block)

/-- Every stored block is under the key of its index and identity. -/
def Keyed (identity : StreamIdentity) (s : PatchDelta) : Prop :=
  ∀ e ∈ s.streamBlockSnapshots.entries, ∃ ordinal i : Nat,
    e.1 = blockKey identity ordinal i (blockSnapshotIdentity e.2.block) ∧
      getStreamIndex e.2.block = some (i : Rat) ∧ IsBlock e.2.block

theorem keyed_empty (identity : StreamIdentity) : Keyed identity PatchDelta.empty := nofun

theorem Keyed.stored (h : Keyed identity s) {ordinal : Nat} {blockIdentity : String}
    {p : ContentBlock} (hp : storedBlock s (blockKey identity ordinal i blockIdentity) = some p) :
    getStreamIndex p = some (i : Rat) ∧ IsBlock p ∧ blockSnapshotIdentity p = blockIdentity := by
  obtain ⟨snap, hget, rfl⟩ := map_eq_some_iff.mp hp
  obtain ⟨ordinal', i', hkey, hindex, hblock⟩ :=
    h _ ((s.streamBlockSnapshots.mem_entries_iff _ _).mpr hget)
  obtain ⟨-, rfl, hsame⟩ := blockKey_injective hkey
  exact ⟨hindex, hblock, hsame.symm⟩

/-- Tables from which entries were dropped. -/
structure Drops (s s' : PatchDelta) : Prop where
  entries : ∀ e ∈ s'.streamBlockSnapshots.entries, e ∈ s.streamBlockSnapshots.entries
  paths   : ∀ key, Follows (pathOf s' key) (pathOf s key)

theorem Drops.refl (s : PatchDelta) : Drops s s := ⟨fun _ he => he, fun _ => .inr rfl⟩

theorem Drops.trans {mid : PatchDelta} (h : Drops s mid) (h' : Drops mid s') : Drops s s' :=
  ⟨fun e he => h.entries e (h'.entries e he), fun key => (h.paths key).of_none_or (h'.paths key)⟩

theorem Keyed.drops (h : Keyed identity s) (hdrops : Drops s s') : Keyed identity s' :=
  fun e he => h e (hdrops.entries e he)

theorem Drops.stored (h : Drops s s') (key : String) :
    storedBlock s' key = none ∨ storedBlock s' key = storedBlock s key := by
  unfold storedBlock
  cases hget : s'.streamBlockSnapshots.get? key with
  | none => exact .inl rfl
  | some snap =>
    have hmem := h.entries _ ((s'.streamBlockSnapshots.mem_entries_iff key snap).mpr hget)
    rw [(s.streamBlockSnapshots.mem_entries_iff key snap).mp hmem]
    exact .inr rfl

theorem drops_pruneExpired (now : Int) (s : PatchDelta) : Drops s (pruneExpired now s) :=
  ⟨fun _ he => (mem_filter.mp he).1, pathOf_pruneExpired now s⟩

variable (event : SessionStreamEvent)

theorem drops_keyframePart (s : PatchDelta) : Drops s (keyframePart event s).2 := by
  unfold keyframePart
  split
  · exact ⟨fun _ he => (mem_filter.mp he).1, fun _ => .inr rfl⟩
  · exact Drops.refl s

theorem drops_replacePart (s : PatchDelta) : Drops s (replacePart event s).2 := by
  unfold replacePart
  split
  · refine ⟨fun _ he => (mem_filter.mp he).1, ?_⟩
    intro key
    unfold pathOf
    rw [get?_delete]
    split
    · exact .inl rfl
    · exact .inr rfl
  · exact Drops.refl s

/-- The tables before the loop over the content. -/
def beforeContent (event : SessionStreamEvent) (s : PatchDelta) : PatchDelta :=
  (replacePart event (keyframePart event s).2).2

theorem drops_beforeContent (s : PatchDelta) : Drops s (beforeContent event s) :=
  (drops_keyframePart event s).trans (drops_replacePart event _)

section OneMessage

variable {identity : StreamIdentity} {ordinal : Nat} {event : SessionStreamEvent} {now : Int}
  {block : ContentBlock} {i : Nat}

section

variable (h : OfMessage identity ordinal event)
include h

theorem blockKey_eq (n : Nat) (hi : getStreamIndex block = some (i : Rat)) :
    streamBlockSnapshotKey event (streamIndexOr block n) block =
      blockKey identity ordinal i (blockSnapshotIdentity block) := by
  unfold streamBlockSnapshotKey streamIndexOr blockKey
  rw [hi, h.key, getD_some, numberToString_natCast]

theorem storeBlock_eq (s : PatchDelta) (hblock : block ∈ event.content) (n : Nat)
    (hi : getStreamIndex block = some (i : Rat)) :
    storeBlock event now s block n =
      s.store (blockKey identity ordinal i (blockSnapshotIdentity block)) now block := by
  unfold storeBlock
  simp only [blockKey_eq h n hi]
  rw [h.snapshot]
  simp only [streamIndexOr, hi, getD_some, resolveFullBlockFromSnapshot_eq h.content hblock hi]
  rfl

theorem blockOps_eq (s : PatchDelta) (hblock : block ∈ event.content) (n : Nat)
    (hi : getStreamIndex block = some (i : Rat)) :
    blockOps event s block n =
      blockPatch (storedBlock s (blockKey identity ordinal i (blockSnapshotIdentity block))) i
        block := by
  unfold blockOps blockPatch storedBlock
  simp only [blockKey_eq h n hi]
  rw [h.snapshot]
  simp only [streamIndexOr, hi, getD_some, resolveFullBlockFromSnapshot_eq h.content hblock hi] <;>
    rfl

theorem keyed_storeBlock (hs : Keyed identity s) (hblock : block ∈ event.content) (n : Nat) :
    Keyed identity (storeBlock event now s block n) := by
  obtain ⟨hschema, i, hi⟩ := h.content.blocks block hblock
  rw [storeBlock_eq h s hblock n hi]
  intro e he
  rcases (mem_entries_set _ _ _ e).mp he with rfl | ⟨-, he⟩
  · exact ⟨ordinal, i, rfl, hi, hschema⟩
  · exact hs e he

end

variable {blocks : List (ContentBlock × Nat)}

variable (now) in
theorem get?_contentOps_other (h : OfMessage identity ordinal event)
    (hblocks : ∀ e ∈ blocks, e.1 ∈ event.content)
    (s : PatchDelta) {key : String}
    (hkey : ∀ e ∈ blocks, ∀ i : Nat, getStreamIndex e.1 = some (i : Rat) →
      key ≠ blockKey identity ordinal i (blockSnapshotIdentity e.1)) :
    (contentOps event now s blocks).2.streamBlockSnapshots.get? key =
      s.streamBlockSnapshots.get? key := by
  induction blocks generalizing s with
  | nil => rfl
  | cons e rest ih =>
    have he := hblocks e mem_cons_self
    obtain ⟨-, i, hi⟩ := h.content.blocks e.1 he
    show (contentOps event now (storeBlock event now s e.1 e.2) rest).2.streamBlockSnapshots.get?
      key = _
    rw [ih (fun e' he' => hblocks e' (mem_cons_of_mem _ he')) _
      (fun e' he' => hkey e' (mem_cons_of_mem _ he')), storeBlock_eq h s he e.2 hi, get?_store,
      if_neg (hkey e mem_cons_self i hi)]

variable (now) in
theorem get?_contentOps_own (h : OfMessage identity ordinal event)
    (hblocks : ∀ e ∈ blocks, e.1 ∈ event.content)
    (hdistinct : DistinctIndices (blocks.map Prod.fst)) (s : PatchDelta) :
    ∀ e ∈ blocks, ∀ i : Nat, getStreamIndex e.1 = some (i : Rat) →
      (contentOps event now s blocks).2.streamBlockSnapshots.get?
          (blockKey identity ordinal i (blockSnapshotIdentity e.1)) =
        some { lastSeenAt := now, block := e.1 } := by
  induction blocks generalizing s with
  | nil => nofun
  | cons e₀ rest ih =>
    obtain ⟨hne, hrest⟩ := KeyedList.Distinct.cons getStreamIndex hdistinct
    have hin : ∀ e ∈ rest, e.1 ∈ event.content :=
      fun e he => hblocks e (mem_cons_of_mem _ he)
    intro e he i hi
    show (contentOps event now (storeBlock event now s e₀.1 e₀.2) rest).2.streamBlockSnapshots.get?
      _ = _
    rcases mem_cons.mp he with rfl | he
    · -- the later blocks have other indices
      rw [get?_contentOps_other now h hin, storeBlock_eq h s (hblocks e mem_cons_self) e.2 hi,
        get?_store, if_pos rfl]
      · intro e' he' j hj hkey
        obtain ⟨-, rfl, -⟩ := blockKey_injective hkey
        exact hne e'.1 (List.mem_map_of_mem he') (hj.trans hi.symm)
    · exact ih hin hrest _ e he i hi

theorem keyed_contentOps (h : OfMessage identity ordinal event)
    (hblocks : ∀ e ∈ blocks, e.1 ∈ event.content) (hs : Keyed identity s) :
    Keyed identity (contentOps event now s blocks).2 := by
  induction blocks generalizing s with
  | nil => exact hs
  | cons e rest ih =>
    exact ih (fun e' he' => hblocks e' (mem_cons_of_mem _ he'))
      (keyed_storeBlock h hs (hblocks e mem_cons_self) e.2)

/-! ## The patch at the client -/

variable {d : PatchDelta}

variable (now) in
theorem applyPatchOps_contentOps (h : OfMessage identity ordinal event)
    (hblocks : ∀ e ∈ blocks, e.1 ∈ event.content)
    (hdistinct : DistinctIndices (blocks.map Prod.fst)) (hd : Keyed identity d)
    {s : PatchBlocks} (hs : DistinctIndices s.next)
    (hfits : ∀ e ∈ blocks, ∀ i : Nat, getStreamIndex e.1 = some (i : Rat) →
      Fits (storedBlock d (blockKey identity ordinal i (blockSnapshotIdentity e.1)))
        (blockAt s.next (some (i : Rat))) e.1) :
    ∃ s', (contentOps event now d blocks).1.foldlM applyPatchOp s = some s' ∧
      DistinctIndices s'.next ∧
      ∀ k, blockAt s'.next k = (blockAt (blocks.map Prod.fst) k <|> blockAt s.next k) := by
  induction blocks generalizing d s with
  | nil => exact ⟨s, rfl, hs, fun k => by simp [blockAt, KeyedList.lookup]⟩
  | cons e rest ih =>
    obtain ⟨hne, hrest⟩ := KeyedList.Distinct.cons getStreamIndex hdistinct
    have he := hblocks e mem_cons_self
    have hin : ∀ e ∈ rest, e.1 ∈ event.content :=
      fun e he => hblocks e (mem_cons_of_mem _ he)
    obtain ⟨hschema, i, hi⟩ := h.content.blocks e.1 he
    obtain ⟨mid, hfold, hset⟩ := applyPatchOps_blockPatch hschema hi hs
      (fun p hp => (hd.stored hp).2.1) (hfits e mem_cons_self i hi)
    -- neither the table nor the client changes for the blocks to come
    have hfits' : ∀ e' ∈ rest, ∀ j : Nat, getStreamIndex e'.1 = some (j : Rat) →
        Fits (storedBlock (storeBlock event now d e.1 e.2)
          (blockKey identity ordinal j (blockSnapshotIdentity e'.1)))
          (blockAt mid.next (some (j : Rat))) e'.1 := by
      intro e' he' j hj
      have hij : (j : Rat) ≠ i := by
        intro heq
        exact hne e'.1 (List.mem_map_of_mem he') (by rw [hj, hi, heq])
      have hkey : blockKey identity ordinal j (blockSnapshotIdentity e'.1) ≠
          blockKey identity ordinal i (blockSnapshotIdentity e.1) := by
        intro heq
        obtain ⟨-, hji, -⟩ := blockKey_injective heq
        exact hij (by rw [hji])
      have hstored : storedBlock (storeBlock event now d e.1 e.2)
          (blockKey identity ordinal j (blockSnapshotIdentity e'.1)) =
            storedBlock d (blockKey identity ordinal j (blockSnapshotIdentity e'.1)) := by
        unfold storedBlock
        rw [storeBlock_eq h d he e.2 hi, get?_store, if_neg hkey]
      rw [hstored, hset.lookup, if_neg (by simpa using hij)]
      exact hfits e' (mem_cons_of_mem _ he') j hj
    obtain ⟨s', hfold', hdistinct', hlookup⟩ := ih hin hrest
      (keyed_storeBlock h hd he e.2) hset.distinct hfits'
    refine ⟨s', ?_, hdistinct', ?_⟩
    · show (blockOps event d e.1 e.2 ++ (contentOps event now (storeBlock event now d e.1 e.2)
        rest).1).foldlM applyPatchOp s = _
      rw [foldlM_append, blockOps_eq h d he e.2 hi, hfold]
      exact hfold'
    · intro k
      rw [hlookup, hset.lookup, map_cons]
      show _ = (KeyedList.lookup getStreamIndex (e.1 :: rest.map Prod.fst) k <|> _)
      rw [KeyedList.lookup_cons, hi]
      by_cases hk : k = some (i : Rat)
      · -- no later block has the index
        have hnone : blockAt (rest.map Prod.fst) k = none := by
          rw [hk]
          refine (KeyedList.lookup_eq_none_iff getStreamIndex _ _).mpr ?_
          intro b hb
          rw [← hi]
          exact hne b hb
        rw [hnone, if_pos hk, if_pos hk.symm]
        rfl
      · rw [if_neg hk, if_neg (fun heq => hk heq.symm)]
        rfl

variable {q : Rat}

theorem mem_retainedIndices (h : OfMessage identity ordinal event) (hblock : block ∈ event.content)
    (hi : getStreamIndex block = some q) : q ∈ retainedIndices event := by
  unfold retainedIndices
  rw [h.snapshot, getD_some]
  obtain ⟨n, hn⟩ := getElem?_of_mem hblock
  refine List.mem_map.mpr ⟨(block, n), mem_zipIdx_iff_getElem?.mpr hn, ?_⟩
  simp only [streamIndexOr, hi, getD_some]

theorem of_mem_removedIndices (hd : Keyed identity d)
    (hq : q ∈ removedIndices event d) : (∃ i : Nat, q = i) ∧ q ∉ retainedIndices event := by
  unfold removedIndices at hq
  rw [mem_insertionSort, mem_dedup] at hq
  obtain ⟨e, he, hdropped⟩ := mem_filterMap.mp hq
  obtain ⟨_, i, -, hindex, -⟩ := hd e he
  unfold droppedIndex at hdropped
  simp only [streamIndexOr, hindex, getD_some] at hdropped
  split at hdropped
  · next hnot =>
    rw [← Option.some.inj hdropped]
    exact ⟨⟨i, rfl⟩, hnot.2⟩
  · cases hdropped

section

variable (h : OfMessage identity ordinal event)
include h

variable (now) in
theorem applyPatchOps_patchOps
    (hd : Keyed identity d) {s : PatchBlocks} (hs : DistinctIndices s.next)
    (hfits : ∀ b ∈ event.content, ∀ i : Nat, getStreamIndex b = some (i : Rat) →
      Fits (storedBlock (beforeContent event d)
        (blockKey identity ordinal i (blockSnapshotIdentity b))) (blockAt s.next (some (i : Rat))) b)
    (hdropped : ∀ k, blockAt s.next k ≠ none → blockAt event.content k = none →
      event.replaceContent = true ∧
        ∃ q ∈ removedIndices event (keyframePart event d).2, k = some q) :
    ∃ s', (patchOps event now d).1.foldlM applyPatchOp s = some s' ∧ DistinctIndices s'.next ∧
      ∀ k, blockAt s'.next k = blockAt event.content k := by
  have hcontent : ∀ k, blockAt event.content k ≠ none →
      ¬ ∃ q ∈ removedIndices event (keyframePart event d).2, k = some q := by
    rintro k hk ⟨q, hq, rfl⟩
    obtain ⟨b, hb⟩ := ne_none_iff_exists'.mp hk
    exact (of_mem_removedIndices (hd.drops (drops_keyframePart event d)) hq).2
      (mem_retainedIndices h (KeyedList.mem_of_lookup getStreamIndex hb)
        (KeyedList.key_of_lookup getStreamIndex hb))
  -- what a keyframe starts with
  obtain ⟨s₁, hfold₁, hnext₁⟩ : ∃ s₁, (keyframePart event d).1.foldlM applyPatchOp s = some s₁ ∧
      s₁.next = s.next := by
    unfold keyframePart
    split
    · obtain ⟨anchor, hfold⟩ := applyPatchOps_keyframeOps event s
      exact ⟨_, hfold, rfl⟩
    · exact ⟨s, rfl, rfl⟩
  -- the removals
  obtain ⟨s₂, hfold₂, hdistinct₂, hlookup₂⟩ : ∃ s₂,
      (replacePart event (keyframePart event d).2).1.foldlM applyPatchOp s₁ = some s₂ ∧
        DistinctIndices s₂.next ∧
        ∀ k, blockAt s₂.next k =
          if event.replaceContent = true ∧
              ∃ q ∈ removedIndices event (keyframePart event d).2, k = some q then none
          else blockAt s.next k := by
    unfold replacePart
    split
    · next hreplace =>
      obtain ⟨s₂, hfold, hdistinct, hlookup⟩ := applyPatchOps_removes (s := s₁)
        (fun q hq => (of_mem_removedIndices (hd.drops (drops_keyframePart event d)) hq).1)
        (hnext₁ ▸ hs)
      refine ⟨s₂, hfold, hdistinct, ?_⟩
      intro k
      rw [hlookup, hnext₁]
      simp only [hreplace, true_and]
    · next hreplace =>
      refine ⟨s₁, rfl, hnext₁ ▸ hs, ?_⟩
      intro k
      rw [hnext₁, if_neg (fun hand => hreplace hand.1)]
  have hkept : ∀ k, blockAt event.content k ≠ none → blockAt s₂.next k = blockAt s.next k :=
    fun k hk => by rw [hlookup₂, if_neg (fun hand => hcontent k hk hand.2)]
  -- the blocks
  have hblocks : ∀ e ∈ event.content.zipIdx, e.1 ∈ event.content :=
    fun e he => fst_mem_of_mem_zipIdx he
  have hmap : event.content.zipIdx.map Prod.fst = event.content := zipIdx_map_fst ..
  obtain ⟨s₃, hfold₃, hdistinct₃, hlookup₃⟩ := applyPatchOps_contentOps now h hblocks
    (by rw [hmap]; exact h.content.distinct) (hd.drops (drops_beforeContent event d)) hdistinct₂
    (by
      intro e he i hi
      rw [hkept (some (i : Rat))]
      · exact hfits e.1 (hblocks e he) i hi
      · rw [← hi]
        have hlook := (KeyedList.lookup_eq_some_iff getStreamIndex h.content.distinct
          (getStreamIndex e.1) e.1).mpr ⟨hblocks e he, rfl⟩
        unfold blockAt
        rw [hlook]
        exact nofun)
  refine ⟨s₃, ?_, hdistinct₃, ?_⟩
  · show ((keyframePart event d).1 ++ (replacePart event (keyframePart event d).2).1 ++
      (contentOps event now (beforeContent event d) event.content.zipIdx).1).foldlM applyPatchOp s = _
    rw [foldlM_append, foldlM_append, hfold₁]
    show ((replacePart event (keyframePart event d).2).1.foldlM applyPatchOp s₁).bind _ = _
    rw [hfold₂]
    exact hfold₃
  · intro k
    rw [hlookup₃, hmap]
    cases hk : blockAt event.content k with
    | some b => rfl
    | none =>
      show blockAt s₂.next k = none
      rw [hlookup₂]
      by_cases hheld : blockAt s.next k = none
      · rw [hheld]
        split <;> rfl
      · rw [if_pos (hdropped k hheld hk)]

theorem applyPatchOpsToBlocks_build
    (hd : Keyed identity d) {blocks : List ContentBlock} {path : Option String}
    (hs : DistinctIndices blocks)
    (hfits : ∀ b ∈ event.content, ∀ i : Nat, getStreamIndex b = some (i : Rat) →
      Fits (storedBlock (beforeContent event d)
        (blockKey identity ordinal i (blockSnapshotIdentity b))) (blockAt blocks (some (i : Rat))) b)
    (hdropped : ∀ k, blockAt blocks k ≠ none → blockAt event.content k = none →
      event.replaceContent = true ∧
        ∃ q ∈ removedIndices event (keyframePart event d).2, k = some q)
    (hpath : Follows (cursorPath (compactionStart event now d)) path) :
    ∃ patched,
      applyPatchOpsToBlocks blocks (buildPatchOpsForContentDelta event now d).1 path = some patched ∧
        patched.next = event.content ∧
        Follows (pathOf (buildPatchOpsForContentDelta event now d).2 (messageKeyOf identity ordinal))
          patched.appendPath := by
  obtain ⟨hread, hend⟩ := readAppends_of_follows now (namesPath_patchOps event now d) hpath
  obtain ⟨s', hfold, hdistinct, hlookup⟩ := applyPatchOps_patchOps now h hd
    (s := { next := blocks, anchorUserMessageId := none, appendPath := path }) hs hfits hdropped
  have hcompacted := foldlM_of_readAppends
    (s := { next := blocks, anchorUserMessageId := none, appendPath := path }) hread
  rw [hfold] at hcompacted
  have hafter := appendPath_foldlM hcompacted
  refine ⟨{ s' with next := sortBlocksByStreamIndex s'.next }, ?_, ?_, ?_⟩
  · unfold applyPatchOpsToBlocks
    rw [buildPatch_ops, hcompacted]
    rfl
  · exact sortBlocksByStreamIndex_eq hdistinct h.content hlookup
  · show Follows _ s'.appendPath
    rw [pathOf_buildPatch, if_pos h.key.symm, hafter]
    exact hend

/-! ## The tables after a patch -/

theorem isSnapshotKeyOf_blockKey (i : Nat) (blockIdentity : String) :
    isSnapshotKeyOf event (blockKey identity ordinal i blockIdentity) = true := by
  unfold isSnapshotKeyOf blockKey
  rw [h.key, List.isPrefixOf_iff_prefix]
  refine ⟨(toString i ++ ":" ++ blockIdentity).toList, ?_⟩
  rw [← String.toList_append]
  simp only [String.append_assoc]

theorem stored_beforeContent_keyframe (d : PatchDelta)
    (hbase : event.baseSeq = 0) (i : Nat) (blockIdentity : String) :
    storedBlock (beforeContent event d) (blockKey identity ordinal i blockIdentity) = none := by
  have hcleared : storedBlock (keyframePart event d).2
      (blockKey identity ordinal i blockIdentity) = none := by
    unfold storedBlock keyframePart clearStreamBlockSnapshotsForEvent
    rw [if_pos hbase]
    simp only
    rw [get?_filter, isSnapshotKeyOf_blockKey h]
    cases d.streamBlockSnapshots.get? (blockKey identity ordinal i blockIdentity) <;> rfl
  rcases (drops_replacePart event (keyframePart event d).2).stored
    (blockKey identity ordinal i blockIdentity) with hnone | hsame
  · exact hnone
  · exact hsame.trans hcleared

end

variable {b : ContentBlock}

theorem stored_beforeContent (h : OfMessage identity ordinal event) (hd : Keyed identity d)
    (hbase : event.baseSeq ≠ 0) (hb : b ∈ event.content) (hi : getStreamIndex b = some (i : Rat)) :
    storedBlock (beforeContent event d) (blockKey identity ordinal i (blockSnapshotIdentity b)) =
      storedBlock d (blockKey identity ordinal i (blockSnapshotIdentity b)) := by
  have hkeyframe : (keyframePart event d).2 = d := by
    unfold keyframePart
    rw [if_neg hbase]
  unfold beforeContent replacePart
  rw [hkeyframe]
  split
  · unfold storedBlock
    simp only
    rw [get?_filter]
    cases hget : d.streamBlockSnapshots.get?
        (blockKey identity ordinal i (blockSnapshotIdentity b)) with
    | none => rfl
    | some snap =>
      have hindex : getStreamIndex snap.block = some (i : Rat) :=
        (hd.stored (by unfold storedBlock; rw [hget]; rfl)).1
      have hkept : droppedIndex event (blockKey identity ordinal i (blockSnapshotIdentity b)) snap =
          none := by
        unfold droppedIndex
        simp only [streamIndexOr, hindex, getD_some]
        exact if_neg fun hand => hand.2 (mem_retainedIndices h hb hi)
      rw [filter_some_pos (by simpa using hkept)]
  · rfl

theorem keyed_build (h : OfMessage identity ordinal event)
    (hd : Keyed identity d) : Keyed identity (buildPatchOpsForContentDelta event now d).2 := by
  have hblocks : ∀ e ∈ event.content.zipIdx, e.1 ∈ event.content :=
    fun e he => fst_mem_of_mem_zipIdx he
  have hcontent : Keyed identity (patchOps event now d).2 :=
    keyed_contentOps h hblocks (hd.drops (drops_beforeContent event d))
  intro e he
  exact hcontent.drops (drops_pruneExpired now _) e he

theorem stored_build (event : SessionStreamEvent) (now : Int) (d : PatchDelta) (key : String) :
    storedBlock (buildPatchOpsForContentDelta event now d).2 key =
      storedBlock (pruneExpired now (patchOps event now d).2) key := rfl

theorem stored_build_own (h : OfMessage identity ordinal event) (d : PatchDelta)
    (hb : b ∈ event.content) (hi : getStreamIndex b = some (i : Rat)) :
    storedBlock (buildPatchOpsForContentDelta event now d).2
      (blockKey identity ordinal i (blockSnapshotIdentity b)) = some b := by
  have hblocks : ∀ e ∈ event.content.zipIdx, e.1 ∈ event.content :=
    fun e he => fst_mem_of_mem_zipIdx he
  have hmap : event.content.zipIdx.map Prod.fst = event.content := zipIdx_map_fst ..
  obtain ⟨n, hn⟩ := getElem?_of_mem hb
  have hown := get?_contentOps_own now h hblocks (by rw [hmap]; exact h.content.distinct)
    (beforeContent event d) (b, n) (mem_zipIdx_iff_getElem?.mpr hn) i hi
  rw [stored_build]
  unfold storedBlock pruneExpired
  simp only
  rw [get?_filter]
  show ((((contentOps event now (beforeContent event d)
    event.content.zipIdx).2.streamBlockSnapshots.get? _).filter _).map _) = _
  rw [hown, filter_some_pos (by simp [PATCH_CURSOR_MAX_AGE_MS])]
  rfl

variable (now) in
theorem stored_build_other (h : OfMessage identity ordinal event) (d : PatchDelta)
    {other : Nat} (hother : other ≠ ordinal) (i : Nat) (blockIdentity : String) :
    storedBlock (buildPatchOpsForContentDelta event now d).2
        (blockKey identity other i blockIdentity) = none ∨
      storedBlock (buildPatchOpsForContentDelta event now d).2
        (blockKey identity other i blockIdentity) =
          storedBlock d (blockKey identity other i blockIdentity) := by
  have hblocks : ∀ e ∈ event.content.zipIdx, e.1 ∈ event.content :=
    fun e he => fst_mem_of_mem_zipIdx he
  have hcontent : storedBlock (patchOps event now d).2 (blockKey identity other i blockIdentity) =
      storedBlock (beforeContent event d) (blockKey identity other i blockIdentity) := by
    unfold storedBlock
    exact congrArg _ (get?_contentOps_other now h hblocks (beforeContent event d)
      fun e _ j _ heq => hother (blockKey_injective heq).1)
  rw [stored_build]
  rcases (drops_pruneExpired now (patchOps event now d).2).stored
    (blockKey identity other i blockIdentity) with hnone | hsame
  · exact .inl hnone
  · rw [hsame, hcontent]
    exact (drops_beforeContent event d).stored _

end OneMessage

end Cohub.Stream
