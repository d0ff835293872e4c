import Cohub.Lib.GitObjects
import Mathlib.Data.List.Sort

/-! # Checkpoint manifests and covers

    A manifest of a commit lists packs, each for a range of save numbers.  A
    cover pack stands for a run of `16 ^ level` saves, and replaces the packs of
    its run in later manifests.

    `Sound` says of a list of packs for a commit with number `seq` that every
    number up to `seq` is in a range, and that each pack holds what the commit at
    the end of its range reaches and the one before its range does not. -/

namespace Cohub.Checkpoint

open GitObjects List

/-! ## Manifests -/

def CHECKPOINT_COVER_FANOUT : Nat := 16

def CHECKPOINT_COVER_MAX_LEVEL : Nat := 4

/-- A pack file is named by the checksum of its content, so a reference stands
    for the content.  `0..0` marks a pack with a full closure. -/
structure CheckpointPackRef (α : Type) where
  pack  : List α
  first : Nat
  last  : Nat
  tip   : α
deriving DecidableEq

structure CheckpointStorageManifest (α : Type) where
  commit : α
  parent : Option α
  seq    : Nat
  packs  : List (CheckpointPackRef α)
deriving DecidableEq

variable {α : Type} [DecidableEq α]

def sortPacks (packs : List (CheckpointPackRef α)) : List (CheckpointPackRef α) :=
  packs.insertionSort fun a b => a.first ≤ b.first

/-- The number after the last pack, when each starts where the one before ends. -/
def tileFrom (next : Nat) : List (CheckpointPackRef α) → Option Nat
  | [] => some next
  | pack :: rest => if pack.first ≠ next then none else tileFrom (pack.last + 1) rest

def tilesSequence (packs : List (CheckpointPackRef α)) (first last : Nat) : Bool :=
  tileFrom first (sortPacks packs) == some (last + 1)

def spanOf (level : Nat) : Nat := Nat.pow CHECKPOINT_COVER_FANOUT level

def levels : List Nat := List.range' 1 CHECKPOINT_COVER_MAX_LEVEL

def coverLevelsEndingAt (seq : Nat) : List Nat :=
  levels.takeWhile fun level => spanOf level ≤ seq && seq % spanOf level == 0

def inRange (first last : Nat) (pack : CheckpointPackRef α) : Bool :=
  first ≤ pack.first && pack.last ≤ last

/-- Replaces the run of packs that ends at `last` by its cover. -/
def foldCover (readCover : α → Nat → Option (CheckpointPackRef α)) (level : Nat)
    (result : List (CheckpointPackRef α)) (last : CheckpointPackRef α) : List (CheckpointPackRef α) :=
  let first := last.last - spanOf level + 1
  let run := result.filter (inRange first last.last)
  if run.length < 2 || !tilesSequence run first last.last then result
  else match readCover last.tip level with
  | none => result
  | some cover =>
      if cover.first ≠ first || cover.last ≠ last.last || cover.tip ≠ last.tip then result
      else result.filter (fun pack => !inRange first last.last pack) ++ [cover]

def foldLevel (readCover : α → Nat → Option (CheckpointPackRef α))
    (result : List (CheckpointPackRef α)) (level : Nat) : List (CheckpointPackRef α) :=
  (result.filter fun pack => spanOf level ≤ pack.last && pack.last % spanOf level == 0).foldl
    (foldCover readCover level) result

def foldCovers (readCover : α → Nat → Option (CheckpointPackRef α))
    (packs : List (CheckpointPackRef α)) : List (CheckpointPackRef α) :=
  sortPacks (levels.foldl (foldLevel readCover) packs)

/-! ## Sound lists of packs -/

variable {git : α → Object α} {legacy : α → Prop}

/-- Any legacy commit in the objects is there with all that it reaches. -/
def Whole (git : α → Object α) (legacy : α → Prop) (objects : List α) : Prop :=
  ∀ a ∈ objects, legacy a → isCommit git a = true → Complete git objects a

/-- The pack holds what its range of saves added. -/
structure Holds (git : α → Object α) (legacy : α → Prop) (ref : CheckpointPackRef α) : Prop where
  order    : ref.first ≤ ref.last
  baseline : ref.first = 0 → Complete git ref.pack ref.tip
  added    : ref.first ≠ 0 → ∃ base, ancestor git (ref.last - ref.first + 1) ref.tip = some base ∧
    ∀ a, Reaches git ref.tip a → Reaches git base a ∨ a ∈ ref.pack
  whole    : Whole git legacy ref.pack

/-- The packs hold what a commit with this number reaches. -/
structure Sound (git : α → Object α) (legacy : α → Prop) (commit : α) (seq : Nat)
    (packs : List (CheckpointPackRef α)) : Prop where
  covered : ∀ k ≤ seq, ∃ ref ∈ packs, ref.first ≤ k ∧ k ≤ ref.last
  holds   : ∀ ref ∈ packs, Holds git legacy ref
  tips    : ∀ ref ∈ packs, ref.last ≤ seq ∧ ancestor git (seq - ref.last) commit = some ref.tip

variable {commit : α} {seq : Nat} {packs : List (CheckpointPackRef α)} {pack : List α}

omit [DecidableEq α] in
theorem Sound.complete_ancestor (h : Sound git legacy commit seq packs) :
    ∀ k ≤ seq, ∀ a, ancestor git (seq - k) commit = some a →
      ∀ b, Reaches git a b → ∃ ref ∈ packs, b ∈ ref.pack := by
  intro k
  induction k using Nat.strong_induction_on with
  | _ k ih =>
    intro hk a ha b hb
    obtain ⟨ref, hmem, hfirst, hlast⟩ := h.covered k hk
    obtain ⟨hle, htip⟩ := h.tips ref hmem
    have hholds := h.holds ref hmem
    -- the commit is an ancestor of the tip of the pack that has its number
    have hsplit : seq - k = (seq - ref.last) + (ref.last - k) := by omega
    rw [hsplit, ancestor_add, htip, Option.bind_some] at ha
    have hreach : Reaches git ref.tip b := (reaches_ancestor ha).trans hb
    by_cases hzero : ref.first = 0
    · exact ⟨ref, hmem, hholds.baseline hzero b hreach⟩
    · obtain ⟨base, hbase, hadded⟩ := hholds.added hzero
      rcases hadded b hreach with hold | hpack
      · have hbelow : seq - (ref.first - 1) = (seq - ref.last) + (ref.last - ref.first + 1) := by
          have := hholds.order
          omega
        refine ih (ref.first - 1) (by omega) (by omega) base ?_ b hold
        rw [hbelow, ancestor_add, htip, Option.bind_some, hbase]
      · exact ⟨ref, hmem, hpack⟩

omit [DecidableEq α] in
theorem Sound.complete (h : Sound git legacy commit seq packs) (b : α) (hb : Reaches git commit b) :
    ∃ ref ∈ packs, b ∈ ref.pack :=
  h.complete_ancestor seq (le_refl seq) commit (by simp [ancestor]) b hb

omit [DecidableEq α] in
theorem sound_baseline (h : Complete git pack commit)
    (hwhole : Whole git legacy pack) : Sound git legacy commit 0 [⟨pack, 0, 0, commit⟩] where
  covered k hk := ⟨_, mem_singleton_self _, Nat.zero_le k, hk⟩
  holds ref hr := by
    obtain rfl := mem_singleton.mp hr
    exact ⟨le_refl 0, fun _ => h, fun hne => absurd rfl hne, hwhole⟩
  tips ref hr := by
    obtain rfl := mem_singleton.mp hr
    exact ⟨le_refl 0, rfl⟩

omit [DecidableEq α] in
theorem Sound.next {parent : α}
    (h : Sound git legacy parent seq packs) (hparent : firstParent git commit = some parent)
    (hpack : ∀ a, Reaches git commit a → Reaches git parent a ∨ a ∈ pack)
    (hwhole : Whole git legacy pack) :
    Sound git legacy commit (seq + 1) (packs ++ [⟨pack, seq + 1, seq + 1, commit⟩]) where
  covered k hk := by
    rcases lt_or_ge seq k with hlt | hle
    · exact ⟨_, mem_append_right _ (mem_singleton_self _), hlt, hk⟩
    · obtain ⟨ref, hmem, hrange⟩ := h.covered k hle
      exact ⟨ref, mem_append_left _ hmem, hrange⟩
  holds ref hr := by
    rcases mem_append.mp hr with hr | hr
    · exact h.holds ref hr
    · obtain rfl := mem_singleton.mp hr
      refine ⟨le_rfl, fun hzero => absurd hzero (Nat.succ_ne_zero seq), fun _ => ?_, hwhole⟩
      exact ⟨parent, by simp [ancestor, hparent], hpack⟩
  tips ref hr := by
    rcases mem_append.mp hr with hr | hr
    · obtain ⟨hle, htip⟩ := h.tips ref hr
      refine ⟨Nat.le_succ_of_le hle, ?_⟩
      rw [Nat.succ_sub hle, ancestor, hparent, Option.bind_some, htip]
    · obtain rfl := mem_singleton.mp hr
      exact ⟨le_rfl, by simp [ancestor]⟩

/-! ## Covers -/

/-- The record of a cover was written by a compaction of its tip. -/
def Covers (git : α → Object α) (legacy : α → Prop)
    (readCover : α → Nat → Option (CheckpointPackRef α)) : Prop :=
  ∀ tip level cover, readCover tip level = some cover → Holds git legacy cover

variable {readCover : α → Nat → Option (CheckpointPackRef α)} {commit : α} {seq : Nat}
  {result : List (CheckpointPackRef α)}

theorem Sound.foldCover (hcovers : Covers git legacy readCover) {level : Nat}
    (h : Sound git legacy commit seq result) {last : CheckpointPackRef α}
    (hlast : last.last ≤ seq ∧ ancestor git (seq - last.last) commit = some last.tip) :
    Sound git legacy commit seq (foldCover readCover level result last) := by
  unfold Checkpoint.foldCover
  dsimp only
  generalize last.last - spanOf level + 1 = first
  split
  · exact h
  · split
    · exact h
    · next cover hread =>
      split
      · exact h
      · next hsame =>
        simp only [ne_eq, Bool.or_eq_true, decide_eq_true_eq, not_or, not_not] at hsame
        obtain ⟨⟨hfirst, hend⟩, htip⟩ := hsame
        refine ⟨fun k hk => ?_, fun ref hr => ?_, fun ref hr => ?_⟩
        · -- a number whose pack is replaced is in the range of the cover
          obtain ⟨ref, hmem, hrange⟩ := h.covered k hk
          by_cases hin : inRange first last.last ref = true
          · simp only [inRange, Bool.and_eq_true, decide_eq_true_eq] at hin
            exact ⟨cover, by simp, by omega, by omega⟩
          · exact ⟨ref, by simp [hmem, hin], hrange⟩
        · rcases mem_append.mp hr with hr | hr
          · exact h.holds ref (mem_filter.mp hr).1
          · obtain rfl := mem_singleton.mp hr
            exact hcovers _ _ _ hread
        · rcases mem_append.mp hr with hr | hr
          · exact h.tips ref (mem_filter.mp hr).1
          · obtain rfl := mem_singleton.mp hr
            rw [hend, htip]
            exact hlast

theorem Sound.foldLevel (hcovers : Covers git legacy readCover) (level : Nat)
    (h : Sound git legacy commit seq result) :
    Sound git legacy commit seq (foldLevel readCover result level) := by
  have hends : ∀ ends : List (CheckpointPackRef α), (∀ last ∈ ends, last ∈ result) →
      ∀ current, Sound git legacy commit seq current →
        Sound git legacy commit seq (ends.foldl (Checkpoint.foldCover readCover level) current) := by
    intro ends
    induction ends with
    | nil => exact fun _ _ hcurrent => hcurrent
    | cons last rest ih =>
      intro hmem current hcurrent
      obtain ⟨hlast, hrest⟩ := forall_mem_cons.mp hmem
      exact ih hrest _ (hcurrent.foldCover hcovers (h.tips last hlast))
  exact hends _ (fun last hlast => (mem_filter.mp hlast).1) result h

omit [DecidableEq α] in
theorem Sound.of_mem_iff {packs' : List (CheckpointPackRef α)} (h : Sound git legacy commit seq packs)
    (hmem : ∀ ref, ref ∈ packs' ↔ ref ∈ packs) : Sound git legacy commit seq packs' where
  covered k hk := by
    obtain ⟨ref, hr, hrange⟩ := h.covered k hk
    exact ⟨ref, (hmem ref).mpr hr, hrange⟩
  holds ref hr := h.holds ref ((hmem ref).mp hr)
  tips ref hr := h.tips ref ((hmem ref).mp hr)

theorem Sound.foldCovers (hcovers : Covers git legacy readCover)
    (h : Sound git legacy commit seq packs) :
    Sound git legacy commit seq (foldCovers readCover packs) := by
  have hlevels : ∀ ls : List Nat, ∀ current, Sound git legacy commit seq current →
      Sound git legacy commit seq (ls.foldl (Checkpoint.foldLevel readCover) current) := by
    intro ls
    induction ls with
    | nil => exact fun _ hcurrent => hcurrent
    | cons level rest ih => exact fun current hcurrent => ih _ (hcurrent.foldLevel hcovers level)
  refine (hlevels levels packs h).of_mem_iff fun ref => ?_
  exact (perm_insertionSort _ _).mem_iff

omit [DecidableEq α] in
theorem holds_cover {base : α} {span : Nat} (hspan : 0 < span) (hseq : span ≤ seq)
    (hbase : ancestor git span commit = some base) (hpack : Packs git [commit] [base] pack)
    (hlinear : Linear git (fun a => ¬ legacy a) span commit) :
    Holds git legacy ⟨pack, seq - span + 1, seq, commit⟩ where
  order := by simp only; omega
  baseline hzero := by simp at hzero
  added _ := by
    have hlength : seq - (seq - span + 1) + 1 = span := by omega
    refine ⟨base, by simp only [hlength, hbase], fun a ha => ?_⟩
    by_cases hold : Reaches git base a
    · exact .inl hold
    · exact .inr (hpack.holds commit (mem_singleton_self _) a ha (by simpa using hold))
  whole := by
    intro a ha hlegacy hcommit
    obtain ⟨⟨top, htop, hreach⟩, hnot⟩ := hpack.commits a ha hcommit
    obtain rfl := mem_singleton.mp htop
    rcases hlinear.commit_cases hbase hcommit hreach with hsaved | hold
    · exact absurd hlegacy hsaved
    · exact absurd hold (hnot base (mem_singleton_self _))

end Cohub.Checkpoint
