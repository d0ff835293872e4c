import Cohub.Checkpoint.GitBundles
import Cohub.Lib.Tiers
import Mathlib.Data.List.Dedup

/-! # What a chain of bundles holds

    The links before a link hold all that its base reaches, and all links
    together hold all that the refs and the HEAD of the save reach.  A merge
    takes links from the end, so the links before it stay what they are. -/

namespace Cohub.Checkpoint.GitBundles

open GitObjects List Option

variable {α : Type} [DecidableEq α] (git : α → Object α)

/-! ## Unbundling -/

def UserGitRepoBundle.Holds (bundle : UserGitRepoBundle α) (x : α) : Prop :=
  (∃ tip ∈ bundle.tips, Reaches git tip x) ∧ ∀ e ∈ bundle.base, ¬ Reaches git e x

/-- What the objects of a bundle name and the bundle does not have. -/
def UserGitRepoBundle.Needs (bundle : UserGitRepoBundle α) (x : α) : Prop :=
  ¬ bundle.Holds git x ∧ ∃ c, bundle.Holds git c ∧ x ∈ edges git c

def Held (bundles : List (UserGitRepoBundle α)) (x : α) : Prop := ∃ bundle ∈ bundles, bundle.Holds git x

/-- Unbundling a chain in order, from the objects of a repository to those it
    has then.  A bundle is refused if an object that it needs is not there. -/
inductive Unbundles : List (UserGitRepoBundle α) → (α → Prop) → (α → Prop) → Prop where
  | nil (objects : α → Prop) : Unbundles [] objects objects
  | cons {bundle : UserGitRepoBundle α} {rest : List (UserGitRepoBundle α)} {objects after : α → Prop}
      (hneeds : ∀ x, bundle.Needs git x → objects x)
      (hrest : Unbundles rest (fun x => objects x ∨ bundle.Holds git x) after) :
      Unbundles (bundle :: rest) objects after

variable {git}

theorem Unbundles.concat {bundles : List (UserGitRepoBundle α)} {bundle : UserGitRepoBundle α}
    {objects after : α → Prop} (h : Unbundles git bundles objects after)
    (hneeds : ∀ x, bundle.Needs git x → after x) :
    Unbundles git (bundles ++ [bundle]) objects (fun x => after x ∨ bundle.Holds git x) := by
  induction h with
  | nil objects => exact .cons hneeds (.nil _)
  | cons hfirst _ ih => exact .cons hfirst (ih hneeds)

variable {x : α} {bundle : UserGitRepoBundle α} {bundles : List (UserGitRepoBundle α)}
  {xs ys : List (UserGitRepoBundle α)}

theorem held_append :
    Held git (xs ++ ys) x ↔ Held git xs x ∨ Held git ys x := by
  unfold Held
  constructor
  · rintro ⟨bundle, hmem, hx⟩
    rcases mem_append.mp hmem with hmem | hmem
    · exact .inl ⟨bundle, hmem, hx⟩
    · exact .inr ⟨bundle, hmem, hx⟩
  · rintro (⟨bundle, hmem, hx⟩ | ⟨bundle, hmem, hx⟩)
    · exact ⟨bundle, mem_append_left _ hmem, hx⟩
    · exact ⟨bundle, mem_append_right _ hmem, hx⟩

theorem held_singleton : Held git [bundle] x ↔ bundle.Holds git x := by
  simp [Held]

/-! ## Chains -/

/-- The links hold all that the objects reach. -/
def Covers (git : α → Object α) (bundles : List (UserGitRepoBundle α)) (oids : List α) : Prop :=
  ∀ oid ∈ oids, ∀ x, Reaches git oid x → Held git bundles x

/-- The links before each link hold all that its base reaches. -/
def Closed (git : α → Object α) (bundles : List (UserGitRepoBundle α)) : Prop :=
  ∀ before bundle after, bundles = before ++ bundle :: after → Covers git before bundle.base

theorem Covers.mono {oids oids' : List α} (h : Covers git bundles oids)
    (hsub : ∀ oid ∈ oids', oid ∈ oids) : Covers git bundles oids' :=
  fun oid hoid => h oid (hsub oid hoid)

theorem Closed.left (h : Closed git (xs ++ ys)) : Closed git xs := by
  intro before bundle after heq
  apply h before bundle (after ++ ys)
  rw [heq, append_assoc, cons_append]

theorem Closed.nil : Closed git ([] : List (UserGitRepoBundle α)) := by
  intro before bundle after heq
  simp at heq

theorem Closed.concat {bundles : List (UserGitRepoBundle α)} {bundle : UserGitRepoBundle α}
    (h : Closed git bundles) (hbase : Covers git bundles bundle.base) : Closed git (bundles ++ [bundle]) := by
  intro before link after heq
  rcases eq_nil_or_concat after with rfl | ⟨init, last, rfl⟩
  · obtain ⟨rfl, hlink⟩ := append_inj' heq rfl
    rw [← (cons.inj hlink).1]
    exact hbase
  · have hassoc : before ++ link :: (init ++ [last]) = (before ++ link :: init) ++ [last] := by simp
    rw [concat_eq_append, hassoc] at heq
    exact h before link init (append_inj' heq rfl).1

theorem UserGitRepoBundle.Needs.reached (h : bundle.Needs git x) :
    ∃ e ∈ bundle.base, Reaches git e x := by
  obtain ⟨hnot, c, ⟨⟨tip, htip, hreach⟩, -⟩, hedge⟩ := h
  by_contra hbase
  push Not at hbase
  exact hnot ⟨⟨tip, htip, hreach.trans (.of_edge hedge)⟩, hbase⟩

theorem Closed.unbundles (h : Closed git bundles) :
    Unbundles git bundles (fun _ => False) (Held git bundles) := by
  induction bundles using reverseRecOn with
  | nil =>
    have hheld : Held git ([] : List (UserGitRepoBundle α)) = fun _ => False := by
      funext x
      simp [Held]
    rw [hheld]
    exact .nil _
  | append_singleton links bundle ih =>
    have hheld : Held git (links ++ [bundle]) = fun x => Held git links x ∨ bundle.Holds git x := by
      funext x
      rw [held_append, held_singleton]
    rw [hheld]
    refine (ih h.left).concat fun x hneeds => ?_
    obtain ⟨e, he, hreach⟩ := hneeds.reached
    exact h links bundle [] rfl e he x hreach

/-! ## New links and merges -/

variable [DecidableRel (Reaches git)]

variable {repo : Repo α} {level fuel n : Nat} {previous : List (UserGitRepoBundle α)}
    {refs : List (String × α)} {shaped : Prop} {cache : BundleCache α}

theorem mem_existingObjects {oids : List α} {oid : α} (h : oid ∈ existingObjects repo oids) :
    oid ∈ oids :=
  mem_dedup.mp (mem_filter.mp h).1

variable {base : List α} {kept : List (UserGitRepoBundle α)} {first : UserGitRepoBundle α} {m : Nat}

theorem createBundle_eq_some (h : createBundle git repo base level = some bundle) :
    bundle.tips = repo.tips ∧ bundle.level = level ∧ ∀ e ∈ bundle.base, e ∈ base := by
  unfold createBundle at h
  dsimp only at h
  split at h
  · simp at h
  · rw [Option.some.injEq] at h
    subst h
    exact ⟨rfl, rfl, fun e he => mem_existingObjects he⟩

theorem covers_of_createBundle_none (h : createBundle git repo base level = none)
    (hbase : Covers git bundles base) : Covers git bundles repo.tips := by
  unfold createBundle at h
  dsimp only at h
  split at h
  · next hcovered =>
    intro tip htip x hreach
    have hany := all_eq_true.mp hcovered tip htip
    obtain ⟨e, he, hdec⟩ := any_eq_true.mp hany
    exact hbase e (mem_existingObjects he) x ((of_decide_eq_true hdec).trans hreach)
  · simp at h

theorem covers_concat (hbase : Covers git bundles bundle.base) (htips : bundle.tips = repo.tips) :
    Covers git (bundles ++ [bundle]) repo.tips := by
  intro tip htip x hreach
  rw [held_append, held_singleton]
  by_cases hreached : ∃ e ∈ bundle.base, Reaches git e x
  · obtain ⟨e, he, hex⟩ := hreached
    exact .inl (hbase e he x hex)
  · push Not at hreached
    exact .inr ⟨⟨tip, htips ▸ htip, hreach⟩, hreached⟩

/-- The links `first :: rest` after `kept` are to be merged: they are 16 links of
    one level below the top. -/
structure Due (bundles kept : List (UserGitRepoBundle α)) (first : UserGitRepoBundle α)
    (rest : List (UserGitRepoBundle α)) : Prop where
  eq_append : bundles = kept ++ first :: rest
  levels_eq : (first :: rest).map UserGitRepoBundle.level = List.replicate CHECKPOINT_COVER_FANOUT first.level
  below_top : first.level < CHECKPOINT_COVER_MAX_LEVEL

theorem mergeDue_eq_some
    (h : mergeDue bundles = some (kept, first)) : ∃ rest, Due bundles kept first rest := by
  unfold mergeDue at h
  dsimp only at h
  cases htail : bundles.drop (bundles.length - CHECKPOINT_COVER_FANOUT) with
  | nil => simp [htail] at h
  | cons link rest =>
    rw [htail, head?_cons] at h
    dsimp only at h
    split at h
    · simp at h
    · next hdue =>
      push Not at hdue
      obtain ⟨hlength, hlevel, hsame⟩ := hdue
      rw [Option.some.injEq, Prod.mk.injEq] at h
      obtain ⟨hkept, rfl⟩ := h
      refine ⟨rest, ?_, ?_, hlevel⟩
      · rw [← hkept, ← htail, take_append_drop]
      · have hfanout : (link :: rest).length = CHECKPOINT_COVER_FANOUT := by
          have hle := congrArg List.length htail
          rw [length_drop] at hle
          omega
        rw [eq_replicate_iff, length_map]
        refine ⟨hfanout, fun level hmem => ?_⟩
        obtain ⟨bundle, hbundle, rfl⟩ := mem_map.mp hmem
        by_contra hne
        exact hsame (any_eq_true.mpr ⟨bundle, hbundle, by simpa using hne⟩)

theorem mergeTail_eq_some {after : List (UserGitRepoBundle α)}
    (h : mergeTail git repo bundles = some after) :
    ∃ kept first rest merged, Due bundles kept first rest ∧
      createBundle git repo first.base (first.level + 1) = some merged ∧ after = kept ++ [merged] := by
  unfold mergeTail at h
  cases hdue : mergeDue bundles with
  | none => simp [hdue] at h
  | some due =>
    obtain ⟨kept, first⟩ := due
    rw [hdue] at h
    obtain ⟨merged, hmerged, rfl⟩ := map_eq_some_iff.mp h
    obtain ⟨rest, hrest⟩ := mergeDue_eq_some hdue
    exact ⟨kept, first, rest, merged, hrest, hmerged, rfl⟩

section

-- A subtraction of 16 is slow to unfold.
attribute [local irreducible] mergeTail

theorem compactChain_succ (repo : Repo α) (fuel : Nat) (bundles : List (UserGitRepoBundle α)) :
    compactChain git repo (fuel + 1) bundles =
      match mergeTail git repo bundles with
      | none => bundles
      | some merged => compactChain git repo fuel merged := rfl

end

theorem compactChain_induction {P : List (UserGitRepoBundle α) → Prop}
    (hstep : ∀ bundles after, mergeTail git repo bundles = some after → P bundles → P after)
    (h : P bundles) : P (compactChain git repo fuel bundles) := by
  induction fuel generalizing bundles with
  | zero => exact h
  | succ fuel ih =>
    rw [compactChain_succ]
    cases hmerge : mergeTail git repo bundles with
    | none => exact h
    | some after => exact ih (hstep bundles after hmerge h)

theorem compactChain_ok (hclosed : Closed git bundles) (hcovers : Covers git bundles repo.tips) :
    Closed git (compactChain git repo fuel bundles) ∧ Covers git (compactChain git repo fuel bundles) repo.tips := by
  apply compactChain_induction (P := fun bundles => Closed git bundles ∧ Covers git bundles repo.tips)
  · rintro bundles after hmerge ⟨hclosed, -⟩
    obtain ⟨kept, first, rest, merged, hdue, hmerged, rfl⟩ := mergeTail_eq_some hmerge
    obtain ⟨htips, -, hbase⟩ := createBundle_eq_some hmerged
    have hkept : Covers git kept merged.base := (hclosed kept first rest hdue.eq_append).mono hbase
    rw [hdue.eq_append] at hclosed
    exact ⟨hclosed.left.concat hkept, covers_concat hkept htips⟩
  · exact ⟨hclosed, hcovers⟩

theorem extendChain_ok
    (hclosed : Closed git previous) (hcovers : Covers git previous (refs.map Prod.snd)) :
    Closed git (extendChain git repo previous refs) ∧ Covers git (extendChain git repo previous refs) repo.tips := by
  have hadd : ∀ (base : List α) (level : Nat), Covers git previous base →
      (∀ added, createBundle git repo base level = some added →
        Closed git (compactChain git repo (previous.length + 1) (previous ++ [added])) ∧
          Covers git (compactChain git repo (previous.length + 1) (previous ++ [added])) repo.tips) := by
    intro base level hbase added hadded
    obtain ⟨htips, -, hsub⟩ := createBundle_eq_some hadded
    have hnew : Covers git previous added.base := hbase.mono hsub
    exact compactChain_ok (hclosed.concat hnew) (covers_concat hnew htips)
  have hempty : Covers git previous [] := fun oid hoid => absurd hoid not_mem_nil
  unfold extendChain
  dsimp only
  by_cases hprevious : previous.length > 0
  · rw [if_pos hprevious]
    cases hadded : createBundle git repo (refs.map Prod.snd) 0 with
    | none => exact ⟨hclosed, covers_of_createBundle_none hadded hcovers⟩
    | some added => exact hadd _ _ hcovers added hadded
  · rw [if_neg hprevious]
    cases hadded : createBundle git repo [] CHECKPOINT_COVER_MAX_LEVEL with
    | none => exact ⟨hclosed, covers_of_createBundle_none hadded hempty⟩
    | some added => exact hadd _ _ hempty added hadded

/-! ## Levels -/

def levels (bundles : List (UserGitRepoBundle α)) : List Nat := bundles.map UserGitRepoBundle.level

abbrev Shaped (bundles : List (UserGitRepoBundle α)) : Prop :=
  Tiers.Shape CHECKPOINT_COVER_FANOUT CHECKPOINT_COVER_MAX_LEVEL (levels bundles)

/-- Links of level 0 that a chain stands for. -/
def weight (bundles : List (UserGitRepoBundle α)) : Nat := Tiers.weight CHECKPOINT_COVER_FANOUT (levels bundles)

theorem weight_merge {rest : List (UserGitRepoBundle α)} {merged : UserGitRepoBundle α}
    (hrest : (first :: rest).map UserGitRepoBundle.level = List.replicate CHECKPOINT_COVER_FANOUT first.level)
    (hlevel : merged.level = first.level + 1) : weight (kept ++ [merged]) = weight (kept ++ first :: rest) := by
  unfold weight levels
  rw [map_append, map_append, hrest, map_singleton, hlevel]
  exact Tiers.weight_merge _ _

theorem compactChain_weight :
    weight (compactChain git repo fuel bundles) = weight bundles := by
  apply compactChain_induction (P := fun after => weight after = weight bundles)
  · intro before after hmerge hweight
    obtain ⟨kept, first, rest, merged, hdue, hmerged, rfl⟩ := mergeTail_eq_some hmerge
    rw [← hweight, hdue.eq_append]
    exact weight_merge hdue.levels_eq (createBundle_eq_some hmerged).2.1
  · rfl

theorem top_le_of_mergeDue_none (h : mergeDue bundles = none)
    {kept : List Nat} (hlevels : levels bundles = kept ++ List.replicate CHECKPOINT_COVER_FANOUT level) :
    CHECKPOINT_COVER_MAX_LEVEL ≤ level := by
  have hlength := congrArg List.length hlevels
  rw [levels, length_map, length_append, length_replicate] at hlength
  have htail : (bundles.drop (bundles.length - CHECKPOINT_COVER_FANOUT)).map UserGitRepoBundle.level =
      List.replicate CHECKPOINT_COVER_FANOUT level := by
    have hkept : bundles.length - CHECKPOINT_COVER_FANOUT = kept.length := by omega
    have hmap : bundles.map UserGitRepoBundle.level = kept ++ List.replicate CHECKPOINT_COVER_FANOUT level := hlevels
    rw [map_drop, hmap, hkept, drop_left]
  unfold mergeDue at h
  dsimp only at h
  cases hdrop : bundles.drop (bundles.length - CHECKPOINT_COVER_FANOUT) with
  | nil =>
    rw [hdrop] at htail
    have hnone := congrArg List.length htail
    rw [map_nil, length_nil, length_replicate] at hnone
    cases hnone
  | cons first rest =>
    rw [hdrop, head?_cons] at h
    dsimp only at h
    rw [hdrop] at htail
    obtain ⟨hlen, hall⟩ := eq_replicate_iff.mp htail
    rw [length_map] at hlen
    have hfirst : first.level = level := hall _ (by simp)
    split at h
    · next hnot =>
      rcases hnot with hshort | htop | hother
      · omega
      · omega
      · obtain ⟨bundle, hbundle, hne⟩ := any_eq_true.mp hother
        have hsame : bundle.level = level := hall _ (mem_map_of_mem hbundle)
        rw [hsame, hfirst] at hne
        simp at hne
    · cases h

/-- The refs and HEAD are not all reached from what is left of the base of a
    link. -/
def Uncovered (git : α → Object α) [DecidableRel (Reaches git)] (repo : Repo α)
    (bundles : List (UserGitRepoBundle α)) : Prop :=
  ∀ bundle ∈ bundles, covered git repo.tips (existingObjects repo bundle.base) = false

theorem mergeDue_none_of_mergeTail_none (h : mergeTail git repo bundles = none)
    (huncovered : Uncovered git repo bundles.dropLast) : mergeDue bundles = none := by
  cases hdue : mergeDue bundles with
  | none => rfl
  | some due =>
    obtain ⟨kept, first⟩ := due
    obtain ⟨rest, hrest⟩ := mergeDue_eq_some hdue
    unfold mergeTail at h
    rw [hdue] at h
    simp only [map_eq_none_iff] at h
    unfold createBundle at h
    dsimp only at h
    have hfirst : first ∈ bundles.dropLast := by
      have hlength := congrArg List.length hrest.levels_eq
      rw [length_map, length_replicate, length_cons] at hlength
      have hne : rest ≠ [] := by
        rintro rfl
        cases hlength
      rw [hrest.eq_append, dropLast_append_of_ne_nil (cons_ne_nil _ _), dropLast_cons_of_ne_nil hne]
      exact mem_append_right _ mem_cons_self
    rw [huncovered first hfirst] at h
    simp at h

theorem compactChain_shape {low : Nat}
    (h : Tiers.Carrying CHECKPOINT_COVER_FANOUT CHECKPOINT_COVER_MAX_LEVEL low (levels bundles))
    (hfuel : bundles.length ≤ fuel) (huncovered : Uncovered git repo bundles.dropLast) :
    Shaped (compactChain git repo fuel bundles) := by
  induction fuel generalizing low bundles with
  | zero =>
    have hlast := h.last
    rw [eq_nil_of_length_eq_zero (Nat.le_zero.mp hfuel)] at hlast
    simp [levels] at hlast
  | succ fuel ih =>
    rw [compactChain_succ]
    cases hmerge : mergeTail git repo bundles with
    | none =>
      have hdue := mergeDue_none_of_mergeTail_none hmerge huncovered
      exact h.shape fun kept level hlevels => top_le_of_mergeDue_none hdue hlevels
    | some after =>
      obtain ⟨kept, first, rest, merged, hdue, hmerged, rfl⟩ := mergeTail_eq_some hmerge
      have hlevels : levels bundles = levels kept ++ List.replicate CHECKPOINT_COVER_FANOUT first.level := by
        rw [hdue.eq_append, levels, map_append, hdue.levels_eq]
        rfl
      have hlow : first.level = low := by
        apply h.level_eq (n := (levels kept).length) _ (by decide)
        rw [hlevels, drop_left]
      have hnext := h.merge (hlow ▸ hlevels) (hlow ▸ hdue.below_top)
      have hafter : levels (kept ++ [merged]) = levels kept ++ [low + 1] := by
        rw [levels, map_append, map_singleton, (createBundle_eq_some hmerged).2.1, hlow]
        rfl
      have hlength := congrArg List.length hdue.levels_eq
      rw [length_map, length_replicate, length_cons] at hlength
      rw [hdue.eq_append] at hfuel
      refine ih (hafter ▸ hnext) ?_ ?_
      · simp only [length_append, length_cons, length_nil, CHECKPOINT_COVER_FANOUT] at hfuel hlength ⊢
        omega
      · intro bundle hbundle
        rw [dropLast_concat] at hbundle
        apply huncovered
        rw [hdue.eq_append, dropLast_append_of_ne_nil (cons_ne_nil _ _)]
        exact mem_append_left _ hbundle

theorem shaped_nil : Shaped ([] : List (UserGitRepoBundle α)) :=
  ⟨List.Pairwise.nil, by simp [levels], fun l _ => by simp [levels, CHECKPOINT_COVER_FANOUT]⟩

theorem levels_concat (bundles : List (UserGitRepoBundle α)) (bundle : UserGitRepoBundle α) :
    levels (bundles ++ [bundle]) = levels bundles ++ [bundle.level] := by
  simp [levels]

theorem extendChain_shape (h : Shaped previous) (huncovered : Uncovered git repo previous) :
    Shaped (extendChain git repo previous refs) := by
  unfold extendChain
  dsimp only
  split
  · exact h
  · next added hadded =>
    have hcarry : Tiers.Carrying CHECKPOINT_COVER_FANOUT CHECKPOINT_COVER_MAX_LEVEL added.level
        (levels (previous ++ [added])) := by
      rw [levels_concat]
      split at hadded
      · rw [(createBundle_eq_some hadded).2.1]
        exact h.concat (fun l _ => Nat.zero_le l) (by decide) fun hlt => h.few 0 hlt
      · next hempty =>
        rw [(createBundle_eq_some hadded).2.1, eq_nil_of_length_eq_zero (Nat.eq_zero_of_not_pos hempty)]
        exact shaped_nil.concat (by simp [levels]) le_rfl fun hlt => absurd hlt (lt_irrefl _)
    refine compactChain_shape hcarry (by simp) ?_
    rw [dropLast_concat]
    exact huncovered

/-- What the first link of a chain stands for. -/
def firstWeight : Nat := CHECKPOINT_COVER_FANOUT ^ CHECKPOINT_COVER_MAX_LEVEL

theorem extendChain_weight
    (h : weight previous ≤ firstWeight + n) : weight (extendChain git repo previous refs) ≤ firstWeight + (n + 1) := by
  unfold extendChain
  dsimp only
  split
  · omega
  · next added hadded =>
    rw [compactChain_weight]
    unfold weight at h ⊢
    rw [levels_concat, Tiers.weight_append]
    split at hadded
    · rw [(createBundle_eq_some hadded).2.1]
      simp only [Tiers.weight, Nat.pow_eq, Nat.pow_zero]
      omega
    · next hempty =>
      rw [(createBundle_eq_some hadded).2.1, eq_nil_of_length_eq_zero (Nat.eq_zero_of_not_pos hempty)]
      simp only [levels, map_nil, Tiers.weight, Nat.pow_eq, firstWeight]
      omega

/-! ## Saves -/

/-- A chain that was recorded after `n` saves, with what its repository had.
    Where `shaped` holds, it has its shape. -/
structure ChainOk (git : α → Object α) (shaped : Prop) (n : Nat) (bundles : List (UserGitRepoBundle α))
    (oids : List α) : Prop where
  closed : Closed git bundles
  covers : Covers git bundles oids
  weight : weight bundles ≤ firstWeight + n
  shape  : shaped → Shaped bundles

def Fingerprint.oids (fingerprint : Fingerprint α) : List α := fingerprint.head :: fingerprint.refs.map Prod.snd

structure CachedOk (git : α → Object α) (shaped : Prop) (n : Nat) (cached : CachedRepo α) : Prop where
  chain : ChainOk git shaped n cached.bundles cached.fingerprint.oids
  refs  : cached.refs = cached.fingerprint.refs

def CacheOk (git : α → Object α) (shaped : Prop) (n : Nat) (cache : BundleCache α) : Prop :=
  ∀ e ∈ cache.entries, CachedOk git shaped n e.2

def UserGitRepoRecord.oids (record : UserGitRepoRecord α) : List α := record.head.toList ++ record.refs.map Prod.snd

/-- A record with a fingerprint has it from its own head and refs. -/
structure RecordOk (git : α → Object α) (shaped : Prop) (n : Nat) (record : UserGitRepoRecord α) : Prop where
  chain       : ChainOk git shaped n record.bundles record.oids
  fingerprint : ∀ fingerprint, record.fingerprint = some fingerprint →
    fingerprint.oids = record.oids ∧ record.refs = fingerprint.refs

theorem ChainOk.mono {oids : List α}
    (h : ChainOk git shaped n bundles oids) (hle : n ≤ m) : ChainOk git shaped m bundles oids :=
  ⟨h.closed, h.covers, le_trans h.weight (by omega), h.shape⟩

theorem RecordOk.mono {record : UserGitRepoRecord α}
    (h : RecordOk git shaped n record) (hle : n ≤ m) : RecordOk git shaped m record :=
  ⟨h.chain.mono hle, h.fingerprint⟩

theorem chainOk_nil (shaped : Prop) (n : Nat) : ChainOk git shaped n [] [] := by
  refine ⟨Closed.nil, fun oid hoid => absurd hoid not_mem_nil, ?_, fun _ => shaped_nil⟩
  exact Nat.zero_le _

/-- No repository that a save finds changed has all its refs and HEAD within
    what the base of a link of its chain reaches. -/
def FindsUncovered (git : α → Object α) [DecidableRel (Reaches git)] (cache : BundleCache α) (input : Input α) : Prop :=
  ∀ e ∈ input.repos.entries, ∀ cached, (loadCache cache input.readable).get? e.1 = some cached →
    getRepoState e.2 ≠ some cached.fingerprint → Uncovered git e.2 cached.bundles

theorem extendChain_chainOk {oids : List α} (h : ChainOk git shaped n previous oids)
    (hrefs : ∀ oid ∈ refs.map Prod.snd, oid ∈ oids) (huncovered : shaped → Uncovered git repo previous) :
    ChainOk git shaped (n + 1) (extendChain git repo previous refs) repo.tips := by
  have hok : Closed git (extendChain git repo previous refs) ∧ Covers git (extendChain git repo previous refs) repo.tips :=
    extendChain_ok h.closed (h.covers.mono hrefs)
  exact ⟨hok.1, hok.2, extendChain_weight h.weight, fun hs => extendChain_shape (h.shape hs) (huncovered hs)⟩

theorem collectRepo_ok (h : CacheOk git shaped n cache)
    (entry : String × Repo α)
    (huncovered : shaped → ∀ cached, cache.get? entry.1 = some cached →
      getRepoState entry.2 ≠ some cached.fingerprint → Uncovered git entry.2 cached.bundles) :
    RecordOk git shaped (n + 1) (collectRepo git cache entry) := by
  unfold collectRepo
  dsimp only
  cases hstate : getRepoState entry.2 with
  | none => exact ⟨chainOk_nil shaped (n + 1), by simp⟩
  | some fingerprint =>
    have hoids : fingerprint.oids = entry.2.tips ∧ entry.2.refs = fingerprint.refs := by
      unfold getRepoState at hstate
      obtain ⟨head, hhead, rfl⟩ := map_eq_some_iff.mp hstate
      simp [Fingerprint.oids, Repo.tips, hhead]
    refine ⟨?_, ?_⟩
    · unfold UserGitRepoRecord.oids nextBundles
      cases hcached : cache.get? entry.1 with
      | none =>
        refine extendChain_chainOk (chainOk_nil shaped n) (by simp) fun _ bundle hbundle => ?_
        exact absurd hbundle not_mem_nil
      | some cached =>
        have hok := h _ ((cache.mem_entries_iff entry.1 cached).mpr hcached)
        dsimp only
        split
        · next hsame =>
          have hchain := hok.chain.mono (Nat.le_succ n)
          rw [hsame, hoids.1] at hchain
          exact hchain
        · next hother =>
          refine extendChain_chainOk hok.chain ?_ fun hs => huncovered hs cached hcached fun heq => ?_
          · rw [hok.refs]
            exact fun oid hoid => mem_cons_of_mem _ hoid
          · rw [hstate, Option.some.injEq] at heq
            exact hother heq.symm
    · intro other hother
      rw [← Option.some.inj hother]
      exact hoids

theorem save_ok (h : CacheOk git shaped n cache) (input : Input α)
    (huncovered : shaped → FindsUncovered git cache input) :
    CacheOk git shaped (n + 1) (save git cache input).1 ∧
      ∀ record ∈ (save git cache input).2, RecordOk git shaped (n + 1) record := by
  have hmono : CacheOk git shaped (n + 1) cache :=
    fun e he => ⟨(h e he).chain.mono (Nat.le_succ n), (h e he).refs⟩
  have hload : CacheOk git shaped n (loadCache cache input.readable) := by
    unfold loadCache
    split
    · exact h
    · intro e he
      simp [OrderedMap.empty] at he
  unfold save
  split
  · have hrecords : ∀ record ∈ collectUserGitRepos git (loadCache cache input.readable) input.repos,
        RecordOk git shaped (n + 1) record := by
      intro record hrecord
      obtain ⟨entry, hentry, rfl⟩ := mem_map.mp hrecord
      exact collectRepo_ok hload entry fun hs => huncovered hs entry hentry
    refine ⟨?_, hrecords⟩
    apply OrderedMap.forall_mem_setAll
    · intro e he
      simp [OrderedMap.empty] at he
    · intro e he
      obtain ⟨record, hrecord, he⟩ := mem_filterMap.mp he
      unfold cacheEntry at he
      obtain ⟨fingerprint, hfingerprint, rfl⟩ := map_eq_some_iff.mp he
      have hok := hrecords record hrecord
      obtain ⟨hoids, hrefs⟩ := hok.fingerprint fingerprint hfingerprint
      refine ⟨?_, hrefs⟩
      rw [hoids]
      exact hok.chain
  · exact ⟨hmono, by simp⟩

theorem run_ok (h : CacheOk git shaped n cache)
    (inputs : List (Input α)) (huncovered : shaped → (saves git).Meets (FindsUncovered git) cache inputs) :
    ∀ record ∈ ((saves git).run cache inputs).2, RecordOk git shaped (n + inputs.length) record := by
  induction inputs generalizing n cache with
  | nil => simp
  | cons input rest ih =>
    obtain ⟨hcache, hrecords⟩ := save_ok h input fun hs => (huncovered hs).1
    intro record hrecord
    rw [Mealy.run_cons] at hrecord
    rw [length_cons]
    rcases mem_append.mp hrecord with hrecord | hrecord
    · exact (hrecords record hrecord).mono (by omega)
    · exact (ih hcache (fun hs => (huncovered hs).2) record hrecord).mono (by omega)

theorem ChainOk.length_le {oids : List α}
    (h : ChainOk git shaped n bundles oids) (hs : shaped) : bundles.length ≤ 61 + n / 65536 := by
  have hlength := (h.shape hs).length_le (by decide)
  have hweight := h.weight
  unfold GitBundles.weight firstWeight at hweight
  unfold levels at hlength hweight
  rw [length_map] at hlength
  simp only [CHECKPOINT_COVER_FANOUT, CHECKPOINT_COVER_MAX_LEVEL] at hlength hweight
  omega

/-- In every history of saves, each recorded chain unbundles in order into an
    empty repository, which then has all that the recorded refs and HEAD reach.
    As long as no save finds the refs and HEAD of a changed repository within
    what the base of a link reaches, a chain is at most 15 links for each of the
    four levels below the top, the first link, and one for each 65536 saves. -/
theorem bundles_chain (inputs : List (Input α)) :
    ∀ record ∈ ((saves git).run .empty inputs).2,
      (∃ objects, Unbundles git record.bundles (fun _ => False) objects ∧
        ∀ oid ∈ record.oids, ∀ x, Reaches git oid x → objects x) ∧
      ((saves git).Meets (FindsUncovered git) .empty inputs →
        record.bundles.length ≤ 61 + inputs.length / 65536) := by
  intro record hrecord
  have hstart : CacheOk git ((saves git).Meets (FindsUncovered git) .empty inputs) 0 .empty := by
    intro e he
    simp [OrderedMap.empty] at he
  have hok := (run_ok hstart inputs id record hrecord).chain
  rw [Nat.zero_add] at hok
  exact ⟨⟨_, hok.closed.unbundles, hok.covers⟩, hok.length_le⟩

/-! ## A branch that goes back and forth -/

/-- Two commits without parents, with one tree. -/
def twoRoots : Nat → Object Nat
  | 0 => .tree []
  | _ + 1 => .commit 0 []

theorem reaches_twoRoots {a b : Nat} : Reaches twoRoots a b ↔ a = b ∨ b = 0 := by
  constructor
  · intro h
    rcases h.cases with rfl | ⟨c, hc, hreach⟩
    · exact .inl rfl
    · have hzero : c = 0 := by
        cases a with
        | zero => simp [edges, twoRoots] at hc
        | succ a => simpa [edges, twoRoots, isCommit] using hc
      subst hzero
      rcases hreach.cases with rfl | ⟨c, hc, -⟩
      · exact .inr rfl
      · simp [edges, twoRoots] at hc
  · rintro (rfl | rfl)
    · exact .refl a
    · cases a with
      | zero => exact .refl 0
      | succ a => exact .of_edge (by simp [edges, twoRoots, isCommit])

instance : DecidableRel (Reaches twoRoots) := fun _ _ => decidable_of_iff _ reaches_twoRoots.symm

/-- A save when the only branch of the repository `r` is at a commit. -/
def saveAt (commit : Nat) : Input Nat :=
  ⟨.ofList [("r", ⟨some commit, [("refs/heads/main", commit)], [0, 1, 2]⟩)], true, true⟩

/-- The second save bundles the other commit. -/
theorem bundles_chain_two_saves :
    ((saves twoRoots).run .empty [saveAt 1, saveAt 2]).2.length = 2 ∧
      ∀ record ∈ ((saves twoRoots).run .empty [saveAt 1, saveAt 2]).2,
        (∃ objects, Unbundles twoRoots record.bundles (fun _ => False) objects ∧
          ∀ oid ∈ record.oids, ∀ x, Reaches twoRoots oid x → objects x) ∧ record.bundles.length ≤ 61 := by
  have hmeets : (saves twoRoots).Meets (FindsUncovered twoRoots) .empty [saveAt 1, saveAt 2] := by
    refine ⟨?_, ?_, trivial⟩
    · intro e _ cached hcached
      simp [loadCache, saveAt] at hcached
    · intro e he cached hcached _
      have he' : e = ("r", ⟨some 2, [("refs/heads/main", 2)], [0, 1, 2]⟩) := List.mem_singleton.mp he
      subst he'
      have hcached' : some (⟨⟨1, [("refs/heads/main", 1)]⟩, [("refs/heads/main", 1)],
          [⟨[1, 1], CHECKPOINT_COVER_MAX_LEVEL, []⟩]⟩ : CachedRepo Nat) = some cached := hcached
      rw [← Option.some.inj hcached']
      unfold Uncovered
      decide +kernel
  refine ⟨by decide +kernel, ?_⟩
  intro record hrecord
  obtain ⟨hrestored, hlength⟩ := bundles_chain [saveAt 1, saveAt 2] record hrecord
  exact ⟨hrestored, hlength hmeets⟩

/-- A branch that is at two commits in turn makes a link at every save, and none
    of them is merged. -/
theorem unmerged_links :
    ∃ record ∈ ((saves twoRoots).run .empty ((List.range 80).map fun i => saveAt (1 + i % 2))).2,
      15 * (CHECKPOINT_COVER_MAX_LEVEL + 1) + 1 < record.bundles.length := by
  have hany : (((saves twoRoots).run .empty ((List.range 80).map fun i => saveAt (1 + i % 2))).2.any
      fun record => decide (15 * (CHECKPOINT_COVER_MAX_LEVEL + 1) + 1 < record.bundles.length)) = true := by
    decide +kernel
  obtain ⟨record, hrecord, hlength⟩ := List.any_eq_true.mp hany
  exact ⟨record, hrecord, of_decide_eq_true hlength⟩

end Cohub.Checkpoint.GitBundles
