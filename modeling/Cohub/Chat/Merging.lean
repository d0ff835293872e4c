import Cohub.Chat.TurnCache

/-! # Merging and trimming turns

    Each sequence has one id.  Merging by ids then merges by sequences: what
    comes out has each sequence once, in order, so it is a span if the sequences
    that go in are an interval.  Trimming keeps a span, and drops turns at the
    end that `dropsOlder` and `dropsNewer` say. -/

namespace Cohub.Chat

open List OrderedMap

/-! ## Ids and sequences -/

/-- The turn has the id of its sequence. -/
def Named (ids : Nat → String) (turn : SessionTurn) : Prop := turn.id = ids turn.sequence

def sequencesOf (turns : List SessionTurn) : List Nat := turns.map SessionTurn.sequence

/-- Every turn is filed under its id, which is the one of its sequence. -/
def Filed (ids : Nat → String) (byId : OrderedMap String SessionTurn) : Prop :=
  ∀ entry ∈ byId.entries, entry.2.id = entry.1 ∧ Named ids entry.2

theorem has_setAll (l : List (String × SessionTurn)) (m : OrderedMap String SessionTurn) (k : String) :
    (m.setAll l).has k = true ↔ m.has k = true ∨ k ∈ l.map Prod.fst := by
  induction l generalizing m with
  | nil => simp [setAll]
  | cons e rest ih =>
    show ((m.set e.1 e.2).setAll rest).has k = true ↔ _
    rw [ih, map_cons, mem_cons]
    unfold has
    rw [get?_set]
    by_cases hk : k = e.1 <;> simp [hk]

section

variable {Session : Type} (env : Env Session) {ids : Nat → String}

theorem mergeAuthorIdentity_key (current incoming : SessionTurn) :
    (mergeAuthorIdentity current incoming).id = current.id ∧
      (mergeAuthorIdentity current incoming).sequence = current.sequence := by
  unfold mergeAuthorIdentity
  dsimp only
  split <;> simp

theorem mergeTurnRecord_key (current incoming : SessionTurn) (prefers : Bool) :
    let turn := mergeTurnRecord env current incoming prefers
    (turn.id = current.id ∧ turn.sequence = current.sequence) ∨
      (turn.id = incoming.id ∧ turn.sequence = incoming.sequence) := by
  have hidentity := mergeAuthorIdentity_key current incoming
  unfold mergeTurnRecord
  dsimp only
  cases prefers <;> split_ifs <;> try simp [hidentity]
  all_goals split <;> try simp [spread]
  all_goals split_ifs <;> simp [hidentity]

variable {byId : OrderedMap String SessionTurn} (prefers : Bool)

theorem filed_mergeInto (h : Filed ids byId)
    {turn : SessionTurn} (hturn : Named ids turn) : Filed ids (mergeInto env prefers byId turn) := by
  unfold mergeInto
  split
  · exact forall_mem_set h ⟨rfl, hturn⟩
  · next current hcurrent =>
    obtain ⟨hid, hnamed⟩ := h (turn.id, current) ((byId.mem_entries_iff _ _).mpr hcurrent)
    refine forall_mem_set h ?_
    unfold Named at hturn hnamed ⊢
    rcases mergeTurnRecord_key env current turn prefers with hkey | hkey
    · exact ⟨hkey.1.trans hid, by rw [hkey.1, hkey.2, hnamed]⟩
    · exact ⟨hkey.1, by rw [hkey.1, hkey.2, hturn]⟩

theorem has_mergeInto (byId : OrderedMap String SessionTurn) (turn : SessionTurn) (k : String) :
    (mergeInto env prefers byId turn).has k = true ↔ byId.has k = true ∨ k = turn.id := by
  have hset : ∀ t, (byId.set turn.id t).has k = true ↔ byId.has k = true ∨ k = turn.id := by
    intro t
    unfold has
    rw [get?_set]
    by_cases hk : k = turn.id <;> simp [hk]
  unfold mergeInto
  split <;> exact hset _

variable {incoming turns : List SessionTurn} {lo : Nat}

theorem mergeAll (h : Filed ids byId) (hincoming : ∀ turn ∈ incoming, Named ids turn) :
    Filed ids (incoming.foldl (mergeInto env prefers) byId) ∧
      ∀ k, (incoming.foldl (mergeInto env prefers) byId).has k = true ↔
        byId.has k = true ∨ k ∈ incoming.map SessionTurn.id := by
  induction incoming generalizing byId with
  | nil => exact ⟨h, fun k => by simp⟩
  | cons turn rest ih =>
    obtain ⟨hfiled, hhas⟩ := ih (filed_mergeInto env prefers h (hincoming turn mem_cons_self))
      fun t ht => hincoming t (mem_cons_of_mem _ ht)
    refine ⟨hfiled, fun k => ?_⟩
    rw [foldl_cons, hhas k, has_mergeInto, map_cons, mem_cons, or_assoc]

theorem mem_sequences_iff (hids : Function.Injective ids) (h : Filed ids byId) (q : Nat) :
    q ∈ sequencesOf (byId.entries.map Prod.snd) ↔ byId.has (ids q) = true := by
  unfold sequencesOf
  rw [map_map, mem_map, has_iff]
  constructor
  · rintro ⟨⟨k, turn⟩, hentry, rfl⟩
    obtain ⟨hid, hnamed⟩ := h _ hentry
    have hkey : k = ids turn.sequence := hid.symm.trans hnamed
    exact ⟨turn, (byId.mem_entries_iff _ _).mp (hkey ▸ hentry)⟩
  · rintro ⟨turn, hturn⟩
    have hentry := (byId.mem_entries_iff _ _).mpr hturn
    obtain ⟨hid, hnamed⟩ := h _ hentry
    exact ⟨_, hentry, hids (hnamed.symm.trans hid)⟩

theorem mem_ids_iff (hids : Function.Injective ids) (h : ∀ turn ∈ turns, Named ids turn) (q : Nat) :
    ids q ∈ turns.map SessionTurn.id ↔ q ∈ sequencesOf turns := by
  unfold sequencesOf
  rw [mem_map, mem_map]
  constructor
  · rintro ⟨turn, hturn, hid⟩
    exact ⟨turn, hturn, hids ((h turn hturn).symm.trans hid)⟩
  · rintro ⟨turn, hturn, rfl⟩
    exact ⟨turn, hturn, h turn hturn⟩

theorem nodup_filed (h : Filed ids byId) : (sequencesOf (byId.entries.map Prod.snd)).Nodup := by
  unfold sequencesOf
  refine List.Nodup.of_map ids ?_
  rw [map_map, map_map]
  rw [map_congr_left (g := Prod.fst) fun entry hentry => ?_]
  · exact byId.nodup
  · obtain ⟨hid, hnamed⟩ := h entry hentry
    exact hnamed.symm.trans hid

theorem perm_sortTurns (turns : List SessionTurn) : (sortTurns turns).Perm turns := perm_insertionSort _ _

theorem sorted_sortTurns (turns : List SessionTurn) :
    (sortTurns turns).Pairwise fun a b => a.sequence ≤ b.sequence := by
  have _ : Std.Total fun a b : SessionTurn => a.sequence ≤ b.sequence := ⟨fun a b => le_total _ _⟩
  have _ : IsTrans SessionTurn fun a b => a.sequence ≤ b.sequence := ⟨fun _ _ _ => le_trans⟩
  exact pairwise_insertionSort _ turns

theorem span_mergeTurnsById (hids : Function.Injective ids) {existing : List SessionTurn}
    (hexisting : ∀ turn ∈ existing, Named ids turn) (hincoming : ∀ turn ∈ incoming, Named ids turn)
    (prefers : Bool) {hi : Nat}
    (hmem : ∀ q, q ∈ sequencesOf existing ∨ q ∈ sequencesOf incoming ↔ lo ≤ q ∧ q < hi) :
    Span.From SessionTurn.sequence lo (mergeTurnsById env existing incoming prefers) ∧
      (mergeTurnsById env existing incoming prefers).length = hi - lo ∧
      ∀ turn ∈ mergeTurnsById env existing incoming prefers, Named ids turn := by
  let byId := OrderedMap.ofList (existing.map fun turn => (turn.id, turn))
  have hstart : Filed ids byId := by
    refine forall_mem_setAll _ (by simp [OrderedMap.empty]) ?_
    intro entry hentry
    obtain ⟨turn, hturn, rfl⟩ := mem_map.mp hentry
    exact ⟨rfl, hexisting turn hturn⟩
  have hbegin : ∀ k, byId.has k = true ↔ k ∈ existing.map SessionTurn.id := by
    intro k
    have := has_setAll (existing.map fun turn => (turn.id, turn)) .empty k
    simpa [has, byId, OrderedMap.ofList, Function.comp_def] using this
  obtain ⟨hfiled, hhas⟩ := mergeAll env prefers hstart hincoming
  let values := (incoming.foldl (mergeInto env prefers) byId).entries.map Prod.snd
  have hperm : (mergeTurnsById env existing incoming prefers).Perm values := perm_sortTurns _
  have hsequences : ∀ q, q ∈ sequencesOf values ↔ lo ≤ q ∧ q < hi := by
    intro q
    rw [mem_sequences_iff hids hfiled, hhas, hbegin, mem_ids_iff hids hexisting, mem_ids_iff hids hincoming, hmem]
  have hspan := @Span.from_of_sorted _ lo _ SessionTurn.sequence hi
    (sorted_sortTurns values) ((hperm.map SessionTurn.sequence).nodup_iff.mpr (nodup_filed hfiled))
    fun q => ((hperm.map SessionTurn.sequence).mem_iff).trans (hsequences q)
  refine ⟨hspan.1, hspan.2, fun turn hturn => ?_⟩
  obtain ⟨entry, hentry, rfl⟩ := mem_map.mp (hperm.mem_iff.mp hturn)
  exact (hfiled entry hentry).2

theorem sortTurns_of_span (h : Span.From SessionTurn.sequence lo turns) :
    sortTurns turns = turns := by
  unfold sortTurns
  exact h.sorted.insertionSort_eq

end

/-! ## Trimming -/

/-- Trimming the turns from `lo` to before `hi` drops the first of them. -/
def dropsOlder (mode : Option TrimMode) (anchorSequence : Option Nat) (lo hi : Nat) : Bool :=
  MAX_TURNS_PER_SESSION_CACHE < hi - lo &&
    match anchorSequence with
    | some anchorSequence => lo + MAX_TURNS_PER_SESSION_CACHE / 2 < anchorSequence
    | none => mode ≠ some .head

/-- Trimming them drops the last of them. -/
def dropsNewer (mode : Option TrimMode) (anchorSequence : Option Nat) (lo hi : Nat) : Bool :=
  MAX_TURNS_PER_SESSION_CACHE < hi - lo &&
    match anchorSequence with
    | some anchorSequence => anchorSequence + MAX_TURNS_PER_SESSION_CACHE / 2 < hi
    | none => mode = some .head

variable {lo : Nat} {turns : List SessionTurn}

theorem anchorIndex_eq (h : Span.From SessionTurn.sequence lo turns)
    (hne : 0 < turns.length) (anchorSequence : Nat) :
    anchorIndex turns anchorSequence = min (anchorSequence - lo) (turns.length - 1) := by
  have hat : ∀ i, (hi : i < turns.length) → turns[i].sequence = lo + i := by
    intro i hi
    have hmap : (turns.map SessionTurn.sequence)[i]? = some turns[i].sequence := by simp [hi]
    unfold Span.From at h
    rw [h, getElem?_range' hi] at hmap
    simpa using hmap.symm
  unfold anchorIndex
  cases hfound : turns.findIdx? fun turn => turn.sequence ≥ anchorSequence with
  | some i =>
    obtain ⟨hi, hreached, hbefore⟩ := findIdx?_eq_some_iff_getElem.mp hfound
    simp only [decide_eq_true_eq, hat i hi] at hreached
    dsimp only
    cases i with
    | zero => omega
    | succ i =>
      have hlast := hbefore i (Nat.lt_succ_self i)
      simp only [decide_eq_true_eq, hat i (by omega)] at hlast
      omega
  | none =>
    have hall := findIdx?_eq_none_iff.mp hfound turns[turns.length - 1] (getElem_mem _)
    simp only [decide_eq_false_iff_not, hat (turns.length - 1) (by omega)] at hall
    have hfirst : (turns[0]?.map SessionTurn.sequence).getD 0 = lo := by
      rw [getElem?_eq_getElem hne]
      simp [hat 0 hne]
    dsimp only
    rw [hfirst, if_neg (by omega)]
    omega

theorem span_trimTurns {hi : Nat} (h : Span.From SessionTurn.sequence lo turns)
    (hlength : turns.length = hi - lo) (mode : Option TrimMode) (anchorSequence : Option Nat) :
    ∃ start, Span.From SessionTurn.sequence (lo + start) (trimTurns turns mode anchorSequence) ∧
      (trimTurns turns mode anchorSequence).length = min turns.length MAX_TURNS_PER_SESSION_CACHE ∧
      start + (trimTurns turns mode anchorSequence).length ≤ turns.length ∧
      (0 < start → dropsOlder mode anchorSequence lo hi = true) ∧
      (start + (trimTurns turns mode anchorSequence).length < turns.length →
        dropsNewer mode anchorSequence lo hi = true) := by
  unfold trimTurns
  by_cases hfits : turns.length ≤ MAX_TURNS_PER_SESSION_CACHE
  · rw [if_pos hfits]
    exact ⟨0, h, (min_eq_left hfits).symm, by omega, by omega, by omega⟩
  rw [if_neg hfits]
  unfold dropsOlder dropsNewer MAX_TURNS_PER_SESSION_CACHE at *
  cases anchorSequence with
  | some anchor =>
    have hindex := anchorIndex_eq h (by omega) anchor
    dsimp only
    refine ⟨min (anchorIndex turns anchor - 500 / 2) (turns.length - 500), (h.drop _).take _, ?_, ?_, ?_, ?_⟩
    · rw [length_take, length_drop]
      omega
    · rw [length_take, length_drop]
      omega
    · intro hdrops
      simp only [Bool.and_eq_true, decide_eq_true_eq]
      omega
    · intro hdrops
      rw [length_take, length_drop] at hdrops
      simp only [Bool.and_eq_true, decide_eq_true_eq]
      omega
  | none =>
    dsimp only
    by_cases hmode : mode = some .head
    · rw [if_pos hmode]
      refine ⟨0, h.take _, ?_, ?_, by omega, ?_⟩
      · rw [length_take]
        omega
      · rw [length_take]
        omega
      · intro _
        simp [hmode]
        omega
    · rw [if_neg hmode]
      refine ⟨turns.length - 500, h.drop _, ?_, ?_, ?_, ?_⟩
      · rw [length_drop]
        omega
      · rw [length_drop]
        omega
      · intro _
        simp [hmode]
        omega
      · intro hdrops
        rw [length_drop] at hdrops
        omega

/-! ## Terminal turns -/

section

variable {Session : Type} (env : Env Session)

theorem isTerminal_mergeTurnRecord (current incoming : SessionTurn) (prefers : Bool) :
    isTerminal (mergeTurnRecord env current incoming prefers).status =
      (isTerminal current.status || isTerminal incoming.status) := by
  have hstatus : (mergeAuthorIdentity current incoming).status = current.status := by
    unfold mergeAuthorIdentity
    dsimp only
    split <;> rfl
  unfold mergeTurnRecord
  cases hcurrent : isTerminal current.status <;> cases hincoming : isTerminal incoming.status <;>
    cases prefers <;> simp only [] <;> repeat' split
  all_goals simp_all [spread]

/-- A turn of this id is among the turns, and it is over. -/
def Ended (turns : List SessionTurn) (id : String) : Prop :=
  ∃ turn ∈ turns, turn.id = id ∧ isTerminal turn.status = true

def Keyed (byId : OrderedMap String SessionTurn) : Prop := ∀ entry ∈ byId.entries, entry.2.id = entry.1

variable {byId : OrderedMap String SessionTurn} {prefers : Bool} {incoming existing : List SessionTurn}

theorem ended_iff (h : Keyed byId) (id : String) : Ended (byId.entries.map Prod.snd) id ↔
    ∃ turn, byId.get? id = some turn ∧ isTerminal turn.status = true := by
  constructor
  · rintro ⟨turn, hturn, rfl, hterminal⟩
    obtain ⟨⟨k, turn⟩, hentry, rfl⟩ := mem_map.mp hturn
    obtain rfl : turn.id = k := h _ hentry
    exact ⟨turn, (byId.mem_entries_iff _ _).mp hentry, hterminal⟩
  · rintro ⟨turn, hturn, hterminal⟩
    have hentry := (byId.mem_entries_iff _ _).mpr hturn
    exact ⟨turn, mem_map.mpr ⟨_, hentry, rfl⟩, h _ hentry, hterminal⟩

theorem keyed_mergeInto (h : Keyed byId) (turn : SessionTurn) :
    Keyed (mergeInto env prefers byId turn) := by
  unfold mergeInto
  split
  · exact forall_mem_set h rfl
  · next current hcurrent =>
    have hid := h (turn.id, current) ((byId.mem_entries_iff _ _).mpr hcurrent)
    refine forall_mem_set h ?_
    rcases mergeTurnRecord_key env current turn prefers with hkey | hkey
    · exact hkey.1.trans hid
    · exact hkey.1

theorem ended_mergeInto (h : Keyed byId) (turn : SessionTurn) (id : String) :
    Ended ((mergeInto env prefers byId turn).entries.map Prod.snd) id ↔
      Ended (byId.entries.map Prod.snd) id ∨ turn.id = id ∧ isTerminal turn.status = true := by
  rw [ended_iff (keyed_mergeInto env h turn), ended_iff h]
  unfold mergeInto
  by_cases hid : id = turn.id
  · subst hid
    cases hcurrent : byId.get? turn.id with
    | none => simp
    | some current => simp [isTerminal_mergeTurnRecord]
  · have hne : turn.id ≠ id := fun heq => hid heq.symm
    split <;> simp [hid, hne]

theorem ended_mergeAll (h : Keyed byId) :
    Keyed (incoming.foldl (mergeInto env prefers) byId) ∧ ∀ id,
      Ended ((incoming.foldl (mergeInto env prefers) byId).entries.map Prod.snd) id ↔
        Ended (byId.entries.map Prod.snd) id ∨ Ended incoming id := by
  induction incoming generalizing byId with
  | nil => exact ⟨h, fun id => by simp [Ended]⟩
  | cons turn rest ih =>
    obtain ⟨hkeyed, hended⟩ := ih (keyed_mergeInto env h turn)
    refine ⟨hkeyed, fun id => ?_⟩
    rw [foldl_cons, hended id, ended_mergeInto env h turn id, or_assoc]
    simp [Ended]

theorem ended_mergeTurnsById (h : (existing.map SessionTurn.id).Nodup) :
    ((mergeTurnsById env existing incoming prefers).map SessionTurn.id).Nodup ∧ ∀ id,
      Ended (mergeTurnsById env existing incoming prefers) id ↔
        Ended existing id ∨ Ended incoming id := by
  have hentries := entries_ofList (l := existing.map fun turn => (turn.id, turn))
    (by rw [map_map]; exact h)
  have hkeyed : Keyed (ofList (existing.map fun turn => (turn.id, turn))) := by
    unfold Keyed
    rw [hentries]
    simp
  have hall : Keyed (incoming.foldl (mergeInto env prefers) _) ∧ _ := ended_mergeAll env hkeyed
  obtain ⟨hmerged, hended⟩ := hall
  have hperm := perm_sortTurns ((incoming.foldl (mergeInto env prefers)
    (ofList (existing.map fun turn => (turn.id, turn)))).entries.map Prod.snd)
  constructor
  · refine (hperm.map SessionTurn.id).nodup_iff.mpr ?_
    rw [map_map]
    exact (congrArg Nodup (map_congr_left hmerged)).mpr (OrderedMap.nodup _)
  · intro id
    rw [hentries, map_map] at hended
    refine Iff.trans ?_ ((hended id).trans (by simp [Function.comp_def]))
    exact exists_congr fun turn => and_congr_left fun _ => hperm.mem_iff

/-- Whatever pages are merged, in whatever order and with whatever preference,
    a turn of the cache is over exactly if some page had it as over. -/
theorem ended_mergePages_iff (pages : List (List SessionTurn × Bool)) (id : String) :
    Ended (pages.foldl (fun turns page => mergeTurnsById env turns page.1 page.2) []) id ↔
      ∃ page ∈ pages, Ended page.1 id := by
  have hpages (turns : List SessionTurn) (h : (turns.map SessionTurn.id).Nodup) :
      Ended (pages.foldl (fun turns page => mergeTurnsById env turns page.1 page.2) turns) id ↔
        Ended turns id ∨ ∃ page ∈ pages, Ended page.1 id := by
    induction pages generalizing turns with
    | nil => simp
    | cons page rest ih =>
      obtain ⟨hnodup, hended⟩ := ended_mergeTurnsById env h
      rw [foldl_cons, ih _ hnodup, hended id, or_assoc]
      simp
  rw [hpages [] nodup_nil]
  simp [Ended]

end

end Cohub.Chat
