import Cohub.Runtime.ArchiveStore

/-! # What a restore reads

    An index is a `Cut` of its bytes: it lists the segments behind the bytes of
    its parent.  A final index of the service heads a `Chain` of final indexes
    whose objects are all there, and a restore of the index reads this chain
    back, from a cache or from the service. -/

namespace Cohub.Runtime

open List

open Disk (headPath)

variable {δ : Type} {host : Host δ} {S : Set Bytes} {index : HarnessArchiveIndex δ}
  {parent parent' : Option (HarnessArchiveIndex δ)} {before before' bytes bytes' : Bytes}
  {chunks chunks' : List Bytes}

/-! ## Cuts -/

variable {c : Bytes}

theorem exists_segment (host : Host δ) {chunks : List Bytes} (hc : c ∈ chunks) :
    ∀ offset, ∃ segment ∈ segmentsOf host offset chunks, segment.sha256 = host.sha256 c := by
  induction chunks with
  | nil => cases hc
  | cons first rest ih =>
    intro offset
    rcases mem_cons.mp hc with rfl | hc
    · exact ⟨_, mem_cons_self, rfl⟩
    · obtain ⟨segment, hmem, hsha⟩ := ih hc (offset + first.length)
      exact ⟨segment, mem_cons_of_mem _ hmem, hsha⟩

variable [DecidableEq δ]

/-- The index has the segments that its bytes have behind those of the parent. -/
structure Cut (host : Host δ) (S : Set Bytes) (index : HarnessArchiveIndex δ)
    (parent : Option (HarnessArchiveIndex δ)) (before bytes : Bytes) (chunks : List Bytes) : Prop where
  valid : harnessArchiveIndexSchema host index = true
  boundary : validateArchiveBoundary index parent = .ok ()
  joined : before ++ chunks.flatten = bytes
  segments : index.segments = segmentsOf host before.length chunks
  size : index.sizeBytes = bytes.length
  sha : index.sha256 = host.sha256 bytes
  mem : bytes ∈ S

theorem boundary_parent (h : validateArchiveBoundary index parent = .ok ()) :
    index.parentTurnId = parent.map (·.turnId) := by
  by_contra hne
  rw [validateArchiveBoundary, if_pos hne] at h
  cases h

theorem boundary_identity {index parent : HarnessArchiveIndex δ}
    (h : validateArchiveBoundary index (some parent) = .ok ()) :
    parent.sessionId = index.sessionId ∧ parent.harness = index.harness := by
  rw [validateArchiveBoundary, if_neg (not_not.mpr (boundary_parent h))] at h
  by_cases hid : parent.sessionId = index.sessionId ∧ parent.harness = index.harness
  · exact hid
  · rw [if_pos (by simp; tauto)] at h
    cases h

theorem Cut.chunk_mem (h : Cut host S index parent before bytes chunks)
    (hS : Addressed.Faithful host.sha256 S) (hc : c ∈ chunks) : c ∈ S := by
  refine hS.piece bytes h.mem c ?_
  rw [← h.joined]
  exact (Addressed.infix_of_mem_flatten hc).trans (suffix_append _ _).isInfix

theorem Cut.bytes_eq (hS : Addressed.Faithful host.sha256 S)
    (h : Cut host S index parent before bytes chunks)
    (h' : Cut host S index parent' before' bytes' chunks') : bytes = bytes' :=
  hS.eq h.mem h'.mem (h.sha.symm.trans h'.sha)

/-! ## Chains of final indexes -/

/-- A final index, those it grew from, and the bytes that they stand for. -/
inductive Chain (host : Host δ) (S : Set Bytes) (service : Service δ) :
    List (HarnessArchiveIndex δ) → Bytes → Prop
  | nil : Chain host S service [] []
  | cons {index rest before bytes chunks} (hrest : Chain host S service rest before)
      (hcut : Cut host S index rest.head? before bytes chunks)
      (hfinal : service.archives index.turnId = some index)
      (hobjects : ∀ c ∈ chunks,
        service.objects (headPath index.toHarnessArchive) (host.sha256 c) = some c)
      (hfresh : ∀ i ∈ rest, i.turnId ≠ index.turnId) : Chain host S service (index :: rest) bytes

namespace Chain

variable {service service' : Service δ} {chain rest : List (HarnessArchiveIndex δ)}

theorem final (h : Chain host S service chain bytes) :
    ∀ i ∈ chain, service.archives i.turnId = some i := by
  induction h with
  | nil => exact fun _ hi => nomatch hi
  | cons _ _ hfinal _ _ ih => exact forall_mem_cons.mpr ⟨hfinal, ih⟩

theorem mono (h : Chain host S service chain bytes)
    (harchives : ∀ t i, service.archives t = some i → service'.archives t = some i)
    (hobjects : ∀ owner d b, service.objects owner d = some b → service'.objects owner d = some b) :
    Chain host S service' chain bytes := by
  induction h with
  | nil => exact .nil
  | cons _ hcut hfinal hhas hfresh ih =>
    exact .cons ih hcut (harchives _ _ hfinal) (fun c hc => hobjects _ _ _ (hhas c hc)) hfresh

end Chain

/-! ## A chain is restored -/

def Service.page (service : Service δ) (index : HarnessArchiveIndex δ) : RuntimeArchivePage δ :=
  ⟨index, index.segments.map fun segment =>
    (segment, service.objects (headPath index.toHarnessArchive) segment.sha256)⟩

variable {service : Service δ} {cache : δ → Option Bytes}

omit [DecidableEq δ] in
theorem getRuntimeArchive_of_final (h : service.archives index.turnId = some index) :
    service.getRuntimeArchive index.sessionId index.turnId = some (service.page index) := by
  simp [Service.getRuntimeArchive, Service.storedIndex, h, Service.page]

variable {reference : HarnessArchive} {rest : List (HarnessArchiveIndex δ)}

theorem readPages_chain
    (h : Chain host S service (index :: rest) bytes) (hsession : index.sessionId = reference.sessionId)
    (hharness : index.harness = reference.harness) :
    ∀ fuel visited, rest.length < fuel → (∀ i ∈ index :: rest, i.turnId ∉ visited) →
      readPages host service reference fuel index.turnId visited =
        .ok ((index :: rest).map service.page) := by
  induction rest generalizing index bytes with
  | nil =>
    intro fuel visited hfuel hvisited
    obtain ⟨fuel, rfl⟩ := Nat.exists_eq_succ_of_ne_zero (Nat.ne_of_gt hfuel)
    cases h with
    | cons _ hcut hfinal =>
      have hparent : index.parentTurnId = none := boundary_parent hcut.boundary
      rw [readPages, if_neg (hvisited index mem_cons_self), ← hsession,
        getRuntimeArchive_of_final hfinal]
      simp [Service.page, hcut.valid, hsession, hharness, hparent]
  | cons parent rest ih =>
    intro fuel visited hfuel hvisited
    obtain ⟨fuel, rfl⟩ := Nat.exists_eq_succ_of_ne_zero (Nat.ne_of_gt (Nat.zero_lt_of_lt hfuel))
    cases h with
    | cons hrest hcut hfinal _ hfresh =>
      have hparent : index.parentTurnId = some parent.turnId := boundary_parent hcut.boundary
      have hid := boundary_identity hcut.boundary
      have hlater := ih hrest (hid.1.trans hsession) (hid.2.trans hharness) fuel
        (index.turnId :: visited) (by simpa using hfuel) (by
          intro i hi
          rw [mem_cons, not_or]
          exact ⟨hfresh i hi, hvisited i (mem_cons_of_mem _ hi)⟩)
      rw [readPages, if_neg (hvisited index mem_cons_self), ← hsession,
        getRuntimeArchive_of_final hfinal]
      simp only [Service.page, hcut.valid, not_true_eq_false, if_false, hsession, hharness, hparent,
        ne_eq, decide_false, Bool.or_self, Bool.false_eq_true, hlater]
      rfl

section

variable (hS : Addressed.Faithful host.sha256 S)
include hS

theorem restoreSegment_chunk (hcache : Addressed.Holds host.sha256 S cache) (hc : c ∈ S)
    (segment : RuntimeArchiveSegment δ) (hsize : segment.sizeBytes = c.length)
    (hsha : segment.sha256 = host.sha256 c) :
    ∃ cache', restoreSegment host cache segment (some (segment, some c)) = (cache', .ok c) ∧
      Addressed.Holds host.sha256 S cache' := by
  unfold restoreSegment
  cases hhas : cache segment.sha256 with
  | some cached =>
    have heq : cached = c := hcache.eq hS hc (hsha ▸ hhas)
    subst heq
    exact ⟨cache, by simp [hsize, hsha], hcache⟩
  | none =>
    exact ⟨_, by simp [hsize, hsha], hcache.put hsha.symm hc⟩

theorem restoreSegments_chunks
    (links : List (RuntimeArchiveSegment δ × Option Bytes)) (objects : δ → Option Bytes) (hchunks : ∀ c ∈ chunks, c ∈ S)
    (hobjects : ∀ c ∈ chunks, objects (host.sha256 c) = some c) :
    ∀ written cache ordinal offset, Addressed.Holds host.sha256 S cache →
      links.drop ordinal =
        (segmentsOf host offset chunks).map (fun segment => (segment, objects segment.sha256)) →
      ∃ cache', restoreSegments host links written cache ordinal (segmentsOf host offset chunks) =
        (cache', .ok (written ++ chunks.flatten)) ∧ Addressed.Holds host.sha256 S cache' := by
  induction chunks with
  | nil =>
    intro written cache ordinal offset hcache _
    exact ⟨cache, by simp [segmentsOf, restoreSegments], hcache⟩
  | cons c rest ih =>
    intro written cache ordinal offset hcache hlinks
    obtain ⟨hc, hrest⟩ := forall_mem_cons.mp hchunks
    obtain ⟨hobject, hothers⟩ := forall_mem_cons.mp hobjects
    rw [segmentsOf, map_cons] at hlinks
    have hfirst : links[ordinal]? = some (⟨offset, c.length, host.sha256 c, host.md5 c⟩, some c) := by
      rw [← head?_drop, hlinks, head?_cons, hobject]
    have hnext : links.drop (ordinal + 1) = (segmentsOf host (offset + c.length) rest).map
        (fun segment => (segment, objects segment.sha256)) := by
      rw [← tail_drop, hlinks, tail_cons]
    obtain ⟨cache', hsegment, hcache'⟩ := restoreSegment_chunk hS hcache hc
      ⟨offset, c.length, host.sha256 c, host.md5 c⟩ rfl rfl
    obtain ⟨cache'', hlater, hcache''⟩ := ih hrest hothers (written ++ c) cache' (ordinal + 1)
      (offset + c.length) hcache' hnext
    refine ⟨cache'', ?_, hcache''⟩
    rw [segmentsOf, restoreSegments, hfirst, hsegment]
    simp only [hlater, flatten_cons, append_assoc]

theorem restorePages_chain (hcache : Addressed.Holds host.sha256 S cache)
    {chain : List (HarnessArchiveIndex δ)} (h : Chain host S service chain bytes) :
    ∀ later, ∃ cache', Addressed.Holds host.sha256 S cache' ∧
      restorePages host [] cache none ((chain.map service.page).reverse ++ later) =
        restorePages host bytes cache' chain.head? later := by
  induction h with
  | nil => exact fun later => ⟨cache, hcache, rfl⟩
  | @cons index rest before bytes chunks hrest hcut _ hobjects _ ih =>
    intro later
    obtain ⟨cache₁, hcache₁, hparents⟩ := ih (service.page index :: later)
    obtain ⟨cache₂, hsegments, hcache₂⟩ := restoreSegments_chunks hS
      (service.page index).segments (service.objects (headPath index.toHarnessArchive))
      (fun c hc => hcut.chunk_mem hS hc) hobjects before cache₁ 0 before.length hcache₁ (by
        rw [drop_zero, ← hcut.segments]
        rfl)
    rw [← hcut.segments, hcut.joined] at hsegments
    refine ⟨cache₂, hcache₂, ?_⟩
    rw [map_cons, reverse_cons, append_assoc, singleton_append, hparents,
      restorePages]
    simp only [Service.page] at hsegments ⊢
    simp [hcut.boundary, hsegments, hcut.sha]

theorem restore_chain (hcache : Addressed.Holds host.sha256 S cache)
    (h : Chain host S service (index :: rest) bytes) {fuel : Nat} (hfuel : rest.length < fuel) :
    (restore host service fuel cache index.toHarnessArchive).2 = .ok (index, bytes) := by
  have hpages := readPages_chain h rfl rfl fuel [] hfuel (fun _ _ => not_mem_nil)
  obtain ⟨cache', -, hrestored⟩ := restorePages_chain hS hcache h []
  rw [append_nil] at hrestored
  cases h with
  | cons _ hcut =>
    rw [restore, hpages]
    simp only [map_cons, head?_cons] at hrestored ⊢
    rw [hrestored]
    simp [restorePages, Service.page, hcut.size]

/-! ## The cache after a restore

    A download that is kept has passed its check, also when the restore fails
    afterwards. -/

end

theorem restoreSegment_holds (hcache : Addressed.Holds host.sha256 S cache)
    (expected : RuntimeArchiveSegment δ) (link : Option (RuntimeArchiveSegment δ × Option Bytes))
    (hlink : ∀ l, link = some l → ∀ b, l.2 = some b → b ∈ S) :
    Addressed.Holds host.sha256 S (restoreSegment host cache expected link).1 := by
  unfold restoreSegment
  split
  · split <;> exact hcache
  · split
    · exact hcache
    · split
      · exact hcache
      · split
        · exact hcache
        · split
          · exact hcache
          · split
            · exact hcache
            · rename_i hmatch
              simp only [Bool.or_eq_true, decide_eq_true_eq, not_or, not_not] at hmatch
              exact hcache.put hmatch.2 (hlink _ rfl _ rfl)

theorem restoreSegments_holds (host : Host δ) {links : List (RuntimeArchiveSegment δ × Option Bytes)}
    (hlinks : ∀ l ∈ links, ∀ b, l.2 = some b → b ∈ S) (segments : List (RuntimeArchiveSegment δ)) :
    ∀ written cache ordinal, Addressed.Holds host.sha256 S cache →
      Addressed.Holds host.sha256 S (restoreSegments host links written cache ordinal segments).1 := by
  induction segments with
  | nil => exact fun _ _ _ hcache => hcache
  | cons expected rest ih =>
    intro written cache ordinal hcache
    have hfirst := restoreSegment_holds hcache expected links[ordinal]?
      fun l hl => hlinks l (mem_of_getElem? hl)
    rw [restoreSegments]
    split
    · next heq => rw [heq] at hfirst; exact hfirst
    · next heq => rw [heq] at hfirst; exact ih _ _ _ hfirst

theorem restorePages_holds (host : Host δ) {pages : List (RuntimeArchivePage δ)}
    (hpages : ∀ page ∈ pages, ∀ l ∈ page.segments, ∀ b, l.2 = some b → b ∈ S) :
    ∀ written cache parent, Addressed.Holds host.sha256 S cache →
      Addressed.Holds host.sha256 S (restorePages host written cache parent pages).1 := by
  induction pages with
  | nil => exact fun _ _ _ hcache => hcache
  | cons page rest ih =>
    intro written cache parent hcache
    obtain ⟨hpage, hrest⟩ := forall_mem_cons.mp hpages
    have hfirst := restoreSegments_holds host hpage page.index.segments written cache 0 hcache
    rw [restorePages]
    split
    · exact hcache
    · split
      · exact hcache
      · split
        · next heq => rw [heq] at hfirst; exact hfirst
        · next heq =>
          rw [heq] at hfirst
          split
          · exact hfirst
          · exact ih hrest _ _ _ hfirst

omit [DecidableEq δ] in
theorem readPages_page :
    ∀ fuel turnId visited pages, readPages host service reference fuel turnId visited = .ok pages →
      ∀ page ∈ pages, ∃ index, page = service.page index := by
  intro fuel
  induction fuel with
  | zero => intro _ _ _ h; cases h
  | succ fuel ih =>
    intro turnId visited pages h
    rw [readPages] at h
    split at h
    · cases h
    · split at h
      · cases h
      · next page hpage =>
        obtain ⟨index, -, rfl⟩ := Option.map_eq_some_iff.mp hpage
        split at h
        · cases h
        · split at h
          · cases h
          · split at h
            · cases h
              simp [Service.page]
            · cases hlater : readPages host service reference fuel _ (turnId :: visited) with
              | error message => rw [hlater] at h; cases h
              | ok later =>
                rw [hlater] at h
                cases h
                exact forall_mem_cons.mpr ⟨⟨index, rfl⟩, ih _ _ _ hlater⟩

theorem restore_holds (hobjects : ∀ owner, Addressed.Holds host.sha256 S (service.objects owner))
    (hcache : Addressed.Holds host.sha256 S cache) (fuel : Nat) (reference : HarnessArchive) :
    Addressed.Holds host.sha256 S (restore host service fuel cache reference).1 := by
  rw [restore]
  cases hread : readPages host service reference fuel reference.turnId [] with
  | error message => exact hcache
  | ok pages =>
    have hpages : ∀ page ∈ pages.reverse, ∀ l ∈ page.segments, ∀ b, l.2 = some b → b ∈ S := by
      intro page hpage l hl b hb
      obtain ⟨index, rfl⟩ := readPages_page _ _ _ _ hread page (mem_reverse.mp hpage)
      obtain ⟨segment, -, rfl⟩ := mem_map.mp hl
      exact (hobjects _ _ _ hb).2
    have hrestored := restorePages_holds host hpages [] cache none hcache
    cases hhead : pages.head? with
    | none =>
      simp only [hhead]
      exact hcache
    | some head =>
      simp only [hhead]
      split
      · next heq => rw [heq] at hrestored; exact hrestored
      · next heq =>
        rw [heq] at hrestored
        split <;> exact hrestored

end Cohub.Runtime
