import Cohub.Lib.Lines
import Cohub.Lib.OrderedMap
import Mathlib.Data.UInt

/-! # Reading a transcript line by line

    A transcript is a file of JSON records, each ended by a newline.
    `readTranscriptLines` gets it in chunks and returns the records with their
    byte offsets, and the checksum of everything up to each newline.  `transcript`
    says the same of the whole byte stream; the reader gives it for every way of
    cutting the stream into chunks. -/

namespace Cohub.Native

open Lines List

abbrev Bytes := List UInt8

def NATIVE_MAX_RECORD_BYTES : Nat := 256 * 1024 * 1024
def NATIVE_MAX_TRANSCRIPT_BYTES : Nat := 1024 * 1024 * 1024

def recordLimit : String := "Native record exceeds the 256 MiB local parse limit; original retained"
def transcriptLimit : String :=
  "Native transcript exceeds the 1 GiB local parse limit; original retained"
def invalidRecord : String := "Invalid native JSON record; original retained"

/-- The byte that ends a record. -/
def newline : UInt8 := 10

/-! ## The reader -/

/-- A record with where it starts and ends, and the checksum of all up to its end. -/
structure Line (V D : Type) where
  value : V
  startBytes : Nat
  endBytes : Nat
  sha256 : D
deriving DecidableEq

structure TranscriptLines (V D : Type) where
  lines : List (Line V D)
  /-- By offset, the checksum of the bytes before it. -/
  prefixes : OrderedMap Nat D

/-- The variables of `readTranscriptLines` while it runs. -/
structure Reading (V D : Type) where
  lines : List (Line V D)
  prefixes : OrderedMap Nat D
  fragments : List Bytes
  pendingBytes : Nat
  offset : Nat
  /-- What the checksum was updated with. -/
  checksum : Bytes

section

variable {V D : Type}

-- `parse` is `record(JSON.parse(...))` of a record's bytes, `none` where it throws;
-- `digest` is the checksum of the bytes it was updated with
variable (parse : Bytes → Option V) (digest : Bytes → D)

def append (s : Reading V D) (bytes : Bytes) : Except String (Reading V D) :=
  if bytes.length = 0 then .ok s
  else
    let fragments := s.fragments ++ [bytes]
    let pendingBytes := s.pendingBytes + bytes.length
    let checksum := s.checksum ++ bytes
    if pendingBytes > NATIVE_MAX_RECORD_BYTES then .error recordLimit
    else if s.offset + pendingBytes > NATIVE_MAX_TRANSCRIPT_BYTES then .error transcriptLimit
    else .ok { s with fragments, pendingBytes, checksum }

/-- The pending bytes end with a newline: they become a record. -/
def endRecord (s : Reading V D) : Except String (Reading V D) :=
  let bytes := s.fragments.flatten
  let line := bytes.take (bytes.length - 1)
  let startBytes := s.offset
  let offset := s.offset + s.pendingBytes
  let sha256 := digest s.checksum
  let prefixes := s.prefixes.set offset sha256
  let ended : Reading V D := { s with prefixes, offset, fragments := [], pendingBytes := 0 }
  if line.length = 0 then .ok ended
  else
    match parse line with
    | none => .error invalidRecord
    | some value =>
        .ok { ended with lines := s.lines ++ [⟨value, startBytes, offset, sha256⟩] }

/-- The rounds of the loop over a chunk's newlines. -/
def readRecords : List Bytes → Reading V D → Except String (Reading V D)
  | [], s => .ok s
  | body :: rest, s => do
      let s ← append s (body ++ [newline])
      let s ← endRecord parse digest s
      readRecords rest s

/-- One chunk: each newline ends a record, what follows the last one is kept. -/
def readChunk (s : Reading V D) (chunk : Bytes) : Except String (Reading V D) := do
  let s ← readRecords parse digest (cut newline chunk).1 s
  append s (cut newline chunk).2

def Reading.start : Reading V D := ⟨[], .empty, [], 0, 0, []⟩

def readTranscriptLines (stream : List Bytes) : Except String (TranscriptLines V D) := do
  let s ← stream.foldlM (readChunk parse digest) .start
  return ⟨s.lines, s.prefixes⟩

/-! ## The lines of a stream of bytes -/

/-- The records of a stream, each with the bytes before it. -/
def recordsFrom (before : Bytes) : List Bytes → List (Bytes × Bytes)
  | [] => []
  | body :: rest => (before, body) :: recordsFrom (before ++ (body ++ [newline])) rest

/-- The offset after a record. -/
def stop (r : Bytes × Bytes) : Nat := r.1.length + (r.2.length + 1)

/-- The checksum of all bytes up to the end of a record. -/
def sha (r : Bytes × Bytes) : D := digest (r.1 ++ (r.2 ++ [newline]))

/-- The line of a record; an empty one has none. -/
def lineOf (r : Bytes × Bytes) : Option (Line V D) :=
  if r.2 = [] then none else (parse r.2).map (⟨·, r.1.length, stop r, sha digest r⟩)

def linesOf (records : List (Bytes × Bytes)) : List (Line V D) :=
  records.filterMap (lineOf parse digest)

def prefixesOf (records : List (Bytes × Bytes)) : List (Nat × D) :=
  records.map fun r => (stop r, sha digest r)

/-- The bytes are within the limits, and each record is empty or parses. -/
structure Readable (bytes : Bytes) : Prop where
  size : bytes.length ≤ NATIVE_MAX_TRANSCRIPT_BYTES
  record : ∀ body ∈ (cut newline bytes).1, body.length + 1 ≤ NATIVE_MAX_RECORD_BYTES
  tail : (cut newline bytes).2.length ≤ NATIVE_MAX_RECORD_BYTES
  parses : ∀ body ∈ (cut newline bytes).1, body ≠ [] → (parse body).isSome

/-- The records of the bytes, up to the last newline. -/
def recordsOf (bytes : Bytes) : List (Bytes × Bytes) := recordsFrom [] (cut newline bytes).1

/-- What the bytes say, if they are readable. -/
structure Transcript (bytes : Bytes) (read : TranscriptLines V D) : Prop where
  readable : Readable parse bytes
  lines : read.lines = linesOf parse digest (recordsOf bytes)
  prefixes : read.prefixes.entries = prefixesOf digest (recordsOf bytes)

/-! ## The bytes before a record -/

theorem recordsFrom_append (before : Bytes) (bodies : List Bytes) (body : Bytes) :
    recordsFrom before (bodies ++ [body]) =
      recordsFrom before bodies ++ [(before ++ ended newline bodies, body)] := by
  induction bodies generalizing before with
  | nil => simp [recordsFrom]
  | cons first bodies ih => simp [recordsFrom, ih]

variable {r : Bytes × Bytes}

theorem stop_le {before : Bytes} {bodies : List Bytes}
    (h : r ∈ recordsFrom before bodies) : stop r ≤ (before ++ ended newline bodies).length := by
  induction bodies generalizing before with
  | nil => exact absurd h not_mem_nil
  | cons first bodies ih =>
    rcases mem_cons.mp h with rfl | h
    · simp [stop]
    · have hle := ih h
      simp only [length_append, ended_cons, length_singleton] at hle ⊢
      omega

theorem ended_cut_append (bytes : Bytes) :
    ended newline (cut newline bytes).1 ++ (cut newline bytes).2 = bytes := joined_cut bytes

theorem length_ended_cut (bytes : Bytes) :
    (ended newline (cut newline bytes).1).length + (cut newline bytes).2.length = bytes.length := by
  rw [← length_append, ended_cut_append]

theorem recordsOf_append_line (bytes body : Bytes) (h : newline ∉ body) :
    recordsOf (bytes ++ (body ++ [newline])) =
      recordsOf bytes ++
        [(ended newline (cut newline bytes).1, (cut newline bytes).2 ++ body)] := by
  rw [recordsOf, cut_append_line _ _ h, recordsFrom_append, nil_append]
  rfl

variable {bytes : Bytes} {more : Bytes}

theorem Readable.of_append (h : Readable parse (bytes ++ more)) : Readable parse bytes := by
  have hcut : cut newline (bytes ++ more) =
      ((cut newline bytes).1 ++ (cut newline ((cut newline bytes).2 ++ more)).1,
        (cut newline ((cut newline bytes).2 ++ more)).2) := cut_append bytes more
  have hbefore : ∀ body ∈ (cut newline bytes).1, body ∈ (cut newline (bytes ++ more)).1 := by
    intro body hbody
    rw [hcut]
    exact mem_append_left _ hbody
  refine ⟨?_, fun body hbody => h.record body (hbefore body hbody), ?_,
    fun body hbody => h.parses body (hbefore body hbody)⟩
  · have hsize := h.size
    rw [length_append] at hsize
    omega
  · -- the tail went on in the next record, or in the new tail
    have hjoined := ended_cut_append ((cut newline bytes).2 ++ more)
    have hrecord := h.record
    have htail := h.tail
    rw [hcut] at hrecord htail
    cases hmore : (cut newline ((cut newline bytes).2 ++ more)).1 with
    | nil =>
      rw [hmore] at hjoined
      have hlength := congrArg List.length hjoined
      simp only [ended_nil, nil_append, length_append] at hlength htail
      omega
    | cons first rest =>
      have hfirst := hrecord first (by rw [hmore]; simp)
      have hpart : (cut newline bytes).2 <+: first ++ [newline] ++
          (ended newline rest ++ (cut newline ((cut newline bytes).2 ++ more)).2) := by
        rw [← append_assoc, ← ended_cons, ← hmore, hjoined]
        exact prefix_append _ _
      by_cases hle : (cut newline bytes).2.length ≤ first.length + 1
      · omega
      · have hmem : first ++ [newline] <+: (cut newline bytes).2 := by
          apply prefix_of_prefix_length_le (prefix_append _ _) hpart
          simp only [length_append, length_singleton]
          omega
        exact absurd (hmem.subset (by simp)) (clean_cut bytes).2

/-! ## The reader keeps up with the bytes -/

/-- The variables after some bytes. -/
structure Rep (s : Reading V D) (bytes : Bytes) : Prop where
  lines : s.lines = linesOf parse digest (recordsOf bytes)
  prefixes : s.prefixes.entries = prefixesOf digest (recordsOf bytes)
  fragments : s.fragments.flatten = (cut newline bytes).2
  pendingBytes : s.pendingBytes = (cut newline bytes).2.length
  offset : s.offset = (ended newline (cut newline bytes).1).length
  checksum : s.checksum = bytes

/-- The reader is at the bytes, or has refused what cannot be read. -/
def Follows (r : Except String (Reading V D)) (bytes : Bytes) : Prop :=
  (∃ s, r = .ok s ∧ Rep parse digest s bytes ∧ Readable parse bytes) ∨
    ((∃ e, r = .error e) ∧ ¬ Readable parse bytes)

variable {parse digest} {s : Reading V D} {body : Bytes}

theorem Rep.total (h : Rep parse digest s bytes) : s.offset + s.pendingBytes = bytes.length := by
  rw [h.offset, h.pendingBytes, length_ended_cut]

theorem Readable.append_line (h : Readable parse bytes)
    (hbody : newline ∉ body)
    (hsize : (bytes ++ (body ++ [newline])).length ≤ NATIVE_MAX_TRANSCRIPT_BYTES)
    (hrecord : ((cut newline bytes).2 ++ body).length + 1 ≤ NATIVE_MAX_RECORD_BYTES)
    (hparse : (cut newline bytes).2 ++ body ≠ [] →
      (parse ((cut newline bytes).2 ++ body)).isSome) :
    Readable parse (bytes ++ (body ++ [newline])) := by
  have hcut := cut_append_line bytes body hbody
  refine ⟨hsize, ?_, ?_, ?_⟩
  · rw [hcut]
    intro last hmem
    rcases mem_append.mp hmem with hmem | hmem
    · exact h.record last hmem
    · rw [mem_singleton.mp hmem]
      exact hrecord
  · rw [hcut]
    exact Nat.zero_le _
  · rw [hcut]
    intro last hmem
    rcases mem_append.mp hmem with hmem | hmem
    · exact h.parses last hmem
    · rw [mem_singleton.mp hmem]
      exact hparse

theorem rep_append_line (h : Rep parse digest s bytes) (hbody : newline ∉ body)
    (hr : r = (ended newline (cut newline bytes).1, (cut newline bytes).2 ++ body))
    {lines : List (Line V D)} (hlines : lines = s.lines ++ (lineOf parse digest r).toList)
    {prefixes : OrderedMap Nat D} (hset : prefixes = s.prefixes.set (stop r) (sha digest r))
    {offset : Nat} (hoffset : offset = stop r) :
    Rep parse digest ⟨lines, prefixes, [], 0, offset, s.checksum ++ (body ++ [newline])⟩
      (bytes ++ (body ++ [newline])) := by
  have hcut := cut_append_line bytes body hbody
  have hrecords := recordsOf_append_line bytes body hbody
  rw [← hr] at hrecords
  refine ⟨?_, ?_, ?_, ?_, ?_, ?_⟩
  · rw [hrecords, linesOf, filterMap_append, hlines, h.lines, linesOf]
    cases hline : lineOf parse digest r <;> simp [hline]
  · -- the offset is after all the offsets before it
    have hfresh : stop r ∉ s.prefixes.entries.map Prod.fst := by
      rw [h.prefixes, prefixesOf, map_map]
      intro hmem
      obtain ⟨other, hother, heq⟩ := mem_map.mp hmem
      have hle := stop_le hother
      have hstop : stop r = (ended newline (cut newline bytes).1).length +
          (((cut newline bytes).2 ++ body).length + 1) := by rw [hr]; rfl
      rw [nil_append] at hle
      simp only [Function.comp_apply] at heq
      omega
    rw [hset, hrecords, prefixesOf, map_append]
    exact (OrderedMap.setEntry_of_not_mem _ hfresh).trans (congrArg (· ++ _) h.prefixes)
  · rw [hcut]
    rfl
  · rw [hcut]
    rfl
  · rw [hcut, hoffset, hr]
    simp [stop, add_assoc]
  · exact congrArg (· ++ _) h.checksum

theorem record_follows (h : Rep parse digest s bytes)
    (hreadable : Readable parse bytes) (hbody : newline ∉ body) :
    Follows parse digest (append s (body ++ [newline]) >>= endRecord parse digest)
      (bytes ++ (body ++ [newline])) := by
  have hcut := cut_append_line bytes body hbody
  have htotal := h.total
  have hpending := h.pendingBytes
  have hlast : (cut newline bytes).2 ++ body ∈
      (cut newline (bytes ++ (body ++ [newline]))).1 := by
    rw [hcut]
    simp
  unfold append
  rw [if_neg (by simp)]
  dsimp only
  split
  · next hlimit =>
    refine .inr ⟨⟨_, rfl⟩, fun hr => ?_⟩
    have hle := hr.record _ hlast
    simp only [length_append, length_singleton] at hle hlimit
    omega
  · split
    · next _ hlimit =>
      refine .inr ⟨⟨_, rfl⟩, fun hr => ?_⟩
      have hle := hr.size
      simp only [length_append, length_singleton] at hle hlimit
      omega
    · next hrecord hsize =>
      -- within the limits: the fragments are the tail and the new bytes
      have hline : ((s.fragments ++ [body ++ [newline]]).flatten).take
          ((s.fragments ++ [body ++ [newline]]).flatten.length - 1) =
            (cut newline bytes).2 ++ body := by
        rw [flatten_append, h.fragments, flatten_singleton, ← append_assoc,
          length_append, length_singleton, Nat.add_sub_cancel, take_left]
      obtain ⟨r, hr⟩ : ∃ r, r = (ended newline (cut newline bytes).1,
        (cut newline bytes).2 ++ body) := ⟨_, rfl⟩
      have hstart : s.offset = r.1.length := by rw [h.offset, hr]
      have hstop : s.offset + (s.pendingBytes + (body ++ [newline]).length) = stop r := by
        rw [h.offset, hpending, hr]
        simp [stop, add_assoc]
      have hsha : digest (s.checksum ++ (body ++ [newline])) = sha digest r := by
        rw [h.checksum, hr, sha, append_assoc, ← append_assoc (ended _ _),
          ended_cut_append]
      have hfits : (bytes ++ (body ++ [newline])).length ≤ NATIVE_MAX_TRANSCRIPT_BYTES := by
        simp only [length_append, length_singleton] at hsize ⊢
        omega
      have hshort : ((cut newline bytes).2 ++ body).length + 1 ≤ NATIVE_MAX_RECORD_BYTES := by
        simp only [length_append, length_singleton] at hrecord ⊢
        omega
      have hbytes : r.2 = (cut newline bytes).2 ++ body := by rw [hr]
      have hdone : ∀ lines, lines = s.lines ++ (lineOf parse digest r).toList →
          Rep parse digest ⟨lines, s.prefixes.set (s.offset + (s.pendingBytes +
            (body ++ [newline]).length)) (digest (s.checksum ++ (body ++ [newline]))), [], 0,
            s.offset + (s.pendingBytes + (body ++ [newline]).length),
            s.checksum ++ (body ++ [newline])⟩ (bytes ++ (body ++ [newline])) := fun _ hlines =>
        rep_append_line h hbody hr hlines (by rw [hstop, hsha]) hstop
      simp only [endRecord, bind, Except.bind, hline]
      split
      · next hempty =>
        have hnil := length_eq_zero_iff.mp hempty
        have hnone : lineOf parse digest r = none := if_pos (by rw [hbytes, hnil])
        refine .inl ⟨_, rfl, hdone _ (by rw [hnone]; simp), ?_⟩
        exact hreadable.append_line hbody hfits hshort fun hne => absurd hnil hne
      · next hnonempty =>
        have hne : r.2 ≠ [] := fun h => hnonempty (by rw [← hbytes, h]; rfl)
        split
        · next hparse =>
          refine .inr ⟨⟨_, rfl⟩, fun hread => ?_⟩
          have hsome := hread.parses _ hlast (hbytes ▸ hne)
          rw [hparse] at hsome
          cases hsome
        · next value hparse =>
          have hvalue : lineOf parse digest r =
              some ⟨value, s.offset, s.offset + (s.pendingBytes + (body ++ [newline]).length),
                digest (s.checksum ++ (body ++ [newline]))⟩ := by
            rw [hstop, hsha, hstart, lineOf, if_neg hne, hbytes, hparse]
            rfl
          refine .inl ⟨_, rfl, hdone _ (by rw [hvalue]; rfl), ?_⟩
          exact hreadable.append_line hbody hfits hshort fun _ => by rw [hparse]; rfl

theorem tail_follows {tail : Bytes} (h : Rep parse digest s bytes)
    (hreadable : Readable parse bytes) (htail : newline ∉ tail) :
    Follows parse digest (append s tail) (bytes ++ tail) := by
  have hcut := cut_append_tail bytes tail htail
  have htotal := h.total
  have hpending := h.pendingBytes
  have hrecords : recordsOf (bytes ++ tail) = recordsOf bytes := by
    rw [recordsOf, hcut]
    rfl
  unfold append
  split
  · next hempty =>
    rw [length_eq_zero_iff.mp hempty, append_nil]
    exact .inl ⟨s, rfl, h, hreadable⟩
  · dsimp only
    split
    · next hlimit =>
      refine .inr ⟨⟨_, rfl⟩, fun hr => ?_⟩
      have hle := hr.tail
      rw [hcut, length_append] at hle
      omega
    · split
      · next _ hlimit =>
        refine .inr ⟨⟨_, rfl⟩, fun hr => ?_⟩
        have hle := hr.size
        rw [length_append] at hle
        omega
      · next hrecord hsize =>
        refine .inl ⟨_, rfl, ⟨?_, ?_, ?_, ?_, ?_, ?_⟩, ⟨?_, ?_, ?_, ?_⟩⟩
        · rw [hrecords]
          exact h.lines
        · rw [hrecords]
          exact h.prefixes
        · rw [hcut, flatten_append, h.fragments, flatten_singleton]
        · rw [hcut, length_append, hpending]
        · rw [hcut]
          exact h.offset
        · exact congrArg (· ++ tail) h.checksum
        · rw [length_append]
          omega
        · rw [hcut]
          exact hreadable.record
        · rw [hcut, length_append]
          omega
        · rw [hcut]
          exact hreadable.parses

theorem Follows.bind {r : Except String (Reading V D)}
    {step : Reading V D → Except String (Reading V D)} (h : Follows parse digest r bytes)
    (hstep : ∀ s, Rep parse digest s bytes → Readable parse bytes →
      Follows parse digest (step s) (bytes ++ more)) :
    Follows parse digest (r >>= step) (bytes ++ more) := by
  obtain ⟨s, rfl, hs, hreadable⟩ | ⟨⟨e, rfl⟩, hnot⟩ := h
  · exact hstep s hs hreadable
  · exact .inr ⟨⟨e, rfl⟩, fun hr => hnot hr.of_append⟩

theorem readRecords_follows (bodies : List Bytes) (hclean : Clean newline bodies)
    (h : Rep parse digest s bytes) (hreadable : Readable parse bytes) :
    Follows parse digest (readRecords parse digest bodies s) (bytes ++ ended newline bodies) := by
  induction bodies generalizing s bytes with
  | nil =>
    rw [ended_nil, append_nil]
    exact .inl ⟨s, rfl, h, hreadable⟩
  | cons body bodies ih =>
    have hfirst := record_follows h hreadable (hclean body mem_cons_self)
    have hassoc : readRecords parse digest (body :: bodies) s =
        (append s (body ++ [newline]) >>= endRecord parse digest) >>=
          readRecords parse digest bodies := by
      rw [bind_assoc]
      rfl
    rw [hassoc, ended_cons, ← append_assoc]
    exact hfirst.bind fun s' hs' hr =>
      ih (fun other hother => hclean other (mem_cons_of_mem _ hother)) hs' hr

theorem readChunk_follows (chunk : Bytes)
    (h : Rep parse digest s bytes) (hreadable : Readable parse bytes) :
    Follows parse digest (readChunk parse digest s chunk) (bytes ++ chunk) := by
  obtain ⟨hclean, htail⟩ : Clean newline (cut newline chunk).1 ∧
      newline ∉ (cut newline chunk).2 := clean_cut chunk
  have hrecords := readRecords_follows (cut newline chunk).1 hclean h hreadable
  have hwhole := hrecords.bind fun s' hs' hr => tail_follows hs' hr htail
  rw [append_assoc, ended_cut_append] at hwhole
  exact hwhole

theorem rep_start : Rep parse digest (Reading.start : Reading V D) [] :=
  ⟨rfl, rfl, rfl, rfl, rfl, rfl⟩

theorem readable_nil : Readable parse [] := by
  refine ⟨?_, ?_, ?_, ?_⟩ <;> simp [cut]

theorem readChunks_follows (stream : List Bytes) {r : Except String (Reading V D)}
    (h : Follows parse digest r bytes) :
    Follows parse digest (r >>= fun s => stream.foldlM (readChunk parse digest) s)
      (bytes ++ stream.flatten) := by
  induction stream generalizing r bytes with
  | nil =>
    rw [flatten_nil, append_nil]
    have hid : (r >>= fun s => [].foldlM (readChunk parse digest) s) = r := bind_pure r
    rw [hid]
    exact h
  | cons chunk stream ih =>
    have hfirst := h.bind fun s hs hr => readChunk_follows chunk hs hr
    have hrest := ih hfirst
    rw [bind_assoc] at hrest
    rw [flatten_cons, ← append_assoc]
    exact hrest

theorem readTranscriptLines_iff (stream : List Bytes) (read : TranscriptLines V D) :
    readTranscriptLines parse digest stream = .ok read ↔
      Transcript parse digest stream.flatten read := by
  have hfollows := readChunks_follows stream
    (.inl ⟨Reading.start, rfl, rep_start, readable_nil⟩ :
      Follows parse digest (.ok Reading.start) [])
  rw [nil_append] at hfollows
  obtain ⟨s, hs, hrep, hreadable⟩ | ⟨⟨e, he⟩, hnot⟩ := hfollows
  · have hread : readTranscriptLines parse digest stream = .ok ⟨s.lines, s.prefixes⟩ := by
      change (stream.foldlM (readChunk parse digest) .start >>= _) = _
      exact congrArg (· >>= _) hs
    rw [hread]
    constructor
    · intro h
      obtain rfl := Except.ok.inj h
      exact ⟨hreadable, hrep.lines, hrep.prefixes⟩
    · intro h
      obtain ⟨lines, prefixes⟩ := read
      have hlines : lines = s.lines := h.lines.trans hrep.lines.symm
      have hprefixes : prefixes = s.prefixes :=
        OrderedMap.ext_entries (h.prefixes.trans hrep.prefixes.symm)
      rw [hlines, hprefixes]
  · have hread : readTranscriptLines parse digest stream = .error e := by
      change (stream.foldlM (readChunk parse digest) .start >>= _) = _
      exact congrArg (· >>= _) he
    rw [hread]
    constructor
    · intro h
      cases h
    · exact fun h => absurd h.readable hnot

end

end Cohub.Native
