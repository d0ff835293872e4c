import Cohub.Sandbox.TreePage

/-! # Following the cursor

    A client asks for a first page and then for the page of each cursor it is
    given, while the directory may change between its requests.  Where the
    cursors keep their names, the pages have every entry that stays, once and
    in the order of the names, and a directory at rest is read to its end.  A
    name that is no valid UTF-8 is not kept. -/

namespace Cohub.Sandbox

open Table Pages List

/-! ## Directories and clients -/

/-- A directory that can be read, as one request finds it.  `stats` has no
    value for a name that is deleted while the request runs. -/
structure Directory where
  entries   : List DirEntry
  stats     : GoString → Option FileInfo
  gitignore : Option (GoString → Bool)
  distinct  : Distinct DirEntry.name entries
  named     : ∀ entry ∈ entries, entry.name ≠ []

namespace Directory

def reads (d : Directory) : TreeReads where
  readDir := .ok d.entries
  lstat name := match d.stats name with
    | none => .error .notExist
    | some info => .ok info
  gitignore := d.gitignore

/-- What a client is shown of an entry. -/
def shown (d : Directory) (respect : Bool) (entry : DirEntry) : Option FsTreeEntry :=
  if ignore (loadGitignore d.reads respect) entry.name entry.isDir then none
  else (d.stats entry.name).map fun info =>
    { name := entry.name, path := entry.name, type := nodeType info, size := info.size,
      mtimeMs := info.modTime }

def names (d : Directory) : List DirEntry := orderBy DirEntry.name d.entries

/-- There is an entry with the name, and it is visible. -/
def Shows (d : Directory) (respect : Bool) (name : GoString) : Prop :=
  ∃ entry ∈ d.entries, entry.name = name ∧ (d.shown respect entry).isSome

theorem names_ascending (d : Directory) : Ascending DirEntry.name d.names :=
  orderBy_ascending d.distinct

end Directory

/-- A client's request, within the bounds of paging. -/
structure PageRequest where
  root : GoString
  depth : Int
  limit : Int
  respectGitignore : Option Bool
  depth_ok : 0 ≤ depth ∧ depth ≤ 1
  limit_ok : 0 ≤ limit ∧ limit ≤ 5000

namespace PageRequest

def params (request : PageRequest) (cursor : Option CursorText) : FsTreeParams where
  depth := request.depth
  limit := request.limit
  respectGitignore := request.respectGitignore
  cursor := cursor

def respects (request : PageRequest) : Bool := request.respectGitignore.getD true

def size (request : PageRequest) : Nat := if request.limit = 0 then 1000 else request.limit.toNat

theorem size_pos (request : PageRequest) : 0 < request.size := by
  have hlimit := request.limit_ok
  unfold size
  split <;> omega

end PageRequest

inductive FollowStatus where
  /-- The last page had no cursor. -/
  | done
  | open (cursor : Option CursorText)
  | failed (failure : RpcFailure)

structure Followed where
  entries : List FsTreeEntry
  status  : FollowStatus

section Follow

variable (sha256 : GoString → Digest) (request : PageRequest)

/-- One request for each directory state, from a cursor on. -/
def follow (cursor : Option CursorText) : List Directory → Followed
  | [] => { entries := [], status := .open cursor }
  | d :: rest =>
      match listTreePage sha256 d.reads (request.params cursor) request.root with
      | .error failure => { entries := [], status := .failed failure }
      | .ok page =>
          match page.nextCursor with
          | none => { entries := page.entries, status := .done }
          | some next =>
              let later := follow (some next) rest
              { entries := page.entries ++ later.entries, status := later.status }

def cursorAfter (name : GoString) : TreeCursor where
  version := 1
  scope := treeScope sha256 request.root request.respects
  after := name

/-- A name that its cursor keeps. -/
def Survives (name : GoString) : Prop :=
  Utf8.Valid name ∧ (cursorAfter sha256 request name).encode.length ≤ 16384

/-- The entry that ends a page after a name, when the directory goes on. -/
def pageEnd (d : Directory) (name : GoString) : Option DirEntry :=
  if request.size < (after DirEntry.name name d.names).length then
    (page DirEntry.name name request.size d.names).getLast?
  else none

/-- Every page that has a cursor ends in a name that it keeps. -/
def EndsSurvive (name : GoString) : List Directory → Prop
  | [] => True
  | d :: rest => ∀ last ∈ pageEnd request d name,
      Survives sha256 request last.name ∧ EndsSurvive last.name rest

end Follow

/-! ## One page -/

section Page

variable {sha256 : GoString → Digest} {request : PageRequest}

theorem hexDigit_ascii {n : Nat} (h : n < 16) : (hexDigit n).val < 0x80 := by
  unfold hexDigit
  split <;> simp only [Fin.ofNat] <;> omega

theorem valid_hex (bytes : List Utf8.Byte) : Utf8.Valid (hex bytes) := by
  refine Utf8.valid_of_ascii fun b hb => ?_
  obtain ⟨byte, -, hb⟩ := mem_flatMap.mp hb
  have hbyte := byte.isLt
  rcases mem_pair.mp hb with rfl | rfl
  · exact hexDigit_ascii (by omega)
  · exact hexDigit_ascii (by omega)

/-- A cursor, or none, that stands for the entries after a name. -/
def Reads (sha256 : GoString → Digest) (request : PageRequest) (cursor : Option CursorText)
    (name : GoString) : Prop :=
  readCursor (treeScope sha256 request.root request.respects) cursor =
    .ok (cursorAfter sha256 request name)

theorem reads_none : Reads sha256 request none [] := rfl

variable {name : GoString} {cursor : Option CursorText}

theorem reads_encode (hlength : (cursorAfter sha256 request name).encode.length ≤ 16384) :
    Reads sha256 request (some (cursorAfter sha256 request name).encode) (Utf8.coerce name) := by
  have hscope : Utf8.coerce (treeScope sha256 request.root request.respects) =
      treeScope sha256 request.root request.respects :=
    (Utf8.coerce_eq_self_iff _).mpr (valid_hex _)
  unfold Reads readCursor
  simp only [gt_iff_lt, if_neg (Nat.not_lt.mpr hlength)]
  simp only [TreeCursor.encode, cursorAfter, hscope]
  simp

theorem Survives.reads (h : Survives sha256 request name) :
    Reads sha256 request (some (cursorAfter sha256 request name).encode) name := by
  have hreads := reads_encode h.2
  rwa [(Utf8.coerce_eq_self_iff name).mpr h.1] at hreads

/-! ### Lengths: file systems keep names of at most 255 bytes -/

theorem asciiLength_le (b : Utf8.Byte) : asciiLength b ≤ 6 := by
  unfold asciiLength
  split
  · omega
  split <;> omega

theorem quotedLengthFrom_le (s : GoString) : ∀ owed, quotedLengthFrom owed s ≤ 6 * s.length := by
  induction s with
  | nil => intro owed; cases owed <;> exact le_rfl
  | cons b rest ih =>
    intro owed
    rw [length_cons]
    cases owed with
    | succ owed =>
      have hrest := ih owed
      unfold quotedLengthFrom
      omega
    | zero =>
      have hascii := asciiLength_le b
      unfold quotedLengthFrom
      rcases Utf8.following b rest with _ | _ | owed
      · have hrest := ih 0
        dsimp only
        omega
      · have hrest := ih 0
        dsimp only
        omega
      · have hrest := ih (owed + 1)
        dsimp only
        split <;> omega

theorem length_treeScope (root : GoString) (respect : Bool) :
    (treeScope sha256 root respect).length = 64 := by
  unfold treeScope
  generalize sha256 _ = digest
  have hlength : ∀ bytes : List Utf8.Byte, (hex bytes).length = 2 * bytes.length := by
    intro bytes
    induction bytes with
    | nil => rfl
    | cons b rest ih =>
      rw [hex, flatMap_cons, length_append, ← hex, ih, length_cons]
      simp only [length_cons, length_nil]
      omega
  rw [hlength, digest.length]

theorem survives_of_valid (hvalid : Utf8.Valid name) (hlength : name.length ≤ 255) :
    Survives sha256 request name := by
  refine ⟨hvalid, ?_⟩
  have hscope := quotedLengthFrom_le (treeScope sha256 request.root request.respects) 0
  rw [length_treeScope] at hscope
  have hname := quotedLengthFrom_le name 0
  have hversion : (toString (1 : Int)).length = 1 := by decide
  show base64Length (5 + (toString (1 : Int)).length + 6 +
    quotedLengthFrom 0 (treeScope sha256 request.root request.respects) + 7 +
    quotedLengthFrom 0 name + 2) ≤ 16384
  unfold base64Length
  omega

theorem endsSurvive_of_text (ds : List Directory)
    (h : ∀ d ∈ ds, ∀ entry ∈ d.entries, Utf8.Valid entry.name ∧ entry.name.length ≤ 255) :
    ∀ name, EndsSurvive sha256 request name ds := by
  induction ds with
  | nil => exact fun _ => trivial
  | cons d rest ih =>
    intro name last hlast
    have hmem : last ∈ d.entries := by
      unfold pageEnd at hlast
      split at hlast
      · have hpage := mem_of_mem_take (mem_of_getLast? hlast)
        exact mem_orderBy.mp (mem_after.mp hpage).1
      · cases hlast
    obtain ⟨hvalid, hlength⟩ := h d mem_cons_self last hmem
    exact ⟨survives_of_valid hvalid hlength,
      ih (fun d' hd' => h d' (mem_cons_of_mem _ hd')) last.name⟩

variable (d : Directory)

theorem treeEntries_eq (respect : Bool) (entries : List DirEntry) :
    treeEntries d.reads (loadGitignore d.reads respect) entries =
      .ok (entries.filterMap (d.shown respect)) := by
  induction entries with
  | nil => rfl
  | cons entry rest ih =>
    unfold treeEntries
    rw [ih]
    by_cases hignored : ignore (loadGitignore d.reads respect) entry.name entry.isDir = true
    · have hshown : d.shown respect entry = none := if_pos hignored
      rw [if_pos hignored, filterMap_cons_none hshown]
    · have hshown : d.shown respect entry = _ := if_neg hignored
      rw [if_neg hignored]
      cases hstats : d.stats entry.name with
      | none =>
        rw [hstats] at hshown
        rw [filterMap_cons_none hshown]
        simp only [Directory.reads, hstats]
      | some info =>
        rw [hstats] at hshown
        rw [filterMap_cons_some hshown]
        simp only [Directory.reads, hstats]
        rfl

theorem getElem?_pageEnd (name : GoString)
    (hmore : request.size < (after DirEntry.name name d.names).length) :
    d.names[search DirEntry.name name d.names + request.size - 1]? =
      (page DirEntry.name name request.size d.names).getLast? := by
  have hpos := request.size_pos
  have hlength : (page DirEntry.name name request.size d.names).length = request.size := by
    rw [page, length_take]
    omega
  rw [getLast?_eq_getElem?, hlength, page, ← drop_search d.names_ascending,
    getElem?_take_of_lt (by omega), getElem?_drop, Nat.add_sub_assoc hpos]

theorem listTreePage_eq (hreads : Reads sha256 request cursor name) :
    listTreePage sha256 d.reads (request.params cursor) request.root = .ok {
      path := request.root
      entries := (page DirEntry.name name request.size d.names).filterMap (d.shown request.respects)
      nextCursor := (pageEnd request d name).map fun last =>
        (cursorAfter sha256 request last.name).encode
      truncated := false } := by
  have hdepth := request.depth_ok
  have hlimit := request.limit_ok
  unfold listTreePage
  rw [if_neg (by simp only [PageRequest.params]; omega)]
  have hcursor : readCursor (treeScope sha256 request.root
      ((request.params cursor).respectGitignore.getD true)) (request.params cursor).cursor = _ :=
    hreads
  simp only [hcursor]
  show (treeEntries d.reads (loadGitignore d.reads request.respects) _ >>= _) = _
  rw [treeEntries_eq]
  have hpage : (d.names.drop (search DirEntry.name name d.names)).take request.size =
      page DirEntry.name name request.size d.names := by
    rw [drop_search d.names_ascending, page]
  have hmore : search DirEntry.name name d.names + request.size < d.names.length ↔
      request.size < (after DirEntry.name name d.names).length := by
    rw [← drop_search d.names_ascending, length_drop]
    omega
  have hend : (if search DirEntry.name name d.names + request.size < d.names.length then
      d.names[search DirEntry.name name d.names + request.size - 1]? else none) =
      pageEnd request d name := by
    unfold pageEnd
    by_cases hlt : request.size < (after DirEntry.name name d.names).length
    · rw [if_pos (hmore.mpr hlt), if_pos hlt, getElem?_pageEnd d name hlt]
    · rw [if_neg (mt hmore.mp hlt), if_neg hlt]
  show Except.ok (TreePage.mk request.root
    (((d.names.drop (search DirEntry.name name d.names)).take request.size).filterMap _)
    ((if search DirEntry.name name d.names + request.size < d.names.length then
      d.names[search DirEntry.name name d.names + request.size - 1]? else none).map _) false) = _
  rw [hpage, hend]
  rfl

theorem follow_done (rest : List Directory)
    (hreads : Reads sha256 request cursor name) (hend : pageEnd request d name = none) :
    follow sha256 request cursor (d :: rest) =
      { entries := (page DirEntry.name name request.size d.names).filterMap (d.shown request.respects),
        status := .done } := by
  rw [follow, listTreePage_eq d hreads, hend]
  rfl

theorem follow_more (rest : List Directory) (hreads : Reads sha256 request cursor name)
    {last : DirEntry} (hend : pageEnd request d name = some last) :
    follow sha256 request cursor (d :: rest) =
      let later := follow sha256 request (some (cursorAfter sha256 request last.name).encode) rest
      { entries := (page DirEntry.name name request.size d.names).filterMap
          (d.shown request.respects) ++ later.entries,
        status := later.status } := by
  rw [follow, listTreePage_eq d hreads, hend]
  rfl

end Page

/-! ## All pages -/

section Pages

variable {sha256 : GoString → Digest} {request : PageRequest} {d : Directory} {name : GoString}
  {respect : Bool} {entry : DirEntry} {entries : List DirEntry}

theorem name_of_shown {shown : FsTreeEntry}
    (h : d.shown respect entry = some shown) : shown.name = entry.name := by
  unfold Directory.shown at h
  split at h
  · cases h
  · obtain ⟨info, -, rfl⟩ := Option.map_eq_some_iff.mp h
    rfl

theorem pageEnd_eq_some_iff {last : DirEntry} :
    pageEnd request d name = some last ↔
      request.size < (after DirEntry.name name d.names).length ∧
        (page DirEntry.name name request.size d.names).getLast? = some last := by
  unfold pageEnd
  split
  · next h => exact ⟨fun hlast => ⟨h, hlast⟩, And.right⟩
  · next h => exact ⟨nofun, fun hboth => absurd hboth.1 h⟩

theorem pageEnd_eq_none_iff :
    pageEnd request d name = none ↔
      (after DirEntry.name name d.names).length ≤ request.size := by
  have hpos := request.size_pos
  unfold pageEnd
  split
  · next hmore =>
    rw [getLast?_eq_none_iff, page, take_eq_nil_iff]
    refine ⟨fun hnil => ?_, fun hle => absurd hmore (Nat.not_lt.mpr hle)⟩
    rcases hnil with hzero | hnil
    · omega
    · rw [hnil]
      exact Nat.zero_le _
  · next hmore => exact ⟨fun _ => Nat.not_lt.mp hmore, fun _ => rfl⟩

theorem page_eq_after (hend : pageEnd request d name = none) :
    page DirEntry.name name request.size d.names = after DirEntry.name name d.names :=
  take_of_length_le (pageEnd_eq_none_iff.mp hend)

theorem follow_replicate (d : Directory) (n : Nat) :
    ∀ {cursor : Option CursorText} {name : GoString}, Reads sha256 request cursor name →
      EndsSurvive sha256 request name (List.replicate n d) →
      (after DirEntry.name name d.names).length < n →
      follow sha256 request cursor (List.replicate n d) =
        { entries := (after DirEntry.name name d.names).filterMap (d.shown request.respects),
          status := .done } := by
  induction n with
  | zero => exact fun _ _ hlength => absurd hlength (Nat.not_lt_zero _)
  | succ n ih =>
    intro cursor name hreads hsurvive hlength
    rw [replicate_succ] at hsurvive ⊢
    cases hend : pageEnd request d name with
    | none => rw [follow_done d _ hreads hend, page_eq_after hend]
    | some last =>
      obtain ⟨hlast, hrest⟩ := hsurvive last hend
      obtain ⟨hmore, hpage⟩ := pageEnd_eq_some_iff.mp hend
      have hleft := after_last d.names_ascending hpage
      have hshorter : (after DirEntry.name last.name d.names).length < n := by
        have hpos := request.size_pos
        rw [hleft, length_drop]
        omega
      rw [follow_more d _ hreads hend, ih hlast.reads hrest hshorter, hleft]
      simp only [← filterMap_append, page_append_drop]

theorem shown_ascending (d : Directory) (respect : Bool) (h : Ascending DirEntry.name entries) :
    Ascending FsTreeEntry.name (entries.filterMap (d.shown respect)) := by
  refine pairwise_filterMap.mpr (List.Pairwise.imp ?_ h)
  intro a b hlt shownA ha shownB hb
  rw [name_of_shown ha, name_of_shown hb]
  exact hlt

variable (ds : List Directory)

theorem follow_ascending :
    ∀ {cursor : Option CursorText} {name : GoString}, Reads sha256 request cursor name →
      EndsSurvive sha256 request name ds →
      Ascending FsTreeEntry.name (follow sha256 request cursor ds).entries ∧
        ∀ entry ∈ (follow sha256 request cursor ds).entries, name < entry.name := by
  induction ds with
  | nil => exact fun _ _ => ⟨List.Pairwise.nil, nofun⟩
  | cons d rest ih =>
    intro cursor name hreads hsurvive
    have hpage : Ascending DirEntry.name (page DirEntry.name name request.size d.names) :=
      page_ascending d.names_ascending
    have hshown := shown_ascending d request.respects hpage
    have hafter : ∀ entry ∈ (page DirEntry.name name request.size d.names).filterMap
        (d.shown request.respects),
        ∃ e ∈ page DirEntry.name name request.size d.names, entry.name = e.name := by
      intro entry hentry
      obtain ⟨e, he, hshow⟩ := mem_filterMap.mp hentry
      exact ⟨e, he, name_of_shown hshow⟩
    cases hend : pageEnd request d name with
    | none =>
      rw [follow_done d rest hreads hend]
      refine ⟨hshown, fun entry hentry => ?_⟩
      obtain ⟨e, he, hname⟩ := hafter entry hentry
      exact hname ▸ lt_of_mem_page he
    | some last =>
      obtain ⟨hlast, hrest⟩ := hsurvive last hend
      obtain ⟨hlater, habove⟩ := ih hlast.reads hrest
      have hends := (pageEnd_eq_some_iff.mp hend).2
      rw [follow_more d rest hreads hend]
      refine ⟨pairwise_append.mpr ⟨hshown, hlater, ?_⟩, fun entry hentry => ?_⟩
      · intro a ha b hb
        obtain ⟨e, he, hname⟩ := hafter a ha
        rw [hname]
        exact lt_of_le_of_lt (hpage.le_last hends he) (habove b hb)
      · rcases mem_append.mp hentry with hentry | hentry
        · obtain ⟨e, he, hname⟩ := hafter entry hentry
          exact hname ▸ lt_of_mem_page he
        · exact (lt_of_mem_page (mem_of_getLast? hends)).trans (habove entry hentry)

theorem follow_not_failed :
    ∀ {cursor : Option CursorText} {name : GoString}, Reads sha256 request cursor name →
      EndsSurvive sha256 request name ds →
      ∀ failure, (follow sha256 request cursor ds).status ≠ .failed failure := by
  induction ds with
  | nil => exact fun _ _ _ => nofun
  | cons d rest ih =>
    intro cursor name hreads hsurvive failure
    cases hend : pageEnd request d name with
    | none =>
      rw [follow_done d rest hreads hend]
      nofun
    | some last =>
      obtain ⟨hlast, hrest⟩ := hsurvive last hend
      rw [follow_more d rest hreads hend]
      exact ih hlast.reads hrest failure

theorem exists_shown (hentry : entry ∈ entries) (hshown : (d.shown respect entry).isSome) :
    ∃ shown ∈ entries.filterMap (d.shown respect), shown.name = entry.name := by
  obtain ⟨shown, hsome⟩ := Option.isSome_iff_exists.mp hshown
  exact ⟨shown, mem_filterMap.mpr ⟨entry, hentry, hsome⟩, name_of_shown hsome⟩

theorem follow_complete :
    ∀ {cursor : Option CursorText} {name : GoString}, Reads sha256 request cursor name →
      EndsSurvive sha256 request name ds →
      (follow sha256 request cursor ds).status = .done →
      ∀ present, name < present → (∀ d ∈ ds, d.Shows request.respects present) →
        ∃ entry ∈ (follow sha256 request cursor ds).entries, entry.name = present := by
  induction ds with
  | nil => exact fun _ _ hdone => nomatch hdone
  | cons d rest ih =>
    intro cursor name hreads hsurvive hdone present hlt hpresent
    obtain ⟨entry, hentry, rfl, hshown⟩ := hpresent d mem_cons_self
    have hin : entry ∈ d.names := mem_orderBy.mpr hentry
    cases hend : pageEnd request d name with
    | none =>
      rw [follow_done d rest hreads hend]
      exact exists_shown (page_eq_after hend ▸ mem_after.mpr ⟨hin, hlt⟩) hshown
    | some last =>
      obtain ⟨hlast, hrest⟩ := hsurvive last hend
      have hends := (pageEnd_eq_some_iff.mp hend).2
      rw [follow_more d rest hreads hend] at hdone ⊢
      -- The entry is on this page, or it comes after the name that ends it.
      rcases le_or_gt entry.name last.name with hle | hgt
      · obtain ⟨shown, hmem, hname⟩ :=
          exists_shown (mem_page_of_le d.names_ascending hends hin hlt hle) hshown
        exact ⟨shown, mem_append_left _ hmem, hname⟩
      · obtain ⟨shown, hmem, hname⟩ := ih hlast.reads hrest hdone entry.name hgt
          fun d' hd' => hpresent d' (mem_cons_of_mem _ hd')
        exact ⟨shown, mem_append_right _ hmem, hname⟩

/-- Paging is complete where the cursors keep the names they are made of: a
    directory at rest is returned whole and in order, by as many requests as
    it has entries and one more at most; and of one that changes, what every
    request finds is returned, no name twice. -/
theorem paging_complete (sha256 : GoString → Digest) (request : PageRequest) :
    (∀ (d : Directory) (n : Nat), d.entries.length < n →
      EndsSurvive sha256 request [] (List.replicate n d) →
      follow sha256 request none (List.replicate n d) =
        { entries := d.names.filterMap (d.shown request.respects), status := .done }) ∧
    ∀ ds : List Directory, EndsSurvive sha256 request [] ds →
      Ascending FsTreeEntry.name (follow sha256 request none ds).entries ∧
      (∀ failure, (follow sha256 request none ds).status ≠ .failed failure) ∧
      ((follow sha256 request none ds).status = .done →
        ∀ present, (∀ d ∈ ds, d.Shows request.respects present) →
          ∃ entry ∈ (follow sha256 request none ds).entries, entry.name = present) := by
  refine ⟨fun d n hn hsurvive => ?_, fun ds hsurvive => ⟨?_, ?_, ?_⟩⟩
  · have hall : after DirEntry.name [] d.names = d.names :=
      after_eq_self fun entry hentry => nil_lt (d.named entry (mem_orderBy.mp hentry))
    have hlength : (after DirEntry.name [] d.names).length < n := by
      rw [hall, Directory.names, (orderBy_perm _ _).length_eq]
      exact hn
    rw [follow_replicate d n reads_none hsurvive hlength, hall]
  · exact (follow_ascending ds reads_none hsurvive).1
  · exact follow_not_failed ds reads_none hsurvive
  · intro hdone present hpresent
    cases ds with
    | nil => cases hdone
    | cons d rest =>
      obtain ⟨entry, hentry, rfl, -⟩ := hpresent d List.mem_cons_self
      exact follow_complete _ reads_none hsurvive hdone entry.name (nil_lt (d.named entry hentry))
        hpresent
where
  nil_lt {name : GoString} (h : name ≠ []) : ([] : GoString) < name := by
    cases name with
    | nil => exact absurd rfl h
    | cons b rest => exact List.Lex.nil

end Pages

/-! ## A name that no cursor keeps -/

theorem follow_stuck {sha256 : GoString → Digest} {request : PageRequest} {d : Directory}
    {last : DirEntry} (hlength : (cursorAfter sha256 request last.name).encode.length ≤ 16384)
    (hend : pageEnd request d (Utf8.coerce last.name) = some last) (n : Nat) :
    (follow sha256 request (some (cursorAfter sha256 request last.name).encode)
      (List.replicate n d)).status = .open (some (cursorAfter sha256 request last.name).encode) := by
  induction n with
  | zero => rfl
  | succ n ih =>
    rw [replicate_succ, follow_more d _ (reads_encode hlength) hend]
    exact ih

def oneEach : PageRequest where
  root := ascii "/w"
  depth := 1
  limit := 1
  respectGitignore := none
  depth_ok := by decide
  limit_ok := by decide

/-- Two files; the name of the first is in ISO 8859-1 or in ASCII. -/
def twoFiles (letter : Utf8.Byte) : Directory where
  entries := [{ name := [0x61, letter, 0x6F], isDir := false }, { name := ascii "z", isDir := false }]
  stats := fun _ => some { isSymlink := false, isDir := false, size := 0, modTime := 0 }
  gitignore := none
  distinct := by
    refine List.pairwise_pair.mpr ?_
    exact fun h => absurd (congrArg List.length h) (by simp [ascii])
  named := by simp [ascii]

def zeroDigest : Digest := ⟨List.replicate 32 0, rfl⟩

/-- The first page ends in a name that its cursor does not keep, and the next
    one is the same again: paging does not end. -/
theorem paging_never_ends : ¬ ∃ n,
    (follow (fun _ => zeroDigest) oneEach none (List.replicate n (twoFiles 0xF1))).status = .done := by
  rintro ⟨n, hdone⟩
  revert hdone
  cases n with
  | zero => exact nofun
  | succ n =>
    have hfirst : pageEnd oneEach (twoFiles 0xF1) [] =
        some { name := [0x61, 0xF1, 0x6F], isDir := false } := by decide +kernel
    have hagain : pageEnd oneEach (twoFiles 0xF1) (Utf8.coerce [0x61, 0xF1, 0x6F]) =
        some { name := [0x61, 0xF1, 0x6F], isDir := false } := by decide +kernel
    rw [List.replicate_succ, follow_more _ _ reads_none hfirst]
    show (follow _ _ _ _).status ≠ _
    rw [follow_stuck (by decide +kernel) hagain n]
    nofun

/-- The same with a name in ASCII: two pages. -/
theorem paging_complete_ascii :
    follow (fun _ => zeroDigest) oneEach none (List.replicate 3 (twoFiles 0x6E)) =
        { entries := (twoFiles 0x6E).names.filterMap ((twoFiles 0x6E).shown oneEach.respects),
          status := .done } ∧
      ∃ entry ∈ (follow (fun _ => zeroDigest) oneEach none
        (List.replicate 3 (twoFiles 0x6E))).entries, entry.name = ascii "z" := by
  have htext : ∀ d ∈ List.replicate 3 (twoFiles 0x6E), ∀ entry ∈ d.entries,
      Utf8.Valid entry.name ∧ entry.name.length ≤ 255 := by
    intro d hd
    rw [List.eq_of_mem_replicate hd]
    decide
  have hsurvive : EndsSurvive (fun _ => zeroDigest) oneEach []
      (List.replicate 3 (twoFiles 0x6E)) := endsSurvive_of_text _ htext []
  have hall := (paging_complete (fun _ => zeroDigest) oneEach).1 (twoFiles 0x6E) 3 (by decide) hsurvive
  refine ⟨hall, ((paging_complete (fun _ => zeroDigest) oneEach).2 _ hsurvive).2.2 ?_ _ ?_⟩
  · rw [hall]
  · intro d hd
    rw [List.eq_of_mem_replicate hd]
    exact ⟨{ name := ascii "z", isDir := false }, by decide, rfl, by decide⟩

end Cohub.Sandbox
