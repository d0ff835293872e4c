import Cohub.Lib.Addressed
import Cohub.Lib.Mealy
import Cohub.Lib.Number
import Cohub.Lib.OrderedMap

/-! # Buffered view counts

    Views are counted in a Redis hash, the active batch.  A flush takes a lock,
    cuts the active batch by renaming it to a pending one that an index lists,
    and then adds each pending batch to the hourly table and removes it.

    A flush is a list of steps, one for each script, command or transaction.
    Another flush, a view, the end of the lock's lifetime or the death of the
    process may come between any two. -/

namespace Cohub.Stats

/-! ## Fields and rows -/

inductive AppViewStatsSource where
  | web
  | cli
  | api
  deriving DecidableEq

/-- The array that a field of the hash is the text of. -/
structure AppViewStatsRedisField where
  appId : String
  appVersionId : String
  bucketStartAtMs : Int
  source : AppViewStatsSource
  deriving DecidableEq

def isHexDigit (c : Char) : Bool :=
  ('0' ≤ c && c ≤ '9') || ('a' ≤ c && c ≤ 'f') || ('A' ≤ c && c ≤ 'F')

/-- The lengths of the groups of hexadecimal digits. -/
def UUID_SHAPE : List Nat := [8, 4, 4, 4, 12]

def isUuidLike (value : String) : Bool :=
  let groups := value.toList.splitOn '-'
  groups.map List.length == UUID_SHAPE && groups.all fun group => group.all isHexDigit

/-- The last moment a date can stand for. -/
def MAX_DATE_MS : Int := 8640000000000000

def MAX_SAFE_INTEGER : Nat := 9007199254740991

def decodeAppViewStatsRedisField (value : AppViewStatsRedisField) : Option AppViewStatsRedisField :=
  if !isUuidLike value.appId then none
  else if !isUuidLike value.appVersionId then none
  else if value.bucketStartAtMs < 0 || value.bucketStartAtMs > MAX_DATE_MS then none
  else some value

abbrev Batch := OrderedMap AppViewStatsRedisField Nat

structure AppViewStatsBatchRow where
  dimensions : AppViewStatsRedisField
  viewCount  : Nat
  deriving DecidableEq

def parseEntry (entry : AppViewStatsRedisField × Nat) : Option AppViewStatsBatchRow :=
  match decodeAppViewStatsRedisField entry.1 with
  | none => none
  | some dimensions =>
      if entry.2 > MAX_SAFE_INTEGER || entry.2 == 0 then none else some ⟨dimensions, entry.2⟩

def parseAppViewStatsBatch (hash : Batch) : List AppViewStatsBatchRow := hash.entries.filterMap parseEntry

def UPSERT_CHUNK_SIZE : Nat := 500

def chunkStatsRows (items : List AppViewStatsBatchRow) : List (List AppViewStatsBatchRow) :=
  Addressed.pieces UPSERT_CHUNK_SIZE items.length items

/-! ## Redis and the table -/

/-- The view count of each row of `app_view_stats_hourly`, 0 where there is none. -/
abbrev Table := AppViewStatsRedisField → Nat

def upsert (table : Table) (row : AppViewStatsBatchRow) : Table :=
  Function.update table row.dimensions (table row.dimensions + row.viewCount)

def insertRows (table : Table) (rows : List AppViewStatsBatchRow) : Table :=
  (chunkStatsRows rows).foldl (fun table chunk => chunk.foldl upsert table) table

/-- How far a flush has come. -/
inductive Phase where
  | starting
  | locked
  | cut
  | working (pendingKeys : List Nat)
  /-- The batch has been read. -/
  | read (key : Nat) (batch : Batch) (rest : List Nat)
  /-- The batch has been added, if it has rows, and is to be removed. -/
  | removing (key : Nat) (rest : List Nat)
  | releasing
  | ended

structure World where
  /-- A hash without fields is a key that is not there. -/
  active  : Batch
  pending : Nat → Batch
  /-- The set of pending keys. -/
  index   : List Nat
  /-- A key with a fresh UUID. -/
  nextKey : Nat
  /-- The flush whose token the lock holds. -/
  lock    : Option Nat
  table   : Table
  flushes : List Phase

def World.start : World := ⟨.empty, fun _ => .empty, [], 0, none, fun _ => 0, []⟩

def World.phase (s : World) (i : Nat) : Phase := (s.flushes[i]?).getD .ended

def World.goTo (s : World) (i : Nat) (phase : Phase) : World := { s with flushes := s.flushes.set i phase }

/-! ## Steps -/

def hincrby (batch : Batch) (field : AppViewStatsRedisField) : Batch :=
  batch.set field ((batch.get? field).getD 0 + 1)

/-- `CUT_ACTIVE_HASH_SCRIPT` with a fresh pending key. -/
def cutActiveHash (s : World) : World :=
  if s.active.entries = [] then { s with nextKey := s.nextKey + 1 }
  else
    { s with
      index := s.index ++ [s.nextKey], pending := Function.update s.pending s.nextKey s.active,
      active := .empty, nextKey := s.nextKey + 1 }

def removeBatch (s : World) (key : Nat) : World :=
  { s with pending := Function.update s.pending key .empty, index := s.index.filter fun k => k ≠ key }

def releaseLock (s : World) (i : Nat) : World := if s.lock = some i then { s with lock := none } else s

inductive Input where
  | view (field : AppViewStatsRedisField)
  | begin
  /-- The next step of a flush.  The set of pending keys comes in some order. -/
  | act (i : Nat) (order : List Nat)
  /-- A command or a transaction of the flush throws. -/
  | fail (i : Nat)
  | die (i : Nat)
  | expire
  deriving DecidableEq

def act (s : World) (i : Nat) (order : List Nat) : World :=
  match s.phase i with
  | .starting => if s.lock = none then { s with lock := some i }.goTo i .locked else s.goTo i .ended
  | .locked => (cutActiveHash s).goTo i .cut
  | .cut => s.goTo i (.working (if order.isPerm s.index then order else s.index))
  | .working [] => s.goTo i .releasing
  | .working (key :: rest) => s.goTo i (.read key (s.pending key) rest)
  | .read key batch rest =>
      { s with table := insertRows s.table (parseAppViewStatsBatch batch) }.goTo i (.removing key rest)
  | .removing key rest => (removeBatch s key).goTo i (.working rest)
  | .releasing => (releaseLock s i).goTo i .ended
  | .ended => s

def afterFailure : Phase → Phase
  | .starting => .ended
  | .releasing => .ended
  | .ended => .ended
  | _ => .releasing

/-- A step, and the fields it counts. -/
def step (s : World) : Input → World × List AppViewStatsRedisField
  | .view field => ({ s with active := hincrby s.active field }, [field])
  | .begin => ({ s with flushes := s.flushes ++ [.starting] }, [])
  | .act i order => (act s i order, [])
  | .fail i => (s.goTo i (afterFailure (s.phase i)), [])
  | .die i => (s.goTo i .ended, [])
  | .expire => ({ s with lock := none }, [])

def flushes : Mealy World Input AppViewStatsRedisField := ⟨step⟩

end Cohub.Stats
