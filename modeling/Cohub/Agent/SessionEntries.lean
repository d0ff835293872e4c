import Cohub.Lib.Json

/-! # Entries of a local session file

    An agent's session is a file of entries: messages, setting changes, custom
    entries and compactions, each with the id of the one before it.  From the
    branch of entries that leads to the last one, the agent reads what the model
    is told: the latest compaction's summary, the messages that it keeps, and
    the last settings. -/

namespace Cohub.Agent

/-! ## Entries -/

/-- A message, with the members that the session manager reads. -/
structure AgentMessage where
  role     : String
  provider : Option String
  model    : Option String
  rest     : Json
deriving DecidableEq

structure Compaction where
  summary : String
  firstKeptEntryId : String
  tokensBefore : Rat
  details : Option Json
  fromHook : Option Bool
deriving DecidableEq

inductive EntryData where
  | message (message : AgentMessage)
  | thinkingLevelChange (thinkingLevel : String)
  | modelChange (provider modelId : String)
  | compaction (compaction : Compaction)
  | custom (customType : String) (data : Option Json)
  | customMessage (customType : String) (content : Json) (display : Bool) (details : Option Json)
  | sessionInfo (name : Option String)
deriving DecidableEq

structure SessionEntry where
  id        : String
  parentId  : Option String
  timestamp : String
  data      : EntryData
deriving DecidableEq

namespace SessionEntry

def compaction? (entry : SessionEntry) : Option Compaction :=
  match entry.data with
  | .compaction compaction => some compaction
  | _ => none

def isCompaction (entry : SessionEntry) : Bool := entry.compaction?.isSome

def isMessage (entry : SessionEntry) : Bool :=
  match entry.data with
  | .message _ => true
  | _ => false

def isThinkingLevelChange (entry : SessionEntry) : Bool :=
  match entry.data with
  | .thinkingLevelChange _ => true
  | _ => false

end SessionEntry

/-! ## What a branch says -/

structure ModelChoice where
  provider : String
  modelId  : String
deriving DecidableEq

structure SessionSettings where
  thinkingLevel : Option String
  model         : Option ModelChoice
deriving DecidableEq

/-- A member that is set and not empty. -/
def truthy (text : Option String) : Option String := text.filter (· ≠ "")

/-- One round of the scan of `resolveSessionSettings`. -/
def scanSetting (settings : SessionSettings) (entry : SessionEntry) : SessionSettings :=
  match entry.data with
  | .thinkingLevelChange level => { settings with thinkingLevel := some level }
  | .modelChange provider modelId => { settings with model := some { provider, modelId } }
  | .message message =>
      if message.role = "assistant" then
        match truthy message.provider, truthy message.model with
        | some provider, some modelId => { settings with model := some { provider, modelId } }
        | _, _ => settings
      else settings
  | _ => settings

/-- Last-wins scan. -/
def resolveSessionSettings (entries : List SessionEntry) : SessionSettings :=
  entries.foldl scanSetting { thinkingLevel := none, model := none }

/-- A message of the model's context.  `custom` has a timestamp that is
    generated when the context is built. -/
inductive ContextMessage where
  | message (message : AgentMessage)
  | custom (content : Json)
  | compactionSummary (summary : String) (tokensBefore : Rat) (timestamp : String)
deriving DecidableEq

def entryToContextMessage (entry : SessionEntry) : Option ContextMessage :=
  match entry.data with
  | .message message => some (.message message)
  | .customMessage _ content _ _ => some (.custom content)
  | _ => none

/-- The branch around its latest compaction. -/
def splitAtCompaction : List SessionEntry →
    Option (List SessionEntry × SessionEntry × Compaction × List SessionEntry)
  | [] => none
  | entry :: rest =>
      match splitAtCompaction rest with
      | some (before, found) => some (entry :: before, found)
      | none => entry.compaction?.map fun compaction => ([], entry, compaction, rest)

/-- The latest compaction with its entry, and what it keeps. -/
structure CompactedBranch where
  compaction : Option (SessionEntry × Compaction)
  kept       : List SessionEntry
deriving DecidableEq

def resolveCompactedBranch (branch : List SessionEntry) : CompactedBranch :=
  match splitAtCompaction branch with
  | none => { compaction := none, kept := branch }
  | some (before, entry, compaction, after) =>
      let firstKept := before.dropWhile fun e => e.id ≠ compaction.firstKeptEntryId
      -- a root compaction keeps what follows; one that names no entry keeps all
      if before = [] then { compaction := some (entry, compaction), kept := after }
      else if firstKept = [] then { compaction := some (entry, compaction), kept := before ++ after }
      else { compaction := some (entry, compaction), kept := firstKept ++ after }

structure SessionContext where
  messages      : List ContextMessage
  thinkingLevel : Option String
  model         : Option ModelChoice
deriving DecidableEq

/-- `buildSessionContext` of a branch. -/
def contextOfBranch (branch : List SessionEntry) : SessionContext :=
  let settings := resolveSessionSettings branch
  let resolved := resolveCompactedBranch branch
  let summary := resolved.compaction.map fun found =>
    .compactionSummary found.2.summary found.2.tokensBefore found.1.timestamp
  { messages := summary.toList ++ resolved.kept.filterMap entryToContextMessage,
    thinkingLevel := settings.thinkingLevel, model := settings.model }

/-- An entry of the input of the compaction. -/
inductive PiEntry where
  | compaction (id : String) (parentId : Option String) (seq : Nat) (timestamp summary : String)
      (tokensBefore : Rat) (details : Option Json) (fromHook : Bool)
  | message (id : String) (parentId : Option String) (seq : Nat) (timestamp : String)
      (message : ContextMessage)
deriving DecidableEq

/-- The messages, numbered from `seq` on. -/
def piMessages : Nat → List SessionEntry → List PiEntry
  | _, [] => []
  | seq, entry :: rest =>
      match entryToContextMessage entry with
      | none => piMessages seq rest
      | some message =>
          .message entry.id entry.parentId seq entry.timestamp message :: piMessages (seq + 1) rest

/-- `getCompactionEntries` of a branch. -/
def compactionEntriesOfBranch (branch : List SessionEntry) : List PiEntry :=
  let resolved := resolveCompactedBranch branch
  match resolved.compaction with
  | none => piMessages 0 resolved.kept
  | some (entry, compaction) =>
      .compaction entry.id entry.parentId 0 entry.timestamp compaction.summary
        compaction.tokensBefore compaction.details (compaction.fromHook.getD false) ::
        piMessages 1 resolved.kept

/-- The same without its link. -/
def PiEntry.unlinked : PiEntry → PiEntry
  | .compaction id _ seq timestamp summary tokensBefore details fromHook =>
      .compaction id none seq timestamp summary tokensBefore details fromHook
  | .message id _ seq timestamp content => .message id none seq timestamp content

end Cohub.Agent
