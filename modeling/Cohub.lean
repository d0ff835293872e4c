import Cohub.Board.Cascade
import Cohub.Board.Clipboard
import Cohub.Board.Playback
import Cohub.Rooms.History
import Cohub.Edit.Faithful
import Cohub.Realtime.CompactFrames
import Cohub.Realtime.ReorderBuffer
import Cohub.Timeline.ExactTime
import Cohub.Stream.DiffRoundTrip
import Cohub.Stream.Sequencing
import Cohub.Context.Complete
import Cohub.Sessions.Renumbered
import Cohub.Sessions.Lease
import Cohub.Access.Decisions
import Cohub.Sandbox.Paging
import Cohub.Queue.Safe
import Cohub.Agent.Archives
import Cohub.Agent.Flushed
import Cohub.Agent.SessionIndex
import Cohub.Sandbox.MountsHeld
import Cohub.Gateway.OutboundScheduler
import Cohub.Gateway.FenceBalance
import Cohub.Sandbox.Watched
import Cohub.Sandbox.WriteFile
import Cohub.Wallet.Outstanding
import Cohub.Runtime.Archived
import Cohub.Checkpoint.Closed
import Cohub.Search.Recorded
import Cohub.Stats.Arrived
import Cohub.Chat.NoHoles
import Cohub.Wallet.ChargedOnce
import Cohub.Checkpoint.StatCache
import Cohub.Checkpoint.BundleChains
import Cohub.SpaceFs.Fresh
import Cohub.Board.Placement
import Cohub.Compaction.Convergence
import Cohub.Sandbox.GrepContext
import Cohub.Native.Boundaries
import Cohub.Native.IngestJournal
import Cohub.Search.Ignoring
import Cohub.Search.Candidates
import Cohub.SpaceFs.CopyLimiter
import Cohub.Sandbox.AccessUnits
import Cohub.Hooks.Matching
import Cohub.Board.MergeDiff
import Cohub.Generation.Policy
