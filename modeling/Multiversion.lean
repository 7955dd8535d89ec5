import Multiversion.Cluster
import Multiversion.Wire.Message
import Multiversion.Wire.Settings
import Multiversion.Wire.Stamp
import Multiversion.Proofs.Cut
import Multiversion.Proofs.EntryTest
import Multiversion.Proofs.Chronology
import Multiversion.Proofs.Timelines
import Multiversion.Proofs.History
import Multiversion.Proofs.Applying
import Multiversion.Proofs.Batch
import Multiversion.Proofs.Faithful
import Multiversion.Proofs.Transactions
import Multiversion.Proofs.Session
import Multiversion.Proofs.SnapshotIsolation
import Multiversion.Proofs.LocalCollection
import Multiversion.Proofs.RemoteRead
import Multiversion.Proofs.World
import Multiversion.Proofs.RemoteCollection
import Multiversion.Proofs.VersionRound
import Multiversion.Proofs.Acceptance
import Multiversion.Proofs.FirstRead
import Multiversion.Proofs.TrimmedReads
import Multiversion.Proofs.ReferredViews
import Multiversion.Proofs.ViewRound
import Multiversion.Proofs.RoundMoves
import Multiversion.Proofs.Noted
import Multiversion.Proofs.ReadPlaces
import Multiversion.Proofs.Validation
import Multiversion.Proofs.RetainedWrites
import Multiversion.Proofs.NeededValue
import Multiversion.Proofs.VersionLetters
import Multiversion.Proofs.RepeatedCollection
import Multiversion.Proofs.RetainedReads
import Multiversion.Proofs.JournalRuns
import Multiversion.Proofs.Agreement
import Multiversion.Proofs.HalfApplied
import Multiversion.Proofs.Calls
import Multiversion.Proofs.Splitting
import Multiversion.Proofs.Expiry
import Multiversion.Proofs.PlainMap
import Multiversion.Proofs.IdleCollection
import Multiversion.Proofs.CutShort
import Multiversion.Proofs.ReadBounds
import Multiversion.Proofs.Comparison
import Multiversion.Proofs.Lookup
import Multiversion.Proofs.Superseded
import Multiversion.Proofs.MostRecent
import Multiversion.Proofs.ReachedStamps
import Multiversion.Proofs.Extremes
import Multiversion.Proofs.Merging
import Multiversion.Proofs.MergedBounds
import Multiversion.Proofs.Visibility
import Multiversion.Proofs.Trimming
import Multiversion.Proofs.AvailableCommit
import Multiversion.Proofs.FanOut
import Multiversion.Proofs.RoundAnyOrder
import Multiversion.Proofs.MemberPlaces
import Multiversion.Proofs.KnownViews
