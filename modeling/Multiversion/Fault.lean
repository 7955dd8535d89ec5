import Multiversion.Names
import Multiversion.Settings
import Multiversion.Stamp.Text
import Multiversion.Text.Quoted
/- Everything that can go wrong, by cause, and its wording. -/
namespace Multiversion

/-- What a stamp was wanted for. -/
inductive Role
  | existing
  | prepare
  | commit
deriving DecidableEq, Inhabited, Repr

def Role.name : Role → String
  | existing => "existing"
  | prepare => "prepare"
  | commit => "commit"

/-- Faults of working with stamps. -/
inductive StampFault
  | incomparable (left right : Kind)
  /-- No view with this id is known. -/
  | unknownView (view : Nat)
  | unknownMember (view : Nat) (member : Address)
  | unknownIndex (view index : Nat)
  /-- Where keys have owners, a commit has at least one. -/
  | noOwners
  /-- No stamp was prepared for a written key, which is named as it is shown. -/
  | unprepared (shown : String)
  | unexpected (role : Role) (found : Kind)
  /-- The commit value is the greatest there is. -/
  | overflow (value : Int64)
deriving DecidableEq, Inhabited

/-- Faults of the journal of commits. -/
inductive JournalFault
  | notStarted
  /-- The current commit does not come after the last one. -/
  | notAfter (last : Stamp) (lastSub : Int32) (current : Stamp) (currentSub : Int32)
  | stamp (fault : StampFault)
deriving DecidableEq, Inhabited

/-- A write that is older than the newest write of its key. -/
structure StaleWrite where
  newest : WriteStamp
  current : WriteStamp
deriving DecidableEq, Inhabited

/-- Why a wanted stamp can not be served. -/
inductive Shortage
  /-- This member did not catch up in time. -/
  | notApplied (timeout : Duration)
  /-- The history of the key no longer reaches back to it. -/
  | collected (key : Key)
  | stated (reason : String)
deriving DecidableEq, Inhabited

/-- Faults that a transaction meets. -/
inductive TxFault
  /-- A key that was read has been overwritten; it is named as it is shown. -/
  | conflict (shown : String)
  | unavailable (requested : Stamp) (shortage : Shortage)
  | disabled (scheme : Scheme)
  | stamp (fault : StampFault)
  | journal (fault : JournalFault)
  | stale (fault : StaleWrite)
deriving DecidableEq, Inhabited

/-- Faults of garbage collection among members. -/
inductive GcFault
  /-- A command and the reply that does not answer it, as they are shown. -/
  | unexpectedReply (command reply : String)
  | member (fault : TxFault)
deriving DecidableEq, Inhabited

/-- Whether the transaction is to be aborted and may be tried again; every other fault is final. -/
def TxFault.isAbort : TxFault → Bool
  | conflict _ => true
  | unavailable _ _ => true
  | _ => false

def StampFault.message : StampFault → String
  | incomparable left right =>
    s!"Incomparable: a {left.name} version can not be compared with a {right.name} version"
  | unknownView view => s!"UnknownViewId: no cluster snapshot for view id {view}"
  | unknownMember view member => s!"UnknownMember: {member} is not a member of view {view}"
  | unknownIndex view index => s!"UnknownMemberIndex: index {index} is out of range in view {view}"
  | noOwners => "NoAffectedOwners: a distributed commit version needs at least one owner"
  | unprepared shown => s!"NoUpdatedVersion: no precomputed version for key {shown}"
  | unexpected role found => s!"Unexpected: expected a {role.name} version, found {found.name}"
  | overflow value => s!"Overflow: version {value} can not be incremented"

def JournalFault.message : JournalFault → String
  | notStarted => "NotStarted: the commit log has not been seeded with a first version"
  | notAfter last lastSub current currentSub =>
    s!"NonIncremental: current={current.text}.{currentSub} > last={last.text}.{lastSub} does not hold"
  | stamp fault => fault.message

def StaleWrite.message (f : StaleWrite) : String :=
  s!"OutOfOrder: current={f.current.text} is older than head={f.newest.text}"

def Shortage.message : Shortage → String
  | notApplied timeout => s!"not applied locally within {timeout.text}"
  | collected key => s!"history of key {Text.quote key} has been garbage collected"
  | stated reason => reason

def TxFault.message : TxFault → String
  | conflict shown => s!"ValidationConflict: key {shown} was overwritten by a newer commit"
  | unavailable requested shortage =>
    s!"VersionNotAvailable: {shortage.message}, requested: {requested.text}"
  | disabled scheme =>
    s!"EngineDisabled: multiversion snapshots are not enabled with versioning scheme {scheme.name}"
  | stamp fault => fault.message
  | journal fault => fault.message
  | stale fault => fault.message

def GcFault.message : GcFault → String
  | unexpectedReply command reply => s!"UnexpectedReply: {command} was answered with {reply}"
  | member fault => fault.message

end Multiversion
