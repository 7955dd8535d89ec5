import Multiversion.Duration
import Multiversion.Stamp.Basic
/- The settings of one member. -/
namespace Multiversion

/-- How the stored entries are versioned. Only the last scheme keeps history and serves
snapshots. -/
inductive Scheme
  | unversioned
  | simple
  | totalOrder
  | multiversion
deriving DecidableEq, Inhabited, Repr

/-- The name of a scheme in messages and in stored settings. -/
def Scheme.name : Scheme → String
  | unversioned => "None"
  | simple => "Simple"
  | totalOrder => "TotalOrder"
  | multiversion => "Gmu"

/-- The settings of one member. -/
structure Settings where
  scheme : Scheme := .multiversion
  placement : Placement := .replicated
  /-- Whether a member keeps an expiring copy of the committed keys it does not own. -/
  shadowCopies : Bool := false
  /-- How long such a copy lives. -/
  shadowLifespan : Duration := .ofSecs 600
  /-- How long a read waits for this member to catch up with what the transaction has seen. -/
  replicationTimeout : Duration := .ofSecs 15
  /-- The time between two rounds of garbage collection; none runs them on demand only. -/
  gcInterval : Option Duration := some (.ofSecs 60)
deriving DecidableEq, Inhabited

/-- Whether snapshots are served and history is kept. -/
def Settings.keepsHistory (s : Settings) : Bool := s.scheme = .multiversion

end Multiversion
