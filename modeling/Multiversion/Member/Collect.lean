import Multiversion.Member.Basic
/- Garbage collection on one member: what it still needs, and dropping what nobody needs. -/
namespace Multiversion.Member

/-- The oldest stamp that a running transaction may read; the greatest commit if none is running. -/
def localMinimum (m : Member) : Except TxFault Stamp := do
  m.checkEnabled
  if m.registry.snapshots.isEmpty then m.journal.latestStamp.mapError .journal
  else (m.issuer.mergeMin m.registry.snapshots).mapError .stamp

/-- The oldest view that an entry or a running transaction refers to. -/
def localMinimumView (m : Member) : Except TxFault Nat := do
  m.checkEnabled
  let oldest ← m.journal.oldestView.mapError .journal
  return ((m.registry.snapshots.filterMap Stamp.view?).min?.map (min · oldest)).getD oldest

/-- Drop the history that no reader at or after the cutoff can reach. The number of collected
revisions is returned. -/
def gc (m : Member) (cutoff : Stamp) : Except TxFault (Nat × Member) := do
  m.checkEnabled
  let bound ← m.snapshotAt cutoff
  let (trimmed, journal) := m.journal.trim cutoff
  let _ ← trimmed.mapError .journal
  let (removed, store) ← (m.store.gc (.snapshot bound)).mapError .stamp
  return (removed, { m with journal, store })

/-- Drop the copies of keys owned elsewhere that have expired. The number of dropped revisions is
returned. -/
def expire (m : Member) (now : Nat) : Nat × Member :=
  let (removed, store) := m.store.expire now
  (removed, { m with store })

/-- The commit value of the oldest stamp that is still needed. -/
def minimumValue (m : Member) : Except TxFault Int64 := do
  let least ← m.localMinimum
  match least.value? with
  | some value => return value
  | none => .error (.stamp (.unexpected .commit least.kind))

/-- Drop the history before a commit value, but nothing that a transaction running here may read.
The cutoff is stamped with the oldest known view, which makes it the oldest commit of its value. -/
def gcBefore (m : Member) (value : Int64) : Except TxFault (Nat × Member) := do
  let requested ← m.snapshotAt (.commit (m.issuer.stamp m.issuer.views.oldestId value))
  let least ← m.snapshotAt (← m.localMinimum)
  let bound ← (m.issuer.mergeMin [.snapshot requested, .snapshot least]).mapError .stamp
  m.gc bound

/-- Forget the views older than `least`. -/
def forgetViews (m : Member) (least : Nat) : Member :=
  { m with issuer := m.issuer.forgetViews least }

end Multiversion.Member
