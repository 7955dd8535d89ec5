import Multiversion.Issuer.Window
import Multiversion.Member.Basic
/- Reading, within a transaction and for transactions of other members, and validating what was
   read. -/
namespace Multiversion.Member

/-- Whether the member has applied what a transaction has seen elsewhere; fails with what is
missing. A read waits for it, at most for the replication timeout. -/
def checkReached (m : Member) (tx : Stamp) (readFrom : OrderedSet Nat) : Except TxFault Unit := do
  match ← (m.issuer.floor tx readFrom).mapError .stamp with
  | none => return ()
  | some least =>
    if ← (m.journal.reached (.commit least)).mapError fun e => .journal (.stamp e) then return ()
    else .error (.unavailable (.commit least) (.notApplied m.settings.replicationTimeout))

/-- The bound that a read of a transaction gets: the transaction's own, or the greatest commit so
far if the transaction has not read yet. -/
def readBound (m : Member) (tx : Stamp) (readFrom : OrderedSet Nat) : Except TxFault Snapshot := do
  m.checkReached tx readFrom
  match ← (m.issuer.ceiling tx readFrom).mapError .stamp with
  | some bound => m.snapshotAt bound
  | none => m.snapshotAt (← (m.journal.available m.issuer none).mapError .journal)

/-- Answer a read of a key for a transaction with the given stamp that has read from the given
members. -/
def read (m : Member) (k : Key) (tx : Stamp) (readFrom : OrderedSet Nat) :
    Except TxFault Answer := do
  m.checkEnabled
  let bound ← m.readBound tx readFrom
  return (← m.store.get k (.snapshot bound)).withTxBound (.snapshot bound)

/-- Read a key within a transaction and note the read in it. -/
def readIn (m : Member) (tx : Transaction) (k : Key) :
    Except TxFault (Option Value) × Transaction :=
  match (do return (← m.read k tx.stamp tx.readFrom,
    ← m.index.mapError .stamp) : Except TxFault (Answer × Nat)) with
  | .error e => (.error e, tx)
  | .ok (answer, index) =>
    match tx.recordRead m.issuer k index answer.txBound with
    | (.error e, noted) => (.error (.stamp e), noted)
    | (.ok (), noted) => (.ok answer.value, noted)

/-- Fails at the first key whose newest write is not at or before a stamp. -/
def validateAll (m : Member) (asOf : Stamp) : List Key → Except TxFault Unit
  | [] => .ok ()
  | k :: rest => do m.store.validate k asOf; m.validateAll asOf rest

/-- Check that no key of a read set was overwritten after a stamp. -/
def validate (m : Member) (prepared : Stamp) (readSet : OrderedSet Key) : Except TxFault Unit := do
  m.checkEnabled
  m.validateAll (.snapshot (← m.snapshotAt prepared)) readSet.toList

end Multiversion.Member
