import Multiversion.Journal.Basic
/- Bounds taken from the journal. -/
namespace Multiversion.Journal

/-- Go through entries, newest first, to the first one at or before the bound, which is returned.
The writes of the entries on the way are excluded from the snapshot if its value would admit
them. -/
def excludeNewer (bound : Stamp) (s : Snapshot) : List Entry →
    Except StampFault (Option Entry × Snapshot)
  | [] => .ok (none, s)
  | e :: older => do
    if ← e.test bound then return (some e, s)
    excludeNewer bound (if e.stamp.value ≤ s.value then s.exclude e.position else s) older

/-- Pin a bound without a pin to an entry of its own value. -/
def pinTo (s : Snapshot) : Option Entry → Snapshot
  | some e => if s.pin = none ∧ e.stamp.value = s.value then { s with pin := some e.sub } else s
  | none => s

/-- The bound of a reader at a stamp.

A write that was logged after the newest entry at or before the stamp is excluded if its value would
admit it. If that entry has the bound's own value the bound is pinned to it, so that a commit of the
same value logged later stays out of sight. -/
def snapshotAt (i : Issuer) (j : Journal) (bound : Stamp) : Except JournalFault Snapshot := do
  let s ← (i.toSnapshot bound).mapError .stamp
  let (floor, s) ← (excludeNewer bound s j.entries.reverse).mapError .stamp
  return pinTo s floor

/-- The commit to answer a read with. Without a bound it is the greatest commit so far, a commit is
its own answer, and for any other bound it is the greatest of the entries at or before it. -/
def available (i : Issuer) (j : Journal) (bound : Option Stamp) : Except JournalFault Stamp :=
  match bound with
  | none | some .absent => j.latestStamp
  | some (.commit c) => .ok (.commit c)
  | some v => do
    let candidates ← (j.entries.filterM fun e =>
      e.test v : Except StampFault (List Entry)).mapError .stamp
    match ← (i.mergeRanks .greatest (candidates.map (·.stamp.rank))).mapError .stamp with
    | some c => return .commit c
    | none => return .absent

/-- How many of the oldest entries lie at or before the bound. -/
def eligible (bound : Stamp) : List Entry → Except StampFault Nat
  | [] => .ok 0
  | e :: rest => do if ← e.test bound then return (← eligible bound rest) + 1 else return 0

/-- Forget the entries that no reader at or after the bound can reach: of the oldest entries at or
before it only the newest stays, and its commit is returned; none if there is no such entry. -/
def trim (j : Journal) (bound : Stamp) : Except JournalFault (Option CommitStamp) × Journal :=
  match (do
    let _ ← j.head
    if bound.isAbsent then return 0
    (eligible bound j.entries).mapError .stamp : Except JournalFault Nat) with
  | .error e => (.error e, j)
  | .ok 0 => (.ok none, j)
  | .ok (forgotten + 1) =>
    let kept := j.entries.drop forgotten
    (.ok (kept.head?.map (·.stamp)), { j with entries := kept, first := j.first + forgotten })

end Multiversion.Journal
