import Multiversion.Fault
/- The comparison of stamps.

   Writes are ordered among themselves and against snapshots, commits among themselves. An absent
   stamp is before every other; any other pair has no order. -/
namespace Multiversion

/-- A write that the snapshot excludes, or that is beyond its position, is after it; any other write
lies by its value. -/
def Snapshot.locate (s : Snapshot) (w : WriteStamp) : Ordering :=
  if w.position ∈ s.excluded ∨ s.position < w.position then .gt else compare w.value s.value

namespace Stamp

/-- How the first stamp lies in commit history relative to the second. -/
def compare : Stamp → Stamp → Except StampFault Ordering
  | absent, absent => .ok .eq
  | absent, _ => .ok .lt
  | _, absent => .ok .gt
  | write a, write b => .ok (Ord.compare a.position b.position)
  | write a, snapshot s => .ok (s.locate a)
  | snapshot s, write b => .ok (s.locate b).swap
  | commit a, commit b => .ok (Ord.compare a.rank b.rank)
  | a, b => .error (.incomparable a.kind b.kind)

/-- Whether the first stamp is not after the second. -/
def atOrBefore (a b : Stamp) : Except StampFault Bool := return (← a.compare b) ≠ .gt

/-- Whether the first stamp is not before the second. -/
def atOrAfter (a b : Stamp) : Except StampFault Bool := return (← a.compare b) ≠ .lt

/-- Which writes lie at or before a stamp. All do if the stamp is absent; a commit says nothing of
single writes. -/
def visibility : Stamp → Except StampFault (WriteStamp → Bool)
  | absent => .ok fun _ => true
  | write b => .ok fun w => w.position ≤ b.position
  | snapshot s => .ok s.admits
  | commit c => .error (.incomparable .write (.commit c.placement))

end Stamp
end Multiversion
