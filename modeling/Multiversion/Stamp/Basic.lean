import Multiversion.Ordered.Set
import Multiversion.Stamp.Order
/- Stamps: points in commit history.

   A stamp names the write of one key (`WriteStamp`), the agreed commit of one transaction
   (`CommitStamp`), or the bound a transaction reads up to (`Snapshot`); or it says that there is
   nothing there (`Stamp.absent`). -/
namespace Multiversion

/-- How the keys are placed on the members: every member holds every key, or each key has its
owners. -/
inductive Placement
  | replicated
  | distributed
deriving DecidableEq, Inhabited, Repr

/-- The write of one key by one commit. The view is the one it was committed in and takes no part in
the order. -/
structure WriteStamp where
  view : Nat
  value : Int64
  sub : Int32
deriving DecidableEq, Inhabited, Repr

/-- The commit value all members agreed on for one transaction, stamped with the view it was agreed
in. -/
structure CommitStamp where
  placement : Placement
  view : Nat
  value : Int64
deriving DecidableEq, Inhabited, Repr

/-- The bound a transaction reads up to.

It reaches to its own commit value: to the sub-version it is pinned to, or to the last one if it has
no pin. The excluded writes lie below that but were logged after the snapshot was taken. -/
structure Snapshot where
  view : Nat
  value : Int64
  pin : Option Int32 := none
  excluded : OrderedSet Position := .empty
deriving DecidableEq, Inhabited

/-- A point in commit history. -/
inductive Stamp
  | absent
  | write (w : WriteStamp)
  | snapshot (s : Snapshot)
  | commit (c : CommitStamp)
deriving DecidableEq, Inhabited

namespace WriteStamp

/-- The place of the write among the writes of all commits. -/
def position (w : WriteStamp) : Position := ⟨w.value, w.sub⟩

end WriteStamp

namespace CommitStamp

/-- The place of the commit among all commits. -/
def rank (c : CommitStamp) : Rank := ⟨c.value, c.view⟩

/-- The write that a commit makes to each of its keys, logged with the given sub-version. -/
def write (c : CommitStamp) (sub : Int32) : WriteStamp := ⟨c.view, c.value, sub⟩

end CommitStamp

namespace Snapshot

/-- A bound that every committed write lies below. -/
def unbounded (view : Nat) : Snapshot := { view, value := Int64.maxValue }

/-- The last place the bound reaches to. -/
def position (s : Snapshot) : Position := ⟨s.value, s.pin.getD Int32.maxValue⟩

/-- Move the bound to a place; the last sub-version of a value needs no pin. -/
def moveTo (s : Snapshot) (p : Position) : Snapshot :=
  { s with value := p.value, pin := if p.sub = Int32.maxValue then none else some p.sub }

/-- Exclude one more write. -/
def exclude (s : Snapshot) (p : Position) : Snapshot := { s with excluded := s.excluded.insert p }

/-- Whether the write at a place may be read. -/
def admitsAt (s : Snapshot) (p : Position) : Bool := p ≤ s.position && !decide (p ∈ s.excluded)

/-- Whether a write may be read. -/
def admits (s : Snapshot) (w : WriteStamp) : Bool := s.admitsAt w.position

end Snapshot

/-- The kind of a stamp. -/
inductive Kind
  | absent
  | write
  | snapshot
  | commit (placement : Placement)
deriving DecidableEq, Inhabited, Repr

/-- The name of a kind in messages. -/
def Kind.name : Kind → String
  | absent => "NonExisting"
  | write => "CacheEntry"
  | snapshot => "Read"
  | commit .replicated => "Replicated"
  | commit .distributed => "Distributed"

namespace Stamp

def kind : Stamp → Kind
  | absent => .absent
  | write _ => .write
  | snapshot _ => .snapshot
  | commit c => .commit c.placement

/-- The commit value and the view id of a stamp that is present. -/
def rank? : Stamp → Option Rank
  | absent => none
  | write w => some ⟨w.value, w.view⟩
  | snapshot s => some ⟨s.value, s.view⟩
  | commit c => some c.rank

def view? (v : Stamp) : Option Nat := v.rank?.map Rank.view

def value? (v : Stamp) : Option Int64 := v.rank?.map Rank.value

def isAbsent : Stamp → Bool
  | absent => true
  | _ => false

def commit? : Stamp → Option CommitStamp
  | commit c => some c
  | _ => none

def write? : Stamp → Option WriteStamp
  | write w => some w
  | _ => none

def snapshot? : Stamp → Option Snapshot
  | snapshot s => some s
  | _ => none

end Stamp
end Multiversion
