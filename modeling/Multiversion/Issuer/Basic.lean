import Multiversion.Stamp.Compare
import Multiversion.View.Table
/- The issuer of stamps.

   It stamps new commits the way the keys are placed, in the current view, and brings stamps into
   other forms. Every stamp it is given must be of a known view. -/
namespace Multiversion

/-- Issues stamps: it knows how the keys are placed, and the views that stamps may be of. -/
structure Issuer where
  placement : Placement
  views : ViewTable

namespace Issuer

/-- The commit stamp of a value in a view. -/
def stamp (i : Issuer) (view : Nat) (value : Int64) : CommitStamp := ⟨i.placement, view, value⟩

/-- The commit stamp at a place in commit history. -/
def stampAt (i : Issuer) (r : Rank) : CommitStamp := i.stamp r.view r.value

/-- The id of the current view. -/
def currentView (i : Issuer) : Nat := i.views.currentId

/-- Learn a view. -/
def addView (i : Issuer) (v : View) : Issuer := { i with views := i.views.add v }

/-- Forget the views older than `least`. -/
def forgetViews (i : Issuer) (least : Nat) : Issuer := { i with views := i.views.forget least }

/-- The write stamp of the first write of a key. -/
def firstWrite (i : Issuer) : WriteStamp := ⟨i.currentView, 1, 0⟩

/-- The place of a stamp that is present and of a known view. -/
def rankOf (i : Issuer) (v : Stamp) : Except StampFault Rank :=
  match v.rank? with
  | none => .error (.unexpected .existing v.kind)
  | some r => do i.views.check r.view; return r

/-- The commit value after a value. -/
def successor (value : Int64) : Except StampFault Int64 :=
  if value = Int64.maxValue then .error (.overflow value) else .ok (value + 1)

/-- The next stamp after a stamp, in the current view: a write after a write, a commit after
anything else. -/
def increment (i : Issuer) (v : Stamp) : Except StampFault Stamp := do
  let next ← successor (← i.rankOf v).value
  match v with
  | .write _ => return .write ⟨i.currentView, next, 0⟩
  | _ => return .commit (i.stamp i.currentView next)

/-- The same point in history, stamped with the current view unless its own view is newer. -/
def restamp (i : Issuer) (v : Stamp) : Except StampFault Stamp :=
  let moved (view : Nat) : Except StampFault Nat :=
    do i.views.check view; return max view i.currentView
  match v with
  | .absent => .ok .absent
  | .write w => do return .write { w with view := ← moved w.view }
  | .snapshot s => do return .snapshot { s with view := ← moved s.view }
  | .commit c => do return .commit (i.stamp (← moved c.view) c.value)

/-- The write of one key that a stamp stands for. -/
def toWrite (i : Issuer) (v : Stamp) (sub : Int32) : Except StampFault WriteStamp := do
  let r ← i.rankOf v
  return ⟨r.view, r.value, sub⟩

/-- The bound that a stamp stands for; every committed write lies below the bound of an absent
stamp. -/
def toSnapshot (i : Issuer) : Stamp → Except StampFault Snapshot
  | .absent => .ok (.unbounded i.currentView)
  | .snapshot s => do i.views.check s.view; return s
  | v => do
    let r ← i.rankOf v
    return { view := r.view, value := r.value }

/-- Fails unless there are owners and all of them are in the view. -/
def checkOwners (v : View) (owners : List Address) : Except StampFault Unit :=
  if owners = [] then .error .noOwners
  else
    match owners.find? (!v.contains ·) with
    | some m => .error (.unknownMember v.id m)
    | none => .ok ()

/-- The commit stamp that all owners agree on, given the merge of their votes. Where every member
holds every key the owners do not matter; where keys have owners there is at least one, and all are
in the current view. -/
def agree (i : Issuer) (vote : Stamp) (owners : List Address) : Except StampFault CommitStamp := do
  match vote.rank? with
  | none => .error (.unexpected .prepare vote.kind)
  | some r =>
    i.views.check r.view
    if i.placement = .distributed then checkOwners i.views.current owners
    return i.stamp i.currentView r.value

end Issuer
end Multiversion
