import Multiversion.Fault
import Multiversion.Ordered.Map
import Multiversion.View.Basic
/- The views a member knows, by id. The one with the greatest id is the current view, and it is
   never forgotten. -/
namespace Multiversion

/-- The members of the known views, by view id; at least one view is known. -/
structure ViewTable where
  known : OrderedMap Nat (List Address)
  nonempty : known.entries ≠ []

namespace ViewTable

/-- A table of one view. -/
def single (v : View) : ViewTable :=
  ⟨OrderedMap.empty.insert v.id v.members, OrderedMap.insert_ne_nil _ _ _⟩

/-- Learn a view; it takes the place of a view with the same id. -/
def add (t : ViewTable) (v : View) : ViewTable :=
  ⟨t.known.insert v.id v.members, OrderedMap.insert_ne_nil _ _ _⟩

/-- The view with the greatest id. -/
def current (t : ViewTable) : View := let e := t.known.entries.getLast t.nonempty; ⟨e.1, e.2⟩

def currentId (t : ViewTable) : Nat := t.current.id

/-- The ids of the known views, in order. -/
def ids (t : ViewTable) : List Nat := t.known.keys

/-- The least known id. -/
def oldestId (t : ViewTable) : Nat := (t.known.entries.head t.nonempty).1

/-- Whether the view with an id is known. -/
def knows (t : ViewTable) (id : Nat) : Bool := t.known.contains id

/-- The view with an id. -/
def get (t : ViewTable) (id : Nat) : Except StampFault View :=
  match t.known.get? id with
  | some members => .ok ⟨id, members⟩
  | none => .error (.unknownView id)

/-- Fails unless the view with an id is known. -/
def check (t : ViewTable) (id : Nat) : Except StampFault Unit :=
  if t.knows id then .ok () else .error (.unknownView id)

/-- The least id that is kept when the ids below `least` are to go: the current view always
stays. -/
def keepFrom (t : ViewTable) (least : Nat) : Nat := min least t.currentId

theorem keep_ne_nil (t : ViewTable) (least : Nat) :
    (t.known.filter fun id _ => t.keepFrom least ≤ id).entries ≠ [] := by
  have h : t.known.entries.getLast t.nonempty ∈
      (t.known.filter fun id _ => t.keepFrom least ≤ id).entries :=
    List.mem_filter.2 ⟨List.getLast_mem t.nonempty,
      decide_eq_true (Nat.min_le_right least t.currentId)⟩
  exact List.ne_nil_of_mem h

/-- Forget the views with an id below `least`, but never the current view. -/
def forget (t : ViewTable) (least : Nat) : ViewTable :=
  ⟨t.known.filter fun id _ => t.keepFrom least ≤ id, keep_ne_nil t least⟩

/-- How many views `forget` forgets: those that it leaves behind. -/
def forgotten (t : ViewTable) (least : Nat) : Nat :=
  (t.known.filter fun id _ => id < t.keepFrom least).size

end ViewTable
end Multiversion
