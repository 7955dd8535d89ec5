import Multiversion.Names
/- Views: the numbered lists of members that the cluster goes through.

   Stamps refer to a member by its index in the view they are stamped with. -/
namespace Multiversion

/-- The members of the cluster at one time, in a fixed order. -/
structure View where
  id : Nat
  members : List Address
deriving DecidableEq, Inhabited, Repr

namespace View

/-- Append the members that are not there yet, in the order of their first occurrences. -/
def joinAll (known : List Address) : List Address → List Address
  | [] => known
  | m :: rest => if m ∈ known then joinAll known rest else joinAll (known ++ [m]) rest

/-- The view of a list of members; a member listed twice keeps its first place. -/
def ofMembers (id : Nat) (members : List Address) : View := ⟨id, joinAll [] members⟩

/-- The place of a member in the view. -/
def indexOf? (v : View) (m : Address) : Option Nat := v.members.findIdx? (· = m)

/-- The member at a place. -/
def member? (v : View) (i : Nat) : Option Address := v.members[i]?

def contains (v : View) (m : Address) : Bool := (v.indexOf? m).isSome

def size (v : View) : Nat := v.members.length

end View
end Multiversion
