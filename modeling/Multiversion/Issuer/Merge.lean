import Multiversion.Issuer.Basic
/- Merging stamps into the greatest or the least of them.

   Absent stamps are left out. Bounds merge into a bound, with all their exclusions; of writes one
   is picked; anything else merges into the commit at the extreme place. -/
namespace Multiversion

/-- Which end of commit history a merge goes for. -/
inductive Extreme
  | greatest
  | least
deriving DecidableEq, Repr

namespace Extreme

/-- Of two values the one further to this end. -/
def pick {α : Type} [Max α] [Min α] : Extreme → α → α → α
  | greatest => max
  | least => min

/-- The bound at the further of two places, in the newer view, with the exclusions of both. -/
def ofSnapshots (e : Extreme) (a b : Snapshot) : Snapshot :=
  { a.moveTo (e.pick a.position b.position) with
    view := max a.view b.view
    excluded := a.excluded.union b.excluded }

/-- Of two writes the one further to this end; of two at one place the first. -/
def ofWrites (e : Extreme) (a b : WriteStamp) : WriteStamp :=
  match e with
  | greatest => if a.position < b.position then b else a
  | least => if b.position < a.position then b else a

/-- Combine a list from its first element on. -/
def fold {α : Type} (combine : α → α → α) : List α → Option α
  | [] => none
  | a :: rest => some (rest.foldl combine a)

end Extreme

namespace Issuer

/-- Fails at the first place whose view is not known. -/
def checkAll (i : Issuer) : List Rank → Except StampFault Unit
  | [] => .ok ()
  | r :: rest => do i.views.check r.view; i.checkAll rest

/-- The commit at the furthest of some places, all of known views; none if there are no places. -/
def mergeRanks (i : Issuer) (e : Extreme) (ranks : List Rank) :
    Except StampFault (Option CommitStamp) := do
  i.checkAll ranks
  return (Extreme.fold e.pick ranks).map i.stampAt

/-- The merge of the stamps that are present, all of them of known views; absent if there are
none. -/
def merge (i : Issuer) (e : Extreme) (stamps : List Stamp) : Except StampFault Stamp := do
  let present := stamps.filter (!·.isAbsent)
  -- The views are checked in the order of the stamps, whatever the stamps merge into.
  let commit ← i.mergeRanks e (present.filterMap Stamp.rank?)
  let merged :=
    if present.all (·.snapshot?.isSome) then
      (Extreme.fold e.ofSnapshots (present.filterMap Stamp.snapshot?)).map Stamp.snapshot
    else if present.all (·.write?.isSome) then
      (Extreme.fold e.ofWrites (present.filterMap Stamp.write?)).map Stamp.write
    else commit.map Stamp.commit
  return merged.getD .absent

/-- A stamp that is not before any of the stamps. -/
def mergeMax (i : Issuer) (stamps : List Stamp) : Except StampFault Stamp :=
  i.merge .greatest stamps

/-- A stamp that is not after any of the stamps. -/
def mergeMin (i : Issuer) (stamps : List Stamp) : Except StampFault Stamp := i.merge .least stamps

end Issuer
end Multiversion
