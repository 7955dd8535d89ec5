import Multiversion.Issuer.Merge
/- Running transactions, and the registry of their snapshots.

   Garbage collection keeps every version that a registered snapshot may still read. -/
namespace Multiversion

/-- The snapshots of the transactions running on one member, by transaction id. -/
structure Registry where
  nextId : Nat := 0
  active : OrderedMap Nat Stamp := .empty

instance : Inhabited Registry := ⟨{}⟩

namespace Registry

/-- Register a snapshot under a fresh id. -/
def register (r : Registry) (v : Stamp) : Nat × Registry :=
  (r.nextId, ⟨r.nextId + 1, r.active.insert r.nextId v⟩)

/-- Forget the snapshot of a transaction. -/
def deregister (r : Registry) (id : Nat) : Registry := { r with active := r.active.erase id }

/-- The registered snapshots, in the order of their ids. -/
def snapshots (r : Registry) : List Stamp := r.active.values

def size (r : Registry) : Nat := r.active.size

end Registry

/-- A running transaction. -/
structure Transaction where
  id : Nat
  /-- The bound it reads up to. -/
  stamp : Stamp
  readSet : OrderedSet Key := .empty
  /-- The members it has read from, by their index in the view of its stamp. -/
  readFrom : OrderedSet Nat
deriving DecidableEq, Inhabited

namespace Transaction

/-- Note a read of a key that a member served. The bound the read came with raises the transaction's
own; if the two can not be merged the read is noted all the same and the bound stays. -/
def recordRead (i : Issuer) (tx : Transaction) (k : Key) (index : Nat) (observed : Option Stamp) :
    Except StampFault Unit × Transaction :=
  let noted := { tx with readSet := tx.readSet.insert k, readFrom := tx.readFrom.insert index }
  match observed with
  | none => (.ok (), noted)
  | some v =>
    match i.mergeMax [tx.stamp, v] with
    | .ok merged => (.ok (), { noted with stamp := merged })
    | .error e => (.error e, noted)

end Transaction
end Multiversion
