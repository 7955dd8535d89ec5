import Multiversion.Issuer.Basic
import Multiversion.Ordered.Map
import Multiversion.Settings
/- The commit rule: for every entry that a committing transaction changed, the stamp it is stored
   with and whether it is applied on this member. -/
namespace Multiversion

/-- One entry changed by a committing transaction. -/
structure Change where
  key : Key
  removed : Bool := false
  /-- The stamp of the key before the transaction, none for a new key. -/
  prior : Option Stamp := none
deriving DecidableEq, Inhabited

/-- How a change is applied on one member. -/
inductive Disposition
  /-- The member owns the key, or the key is removed. -/
  | owner
  /-- The key is owned elsewhere and an expiring copy is kept. -/
  | shadowCopy
  /-- The key is owned elsewhere and nothing is kept. -/
  | rollback
deriving DecidableEq, Inhabited, Repr

/-- The outcome of the rule for one change; an unversioned entry has no stamp. -/
structure Decision where
  stamp : Option Stamp
  disposition : Disposition
deriving DecidableEq, Inhabited

/-- Whether the change is applied at all. -/
def Disposition.isApplied : Disposition → Bool
  | rollback => false
  | _ => true

/-- Whether this member owns the key; every key that it does not own is shadowed or left out. -/
def Disposition.of (shadowCopies : Bool) (owns : Key → Bool) (c : Change) : Disposition :=
  if owns c.key || c.removed then owner else if shadowCopies then shadowCopy else rollback

/-- What a committing transaction brings to every decision: its agreed stamp, and the stamps
prepared for its keys. -/
structure CommitContext where
  stamp : Stamp
  prepared : OrderedMap Key Stamp

/-- The stamp of a change under a scheme: none, the one prepared for the key, the one after the
key's prior stamp, or the one agreed for the transaction. -/
def Scheme.stampFor (scheme : Scheme) (i : Issuer) (tx : CommitContext) (c : Change) :
    Except StampFault (Option Stamp) :=
  match scheme with
  | .unversioned => .ok none
  | .simple =>
    match tx.prepared.get? c.key with
    | some v => .ok (some v)
    | none => .error (.unprepared (Text.quote c.key))
  | .totalOrder =>
    match c.prior with
    | none | some .absent => .ok (some (.write i.firstWrite))
    | some prior => do return some (← i.increment prior)
  | .multiversion => .ok (some tx.stamp)

/-- The decision on one change. -/
def Scheme.decide (scheme : Scheme) (i : Issuer) (shadowCopies : Bool) (owns : Key → Bool)
    (tx : CommitContext) (c : Change) : Except StampFault Decision := do
  return ⟨← scheme.stampFor i tx c, .of shadowCopies owns c⟩

end Multiversion
