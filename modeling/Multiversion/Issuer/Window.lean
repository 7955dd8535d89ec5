import Multiversion.Issuer.Basic
/- The window of versions that a read of a running transaction may observe.

   A transaction that has not read from any member yet has no window: its first read fixes its
   snapshot. -/
namespace Multiversion.Issuer

/-- The first index, in order, that is not the place of a member of the view. -/
def firstOutside (v : View) (indexes : List Nat) : Option Nat :=
  indexes.find? fun n => (v.member? n).isNone

/-- Fails unless every index is the place of a member of the view. -/
def checkIndexes (i : Issuer) (view : Nat) (readFrom : OrderedSet Nat) :
    Except StampFault Unit := do
  let v ← i.views.get view
  match firstOutside v readFrom.toList with
  | some n => .error (.unknownIndex view n)
  | none => .ok ()

/-- The view a read has to look its indexes up in; none if the transaction has no window. -/
def windowView? (tx : Stamp) (readFrom : OrderedSet Nat) : Option Nat :=
  if readFrom.isEmpty then none else tx.view?

/-- The newest stamp that a read may observe; none means any. -/
def ceiling (i : Issuer) (tx : Stamp) (readFrom : OrderedSet Nat) :
    Except StampFault (Option Stamp) :=
  match windowView? tx readFrom with
  | none => .ok none
  | some view => do
    i.checkIndexes view readFrom
    match tx with
    | .commit _ => return some (.commit (i.stampAt (← i.rankOf tx)))
    | _ => return some tx

/-- The commit that a member must have applied before it answers; none means that it may answer at
once. -/
def floor (i : Issuer) (tx : Stamp) (readFrom : OrderedSet Nat) :
    Except StampFault (Option CommitStamp) :=
  match windowView? tx readFrom with
  | none => .ok none
  | some view => do
    i.checkIndexes view readFrom
    return some (i.stampAt (← i.rankOf tx))

end Multiversion.Issuer
