import Multiversion.CommitRule
import Multiversion.Journal.Bound
import Multiversion.Store.Basic
import Multiversion.Transaction
/- One member of the cluster: its journal of commits, its store, and the transactions running on
   it. -/
namespace Multiversion

/-- The state of one member, and what it was set up with. -/
structure Member where
  settings : Settings
  address : Address
  /-- The scheme whose rule decides on commits; as a rule that of the settings. -/
  rule : Scheme
  /-- The keys that this member owns. -/
  owns : Key → Bool
  issuer : Issuer
  journal : Journal
  store : Store
  registry : Registry

namespace Member

/-- A new member in a view. Its journal is started only if it keeps history. -/
def create (settings : Settings) (address : Address) (view : View) (owns : Key → Bool) : Member :=
  let issuer : Issuer := ⟨settings.placement, .single view⟩
  { settings, address, owns, issuer
    rule := settings.scheme
    journal := if settings.keepsHistory then Journal.start issuer {} else {}
    store := .empty
    registry := {} }

/-- Decide on commits by the rule of another scheme. -/
def withRule (m : Member) (rule : Scheme) : Member := { m with rule }

/-- Fails unless the member keeps history. -/
def checkEnabled (m : Member) : Except TxFault Unit :=
  if m.settings.keepsHistory then .ok () else .error (.disabled m.settings.scheme)

/-- Learn the view that the cluster has moved to. -/
def viewChanged (m : Member) (v : View) : Member := { m with issuer := m.issuer.addView v }

/-- The index of the member in the current view. -/
def index (m : Member) : Except StampFault Nat :=
  let v := m.issuer.views.current
  match v.indexOf? m.address with
  | some n => .ok n
  | none => .error (.unknownMember v.id m.address)

/-- The bound of a reader at a stamp. -/
def snapshotAt (m : Member) (bound : Stamp) : Except TxFault Snapshot :=
  (m.journal.snapshotAt m.issuer bound).mapError .journal

/-- The bound of a transaction that starts now. -/
def beginSnapshot (m : Member) : Except TxFault Snapshot := do
  m.checkEnabled
  m.snapshotAt (← (m.journal.current m.issuer).mapError .journal)

/-- Start a transaction. Its snapshot stays registered until the transaction is dropped. -/
def begin (m : Member) : Except TxFault (Transaction × Member) := do
  m.checkEnabled
  let index ← m.index.mapError .stamp
  let s ← m.beginSnapshot
  let (id, registry) := m.registry.register (.snapshot s)
  return ({ id, stamp := .snapshot s, readFrom := .ofList [index] }, { m with registry })

/-- Drop a transaction. -/
def drop (m : Member) (id : Nat) : Member := { m with registry := m.registry.deregister id }

end Member
end Multiversion
