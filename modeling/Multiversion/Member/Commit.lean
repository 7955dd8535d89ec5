import Multiversion.Member.Basic
import Multiversion.Steps
/- Agreeing on commits and applying them.

   A batch of commits is written to the store first and appended to the journal last, so that a
   snapshot which includes a commit never misses one of its writes. -/
namespace Multiversion

/-- One key written by a committed transaction; without a value the key is removed. -/
structure Write where
  change : Change
  value : Option Value
deriving DecidableEq, Inhabited

/-- Write a value, or remove the key if there is none. -/
def Write.ofValue (k : Key) (value : Option Value) (prior : Option Stamp) : Write :=
  ⟨⟨k, value.isNone, prior⟩, value⟩

/-- A committed transaction as it is delivered to the members. -/
structure Commit where
  /-- The stamp that was agreed. -/
  stamp : Stamp
  writes : List Write
  /-- The stamps prepared for its keys, where the scheme needs them. -/
  prepared : OrderedMap Key Stamp := .empty

/-- One revision on its way into the store: appended to the history of its key, or in place of
it. -/
structure Put where
  key : Key
  revision : Revision
  keepsHistory : Bool
deriving DecidableEq, Inhabited

namespace Store

/-- Put a revision where it belongs. -/
def apply (s : Store) (p : Put) : Except StaleWrite Unit × Store :=
  if p.keepsHistory then
    let (outcome, s) := s.put p.key p.revision
    (outcome.map fun _ => (), s)
  else (.ok (), s.putOnly p.key p.revision)

/-- Carry out the put of a write, if there is one and it could be made. -/
def carryOut (s : Store) : Except TxFault (Option Put) → Except TxFault Unit × Store
  | .error e => (.error e, s)
  | .ok none => (.ok (), s)
  | .ok (some p) =>
    let (outcome, s) := s.apply p
    (outcome.mapError .stale, s)

end Store

/-- The write stamp that a revision is stored with. -/
def Stamp.forRevision (v : Stamp) (sub : Int32) : Except StampFault WriteStamp :=
  match v with
  | .write w => .ok w
  | .commit c => .ok (c.write sub)
  | _ => .error (.unexpected .commit v.kind)

namespace Member

/-- This member's vote for the stamp of a preparing transaction: one that is after every commit so
far. -/
def prepare (m : Member) : Except TxFault Stamp := do
  m.checkEnabled
  (m.issuer.increment (← m.journal.latestStamp.mapError .journal)).mapError .stamp

/-- The agreed stamp of a transaction, given the merge of the votes and the owners of its keys. -/
def commit (m : Member) (vote : Stamp) (owners : List Address) : Except TxFault Stamp := do
  m.checkEnabled
  return .commit (← (m.issuer.agree vote owners).mapError .stamp)

/-- The entries of a batch right after an entry. -/
def entriesAfter (last : Entry) : List Commit → Except StampFault (List Entry)
  | [] => .ok []
  | c :: rest => do
    let e ← Entry.ofStamp c.stamp (last.nextSub c.stamp.value?)
      (.only (.ofList (c.writes.map (·.change.key))))
    return e :: (← entriesAfter e rest)

/-- The journal entries of a batch: commits of one value get increasing sub-versions. -/
def entriesOf (m : Member) (batch : List Commit) : Except TxFault (List Entry) := do
  if batch.isEmpty then return []
  (entriesAfter (← m.journal.head.mapError .journal) batch).mapError .stamp

/-- The put of one write of a commit; none if the write is rolled back. -/
def putOf (m : Member) (now : Nat) (c : Commit) (sub : Int32) (w : Write) :
    Except TxFault (Option Put) := do
  let d ← (m.rule.decide m.issuer m.settings.shadowCopies m.owns
    ⟨c.stamp, c.prepared⟩ w.change).mapError .stamp
  if !d.disposition.isApplied then return none
  let stamp ← match d.stamp with
    | some v => (v.forRevision sub).mapError .stamp
    | none => .ok ⟨m.issuer.currentView, 0, 0⟩
  let expires := if d.disposition = .shadowCopy then
    some (m.settings.shadowLifespan.after now) else none
  return some ⟨w.change.key, ⟨stamp, w.value, expires⟩, m.settings.keepsHistory && d.stamp.isSome⟩

/-- The puts of a batch, given the sub-version of each commit. -/
def putsOf (m : Member) (now : Nat) (batch : List (Commit × Int32)) :
    List (Except TxFault (Option Put)) :=
  batch.flatMap fun (c, sub) => c.writes.map (m.putOf now c sub)

/-- What a member that keeps history asks of a batch before it stores anything: the entries of the
batch can be made, and the journal agrees to them. -/
def checkedEntries (m : Member) (batch : List Commit) : Except TxFault (List Entry) := do
  let entries ← m.entriesOf batch
  let _ ← (m.journal.check m.issuer entries).mapError .journal
  return entries

/-- One step of applying a batch. -/
inductive Step
  /-- A write goes into the store. -/
  | store (put : Except TxFault (Option Put))
  /-- The entries go into the journal. -/
  | log (entries : List Entry)

/-- Take one step. -/
def take (m : Member) : Step → Except TxFault Unit × Member
  | .store put =>
    let (outcome, store) := m.store.carryOut put
    (outcome, { m with store })
  | .log entries =>
    let (outcome, journal) := m.journal.append m.issuer entries
    (outcome.mapError .journal, { m with journal })

/-- The steps of a batch with the given entries: first all its writes, and then its entries. -/
def stepsOf (m : Member) (now : Nat) (batch : List Commit) (entries : List Entry) : List Step :=
  (m.putsOf now (batch.zip (entries.map (·.sub)))).map .store ++ [.log entries]

/-- Apply a batch of commits in the given order.

A member that keeps history checks the whole batch against its journal first, because a batch that
the journal refuses must not leave a write in the store. -/
def applyBatch (m : Member) (now : Nat) (batch : List Commit) : Except TxFault Unit × Member :=
  if m.settings.keepsHistory then
    match m.checkedEntries batch with
    | .error e => (.error e, m)
    | .ok entries => inTurn take m (m.stepsOf now batch entries)
  else inTurn take m ((m.putsOf now (batch.map (·, 0))).map .store)

/-- Apply the commit of a single write; the key's prior stamp is that of its newest revision
here. -/
def applyCommit (m : Member) (now : Nat) (k : Key) (value : Option Value) (agreed : Stamp) :
    Except TxFault Unit × Member :=
  m.applyBatch now [⟨agreed, [.ofValue k value ((m.store.newest? k).map (·.creation))], .empty⟩]

end Member
end Multiversion
