import Multiversion.Issuer.Merge
import Multiversion.Journal.Entry
/- The journal: the commits applied by one member, in the order in which they were applied.

   Entries are appended at the end and forgotten from the front, never from the middle, so an entry
   keeps its number for as long as it is there. A started journal is never empty. -/
namespace Multiversion

/-- The commits of one member, oldest first. -/
structure Journal where
  entries : List Entry := []
  /-- The number of the first entry. -/
  first : Nat := 0
  /-- The greatest commit ever appended; none before the journal is started. -/
  latest : Option CommitStamp := none
deriving DecidableEq, Inhabited

namespace Journal

/-- The newest entry. -/
def head? (j : Journal) : Option Entry := j.entries.getLast?

def isStarted (j : Journal) : Bool := !j.entries.isEmpty

/-- The numbers of the entries: the first one, and the one after the last. -/
def range (j : Journal) : Nat × Nat := (j.first, j.first + j.entries.length)

/-- Begin the journal with the commit of value 0 in the current view, which writes every key. A
journal that has begun stays as it is. -/
def start (i : Issuer) (j : Journal) : Journal :=
  if j.isStarted then j
  else
    let seed := i.stamp i.currentView 0
    { j with entries := [⟨seed, 0, .all⟩], latest := some seed }

/-- The newest entry of a started journal. -/
def head (j : Journal) : Except JournalFault Entry :=
  match j.head? with
  | some e => .ok e
  | none => .error .notStarted

/-- The greatest commit so far as a stamp, absent before the journal is started. -/
def mark (j : Journal) : Stamp :=
  match j.latest with
  | some c => .commit c
  | none => .absent

/-- The greatest commit so far, of a started journal. -/
def latestStamp (j : Journal) : Except JournalFault Stamp := do
  let _ ← j.head
  return j.mark

/-- The greatest commit so far, in the current view: where a new transaction may start from. -/
def current (i : Issuer) (j : Journal) : Except JournalFault Stamp := do
  (i.restamp (← j.latestStamp)).mapError .stamp

/-- The commit of the oldest entry. -/
def oldest (j : Journal) : Except JournalFault Stamp :=
  match j.entries.head? with
  | some e => .ok (.commit e.stamp)
  | none => .error .notStarted

/-- The least view id of the entries. -/
def oldestView (j : Journal) : Except JournalFault Nat :=
  match (j.entries.map (·.stamp.view)).min? with
  | some view => .ok view
  | none => .error .notStarted

/-- The sub-version that a new entry with the stamp would get. -/
def nextSub (j : Journal) (v : Stamp) : Except JournalFault Int32 := do
  return (← j.head).nextSub v.value?

/-- Fails at the first entry that may not follow the one before it. -/
def checkOrder (last : Entry) : List Entry → Except JournalFault Unit
  | [] => .ok ()
  | e :: rest =>
    if e.follows last then checkOrder e rest
    else .error (.notAfter (.commit last.stamp) last.sub (.commit e.stamp) e.sub)

/-- The greatest commit after appending a batch, if the batch may be appended. -/
def check (i : Issuer) (j : Journal) (batch : List Entry) :
    Except JournalFault (Option CommitStamp) := do
  checkOrder (← j.head) batch
  let commits := j.latest.toList ++ batch.map (·.stamp)
  (i.mergeRanks .greatest (commits.map CommitStamp.rank)).mapError .stamp

/-- Append a batch, oldest first. A batch that is out of order, or has a commit of an unknown view,
is refused as a whole; an empty one changes nothing. -/
def append (i : Issuer) (j : Journal) (batch : List Entry) : Except JournalFault Unit × Journal :=
  if batch.isEmpty then (.ok (), j)
  else
    match j.check i batch with
    | .error e => (.error e, j)
    | .ok latest => (.ok (), { j with entries := j.entries ++ batch, latest })

/-- Whether the journal has reached a stamp, which is what a waiting read asks. -/
def reached (j : Journal) (target : Stamp) : Except StampFault Bool :=
  match j.head?, target with
  | none, target => .ok target.isAbsent
  | some _, .absent => .ok true
  | some _, .commit c => j.mark.atOrAfter (.commit c)
  | some e, target => (Stamp.write e.write).atOrAfter target

/-- One line per entry, oldest first. -/
def lines (j : Journal) : List String := j.entries.map Entry.line

end Journal
end Multiversion
