import Multiversion.Ordered.Map
import Multiversion.Store.Answer
/- The store: the timelines of all keys of one member.

   A key without a timeline reads like one whose timeline is empty. -/
namespace Multiversion

structure Store where
  timelines : OrderedMap Key Timeline

instance : Inhabited Store := ⟨⟨.empty⟩⟩

namespace Store

def empty : Store := ⟨.empty⟩

/-- The timeline of a key, empty if there is none. -/
def timeline (s : Store) (k : Key) : Timeline := (s.timelines.get? k).getD .empty

def setTimeline (s : Store) (k : Key) (t : Timeline) : Store := ⟨s.timelines.insert k t⟩

def contains (s : Store) (k : Key) : Bool := s.timelines.contains k

/-- The number of keys. -/
def size (s : Store) : Nat := s.timelines.size

/-- The number of revisions kept for a key. -/
def countOf (s : Store) (k : Key) : Nat := (s.timeline k).length

/-- The number of revisions of all keys. -/
def count (s : Store) : Nat := (s.timelines.values.flatMap Timeline.revisions).length

/-- What a key reads as at a stamp. Where the write that was visible then has been collected the
look-up fails instead of taking the key for one that was never written. -/
def get (s : Store) (k : Key) (asOf : Stamp) : Except TxFault Answer := do
  match ← ((s.timeline k).find asOf).mapError .stamp with
  | some found => return .ofSighting found
  | none =>
    if (s.timeline k).trimmed then .error (.unavailable asOf (.collected k))
    else return .notFound

/-- The newest write of a key. -/
def newest? (s : Store) (k : Key) : Option Answer :=
  (s.timeline k).newest?.map fun r => .ofWrite r.value r.stamp none

/-- Add a write of a key to its history. -/
def put (s : Store) (k : Key) (r : Revision) : Except StaleWrite Insertion × Store :=
  let (outcome, t) := (s.timeline k).insert r
  (outcome, s.setTimeline k t)

/-- Make a write of a key its only one. -/
def putOnly (s : Store) (k : Key) (r : Revision) : Store :=
  s.setTimeline k ((s.timeline k).replace r)

/-- Fails if the newest write of a key is not at or before a stamp. -/
def validate (s : Store) (k : Key) (asOf : Stamp) : Except TxFault Unit :=
  match (s.timeline k).newest? with
  | none => .ok ()
  | some r => do
    let visible ← asOf.visibility.mapError .stamp
    if visible r.stamp then return () else .error (.conflict (Text.quote k))

/-- Collect from the timeline of one key, and count what is removed. -/
def gcKey (least : Stamp) (sofar : Nat × Store) (e : Key × Timeline) :
    Except StampFault (Nat × Store) := do
  let (n, t) ← e.2.gc least
  return (sofar.1 + n, sofar.2.setTimeline e.1 t)

/-- Collect from one timeline after the other the revisions that were superseded at or before a
stamp, and return how many these are. It fails where a timeline does. -/
def gc (s : Store) (least : Stamp) : Except StampFault (Nat × Store) :=
  s.timelines.entries.foldlM (gcKey least) (0, s)

/-- Drop the revisions that have expired at a time, and return how many these are. The keys that are
left without one are dropped too. -/
def expire (s : Store) (now : Nat) : Nat × Store :=
  let expired := s.timelines.mapValues (·.expire now)
  (expired.values.foldl (fun n e => n + e.1) 0,
    ⟨(expired.mapValues Prod.snd).filter fun _ t => !t.isEmpty⟩)

end Store
end Multiversion
