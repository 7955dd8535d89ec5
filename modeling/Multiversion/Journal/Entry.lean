import Multiversion.Stamp.Compare
/- Entries of the journal: the commit of one transaction with the keys it wrote. -/
namespace Multiversion

/-- The keys that one commit wrote. -/
inductive Affected
  /-- Every key: the first entry of a journal. -/
  | all
  | only (keys : OrderedSet Key)
deriving DecidableEq, Inhabited

namespace Affected

def contains (a : Affected) (k : Key) : Bool :=
  match a with
  | all => true
  | only keys => k ∈ keys

def text : Affected → String
  | all => "ALL"
  | only keys => Text.quoteSet keys.toList

end Affected

/-- One commit. Commits of one value follow each other in the order of their sub-versions. -/
structure Entry where
  stamp : CommitStamp
  sub : Int32
  keys : Affected
deriving DecidableEq, Inhabited

namespace Entry

/-- The entry of a stamp; only a commit can be logged. -/
def ofStamp (v : Stamp) (sub : Int32) (keys : Affected) : Except StampFault Entry :=
  match v with
  | .commit c => .ok ⟨c, sub, keys⟩
  | _ => .error (.unexpected .commit v.kind)

/-- The stamp that every key of the commit is written with. -/
def write (e : Entry) : WriteStamp := e.stamp.write e.sub

/-- The place of the commit's writes. -/
def position (e : Entry) : Position := e.write.position

/-- Whether the commit lies at or before a stamp. All do if the stamp is absent; a commit is
compared as a commit, anything else with the writes of the entry. -/
def test (e : Entry) (bound : Stamp) : Except StampFault Bool :=
  match bound with
  | .absent => .ok true
  | .commit _ => (Stamp.commit e.stamp).atOrBefore bound
  | .write _ | .snapshot _ => (Stamp.write e.write).atOrBefore bound

/-- Whether an entry may follow another: its commit is after the other's, or at it with a greater
sub-version, and its writes come after the other's writes. -/
def follows (e last : Entry) : Bool :=
  (last.stamp.rank < e.stamp.rank || (last.stamp.rank = e.stamp.rank && last.sub < e.sub)) &&
    last.position < e.position

/-- The sub-version that a commit of a value gets right after an entry. -/
def nextSub (last : Entry) (value : Option Int64) : Int32 :=
  if value = some last.stamp.value then last.sub + 1 else 0

/-- The line of the entry in a listing of the journal. -/
def line (e : Entry) : String := e.write.text ++ "=" ++ e.keys.text

end Entry
end Multiversion
