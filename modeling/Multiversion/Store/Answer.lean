import Multiversion.Store.Timeline
/- The answer to one look-up of a key, with the window in which it holds. -/
namespace Multiversion

/-- What one look-up of a key found. -/
structure Answer where
  /-- The value; none if the key was removed or never written. -/
  value : Option Value
  /-- The write that was found, absent if there was none. -/
  creation : Stamp
  /-- The stamp from which on the answer no longer holds. -/
  validUntil : Option Stamp
  /-- The bound the reading transaction has to keep to from now on. -/
  txBound : Option Stamp
  /-- Whether there was no newer write. -/
  mostRecent : Bool
deriving DecidableEq, Inhabited

namespace Answer

/-- The answer where no write of the key was found. -/
def notFound : Answer := ⟨none, .absent, none, none, true⟩

/-- The answer of a write. Without a value the key was removed. -/
def ofWrite (value : Option Value) (creation : WriteStamp) (validUntil : Option WriteStamp) :
    Answer :=
  ⟨value, .write creation, validUntil.map .write, none, validUntil.isNone⟩

/-- The answer of a revision that was found. -/
def ofSighting (s : Sighting) : Answer := ofWrite s.revision.value s.revision.stamp s.validUntil

/-- Whether no write of the key was found. -/
def isNotFound (a : Answer) : Bool := a.creation.isAbsent

/-- Whether the write that was found is a removal. -/
def isRemoved (a : Answer) : Bool := a.value.isNone && !a.isNotFound

def withValidUntil (a : Answer) (v : Stamp) : Answer := { a with validUntil := some v }

def withTxBound (a : Answer) (v : Stamp) : Answer := { a with txBound := some v }

end Answer
end Multiversion
