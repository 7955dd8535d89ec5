import Multiversion.Stamp.Compare
/- Timelines: the writes of one key that are still kept, newest first. -/
namespace Multiversion

/-- One write of a key. A removal leaves a revision without a value. -/
structure Revision where
  stamp : WriteStamp
  value : Option Value
  /-- The time at which the revision is dropped, for copies of keys owned elsewhere. -/
  expires : Option Nat := none
deriving DecidableEq, Inhabited

namespace Revision

def position (r : Revision) : Position := r.stamp.position

/-- Whether the revision is to be dropped at a time. -/
def isExpired (r : Revision) (now : Nat) : Bool := r.expires.any (· ≤ now)

end Revision

/-- The kept writes of one key, newest first. -/
structure Timeline where
  revisions : List Revision
  decreasing : revisions.Pairwise (fun newer older => older.position < newer.position)
  /-- Whether older writes have been collected. -/
  trimmed : Bool

/-- What an insertion did. -/
inductive Insertion
  /-- The revision is the newest now. -/
  | newest
  /-- The revision has taken the place of one with the same stamp. -/
  | replaced
deriving DecidableEq, Inhabited, Repr

/-- A revision with the end of its validity: the stamp of the next newer revision, if there is
one. -/
structure Sighting where
  revision : Revision
  validUntil : Option WriteStamp
deriving DecidableEq, Inhabited

namespace Timeline

/-- The timeline of a key that was never written. -/
def empty : Timeline := ⟨[], .nil, false⟩

instance : Inhabited Timeline := ⟨empty⟩

/-- The newest revision. -/
def newest? (t : Timeline) : Option Revision := t.revisions.head?

def isEmpty (t : Timeline) : Bool := t.revisions.isEmpty

def length (t : Timeline) : Nat := t.revisions.length

/-- Add a write. One at the place of the newest revision takes its place, an older one is
refused. -/
def insert (t : Timeline) (r : Revision) : Except StaleWrite Insertion × Timeline :=
  match h : t.revisions with
  | [] => (.ok .newest, { t with revisions := [r], decreasing := List.pairwise_singleton _ r })
  | newest :: older =>
    if hlt : newest.position < r.position then
      (.ok .newest, { t with
        revisions := r :: newest :: older
        decreasing := by
          have hd := t.decreasing
          rw [h] at hd
          refine List.pairwise_cons.2 ⟨fun s hs => ?_, hd⟩
          rcases List.mem_cons.1 hs with rfl | hs
          · exact hlt
          · exact Std.lt_trans ((List.pairwise_cons.1 hd).1 s hs) hlt })
    else if heq : r.position = newest.position then
      (.ok .replaced, { t with
        revisions := r :: older
        decreasing := by
          have hd := t.decreasing
          rw [h] at hd
          obtain ⟨hnewest, holder⟩ := List.pairwise_cons.1 hd
          exact List.pairwise_cons.2 ⟨fun s hs => heq ▸ hnewest s hs, holder⟩ })
    else (.error ⟨newest.stamp, r.stamp⟩, t)

/-- Drop every revision and start over with one. -/
def replace (t : Timeline) (r : Revision) : Timeline :=
  { t with revisions := [r], decreasing := List.pairwise_singleton _ r }

/-- The newest revision that passes the test, given the stamp of the one before it. -/
def search (visible : WriteStamp → Bool) (newer : Option WriteStamp) : List Revision →
    Option Sighting
  | [] => none
  | r :: older => if visible r.stamp then some ⟨r, newer⟩ else search visible (some r.stamp) older

/-- The newest revision whose write passes the test. -/
def sight (t : Timeline) (visible : WriteStamp → Bool) : Option Sighting :=
  search visible none t.revisions

/-- The newest revision at or before a stamp. A commit says nothing of single writes, so it fails
unless there is nothing to look at. -/
def find (t : Timeline) (asOf : Stamp) : Except StampFault (Option Sighting) :=
  if t.isEmpty then .ok none else do return t.sight (← asOf.visibility)

/-- Divide revisions, newest first, above the first one that is superseded: whose newer neighbour
passes the test. The stamp is that of the neighbour of the first of them. -/
def divide (visible : WriteStamp → Bool) (newer : Option WriteStamp) : List Revision →
    List Revision × List Revision
  | [] => ([], [])
  | r :: older =>
    if newer.any visible then ([], r :: older)
    else
      let (kept, lost) := divide visible (some r.stamp) older
      (r :: kept, lost)

theorem divide_append (visible : WriteStamp → Bool) (newer : Option WriteStamp)
    (l : List Revision) :
    (divide visible newer l).1 ++ (divide visible newer l).2 = l := by
  fun_induction divide visible newer l with
  | case1 => rfl
  | case2 => rfl
  | case3 newer r older _ kept lost h ih =>
    rw [h] at ih
    exact congrArg (r :: ·) ih

/-- Remove the revisions that are superseded, and count them. -/
def cut (t : Timeline) (visible : WriteStamp → Bool) : Nat × Timeline :=
  match h : divide visible none t.revisions with
  | (_, []) => (0, t)
  | (kept, lost) =>
    (lost.length, {
      revisions := kept
      decreasing := t.decreasing.sublist <| by
        rw [← divide_append visible none t.revisions, h]
        exact List.sublist_append_left kept lost
      trimmed := true })

/-- Remove the revisions that were superseded at or before a stamp, and return how many these are;
an absent stamp removes nothing. A commit says nothing of single writes, so it fails unless there is
nothing to remove. -/
def gc (t : Timeline) (least : Stamp) : Except StampFault (Nat × Timeline) :=
  if least.isAbsent || t.length < 2 then .ok (0, t) else do return t.cut (← least.visibility)

/-- Drop the revisions that have expired at a time, and return how many these are. -/
def expire (t : Timeline) (now : Nat) : Nat × Timeline :=
  let kept := t.revisions.filter (!·.isExpired now)
  (t.length - kept.length, { t with revisions := kept, decreasing := t.decreasing.filter _ })

end Timeline
end Multiversion
