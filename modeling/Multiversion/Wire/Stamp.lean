import Multiversion.Stamp.Basic
import Multiversion.View.Basic
import Multiversion.Wire.Tree
/- Stamps and views as trees. -/
namespace Multiversion
open Wire (Tree)

def Position.toTree (p : Position) : Tree := .list [.int p.value.toInt, .int p.sub.toInt]

/-- A position is a list of its two parts. -/
def Position.ofTree? : Tree → Option Position
  | .list [value, sub] => return ⟨← value.int64?, ← sub.int32?⟩
  | _ => none

def WriteStamp.toTree (w : WriteStamp) : Tree :=
  .record [("view_id", .int w.view), ("value", .int w.value.toInt),
    ("sub_version", .int w.sub.toInt)]

def WriteStamp.ofTree? (t : Tree) : Option WriteStamp := do
  match ← t.fields? ["view_id", "value", "sub_version"] with
  | [some view, some value, some sub] => return ⟨← view.nat64?, ← value.int64?, ← sub.int32?⟩
  | _ => none

def Snapshot.toTree (s : Snapshot) : Tree :=
  .record [("view_id", .int s.view), ("value", .int s.value.toInt),
    ("max_sub_version", (s.pin.map fun n => Tree.int n.toInt).getD .null),
    ("not_visible", .list (s.excluded.toList.map Position.toTree))]

/-- The pin may be missing, the exclusions may not; they come in any order. -/
def Snapshot.ofTree? (t : Tree) : Option Snapshot := do
  match ← t.fields? ["view_id", "value", "max_sub_version", "not_visible"] with
  | [some view, some value, pin, some excluded] =>
    return {
      view := ← view.nat64?
      value := ← value.int64?
      pin := ← Tree.orDefault? none (Tree.optional? Tree.int32?) pin
      excluded := .ofList (← excluded.listOf? Position.ofTree?) }
  | _ => none

/-- A commit stamp without its placement, which is the name of the alternative that holds it. -/
def CommitStamp.toTree (c : CommitStamp) : Tree :=
  .record [("view_id", .int c.view), ("value", .int c.value.toInt)]

def CommitStamp.ofTree? (placement : Placement) (t : Tree) : Option CommitStamp := do
  match ← t.fields? ["view_id", "value"] with
  | [some view, some value] => return ⟨placement, ← view.nat64?, ← value.int64?⟩
  | _ => none

def Stamp.toTree (v : Stamp) : Tree :=
  let tagged (t : Tree) : Tree := .record [(v.kind.name, t)]
  match v with
  | .absent => .text v.kind.name
  | .write w => tagged w.toTree
  | .snapshot s => tagged s.toTree
  | .commit c => tagged c.toTree

def Stamp.ofTree? (t : Tree) : Option Stamp :=
  if t.plainChoice? = some Kind.absent.name then some .absent
  else do
    let (name, t) ← t.taggedChoice?
    if name = Kind.write.name then return .write (← WriteStamp.ofTree? t)
    else if name = Kind.snapshot.name then return .snapshot (← Snapshot.ofTree? t)
    else if name = (Kind.commit .replicated).name then
      return .commit (← CommitStamp.ofTree? .replicated t)
    else if name = (Kind.commit .distributed).name then
      return .commit (← CommitStamp.ofTree? .distributed t)
    else none

def View.toTree (v : View) : Tree :=
  .record [("view_id", .int v.id), ("members", .list (v.members.map .text))]

/-- A stored view keeps its members as they are listed, also one that is listed twice. -/
def View.ofTree? (t : Tree) : Option View := do
  match ← t.fields? ["view_id", "members"] with
  | [some id, some members] => return ⟨← id.nat64?, ← members.listOf? Tree.text?⟩
  | _ => none

end Multiversion
