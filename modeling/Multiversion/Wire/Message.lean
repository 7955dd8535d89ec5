import Multiversion.Gc.Message
import Multiversion.Wire.Tree
/- The messages of garbage collection as trees. -/
namespace Multiversion
open Wire (Tree)

def Command.toTree : Command → Tree
  | getVersion => .text "GetVersion"
  | getView => .text "GetViewId"
  | setView least => .record [("SetViewId", .int least)]
  | setVersion cutoff => .record [("SetVersion", .int cutoff.toInt)]

def Command.ofTree? (t : Tree) : Option Command :=
  match t.plainChoice? with
  | some "GetVersion" => some .getVersion
  | some "GetViewId" => some .getView
  | _ =>
    match t.taggedChoice? with
    | some ("SetViewId", t) => t.nat64?.map .setView
    | some ("SetVersion", t) => t.int64?.map .setVersion
    | _ => none

def Reply.toTree : Reply → Tree
  | version value => .record [("Version", .int value.toInt)]
  | view id => .record [("ViewId", .int id)]
  | done => .text "Done"

def Reply.ofTree? (t : Tree) : Option Reply :=
  match t.plainChoice? with
  | some "Done" => some .done
  | _ =>
    match t.taggedChoice? with
    | some ("Version", t) => t.int64?.map .version
    | some ("ViewId", t) => t.nat64?.map .view
    | _ => none

end Multiversion
