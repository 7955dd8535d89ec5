import Multiversion.Member.Collect
/- The messages of garbage collection, and how a member answers them. -/
namespace Multiversion

/-- What the coordinator of a round sends. -/
inductive Command
  /-- Ask for the oldest commit value that the member still needs. -/
  | getVersion
  /-- Ask for the oldest view id that the member still needs. -/
  | getView
  /-- Forget the views older than this one. -/
  | setView (least : Nat)
  /-- Drop the history before this commit value. -/
  | setVersion (cutoff : Int64)
deriving DecidableEq, Inhabited, Repr

/-- What a member answers. -/
inductive Reply
  | version (value : Int64)
  | view (id : Nat)
  | done
deriving DecidableEq, Inhabited, Repr

def Command.text : Command → String
  | getVersion => "GET_VERSION"
  | getView => "GET_VIEW_ID"
  | setView least => s!"SET_VIEW_ID({least})"
  | setVersion cutoff => s!"SET_VERSION({cutoff})"

/-- Whether the command only asks. -/
def Command.isQuestion : Command → Bool
  | getVersion => true
  | getView => true
  | _ => false

def Reply.text : Reply → String
  | version value => s!"Version({value})"
  | view id => s!"ViewId({id})"
  | done => "Done"

def Reply.version? : Reply → Option Int64
  | version value => some value
  | _ => none

def Reply.view? : Reply → Option Nat
  | view id => some id
  | _ => none

/-- The fault of a reply that does not answer a command. -/
def Reply.mismatch (r : Reply) (c : Command) : GcFault := .unexpectedReply c.text r.text

/-- The commit value that a reply to a command brings. -/
def Reply.toVersion (r : Reply) (c : Command) : Except GcFault Int64 :=
  match r.version? with
  | some value => .ok value
  | none => .error (r.mismatch c)

/-- The view id that a reply to a command brings. -/
def Reply.toView (r : Reply) (c : Command) : Except GcFault Nat :=
  match r.view? with
  | some id => .ok id
  | none => .error (r.mismatch c)

/-- Carry out a command and answer it. -/
def Member.handle (m : Member) (c : Command) : Except GcFault (Reply × Member) :=
  match c with
  | .getVersion => do return (.version (← m.minimumValue.mapError .member), m)
  | .getView => do return (.view (← m.localMinimumView.mapError .member), m)
  | .setView least => .ok (.done, m.forgetViews least)
  | .setVersion cutoff => do return (.done, (← (m.gcBefore cutoff).mapError .member).2)

end Multiversion
