import Multiversion.Gc.Message
/- One round of garbage collection, as its coordinator sees it.

   It asks every other member for the oldest value that is still needed, takes the least of the
   answers and its own, applies it to itself, and sends it to every other member. A member that does
   not answer is left out; if others were asked and none of them answered, the round is skipped. -/
namespace Multiversion

/-- The least of one's own value and the answers; none if members were asked and none of them
answered. -/
def cutoff? {α : Type} [Min α] (own : α) (answers : List (Option α)) : Option α :=
  if !answers.isEmpty && answers.all (·.isNone) then none
  else some ((answers.filterMap id).foldl min own)

/-- The two things that rounds collect. -/
inductive Goal
  | version
  | view
deriving DecidableEq, Repr

namespace Goal

/-- What is compared: commit values or view ids. -/
abbrev Measure : Goal → Type
  | version => Int64
  | view => Nat

/-- The question of a round. -/
def question : Goal → Command
  | version => .getVersion
  | view => .getView

/-- The command that ends a round with a cutoff. -/
def order : (g : Goal) → g.Measure → Command
  | version => .setVersion
  | view => .setView

/-- What a member itself still needs. -/
def ownMinimum (m : Member) : (g : Goal) → Except TxFault g.Measure
  | version => m.minimumValue
  | view => m.localMinimumView

/-- The answer that a reply brings; none if it answers another question. -/
def answer? (r : Reply) : (g : Goal) → Option g.Measure
  | version => r.version?
  | view => r.view?

/-- The cutoff of a round, given the coordinator's own minimum and what each asked member replied,
if it did. -/
def cutoff? : (g : Goal) → g.Measure → List (Option Reply) → Option g.Measure
  | version, own, replies => Multiversion.cutoff? own (replies.map (·.bind (answer? · version)))
  | view, own, replies => Multiversion.cutoff? own (replies.map (·.bind (answer? · view)))

end Goal

/-- What the coordinator does once the replies are in, in whatever order they came: it applies the
cutoff to itself, if there is one. -/
def Member.conclude (m : Member) (g : Goal) (own : g.Measure) (replies : List (Option Reply)) :
    Except GcFault (Option g.Measure × Member) :=
  match g.cutoff? own replies with
  | none => .ok (none, m)
  | some cutoff => do return (some cutoff, (← m.handle (g.order cutoff)).2)

end Multiversion
