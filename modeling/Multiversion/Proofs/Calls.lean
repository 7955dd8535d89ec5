import Multiversion.Member.Commit
/- Calls on one member, made one after the other until one of them fails. -/
namespace Multiversion

/-- What is asked of a member that follows the cluster. -/
inductive Call
  | commit (now : Nat) (k : Key) (value : Option Value) (agreed : Stamp)
  | batch (now : Nat) (commits : List Commit)
  | learn (view : View)

namespace Member

def perform (m : Member) : Call → Except TxFault Unit × Member
  | .commit now k value agreed => m.applyCommit now k value agreed
  | .batch now commits => m.applyBatch now commits
  | .learn view => (.ok (), m.viewChanged view)

/-- Make calls in turn, up to the first one that fails. -/
def performAll (m : Member) (calls : List Call) : Except TxFault Unit × Member :=
  inTurn perform m calls

end Member
end Multiversion
