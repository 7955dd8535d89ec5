import Multiversion.Gc.Round
import Multiversion.Member.Commit
import Multiversion.Member.Read
/- A cluster: its members, and the network that garbage collection talks over. -/
namespace Multiversion

/-- What goes wrong between the members. -/
structure Network where
  /-- Members that no command reaches. -/
  down : List Address := []
  /-- Members that questions do not reach. -/
  deaf : List Address := []
  /-- Members that give a fixed reply and do nothing. -/
  replies : OrderedMap Address Reply := .empty
  /-- Members of the network that are not there. -/
  ghosts : List Address := []

instance : Inhabited Network := ⟨{}⟩

/-- The members by address, with the network between them. -/
structure Cluster where
  members : OrderedMap Address Member
  network : Network := {}

namespace Cluster

/-- The members that the network knows, in order. -/
def addresses (c : Cluster) : List Address :=
  (OrderedSet.ofList (c.members.keys ++ c.network.ghosts)).toList

def setMember (c : Cluster) (name : Address) (m : Member) : Cluster :=
  { c with members := c.members.insert name m }

/-- Send a command to a member; without a reply the member did not answer. -/
def send (c : Cluster) (command : Command) (name : Address) : Option Reply × Cluster :=
  if name ∈ c.network.down ∨ (name ∈ c.network.deaf ∧ command.isQuestion) then (none, c)
  else
    match c.network.replies.get? name with
    | some reply => (some reply, c)
    | none =>
      match c.members.get? name with
      | none => (none, c)
      | some m =>
        match m.handle command with
        | .error _ => (none, c)
        | .ok (reply, m) => (some reply, c.setMember name m)

/-- Send a command to several members, and gather what they reply. -/
def sendAll (c : Cluster) (command : Command) : List Address → List (Option Reply) × Cluster
  | [] => ([], c)
  | name :: rest =>
    let (reply, c) := c.send command name
    let (replies, c) := c.sendAll command rest
    (reply :: replies, c)

/-- What a round did: its cutoff, none if it was skipped; the commands that were sent, in order,
also if it failed; and the cluster after it. -/
structure RoundReport (g : Goal) where
  cutoff : Except GcFault (Option g.Measure)
  sent : List (Command × Address)
  cluster : Cluster

/-- Run one round, coordinated by the member `name`, which goes by the address `self`. Without such
a member there is no round. -/
def round (c : Cluster) (g : Goal) (name self : Address) : RoundReport g :=
  match c.members.get? name with
  | none => ⟨.ok none, [], c⟩
  | some m =>
    match g.ownMinimum m with
    | .error e => ⟨.error (.member e), [], c⟩
    | .ok own =>
      let others := c.addresses.filter (· ≠ self)
      let asked := others.map (g.question, ·)
      -- A question changes no member, so `m` is still the coordinator afterwards.
      let (replies, c) := c.sendAll g.question others
      match m.conclude g own replies with
      | .error e => ⟨.error e, asked, c⟩
      | .ok (none, _) => ⟨.ok none, asked, c⟩
      | .ok (some cutoff, m) =>
        let (_, c) := (c.setMember name m).sendAll (g.order cutoff) others
        ⟨.ok (some cutoff), asked ++ others.map (g.order cutoff, ·), c⟩

/-- Run both rounds a number of times, whether they fail or not. -/
def rounds (c : Cluster) (name self : Address) : Nat → List (Command × Address) × Cluster
  | 0 => ([], c)
  | n + 1 =>
    let versions := c.round .version name self
    let views := versions.cluster.round .view name self
    let (sent, c) := views.cluster.rounds name self n
    (versions.sent ++ views.sent ++ sent, c)

/-- Run both rounds after every interval, until the wait after `ticks` intervals is broken off. The
waits are returned with the commands that were sent. Without an interval nothing is done. -/
def roundsEvery (c : Cluster) (interval : Option Duration) (name self : Address) (ticks : Nat) :
    List Duration × List (Command × Address) × Cluster :=
  match interval with
  | none => ([], [], c)
  | some d => (List.replicate (ticks + 1) d, c.rounds name self ticks)

end Cluster
end Multiversion
