import Multiversion.Proofs.Round
/- Sending one command to several members at once.

   The members are reached in any order, and what they reply arrives in any order, while others are
   still to be reached (`FanOut.step`). What comes of it does not depend on the order. A command
   that is sent to one member reads and changes nothing of the others (`Cluster.send_congr`,
   `Cluster.get?_send_other`), so a fan-out is at any time what sending the command to the members
   one after the other makes of the cluster (`FanOut.Sound.step`), and in the end each of them was
   sent it once and has replied what it would have replied alone (`FanOut.finished`). -/
namespace Multiversion

namespace Cluster

variable {c c' : Cluster} {command : Command} {name other : Address} {names names' : List Address}

theorem ext_get? (hnetwork : c'.network = c.network)
    (hmembers : ∀ n, c'.members.get? n = c.members.get? n) :
    c' = c := by
  have hsame : c'.members = c.members := OrderedMap.ext hmembers
  cases c
  cases c'
  cases hnetwork
  cases hsame
  rfl

theorem network_send (c : Cluster) (command : Command) (name : Address) :
    (c.send command name).2.network = c.network := by
  unfold send
  split
  · rfl
  · split
    · rfl
    · split
      · rfl
      · split <;> rfl

/-- What is sent to one member changes no other. -/
theorem get?_send_other (hne : other ≠ name) :
    (c.send command name).2.members.get? other = c.members.get? other := by
  unfold send
  split
  · rfl
  · split
    · rfl
    · split
      · rfl
      · split
        · rfl
        · rw [setMember, OrderedMap.get?_insert, if_neg hne]

/-- What comes of sending to a member depends on the network and on that member. -/
theorem send_congr (hnetwork : c'.network = c.network)
    (hmember : c'.members.get? name = c.members.get? name) :
    (c'.send command name).1 = (c.send command name).1 ∧
      (c'.send command name).2.members.get? name = (c.send command name).2.members.get? name := by
  simp only [send, hnetwork, hmember]
  split
  · exact ⟨rfl, hmember⟩
  · split
    · exact ⟨rfl, hmember⟩
    · split
      · exact ⟨rfl, hmember⟩
      · split
        · exact ⟨rfl, hmember⟩
        · simp only [setMember, OrderedMap.get?_insert, if_true, true_and]

theorem send_question_snd (c : Cluster) (g : Goal) (name : Address) :
    (c.send g.question name).2 = c := by
  unfold send
  split
  · rfl
  · split
    · rfl
    · split
      · rfl
      · next m hm =>
        split
        · rfl
        · next reply m' hhandle =>
          obtain rfl := Member.handle_question hhandle
          exact setMember_self hm

/-- Each of several members replies what it would reply alone, and becomes what it would become
alone. -/
theorem sendAll_eq (hnodup : names.Nodup) :
    (c.sendAll command names).1 = names.map (fun n => (c.send command n).1) ∧
    (c.sendAll command names).2.network = c.network ∧
    ∀ n, (c.sendAll command names).2.members.get? n =
      if n ∈ names then (c.send command n).2.members.get? n else c.members.get? n := by
  induction names generalizing c with
  | nil => simp [sendAll]
  | cons name rest ih =>
    obtain ⟨hname, hrest⟩ := List.nodup_cons.1 hnodup
    have hnetwork := c.network_send command name
    have hother : ∀ n ∈ rest, ((c.send command name).2.send command n).1 = (c.send command n).1 ∧
        ((c.send command name).2.send command n).2.members.get? n =
          (c.send command n).2.members.get? n := by
      intro n hn
      have hne : n ≠ name := fun heq => hname (heq ▸ hn)
      exact send_congr hnetwork (get?_send_other hne)
    obtain ⟨hreplies, hnetwork', hmembers⟩ := @ih (c.send command name).2 hrest
    refine ⟨?_, hnetwork'.trans hnetwork, fun n => ?_⟩
    · simp only [sendAll, hreplies, List.map_cons]
      exact congrArg _ (List.map_congr_left fun n hn => (hother n hn).1)
    · simp only [sendAll, hmembers, List.mem_cons]
      by_cases hn : n ∈ rest
      · simp only [hn, or_true, if_true, (hother n hn).2]
      · by_cases heq : n = name
        · simp [heq, hname]
        · simp [hn, heq, get?_send_other heq]

theorem sendAll_perm (hnodup : names.Nodup) (hperm : names'.Perm names) :
    (c.sendAll command names').2 = (c.sendAll command names).2 := by
  obtain ⟨-, hnetwork, hmembers⟩ := @sendAll_eq c command names hnodup
  obtain ⟨-, hnetwork', hmembers'⟩ := @sendAll_eq c command names' (hperm.nodup_iff.2 hnodup)
  refine ext_get? (hnetwork'.trans hnetwork.symm) fun n => ?_
  simp only [hmembers, hmembers', hperm.mem_iff]

theorem sendAll_concat (c : Cluster) (command : Command) (names : List Address) (name : Address) :
    c.sendAll command (names ++ [name]) =
      ((c.sendAll command names).1 ++ [((c.sendAll command names).2.send command name).1],
        ((c.sendAll command names).2.send command name).2) := by
  induction names generalizing c with
  | nil => rfl
  | cons first rest ih => simp only [List.cons_append, sendAll, ih]

theorem sendAll_question_snd (c : Cluster) (g : Goal) (names : List Address) :
    (c.sendAll g.question names).2 = c := by
  induction names with
  | nil => rfl
  | cons name rest ih => simp only [sendAll, send_question_snd, ih]

end Cluster

/-- What happens in a fan-out: the command reaches a member, or what comes of that arrives. -/
inductive Delivery
  | reach (name : Address)
  | arrive (name : Address)
deriving DecidableEq

/-- A command on its way to several members: to whom it was sent and what came of it, in the order
in which they were reached, and of that what has arrived, in the order in which it did. Without a
reply the member did not answer. -/
structure FanOut where
  cluster : Cluster
  sent : List (Address × Option Reply) := []
  arrived : List (Address × Option Reply) := []

namespace FanOut

variable {c : Cluster} {command : Command} {names : List Address} {f : FanOut} {name : Address}

/-- A member is reached once, and its reply arrives once, after that. -/
def step (command : Command) (names : List Address) (f : FanOut) : Delivery → FanOut
  | .reach name =>
    if name ∈ names ∧ name ∉ f.sent.map Prod.fst then
      let (reply, cluster) := f.cluster.send command name
      { f with cluster, sent := f.sent ++ [(name, reply)] }
    else f
  | .arrive name =>
    match f.sent.find? (·.1 = name) with
    | none => f
    | some outcome => if name ∈ f.arrived.map Prod.fst then
      f else { f with arrived := f.arrived ++ [outcome] }

def run (command : Command) (names : List Address) (f : FanOut) (schedule : List Delivery) :
    FanOut :=
  schedule.foldl (step command names) f

/-- What was sent, in order. -/
def commands (f : FanOut) (command : Command) : List (Command × Address) :=
  f.sent.map (command, ·.1)

/-- Each of the members is reached at some time, and after that its reply arrives. -/
def Serves (schedule : List Delivery) (names : List Address) : Prop :=
  ∀ name ∈ names, [.reach name, .arrive name].Sublist schedule

instance (schedule : List Delivery) (names : List Address) : Decidable (Serves schedule names) :=
  inferInstanceAs (Decidable (∀ name ∈ names, [.reach name, .arrive name].Sublist schedule))

/-- So far the cluster is as if the command had been sent to the members one after the other, in the
order in which they were reached, each of them once; and what has arrived came of that. -/
structure Sound (command : Command) (names : List Address) (c : Cluster) (f : FanOut) : Prop where
  inOrder : c.sendAll command (f.sent.map Prod.fst) = (f.sent.map Prod.snd, f.cluster)
  once : (f.sent.map Prod.fst).Nodup
  subset : ∀ name ∈ f.sent.map Prod.fst, name ∈ names
  arrivedOnce : (f.arrived.map Prod.fst).Nodup
  arrived : ∀ outcome ∈ f.arrived, outcome ∈ f.sent

theorem Sound.start (command : Command) (names : List Address) (c : Cluster) :
    Sound command names c { cluster := c } where
  inOrder := rfl
  once := .nil
  subset := by simp
  arrivedOnce := .nil
  arrived := by simp

theorem nodup_concat {l : List Address} (hl : l.Nodup) (hname : name ∉ l) :
    (l ++ [name]).Nodup := by
  refine List.nodup_append.2 ⟨hl, List.nodup_cons.2 ⟨List.not_mem_nil, .nil⟩, ?_⟩
  rintro a ha b hb rfl
  exact hname (List.mem_singleton.1 hb ▸ ha)

theorem Sound.step (h : Sound command names c f) (d : Delivery) :
    Sound command names c (f.step command names d) := by
  cases d with
  | reach name =>
    simp only [FanOut.step]
    split
    · next hreached =>
      -- The member is reached last of all so far, by a cluster that the others have been sent the
      -- command in already.
      obtain ⟨hname, hnew⟩ := hreached
      refine ⟨?_, ?_, ?_, h.arrivedOnce,
        fun outcome ho => List.mem_append_left _ (h.arrived outcome ho)⟩
      · simp only [List.map_append, List.map_cons, List.map_nil, Cluster.sendAll_concat, h.inOrder]
      · rw [List.map_append]
        exact nodup_concat h.once hnew
      · intro n hn
        rw [List.map_append, List.mem_append] at hn
        rcases hn with hn | hn
        · exact h.subset n hn
        · exact List.mem_singleton.1 hn ▸ hname
    · exact h
  | arrive name =>
    simp only [FanOut.step]
    split
    · exact h
    · next outcome hfind =>
      split
      · exact h
      · next hnew =>
        obtain rfl : outcome.1 = name := by simpa using List.find?_some hfind
        refine ⟨h.inOrder, h.once, h.subset, ?_, ?_⟩
        · rw [List.map_append]
          exact nodup_concat h.arrivedOnce hnew
        · intro o ho
          rcases List.mem_append.1 ho with ho | ho
          · exact h.arrived o ho
          · obtain rfl := List.mem_singleton.1 ho
            exact List.mem_of_find?_eq_some hfind

theorem Sound.run (h : Sound command names c f) (schedule : List Delivery) :
    Sound command names c (f.run command names schedule) := by
  induction schedule generalizing f with
  | nil => exact h
  | cons d rest ih => exact ih (h.step d)

theorem step_grows (f : FanOut) (d : Delivery) :
    f.sent <+: (f.step command names d).sent ∧ f.arrived <+: (f.step command names d).arrived := by
  cases d with
  | reach name =>
    simp only [step]
    split
    · exact ⟨List.prefix_append _ _, List.prefix_refl _⟩
    · exact ⟨List.prefix_refl _, List.prefix_refl _⟩
  | arrive name =>
    simp only [step]
    split
    · exact ⟨List.prefix_refl _, List.prefix_refl _⟩
    · split
      · exact ⟨List.prefix_refl _, List.prefix_refl _⟩
      · exact ⟨List.prefix_refl _, List.prefix_append _ _⟩

theorem run_grows (f : FanOut) (schedule : List Delivery) :
    f.sent <+: (f.run command names schedule).sent ∧
    f.arrived <+: (f.run command names schedule).arrived := by
  induction schedule generalizing f with
  | nil => exact ⟨List.prefix_refl _, List.prefix_refl _⟩
  | cons d rest ih =>
    obtain ⟨hsent, harrived⟩ := @step_grows command names f d
    obtain ⟨hsent', harrived'⟩ := ih (f.step command names d)
    exact ⟨hsent.trans hsent', harrived.trans harrived'⟩

theorem mem_sent_of_reach {schedule : List Delivery} (hname : name ∈ names)
    (h : .reach name ∈ schedule) :
    name ∈ (f.run command names schedule).sent.map Prod.fst := by
  induction schedule generalizing f with
  | nil => cases h
  | cons d rest ih =>
    rcases List.mem_cons.1 h with rfl | hlater
    · have hreached : name ∈ (f.step command names (.reach name)).sent.map Prod.fst := by
        simp only [step]
        split
        · simp
        · next hnot => exact Decidable.not_not.1 fun hnew => hnot ⟨hname, hnew⟩
      exact ((run_grows _ rest).1.map Prod.fst).subset hreached
    · exact ih hlater

theorem mem_arrived_of_arrive {schedule : List Delivery} (hsent : name ∈ f.sent.map Prod.fst)
    (h : .arrive name ∈ schedule) : name ∈ (f.run command names schedule).arrived.map Prod.fst := by
  induction schedule generalizing f with
  | nil => cases h
  | cons d rest ih =>
    rcases List.mem_cons.1 h with rfl | hlater
    · have harrived : name ∈ (f.step command names (.arrive name)).arrived.map Prod.fst := by
        simp only [step]
        split
        · next hnone =>
          obtain ⟨outcome, ho, rfl⟩ := List.mem_map.1 hsent
          simpa using List.find?_eq_none.1 hnone outcome ho
        · next outcome hfind =>
          split
          · next hold => exact hold
          · have hfirst : outcome.1 = name := by simpa using List.find?_some hfind
            simp [hfirst]
      exact ((run_grows _ rest).2.map Prod.fst).subset harrived
    · exact ih (((step_grows f d).1.map Prod.fst).subset hsent) hlater

/-- Once all replies are in, each member was sent the command once, in some order, and each reply
has arrived once, in some order, the one that the member would have given alone. The cluster is as
if the command had been sent in any given order. -/
theorem finished {schedule : List Delivery} (hnodup : names.Nodup) (hserves : Serves schedule names)
    (hf : f = run command names { cluster := c } schedule) :
    (f.sent.map Prod.fst).Perm names ∧ (f.arrived.map Prod.fst).Perm names ∧
      (∀ r, r ∈ f.arrived.map Prod.snd ↔ r ∈ names.map fun n => (c.send command n).1) ∧
      f.cluster = (c.sendAll command names).2 := by
  have hsound : Sound command names c f := hf ▸ (Sound.start command names c).run schedule
  have hreached : ∀ name ∈ names, name ∈ f.sent.map Prod.fst ∧ name ∈ f.arrived.map Prod.fst := by
    intro name hname
    -- By the time its reply is due, the member has been reached.
    obtain ⟨before, after, hsplit, hreach, harrive⟩ := List.cons_sublist_iff.1 (hserves name hname)
    rw [List.singleton_sublist] at harrive
    have hrun : f = run command names (run command names { cluster := c } before) after := by
      rw [hf, hsplit, run, List.foldl_append]
      rfl
    have hsent := @mem_sent_of_reach command names { cluster := c } name before hname hreach
    rw [hrun]
    exact ⟨((run_grows _ after).1.map Prod.fst).subset hsent, mem_arrived_of_arrive hsent harrive⟩
  have hsent : (f.sent.map Prod.fst).Perm names :=
    (List.perm_ext_iff_of_nodup hsound.once hnodup).2 fun n =>
      ⟨hsound.subset n, fun hn => (hreached n hn).1⟩
  -- In the order in which they were reached the members reply what each would reply alone.
  obtain ⟨hreplies, -, -⟩ := @Cluster.sendAll_eq c command _ hsound.once
  have houtcome : ∀ outcome ∈ f.sent, outcome.2 = (c.send command outcome.1).1 := by
    rw [hsound.inOrder, List.map_map] at hreplies
    exact List.map_inj_left.1 hreplies
  have hknown : ∀ n ∈ f.arrived.map Prod.fst, n ∈ names := by
    intro n hn
    obtain ⟨outcome, ho, rfl⟩ := List.mem_map.1 hn
    exact hsound.subset _ (List.mem_map_of_mem (hsound.arrived outcome ho))
  refine ⟨hsent, ?_, fun r => ?_, ?_⟩
  · exact (List.perm_ext_iff_of_nodup hsound.arrivedOnce hnodup).2 fun n =>
      ⟨hknown n, fun hn => (hreached n hn).2⟩
  · simp only [List.mem_map]
    constructor
    · rintro ⟨outcome, ho, rfl⟩
      exact ⟨outcome.1, hknown _ (List.mem_map_of_mem ho),
        (houtcome outcome (hsound.arrived outcome ho)).symm⟩
    · rintro ⟨n, hn, rfl⟩
      obtain ⟨outcome, ho, rfl⟩ := List.mem_map.1 (hreached n hn).2
      exact ⟨outcome, ho, houtcome outcome (hsound.arrived outcome ho)⟩
  · rw [← Cluster.sendAll_perm hnodup hsent, hsound.inOrder]

end FanOut
end Multiversion
