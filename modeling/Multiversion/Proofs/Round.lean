import Multiversion.Proofs.World
/- One round, seen from the sessions of a world.

   A round asks the other members, settles on a cutoff that is beyond nothing that was answered
   (`cutoff?_le`), and sends an order with it. The network may lose questions and orders. Questions
   change nothing, and an order makes the same happen on each member that it reaches (`Goal.event`);
   so a round comes to nothing, or to these events on the coordinator and on those that are reached
   (`World.round_cases`). -/
namespace Multiversion

section Cutoff

variable {α : Type} [LE α] [Min α] [Std.IsLinearOrder α] [Std.LawfulOrderMin α]

theorem foldl_min_le (l : List α) (a : α) : l.foldl min a ≤ a ∧ ∀ b ∈ l, l.foldl min a ≤ b := by
  induction l generalizing a with
  | nil => exact ⟨Std.le_refl a, by simp⟩
  | cons b rest ih =>
    obtain ⟨hinit, hrest⟩ := ih (min a b)
    refine ⟨Std.le_trans hinit Std.min_le_left, List.forall_mem_cons.2 ⟨?_, hrest⟩⟩
    exact Std.le_trans hinit Std.min_le_right

/-- The cutoff of a round is beyond neither the coordinator's own value nor any that was
answered. -/
theorem cutoff?_le {own cutoff : α} {answers : List (Option α)}
    (h : cutoff? own answers = some cutoff) :
    cutoff ≤ own ∧ ∀ value, some value ∈ answers → cutoff ≤ value := by
  rw [cutoff?] at h
  split at h
  · cases h
  · obtain rfl := Option.some.inj h
    obtain ⟨hown, hall⟩ := foldl_min_le (answers.filterMap id) own
    exact ⟨hown, fun value hvalue => hall value (List.mem_filterMap.2 ⟨_, hvalue, rfl⟩)⟩

end Cutoff

/-- What an order makes happen on a member. -/
def Goal.event : (goal : Goal) → goal.Measure → Event
  | .version, cutoff => .collectBefore cutoff
  | .view, cutoff => .forget cutoff

theorem Goal.isQuestion_question (goal : Goal) :
    goal.question.isQuestion = true := by cases goal <;> rfl

theorem Goal.isQuestion_order (goal : Goal) (cutoff : goal.Measure) :
    (goal.order cutoff).isQuestion = false := by
  cases goal <;> rfl

theorem Member.handle_question {m m' : Member} {goal : Goal} {reply : Reply}
    (h : m.handle goal.question = .ok (reply, m')) : m' = m := by
  cases goal with
  | version =>
    simp only [Goal.question, handle, bind_eq_ok, pure_eq_ok, Except.ok.injEq, Prod.mk.injEq] at h
    obtain ⟨_, -, -, rfl⟩ := h
    rfl
  | view =>
    simp only [Goal.question, handle, bind_eq_ok, pure_eq_ok, Except.ok.injEq, Prod.mk.injEq] at h
    obtain ⟨_, -, -, rfl⟩ := h
    rfl

theorem Session.member_order (s : Session) (goal : Goal) (cutoff : goal.Measure) :
    (s.step (goal.event cutoff)).member =
      match s.member.handle (goal.order cutoff) with
      | .ok (_, m) => m
      | .error _ => s.member := by
  cases goal with
  | view => rfl
  | version =>
    show (s.settle (s.member.gcBefore cutoff)).member = _
    simp only [Goal.order, Member.handle]
    cases s.member.gcBefore cutoff <;> rfl

theorem Member.conclude_ok {m m' : Member} {goal : Goal} {own cutoff : goal.Measure}
    {replies : List (Option Reply)} (h : m.conclude goal own replies = .ok (some cutoff, m')) :
    goal.cutoff? own replies = some cutoff ∧
      ∃ reply, m.handle (goal.order cutoff) = .ok (reply, m') := by
  rw [conclude] at h
  split at h
  · cases h
  · next least hleast =>
    simp only [bind_eq_ok, pure_eq_ok, Except.ok.injEq, Prod.mk.injEq, Option.some.injEq] at h
    obtain ⟨⟨reply, _⟩, hhandle, rfl, rfl⟩ := h
    exact ⟨hleast, reply, hhandle⟩

namespace Cluster

variable {c : Cluster} {name : Address} {m : Member}

theorem setMember_self (h : c.members.get? name = some m) : c.setMember name m = c := by
  have hsame : c.members.insert name m = c.members := by
    apply OrderedMap.ext
    intro other
    rw [OrderedMap.get?_insert]
    split
    · next heq => rw [heq, h]
    · rfl
  rw [setMember, hsame]

theorem nodup_addresses (c : Cluster) : c.addresses.Nodup := by
  have hincreasing : c.addresses.Pairwise (· < ·) := (OrderedSet.ofList _).increasing
  apply hincreasing.imp
  intro a b hlt
  rintro rfl
  exact Std.lt_irrefl hlt

theorem mem_addresses (h : c.members.get? name = some m) : name ∈ c.addresses := by
  have hmem : name ∈ c.members.keys :=
    List.mem_map_of_mem (f := Prod.fst) (OrderedMap.get?_eq_some_iff.1 h)
  exact OrderedSet.mem_ofList.2 (List.mem_append_left _ hmem)

theorem mem_others {n : Address} (h : c.members.get? n = some m) (hn : n ≠ name) :
    n ∈ c.addresses.filter (· ≠ name) :=
  List.mem_filter.2 ⟨mem_addresses h, decide_eq_true hn⟩

end Cluster

/-- Those of some members that an order reaches. -/
def Network.reached (net : Network) (names : List Address) : List Address :=
  names.filter (· ∉ net.down)

namespace World

variable {net : Network}

/-- The members as a cluster with a network. -/
def clusterOver (w : World) (net : Network) : Cluster := { w.cluster with network := net }

/-- What comes back from a member that is sent a question. -/
def reply? (w : World) (net : Network) (goal : Goal) (name : Address) : Option Reply :=
  if name ∈ net.down ∨ name ∈ net.deaf then none
  else (w.sessions.get? name).bind fun s =>
    match s.member.handle goal.question with
    | .ok (reply, _) => some reply
    | .error _ => none

/-- What becomes of a world when some members are sent an order. -/
def ordered (w : World) (net : Network) (goal : Goal) (cutoff : goal.Measure)
    (names : List Address) : World :=
  w.run ((net.reached names).map fun name => .act name (goal.event cutoff))

theorem get?_clusterOver (w : World) (net : Network) (name : Address) :
    (w.clusterOver net).members.get? name = (w.sessions.get? name).map (·.member) :=
  get?_cluster w name

theorem clusterOver_act {w : World} {name : Address} {s : Session}
    (hs : w.sessions.get? name = some s) (event : Event) :
    (w.step (.act name event)).clusterOver net =
      (w.clusterOver net).setMember name (s.step event).member := by
  have hmembers := w.sessions.mapValues_insert (·.member) name (s.step event)
  rw [step, hs]
  exact congrArg (Cluster.mk · net) hmembers

theorem get?_run_acts {w : World} {names : List Address} (hnodup : names.Nodup) (event : Event)
    (other : Address) :
    (w.run (names.map fun name => .act name event)).sessions.get? other =
      if other ∈ names then
        (w.sessions.get? other).map (·.step event) else w.sessions.get? other := by
  induction names generalizing w with
  | nil => simp [run]
  | cons name rest ih =>
    obtain ⟨hname, hrest⟩ := List.nodup_cons.1 hnodup
    have hget : (w.step (.act name event)).sessions.get? other =
        if other = name then
          (w.sessions.get? other).map (·.step event) else w.sessions.get? other := by
      rw [step]
      split
      · next s hs =>
        rw [OrderedMap.get?_insert]
        split
        · next heq => rw [heq, hs, Option.map_some]
        · rfl
      · next hs =>
        split
        · next heq => rw [heq, hs, Option.map_none]
        · rfl
    rw [List.map_cons, run, List.foldl_cons]
    refine (ih hrest).trans ?_
    rw [hget]
    by_cases heq : other = name
    · simp [heq, hname]
    · simp [heq]

theorem send_question (w : World) (hnet : net.replies = .empty) (goal : Goal) (name : Address) :
    (w.clusterOver net).send goal.question name = (w.reply? net goal name, w.clusterOver net) := by
  simp only [Cluster.send, reply?, goal.isQuestion_question, show (w.clusterOver net).network = net
    from rfl, hnet,
    OrderedMap.get?_empty, get?_clusterOver, and_true]
  split
  · rfl
  · cases hs : w.sessions.get? name with
    | none => rfl
    | some s =>
      cases hhandle : s.member.handle goal.question with
      | error fault => simp [hhandle]
      | ok outcome =>
        obtain ⟨reply, m'⟩ := outcome
        obtain rfl := Member.handle_question hhandle
        have hget : (w.clusterOver net).members.get? name = some s.member := by
          rw [get?_clusterOver, hs, Option.map_some]
        simp [hhandle, Cluster.setMember_self hget]

theorem sendAll_question (w : World) (hnet : net.replies = .empty) (goal : Goal)
    (names : List Address) :
    (w.clusterOver net).sendAll goal.question names =
      (names.map (w.reply? net goal), w.clusterOver net) := by
  induction names with
  | nil => rfl
  | cons name rest ih => simp only [Cluster.sendAll, send_question w hnet, ih, List.map_cons]

theorem send_order (w : World) (hnet : net.replies = .empty) (goal : Goal) (cutoff : goal.Measure)
    (name : Address) :
    ((w.clusterOver net).send (goal.order cutoff) name).2 =
      (if name ∈ net.down then w else w.step (.act name (goal.event cutoff))).clusterOver net := by
  simp only [Cluster.send, goal.isQuestion_order, show (w.clusterOver net).network = net from rfl,
    hnet, OrderedMap.get?_empty, get?_clusterOver, Bool.false_eq_true, and_false, or_false]
  split
  · rfl
  · cases hs : w.sessions.get? name with
    | none => simp [step, hs]
    | some s =>
      have hget : (w.clusterOver net).members.get? name = some s.member := by
        rw [get?_clusterOver, hs, Option.map_some]
      rw [clusterOver_act hs, s.member_order]
      cases hhandle : s.member.handle (goal.order cutoff) with
      | error fault => simp [hhandle, Cluster.setMember_self hget]
      | ok outcome => simp [hhandle]

theorem sendAll_order (w : World) (hnet : net.replies = .empty) (goal : Goal)
    (cutoff : goal.Measure) (names : List Address) :
    ((w.clusterOver net).sendAll (goal.order cutoff) names).2 =
      (w.ordered net goal cutoff names).clusterOver net := by
  induction names generalizing w with
  | nil => rfl
  | cons name rest ih =>
    simp only [Cluster.sendAll, send_order w hnet, ih, ordered, Network.reached,
      List.filter_cons, decide_not]
    by_cases hdown : name ∈ net.down
    · simp [hdown]
    · simp [hdown, run]

theorem clusterOver_conclude {w : World} {name : Address} {s : Session}
    (hs : w.sessions.get? name = some s) {goal : Goal} {own cutoff : goal.Measure}
    {replies : List (Option Reply)} {m : Member}
    (h : s.member.conclude goal own replies = .ok (some cutoff, m)) :
    goal.cutoff? own replies = some cutoff ∧
      (w.clusterOver net).setMember name m =
        (w.step (.act name (goal.event cutoff))).clusterOver net := by
  obtain ⟨hleast, reply, hhandle⟩ := Member.conclude_ok h
  exact ⟨hleast, by rw [clusterOver_act hs, s.member_order, hhandle]⟩

/-- A round comes to no cutoff and to nothing, or to what its order makes happen on the coordinator
and on the others that it reaches. -/
theorem round_cases (w : World) (hnet : net.replies = .empty) (goal : Goal) (name self : Address) :
    ((∀ cutoff, ((w.clusterOver net).round goal name self).cutoff ≠ .ok (some cutoff)) ∧
      ((w.clusterOver net).round goal name self).cluster = w.clusterOver net) ∨
    ∃ s own cutoff, w.sessions.get? name = some s ∧ goal.ownMinimum s.member = .ok own ∧
      goal.cutoff? own (((w.clusterOver net).addresses.filter (· ≠ self)).map (w.reply? net goal)) =
        some cutoff ∧
      ((w.clusterOver net).round goal name self).cutoff = .ok (some cutoff) ∧
      ((w.clusterOver net).round goal name self).cluster =
        ((w.step (.act name (goal.event cutoff))).ordered net goal
        cutoff ((w.clusterOver net).addresses.filter (· ≠ self))).clusterOver net := by
  cases hs : w.sessions.get? name with
  | none => exact .inl (by simp [Cluster.round, get?_clusterOver, hs])
  | some s =>
    cases hown : goal.ownMinimum s.member with
    | error fault => exact .inl (by simp [Cluster.round, get?_clusterOver, hs, hown])
    | ok own =>
      simp only [Cluster.round, get?_clusterOver, hs, Option.map_some, hown,
        sendAll_question w hnet]
      generalize (w.clusterOver net).addresses.filter (· ≠ self) = others
      cases hconclude : s.member.conclude goal own (others.map (w.reply? net goal)) with
      | error fault => exact .inl ⟨by simp, rfl⟩
      | ok outcome =>
        obtain ⟨_ | cutoff, m⟩ := outcome
        · exact .inl ⟨by simp, rfl⟩
        · obtain ⟨hcutoff, hover⟩ : _ ∧ (w.clusterOver net).setMember name m = _ :=
            clusterOver_conclude hs hconclude
          refine .inr ⟨s, own, cutoff, rfl, hown, hcutoff, rfl, ?_⟩
          simp only [hover, sendAll_order _ hnet]

end World
end Multiversion
