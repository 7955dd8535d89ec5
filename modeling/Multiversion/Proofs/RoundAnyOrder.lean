import Multiversion.Proofs.FanOut
/- A round whose commands and replies travel in any order.

   The coordinator asks all others at once and sends them its order at once (`Cluster.roundBy`). The
   cutoff is the least of its own value and the answers, however those came in
   (`cutoff?_eq_some_iff`): members that do not answer, and those that answer another question,
   count for nothing. The round is skipped if there are others and all of them are of that kind
   (`cutoff?_eq_none_iff`). `Cluster.roundBy_exact` says what a round does for every assignment of
   outcomes to the others (`Cluster.exists_outcomes`), and that it does the same as one in which
   they take their turns. -/
namespace Multiversion

section Cutoff

variable {α : Type} [LE α] [Min α] [Std.IsLinearOrder α] [Std.LawfulOrderMin α] {own least : α}
  {answers answers' : List (Option α)}

omit [LE α] [Std.IsLinearOrder α] [Std.LawfulOrderMin α] in
/-- There is no cutoff if members were asked and none of them answered. -/
theorem cutoff?_eq_none_iff :
    cutoff? own answers = none ↔ answers ≠ [] ∧ ∀ a ∈ answers, a = none := by
  simp [cutoff?]

/-- Otherwise the cutoff is the least of the own value and the answers. -/
theorem cutoff?_eq_some_iff : cutoff? own answers = some least ↔
    ¬ (answers ≠ [] ∧ ∀ a ∈ answers, a = none) ∧
    (least = own ∨ some least ∈ answers) ∧ least ≤ own ∧
      ∀ value, some value ∈ answers → least ≤ value := by
  have hleast : (answers.filterMap id).foldl min own = least ↔
      (least = own ∨ some least ∈ answers) ∧ least ≤ own ∧
      ∀ value, some value ∈ answers → least ≤ value := by
    have hmin : (own :: answers.filterMap id).min? = some ((answers.filterMap id).foldl min own) :=
      rfl
    rw [← Option.some.injEq, ← hmin, List.min?_eq_some_iff]
    simp
  rw [← @cutoff?_eq_none_iff _ _ own, ← hleast, cutoff?]
  split <;> simp

theorem cutoff?_congr (h : ∀ a, a ∈ answers ↔ a ∈ answers') :
    cutoff? own answers = cutoff? own answers' := by
  apply Option.ext
  intro least
  simp only [cutoff?_eq_some_iff, ne_eq, List.eq_nil_iff_forall_not_mem, h]

end Cutoff

namespace Goal

variable {g : Goal} {own least : g.Measure} {replies replies' : List (Option Reply)}

instance (g : Goal) : LE g.Measure :=
  match g with
  | .version => inferInstanceAs (LE Int64)
  | .view => inferInstanceAs (LE Nat)

/-- The least of the own value and the answers. -/
structure IsCutoff (g : Goal) (own : g.Measure) (answers : List (Option g.Measure))
    (least : g.Measure) : Prop where
  attained : least = own ∨ some least ∈ answers
  le_own : least ≤ own
  le_answer : ∀ value, some value ∈ answers → least ≤ value

theorem cutoff?_none_iff : g.cutoff? own replies = none ↔
    replies ≠ [] ∧ ∀ r ∈ replies, r.bind (g.answer? ·) = none := by
  cases g <;> simp [Goal.cutoff?, cutoff?_eq_none_iff]

theorem isCutoff_of_cutoff? (h : g.cutoff? own replies = some least) :
    g.IsCutoff own (replies.map (·.bind (g.answer? ·))) least := by
  cases g with
  | version =>
    obtain ⟨-, hattained, hown, hanswer⟩ := cutoff?_eq_some_iff.1 h
    exact ⟨hattained, hown, hanswer⟩
  | view =>
    obtain ⟨-, hattained, hown, hanswer⟩ := cutoff?_eq_some_iff.1 h
    exact ⟨hattained, hown, hanswer⟩

theorem cutoff?_congr (h : ∀ r, r ∈ replies ↔ r ∈ replies') :
    g.cutoff? own replies = g.cutoff? own replies' := by
  cases g with
  | version => exact Multiversion.cutoff?_congr fun a => by simp only [List.mem_map, h]
  | view => exact Multiversion.cutoff?_congr fun a => by simp only [List.mem_map, h]

/-- The order of a cutoff, and what carrying it out does to a member: it drops the history before a
commit value, which may fail, or forgets the views before an id. -/
inductive Orders (m : Member) : (g : Goal) → g.Measure → Command → Except TxFault Member → Prop
  | setVersion (value : Int64) :
    Orders m .version value (.setVersion value) ((m.gcBefore value).map (·.2))
  | setView (least : Nat) : Orders m .view least (.setView least) (.ok (m.forgetViews least))

/-- Whoever carries out the order of a cutoff has nothing to tell but that it is done. -/
theorem exists_orders (g : Goal) (m : Member) (least : g.Measure) :
    ∃ effect, g.Orders m least (g.order least) effect ∧
    m.handle (g.order least) = (effect.mapError .member).map (.done, ·) := by
  cases g with
  | version =>
    refine ⟨_, .setVersion least, ?_⟩
    rw [Goal.order, Member.handle]
    cases m.gcBefore least <;> rfl
  | view => exact ⟨_, .setView least, rfl⟩

end Goal

theorem Member.conclude_congr {m : Member} {g : Goal} {own : g.Measure}
    {replies replies' : List (Option Reply)} (h : ∀ r, r ∈ replies ↔ r ∈ replies') :
    m.conclude g own replies = m.conclude g own replies' := by
  rw [conclude, conclude, Goal.cutoff?_congr h]

/-- Every assignment of outcomes to the members is that of some network: a reply of any kind, or
none. -/
theorem Network.exists_outcomes (members : OrderedMap Address Member) (g : Goal)
    (ghosts names : List Address) (outcome : Address → Option Reply) :
    ∃ net : Network, net.ghosts = ghosts ∧ ∀ name ∈ names,
      ((⟨members, net⟩ : Cluster).send g.question name).1 = outcome name := by
  obtain ⟨replies, hreplies⟩ : ∃ replies : OrderedMap Address Reply, ∀ name,
      replies.get? name = if name ∈ names then outcome name else none := by
    induction names with
    | nil => exact ⟨.empty, by simp⟩
    | cons first rest ih =>
      obtain ⟨replies, hreplies⟩ := ih
      cases hfirst : outcome first with
      | none =>
        refine ⟨replies, fun name => ?_⟩
        rw [hreplies]
        by_cases heq : name = first <;> simp [heq, hfirst]
      | some r =>
        refine ⟨replies.insert first r, fun name => ?_⟩
        rw [OrderedMap.get?_insert, hreplies]
        by_cases heq : name = first <;> simp [heq, hfirst]
  refine ⟨{ ghosts, replies, deaf := names.filter (outcome · = none) }, rfl, fun name hname => ?_⟩
  cases houtcome : outcome name with
  | none => simp [Cluster.send, g.isQuestion_question, hname, houtcome]
  | some r => simp [Cluster.send, hreplies, hname, houtcome]

namespace Cluster

/-- That network can be put under a cluster without changing the addresses that a round asks. -/
theorem exists_outcomes (c : Cluster) (g : Goal) (names : List Address)
    (outcome : Address → Option Reply) :
    ∃ net : Network, (⟨c.members, net⟩ : Cluster).addresses = c.addresses ∧
      ∀ name ∈ names, ((⟨c.members, net⟩ : Cluster).send g.question name).1 = outcome name := by
  obtain ⟨net, hghosts, houtcome⟩ :=
    Network.exists_outcomes c.members g c.network.ghosts names outcome
  exact ⟨net, by rw [addresses, addresses, hghosts], houtcome⟩

variable {c : Cluster} {g : Goal} {name self : Address} {m : Member} {own : g.Measure}
  {others : List Address} {asking telling : List Delivery}

/-- What a member that is asked answers; none if nothing comes back, or the answer to another
question. -/
def answer? (c : Cluster) (g : Goal) (name : Address) : Option g.Measure :=
  (c.send g.question name).1.bind (g.answer? ·)

/-- One round in which the others are asked and told at once, and are reached and reply in the order
that the schedules say. -/
def roundBy (c : Cluster) (g : Goal) (name self : Address) (asking telling : List Delivery) :
    RoundReport g :=
  match c.members.get? name with
  | none => ⟨.ok none, [], c⟩
  | some m =>
    match g.ownMinimum m with
    | .error e => ⟨.error (.member e), [], c⟩
    | .ok own =>
      let others := c.addresses.filter (· ≠ self)
      let asked := FanOut.run g.question others { cluster := c } asking
      match m.conclude g own (asked.arrived.map Prod.snd) with
      | .error e => ⟨.error e, asked.commands g.question, asked.cluster⟩
      | .ok (none, _) => ⟨.ok none, asked.commands g.question, asked.cluster⟩
      | .ok (some cutoff, m) =>
        let told := FanOut.run (g.order cutoff) others
          { cluster := asked.cluster.setMember name m } telling
        ⟨.ok (some cutoff), asked.commands g.question ++ told.commands (g.order cutoff),
          told.cluster⟩

/-- The replies of all others, in the order of their addresses. -/
def replies (c : Cluster) (g : Goal) (others : List Address) : List (Option Reply) :=
  others.map fun n => (c.send g.question n).1

theorem skips_iff :
    g.cutoff? own (c.replies g others) = none ↔
      others ≠ [] ∧ ∀ n ∈ others, c.answer? g n = none := by
  rw [Goal.cutoff?_none_iff]
  simp [replies, answer?]

theorem isCutoff_of_replies {least : g.Measure}
    (h : g.cutoff? own (c.replies g others) = some least) :
    g.IsCutoff own (others.map (c.answer? g)) least := by
  have hanswers : (c.replies g others).map (·.bind (g.answer? ·)) = others.map (c.answer? g) := by
    simp [replies, answer?, Function.comp_def]
  exact hanswers ▸ Goal.isCutoff_of_cutoff? h

theorem nodup_others (h : others = c.addresses.filter (· ≠ self)) : others.Nodup :=
  h ▸ c.nodup_addresses.filter _

theorem round_eq (hm : c.members.get? name = some m) (hown : g.ownMinimum m = .ok own)
    (hothers : others = c.addresses.filter (· ≠ self)) : c.round g name self =
      match m.conclude g own (c.replies g others) with
      | .error e => ⟨.error e, others.map (g.question, ·), c⟩
      | .ok (none, _) => ⟨.ok none, others.map (g.question, ·), c⟩
      | .ok (some cutoff, m) =>
        ⟨.ok (some cutoff), others.map (g.question, ·) ++ others.map (g.order cutoff, ·),
          ((c.setMember name m).sendAll (g.order cutoff) others).2⟩ := by
  have hreplies : (c.sendAll g.question others).1 = c.replies g others :=
    (sendAll_eq (nodup_others hothers)).1
  cases hconclude : m.conclude g own (c.replies g others) with
  | error e => simp only [round, hm, hown, ← hothers, hreplies, sendAll_question_snd, hconclude]
  | ok outcome =>
    obtain ⟨_ | cutoff, m'⟩ := outcome
    · simp only [round, hm, hown, ← hothers, hreplies, sendAll_question_snd, hconclude]
    · simp only [round, hm, hown, ← hothers, hreplies, sendAll_question_snd, hconclude]

theorem roundBy_eq (hm : c.members.get? name = some m) (hown : g.ownMinimum m = .ok own)
    (hothers : others = c.addresses.filter (· ≠ self)) (hasking : FanOut.Serves asking others)
    (htelling : FanOut.Serves telling others) : ∃ asked : List Address, asked.Perm others ∧
      match m.conclude g own (c.replies g others) with
      | .error e => c.roundBy g name self asking telling = ⟨.error e, asked.map (g.question, ·), c⟩
      | .ok (none, _) =>
        c.roundBy g name self asking telling = ⟨.ok none, asked.map (g.question, ·), c⟩
      | .ok (some cutoff, m) =>
        ∃ told : List Address, told.Perm others ∧ c.roundBy g name self asking telling =
          ⟨.ok (some cutoff), asked.map (g.question, ·) ++ told.map (g.order cutoff, ·),
            ((c.setMember name m).sendAll (g.order cutoff) others).2⟩ := by
  have hnodup := nodup_others hothers
  obtain ⟨hasked, -, harrived, hcluster⟩ :=
    FanOut.finished hnodup hasking (rfl : FanOut.run g.question others { cluster := c } asking = _)
  -- Questions have changed nothing, so the coordinator carries its order out in the cluster of
  -- before.
  rw [sendAll_question_snd] at hcluster
  refine ⟨_, hasked, ?_⟩
  simp only [roundBy, hm, hown, ← hothers, Member.conclude_congr harrived, hcluster, replies,
    FanOut.commands, List.map_map]
  cases m.conclude g own (others.map fun n => (c.send g.question n).1) with
  | error e => rfl
  | ok outcome =>
    obtain ⟨_ | cutoff, m'⟩ := outcome
    · rfl
    · obtain ⟨htold, -, -, hafter⟩ := FanOut.finished hnodup htelling
        (rfl : FanOut.run (g.order cutoff) others { cluster := c.setMember name m' } telling = _)
      refine ⟨_, htold, ?_⟩
      simp only [hafter, List.map_map]
      rfl

/-- Run a round of either goal, in any cluster and over any network, on a member whose own value is
available. The others are all distinct; let the commands reach them, and what comes of those arrive,
in any order. The round is skipped exactly if there are others and none of them has answered the
question: each has replied with something else, or not at all. Then, as in every round, each of them
was asked once, but no order was sent and no member has changed. Otherwise there is a cutoff, the
least of the own value and the answers. The order is to drop the history before it, or to forget the
views before it. If the coordinator fails to carry its own order out, then the round fails with
that, and again no order was sent and no member has changed. If it does not fail, then the cutoff is
returned, and each of the others was sent the order once, after all questions: it reached the
cluster in which the coordinator had carried out the order already. Apart from the order of the
commands the round has done what it does if the others take their turns, so neither the cutoff nor
the cluster depends on who was reached, or replied, first. And whatever the others are assumed to
reply, or not to, there is a network between the same members over which they do. -/
theorem roundBy_exact (c : Cluster) (g : Goal) {name self : Address} {m : Member} {own : g.Measure}
    (hm : c.members.get? name = some m) (hown : g.ownMinimum m = .ok own) {others : List Address}
    (hothers : others = c.addresses.filter (· ≠ self)) {asking telling : List Delivery}
    (hasking : FanOut.Serves asking others) (htelling : FanOut.Serves telling others)
    {report : RoundReport g} (hreport : report = c.roundBy g name self asking telling) :
    others.Nodup ∧
    (report.cutoff = .ok none ↔ others ≠ [] ∧ ∀ n ∈ others, c.answer? g n = none) ∧
    (∃ asked : List Address, asked.Perm others ∧
      (report.cutoff = .ok none → report.sent = asked.map (g.question, ·) ∧ report.cluster = c) ∧
      (report.cutoff ≠ .ok none → ∃ least effect, g.IsCutoff own (others.map (c.answer? g)) least ∧
        g.Orders m least (g.order least) effect ∧
        m.handle (g.order least) = (effect.mapError .member).map (.done, ·) ∧
        (∀ fault, effect = .error fault → report.cutoff = .error (.member fault) ∧
          report.sent = asked.map (g.question, ·) ∧ report.cluster = c) ∧
        ∀ m', effect = .ok m' → report.cutoff = .ok (some least) ∧
          report.cluster = ((c.setMember name m').sendAll (g.order least) others).2 ∧
          ∃ told : List Address, told.Perm others ∧
            report.sent = asked.map (g.question, ·) ++ told.map (g.order least, ·))) ∧
    (report.cutoff = (c.round g name self).cutoff ∧ report.cluster = (c.round g name self).cluster ∧
      report.sent.Perm (c.round g name self).sent) ∧
    ∀ outcome : Address → Option Reply, ∃ net : Network,
      (⟨c.members, net⟩ : Cluster).addresses = c.addresses ∧
      ∀ n ∈ others, ((⟨c.members, net⟩ : Cluster).send g.question n).1 = outcome n := by
  obtain ⟨asked, hasked, hround⟩ := roundBy_eq hm hown hothers hasking htelling
  have hturns := round_eq hm hown hothers
  have hquestions : (asked.map (g.question, ·)).Perm (others.map (g.question, ·)) := hasked.map _
  have houtcomes := c.exists_outcomes g others
  refine ⟨nodup_others hothers, ?_⟩
  rw [← @skips_iff c g own, hreport, hturns]
  -- There is no cutoff, or one that the coordinator fails to carry out, or one that it carries out.
  simp only [Member.conclude] at hround ⊢
  cases hcutoff : g.cutoff? own (c.replies g others) with
  | none =>
    simp only [hcutoff] at hround
    rw [hround]
    exact ⟨by simp, ⟨asked, hasked, fun _ => ⟨rfl, rfl⟩, fun hnot => absurd rfl hnot⟩,
      ⟨rfl, rfl, hquestions⟩, houtcomes⟩
  | some least =>
    have hleast : g.IsCutoff own (others.map (c.answer? g)) least := isCutoff_of_replies hcutoff
    obtain ⟨effect, horders, hhandle⟩ := g.exists_orders m least
    simp only [hcutoff] at hround
    cases effect with
    | error fault =>
      have hfails : m.handle (g.order least) = .error (.member fault) := hhandle
      simp only [hfails, error_bind] at hround ⊢
      rw [hround]
      refine ⟨by simp, ⟨asked, hasked, fun hnone => by simp at hnone, fun _ => ⟨least, .error fault,
        hleast, horders, hhandle, ?_, fun m' hm' => by simp at hm'⟩⟩,
        ⟨rfl, rfl, hquestions⟩, houtcomes⟩
      intro fault' hfault
      cases hfault
      exact ⟨rfl, rfl, rfl⟩
    | ok m' =>
      have hdone : m.handle (g.order least) = .ok (.done, m') := hhandle
      simp only [hdone, ok_bind, pure_eq_ok] at hround ⊢
      obtain ⟨told, htold, hround⟩ := hround
      rw [hround]
      refine ⟨by simp, ⟨asked, hasked, fun hnone => by simp at hnone, fun _ => ⟨least, .ok m',
        hleast, horders, hhandle, fun fault hfault => by simp at hfault, ?_⟩⟩,
        ⟨rfl, rfl, hquestions.append (htold.map _)⟩, houtcomes⟩
      intro m'' hok
      cases hok
      exact ⟨rfl, rfl, told, htold, rfl⟩

/-- The coordinator needs less history than the second member, the third answers another question
and the fourth is not reached. The second is reached last and replies before the third, and the
round comes to the value that it needs. -/
theorem roundBy_exact_mixed : ∃ (c : Cluster) (m : Member) (report : RoundReport .version),
    c = ((World.start {} ⟨1, ["a", "b"]⟩ fun _ _ => true).run
      [.act "a" (.apply 0 [.single ⟨.replicated, 1, 1⟩ "k" (some "u")]),
        .act "a" (.apply 0 [.single ⟨.replicated, 1, 2⟩ "k" (some "v")]),
        .act "b" (.apply 0 [.single ⟨.replicated, 1, 1⟩ "k" (some "u")])]).clusterOver
      { down := ["z"], replies := .ofList [("y", .view 0)], ghosts := ["y", "z"] } ∧
    c.members.get? "a" = some m ∧ m.minimumValue = .ok 2 ∧
    (c.send .getVersion "b").1 = some (.version 1) ∧ (c.send .getVersion "y").1 = some (.view 0) ∧
    (c.send .getVersion "z").1 = none ∧
    report = c.roundBy .version "a" "a"
      [.reach "z", .reach "y", .arrive "z", .reach "b", .arrive "b", .arrive "y"]
      [.reach "b", .arrive "b", .reach "y", .reach "z", .arrive "z", .arrive "y"] ∧
    report.cutoff = .ok (some 1) ∧ report.sent.length = 6 := by
  obtain ⟨c, m, m', n, hc, hothers, hm, hown, hb, hy, hz, hcollected⟩ :
      ∃ (c : Cluster) (m m' : Member) (n : Nat),
      c = ((World.start {} ⟨1, ["a", "b"]⟩ fun _ _ => true).run
        [.act "a" (.apply 0 [.single ⟨.replicated, 1, 1⟩ "k" (some "u")]),
          .act "a" (.apply 0 [.single ⟨.replicated, 1, 2⟩ "k" (some "v")]),
          .act "b" (.apply 0 [.single ⟨.replicated, 1, 1⟩ "k" (some "u")])]).clusterOver
        { down := ["z"], replies := .ofList [("y", .view 0)], ghosts := ["y", "z"] } ∧
      ["b", "y", "z"] = c.addresses.filter (· ≠ "a") ∧
      c.members.get? "a" = some m ∧ m.minimumValue = .ok 2 ∧
      (c.send .getVersion "b").1 = some (.version 1) ∧ (c.send .getVersion "y").1 = some (.view 0) ∧
      (c.send .getVersion "z").1 = none ∧ m.gcBefore 1 = .ok (n, m') :=
    ⟨_, _, _, _, rfl, rfl, rfl, rfl, rfl, rfl, rfl, rfl⟩
  have hanswers : ["b", "y", "z"].map (c.answer? .version) = [some 1, none, none] := by
    simp [answer?, Goal.question, Goal.answer?, Reply.version?, hb, hy, hz]
  obtain ⟨report, hreport⟩ : ∃ report, report = c.roundBy .version "a" "a"
      [.reach "z", .reach "y", .arrive "z", .reach "b", .arrive "b", .arrive "y"]
      [.reach "b", .arrive "b", .reach "y", .reach "z", .arrive "z", .arrive "y"] := ⟨_, rfl⟩
  obtain ⟨-, hskip, ⟨asked, hasked, -, hcutoff⟩, -⟩ :=
    roundBy_exact c .version hm hown hothers (by decide) (by decide) hreport
  have hrun : report.cutoff ≠ .ok none := by
    rw [ne_eq, hskip]
    rintro ⟨-, hall⟩
    have hanswer := hall "b" (by simp)
    simp [answer?, Goal.question, Goal.answer?, Reply.version?, hb] at hanswer
  obtain ⟨least, effect, hleast, horders, -, -, hok⟩ := hcutoff hrun
  rw [hanswers] at hleast
  have hone : least = 1 := by
    rcases hleast.attained with htwo | hanswer
    · have hle := hleast.le_answer 1 (by simp)
      rw [htwo] at hle
      exact absurd hle (by decide)
    · simpa using hanswer
  subst hone
  cases horders
  obtain ⟨hvalue, -, told, htold, hsent⟩ := hok m' (by rw [hcollected]; rfl)
  refine ⟨c, m, report, hc, hm, hown, hb, hy, hz, hreport, hvalue, ?_⟩
  rw [hsent, List.length_append, List.length_map, List.length_map, hasked.length_eq,
    htold.length_eq]
  rfl

end Cluster
end Multiversion
