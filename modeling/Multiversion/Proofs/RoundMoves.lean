import Multiversion.Proofs.Round
import Multiversion.Proofs.VersionLetters
import Multiversion.Proofs.ViewRound
/- The rounds of a cluster as moves.

   `Cluster.round` runs a round in one go, over a network that may lose what is sent. Whatever it
   loses, a round of version collection comes to collections on some of the members
   (`World.round_version`), and a round of view collection to the moves in which those that are
   reached answer and are told to forget views (`Gathering.round_view`). So any number of rounds is
   a run of moves (`Gathering.rounds_eq_run`), and what holds of all runs of moves holds of a
   cluster that runs its rounds between whatever else happens.

   Letter by letter, a round of version collection is a run in which whatever is not lost arrives at
   once, and it comes to the same cutoff (`Exchange.round_version`). -/
namespace Multiversion

/-- Those of some members that a question reaches. -/
def Network.hearing (net : Network) (names : List Address) : List Address :=
  names.filter fun name => ¬(name ∈ net.down ∨ name ∈ net.deaf)

theorem Network.mem_hearing {net : Network} {names : List Address} {name : Address} :
    name ∈ net.hearing names ↔ name ∈ names ∧ ¬(name ∈ net.down ∨ name ∈ net.deaf) := by
  rw [hearing, List.mem_filter, decide_eq_true_iff]

namespace World

variable {net : Network}

/-- What a member would answer in a round of view collection. -/
def poll? (w : World) (name : Address) : Option Poll :=
  (w.sessions.get? name).bind fun s =>
    match s.member.localMinimumView with
    | .ok view => some ⟨view, s.applied⟩
    | .error _ => none

theorem reply?_view (w : World) (net : Network) (name : Address) : w.reply? net .view name =
    if name ∈ net.down ∨ name ∈ net.deaf then
      none else (w.poll? name).map fun p => .view p.view := by
  rw [reply?, poll?]
  split
  · rfl
  · cases hs : w.sessions.get? name with
    | none => rfl
    | some s =>
      cases hview : s.member.localMinimumView <;> simp [hview, Goal.question, Member.handle]

/-- A round of version collection comes to collections on some of the members. -/
theorem round_version (w : World) (hnet : net.replies = .empty) (name self : Address) :
    ∃ actions : List Action, (∀ a ∈ actions, ∃ member cutoff, a =
      .act member (.collectBefore cutoff)) ∧
      ((w.clusterOver net).round .version name self).cluster = (w.run actions).clusterOver net := by
  rcases round_cases w hnet .version name self with ⟨-, hround⟩ |
      ⟨s, own, cutoff, -, -, -, -, hround⟩
  · exact ⟨[], by simp, hround⟩
  · refine ⟨.act name (.collectBefore cutoff) :: _, ?_, hround⟩
    intro a ha
    rcases List.mem_cons.1 ha with rfl | ha
    · exact ⟨name, cutoff, rfl⟩
    · obtain ⟨member, -, rfl⟩ := List.mem_map.1 ha
      exact ⟨member, cutoff, rfl⟩

end World

/-- The round that a move belongs to. -/
def Move.round? : Move → Option Nat
  | .act _ => none
  | .ask n _ _ => some n
  | .answer n _ => some n
  | .conclude n => some n
  | .tell n _ => some n

/-- The moves of a round in which what does not get lost comes back at once. -/
def Network.roundMoves (net : Network) (n : Nat) (name : Address) (others : List Address) :
    List Move :=
  .ask n name others :: ((net.hearing others).map (.answer n) ++
    .conclude n :: (name :: net.reached others).map (.tell n))

namespace Gathering

variable {g : Gathering} {n : Nat} {r : ViewRound}

theorem get?_setRound (g : Gathering) (n : Nat) (r : ViewRound) :
    (g.setRound n r).rounds.get? n = some r := by
  rw [setRound, OrderedMap.get?_insert, if_pos rfl]

theorem step_answer (hr : g.rounds.get? n = some r) (hopen : r.cutoff = none) {name : Address}
    (hname : name ∈ r.asked) :
    g.step (.answer n name) =
      match g.world.poll? name with
      | some p => g.setRound n { r with answers := r.answers.insert name p }
      | none => g := by
  cases hs : g.world.sessions.get? name with
  | none => simp [step, hr, hs, World.poll?]
  | some s =>
    cases hview : s.member.localMinimumView <;>
      simp [step, hr, hs, hview, World.poll?, Member.handle, hname, hopen]

theorem exists_answers_step (hr : g.rounds.get? n = some r) (hopen : r.cutoff = none)
    {name : Address} (hname : name ∈ r.asked) :
    ∃ answers, (g.step (.answer n name)).world = g.world ∧
      (g.step (.answer n name)).rounds.get? n = some { r with answers } ∧
      ∀ other, answers.get? other =
        if other = name then
          (g.world.poll? name).or (r.answers.get? name) else r.answers.get? other := by
  have hstep := step_answer hr hopen hname
  cases hpoll : g.world.poll? name with
  | none =>
    rw [hpoll] at hstep
    rw [hstep]
    refine ⟨r.answers, rfl, hr, ?_⟩
    intro other
    split
    · next heq => rw [heq, Option.none_or]
    · rfl
  | some p =>
    rw [hpoll] at hstep
    rw [hstep]
    refine ⟨r.answers.insert name p, rfl, get?_setRound g n _, ?_⟩
    intro other
    rw [OrderedMap.get?_insert, Option.some_or]

theorem run_answers (hr : g.rounds.get? n = some r) (hopen : r.cutoff = none) {names : List Address}
    (hnames : ∀ name ∈ names, name ∈ r.asked) :
    ∃ answers, (g.run (names.map (.answer n))).world = g.world ∧
      (g.run (names.map (.answer n))).rounds.get? n = some { r with answers } ∧
      ∀ name, answers.get? name =
        if name ∈ names then
          (g.world.poll? name).or (r.answers.get? name) else r.answers.get? name := by
  induction names generalizing g r with
  | nil => exact ⟨r.answers, rfl, hr, fun name => by simp⟩
  | cons name rest ih =>
    obtain ⟨hname, hrest⟩ := List.forall_mem_cons.1 hnames
    obtain ⟨answers₁, hworld₁, hround₁, hget₁⟩ := exists_answers_step hr hopen hname
    obtain ⟨answers, hworld, hround, hget⟩ := ih hround₁ hopen hrest
    rw [hworld₁] at hworld hget
    rw [List.map_cons, run, List.foldl_cons]
    refine ⟨answers, hworld, hround, ?_⟩
    intro other
    rw [hget, hget₁]
    by_cases heq : other = name
    · subst heq
      cases g.world.poll? other <;> simp
    · simp [heq]

theorem run_tells (hr : g.rounds.get? n = some r) {cutoff : Nat} (hcutoff : r.cutoff = some cutoff)
    (names : List Address) : (g.run (names.map (.tell n))).world =
      g.world.run (names.map fun name => .act name (.forget cutoff)) := by
  induction names generalizing g with
  | nil => rfl
  | cons name rest ih =>
    have hstep : g.step (.tell n name) =
        { g with world := g.world.step (.act name (.forget cutoff)) } := by
      simp [step, hr, hcutoff]
    rw [List.map_cons, run, List.foldl_cons, hstep]
    exact ih hr

theorem run_append (g : Gathering) (moves moves' : List Move) :
    g.run (moves ++ moves') = (g.run moves).run moves' :=
  List.foldl_append

/-- The members that were asked, have answered if they could, and are told of the cutoff, forget
views. -/
theorem run_asked {net : Network} (hr : g.rounds.get? n = some r) (hopen : r.cutoff = none)
    (hnew : r.answers = .empty) {cutoff : Nat}
    (hcutoff : Goal.view.cutoff? r.own.view (r.asked.map (g.world.reply? net .view)) = some cutoff)
    (told : List Address) :
    (g.run ((net.hearing r.asked).map (.answer n) ++ .conclude n :: told.map (.tell n))).world =
      g.world.run (told.map fun name => .act name (.forget cutoff)) := by
  obtain ⟨answers, hworld, hround, hget⟩ := run_answers hr hopen
    fun name (hname : name ∈ net.hearing r.asked) => (Network.mem_hearing.1 hname).1
  -- What has come back is what the members have sent.
  have hreplies : ({ r with answers } : ViewRound).replies =
      r.asked.map (g.world.reply? net .view) := by
    apply List.map_congr_left
    intro name hname
    have hname : name ∈ r.asked := hname
    rw [World.reply?_view, hget, hnew, OrderedMap.get?_empty, Option.or_none]
    by_cases hlost : name ∈ net.down ∨ name ∈ net.deaf
    · rw [if_pos hlost, if_neg fun h => (Network.mem_hearing.1 h).2 hlost, Option.map_none]
    · rw [if_neg hlost, if_pos (Network.mem_hearing.2 ⟨hname, hlost⟩)]
  have hconclude : ({ r with answers } : ViewRound).conclude.cutoff = some cutoff := by
    rw [ViewRound.conclude, hreplies]
    exact hcutoff
  rw [run_append]
  generalize g.run ((net.hearing r.asked).map (.answer n)) = g' at hworld hround
  have hstep : g'.step (.conclude n) = g'.setRound n ({ r with answers } : ViewRound).conclude := by
    simp [step, hround, hopen]
  rw [run, List.foldl_cons, hstep]
  exact (run_tells (get?_setRound g' n _) hconclude told).trans (congrArg (World.run · _) hworld)

theorem run_roundMoves {net : Network} (hn : g.rounds.get? n = none) {name : Address} {s : Session}
    (hs : g.world.sessions.get? name = some s) {own cutoff : Nat}
    (hown : s.member.localMinimumView = .ok own) {others : List Address}
    (hcutoff : Goal.view.cutoff? own (others.map (g.world.reply? net .view)) = some cutoff) :
    (g.run (net.roundMoves n name others)).world =
      (g.world.step (.act name (.forget cutoff))).ordered net .view cutoff others := by
  have hstep : g.step (.ask n name others) =
      g.setRound n { coordinator := name, own := ⟨own, s.applied⟩, asked := others } := by
    simp [step, hn, hs, Goal.ownMinimum, hown]
  rw [Network.roundMoves, run, List.foldl_cons, hstep]
  exact run_asked (get?_setRound g n _) rfl rfl hcutoff (name :: net.reached others)

/-- A round of view collection comes to the moves of a round of its own. -/
theorem round_view {net : Network} (hnet : net.replies = .empty) (hn : g.rounds.get? n = none)
    (name self : Address) :
    ∃ moves : List Move, (∀ move ∈ moves, move.round? = some n) ∧
      ((g.world.clusterOver net).round .view name self).cluster =
        (g.run moves).world.clusterOver net := by
  rcases g.world.round_cases hnet .view name self with ⟨-, hround⟩ |
      ⟨s, own, cutoff, hs, hown, hcutoff, -, hround⟩
  · exact ⟨[], by simp, hround⟩
  · refine ⟨net.roundMoves n name ((g.world.clusterOver net).addresses.filter (· ≠ self)), ?_, ?_⟩
    · intro move hmove
      simp only [Network.roundMoves, List.mem_cons, List.mem_append, List.mem_map] at hmove
      rcases hmove with rfl | ⟨_, -, rfl⟩ | rfl | ⟨_, -, rfl⟩ <;> rfl
    · rw [hround, run_roundMoves hn hs hown hcutoff]
      rfl

theorem rounds_step {move : Move} {k : Nat} (hmove : move.round? ≠ some k) :
    (g.step move).rounds.get? k = g.rounds.get? k := by
  have hset : ∀ n r, n ≠ k → (g.setRound n r).rounds.get? k = g.rounds.get? k := by
    intro n r hne
    rw [setRound, OrderedMap.get?_insert, if_neg hne.symm]
  have hne : ∀ n, move.round? = some n → n ≠ k := fun n hn heq => hmove (heq ▸ hn)
  cases move with
  | act action =>
    rw [step]
    split <;> rfl
  | ask n name asked =>
    rw [step]
    split
    · split
      · exact hset n _ (hne n rfl)
      · rfl
    · rfl
  | answer n name =>
    rw [step]
    split
    · split
      · split
        · exact hset n _ (hne n rfl)
        · rfl
      · rfl
    · rfl
  | conclude n =>
    rw [step]
    split
    · split
      · exact hset n _ (hne n rfl)
      · rfl
    · rfl
  | tell n name =>
    rw [step]
    split <;> rfl

theorem rounds_run {moves : List Move} {k : Nat} (hmoves : ∀ move ∈ moves, move.round? ≠ some k) :
    (g.run moves).rounds.get? k = g.rounds.get? k := by
  induction moves generalizing g with
  | nil => rfl
  | cons move rest ih =>
    obtain ⟨hmove, hrest⟩ := List.forall_mem_cons.1 hmoves
    exact (ih hrest).trans (rounds_step hmove)

theorem run_acts {actions : List Action} (hactions : ∀ a ∈ actions, a.keepsViews = true) :
    g.run (actions.map .act) = { g with world := g.world.run actions } := by
  induction actions generalizing g with
  | nil => rfl
  | cons action rest ih =>
    obtain ⟨haction, hrest⟩ := List.forall_mem_cons.1 hactions
    have hstep : g.step (.act action) = { g with world := g.world.step action } := by
      rw [step, if_pos haction]
    rw [List.map_cons, run, List.foldl_cons, hstep]
    exact ih hrest

/-- Any number of rounds that a cluster runs is a run of moves. -/
theorem rounds_eq_run {net : Network} (hnet : net.replies = .empty) (name self : Address)
    (times : Nat) (hfresh : ∀ k, n ≤ k → g.rounds.get? k = none) :
    ∃ moves : List Move,
      ((g.world.clusterOver net).rounds name self times).2 =
        (g.run moves).world.clusterOver net := by
  induction times generalizing g n with
  | zero => exact ⟨[], rfl⟩
  | succ times ih =>
    obtain ⟨actions, hactions, hversions⟩ := g.world.round_version hnet name self
    have hacts : g.run (actions.map .act) = { g with world := g.world.run actions } := by
      apply run_acts
      intro a ha
      obtain ⟨member, cutoff, rfl⟩ := hactions a ha
      rfl
    have hunused : ∀ k, n ≤ k → (g.run (actions.map .act)).rounds.get? k = none := by
      rw [hacts]
      exact hfresh
    obtain ⟨moves, hmoves, hviews⟩ := round_view hnet (hunused n (Nat.le_refl n)) name self
    have hunused' : ∀ k, n + 1 ≤ k →
        ((g.run (actions.map .act)).run moves).rounds.get? k = none := by
      intro k hk
      rw [rounds_run, hunused k (Nat.le_of_lt hk)]
      intro move hmove heq
      exact Nat.ne_of_lt hk (Option.some.inj ((hmoves move hmove).symm.trans heq))
    obtain ⟨moves', hrest⟩ := ih hunused'
    refine ⟨actions.map .act ++ (moves ++ moves'), ?_⟩
    rw [run_append, run_append, ← hrest, ← hviews, hacts]
    simp only [Cluster.rounds, hversions]

end Gathering

namespace World

variable {w : World} {net : Network}

/-- What a member would answer in a round of version collection. -/
def need? (w : World) (name : Address) : Option Int64 :=
  (w.sessions.get? name).bind fun s =>
    match s.member.minimumValue with
    | .ok value => some value
    | .error _ => none

theorem reply?_version (w : World) (net : Network) (name : Address) : w.reply? net .version name =
    if name ∈ net.down ∨ name ∈ net.deaf then none else (w.need? name).map .version := by
  rw [reply?, need?]
  split
  · rfl
  · cases hs : w.sessions.get? name with
    | none => rfl
    | some s =>
      cases hvalue : s.member.minimumValue <;> simp [hvalue, Goal.question, Member.handle]

/-- A coordinator of a round that comes to a cutoff has come to it from what was replied, and has
carried it out. -/
theorem exists_conclude_of_round (hnet : net.replies = .empty) {goal : Goal} {name self : Address}
    {cutoff : goal.Measure}
    (hround : ((w.clusterOver net).round goal name self).cutoff = .ok (some cutoff)) {s : Session}
    (hs : w.sessions.get? name = some s) {own : goal.Measure}
    (hown : goal.ownMinimum s.member = .ok own) :
    ∃ m, s.member.conclude goal own
      (((w.clusterOver net).addresses.filter (· ≠ self)).map (w.reply? net goal)) =
        .ok (some cutoff, m) := by
  simp only [Cluster.round, get?_clusterOver, hs, Option.map_some, hown, sendAll_question w hnet]
    at hround
  split at hround
  · cases hround
  · cases hround
  · next c m hconclude =>
    obtain rfl := Option.some.inj (Except.ok.inj hround)
    exact ⟨m, hconclude⟩

end World

namespace Exchange

variable {x : Exchange} {n : Nat} {r : VersionRound} {net : Network}

/-- The deliveries in which a member is asked and what it answers comes back at once. -/
def inquiry (w : World) (n : Nat) (name : Address) : List Move :=
  .deliver (.question n name) ::
    ((w.need? name).map fun value => .deliver (.answer n name value)).toList

theorem step_question {name : Address} (hsent : .question n name ∈ x.sent) :
    x.step (.deliver (.question n name)) =
      match x.world.need? name with
      | some value => x.post [.answer n name value]
      | none => x := by
  rw [step, if_pos hsent, receive, World.need?]
  cases hs : x.world.sessions.get? name with
  | none => rfl
  | some s =>
    cases hvalue : s.member.minimumValue <;> simp [hvalue, Member.handle]

theorem step_answer (hr : x.rounds.get? n = some r) (hopen : r.cutoff = none) {name : Address}
    (hname : name ∈ r.asked) {value : Int64} (hsent : .answer n name value ∈ x.sent) :
    x.step (.deliver (.answer n name value)) =
      x.setRound n { r with heard := r.heard.insert name value } := by
  simp [step, hsent, receive, hr, hname, hopen]

/-- When a member has been asked and has answered, the coordinator has heard it, if it can
answer. -/
theorem run_inquiry (hr : x.rounds.get? n = some r) (hopen : r.cutoff = none) {name : Address}
    (hname : name ∈ r.asked) (hsent : .question n name ∈ x.sent) :
    ∃ heard, (x.run (inquiry x.world n name)).world = x.world ∧
    x.sent <+: (x.run (inquiry x.world n name)).sent ∧
      (x.run (inquiry x.world n name)).rounds.get? n = some { r with heard } ∧
      ∀ other, heard.get? other =
        if other = name then
          (x.world.need? name).or (r.heard.get? name) else r.heard.get? other := by
  have hstep := step_question hsent
  cases hneed : x.world.need? name with
  | none =>
    have hrun : x.run (inquiry x.world n name) = x := by simp [inquiry, run, hstep, hneed]
    rw [hrun]
    refine ⟨r.heard, rfl, List.prefix_rfl, hr, ?_⟩
    intro other
    split
    · next heq => rw [heq, Option.none_or]
    · rfl
  | some value =>
    have hrun : x.run (inquiry x.world n name) =
        (x.post [.answer n name value]).setRound n
          { r with heard := r.heard.insert name value } := by
      have hanswer := step_answer (x := x.post [.answer n name value]) hr hopen hname
        (List.mem_append_right _ (List.mem_singleton.2 rfl))
      simp [inquiry, run, hstep, hneed, hanswer]
    rw [hrun]
    refine ⟨r.heard.insert name value, rfl, List.prefix_append _ _, get?_setRound _ n _, ?_⟩
    intro other
    rw [OrderedMap.get?_insert, Option.some_or]

theorem run_inquiries (hr : x.rounds.get? n = some r) (hopen : r.cutoff = none)
    {names : List Address} (hnames : ∀ name ∈ names, name ∈ r.asked ∧ .question n name ∈ x.sent) :
    ∃ heard, (x.run (names.flatMap (inquiry x.world n))).world = x.world ∧
      (x.run (names.flatMap (inquiry x.world n))).rounds.get? n = some { r with heard } ∧
      ∀ name, heard.get? name =
        if name ∈ names then
          (x.world.need? name).or (r.heard.get? name) else r.heard.get? name := by
  induction names generalizing x r with
  | nil => exact ⟨r.heard, rfl, hr, fun name => by simp⟩
  | cons name rest ih =>
    obtain ⟨⟨hname, hsent⟩, hrest⟩ := List.forall_mem_cons.1 hnames
    obtain ⟨heard₁, hworld₁, hsent₁, hround₁, hget₁⟩ := run_inquiry hr hopen hname hsent
    obtain ⟨heard, hworld, hround, hget⟩ :=
      ih hround₁ hopen fun other hother => ⟨(hrest other hother).1,
        hsent₁.subset (hrest other hother).2⟩
    rw [hworld₁] at hworld hround hget
    rw [List.flatMap_cons, run, List.foldl_append]
    refine ⟨heard, hworld, hround, ?_⟩
    intro other
    rw [hget, hget₁]
    by_cases heq : other = name
    · subst heq
      cases x.world.need? other <;> simp
    · simp [heq]

theorem run_orders {cutoff : Int64} {names : List Address}
    (hnames : ∀ name ∈ names, .order n name cutoff ∈ x.sent) :
    x.run (names.map fun name => .deliver (.order n name cutoff)) =
      { x with
        world := x.world.run (names.map fun name => .act name (.collectBefore cutoff)) } := by
  induction names generalizing x with
  | nil => rfl
  | cons name rest ih =>
    obtain ⟨hname, hrest⟩ := List.forall_mem_cons.1 hnames
    have hstep : x.step (.deliver (.order n name cutoff)) =
        x.act (.act name (.collectBefore cutoff)) := by
      rw [step, if_pos hname, receive]
    rw [List.map_cons, run, List.foldl_cons, hstep]
    exact ih hrest

/-- A coordinator that stops waiting, and comes to a cutoff, carries it out and sends its orders. -/
theorem step_conclude (hr : x.rounds.get? n = some r) (hopen : r.cutoff = none) {s : Session}
    (hs : x.world.sessions.get? r.coordinator = some s) {cutoff : Int64} {m : Member}
    (hconclude : s.member.conclude .version r.own r.replies = .ok (some cutoff, m))
    (told : List Address) :
    x.step (.conclude n told) =
      ((x.setRound n { r with cutoff := some cutoff }).post (told.map (.order n · cutoff))).act
        (.act r.coordinator (.collectBefore cutoff)) := by
  simp only [step, hr, hs, if_pos hopen, conclude, hconclude]

theorem run_append (x : Exchange) (moves moves' : List Move) :
    x.run (moves ++ moves') = (x.run moves).run moves' :=
  List.foldl_append

/-- If the coordinator has heard just those that its question reaches and that can answer, then it
has heard all that is replied. -/
theorem replies_heard {w : World} {heard : OrderedMap Address Int64}
    (hheard : ∀ name, heard.get? name = if name ∈ net.hearing r.asked then w.need? name else none) :
    ({ r with heard } : VersionRound).replies = r.asked.map (w.reply? net .version) := by
  apply List.map_congr_left
  intro name hname
  have hname : name ∈ r.asked := hname
  rw [World.reply?_version, hheard]
  by_cases hlost : name ∈ net.down ∨ name ∈ net.deaf
  · rw [if_pos hlost, if_neg fun h => (Network.mem_hearing.1 h).2 hlost, Option.map_none]
  · rw [if_neg hlost, if_pos (Network.mem_hearing.2 ⟨hname, hlost⟩)]

/-- The moves of a round that has been started, if all letters that do not get lost arrive at
once. -/
def restOfRound (net : Network) (w : World) (n : Nat) (others : List Address) (cutoff : Int64) :
    List Move :=
  (net.hearing others).flatMap (inquiry w n) ++
    .conclude n others :: (net.reached others).map fun other => .deliver (.order n other cutoff)

theorem run_restOfRound (hr : x.rounds.get? n = some r) (hopen : r.cutoff = none)
    (hnew : r.heard = .empty) (hasked : ∀ name ∈ r.asked, .question n name ∈ x.sent) {s : Session}
    (hs : x.world.sessions.get? r.coordinator = some s) {cutoff : Int64} {m : Member}
    (hconclude : s.member.conclude .version r.own (r.asked.map (x.world.reply? net .version)) =
      .ok (some cutoff, m)) :
    ∃ heard, (x.run (restOfRound net x.world n r.asked cutoff)).world =
        (x.world.step (.act r.coordinator (.collectBefore cutoff))).ordered net .version
          cutoff r.asked ∧
      (x.run (restOfRound net x.world n r.asked cutoff)).rounds.get? n =
        some { r with heard, cutoff := some cutoff } := by
  obtain ⟨heard, hworld, hround, hheard⟩ :=
    run_inquiries hr hopen fun name (hname : name ∈ net.hearing r.asked) =>
    ⟨(Network.mem_hearing.1 hname).1, hasked name (Network.mem_hearing.1 hname).1⟩
  simp only [hnew, OrderedMap.get?_empty, Option.or_none] at hheard
  rw [← replies_heard hheard] at hconclude
  rw [restOfRound, run_append]
  generalize x.run ((net.hearing r.asked).flatMap (inquiry x.world n)) = y at hworld hround
  have hstep := step_conclude hround hopen (hworld ▸ hs) hconclude r.asked
  have horders : ∀ name ∈ net.reached r.asked, .order n name cutoff ∈
      (y.step (.conclude n r.asked)).sent := by
    intro name hname
    rw [hstep]
    exact List.mem_append_right _ (List.mem_map_of_mem (List.mem_filter.1 hname).1)
  rw [run, List.foldl_cons]
  refine ⟨heard, (congrArg Exchange.world (run_orders horders)).trans ?_,
    (congrArg (·.rounds.get? n) (run_orders horders)).trans ?_⟩
  · rw [hstep]
    exact congrArg (fun w : World =>
      (w.step (.act r.coordinator (.collectBefore cutoff))).ordered net .version cutoff
      r.asked) hworld
  · rw [hstep]
    exact get?_setRound y n _

theorem step_ask (hn : x.rounds.get? n = none) {name : Address} {s : Session}
    (hs : x.world.sessions.get? name = some s) {own : Int64}
    (hown : Goal.ownMinimum s.member .version = .ok own) (asked : List Address) :
    x.step (.ask n name asked) =
      (x.setRound n { coordinator := name, own, asked }).post (asked.map (.question n)) := by
  simp only [step, hn, hs, hown]

/-- A round of version collection over a network that loses some of its letters is a run in which
the others arrive at once, and the round in it comes to the same cutoff. -/
theorem round_version (hnet : net.replies = .empty) (hn : x.rounds.get? n = none)
    (name self : Address) :
    ∃ moves : List Move,
      ((x.world.clusterOver net).round .version name self).cluster =
        (x.run moves).world.clusterOver net ∧
      ∀ cutoff, ((x.world.clusterOver net).round .version name self).cutoff = .ok (some cutoff) →
        ∃ r, (x.run moves).rounds.get? n = some r ∧ r.coordinator = name ∧
        r.cutoff = some cutoff := by
  rcases x.world.round_cases hnet .version name self with
    ⟨hnone, hround⟩ | ⟨s, own, cutoff, hs, hown, -, hcutoff, hround⟩
  · exact ⟨[], hround, fun cutoff hcutoff => absurd hcutoff (hnone cutoff)⟩
  · obtain ⟨m, hconclude⟩ := World.exists_conclude_of_round hnet hcutoff hs hown
    generalize (x.world.clusterOver net).addresses.filter (· ≠ self) = others at hconclude hround
    have hstep := step_ask hn hs hown others
    have hasked : ∀ other ∈ others, .question n other ∈ (x.step (.ask n name others)).sent := by
      intro other hother
      rw [hstep]
      exact List.mem_append_right _ (List.mem_map_of_mem hother)
    have hstarted : (x.step (.ask n name others)).rounds.get? n =
        some { coordinator := name, own, asked := others } :=
      hstep ▸ get?_setRound x n _
    have hworld : (x.step (.ask n name others)).world = x.world := hstep ▸ rfl
    obtain ⟨heard, hafter, hconcluded⟩ :=
      run_restOfRound hstarted rfl rfl hasked (hworld ▸ hs) (hworld ▸ hconclude)
    rw [hworld] at hafter hconcluded
    refine ⟨.ask n name others :: restOfRound net x.world n others cutoff, ?_, ?_⟩
    · exact hround.trans (congrArg (World.clusterOver · net) hafter.symm)
    · intro cutoff' hcutoff'
      obtain rfl := Option.some.inj (Except.ok.inj (hcutoff.symm.trans hcutoff'))
      exact ⟨_, hconcluded, rfl, rfl⟩

end Exchange
end Multiversion
