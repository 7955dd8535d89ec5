import Multiversion.Proofs.ReferredViews
import Multiversion.Proofs.VersionRound
/- Rounds of view collection, message by message.

   A coordinator asks the others for the oldest view that they still need. Answers come back at any
   time or never, and when it has waited long enough the coordinator takes the least of what it has
   got. Members are told to forget older views at any time later, also those that have not answered,
   and in between everybody goes on applying commits and running transactions (`Gathering`).
   `Cluster.round`, which does all of it in one go, comes to such moves (`Gathering.rounds_eq_run`).

   A member that is told may still refer to an older view. It then forgets that view all the same,
   and it is the only way in which a view that is referred to is ever forgotten
   (`Gathering.views_known_or_overruled`). A member that was asked and whose answer counts is safe
   from it, unless it has applied a commit of such an old view since. -/
namespace Multiversion

/-- What a member answered that it still needs, and what it had applied by then. -/
structure Poll where
  view : Nat
  applied : List Commit

/-- A round of view collection. -/
structure ViewRound where
  coordinator : Address
  own : Poll
  /-- The members that were asked. -/
  asked : List Address
  /-- The answers that have come back. -/
  answers : OrderedMap Address Poll := .empty
  /-- What the members are told; none as long as the coordinator waits. -/
  cutoff : Option Nat := none

/-- What has come back from those that were asked. -/
def ViewRound.replies (r : ViewRound) : List (Option Reply) :=
  r.asked.map fun name => (r.answers.get? name).map fun p => .view p.view

/-- What the coordinator makes of it. -/
def ViewRound.conclude (r : ViewRound) : ViewRound :=
  { r with cutoff := Goal.view.cutoff? r.own.view r.replies }

/-- What a member has answered that counts in the round. -/
def ViewRound.poll? (r : ViewRound) (name : Address) : Option Poll :=
  if name = r.coordinator then some r.own else r.answers.get? name

/-- A world in which rounds of view collection are under way, by number. -/
structure Gathering where
  world : World
  rounds : OrderedMap Nat ViewRound := .empty

/-- What may happen. -/
inductive Move
  /-- Something happens on the members that has nothing to do with rounds; they do not forget views
  on their own. -/
  | act (action : Action)
  /-- A member starts a round and asks others. -/
  | ask (n : Nat) (coordinator : Address) (asked : List Address)
  /-- A member answers, and its answer will come back in time. An answer that is lost changes
  nothing. -/
  | answer (n : Nat) (name : Address)
  /-- The coordinator does not wait any longer. -/
  | conclude (n : Nat)
  /-- A member is told to forget views; the coordinator is one of those that are. -/
  | tell (n : Nat) (name : Address)

/-- Whether an action leaves all views known. -/
def Action.keepsViews : Action → Bool
  | .act _ event => event.keepsViews
  | .fetch .. => true

namespace Gathering

def start (settings : Settings) (view : View) (owns : Address → Key → Bool) : Gathering :=
  { world := .start settings view owns }

def setRound (g : Gathering) (n : Nat) (r : ViewRound) : Gathering :=
  { g with rounds := g.rounds.insert n r }

def step (g : Gathering) : Move → Gathering
  | .act action => if action.keepsViews then { g with world := g.world.step action } else g
  | .ask n name asked =>
    match g.rounds.get? n, g.world.sessions.get? name with
    | none, some s =>
      match Goal.ownMinimum s.member .view with
      | .ok view => g.setRound n { coordinator := name, own := ⟨view, s.applied⟩, asked }
      | .error _ => g
    | _, _ => g
  | .answer n name =>
    match g.rounds.get? n, g.world.sessions.get? name with
    | some r, some s =>
      match s.member.handle .getView with
      | .ok (.view view, _) =>
        if name ∈ r.asked ∧ r.cutoff = none then
          g.setRound n { r with answers := r.answers.insert name ⟨view, s.applied⟩ }
        else g
      | _ => g
    | _, _ => g
  | .conclude n =>
    match g.rounds.get? n with
    | some r => if r.cutoff = none then g.setRound n r.conclude else g
    | none => g
  | .tell n name =>
    match (g.rounds.get? n).bind (·.cutoff) with
    | some cutoff => { g with world := g.world.step (.act name (.forget cutoff)) }
    | none => g

def run (g : Gathering) (moves : List Move) : Gathering := moves.foldl step g

end Gathering

/-- A poll covers what has become of its member: the views that the member refers to are not older
than what it answered, except for those of commits that it has applied since. -/
structure Poll.Covers (p : Poll) (s : Session) : Prop where
  view_le : p.view ≤ s.member.issuer.currentView
  refersTo : ∃ since, s.applied = p.applied ++ since ∧
    ∀ id, s.member.RefersTo id → p.view ≤ id ∨ ∃ c ∈ since, c.stamp.view? = some id

theorem Poll.Covers.advance {p : Poll} {s s' : Session} (h : p.Covers s) (hs : s.Advances s') :
    p.Covers s' := by
  obtain ⟨since, happlied, hrefers⟩ := h.refersTo
  obtain ⟨added, happlied', hrefers'⟩ := hs.refersTo
  refine ⟨Nat.le_trans h.view_le hs.currentView_le, since ++ added, ?_, ?_⟩
  · rw [happlied', happlied, List.append_assoc]
  · intro id href
    rcases hrefers' id href with href | ⟨-, rfl | ⟨c, hc, hid⟩⟩
    · rcases hrefers id href with hle | ⟨c, hc, hid⟩
      · exact .inl hle
      · exact .inr ⟨c, List.mem_append_left _ hc, hid⟩
    · exact .inl h.view_le
    · exact .inr ⟨c, List.mem_append_right _ hc, hid⟩

/-- What holds of a round: only members that were asked have answered, what counts covers its
member, and the cutoff is not beyond any of it. -/
structure ViewRound.Sound (r : ViewRound) (w : World) : Prop where
  asked : ∀ name p, r.answers.get? name = some p → name ∈ r.asked
  covered : ∀ name p s, r.poll? name = some p → w.sessions.get? name = some s → p.Covers s
  cutoff_le : ∀ cutoff, r.cutoff = some cutoff → ∀ name p, r.poll? name = some p → cutoff ≤ p.view

/-- Every member has acted, or has stayed as it is. -/
def World.Advances (w w' : World) : Prop :=
  ∀ name s', w'.sessions.get? name = some s' → ∃ s, w.sessions.get? name = some s ∧ s.Advances s'

namespace World

variable {w : World} {seed : Entry}

theorem advances_step (hw : w.Sound seed) (action : Action) : w.Advances (w.step action) := by
  intro name s' hs'
  obtain ⟨s, hs, ⟨event, -, rfl⟩ | ⟨hmember, happlied⟩⟩ := step_cases hs'
  · obtain ⟨rs, hsound⟩ := hw name s hs
    exact ⟨s, hs, Session.advances_step hsound event⟩
  · exact ⟨s, hs, .of_eq hmember happlied⟩

theorem knows_step (hw : w.Sound seed) {action : Action} (haction : action.keepsViews = true)
    {name : Address} (h : ∀ s, w.sessions.get? name = some s → s.member.KnowsReferred)
    {s' : Session} (hs' : (w.step action).sessions.get? name = some s') :
    s'.member.KnowsReferred := by
  obtain ⟨s, hs, ⟨event, rfl, rfl⟩ | ⟨hmember, -⟩⟩ := step_cases hs'
  · obtain ⟨rs, hsound⟩ := hw name s hs
    exact Session.knowsReferred_step hsound haction (h s hs)
  · exact hmember ▸ h s hs

end World

namespace ViewRound

variable {r : ViewRound} {w w' : World}

theorem Sound.advance (h : r.Sound w) (hw : w.Advances w') : r.Sound w' where
  asked := h.asked
  covered name p s' hp hs' := by
    obtain ⟨s, hs, hadvances⟩ := hw name s' hs'
    exact (h.covered name p s hp hs).advance hadvances
  cutoff_le := h.cutoff_le

theorem Sound.start {name : Address} {own : Poll} (hown : ∀ s, w.sessions.get? name =
    some s → own.Covers s)
    (asked : List Address) : ({ coordinator := name, own, asked } : ViewRound).Sound w where
  asked _ _ hp := nomatch hp
  covered other p s hp hs := by
    rw [poll?] at hp
    split at hp
    · next heq =>
      obtain rfl : other = name := heq
      exact Option.some.inj hp ▸ hown s hs
    · cases hp
  cutoff_le _ hcutoff := nomatch hcutoff

theorem Sound.answer (h : r.Sound w) {name : Address} (hname : name ∈ r.asked)
    (hopen : r.cutoff = none) {p : Poll} (hp : ∀ s, w.sessions.get? name = some s → p.Covers s) :
    ({ r with answers := r.answers.insert name p } : ViewRound).Sound w where
  asked other p' hp' := by
    rw [OrderedMap.get?_insert] at hp'
    split at hp'
    · next heq => exact heq ▸ hname
    · exact h.asked other p' hp'
  covered other p' s hp' hs := by
    rw [poll?] at hp'
    split at hp'
    · next heq => exact h.covered other p' s (by rw [poll?, if_pos heq]; exact hp') hs
    · next hne =>
      rw [OrderedMap.get?_insert] at hp'
      split at hp'
      · next heq =>
        subst heq
        exact Option.some.inj hp' ▸ hp s hs
      · exact h.covered other p' s (by rw [poll?, if_neg hne]; exact hp') hs
  cutoff_le cutoff hcutoff := by
    rw [show ({ r with answers := r.answers.insert name p } : ViewRound).cutoff = none from hopen]
      at hcutoff
    cases hcutoff

theorem Sound.conclude (h : r.Sound w) : r.conclude.Sound w where
  asked := h.asked
  covered := h.covered
  cutoff_le cutoff hcutoff name p hp := by
    have hcutoff : Goal.view.cutoff? r.own.view r.replies = some cutoff := hcutoff
    obtain ⟨hown, hall⟩ := cutoff?_le hcutoff
    rw [poll?] at hp
    split at hp
    · exact Option.some.inj hp ▸ hown
    · have hreply : some (Reply.view p.view) ∈ r.replies := by
        refine List.mem_map.2 ⟨name, h.asked name p hp, ?_⟩
        rw [show r.answers.get? name = some p from hp]
        rfl
      exact hall p.view (List.mem_map.2 ⟨_, hreply, rfl⟩)

end ViewRound

namespace Gathering

variable {g : Gathering} {seed : Entry}

/-- What holds whatever happens, also when views are forgotten that are still referred to. -/
structure Sound (g : Gathering) (seed : Entry) : Prop where
  world : g.world.Sound seed
  /-- No member refers to a view that is newer than its current one. -/
  referred_le : ∀ name s, g.world.sessions.get? name = some s →
    ∀ id, s.member.RefersTo id → id ≤ s.member.issuer.currentView
  rounds : ∀ n r, g.rounds.get? n = some r → r.Sound g.world

theorem Sound.covers (h : g.Sound seed) {name : Address} {s : Session}
    (hs : g.world.sessions.get? name = some s) {view : Nat}
    (hview : s.member.localMinimumView = .ok view) :
    ∀ t, g.world.sessions.get? name = some t → (⟨view, s.applied⟩ : Poll).Covers t := by
  intro t ht
  obtain rfl : s = t := Option.some.inj (hs.symm.trans ht)
  obtain ⟨rs, hsound⟩ := h.world name s hs
  obtain ⟨c, hlatest, -⟩ := hsound.faithful.latest
  have href := Member.RefersTo.latest hlatest
  refine ⟨?_, [], (List.append_nil _).symm,
    fun id href => .inl (hsound.faithful.localMinimumView_le hview href)⟩
  exact Nat.le_trans (hsound.faithful.localMinimumView_le hview href)
    (h.referred_le name s hs _ href)

theorem Sound.act (h : g.Sound seed) (action : Action) :
    Sound { g with world := g.world.step action } seed where
  world := h.world.step action
  referred_le name s' hs' id href := by
    obtain ⟨s, hs, hadvances⟩ := World.advances_step h.world action name s' hs'
    exact hadvances.referred_le (h.referred_le name s hs) id href
  rounds n r hr := (h.rounds n r hr).advance (World.advances_step h.world action)

theorem Sound.setRound (h : g.Sound seed) (n : Nat) {r : ViewRound} (hr : r.Sound g.world) :
    (g.setRound n r).Sound seed where
  world := h.world
  referred_le := h.referred_le
  rounds n' r' hr' := by
    rw [Gathering.setRound, OrderedMap.get?_insert] at hr'
    split at hr'
    · exact Option.some.inj hr' ▸ hr
    · exact h.rounds n' r' hr'

theorem Sound.step (h : g.Sound seed) (move : Move) : (g.step move).Sound seed := by
  cases move with
  | act action =>
    rw [Gathering.step]
    split
    · exact h.act action
    · exact h
  | ask n name asked =>
    rw [Gathering.step]
    split
    · next s _ hs =>
      split
      · next view hview => exact h.setRound n (.start (h.covers hs hview) asked)
      · exact h
    · exact h
  | answer n name =>
    rw [Gathering.step]
    split
    · next r s hr hs =>
      split
      · next view _ hreply =>
        split
        · next hok =>
          simp only [Member.handle, bind_eq_ok, mapError_eq_ok, pure_eq_ok, Except.ok.injEq,
            Prod.mk.injEq, Reply.view.injEq] at hreply
          obtain ⟨_, hview, rfl, -⟩ := hreply
          exact h.setRound n ((h.rounds n r hr).answer hok.1 hok.2 (h.covers hs hview))
        · exact h
      · exact h
    · exact h
  | conclude n =>
    rw [Gathering.step]
    split
    · next r hr =>
      split
      · exact h.setRound n (h.rounds n r hr).conclude
      · exact h
    · exact h
  | tell n name =>
    rw [Gathering.step]
    split
    · exact h.act _
    · exact h

theorem Sound.run (h : g.Sound seed) (moves : List Move) : (g.run moves).Sound seed := by
  induction moves generalizing g with
  | nil => exact h
  | cons move rest ih => exact ih (h.step move)

/-- What a member is told in a round overrules it on a view: it refers to the view, which is older
than the cutoff, and not its current one. -/
structure Overrules (g : Gathering) (n : Nat) (name : Address) (s : Session) (id : Nat) : Prop where
  session : g.world.sessions.get? name = some s
  refersTo : s.member.RefersTo id
  cutoff : ∃ r cutoff, g.rounds.get? n = some r ∧ r.cutoff = some cutoff ∧ id < cutoff
  not_current : id < s.member.issuer.currentView

/-- A move leaves the members as they are, or is something that happens on them, or tells one to
forget views. -/
theorem world_step_cases (g : Gathering) (move : Move) : (g.step move).world = g.world ∨
    (∃ action, action.keepsViews = true ∧ (g.step move).world = g.world.step action) ∨
    ∃ n name r cutoff, move = .tell n name ∧ g.rounds.get? n = some r ∧ r.cutoff = some cutoff ∧
      (g.step move).world = g.world.step (.act name (.forget cutoff)) := by
  cases move with
  | act action =>
    rw [Gathering.step]
    split
    · next hkeeps => exact .inr (.inl ⟨action, hkeeps, rfl⟩)
    · exact .inl rfl
  | ask n name asked =>
    rw [Gathering.step]
    split
    · split <;> exact .inl rfl
    · exact .inl rfl
  | answer n name =>
    rw [Gathering.step]
    split
    · split
      · split <;> exact .inl rfl
      · exact .inl rfl
    · exact .inl rfl
  | conclude n =>
    rw [Gathering.step]
    split
    · split <;> exact .inl rfl
    · exact .inl rfl
  | tell n name =>
    rw [Gathering.step]
    split
    · next cutoff hcutoff =>
      obtain ⟨r, hr, hcutoff⟩ := Option.bind_eq_some_iff.1 hcutoff
      exact .inr (.inr ⟨n, name, r, cutoff, rfl, hr, hcutoff, rfl⟩)
    · exact .inl rfl

/-- A member that is told to forget views goes on knowing those that it refers to, unless it is
overruled. -/
theorem knows_forget {n cutoff : Nat} {name : Address} {s : Session}
    (hs : g.world.sessions.get? name = some s) {r : ViewRound} (hr : g.rounds.get? n = some r)
    (hcutoff : r.cutoff = some cutoff) (hknows : s.member.KnowsReferred) :
    (s.step (.forget cutoff)).member.KnowsReferred ∨ ∃ id, g.Overrules n name s id := by
  by_cases hover : ∃ id, g.Overrules n name s id
  · exact .inr hover
  · left
    intro id href
    have href : s.member.RefersTo id := href.mono (fun _ he => he) rfl fun _ hv => hv
    refine (ViewTable.knows_forget cutoff).2 ⟨hknows id href, ?_⟩
    rcases Nat.lt_or_ge id cutoff with hlt | hge
    · rcases Nat.lt_or_ge id s.member.issuer.currentView with hold | hcurrent
      · exact absurd ⟨id, hs, href, ⟨r, cutoff, hr, hcutoff, hlt⟩, hold⟩ hover
      · exact .inr hcurrent
    · exact .inl hge

theorem knows_step (h : g.Sound seed) {name : Address}
    (hknows : ∀ s, g.world.sessions.get? name = some s → s.member.KnowsReferred) (move : Move) :
    (∀ s', (g.step move).world.sessions.get? name = some s' → s'.member.KnowsReferred) ∨
      ∃ n s id, move = .tell n name ∧ g.Overrules n name s id := by
  rcases world_step_cases g move with
    hworld | ⟨action, haction, hworld⟩ | ⟨n, told, r, cutoff, rfl, hr, hcutoff, hworld⟩
  · rw [hworld]
    exact .inl hknows
  · rw [hworld]
    exact .inl fun s' hs' => World.knows_step h.world haction hknows hs'
  · by_cases hover : ∃ s id, told = name ∧ g.Overrules n name s id
    · obtain ⟨s, id, rfl, hover⟩ := hover
      exact .inr ⟨n, s, id, rfl, hover⟩
    · left
      intro s' hs'
      rw [hworld] at hs'
      obtain ⟨s, hs, ⟨event, hevent, rfl⟩ | ⟨hmember, -⟩⟩ := World.step_cases hs'
      · cases hevent
        rcases knows_forget hs hr hcutoff (hknows s hs) with hknows | ⟨id, hid⟩
        · exact hknows
        · exact absurd ⟨s, id, rfl, hid⟩ hover
      · exact hmember ▸ hknows s hs

theorem knows_run (h : g.Sound seed) {name : Address}
    (hknows : ∀ s, g.world.sessions.get? name = some s → s.member.KnowsReferred)
    (moves : List Move) :
    (∀ s', (g.run moves).world.sessions.get? name = some s' → s'.member.KnowsReferred) ∨
      ∃ before n after s id, moves = before ++ .tell n name :: after ∧
      (g.run before).Overrules n name s id := by
  induction moves generalizing g with
  | nil => exact .inl hknows
  | cons move rest ih =>
    rcases knows_step h hknows move with hknows | ⟨n, s, id, rfl, hover⟩
    · rcases ih (h.step move) hknows with hknows | ⟨before, n, after, s, id, rfl, hover⟩
      · exact .inl hknows
      · exact .inr ⟨move :: before, n, after, s, id, rfl, hover⟩
    · exact .inr ⟨[], n, rest, s, id, rfl, hover⟩

/-- A member that is overruled goes on referring to the view, and does not know it any more. If it
has answered in the round, then it has since applied a commit of that view. -/
theorem Overrules.forgets {n : Nat} {name : Address} {s : Session} {id : Nat}
    (hover : g.Overrules n name s id) (h : g.Sound seed) :
    (∀ r p, g.rounds.get? n = some r → r.poll? name = some p →
      ∃ since, s.applied = p.applied ++ since ∧ ∃ c ∈ since, c.stamp.view? = some id) ∧
    ∃ s', (g.step (.tell n name)).world.sessions.get? name = some s' ∧ s'.member.RefersTo id ∧
      s'.member.issuer.views.knows id = false := by
  obtain ⟨r, cutoff, hr, hcutoff, hlt⟩ := hover.cutoff
  constructor
  · intro r' p hr' hp
    obtain rfl := Option.some.inj (hr.symm.trans hr')
    obtain ⟨since, happlied, hrefers⟩ :=
      ((h.rounds n r hr).covered name p s hp hover.session).refersTo
    have hle := (h.rounds n r hr).cutoff_le cutoff hcutoff name p hp
    rcases hrefers id hover.refersTo with hge | hcommit
    · exact absurd (Nat.lt_of_lt_of_le hlt hle) (Nat.not_lt.2 hge)
    · exact ⟨since, happlied, hcommit⟩
  · refine ⟨s.step (.forget cutoff), ?_,
      hover.refersTo.mono (fun _ he => he) rfl fun _ hv => hv, ?_⟩
    · simp [Gathering.step, hr, hcutoff, World.step, hover.session, OrderedMap.get?_insert]
    · apply Bool.eq_false_iff.2
      intro hknown
      rcases ((ViewTable.knows_forget cutoff).1 hknown).2 with hge | hge
      · exact absurd hlt (Nat.not_lt.2 hge)
      · exact absurd hover.not_current (Nat.not_lt.2 hge)

theorem sound_start {settings : Settings} (hkeeps : settings.keepsHistory = true) (view : View)
    (owns : Address → Key → Bool) :
    (start settings view owns).Sound (settings.seed view) ∧
      ∀ name s, (start settings view owns).world.sessions.get? name = some s →
      s.member.KnowsReferred := by
  have hstart : ∀ name s, (start settings view owns).world.sessions.get? name = some s →
      s = Session.start settings name view (owns name) := by
    intro name s hs
    obtain ⟨_, -, heq⟩ := List.mem_map.1 (OrderedMap.mem_of_get?_ofList hs)
    cases heq
    rfl
  -- A new member refers to the view in which it starts.
  have hrefers : ∀ name id, (Session.start settings name view (owns name)).member.RefersTo id →
      id = view.id := by
    intro name id href
    have hjournal : (Member.create settings name view (owns name)).journal.entries =
        [settings.seed view] := by
      simp only [Member.create, hkeeps, if_true]
      rfl
    rcases (Session.Sound.start hkeeps name view (owns name)).faithful.refersTo_cases href with
      ⟨e, he, rfl⟩ | ⟨v, hv, -⟩
    · obtain rfl := List.mem_singleton.1 (hjournal ▸ he)
      rfl
    · cases hv
  refine ⟨⟨World.sound_start hkeeps view owns, ?_, ?_⟩, ?_⟩
  · intro name s hs id href
    obtain rfl := hstart name s hs
    exact Nat.le_of_eq (hrefers name id href)
  · intro n r hr
    cases hr
  · intro name s hs id href
    obtain rfl := hstart name s hs
    exact hrefers name id href ▸ ViewTable.knows_currentId (.single view)

/-- Take any run of a cluster of members that keep history, with rounds of view collection under way
among everything else that happens, and any member at its end. It knows every view that it refers
to, unless it was overruled on the way, by what it was told in a round. As long as it knows them it
fails to begin a transaction only if it is not in the current view, and refuses no batch for a view
that it refers to. And if it is overruled next, then either no answer of its own counts in that
round, or it has applied a commit of the view since it answered; and it goes on referring to a view
that it does not know any more. -/
theorem views_known_or_overruled {settings : Settings} (hkeeps : settings.keepsHistory = true)
    (view : View) (owns : Address → Key → Bool) (moves : List Move) {g : Gathering}
    (hg : g = (start settings view owns).run moves) {name : Address} {s : Session}
    (hs : g.world.sessions.get? name = some s) :
    (s.member.KnowsReferred ∨ ∃ before n after t id, moves = before ++ .tell n name :: after ∧
      ((start settings view owns).run before).Overrules n name t id) ∧
    (s.member.KnowsReferred →
      (∀ fault, s.member.begin = .error fault →
        fault = .stamp (.unknownMember s.member.issuer.currentView s.member.address)) ∧
      ∀ now batch id, (s.member.applyBatch now batch).1 =
        .error (.journal (.stamp (.unknownView id))) →
        ¬ s.member.RefersTo id) ∧
    ∀ n id, g.Overrules n name s id →
      (∀ r p, g.rounds.get? n = some r → r.poll? name = some p →
        ∃ since, s.applied = p.applied ++ since ∧ ∃ c ∈ since, c.stamp.view? = some id) ∧
      ∃ s', (g.step (.tell n name)).world.sessions.get? name = some s' ∧ s'.member.RefersTo id ∧
        s'.member.issuer.views.knows id = false := by
  obtain ⟨hstart, hknows⟩ := sound_start hkeeps view owns
  have hsound := hstart.run moves
  rw [← hg] at hsound
  obtain ⟨rs, hmember⟩ := hsound.world name s hs
  refine ⟨?_, ?_, fun n id hover => hover.forgets hsound⟩
  · rcases knows_run hstart (hknows name) moves with hknows | hover
    · exact .inl (hknows s (hg ▸ hs))
    · exact .inr hover
  · intro hknows
    refine ⟨fun fault => hmember.faithful.begin_error hknows, ?_⟩
    intro now batch id hrefused href
    have hunknown := hmember.faithful.unknownView_of_applyBatch hrefused
    rw [hknows id href] at hunknown
    cases hunknown

/-- A member has answered that it needs only the second view, and has applied a commit of the first
one since. What it is told then overrules it. -/
theorem views_known_or_overruled_late_commit :
    ∃ (g : Gathering) (s s' : Session),
      g = (start {} ⟨1, ["a", "b"]⟩ fun _ _ => true).run
        [.act (.act "a" (.learn ⟨2, ["a", "b"]⟩)), .act (.act "b" (.learn ⟨2, ["a", "b"]⟩)),
          .act (.act "a" (.apply 0 [.single ⟨.replicated, 2, 1⟩ "k" (some "x")])),
          .act (.act "b" (.apply 0 [.single ⟨.replicated, 2, 1⟩ "k" (some "x")])),
          .act (.act "a" (.collectBefore 1)), .act (.act "b" (.collectBefore 1)),
          .act (.act "a" (.apply 0 [.single ⟨.replicated, 2, 2⟩ "k" (some "y")])),
          .act (.act "b" (.apply 0 [.single ⟨.replicated, 2, 2⟩ "k" (some "y")])),
          .act (.act "a" (.collectBefore 2)), .act (.act "b" (.collectBefore 2)), .ask 0 "a" ["b"],
          .answer 0 "b", .conclude 0, .act
            (.act "b" (.apply 0 [.single ⟨.replicated, 1, 3⟩ "k" (some "z")]))] ∧
      g.world.sessions.get? "b" = some s ∧
      (g.step (.tell 0 "b")).world.sessions.get? "b" = some s' ∧
      s'.member.RefersTo 1 ∧ s'.member.issuer.views.knows 1 = false := by
  obtain ⟨g, s, r, hg, hs, hr, hcutoff, hlatest, hcurrent⟩ :
      ∃ (g : Gathering) (s : Session) (r : ViewRound),
      g = (start {} ⟨1, ["a", "b"]⟩ fun _ _ => true).run
        [.act (.act "a" (.learn ⟨2, ["a", "b"]⟩)), .act (.act "b" (.learn ⟨2, ["a", "b"]⟩)),
          .act (.act "a" (.apply 0 [.single ⟨.replicated, 2, 1⟩ "k" (some "x")])),
          .act (.act "b" (.apply 0 [.single ⟨.replicated, 2, 1⟩ "k" (some "x")])),
          .act (.act "a" (.collectBefore 1)), .act (.act "b" (.collectBefore 1)),
          .act (.act "a" (.apply 0 [.single ⟨.replicated, 2, 2⟩ "k" (some "y")])),
          .act (.act "b" (.apply 0 [.single ⟨.replicated, 2, 2⟩ "k" (some "y")])),
          .act (.act "a" (.collectBefore 2)), .act (.act "b" (.collectBefore 2)), .ask 0 "a" ["b"],
          .answer 0 "b", .conclude 0, .act
            (.act "b" (.apply 0 [.single ⟨.replicated, 1, 3⟩ "k" (some "z")]))] ∧
      g.world.sessions.get? "b" = some s ∧ g.rounds.get? 0 = some r ∧ r.cutoff = some 2 ∧
      s.member.journal.latest = some ⟨.replicated, 1, 3⟩ ∧ s.member.issuer.currentView = 2 :=
    ⟨_, _, _, rfl, rfl, rfl, rfl, rfl, rfl⟩
  have hover : g.Overrules 0 "b" s 1 :=
    ⟨hs, .latest hlatest, ⟨r, 2, hr, hcutoff, by decide⟩, hcurrent ▸ by decide⟩
  obtain ⟨s', hs', href, hunknown⟩ := ((views_known_or_overruled rfl _ _ _ hg hs).2.2 0 1 hover).2
  exact ⟨g, s, s', hg, hs, hs', href, hunknown⟩

/-- The answer of one of three members is lost. The others need only the second view, and it is told
to forget the first one, which is all that it has commits of. It can not begin a transaction any
more, and can not apply what the others have applied. -/
theorem views_forgotten_unanswered :
    ∃ (g : Gathering) (s : Session),
      g = (start {} ⟨1, ["a", "b", "c"]⟩ fun _ _ => true).run
        [.act (.act "a" (.learn ⟨2, ["a", "b", "c"]⟩)),
          .act (.act "b" (.learn ⟨2, ["a", "b", "c"]⟩)),
          .act (.act "c" (.learn ⟨2, ["a", "b", "c"]⟩)),
          .act (.act "a" (.apply 0 [.single ⟨.replicated, 2, 1⟩ "k" (some "x"),
            .single ⟨.replicated, 2, 2⟩ "k" (some "y")])),
          .act (.act "c" (.apply 0 [.single ⟨.replicated, 2, 1⟩ "k" (some "x"),
            .single ⟨.replicated, 2, 2⟩ "k" (some "y")])),
          .act (.act "a" (.collectBefore 2)), .act (.act "c" (.collectBefore 2)),
          .ask 0 "a" ["b", "c"], .answer 0 "c", .conclude 0, .tell 0 "a", .tell 0 "b",
          .tell 0 "c"] ∧
      g.world.sessions.get? "b" = some s ∧ s.member.RefersTo 1 ∧
      s.member.issuer.views.knows 1 = false ∧
      s.member.begin = .error (.journal (.stamp (.unknownView 1))) ∧
      (s.member.applyBatch 0 [.single ⟨.replicated, 2, 1⟩ "k" (some "x"),
        .single ⟨.replicated, 2, 2⟩ "k" (some "y")]).1 =
          .error (.journal (.stamp (.unknownView 1))) := by
  obtain ⟨g, s, hg, hs, hlatest, hunknown, hbegin, hbatch⟩ :
      ∃ (g : Gathering) (s : Session),
        g = (start {} ⟨1, ["a", "b", "c"]⟩ fun _ _ => true).run
          [.act (.act "a" (.learn ⟨2, ["a", "b", "c"]⟩)),
            .act (.act "b" (.learn ⟨2, ["a", "b", "c"]⟩)),
            .act (.act "c" (.learn ⟨2, ["a", "b", "c"]⟩)),
            .act (.act "a" (.apply 0 [.single ⟨.replicated, 2, 1⟩ "k" (some "x"),
              .single ⟨.replicated, 2, 2⟩ "k" (some "y")])),
            .act (.act "c" (.apply 0 [.single ⟨.replicated, 2, 1⟩ "k" (some "x"),
              .single ⟨.replicated, 2, 2⟩ "k" (some "y")])),
            .act (.act "a" (.collectBefore 2)), .act (.act "c" (.collectBefore 2)),
            .ask 0 "a" ["b", "c"], .answer 0 "c", .conclude 0, .tell 0 "a", .tell 0 "b",
            .tell 0 "c"] ∧
        g.world.sessions.get? "b" = some s ∧ s.member.journal.latest = some ⟨.replicated, 1, 0⟩ ∧
        s.member.issuer.views.knows 1 = false ∧
        s.member.begin = .error (.journal (.stamp (.unknownView 1))) ∧
        (s.member.applyBatch 0 [.single ⟨.replicated, 2, 1⟩ "k" (some "x"),
          .single ⟨.replicated, 2, 2⟩ "k" (some "y")]).1 =
            .error (.journal (.stamp (.unknownView 1))) :=
    ⟨_, _, rfl, rfl, rfl, rfl, rfl, rfl⟩
  exact ⟨g, s, hg, hs, .latest hlatest, hunknown, hbegin, hbatch⟩

end Gathering
end Multiversion
