import Multiversion.Proofs.NeededValue
import Multiversion.Proofs.Round
/- Rounds of version collection, letter by letter.

   What members send each other in rounds is a heap of letters (`Exchange.sent`): a letter that was
   sent may arrive at any later time, more than once, or never. A coordinator asks, members answer
   when a question arrives, the coordinator notes the answers that arrive as long as it waits, then
   carries out its own order and sends it to others. In between anything may happen on any member,
   in any order: commits, transactions that begin and end, changes of the view, collections, views
   that are forgotten.

   An answer bounds what its sender needs from then on (`Exchange.Sound.answers`), so the cutoff of
   a round bounds what all members need that count in it, for as long as its orders are under way
   (`Exchange.order_spares`). `Cluster.round`, which does all of it in one go, comes to such moves
   (`Exchange.round_version`). -/
namespace Multiversion

/-- What is sent in rounds of version collection, with the number of the round. -/
inductive Letter
  /-- Asks a member for the oldest commit value that it still needs. -/
  | question (n : Nat) (receiver : Address)
  | answer (n : Nat) (sender : Address) (value : Int64)
  /-- Tells a member to drop the history before a commit value. -/
  | order (n : Nat) (receiver : Address) (cutoff : Int64)
deriving DecidableEq

/-- A round of version collection, as its coordinator sees it. -/
structure VersionRound where
  coordinator : Address
  own : Int64
  asked : List Address
  /-- The answers that have arrived. -/
  heard : OrderedMap Address Int64 := .empty
  /-- What the coordinator has come to; none as long as it waits. -/
  cutoff : Option Int64 := none

namespace VersionRound

/-- What has come back from those that were asked. -/
def replies (r : VersionRound) : List (Option Reply) :=
  r.asked.map fun name => (r.heard.get? name).map .version

/-- The value with which a member counts in the round. -/
def value? (r : VersionRound) (name : Address) : Option Int64 :=
  if name = r.coordinator then some r.own else r.heard.get? name

end VersionRound

/-- A world in which rounds of version collection are under way, by number, and all letters that
were sent in them. -/
structure Exchange where
  world : World
  rounds : OrderedMap Nat VersionRound := .empty
  sent : List Letter := []

namespace Exchange

/-- What may happen. -/
inductive Move
  /-- Something happens on the members that has nothing to do with rounds. -/
  | act (action : Action)
  /-- A member starts a round and asks others. -/
  | ask (n : Nat) (coordinator : Address) (asked : List Address)
  /-- A letter that was sent arrives. -/
  | deliver (letter : Letter)
  /-- The coordinator does not wait any longer. -/
  | conclude (n : Nat) (told : List Address)

def start (settings : Settings) (view : View) (owns : Address → Key → Bool) : Exchange :=
  { world := .start settings view owns }

def act (x : Exchange) (action : Action) : Exchange := { x with world := x.world.step action }

def setRound (x : Exchange) (n : Nat) (r : VersionRound) : Exchange :=
  { x with rounds := x.rounds.insert n r }

def post (x : Exchange) (letters : List Letter) : Exchange := { x with sent := x.sent ++ letters }

/-- What the receiver of a letter does. An answer that arrives when the coordinator no longer waits
is thrown away. -/
def receive (x : Exchange) : Letter → Exchange
  | .question n name =>
    match x.world.sessions.get? name with
    | some s =>
      match s.member.handle .getVersion with
      | .ok (.version value, _) => x.post [.answer n name value]
      | _ => x
    | none => x
  | .answer n name value =>
    match x.rounds.get? n with
    | some r =>
      if name ∈ r.asked ∧ r.cutoff = none then
        x.setRound n { r with heard := r.heard.insert name value } else x
    | none => x
  | .order _ name cutoff => x.act (.act name (.collectBefore cutoff))

/-- What a coordinator does that has stopped waiting: if it comes to a cutoff, and has carried that
out itself, it tells others. -/
def conclude (x : Exchange) (n : Nat) (r : VersionRound) (coordinator : Member)
    (told : List Address) : Exchange :=
  match coordinator.conclude .version r.own r.replies with
  | .ok (some cutoff, _) =>
    ((x.setRound n { r with cutoff := some cutoff }).post (told.map (.order n · cutoff))).act
      (.act r.coordinator (.collectBefore cutoff))
  | _ => x

def step (x : Exchange) : Move → Exchange
  | .act action => x.act action
  | .ask n name asked =>
    match x.rounds.get? n, x.world.sessions.get? name with
    | none, some s =>
      match Goal.ownMinimum s.member .version with
      | .ok own => (x.setRound n { coordinator := name, own, asked }).post (asked.map (.question n))
      | .error _ => x
    | _, _ => x
  | .deliver letter => if letter ∈ x.sent then x.receive letter else x
  | .conclude n told =>
    match x.rounds.get? n with
    | some r =>
      match x.world.sessions.get? r.coordinator with
      | some s => if r.cutoff = none then x.conclude n r s.member told else x
      | none => x
    | none => x

def run (x : Exchange) (moves : List Move) : Exchange := moves.foldl step x

/-- What holds of a round in an exchange: whoever was heard was asked and has sent what was heard,
and the cutoff is what the coordinator makes of it. -/
structure Fits (x : Exchange) (n : Nat) (r : VersionRound) : Prop where
  own : x.world.NeedsFrom r.coordinator r.own
  heard : ∀ name value, r.heard.get? name = some value → name ∈ r.asked ∧
    .answer n name value ∈ x.sent
  cutoff : ∀ cutoff, r.cutoff = some cutoff → Goal.version.cutoff? r.own r.replies = some cutoff

/-- What holds whatever happens. -/
structure Sound (x : Exchange) (seed : Entry) : Prop where
  world : x.world.Sound seed
  answers : ∀ n name value, .answer n name value ∈ x.sent → x.world.NeedsFrom name value
  rounds : ∀ n r, x.rounds.get? n = some r → x.Fits n r
  orders : ∀ n name cutoff, .order n name cutoff ∈ x.sent → ∃ r, x.rounds.get? n = some r ∧
    r.cutoff = some cutoff

variable {x : Exchange} {seed : Entry} {n : Nat} {r : VersionRound}

theorem Fits.act (h : x.Fits n r) (hx : x.Sound seed) (action : Action) :
    (x.act action).Fits n r where
  own := World.needsFrom_step hx.world h.own action
  heard := h.heard
  cutoff := h.cutoff

theorem Fits.post (h : x.Fits n r) (letters : List Letter) : (x.post letters).Fits n r where
  own := h.own
  heard name value hvalue := by
    obtain ⟨hasked, hsent⟩ := h.heard name value hvalue
    exact ⟨hasked, List.mem_append_left letters hsent⟩
  cutoff := h.cutoff

theorem Sound.act (h : x.Sound seed) (action : Action) : (x.act action).Sound seed where
  world := h.world.step action
  answers n name value hsent := World.needsFrom_step h.world (h.answers n name value hsent) action
  rounds n r hr := (h.rounds n r hr).act h action
  orders := h.orders

/-- Letters may be sent that say what is true: answers what their senders need, orders what rounds
have come to. -/
theorem Sound.post (h : x.Sound seed) {letters : List Letter}
    (hanswers : ∀ n name value, .answer n name value ∈ letters → x.world.NeedsFrom name value)
    (horders : ∀ n name cutoff, .order n name cutoff ∈ letters →
      ∃ r, x.rounds.get? n = some r ∧ r.cutoff = some cutoff) : (x.post letters).Sound seed where
  world := h.world
  answers n name value hsent := by
    rcases List.mem_append.1 hsent with hsent | hsent
    · exact h.answers n name value hsent
    · exact hanswers n name value hsent
  rounds n r hr := (h.rounds n r hr).post letters
  orders n name cutoff hsent := by
    rcases List.mem_append.1 hsent with hsent | hsent
    · exact h.orders n name cutoff hsent
    · exact horders n name cutoff hsent

theorem get?_setRound (x : Exchange) (n : Nat) (r : VersionRound) :
    (x.setRound n r).rounds.get? n = some r := by
  rw [setRound, OrderedMap.get?_insert, if_pos rfl]

theorem Sound.setRound (h : x.Sound seed) (hopen : ∀ r₀, x.rounds.get? n = some r₀ →
    r₀.cutoff = none)
    (hr : x.Fits n r) : (x.setRound n r).Sound seed where
  world := h.world
  answers := h.answers
  rounds n' r' hr' := by
    rw [Exchange.setRound, OrderedMap.get?_insert] at hr'
    split at hr'
    · next heq =>
      obtain rfl := Option.some.inj hr'
      subst heq
      exact ⟨hr.own, hr.heard, hr.cutoff⟩
    · have hfits := h.rounds n' r' hr'
      exact ⟨hfits.own, hfits.heard, hfits.cutoff⟩
  orders n' name cutoff hsent := by
    obtain ⟨r₀, hr₀, hcutoff⟩ := h.orders n' name cutoff hsent
    have hne : n' ≠ n := by
      rintro rfl
      simp [hopen r₀ hr₀] at hcutoff
    refine ⟨r₀, ?_, hcutoff⟩
    rw [Exchange.setRound, OrderedMap.get?_insert, if_neg hne]
    exact hr₀

theorem Sound.note (h : x.Sound seed) (hr : x.rounds.get? n = some r) (hopen : r.cutoff = none)
    {name : Address} (hasked : name ∈ r.asked) {value : Int64}
    (hsent : .answer n name value ∈ x.sent) :
    (x.setRound n { r with heard := r.heard.insert name value }).Sound seed := by
  have hfits := h.rounds n r hr
  refine h.setRound ?_ ⟨hfits.own, ?_, ?_⟩
  · intro r₀ hr₀
    exact Option.some.inj (hr.symm.trans hr₀) ▸ hopen
  · intro other v hv
    rw [OrderedMap.get?_insert] at hv
    split at hv
    · next heq =>
      subst heq
      obtain rfl := Option.some.inj hv
      exact ⟨hasked, hsent⟩
    · exact hfits.heard other v hv
  · intro cutoff hcutoff
    cases hopen.symm.trans hcutoff

theorem Sound.receive (h : x.Sound seed) {letter : Letter} (hletter : letter ∈ x.sent) :
    (x.receive letter).Sound seed := by
  cases letter with
  | question n name =>
    rw [Exchange.receive]
    split
    · next s hs =>
      split
      · next value _ hreply =>
        refine h.post ?_ (by simp)
        intro n' name' value' hmem
        cases List.mem_singleton.1 hmem
        exact World.needsFrom_of_minimumValue h.world hs (Member.handle_getVersion_ok hreply)
      · exact h
    · exact h
  | answer n name value =>
    rw [Exchange.receive]
    split
    · next r hr =>
      split
      · next hok => exact h.note hr hok.2 hok.1 hletter
      · exact h
    · exact h
  | order n name cutoff => exact h.act _

theorem Sound.conclude (h : x.Sound seed) (hr : x.rounds.get? n = some r) (hopen : r.cutoff = none)
    (coordinator : Member) (told : List Address) :
    (x.conclude n r coordinator told).Sound seed := by
  rw [Exchange.conclude]
  split
  · next cutoff _ hconclude =>
    obtain ⟨hcutoff, -⟩ := Member.conclude_ok hconclude
    have hfits := h.rounds n r hr
    have hset : (x.setRound n { r with cutoff := some cutoff }).Sound seed := by
      refine h.setRound ?_ ⟨hfits.own, hfits.heard, ?_⟩
      · intro r₀ hr₀
        exact Option.some.inj (hr.symm.trans hr₀) ▸ hopen
      · intro c hc
        obtain rfl := Option.some.inj hc
        exact hcutoff
    refine (hset.post ?_ ?_).act _
    · intro n' name' value' hmem
      obtain ⟨_, -, heq⟩ := List.mem_map.1 hmem
      cases heq
    · intro n' name' cutoff' hmem
      obtain ⟨_, -, heq⟩ := List.mem_map.1 hmem
      cases heq
      exact ⟨_, get?_setRound x n _, rfl⟩
  · exact h

theorem Sound.ask (h : x.Sound seed) (hn : x.rounds.get? n = none) {name : Address} {s : Session}
    (hs : x.world.sessions.get? name = some s) {own : Int64}
    (hown : s.member.minimumValue = .ok own) (asked : List Address) :
    ((x.setRound n { coordinator := name, own, asked }).post
      (asked.map (.question n))).Sound seed := by
  have hset : (x.setRound n { coordinator := name, own, asked }).Sound seed := by
    refine h.setRound ?_ ⟨World.needsFrom_of_minimumValue h.world hs hown, ?_, ?_⟩
    · intro r₀ hr₀
      simp [hn] at hr₀
    · intro _ _ hvalue
      cases hvalue
    · intro _ hcutoff
      cases hcutoff
  refine hset.post ?_ ?_
  · intro n' name' value' hmem
    obtain ⟨_, -, heq⟩ := List.mem_map.1 hmem
    cases heq
  · intro n' name' cutoff' hmem
    obtain ⟨_, -, heq⟩ := List.mem_map.1 hmem
    cases heq

theorem Sound.step (h : x.Sound seed) (move : Move) : (x.step move).Sound seed := by
  cases move with
  | act action => exact h.act action
  | ask n name asked =>
    rw [Exchange.step]
    split
    · next s hn hs =>
      split
      · next own hown => exact h.ask hn hs hown asked
      · exact h
    · exact h
  | deliver letter =>
    rw [Exchange.step]
    split
    · next hletter => exact h.receive hletter
    · exact h
  | conclude n told =>
    rw [Exchange.step]
    split
    · next r hr =>
      split
      · next s hs =>
        split
        · next hopen => exact h.conclude hr hopen s.member told
        · exact h
      · exact h
    · exact h

theorem Sound.run (h : x.Sound seed) (moves : List Move) : (x.run moves).Sound seed := by
  induction moves generalizing x with
  | nil => exact h
  | cons move rest ih => exact ih (h.step move)

theorem sound_start {settings : Settings} (h : settings.keepsHistory = true) (view : View)
    (owns : Address → Key → Bool) :
      (Exchange.start settings view owns).Sound (settings.seed view) where
  world := World.sound_start h view owns
  answers n name value hsent := by simp [Exchange.start] at hsent
  rounds n r hr := by cases hr
  orders n name cutoff hsent := by simp [Exchange.start] at hsent

/-- The cutoff of a round is not beyond what counts in it, and nobody needs anything older than what
they count with. -/
theorem Sound.counts (h : x.Sound seed) (hr : x.rounds.get? n = some r) {cutoff : Int64}
    (hcutoff : r.cutoff = some cutoff) {name : Address} {value : Int64}
    (hvalue : r.value? name = some value) :
    cutoff ≤ value ∧ x.world.NeedsFrom name value := by
  have hfits := h.rounds n r hr
  obtain ⟨hown, hall⟩ := cutoff?_le (hfits.cutoff cutoff hcutoff)
  rw [VersionRound.value?] at hvalue
  split at hvalue
  · next heq =>
    subst heq
    obtain rfl := Option.some.inj hvalue
    exact ⟨hown, hfits.own⟩
  · obtain ⟨hasked, hsent⟩ := hfits.heard name value hvalue
    have hreply : some (Reply.version value) ∈ r.replies :=
      List.mem_map.2 ⟨name, hasked, by rw [hvalue, Option.map_some]⟩
    exact ⟨hall value (List.mem_map.2 ⟨_, hreply, rfl⟩), h.answers n name value hsent⟩

theorem world_step_cases (x : Exchange) (move : Move) :
    (x.step move).world = x.world ∨ ∃ action, (x.step move).world = x.world.step action := by
  cases move with
  | act action => exact .inr ⟨action, rfl⟩
  | ask n name asked =>
    rw [Exchange.step]
    split
    · split <;> exact .inl rfl
    · exact .inl rfl
  | deliver letter =>
    rw [Exchange.step]
    split
    · cases letter with
      | question n name =>
        rw [receive]
        split
        · split <;> exact .inl rfl
        · exact .inl rfl
      | answer n name value =>
        rw [receive]
        split
        · split <;> exact .inl rfl
        · exact .inl rfl
      | order n name cutoff => exact .inr ⟨.act name (.collectBefore cutoff), rfl⟩
    · exact .inl rfl
  | conclude n told =>
    rw [Exchange.step]
    split
    · next r _ =>
      split
      · split
        · rw [conclude]
          split
          · next cutoff _ _ => exact .inr ⟨.act r.coordinator (.collectBefore cutoff), rfl⟩
          · exact .inl rfl
        · exact .inl rfl
      · exact .inl rfl
    · exact .inl rfl

theorem needsFrom_run (h : x.Sound seed) {name : Address} {value : Int64}
    (hneeds : x.world.NeedsFrom name value) (moves : List Move) :
    (x.run moves).world.NeedsFrom name value := by
  induction moves generalizing x with
  | nil => exact hneeds
  | cons move rest ih =>
    apply ih (h.step move)
    rcases world_step_cases x move with hworld | ⟨action, hworld⟩ <;> rw [hworld]
    · exact hneeds
    · exact World.needsFrom_step h.world hneeds action

/-- Take any run of a cluster of members that keep history, with rounds of version collection under
way among everything else that happens, and any moment of it. Every order that was ever sent, and
may still arrive, has the cutoff that its round has come to, the least of what counted in it. No
transaction that runs on a member that counted, the coordinator or one that was heard, has a
snapshot whose value is before that cutoff, whenever it began. And what a member answers when it is
asked is never less than what it has answered before. -/
theorem order_spares {settings : Settings} (hkeeps : settings.keepsHistory = true) (view : View)
    (owns : Address → Key → Bool) (moves : List Move) {x : Exchange}
    (hx : x = (start settings view owns).run moves) :
    (∀ n name cutoff, .order n name cutoff ∈ x.sent →
      ∃ r, x.rounds.get? n = some r ∧ r.cutoff = some cutoff) ∧
    (∀ n r cutoff, x.rounds.get? n = some r → r.cutoff = some cutoff →
      Goal.version.cutoff? r.own r.replies = some cutoff ∧
      ∀ name value, r.value? name = some value → ∀ s, x.world.sessions.get? name = some s →
      ∀ t ∈ s.running,
        ∃ c, t.tx.stamp = .snapshot c ∧ cutoff ≤ c.value) ∧
    ∀ later name s s' value value' m m', x.world.sessions.get? name = some s →
      (x.run later).world.sessions.get? name = some s' →
      s.member.handle .getVersion = .ok (.version value, m) →
      s'.member.handle .getVersion = .ok (.version value', m') → value ≤ value' := by
  have hsound : x.Sound (settings.seed view) := hx ▸ (sound_start hkeeps view owns).run moves
  refine ⟨hsound.orders, ?_, ?_⟩
  · intro n r cutoff hr hcutoff
    refine ⟨(hsound.rounds n r hr).cutoff cutoff hcutoff, ?_⟩
    intro name value hvalue s hs t ht
    obtain ⟨hle, hneeds⟩ := hsound.counts hr hcutoff hvalue
    obtain ⟨rs, hmember⟩ := hsound.world name s hs
    obtain ⟨c, hstamp, hc⟩ := hmember.le_value_of_running (hneeds s hs) ht
    exact ⟨c, hstamp, Std.le_trans hle hc⟩
  · intro later name s s' value value' m m' hs hs' hanswer hanswer'
    have hneeds :=
      World.needsFrom_of_minimumValue hsound.world hs (Member.handle_getVersion_ok hanswer)
    obtain ⟨rs, hmember⟩ := (hsound.run later).world name s' hs'
    exact hmember.le_minimumValue (needsFrom_run hsound hneeds later s' hs')
      (Member.handle_getVersion_ok hanswer')

/-- A member answers while a transaction runs on it, applies another commit, and a second
transaction begins. The order that is sent later spares the second one as well. -/
theorem order_spares_late_begin :
    ∃ (x : Exchange) (s : Session) (t : Running) (c : Snapshot),
      x = (start {} ⟨1, ["a", "b"]⟩ fun _ _ => true).run
        [.act (.act "a" (.apply 0 [.single ⟨.replicated, 1, 1⟩ "k" (some "x")])),
          .act (.act "b" (.apply 0 [.single ⟨.replicated, 1, 1⟩ "k" (some "x")])),
          .act (.act "b" .begin), .ask 0 "a" ["b"], .deliver (.question 0 "b"),
          .act (.act "b" (.apply 0 [.single ⟨.replicated, 1, 2⟩ "k" (some "y")])),
          .act (.act "b" .begin), .deliver (.answer 0 "b" 1), .conclude 0 ["b"]] ∧
      x.sent = [.question 0 "b", .answer 0 "b" 1, .order 0 "b" 1] ∧
      x.world.sessions.get? "b" = some s ∧
      t ∈ s.running ∧ t.tx.id = 1 ∧ t.tx.stamp = .snapshot c ∧ 1 ≤ c.value := by
  obtain ⟨x, s, t, r, hx, hsent, hs, ht, hid, hr, hcutoff, hvalue⟩ :
      ∃ (x : Exchange) (s : Session) (t : Running) (r : VersionRound),
        x = (start {} ⟨1, ["a", "b"]⟩ fun _ _ => true).run
          [.act (.act "a" (.apply 0 [.single ⟨.replicated, 1, 1⟩ "k" (some "x")])),
            .act (.act "b" (.apply 0 [.single ⟨.replicated, 1, 1⟩ "k" (some "x")])),
            .act (.act "b" .begin), .ask 0 "a" ["b"], .deliver (.question 0 "b"),
            .act (.act "b" (.apply 0 [.single ⟨.replicated, 1, 2⟩ "k" (some "y")])),
            .act (.act "b" .begin), .deliver (.answer 0 "b" 1), .conclude 0 ["b"]] ∧
        x.sent = [.question 0 "b", .answer 0 "b" 1, .order 0 "b" 1] ∧
        x.world.sessions.get? "b" = some s ∧
        t ∈ s.running ∧ t.tx.id = 1 ∧ x.rounds.get? 0 = some r ∧ r.cutoff = some 1 ∧
        r.value? "b" = some 1 :=
    ⟨_, _, _, _, rfl, rfl, rfl, List.mem_cons_self, rfl, rfl, rfl, rfl⟩
  obtain ⟨c, hstamp, hle⟩ :=
    ((order_spares rfl _ _ _ hx).2.1 0 r 1 hr hcutoff).2 "b" 1 hvalue s hs t ht
  exact ⟨x, s, t, c, hx, hsent, hs, ht, hid, hstamp, hle⟩

end Exchange
end Multiversion
