import Multiversion.Cluster
import Multiversion.Proofs.Session
/- Runs of a cluster.

   A world is a session for every member. Its members act one at a time, and a transaction may read
   from another member than the one it runs on: the server answers, and the transaction notes the
   read (`Session.fetch`). Whatever happens in whatever order, every session of a world stays sound
   (`World.sound_run`), because the bound that comes with an answer never reaches beyond the cut of
   the transaction. -/
namespace Multiversion

/-- The sessions of the members of a cluster, by address. -/
structure World where
  sessions : OrderedMap Address Session

/-- What may happen in a cluster. -/
inductive Action
  | act (name : Address) (event : Event)
  /-- A transaction reads a key from another member, which it knows by an index. -/
  | fetch (name : Address) (id : Nat) (server : Address) (index : Nat) (k : Key)

/-- Let another member answer a read for a running transaction, and note the read. -/
def Session.fetch (s : Session) (server : Member) (id index : Nat) (k : Key) : Session :=
  s.update id fun tx =>
    match server.read k tx.stamp tx.readFrom with
    | .ok answer => (tx.recordRead s.member.issuer k index answer.txBound).2
    | .error _ => tx

namespace World

/-- A world of new members in a view. -/
def start (settings : Settings) (view : View) (owns : Address → Key → Bool) : World :=
  ⟨.ofList (view.members.map fun name => (name, .start settings name view (owns name)))⟩

def step (w : World) : Action → World
  | .act name event =>
    match w.sessions.get? name with
    | some s => ⟨w.sessions.insert name (s.step event)⟩
    | none => w
  | .fetch name id server index k =>
    match w.sessions.get? name, w.sessions.get? server with
    | some s, some t => ⟨w.sessions.insert name (s.fetch t.member id index k)⟩
    | _, _ => w

def run (w : World) (actions : List Action) : World := actions.foldl step w

/-- The members as a cluster whose network loses nothing. -/
def cluster (w : World) : Cluster := { members := w.sessions.mapValues (·.member) }

theorem get?_cluster (w : World) (name : Address) :
    w.cluster.members.get? name = (w.sessions.get? name).map (·.member) :=
  OrderedMap.get?_mapValues _ _ _

/-- Every session is sound, with a log of its own. -/
def Sound (w : World) (seed : Entry) : Prop :=
  ∀ name s, w.sessions.get? name = some s → ∃ rs, s.Sound seed rs

end World

theorem OrderedMap.mem_of_get?_ofList {κ α : Type} [LT κ] [LE κ] [DecidableEq κ] [DecidableLT κ]
    [Std.IsLinearOrder κ] [Std.LawfulOrderLT κ] {l : List (κ × α)} {k : κ} {a : α}
    (h : (OrderedMap.ofList l).get? k = some a) : (k, a) ∈ l := by
  have hfrom : ∀ m : OrderedMap κ α, (l.foldl (fun m e => m.insert e.1 e.2) m).get? k = some a →
      (k, a) ∈ l ∨ m.get? k = some a := by
    clear h
    induction l with
    | nil => exact fun m h => .inr h
    | cons e rest ih =>
      intro m h
      rcases ih (m.insert e.1 e.2) h with h | h
      · exact .inl (List.mem_cons_of_mem e h)
      · rw [get?_insert] at h
        split at h
        · next hk =>
          obtain rfl := Option.some.inj h
          exact .inl (hk ▸ List.mem_cons_self)
        · exact .inr h
  simpa using hfrom .empty h

namespace World

variable {w : World} {seed : Entry}

theorem sound_start {settings : Settings} (h : settings.keepsHistory = true) (view : View)
    (owns : Address → Key → Bool) :
    (World.start settings view owns).Sound (settings.seed view) := by
  intro name s hs
  have hmem := OrderedMap.mem_of_get?_ofList hs
  obtain ⟨_, -, heq⟩ := List.mem_map.1 hmem
  cases heq
  exact ⟨[], .start h name view (owns name)⟩

/-- What becomes of a session: something happens on its member, or to its transactions only. -/
theorem step_cases {action : Action} {name : Address} {s' : Session}
    (h : (w.step action).sessions.get? name = some s') :
    ∃ s, w.sessions.get? name = some s ∧ ((∃ event, action = .act name event ∧ s' = s.step event) ∨
      s'.member = s.member ∧ s'.applied = s.applied) := by
  cases action with
  | act actor event =>
    rw [step] at h
    split at h
    · next s hs =>
      rw [OrderedMap.get?_insert] at h
      split at h
      · next heq =>
        subst heq
        exact ⟨s, hs, .inl ⟨event, rfl, (Option.some.inj h).symm⟩⟩
      · exact ⟨s', h, .inr ⟨rfl, rfl⟩⟩
    · exact ⟨s', h, .inr ⟨rfl, rfl⟩⟩
  | fetch reader id server index k =>
    rw [step] at h
    split at h
    · next s t hs _ =>
      rw [OrderedMap.get?_insert] at h
      split at h
      · next heq =>
        subst heq
        obtain rfl := Option.some.inj h
        exact ⟨s, hs, .inr ⟨rfl, rfl⟩⟩
      · exact ⟨s', h, .inr ⟨rfl, rfl⟩⟩
    · exact ⟨s', h, .inr ⟨rfl, rfl⟩⟩

theorem Sound.insert (h : w.Sound seed) {name : Address} {s : Session} {rs : List Record}
    (hs : s.Sound seed rs) :
    World.Sound ⟨w.sessions.insert name s⟩ seed := by
  intro other t ht
  rw [OrderedMap.get?_insert] at ht
  split at ht
  · obtain rfl := Option.some.inj ht
    exact ⟨rs, hs⟩
  · exact h other t ht

/-- What a sound member answers is harmless to note. -/
theorem Sound.fetch {s t : Session} {rs rs' : List Record} (hs : s.Sound seed rs)
    (ht : t.Sound seed rs') (id index : Nat) (k : Key) :
    (s.fetch t.member id index k).Sound seed rs := by
  apply hs.update id
  intro tx c p hstamp hcut hwindow
  split
  · next answer hread =>
    rw [hstamp] at hread
    obtain ⟨b, hb, hpos, hexc⟩ := Member.read_txBound ht.faithful.chronological hcut hwindow hread
    obtain ⟨hid, hne⟩ := tx.recordRead_window (i := s.member.issuer) k index answer.txBound
    rw [hb] at hid hne ⊢
    exact ⟨hid, hne, tx.recordRead_cutsAt hstamp hcut hpos hexc k index⟩
  · exact ⟨rfl, hwindow, c, hstamp, hcut⟩

theorem Sound.step (h : w.Sound seed) (action : Action) : (w.step action).Sound seed := by
  cases action with
  | act name event =>
    rw [World.step]
    split
    · next s hs =>
      obtain ⟨rs, hsound⟩ := h name s hs
      obtain ⟨rs', hsound'⟩ := hsound.step event
      exact h.insert hsound'
    · exact h
  | fetch name id server index k =>
    rw [World.step]
    split
    · next s t hs ht =>
      obtain ⟨rs, hsound⟩ := h name s hs
      obtain ⟨rs', hsound'⟩ := h server t ht
      exact h.insert (Sound.fetch hsound hsound' id index k)
    · exact h

/-- Every world stays sound. -/
theorem sound_run {settings : Settings} (h : settings.keepsHistory = true) (view : View)
    (owns : Address → Key → Bool) (actions : List Action) :
    ((World.start settings view owns).run actions).Sound (settings.seed view) := by
  have hfrom : ∀ w : World, w.Sound (settings.seed view) →
      (w.run actions).Sound (settings.seed view) := by
    induction actions with
    | nil => exact fun w hw => hw
    | cons action rest ih => exact fun w hw => ih (w.step action) (hw.step action)
  exact hfrom _ (sound_start h view owns)

end World
end Multiversion
