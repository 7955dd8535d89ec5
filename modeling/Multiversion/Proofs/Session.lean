import Multiversion.Proofs.Transactions
/- Runs of one member.

   A session is a member together with what its runs are judged by: all commits it has applied, and
   for every running transaction the commits that were applied before it began. Events happen in any
   order and any number; what the member refuses leaves no trace. `Session.Sound` is the invariant:
   the member is faithful to the applied commits, and every running transaction, as well as its
   registered snapshot, cuts history behind the commits it has seen.

   Main statements: `member_step` for what an event touches, `Sound.step` for one event, `Sound.run`
   for a run, and `seen_run`: what a transaction has seen stays what it was when the transaction
   began. -/
namespace Multiversion

/-- A running transaction, with the commits that the member had applied when it began. -/
structure Running where
  tx : Transaction
  seen : List Commit

/-- A member with the commits it has applied so far and the transactions that run on it. -/
structure Session where
  member : Member
  applied : List Commit := []
  running : List Running := []

/-- What may happen to a member, and within the transactions that run on it. -/
inductive Event
  | apply (now : Nat) (batch : List Commit)
  | applyOne (now : Nat) (k : Key) (value : Option Value) (agreed : Stamp)
  | learn (view : View)
  | forget (least : Nat)
  | collect (cutoff : Stamp)
  | collectBefore (cutoff : Int64)
  | expire (now : Nat)
  | begin
  | drop (id : Nat)
  | readIn (id : Nat) (k : Key)

namespace Session

/-- A session of a new member. -/
def start (settings : Settings) (address : Address) (view : View) (owns : Key → Bool) : Session :=
  { member := .create settings address view owns }

/-- Take over what applying a batch came to; its commits count if they were accepted. -/
def absorb (s : Session) (batch : List Commit) : Except TxFault Unit × Member → Session
  | (.ok (), m) => { s with member := m, applied := s.applied ++ batch }
  | (.error _, m) => { s with member := m }

/-- Take over what a collection came to. -/
def settle (s : Session) : Except TxFault (Nat × Member) → Session
  | .ok (_, m) => { s with member := m }
  | .error _ => s

/-- Change the running transaction with an id. -/
def update (s : Session) (id : Nat) (f : Transaction → Transaction) : Session :=
  { s with running := s.running.map fun r => if r.tx.id = id then { r with tx := f r.tx } else r }

def step (s : Session) : Event → Session
  | .apply now batch => s.absorb batch (s.member.applyBatch now batch)
  | .applyOne now k value agreed =>
    s.absorb [⟨agreed, [.ofValue k value ((s.member.store.newest? k).map (·.creation))], .empty⟩]
      (s.member.applyCommit now k value agreed)
  | .learn view => { s with member := s.member.viewChanged view }
  | .forget least => { s with member := s.member.forgetViews least }
  | .collect cutoff => s.settle (s.member.gc cutoff)
  | .collectBefore cutoff => s.settle (s.member.gcBefore cutoff)
  | .expire now => { s with member := (s.member.expire now).2 }
  | .begin =>
    match s.member.begin with
    | .ok (tx, m) => { s with member := m, running := ⟨tx, s.applied⟩ :: s.running }
    | .error _ => s
  | .drop id => { s with member := s.member.drop id, running := s.running.filter (·.tx.id ≠ id) }
  | .readIn id k => s.update id fun tx => (s.member.readIn tx k).2

def run (s : Session) (events : List Event) : Session := events.foldl step s

end Session

namespace Session

variable {s : Session}

theorem member_absorb (batch : List Commit) (outcome : Except TxFault Unit × Member) :
    (s.absorb batch outcome).member = outcome.2 := by
  obtain ⟨_ | _, _⟩ := outcome <;> rfl

theorem running_absorb (batch : List Commit) (outcome : Except TxFault Unit × Member) :
    (s.absorb batch outcome).running = s.running := by
  obtain ⟨_ | _, _⟩ := outcome <;> rfl

theorem running_settle (outcome : Except TxFault (Nat × Member)) :
    (s.settle outcome).running = s.running := by
  cases outcome <;> rfl

theorem collect_cases (s : Session) (cutoff : Stamp) : s.step (.collect cutoff) = s ∨
    ∃ n m', s.member.gc cutoff = .ok (n, m') ∧
    s.step (.collect cutoff) = { s with member := m' } := by
  rw [step]
  cases hgc : s.member.gc cutoff with
  | error fault => exact .inl rfl
  | ok r => exact .inr ⟨r.1, r.2, rfl, rfl⟩

theorem collectBefore_cases (s : Session) (value : Int64) : s.step (.collectBefore value) = s ∨
    ∃ cutoff, s.step (.collectBefore value) = s.step (.collect cutoff) := by
  rw [step]
  cases hgc : s.member.gcBefore value with
  | error fault => exact .inl rfl
  | ok r =>
    obtain ⟨_, _, _, bound, -, -, -, -, hgc⟩ := Member.gcBefore_ok (n := r.1) hgc
    exact .inr ⟨bound, by rw [step, hgc]⟩

/-- What an event makes of the issuer: it can only learn views, or forget them. -/
def issuerAfter : Event → Issuer → Issuer
  | .learn view, i => i.addView view
  | .forget least, i => i.forgetViews least
  | _, i => i

/-- What an event makes of the registry: transactions begin and are dropped. -/
def registryAfter (s : Session) : Event → Registry
  | .begin =>
    match s.member.begin with
    | .ok (_, m) => m.registry
    | .error _ => s.member.registry
  | .drop id => s.member.registry.deregister id
  | _ => s.member.registry

/-- What an event does to a member, whatever it does to its journal and its store. -/
theorem member_step (s : Session) (event : Event) : ∃ store journal, (s.step event).member =
    { s.member with
      store, journal, issuer := issuerAfter event s.member.issuer, registry :=
        s.registryAfter event } := by
  have hbatch : ∀ now batch counted, ∃ store journal,
      (s.absorb counted (s.member.applyBatch now batch)).member =
        { s.member with store, journal } := by
    intro now batch counted
    rw [member_absorb]
    exact s.member.applyBatch_frame now batch
  have hcollect : ∀ cutoff, ∃ store journal, (s.step (.collect cutoff)).member =
      { s.member with store, journal } := by
    intro cutoff
    rcases collect_cases s cutoff with heq | ⟨n, m', hgc, heq⟩ <;> rw [heq]
    · exact ⟨_, _, rfl⟩
    · obtain ⟨_, _, _, -, -, rfl, -⟩ := Member.gc_ok hgc
      exact ⟨_, _, rfl⟩
  cases event with
  | apply now batch => exact hbatch now batch batch
  | applyOne now k value agreed => exact hbatch now _ _
  | collect cutoff => exact hcollect cutoff
  | collectBefore value =>
    rcases collectBefore_cases s value with heq | ⟨cutoff, heq⟩ <;> rw [heq]
    · exact ⟨_, _, rfl⟩
    · exact hcollect cutoff
  | begin =>
    rw [step, registryAfter]
    split
    · next hbegin =>
      obtain ⟨_, -, -, -, -, rfl⟩ := Member.begin_ok hbegin
      exact ⟨_, _, rfl⟩
    · exact ⟨_, _, rfl⟩
  | _ => exact ⟨_, _, rfl⟩

/-- An event changes neither what the member was set up with nor what it owns, and gives no
transaction id back. -/
structure Frame (m m' : Member) : Prop where
  settings_eq : m'.settings = m.settings
  owns_eq : m'.owns = m.owns
  nextId_le : m.registry.nextId ≤ m'.registry.nextId

theorem Frame.refl (m : Member) : Frame m m := ⟨rfl, rfl, Nat.le_refl _⟩

theorem Frame.trans {m m' m'' : Member} (h : Frame m m') (h' : Frame m' m'') : Frame m m'' :=
  ⟨h'.settings_eq.trans h.settings_eq, h'.owns_eq.trans h.owns_eq,
    Nat.le_trans h.nextId_le h'.nextId_le⟩

theorem nextId_le_registryAfter (s : Session) (event : Event) :
    s.member.registry.nextId ≤ (s.registryAfter event).nextId := by
  cases event with
  | begin =>
    rw [registryAfter]
    split
    · next hbegin =>
      obtain ⟨_, -, -, -, -, rfl⟩ := Member.begin_ok hbegin
      exact Nat.le_succ _
    · exact Nat.le_refl _
  | _ => exact Nat.le_refl _

theorem frame_step (s : Session) (event : Event) : Frame s.member (s.step event).member := by
  obtain ⟨store, journal, heq⟩ := s.member_step event
  rw [heq]
  exact ⟨rfl, rfl, nextId_le_registryAfter s event⟩

theorem frame_run (s : Session) (events : List Event) : Frame s.member (s.run events).member := by
  induction events generalizing s with
  | nil => exact .refl s.member
  | cons event rest ih => exact (frame_step s event).trans (ih (s.step event))

/-- What an event makes of a transaction that runs on: it is changed by its own reads only. -/
def txAfter (s : Session) (event : Event) (tx : Transaction) : Transaction :=
  match event with
  | .readIn id k => if tx.id = id then (s.member.readIn tx k).2 else tx
  | _ => tx

theorem id_txAfter (event : Event) (tx : Transaction) : (s.txAfter event tx).id = tx.id := by
  cases event with
  | readIn id k =>
    rw [txAfter]
    split
    · exact Member.readIn_id s.member tx k
    · rfl
  | _ => rfl

theorem running_step {event : Event} {r' : Running} (hr' : r' ∈ (s.step event).running)
    (hold : r'.tx.id < s.member.registry.nextId) :
    ∃ r ∈ s.running, r' = { r with tx := s.txAfter event r.tx } := by
  cases event with
  | apply now batch => exact ⟨r', running_absorb _ _ ▸ hr', rfl⟩
  | applyOne now k value agreed => exact ⟨r', running_absorb _ _ ▸ hr', rfl⟩
  | collect cutoff => exact ⟨r', running_settle _ ▸ hr', rfl⟩
  | collectBefore cutoff => exact ⟨r', running_settle _ ▸ hr', rfl⟩
  | begin =>
    rw [step] at hr'
    split at hr'
    · next hbegin =>
      obtain ⟨_, -, hid, -, -, -⟩ := Member.begin_ok hbegin
      rcases List.mem_cons.1 hr' with rfl | hr'
      · exact absurd hid (Nat.ne_of_lt hold)
      · exact ⟨r', hr', rfl⟩
    · exact ⟨r', hr', rfl⟩
  | drop id => exact ⟨r', (List.mem_filter.1 hr').1, rfl⟩
  | readIn id k =>
    obtain ⟨r, hr, rfl⟩ := List.mem_map.1 hr'
    refine ⟨r, hr, ?_⟩
    rw [txAfter]
    split <;> rfl
  | _ => exact ⟨r', hr', rfl⟩

theorem seen_step {event : Event} {r' : Running} (hr' : r' ∈ (s.step event).running)
    (hold : r'.tx.id < s.member.registry.nextId) :
    ∃ r ∈ s.running, r.tx.id = r'.tx.id ∧ r.seen = r'.seen := by
  obtain ⟨r, hr, rfl⟩ := running_step hr' hold
  exact ⟨r, hr, (id_txAfter event r.tx).symm, rfl⟩

/-- What a transaction has seen stays the same for as long as it runs. -/
theorem seen_run {events : List Event} {r' : Running} (hr' : r' ∈ (s.run events).running)
    (hold : r'.tx.id < s.member.registry.nextId) :
    ∃ r ∈ s.running, r.tx.id = r'.tx.id ∧ r.seen = r'.seen := by
  induction events generalizing s with
  | nil => exact ⟨r', hr', rfl, rfl⟩
  | cons event rest ih =>
    obtain ⟨r₁, hr₁, hid₁, hseen₁⟩ :=
      ih hr' (Nat.lt_of_lt_of_le hold (frame_step s event).nextId_le)
    obtain ⟨r, hr, hid, hseen⟩ := seen_step hr₁ (hid₁ ▸ hold)
    exact ⟨r, hr, hid.trans hid₁, hseen.trans hseen₁⟩

end Session

/-- The transaction has seen the commits of some records: its bound and its registered snapshot cut
history there. -/
structure Running.Anchored (r : Running) (registry : Registry) (seed : Entry)
    (seen : List Record) : Prop where
  seen_eq : r.seen = seen.map (·.commit)
  fresh : r.tx.id < registry.nextId
  window : r.tx.readFrom.isEmpty = false
  cut : ∃ s, r.tx.stamp = .snapshot s ∧ s.CutsAt (lastEntry seed seen).position
  registered : ∃ s, registry.active.get? r.tx.id = some (.snapshot s) ∧
    s.CutsAt (lastEntry seed seen).position

theorem Running.Anchored.exists_registered {r : Running} {registry : Registry} {seed : Entry}
    {seen : List Record} (h : r.Anchored registry seed seen) {l : List Snapshot}
    (hreg : registry.snapshots = l.map Stamp.snapshot) :
    ∃ t ∈ l, t.CutsAt (lastEntry seed seen).position := by
  obtain ⟨t, hid, hcut⟩ := h.registered
  have hmem : Stamp.snapshot t ∈ registry.snapshots := Registry.mem_snapshots.2 ⟨r.tx.id, hid⟩
  rw [hreg] at hmem
  obtain ⟨t', ht, heq⟩ := List.mem_map.1 hmem
  cases heq
  exact ⟨t, ht, hcut⟩

namespace Session

/-- The invariant of sessions of a member that keeps history, given the log of all it has
applied. -/
structure Sound (s : Session) (seed : Entry) (rs : List Record) : Prop where
  faithful : s.member.Faithful seed rs
  applied_eq : s.applied = rs.map (·.commit)
  anchored : ∀ r ∈ s.running, ∃ seen, seen <+: rs ∧ r.Anchored s.member.registry seed seen
  registered : ∀ id v, s.member.registry.active.get? id = some v →
    ∃ c seen, v = .snapshot c ∧ seen <+: rs ∧ c.CutsAt (lastEntry seed seen).position
  distinct : ∀ r ∈ s.running, ∀ r' ∈ s.running, r.tx.id = r'.tx.id → r = r'

namespace Sound

variable {s : Session} {seed : Entry} {rs : List Record}

theorem start {settings : Settings} (h : settings.keepsHistory = true)
    (address : Address) (view : View)
    (owns : Key → Bool) : (Session.start settings address view owns).Sound
      (settings.seed view) [] where
  faithful := .create h address view owns
  applied_eq := rfl
  anchored r hr := absurd hr List.not_mem_nil
  registered id v hv := by simp [Session.start, Member.create] at hv
  distinct r hr := absurd hr List.not_mem_nil

/-- What changes only the journal, the store and the issuer leaves the transactions as they are. -/
theorem of_faithful (h : s.Sound seed rs) {m : Member} {rs' : List Record}
    (hm : m.Faithful seed (rs ++ rs')) (hreg : m.registry = s.member.registry) :
    ({ s with member := m, applied := s.applied ++ rs'.map (·.commit) } : Session).Sound seed
      (rs ++ rs') where
  faithful := hm
  applied_eq := by simp [h.applied_eq]
  anchored r hr := by
    obtain ⟨seen, hseen, hanch⟩ := h.anchored r hr
    exact ⟨seen, hseen.trans (List.prefix_append rs rs'), hreg ▸ hanch⟩
  registered id v hv := by
    obtain ⟨c, seen, hc, hseen, hcut⟩ := h.registered id v (hreg ▸ hv)
    exact ⟨c, seen, hc, hseen.trans (List.prefix_append rs rs'), hcut⟩
  distinct := h.distinct

theorem of_faithful_same (h : s.Sound seed rs) {m : Member} (hm : m.Faithful seed rs)
    (hreg : m.registry = s.member.registry) : ({ s with member := m } : Session).Sound seed rs := by
  have hm' : m.Faithful seed (rs ++ []) := by rwa [List.append_nil]
  simpa using h.of_faithful hm' hreg

theorem absorb (h : s.Sound seed rs) (now : Nat) (batch : List Commit) :
    ∃ rs', (s.absorb batch (s.member.applyBatch now batch)).Sound seed (rs ++ rs') := by
  rcases h.faithful.applyBatch now batch with ⟨fault, heq⟩ | ⟨rs', m', heq, rfl, happ, hm'⟩
  · refine ⟨[], ?_⟩
    rw [heq, List.append_nil]
    exact h
  · refine ⟨rs', ?_⟩
    rw [heq]
    exact h.of_faithful hm' (by rw [happ.frame])

theorem collect (h : s.Sound seed rs) (cutoff : Stamp) :
    (s.step (.collect cutoff)).Sound seed rs := by
  rcases collect_cases s cutoff with heq | ⟨n, m', hgc, heq⟩ <;> rw [heq]
  · exact h
  · have hm' := h.faithful.gc hgc
    obtain ⟨_, _, _, -, -, rfl, -⟩ := Member.gc_ok hgc
    exact h.of_faithful_same hm' rfl

theorem update (h : s.Sound seed rs) (id : Nat) {f : Transaction → Transaction}
    (hf : ∀ tx c p, tx.stamp = .snapshot c → c.CutsAt p → tx.readFrom.isEmpty = false →
      (f tx).id = tx.id ∧ (f tx).readFrom.isEmpty = false ∧
        ∃ c', (f tx).stamp = .snapshot c' ∧ c'.CutsAt p) :
    (s.update id f).Sound seed rs := by
  -- Ids stay, so that running transactions can still be told apart by them.
  have hid : ∀ r ∈ s.running, (if r.tx.id =
      id then { r with tx := f r.tx } else r : Running).tx.id = r.tx.id := by
    intro r hr
    obtain ⟨seen, -, hanch⟩ := h.anchored r hr
    obtain ⟨c, hstamp, hcut⟩ := hanch.cut
    split
    · exact (hf r.tx c _ hstamp hcut hanch.window).1
    · rfl
  refine ⟨h.faithful, h.applied_eq, ?_, h.registered, ?_⟩
  · intro r' hr'
    obtain ⟨r, hr, rfl⟩ := List.mem_map.1 hr'
    obtain ⟨seen, hseen, hanch⟩ := h.anchored r hr
    refine ⟨seen, hseen, ?_⟩
    split
    · obtain ⟨c, hstamp, hcut⟩ := hanch.cut
      obtain ⟨hsame, hwindow, hcut'⟩ := hf r.tx c _ hstamp hcut hanch.window
      exact ⟨hanch.seen_eq, hsame.symm ▸ hanch.fresh, hwindow, hcut', hsame.symm ▸ hanch.registered⟩
    · exact hanch
  · intro a ha b hb hab
    obtain ⟨r, hr, rfl⟩ := List.mem_map.1 ha
    obtain ⟨r', hr', rfl⟩ := List.mem_map.1 hb
    rw [hid r hr, hid r' hr'] at hab
    rw [h.distinct r hr r' hr' hab]

theorem begin (h : s.Sound seed rs) : (s.step .begin).Sound seed rs := by
  rw [Session.step]
  split
  · next tx m hbegin =>
    obtain ⟨c, hc, hid, hstamp, hwindow, rfl⟩ := Member.begin_ok hbegin
    have hcut := (h.faithful.beginSnapshot hc).1
    refine ⟨h.faithful.of_eq _ _, h.applied_eq, ?_, ?_, ?_⟩
    · intro r hr
      rcases List.mem_cons.1 hr with rfl | hr
      · refine ⟨rs, List.prefix_rfl, h.applied_eq, ?_, hwindow, ⟨c, hstamp, hcut⟩, c, ?_, hcut⟩
        · exact hid ▸ Nat.lt_succ_self _
        · rw [Registry.get?_register, if_pos hid]
      · obtain ⟨seen, hseen, hanch⟩ := h.anchored r hr
        refine ⟨seen, hseen, hanch.seen_eq, Nat.lt_succ_of_lt hanch.fresh, hanch.window,
          hanch.cut, ?_⟩
        rw [Registry.get?_register, if_neg (Nat.ne_of_lt hanch.fresh)]
        exact hanch.registered
    · intro id v hv
      rw [Registry.get?_register] at hv
      split at hv
      · exact ⟨c, rs, (Option.some.inj hv).symm, List.prefix_rfl, hcut⟩
      · exact h.registered id v hv
    · -- The new transaction has an id that none of the others can have.
      intro a ha b hb hab
      rcases List.mem_cons.1 ha with rfl | ha' <;> rcases List.mem_cons.1 hb with rfl | hb'
      · rfl
      · obtain ⟨seen, -, hanch⟩ := h.anchored b hb'
        exact absurd (hab.symm.trans hid) (Nat.ne_of_lt hanch.fresh)
      · obtain ⟨seen, -, hanch⟩ := h.anchored a ha'
        exact absurd (hab.trans hid) (Nat.ne_of_lt hanch.fresh)
      · exact h.distinct a ha' b hb' hab
  · exact h

theorem drop (h : s.Sound seed rs) (id : Nat) : (s.step (.drop id)).Sound seed rs := by
  refine ⟨h.faithful.of_eq _ _, h.applied_eq, ?_, ?_, ?_⟩
  · intro r hr
    obtain ⟨hr, hne⟩ := List.mem_filter.1 hr
    obtain ⟨seen, hseen, hanch⟩ := h.anchored r hr
    refine ⟨seen, hseen, hanch.seen_eq, hanch.fresh, hanch.window, hanch.cut, ?_⟩
    rw [Session.step, Member.drop, Registry.get?_deregister, if_neg (by simpa using hne)]
    exact hanch.registered
  · intro j v hv
    rw [Session.step, Member.drop, Registry.get?_deregister] at hv
    split at hv
    · cases hv
    · exact h.registered j v hv
  · intro a ha b hb
    exact h.distinct a (List.mem_filter.1 ha).1 b (List.mem_filter.1 hb).1

/-- One event keeps a session sound, and may add to the log. -/
theorem step (h : s.Sound seed rs) (event : Event) :
    ∃ rs', (s.step event).Sound seed (rs ++ rs') := by
  have same (h' : (s.step event).Sound seed rs) : ∃ rs', (s.step event).Sound seed (rs ++ rs') :=
    ⟨[], by rwa [List.append_nil]⟩
  cases event with
  | apply now batch => exact h.absorb now batch
  | applyOne now k value agreed => exact h.absorb now _
  | learn view => exact same (h.of_faithful_same (h.faithful.of_eq _ _) rfl)
  | forget least => exact same (h.of_faithful_same (h.faithful.of_eq _ _) rfl)
  | collect cutoff => exact same (h.collect cutoff)
  | collectBefore value =>
    refine same ?_
    rcases collectBefore_cases s value with heq | ⟨cutoff, heq⟩ <;> rw [heq]
    · exact h
    · exact h.collect cutoff
  | expire now => exact same (h.of_faithful_same (h.faithful.expire now) rfl)
  | begin => exact same h.begin
  | drop id => exact same (h.drop id)
  | readIn id k =>
    exact same (h.update id fun tx c p hstamp hcut hwindow =>
      Member.readIn_cutsAt h.faithful.chronological hstamp hcut hwindow k)

/-- So does a run. -/
theorem run (h : s.Sound seed rs) (events : List Event) :
    ∃ rs', (s.run events).Sound seed (rs ++ rs') := by
  induction events generalizing s rs with
  | nil => exact ⟨[], by rwa [List.append_nil]⟩
  | cons event rest ih =>
    obtain ⟨rs₁, h₁⟩ := h.step event
    obtain ⟨rs₂, h₂⟩ := ih h₁
    exact ⟨rs₁ ++ rs₂, by rwa [← List.append_assoc]⟩

theorem run_start {settings : Settings} (h : settings.keepsHistory = true) (address : Address)
    (view : View) (owns : Key → Bool) (events : List Event) :
    ∃ rs, ((Session.start settings address view owns).run events).Sound (settings.seed view) rs :=
  (Sound.start h address view owns).run events

theorem exists_snapshots (h : s.Sound seed rs) :
    ∃ l : List Snapshot, s.member.registry.snapshots = l.map .snapshot := by
  have hall : ∀ v ∈ s.member.registry.snapshots, ∃ c, v = .snapshot c := by
    intro v hv
    obtain ⟨id, hid⟩ := Registry.mem_snapshots.1 hv
    obtain ⟨c, _, rfl, -⟩ := h.registered id v hid
    exact ⟨c, rfl⟩
  generalize s.member.registry.snapshots = vs at hall
  induction vs with
  | nil => exact ⟨[], rfl⟩
  | cons v rest ih =>
    obtain ⟨⟨c, rfl⟩, hrest⟩ := List.forall_mem_cons.1 hall
    obtain ⟨l, rfl⟩ := ih hrest
    exact ⟨c :: l, rfl⟩

end Sound

end Session
end Multiversion
