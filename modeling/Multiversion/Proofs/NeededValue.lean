import Multiversion.Proofs.Collection
import Multiversion.Proofs.World
/- The commit value that a member still needs.

   A member answers with the value of the least registered snapshot, or of its greatest commit if
   nothing is registered (`Member.minimumValue`). Neither falls below what it once was: a snapshot
   that is registered later starts from the greatest commit, and the greatest commit only grows. So
   a bound of both (`Member.NeedsFrom`) stays one whatever happens to the member
   (`Session.Sound.needsFrom_step`), every running transaction keeps to it
   (`Session.Sound.le_value_of_running`), and so does every later answer
   (`Session.Sound.le_minimumValue`). -/
namespace Multiversion

theorem Extreme.le_value_fold {l : List Snapshot} {s : Snapshot}
    (h : fold least.ofSnapshots l = some s) {value : Int64} (hall : ∀ t ∈ l, value ≤ t.value) :
    value ≤ s.value := by
  obtain ⟨t, ht, hplace⟩ := (isMerged_fold h).exists_position
  have hvalue : t.value = s.value := congrArg Position.value hplace
  exact hvalue ▸ hall t ht

/-- Nothing that the member still needs is before a commit value: neither its greatest commit nor
any registered snapshot. -/
structure Member.NeedsFrom (m : Member) (value : Int64) : Prop where
  latest : ∀ c, m.journal.latest = some c → value ≤ c.value
  registered : ∀ id t, m.registry.active.get? id = some (.snapshot t) → value ≤ t.value

theorem Member.handle_getVersion_ok {m m' : Member} {value : Int64}
    (h : m.handle .getVersion = .ok (.version value, m')) : m.minimumValue = .ok value := by
  simp only [handle, bind_eq_ok, mapError_eq_ok, pure_eq_ok, Except.ok.injEq, Prod.mk.injEq,
    Reply.version.injEq] at h
  obtain ⟨_, hvalue, rfl, -⟩ := h
  exact hvalue

namespace Session

variable {s : Session} {seed : Entry} {rs : List Record} {value value' : Int64}

theorem Sound.value_le_lastEntry (h : s.Sound seed rs) {id : Nat} {t : Snapshot}
    (ht : s.member.registry.active.get? id = some (.snapshot t)) :
    t.value ≤ (lastEntry seed rs).stamp.value := by
  obtain ⟨c, seen, heq, hseen, hcut⟩ := h.registered id _ ht
  cases heq
  have hvalue : t.value = (lastEntry seed seen).stamp.value :=
    congrArg Position.value hcut.position_eq
  have hle := Position.value_le
    (h.faithful.records.position_le_lastEntry (lastEntry_mem_log seed hseen))
  rw [hvalue]
  exact hle

theorem Sound.value_latest (h : s.Sound seed rs) {c : CommitStamp}
    (hc : s.member.journal.latest = some c) :
    c.value = (lastEntry seed rs).stamp.value := by
  obtain ⟨c', hlatest, hrank⟩ := h.faithful.latest
  obtain rfl := Option.some.inj (hc.symm.trans hlatest)
  exact congrArg Rank.value hrank

theorem Sound.needsFrom_of_minimumValue (h : s.Sound seed rs)
    (hvalue : s.member.minimumValue = .ok value) :
    s.member.NeedsFrom value := by
  obtain ⟨l, hreg⟩ := h.exists_snapshots
  have hmem : ∀ id t, s.member.registry.active.get? id = some (.snapshot t) → t ∈ l := by
    intro id t ht
    have hsnap : Stamp.snapshot t ∈ s.member.registry.snapshots := Registry.mem_snapshots.2 ⟨id, ht⟩
    rw [hreg] at hsnap
    obtain ⟨t', ht', heq⟩ := List.mem_map.1 hsnap
    cases heq
    exact ht'
  have hregistered : ∀ id t, s.member.registry.active.get? id = some (.snapshot t) →
      value ≤ t.value :=
    fun id t ht => Member.minimumValue_le hreg (hmem id t ht) hvalue
  refine ⟨?_, hregistered⟩
  intro c hc
  obtain ⟨v, hv, hvalue⟩ := bind_eq_ok.1 hvalue
  rcases Member.localMinimum_cases hreg hv with ⟨-, rfl⟩ | ⟨t, rfl, hmin⟩
  · rw [Journal.mark, hc] at hvalue
    obtain rfl : c.value = value := Except.ok.inj hvalue
    exact Std.le_refl _
  · -- Some snapshot is registered, and the greatest commit is not before it.
    obtain ⟨t, ht, -⟩ := hmin.view_mem
    have hsnap : Stamp.snapshot t ∈ s.member.registry.snapshots := hreg ▸ List.mem_map_of_mem ht
    obtain ⟨id, hid⟩ := Registry.mem_snapshots.1 hsnap
    rw [h.value_latest hc]
    exact Std.le_trans (hregistered id t hid) (h.value_le_lastEntry hid)

/-- What bounds what a member needs bounds its answer. -/
theorem Sound.le_minimumValue (h : s.Sound seed rs) (hneeds : s.member.NeedsFrom value)
    (hvalue : s.member.minimumValue = .ok value') : value ≤ value' := by
  obtain ⟨l, hreg⟩ := h.exists_snapshots
  obtain ⟨v, hv, hvalue⟩ := bind_eq_ok.1 hvalue
  rcases Member.localMinimum_fold hreg hv with ⟨-, rfl⟩ | ⟨t, rfl, hfold⟩
  · obtain ⟨c, hlatest, -⟩ := h.faithful.latest
    rw [Journal.mark, hlatest] at hvalue
    obtain rfl : c.value = value' := Except.ok.inj hvalue
    exact hneeds.latest c hlatest
  · obtain rfl : t.value = value' := Except.ok.inj hvalue
    refine Extreme.le_value_fold hfold ?_
    intro t ht
    have hsnap : Stamp.snapshot t ∈ s.member.registry.snapshots := hreg ▸ List.mem_map_of_mem ht
    obtain ⟨id, hid⟩ := Registry.mem_snapshots.1 hsnap
    exact hneeds.registered id t hid

/-- What a member needs bounds the snapshot of every transaction that runs on it. -/
theorem Sound.le_value_of_running (h : s.Sound seed rs) (hneeds : s.member.NeedsFrom value)
    {r : Running} (hr : r ∈ s.running) : ∃ c, r.tx.stamp = .snapshot c ∧ value ≤ c.value := by
  obtain ⟨seen, -, hanch⟩ := h.anchored r hr
  obtain ⟨c, hstamp, hcut⟩ := hanch.cut
  obtain ⟨t, hid, htcut⟩ := hanch.registered
  have hsame : t.value = c.value :=
    congrArg Position.value (htcut.position_eq.trans hcut.position_eq.symm)
  exact ⟨c, hstamp, hsame ▸ hneeds.registered _ t hid⟩

/-- What is registered after an event was registered before, or is the snapshot of a transaction
that begins. -/
theorem registered_step {event : Event} {id : Nat} {v : Stamp}
    (h : (s.step event).member.registry.active.get? id = some v) :
    s.member.registry.active.get? id = some v ∨ ∃ t, s.member.beginSnapshot = .ok t ∧
      v = .snapshot t := by
  obtain ⟨store, journal, heq⟩ := s.member_step event
  rw [heq] at h
  cases event with
  | begin =>
    simp only [registryAfter] at h
    split at h
    · next hbegin =>
      obtain ⟨t, ht, -, -, -, rfl⟩ := Member.begin_ok hbegin
      rw [Registry.get?_register] at h
      split at h
      · exact .inr ⟨t, ht, (Option.some.inj h).symm⟩
      · exact .inl h
    · exact .inl h
  | drop j =>
    simp only [registryAfter, Registry.get?_deregister] at h
    split at h
    · cases h
    · exact .inl h
  | _ => exact .inl h

/-- Whatever happens to a member, it needs nothing that it did not need before. -/
theorem Sound.needsFrom_step (h : s.Sound seed rs) (hneeds : s.member.NeedsFrom value)
    (event : Event) :
    (s.step event).member.NeedsFrom value := by
  obtain ⟨rs', h'⟩ := h.step event
  have hlast : value ≤ (lastEntry seed rs).stamp.value := by
    obtain ⟨c, hlatest, -⟩ := h.faithful.latest
    rw [← h.value_latest hlatest]
    exact hneeds.latest c hlatest
  constructor
  · intro c hc
    have hle := Position.value_le (h'.faithful.records.position_le_lastEntry
      (lastEntry_mem_log seed (List.prefix_append rs rs')))
    rw [h'.value_latest hc]
    exact Std.le_trans hlast hle
  · intro id t ht
    rcases registered_step ht with hold | ⟨t', ht', heq⟩
    · exact hneeds.registered id t hold
    · cases heq
      rw [(h.faithful.beginSnapshot ht').2.1]
      exact hlast

end Session

/-- What a member of a cluster still needs is not before a commit value. -/
def World.NeedsFrom (w : World) (name : Address) (value : Int64) : Prop :=
  ∀ s, w.sessions.get? name = some s → s.member.NeedsFrom value

namespace World

variable {w : World} {seed : Entry} {name : Address} {value : Int64}

theorem needsFrom_of_minimumValue (hw : w.Sound seed) {s : Session}
    (hs : w.sessions.get? name = some s) (hvalue : s.member.minimumValue = .ok value) :
    w.NeedsFrom name value := by
  intro t ht
  obtain rfl := Option.some.inj (hs.symm.trans ht)
  obtain ⟨rs, hsound⟩ := hw name s hs
  exact hsound.needsFrom_of_minimumValue hvalue

theorem needsFrom_step (hw : w.Sound seed) (h : w.NeedsFrom name value) (action : Action) :
    (w.step action).NeedsFrom name value := by
  intro s' hs'
  obtain ⟨s, hs, ⟨event, -, rfl⟩ | ⟨hmember, -⟩⟩ := step_cases hs'
  · obtain ⟨rs, hsound⟩ := hw name s hs
    exact hsound.needsFrom_step (h s hs) event
  · rw [hmember]
    exact h s hs

end World
end Multiversion
