import Multiversion.Proofs.Collection
/- Collection on one member, as the transactions of other members see it.

   The cutoff of a round is a commit value alone, so it says nothing of sub-versions. A collection
   before it spares what a transaction of another member may read (`Member.Faithful.read_gcBefore`),
   unless an entry of the journal overtakes the transaction's snapshot (`Overtakes`): a later commit
   of the very value, which the member itself does not need any older history than. What such an
   entry has written is lost to the transaction (`Member.Faithful.read_overtaken`). -/
namespace Multiversion

/-- The entry overtakes the snapshot in a collection before the cutoff: its commit value is the
cutoff and that of the snapshot, it lies beyond the snapshot, and nothing on the member keeps the
collection from cutting at it. -/
structure Overtakes (m : Member) (s : Snapshot) (cutoff : Int64) (e : Entry) : Prop where
  mem : e ∈ m.journal.entries
  value_eq : e.stamp.value = cutoff
  snapshot_value : s.value = cutoff
  beyond : s.position < e.position
  view_le : e.stamp.view ≤ m.issuer.views.oldestId
  admitted : ∀ t, .snapshot t ∈ m.registry.snapshots → t.admits e.write = true

theorem not_overtakes_of_registered {m : Member} {s t : Snapshot} {cutoff : Int64}
    (ht : .snapshot t ∈ m.registry.snapshots) (hpos : t.position = s.position) :
    ¬ ∃ e, Overtakes m s cutoff e := by
  rintro ⟨e, hover⟩
  have hle : e.position ≤ t.position := (Snapshot.admitsAt_iff.1 (hover.admitted t ht)).1
  exact Std.lt_irrefl (Std.lt_of_lt_of_le hover.beyond (hpos ▸ hle))

namespace Member

variable {m m' : Member} {seed e : Entry} {rs seen : List Record} {s : Snapshot}
  {readFrom : OrderedSet Nat} {k : Key} {l : List Snapshot} {cutoff : Int64} {n : Nat}

/-- A collection before a commit value that is not beyond a snapshot does not change what the
snapshot reads, unless it is overtaken. -/
theorem Faithful.read_gcBefore (h : m.Faithful seed rs) (hseen : seen <+: rs)
    (hcut : s.CutsAt (lastEntry seed seen).position) (hwindow : readFrom.isEmpty = false)
    (hreg : m.registry.snapshots = l.map Stamp.snapshot) (hcutoff : cutoff ≤ s.value)
    (hnot : ¬ ∃ e, Overtakes m s cutoff e) (hgc : m.gcBefore cutoff = .ok (n, m')) (k : Key) :
    m'.read k (.snapshot s) readFrom = m.read k (.snapshot s) readFrom := by
  obtain ⟨c, bound, oldest, j', hbound, htrim, rfl, -, hadmits⟩ := h.gcBefore_bound hreg hgc
  refine h.read_collect hseen hcut hwindow hbound htrim ?_ k
  intro e he hce
  obtain ⟨hrank, hall⟩ := (hadmits e he).1 hce
  refine Classical.byContradiction fun hle => hnot ⟨e, ?_⟩
  have hlt : s.position < e.position := hcut.position_eq ▸ Std.not_le.1 hle
  -- The values are squeezed together: the cutoff is not beyond the snapshot, nor that beyond the
  -- entry.
  have hvalue := Position.value_le (Std.le_of_lt hlt)
  have hbeyond : cutoff ≤ e.stamp.value := Std.le_trans hcutoff hvalue
  obtain ⟨heq, hview⟩ : e.stamp.value = cutoff ∧ e.stamp.view ≤ m.issuer.views.oldestId := by
    rcases Rank.le_iff.1 hrank with hless | heq
    · exact absurd hbeyond (Std.not_le_of_gt hless)
    · exact heq
  refine ⟨he, heq, Std.le_antisymm (heq ▸ hvalue) hcutoff, hlt, hview, fun t ht => hall t ?_⟩
  rw [hreg] at ht
  simpa using ht

theorem Faithful.exists_revision_of_read (h : m.Faithful seed rs) (hseen : seen <+: rs)
    (hcut : s.CutsAt (lastEntry seed seen).position) (hwindow : readFrom.isEmpty = false)
    {ans : Answer} (hread : m.read k (.snapshot s) readFrom = .ok ans)
    (hfound : ans.isNotFound = false) :
    ∃ q ∈ (m.store.timeline k).revisions, q.position ≤ (lastEntry seed seen).position := by
  obtain ⟨b, found, -, hb, hget, rfl⟩ := read_ok hwindow hread
  rw [Store.get_snapshot] at hget
  cases hsight : (m.store.timeline k).sight b.admits with
  | none =>
    rw [hsight] at hget
    by_cases ht : (m.store.timeline k).trimmed = true
    · simp [ht] at hget
    · rw [if_neg ht] at hget
      cases hget
      cases hfound
  | some sighting =>
    obtain ⟨hq, hadm⟩ := Timeline.mem_of_search hsight
    have hbcut := Journal.cutsAt_snapshotAt h.chronological
      (h.covers (lastEntry_mem_log seed hseen)) hcut hb
    exact ⟨sighting.revision, hq, hbcut.admits_iff.1 hadm⟩

/-- What the entry that overtakes a snapshot has written, the snapshot can not read any more if it
could before. -/
theorem Faithful.read_overtaken (h : m.Faithful seed rs) (hseen : seen <+: rs)
    (hcut : s.CutsAt (lastEntry seed seen).position) (hwindow : readFrom.isEmpty = false)
    (hreg : m.registry.snapshots = l.map Stamp.snapshot) (hover : Overtakes m s cutoff e)
    (hkey : e.keys.contains k = true) (hk : m.owns k = true) {ans : Answer}
    (hread : m.read k (.snapshot s) readFrom = .ok ans) (hfound : ans.isNotFound = false)
    (hgc : m.gcBefore cutoff = .ok (n, m')) :
    ∃ asOf, m'.read k (.snapshot s) readFrom = .error (.unavailable asOf (.collected k)) := by
  obtain ⟨c, bound, oldest, j', hbound, htrim, rfl, -, hadmits⟩ := h.gcBefore_bound hreg hgc
  obtain ⟨hstarted', hlatest, -⟩ := Journal.trim_ok htrim
  have hbeyond : (lastEntry seed seen).position < e.position := hcut.position_eq ▸ hover.beyond
  -- The snapshot has found a revision before the entry, so the timeline still has the one that the
  -- entry wrote.
  obtain ⟨q, hq, hqle⟩ := h.exists_revision_of_read hseen hcut hwindow hread hfound
  have hqlt : q.position < e.position := Std.lt_of_le_of_lt hqle hbeyond
  obtain ⟨r, hr, rfl⟩ := h.exists_record hseen hover.mem hbeyond
  obtain ⟨v, hv, hve⟩ := h.exists_revision hk hq hr hkey hqlt
  -- The collection cuts there.
  have hkeep : bound.admits v.stamp = true := by
    have hrank : r.entry.stamp.rank ≤ ⟨cutoff, m.issuer.views.oldestId⟩ :=
      Rank.le_iff.2 (.inr ⟨hover.value_eq, hover.view_le⟩)
    have hce : c.admits r.entry.write = true :=
      (hadmits r.entry hover.mem).2 ⟨hrank,
        fun t ht => hover.admitted t (hreg ▸ List.mem_map_of_mem ht)⟩
    have hbe : bound.admitsAt r.entry.position = true :=
      (Journal.admits_snapshotAt_iff h.chronological hbound hover.mem).2
        (Entry.atOrBefore_snapshot.trans hce)
    rw [← hve] at hbe
    exact hbe
  exact h.read_lost hcut hwindow hread hstarted' hlatest hv hkeep (hve ▸ hbeyond) hq (hve ▸ hqlt)

end Member
end Multiversion
