import Multiversion.Proofs.Transactions
/- Collections on one member, and what their bounds admit.

   A collection before a commit value is bounded by what is requested and by what the member itself
   still needs: of its own commits the bound admits those that are not after the requested value, in
   the oldest known view, and that every registered snapshot admits
   (`Member.Faithful.gcBefore_bound`). A snapshot reads a key as before unless the key's timeline is
   cut at a revision beyond the snapshot (`Member.Faithful.read_cut`, `read_lost`), and so does a
   transaction whose cut none of the admitted commits lies behind (`Member.Faithful.read_collect`).
   A collection does not fail as long as all views that the member refers to are known
   (`Member.Faithful.exists_gcBefore_ok`). -/
namespace Multiversion

namespace Journal

variable {i : Issuer} {j : Journal} {s t : Snapshot} {q : Position}

theorem position_snapshotAt_le (h : j.snapshotAt i (.snapshot s) = .ok t) :
    t.position ≤ s.position := by
  obtain ⟨-, rfl⟩ := snapshotAt_snapshot_ok h
  exact position_bound_le

theorem admitsAt_of_snapshotAt (h : j.snapshotAt i (.snapshot s) = .ok t)
    (hq : t.admitsAt q = true) :
    s.admitsAt q = true := by
  have hle := position_snapshotAt_le h
  obtain ⟨-, rfl⟩ := snapshotAt_snapshot_ok h
  obtain ⟨hpos, hexc⟩ := Snapshot.admitsAt_iff.1 hq
  rw [mem_excluded_bound, not_or] at hexc
  exact Snapshot.admitsAt_iff.2 ⟨Std.le_trans hpos hle, hexc.1⟩

theorem latestStamp_congr {j' : Journal} (hstarted : j.entries ≠ []) (hstarted' : j'.entries ≠ [])
    (hlatest : j'.latest = j.latest) : j'.latestStamp = j.latestStamp := by
  obtain ⟨e, he⟩ := exists_head? hstarted
  obtain ⟨e', he'⟩ := exists_head? hstarted'
  simp only [latestStamp, head, he, he', mark, hlatest]
  rfl

end Journal

theorem Journal.knows_of_snapshotAt {i : Issuer} {j : Journal} {bound : Stamp} {s : Snapshot}
    (h : j.snapshotAt i bound = .ok s) : i.views.knows s.view = true := by
  obtain ⟨s₀, hs₀, rfl⟩ := snapshotAt_ok h
  rw [view_pinTo, excludeWrites_eq]
  show i.views.knows s₀.view = true
  cases bound with
  | absent =>
    cases hs₀
    exact ViewTable.knows_currentId i.views
  | snapshot t =>
    simp only [Issuer.toSnapshot, bind_eq_ok, pure_eq_ok, Except.ok.injEq] at hs₀
    obtain ⟨_, hknown, rfl⟩ := hs₀
    exact Issuer.check_eq_ok.1 hknown
  | write w =>
    simp only [Issuer.toSnapshot, Issuer.rankOf, Stamp.rank?, bind_eq_ok, pure_eq_ok,
      Except.ok.injEq] at hs₀
    obtain ⟨_, ⟨_, hknown, rfl⟩, rfl⟩ := hs₀
    exact Issuer.check_eq_ok.1 hknown
  | commit c =>
    simp only [Issuer.toSnapshot, Issuer.rankOf, Stamp.rank?, bind_eq_ok, pure_eq_ok,
      Except.ok.injEq] at hs₀
    obtain ⟨_, ⟨_, hknown, rfl⟩, rfl⟩ := hs₀
    exact Issuer.check_eq_ok.1 hknown

/-- Nothing that a member still refers to is of a view that it has forgotten. -/
structure Member.ViewsKnown (m : Member) : Prop where
  latest : ∀ c, m.journal.latest = some c → m.issuer.views.knows c.view = true
  registered : ∀ id s, m.registry.active.get? id = some (.snapshot s) →
    m.issuer.views.knows s.view = true

namespace Member

variable {m m' : Member} {seed : Entry} {rs : List Record}

theorem Faithful.exists_beginSnapshot_ok (h : m.Faithful seed rs)
    (hknown : ∀ c, m.journal.latest = some c → m.issuer.views.knows c.view = true) :
    ∃ s, m.beginSnapshot = .ok s := by
  obtain ⟨c, hlatest, -⟩ := h.latest
  have hc := hknown c hlatest
  have henabled : m.checkEnabled = .ok () := by simp [checkEnabled, h.keeps]
  have hmoved := Issuer.restamp_commit.2 ⟨hc, rfl⟩
  obtain ⟨s, hs⟩ := Journal.exists_snapshotAt_commit_ok (j := m.journal) (i := m.issuer)
    (c := m.issuer.stamp m.issuer.currentView c.value) (ViewTable.knows_currentId m.issuer.views)
  refine ⟨s, ?_⟩
  simp [Member.beginSnapshot, henabled, Journal.current, Journal.latestStamp, Journal.head,
    h.head?_eq, Journal.mark, hlatest, hmoved, snapshotAt, hs]

theorem localMinimum_fold {l : List Snapshot} (hreg : m.registry.snapshots = l.map Stamp.snapshot)
    {v : Stamp} (h : m.localMinimum = .ok v) :
    (l = [] ∧ v = m.journal.mark) ∨ ∃ s, v = .snapshot s ∧
      Extreme.fold Extreme.least.ofSnapshots l = some s := by
  simp only [localMinimum, bind_eq_ok] at h
  obtain ⟨_, -, h⟩ := h
  rw [hreg] at h
  cases l with
  | nil =>
    simp only [List.map_nil, List.isEmpty_nil, if_true, mapError_eq_ok, Journal.latestStamp,
      bind_eq_ok, pure_eq_ok, Except.ok.injEq] at h
    obtain ⟨_, -, rfl⟩ := h
    exact .inl ⟨rfl, rfl⟩
  | cons a rest =>
    simp only [List.map_cons, List.isEmpty_cons, Bool.false_eq_true, if_false, mapError_eq_ok,
      Issuer.mergeMin] at h
    obtain ⟨-, rfl⟩ := (Issuer.merge_snapshots_ok (l := a :: rest)).1 h
    exact .inr ⟨_, rfl, rfl⟩

theorem localMinimum_cases {l : List Snapshot} (hreg : m.registry.snapshots = l.map Stamp.snapshot)
    {v : Stamp} (h : m.localMinimum = .ok v) :
    (l = [] ∧ v = m.journal.mark) ∨ ∃ s, v = .snapshot s ∧ Extreme.IsLeast s l := by
  rcases localMinimum_fold hreg h with hnone | ⟨s, rfl, hfold⟩
  · exact .inl hnone
  · exact .inr ⟨s, rfl, Extreme.isLeast_fold hfold⟩

theorem minimumValue_le {l : List Snapshot} (hreg : m.registry.snapshots = l.map Stamp.snapshot)
    {t : Snapshot} (ht : t ∈ l) {value : Int64} (h : m.minimumValue = .ok value) :
    value ≤ t.value := by
  obtain ⟨v, hv, h⟩ := bind_eq_ok.1 h
  rcases localMinimum_cases hreg hv with ⟨rfl, -⟩ | ⟨s, rfl, hmin⟩
  · simp at ht
  · obtain rfl : s.value = value := Except.ok.inj h
    have hle := Position.value_le (hmin.position_le t ht)
    exact hle

/-- How a collection before a commit value went. It was bounded by a snapshot that admits nothing
that a registered snapshot does not admit, and of the commits in the journal those that are also at
or before the requested commit. -/
theorem Faithful.gcBefore_bound (h : m.Faithful seed rs) {l : List Snapshot}
    (hreg : m.registry.snapshots = l.map Stamp.snapshot) {value : Int64} {n : Nat}
    (hgc : m.gcBefore value = .ok (n, m')) :
    ∃ (c bound : Snapshot) (oldest : Option CommitStamp) (j' : Journal),
      m.journal.snapshotAt m.issuer (.snapshot c) = .ok bound ∧
      m.journal.trim (.snapshot c) = (.ok oldest, j') ∧
      m' = { m with journal := j', store := m.store.collect bound.admits } ∧
      (∀ t ∈ l, ∀ q, c.admitsAt q = true → t.admitsAt q = true) ∧
      ∀ e ∈ m.journal.entries, c.admits e.write = true ↔
        e.stamp.rank ≤ ⟨value, m.issuer.views.oldestId⟩ ∧ ∀ t ∈ l, t.admits e.write = true := by
  obtain ⟨requested, minimum, least, merged, hrequested, hminimum, hleast, hmerged, hgc⟩ :=
    gcBefore_ok hgc
  obtain ⟨bound, oldest, j', hbound, htrim, rfl, -⟩ := gc_ok hgc
  obtain ⟨-, rfl⟩ := (Issuer.merge_snapshots_ok (l := [requested, least])).1 hmerged
  refine ⟨Extreme.least.ofSnapshots requested least, bound, oldest, j', hbound, htrim, rfl, ?_, ?_⟩
  · intro t ht q hq
    have hq := (Extreme.admitsAt_ofSnapshots_least.1 hq).2
    rcases localMinimum_cases hreg hminimum with ⟨rfl, -⟩ | ⟨s, rfl, hmin⟩
    · simp at ht
    · exact (hmin.admitsAt_iff q).1 (Journal.admitsAt_of_snapshotAt hleast hq) t ht
  · intro e he
    have hmin : least.admits e.write = true ↔ ∀ t ∈ l, t.admits e.write = true := by
      rw [Journal.admits_snapshotAt_iff h.chronological hleast he]
      rcases localMinimum_cases hreg hminimum with ⟨rfl, rfl⟩ | ⟨s, rfl, hmin⟩
      · obtain ⟨c, hlatest, hrank⟩ := h.latest
        have hle : e.stamp.rank ≤ c.rank := hrank ▸ h.records.rank_le_lastEntry (h.newest.subset he)
        simp [Journal.mark, hlatest, Entry.atOrBefore_commit, hle]
      · rw [Entry.atOrBefore_snapshot]
        exact hmin.admitsAt_iff e.position
    have hreq : requested.admits e.write = true ↔
        e.stamp.rank ≤ ⟨value, m.issuer.views.oldestId⟩ := by
      rw [Journal.admits_snapshotAt_iff h.chronological hrequested he, Entry.atOrBefore_commit]
      rfl
    rw [← hmin, ← hreq]
    exact Extreme.admitsAt_ofSnapshots_least

section Collected

variable {s : Snapshot} {p : Position} {readFrom : OrderedSet Nat} {k : Key} {j' : Journal}
  {keep : WriteStamp → Bool}

/-- A snapshot that cuts history reads a key as before if the journal still gives it the same bound,
and the timeline is not cut at a revision beyond the snapshot. -/
theorem Faithful.read_cut (h : m.Faithful seed rs) (hcovers : m.journal.Covers p)
    (hcut : s.CutsAt p) (hwindow : readFrom.isEmpty = false) (hstarted' : j'.entries ≠ [])
    (hlatest : j'.latest = m.journal.latest)
    (hsame : j'.snapshotAt m.issuer (.snapshot s) = m.journal.snapshotAt m.issuer (.snapshot s))
    (hbehind : ∀ v ∈ (m.store.timeline k).revisions.dropLast, keep v.stamp = true →
      v.position ≤ p) :
    ({ m with journal := j', store := m.store.collect keep } : Member).read k
      (.snapshot s) readFrom =
        m.read k (.snapshot s) readFrom := by
  apply read_congr hwindow h.started hstarted' hlatest hsame
  intro b hb
  apply Store.get_collect k b
  intro v hv hkeep
  have hbcut := Journal.cutsAt_snapshotAt h.chronological hcovers hcut hb
  exact hbcut.admits_iff.2 (hbehind v hv hkeep)

/-- It can not read the key any more if the timeline is cut at a revision beyond the snapshot and
has an older one. -/
theorem Faithful.read_lost (h : m.Faithful seed rs) (hcut : s.CutsAt p)
    (hwindow : readFrom.isEmpty = false) {ans : Answer}
    (hread : m.read k (.snapshot s) readFrom = .ok ans) (hstarted' : j'.entries ≠ [])
    (hlatest : j'.latest = m.journal.latest) {v q : Revision}
    (hv : v ∈ (m.store.timeline k).revisions) (hkeep : keep v.stamp = true)
    (hbeyond : p < v.position) (hq : q ∈ (m.store.timeline k).revisions)
    (hlt : q.position < v.position) :
    ∃ asOf, ({ m with journal := j', store := m.store.collect keep } : Member).read k
      (.snapshot s) readFrom =
        .error (.unavailable asOf (.collected k)) := by
  obtain ⟨b, _, -, hb, -, -⟩ := read_ok hwindow hread
  obtain ⟨b', hb'⟩ := Journal.exists_snapshotAt_ok (j := j') (Journal.snapshotAt_snapshot_ok hb).1
  have hb'le : b'.position ≤ p := hcut.position_eq ▸ Journal.position_snapshotAt_le hb'
  refine ⟨.snapshot b', ?_⟩
  rw [read_of_read_ok hwindow hread h.started hstarted' hlatest hb',
    Store.get_collect_lost hv hkeep (Std.lt_of_le_of_lt hb'le hbeyond) hq hlt]
  rfl

theorem Faithful.lastEntry_mem_trimmed (h : m.Faithful seed rs) {dropped : List Entry}
    (hsplit : m.journal.entries = dropped ++ j'.entries) (hstarted' : j'.entries ≠ []) :
    lastEntry seed rs ∈ j'.entries := by
  obtain ⟨e, he⟩ := Journal.exists_head? hstarted'
  have hlast := h.head?_eq
  rw [Journal.head?, hsplit, List.getLast?_append, ← Journal.head?, he] at hlast
  obtain rfl : e = lastEntry seed rs := Option.some.inj hlast
  exact List.mem_of_getLast? he

theorem Faithful.read_cut_first (h : m.Faithful seed rs) {tx : Stamp}
    (hwindow : readFrom.isEmpty = true) {dropped : List Entry}
    (hsplit : m.journal.entries = dropped ++ j'.entries) (hstarted' : j'.entries ≠ [])
    (hlatest : j'.latest = m.journal.latest) :
    ({ m with journal := j', store := m.store.collect keep } : Member).read k tx readFrom =
      m.read k tx readFrom := by
  obtain ⟨c, hc, hrank⟩ := h.latest
  obtain ⟨hvalue, -⟩ := Rank.mk.inj hrank
  have hnewest := h.lastEntry_mem_trimmed hsplit hstarted'
  have hsame : j'.snapshotAt m.issuer (.commit c) = m.journal.snapshotAt m.issuer (.commit c) :=
    Journal.snapshotAt_trimmed hsplit
      (.inr ⟨_, hnewest, Entry.atOrBefore_commit.2 (Std.le_of_eq hrank.symm)⟩)
  have hmark : m.journal.latestStamp = .ok (.commit c) := by
    simp [Journal.latestStamp, Journal.head, h.head?_eq, Journal.mark, hc]
  have hmark' := (Journal.latestStamp_congr h.started hstarted' hlatest).trans hmark
  have hbound : ∀ m₁ : Member, m₁.journal.latestStamp = .ok (.commit c) →
      m₁.readBound tx readFrom = m₁.snapshotAt (.commit c) := by
    intro m₁ hm₁
    simp [readBound, checkReached, Issuer.floor, Issuer.ceiling, Issuer.windowView?, hwindow,
      Journal.available, hm₁]
  rw [read, read, hbound m hmark, hbound _ hmark']
  simp only [snapshotAt, hsame]
  cases hb : m.journal.snapshotAt m.issuer (.commit c) with
  | error fault => rfl
  | ok b =>
    have hcut := (Journal.snapshotAt_newest h.head?_eq (Std.le_of_eq hrank.symm) hvalue.symm hb).1
    have hget : (m.store.collect keep).get k (.snapshot b) = m.store.get k (.snapshot b) :=
      Store.get_collect k b fun v hv _ =>
        hcut.admits_iff.2 (h.position_le (List.dropLast_subset _ hv))
    simp only [mapError_ok, ok_bind, hget]
    rfl

end Collected

/-- A collection does not change what a transaction reads if it is bounded by a snapshot that admits
none of the journal's commits beyond the transaction's cut. -/
theorem Faithful.read_collect (h : m.Faithful seed rs) {seen : List Record} (hseen : seen <+: rs)
    {s c bound : Snapshot} (hcut : s.CutsAt (lastEntry seed seen).position)
    {readFrom : OrderedSet Nat} (hwindow : readFrom.isEmpty = false) {oldest : Option CommitStamp}
    {j' : Journal} (hbound : m.journal.snapshotAt m.issuer (.snapshot c) = .ok bound)
    (htrim : m.journal.trim (.snapshot c) = (.ok oldest, j'))
    (hbehind : ∀ e ∈ m.journal.entries, c.admits e.write = true →
      e.position ≤ (lastEntry seed seen).position)
    (k : Key) :
    ({ m with journal := j', store := m.store.collect bound.admits } : Member).read k
      (.snapshot s) readFrom =
        m.read k (.snapshot s) readFrom := by
  obtain ⟨hstarted', hlatest, dropped, hsplit, -, holdest⟩ := Journal.trim_ok htrim
  have hsame : j'.snapshotAt m.issuer (.snapshot s) =
      m.journal.snapshotAt m.issuer (.snapshot s) := by
    apply Journal.snapshotAt_trimmed hsplit
    by_cases hd : dropped = []
    · exact .inl hd
    · obtain ⟨f, rest, hf, hfb⟩ := holdest hd
      have hmem : f ∈ m.journal.entries := by simp [hsplit, hf]
      rw [Entry.atOrBefore_snapshot] at hfb
      refine .inr ⟨f, hf ▸ List.mem_cons_self, ?_⟩
      rw [Entry.atOrBefore_snapshot]
      exact hcut.admits_iff.2 (hbehind f hmem hfb)
  refine h.read_cut (h.covers (lastEntry_mem_log seed hseen)) hcut hwindow hstarted'
    hlatest hsame ?_
  intro v hv hkeep
  obtain ⟨e, he, hve⟩ := h.mem_journal_of_recent hv
  have hadm : c.admitsAt e.position = true := by
    rw [← hve]
    exact Journal.admitsAt_of_snapshotAt hbound hkeep
  exact hve ▸ hbehind e he hadm

theorem Faithful.exists_localMinimum (h : m.Faithful seed rs)
    (hknown : ∀ v ∈ m.registry.snapshots, m.issuer.Knows v) :
    ∃ v, m.localMinimum = .ok v := by
  have henabled : m.checkEnabled = .ok () := by simp [checkEnabled, h.keeps]
  simp only [localMinimum, henabled, ok_bind]
  split
  · exact ⟨m.journal.mark, by simp [Journal.latestStamp, Journal.head, h.head?_eq]⟩
  · obtain ⟨v, hv⟩ := Issuer.exists_merge_ok_iff.2 hknown
    exact ⟨v, mapError_eq_ok.2 hv⟩

theorem Faithful.exists_localMinimum_ok (h : m.Faithful seed rs) (hviews : m.ViewsKnown)
    {l : List Snapshot} (hreg : m.registry.snapshots = l.map Stamp.snapshot) :
    ∃ v least, m.localMinimum = .ok v ∧ m.journal.snapshotAt m.issuer v = .ok least := by
  obtain ⟨c, hlatest, -⟩ := h.latest
  have hknown : ∀ t ∈ l, m.issuer.views.knows t.view = true := by
    intro t ht
    have hmem : Stamp.snapshot t ∈ m.registry.snapshots := hreg ▸ List.mem_map_of_mem ht
    obtain ⟨id, hid⟩ := Registry.mem_snapshots.1 hmem
    exact hviews.registered id t hid
  obtain ⟨v, hv⟩ := h.exists_localMinimum (hreg ▸ Issuer.knows_snapshots_iff.2 hknown)
  rcases localMinimum_cases hreg hv with ⟨-, rfl⟩ | ⟨s, rfl, hmin⟩
  · have hmark : m.journal.mark = .commit c := by rw [Journal.mark, hlatest]
    obtain ⟨least, hleast⟩ :=
      Journal.exists_snapshotAt_commit_ok (j := m.journal) (hviews.latest c hlatest)
    exact ⟨_, least, hv, hmark ▸ hleast⟩
  · obtain ⟨t, ht, hview⟩ := hmin.view_mem
    obtain ⟨least, hleast⟩ := Journal.exists_snapshotAt_ok (j := m.journal) (hview ▸ hknown t ht)
    exact ⟨_, least, hv, hleast⟩

theorem Faithful.exists_gcBefore_ok_of_minimum (h : m.Faithful seed rs) {v : Stamp}
    {least : Snapshot} (hminimum : m.localMinimum = .ok v)
    (hleast : m.journal.snapshotAt m.issuer v = .ok least) (value : Int64) :
    ∃ n m', m.gcBefore value = .ok (n, m') := by
  have henabled : m.checkEnabled = .ok () := by simp [checkEnabled, h.keeps]
  obtain ⟨requested, hrequested⟩ :=
    Journal.exists_snapshotAt_commit_ok (j := m.journal) (i := m.issuer)
    (c := m.issuer.stamp m.issuer.views.oldestId value) (ViewTable.knows_oldestId _)
  -- Both bounds are of known views, and so is the lesser of them, because its view is one of
  -- theirs.
  have hboth : ∀ t ∈ [requested, least], m.issuer.views.knows t.view = true := by
    intro t ht
    simp only [List.mem_cons, List.not_mem_nil, or_false] at ht
    rcases ht with rfl | rfl
    · exact Journal.knows_of_snapshotAt hrequested
    · exact Journal.knows_of_snapshotAt hleast
  have hmerged : m.issuer.mergeMin [.snapshot requested, .snapshot least] =
      .ok (.snapshot (Extreme.least.ofSnapshots requested least)) :=
    (Issuer.merge_snapshots_ok (l := [requested, least])).2 ⟨hboth, rfl⟩
  have hview : m.issuer.views.knows (Extreme.least.ofSnapshots requested least).view = true := by
    obtain ⟨t, ht, hview⟩ := (Extreme.isLeast_fold (l := [requested, least]) rfl).view_mem
    exact hview ▸ hboth t ht
  obtain ⟨bound, hbound⟩ := Journal.exists_snapshotAt_ok (j := m.journal) hview
  obtain ⟨oldest, j', htrim⟩ :=
    Journal.exists_trim_ok h.started (.snapshot (Extreme.least.ofSnapshots requested least))
  obtain ⟨n, hgc⟩ := exists_gc_eq henabled hbound htrim
  have hbefore : m.gcBefore value =
      m.gc (.snapshot (Extreme.least.ofSnapshots requested least)) := by
    simp only [Member.gcBefore, snapshotAt, hrequested, hminimum, hleast, hmerged,
      mapError_ok, ok_bind]
  exact ⟨n, _, hbefore.trans hgc⟩

/-- A collection before a commit value succeeds if every view that is still referred to is known. -/
theorem Faithful.exists_gcBefore_ok (h : m.Faithful seed rs) (hviews : m.ViewsKnown)
    {l : List Snapshot} (hreg : m.registry.snapshots = l.map Stamp.snapshot) (value : Int64) :
    ∃ n m', m.gcBefore value = .ok (n, m') := by
  obtain ⟨v, least, hminimum, hleast⟩ := h.exists_localMinimum_ok hviews hreg
  exact h.exists_gcBefore_ok_of_minimum hminimum hleast value

end Member
end Multiversion
