import Multiversion.Member.Read
import Multiversion.Proofs.Faithful
import Multiversion.Proofs.KnownViews
import Multiversion.Proofs.Merging
/- The transactions of one member: how their bounds begin, what a read does to them, and what the
   registry makes of them.

   A transaction begins with a snapshot that cuts history at the newest entry of the journal
   (`Member.begin_ok`, `Member.Faithful.beginSnapshot`). A read bounds by that snapshot, taken again
   (`Member.read_ok`), and what is noted of it leaves the cut where it was
   (`Transaction.recordRead_cutsAt`). The oldest of the registered snapshots admits what all of them
   admit (`Extreme.isLeast_fold`). -/
namespace Multiversion

namespace Extreme
open Snapshot

/-- A snapshot that is the least of some others: it admits what all of them admit, reaches no
further than any of them, and is of the view of one of them. -/
structure IsLeast (s : Snapshot) (l : List Snapshot) : Prop where
  admitsAt_iff : ∀ q, s.admitsAt q = true ↔ ∀ t ∈ l, t.admitsAt q = true
  position_le : ∀ t ∈ l, s.position ≤ t.position
  view_mem : ∃ t ∈ l, s.view = t.view

theorem isLeast_fold {l : List Snapshot} {s : Snapshot} (h : fold least.ofSnapshots l = some s) :
    IsLeast s l where
  admitsAt_iff _ := (isMerged_fold h).admitsAt_least
  position_le _ ht := (isMerged_fold h).reaches ht
  view_mem := by
    obtain ⟨t, ht, hview⟩ := (isMerged_fold h).exists_view
    exact ⟨t, ht, hview.symm⟩

end Extreme

namespace Registry

variable {r : Registry}

theorem mem_snapshots {v : Stamp} : v ∈ r.snapshots ↔ ∃ id, r.active.get? id = some v := by
  simp only [snapshots, OrderedMap.values, List.mem_map, OrderedMap.get?_eq_some_iff, Prod.exists]
  constructor
  · rintro ⟨id, _, hmem, rfl⟩
    exact ⟨id, hmem⟩
  · rintro ⟨id, hmem⟩
    exact ⟨id, v, hmem, rfl⟩

theorem get?_register (v : Stamp) (id : Nat) :
    (r.register v).2.active.get? id = if id = r.nextId then some v else r.active.get? id :=
  OrderedMap.get?_insert _ _ _ _

theorem get?_deregister (j id : Nat) :
    (r.deregister j).active.get? id = if id = j then none else r.active.get? id :=
  OrderedMap.get?_erase _ _ _

end Registry

namespace Transaction

variable {tx noted : Transaction} {i : Issuer} {s t : Snapshot} {p : Position}

theorem recordRead_window (k : Key) (index : Nat) (observed : Option Stamp) :
    (tx.recordRead i k index observed).2.id = tx.id ∧
      (tx.recordRead i k index observed).2.readFrom.isEmpty = false := by
  have hne : (tx.readFrom.insert index).isEmpty = false := by
    have : index ∈ tx.readFrom.insert index := OrderedSet.mem_insert.2 (.inl rfl)
    cases h : (tx.readFrom.insert index).isEmpty with
    | false => rfl
    | true =>
      rw [OrderedSet.isEmpty, List.isEmpty_iff] at h
      exact absurd (h ▸ this : index ∈ ([] : List Nat)) List.not_mem_nil
  cases observed with
  | none => exact ⟨rfl, hne⟩
  | some v =>
    rw [recordRead]
    split
    · exact ⟨rfl, hne⟩
    · exact ⟨rfl, hne⟩

/-- Noting a read raises the snapshot of the transaction to the greater of it and the bound of the
read, or fails and leaves it as it is. -/
theorem recordRead_cases (hstamp : tx.stamp = .snapshot s) {k : Key} {index : Nat}
    {outcome : Except StampFault Unit}
    (h : tx.recordRead i k index (some (.snapshot t)) = (outcome, noted)) :
    (∃ fault, outcome = .error fault ∧ noted.stamp = .snapshot s) ∨
      outcome = .ok () ∧ noted.stamp = .snapshot (Extreme.greatest.ofSnapshots s t) := by
  simp only [recordRead, hstamp] at h
  split at h
  · next merged hmerged =>
    obtain ⟨rfl, rfl⟩ := Prod.mk.inj h
    exact .inr ⟨rfl, ((Issuer.merge_snapshots_ok (l := [s, t])).1 hmerged).2⟩
  · next fault _ =>
    obtain ⟨rfl, rfl⟩ := Prod.mk.inj h
    exact .inl ⟨fault, rfl, rfl⟩

/-- What is noted of a read that reached no further than the cut leaves the cut where it was. -/
theorem recordRead_cutsAt (hstamp : tx.stamp = .snapshot s) (hs : s.CutsAt p) (ht : t.position ≤ p)
    (hx : ∀ q ∈ t.excluded, p < q) (k : Key) (index : Nat) :
    ∃ s', (tx.recordRead i k index (some (.snapshot t))).2.stamp = .snapshot s' ∧ s'.CutsAt p := by
  rcases hnoted : tx.recordRead i k index (some (.snapshot t)) with ⟨outcome, noted⟩
  rcases recordRead_cases hstamp hnoted with ⟨_, -, hsame⟩ | ⟨-, hraised⟩
  · exact ⟨s, hsame, hs⟩
  · exact ⟨_, hraised, Extreme.cutsAt_ofSnapshots_greatest hs ht hx⟩

end Transaction

namespace Member

variable {m m' : Member} {k : Key} {seed : Entry} {rs : List Record} {s : Snapshot} {p : Position}

/-- What beginning a transaction does. -/
theorem begin_ok {tx : Transaction} (h : m.begin = .ok (tx, m')) :
    ∃ s, m.beginSnapshot = .ok s ∧ tx.id = m.registry.nextId ∧ tx.stamp = .snapshot s ∧
      tx.readFrom.isEmpty = false ∧ m' =
        { m with registry := (m.registry.register (.snapshot s)).2 } := by
  simp only [begin, bind_eq_ok, mapError_eq_ok, pure_eq_ok, Except.ok.injEq, Prod.mk.injEq] at h
  obtain ⟨_, -, index, -, s, hs, rfl, rfl⟩ := h
  exact ⟨s, hs, rfl, rfl, rfl, rfl⟩

/-- The bound of a transaction that starts now is taken at the greatest commit, moved to the current
view. -/
theorem Faithful.beginSnapshot_ok (h : m.Faithful seed rs) (hs : m.beginSnapshot = .ok s) :
    ∃ c, m.journal.latest = some c ∧ c.rank = (lastEntry seed rs).stamp.rank ∧
    m.issuer.views.knows c.view = true ∧
      m.journal.snapshotAt m.issuer (.commit (m.issuer.stamp m.issuer.currentView c.value)) =
        .ok s := by
  obtain ⟨c, hlatest, hrank⟩ := h.latest
  simp only [Member.beginSnapshot, Journal.current, Journal.latestStamp, Journal.head, h.head?_eq,
    Journal.mark, hlatest, snapshotAt, ok_bind, bind_eq_ok, mapError_eq_ok, pure_eq_ok,
    Issuer.restamp_commit] at hs
  obtain ⟨_, -, _, ⟨hknown, rfl⟩, hs⟩ := hs
  exact ⟨c, hlatest, hrank, hknown, hs⟩

/-- The bound of a transaction that starts now cuts history at the newest entry. It has the commit
value and at least the view of the greatest commit. -/
theorem Faithful.beginSnapshot (h : m.Faithful seed rs) (hs : m.beginSnapshot = .ok s) :
    s.CutsAt (lastEntry seed rs).position ∧ s.value = (lastEntry seed rs).stamp.value ∧
      (lastEntry seed rs).stamp.view ≤ s.view ∧ m.issuer.views.knows s.view = true := by
  obtain ⟨c, -, hrank, hc, hs⟩ := h.beginSnapshot_ok hs
  obtain ⟨hvalue, hview⟩ := Rank.mk.inj hrank
  have hrank' : (lastEntry seed rs).stamp.rank ≤
      (m.issuer.stamp m.issuer.currentView c.value).rank :=
    hrank ▸ Issuer.rank_le_stamp hc
  obtain ⟨hcut, hsview, hsvalue, hknown⟩ :=
    Journal.snapshotAt_newest h.head?_eq hrank' hvalue.symm hs
  rw [hsview, hsvalue, ← hview]
  exact ⟨hcut, hvalue, ViewTable.le_currentId hc, hknown⟩

/-- The stamp that a read of a transaction with a window takes its bound at: the transaction's own,
or the greatest commit if that is absent. A commit counts the way the member places keys. -/
def readStamp (m : Member) : Stamp → Stamp
  | .absent => m.journal.mark
  | .commit c => .commit (m.issuer.stampAt c.rank)
  | tx => tx

/-- The ceiling of a transaction with a window is where its reads take their bound, or any if it is
absent. -/
theorem ceiling_ok {tx : Stamp} {readFrom : OrderedSet Nat} {c : Option Stamp}
    (hwindow : readFrom.isEmpty = false) (h : m.issuer.ceiling tx readFrom = .ok c) :
    tx = .absent ∧ c = none ∨ c = some (m.readStamp tx) := by
  cases tx with
  | absent =>
    simp only [Issuer.ceiling, Issuer.windowView?, hwindow, Stamp.view?, Stamp.rank?,
      Option.map_none] at h
    exact .inl ⟨rfl, (Except.ok.inj h).symm⟩
  | commit c =>
    simp only [Issuer.ceiling, Issuer.windowView?, hwindow, Stamp.view?, Stamp.rank?,
      Option.map_some, Issuer.rankOf, Bool.false_eq_true, if_false, bind_eq_ok, pure_eq_ok,
      Except.ok.injEq] at h
    obtain ⟨_, -, _, ⟨_, -, rfl⟩, rfl⟩ := h
    exact .inr rfl
  | write w =>
    simp only [Issuer.ceiling, Issuer.windowView?, hwindow, Stamp.view?, Stamp.rank?,
      Option.map_some] at h
    obtain ⟨_, -, h⟩ := bind_eq_ok.1 h
    exact .inr (Except.ok.inj h).symm
  | snapshot s =>
    simp only [Issuer.ceiling, Issuer.windowView?, hwindow, Stamp.view?, Stamp.rank?,
      Option.map_some] at h
    obtain ⟨_, -, h⟩ := bind_eq_ok.1 h
    exact .inr (Except.ok.inj h).symm

/-- A read of a transaction with a window looks the key up at the bound of the transaction's stamp,
taken at this member. -/
theorem read_eq {tx : Stamp} {readFrom : OrderedSet Nat} (hwindow : readFrom.isEmpty = false)
    (m : Member) (k : Key) (hstarted : tx = .absent → m.journal.entries ≠ []) :
    m.read k tx readFrom = (do
      m.checkEnabled
      m.checkReached tx readFrom
      let _ ← (m.issuer.ceiling tx readFrom).mapError .stamp
      let b ← m.snapshotAt (m.readStamp tx)
      return (← m.store.get k (.snapshot b)).withTxBound (.snapshot b)) := by
  rw [read, readBound]
  cases m.checkEnabled with
  | error fault => rfl
  | ok _ =>
    cases m.checkReached tx readFrom with
    | error fault => rfl
    | ok _ =>
      cases hc : m.issuer.ceiling tx readFrom with
      | error fault => rfl
      | ok c =>
        rcases ceiling_ok hwindow hc with ⟨rfl, rfl⟩ | rfl
        · obtain ⟨e, he⟩ := Journal.exists_head? (hstarted rfl)
          have havailable : m.journal.available m.issuer none = .ok m.journal.mark := by
            simp [Journal.available, Journal.latestStamp, Journal.head, he]
          simp only [ok_bind, mapError_ok, havailable]
          rfl
        · rfl

theorem read_snapshot_eq {readFrom : OrderedSet Nat} (hwindow : readFrom.isEmpty = false)
    (m : Member) (k : Key) (s : Snapshot) :
    m.read k (.snapshot s) readFrom = (do
      m.checkEnabled
      m.checkReached (.snapshot s) readFrom
      let _ ← (m.issuer.ceiling (.snapshot s) readFrom).mapError .stamp
      let b ← m.snapshotAt (.snapshot s)
      return (← m.store.get k (.snapshot b)).withTxBound (.snapshot b)) :=
  read_eq hwindow m k fun habsent => nomatch habsent

theorem read_stamp_ok {tx : Stamp} {readFrom : OrderedSet Nat} {ans : Answer}
    (hwindow : readFrom.isEmpty = false) (hstarted : tx = .absent → m.journal.entries ≠ [])
    (h : m.read k tx readFrom = .ok ans) :
    ∃ b found, m.checkReached tx readFrom = .ok () ∧
    m.journal.snapshotAt m.issuer (m.readStamp tx) = .ok b ∧
      m.store.get k (.snapshot b) = .ok found ∧ ans = found.withTxBound (.snapshot b) := by
  simp only [read_eq hwindow m k hstarted, snapshotAt, bind_eq_ok, mapError_eq_ok, pure_eq_ok,
    Except.ok.injEq] at h
  obtain ⟨_, -, _, hreached, _, -, b, hb, found, hfound, rfl⟩ := h
  exact ⟨b, found, hreached, hb, hfound, rfl⟩

theorem read_ok {readFrom : OrderedSet Nat} {ans : Answer} (hwindow : readFrom.isEmpty = false)
    (h : m.read k (.snapshot s) readFrom = .ok ans) :
    ∃ b found, m.checkReached (.snapshot s) readFrom = .ok () ∧
    m.journal.snapshotAt m.issuer (.snapshot s) = .ok b ∧
      m.store.get k (.snapshot b) = .ok found ∧ ans = found.withTxBound (.snapshot b) :=
  read_stamp_ok hwindow (fun habsent => nomatch habsent) h

section Collected

variable {j' : Journal} {store' : Store} {readFrom : OrderedSet Nat} {tx : Stamp}

theorem checkReached_congr (hstarted : m.journal.entries ≠ []) (hstarted' : j'.entries ≠ [])
    (hlatest : j'.latest = m.journal.latest) :
    ({ m with journal := j', store := store' } : Member).checkReached tx readFrom =
      m.checkReached tx readFrom := by
  have hreached : ∀ c, j'.reached (.commit c) = m.journal.reached (.commit c) := by
    intro c
    obtain ⟨e, he⟩ := Journal.exists_head? hstarted
    obtain ⟨e', he'⟩ := Journal.exists_head? hstarted'
    simp only [Journal.reached, he, he', Journal.mark, hlatest]
  simp only [checkReached, hreached]

theorem readStamp_congr (hlatest : j'.latest = m.journal.latest) :
    ({ m with journal := j', store := store' } : Member).readStamp tx = m.readStamp tx := by
  cases tx with
  | absent => simp only [readStamp, Journal.mark, hlatest]
  | _ => rfl

theorem read_of_read_ok {ans : Answer} {b' : Snapshot} (hwindow : readFrom.isEmpty = false)
    (h : m.read k tx readFrom = .ok ans) (hstarted : m.journal.entries ≠ [])
    (hstarted' : j'.entries ≠ []) (hlatest : j'.latest = m.journal.latest)
    (hbound : j'.snapshotAt m.issuer (m.readStamp tx) = .ok b') :
    ({ m with journal := j', store := store' } : Member).read k tx readFrom =
      (do return (← store'.get k (.snapshot b')).withTxBound (.snapshot b')) := by
  simp only [read_eq hwindow m k fun _ => hstarted, bind_eq_ok, mapError_eq_ok] at h
  obtain ⟨_, henabled, _, hreached, c, hc, -⟩ := h
  rw [read_eq hwindow _ k fun _ => hstarted', checkReached_congr hstarted hstarted' hlatest,
    hreached, readStamp_congr hlatest]
  simp only [checkEnabled] at henabled ⊢
  simp only [henabled, hc, snapshotAt, hbound, mapError_ok, ok_bind]

/-- A read looks at the settings, the issuer, how far the journal has come, the bound and the key; a
change of the journal and the store that leaves those alone is not noticed. -/
theorem read_congr (hwindow : readFrom.isEmpty = false) (hstarted : m.journal.entries ≠ [])
    (hstarted' : j'.entries ≠ []) (hlatest : j'.latest = m.journal.latest)
    (hbound : j'.snapshotAt m.issuer (.snapshot s) = m.journal.snapshotAt m.issuer (.snapshot s))
    (hget : ∀ b, m.journal.snapshotAt m.issuer (.snapshot s) = .ok b →
      store'.get k (.snapshot b) = m.store.get k (.snapshot b)) :
    ({ m with journal := j', store := store' } : Member).read k (.snapshot s) readFrom =
      m.read k (.snapshot s) readFrom := by
  rw [read_snapshot_eq hwindow, read_snapshot_eq hwindow,
    checkReached_congr hstarted hstarted' hlatest]
  simp only [snapshotAt, hbound]
  cases hb : m.journal.snapshotAt m.issuer (.snapshot s) with
  | error fault => rfl
  | ok b =>
    simp only [mapError_ok, ok_bind, hget b hb]
    rfl

end Collected

/-- The bound that comes with an answer reaches no further than the cut, and excludes nothing before
it. -/
theorem read_txBound (hj : m.journal.entries.Pairwise Entry.Before) (hs : s.CutsAt p)
    {readFrom : OrderedSet Nat} {ans : Answer} (hwindow : readFrom.isEmpty = false)
    (h : m.read k (.snapshot s) readFrom = .ok ans) :
    ∃ b, ans.txBound = some (.snapshot b) ∧ b.position ≤ p ∧ ∀ q ∈ b.excluded, p < q := by
  obtain ⟨b, found, -, hb, -, rfl⟩ := read_ok hwindow h
  obtain ⟨hexc, hpos | ⟨f, -, hpos, hfp, -⟩⟩ := Journal.snapshotAt_of_cutsAt hj hs hb
  · exact ⟨b, rfl, hpos ▸ Std.le_refl _, hexc⟩
  · exact ⟨b, rfl, hpos ▸ hfp, hexc⟩

theorem readIn_cases (m : Member) (tx : Transaction) (k : Key) :
    (∃ fault, m.readIn tx k = (.error fault, tx)) ∨
      ∃ ans index, m.read k tx.stamp tx.readFrom = .ok ans ∧
        (m.readIn tx k).2 = (tx.recordRead m.issuer k index ans.txBound).2 ∧
        ∀ v, (m.readIn tx k).1 = .ok v → v = ans.value := by
  rw [readIn]
  split
  · next fault _ => exact .inl ⟨fault, rfl⟩
  · next answer index hread =>
    simp only [bind_eq_ok, mapError_eq_ok, pure_eq_ok, Except.ok.injEq, Prod.mk.injEq] at hread
    obtain ⟨ans, hans, _, -, rfl, -⟩ := hread
    refine .inr ⟨ans, index, hans, ?_⟩
    split
    · next hrec => exact ⟨by rw [hrec], fun v hv => by cases hv⟩
    · next hrec => exact ⟨by rw [hrec], fun v hv => (Except.ok.inj hv).symm⟩

theorem readIn_ok {tx tx' : Transaction} {v : Option Value} (h : m.readIn tx k = (.ok v, tx')) :
    ∃ ans, m.read k tx.stamp tx.readFrom = .ok ans ∧ ans.value = v := by
  rcases m.readIn_cases tx k with ⟨fault, heq⟩ | ⟨ans, _, hans, -, hvalue⟩
  · rw [heq] at h
    cases h
  · exact ⟨ans, hans, (hvalue v (congrArg Prod.fst h)).symm⟩

theorem readIn_id (m : Member) (tx : Transaction) (k : Key) : (m.readIn tx k).2.id = tx.id := by
  rcases m.readIn_cases tx k with ⟨fault, heq⟩ | ⟨ans, index, -, heq, -⟩
  · rw [heq]
  · rw [heq]
    exact (tx.recordRead_window k index ans.txBound).1

theorem readIn_cutsAt (hj : m.journal.entries.Pairwise Entry.Before) {tx : Transaction}
    (hstamp : tx.stamp = .snapshot s) (hs : s.CutsAt p) (hwindow : tx.readFrom.isEmpty = false)
    (k : Key) :
    (m.readIn tx k).2.id = tx.id ∧ (m.readIn tx k).2.readFrom.isEmpty = false ∧
      ∃ s', (m.readIn tx k).2.stamp = .snapshot s' ∧ s'.CutsAt p := by
  rcases m.readIn_cases tx k with ⟨fault, heq⟩ | ⟨ans, index, hans, heq, -⟩
  · rw [heq]
    exact ⟨rfl, hwindow, s, hstamp, hs⟩
  · rw [hstamp] at hans
    obtain ⟨b, hb, hpos, hexc⟩ := read_txBound hj hs hwindow hans
    rw [heq, hb]
    obtain ⟨hid, hne⟩ := tx.recordRead_window (i := m.issuer) k index (some (.snapshot b))
    exact ⟨hid, hne, tx.recordRead_cutsAt hstamp hs hpos hexc k index⟩

end Member
end Multiversion
