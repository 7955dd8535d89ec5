import Multiversion.Proofs.Collection
import Multiversion.Proofs.Session
/- What the least and the greatest of some bounds admit.

   The least of some snapshots admits what all of them admit, whatever they are pinned to and
   exclude, so it is safe for the readers of each. What a member answers that it still needs is such
   a minimum, of the snapshots of its transactions (`Session.exists_least`). `least_bound_exact`
   puts this together.

   The greatest of them is no counterpart of that: it reaches as far as the furthest, but excludes
   what any of them excludes, though others admit it (`greatest_bound_loses`). A transaction that
   notes a read raises its snapshot in this way. The bound that comes with the answer of a member is
   taken at the snapshot itself, and excludes only what the snapshot does not admit
   (`Journal.not_admitsAt_of_excluded`), so that a transaction may read the same however often it
   reads (`Transaction.ReadsTo.admitsAt`). `greatest_bound_exact` puts this together. -/
namespace Multiversion

namespace Journal

/-- A snapshot that is taken at another excludes only what the other does not admit. -/
theorem not_admitsAt_of_excluded {i : Issuer} {j : Journal} {s t : Snapshot} {q : Position}
    (h : j.snapshotAt i (.snapshot s) = .ok t) (hq : q ∈ t.excluded) : s.admitsAt q = false := by
  obtain ⟨-, rfl⟩ := snapshotAt_snapshot_ok h
  rcases mem_excluded_bound.1 hq with hexcluded | ⟨e, he, -, rfl⟩
  · rw [Bool.eq_false_iff, ne_eq, Snapshot.admitsAt_iff]
    exact fun hadm => hadm.2 hexcluded
  · exact Entry.atOrBefore_snapshot.symm.trans (not_atOrBefore_of_mem_passed he).2

end Journal

/-- What a member answers after any run that it still needs is, while transactions are registered, a
snapshot that admits what the snapshots of all of them admit. -/
theorem Session.exists_least {settings : Settings} {address : Address} {view : View}
    {owns : Key → Bool} {events : List Event} {s : Session}
    (hs : s = (Session.start settings address view owns).run events) {v : Stamp}
    (hv : s.member.localMinimum = .ok v) :
    ∃ l : List Snapshot, s.member.registry.snapshots = l.map .snapshot ∧
      (l ≠ [] → ∃ least, v = .snapshot least ∧ ∀ q, least.admitsAt q = true ↔
        ∀ t ∈ l, t.admitsAt q = true) := by
  -- A member that keeps no history has no minimum.
  have hkeeps : settings.keepsHistory = true := by
    obtain ⟨_, henabled, -⟩ := bind_eq_ok.1 hv
    have hsettings : s.member.settings = settings := hs ▸ (frame_run _ events).settings_eq
    rw [Member.checkEnabled, hsettings] at henabled
    split at henabled
    · next hkeeps => exact hkeeps
    · cases henabled
  obtain ⟨rs, hsound⟩ := Sound.run_start hkeeps address view owns events
  obtain ⟨l, hreg⟩ := (hs ▸ hsound).exists_snapshots
  refine ⟨l, hreg, fun hne => ?_⟩
  rcases Member.localMinimum_cases hreg hv with ⟨hnil, -⟩ | ⟨least, rfl, hleast⟩
  · exact absurd hnil hne
  · exact ⟨least, rfl, hleast.admitsAt_iff⟩

/-- Take any snapshots of known views, at least one, with any pins and exclusions. Their minimum is
a snapshot, in the newest of their views, that admits a write exactly if all of them admit it; the
same snapshots in another order, or repeated, have a minimum at the same place, with the same
exclusions and in the same view. And after any run of a member, while transactions are registered,
the minimum of the member is a snapshot that admits exactly the writes that all of the registered
snapshots admit; the member has it as long as it knows their views. -/
theorem least_bound_exact :
    (∀ (i : Issuer) (l : List Snapshot), l ≠ [] → (∀ t ∈ l, i.views.knows t.view = true) →
      ∃ s, i.mergeMin (l.map .snapshot) = .ok (.snapshot s) ∧
        (∀ w, s.admits w = true ↔ ∀ t ∈ l, t.admits w = true) ∧
        (∃ t ∈ l, t.view = s.view) ∧ (∀ t ∈ l, t.view ≤ s.view) ∧
        ∀ l' : List Snapshot, (∀ t, t ∈ l' ↔ t ∈ l) →
        ∃ s', i.mergeMin (l'.map .snapshot) = .ok (.snapshot s') ∧
          s'.position = s.position ∧ s'.excluded = s.excluded ∧ s'.view = s.view) ∧
    ∀ settings address view owns events s,
      s = (Session.start settings address view owns).run events →
      (∀ v, s.member.localMinimum = .ok v →
        ∃ l : List Snapshot, s.member.registry.snapshots = l.map .snapshot ∧
        (l ≠ [] → ∃ least, v = .snapshot least ∧ ∀ w, least.admits w = true ↔
          ∀ t ∈ l, t.admits w = true)) ∧
      (settings.keepsHistory = true → (∀ v ∈ s.member.registry.snapshots, s.member.issuer.Knows v) →
        ∃ v, s.member.localMinimum = .ok v) := by
  constructor
  · intro i l hne hknown
    obtain ⟨s, hs, hmerged⟩ := Issuer.exists_merge_snapshots (e := .least) hne hknown
    refine ⟨s, hs, fun w => hmerged.admitsAt_least, hmerged.exists_view,
      fun t => hmerged.view_le, ?_⟩
    intro l' hsame
    have hne' : l' ≠ [] := by
      obtain ⟨t, ht⟩ := List.exists_mem_of_ne_nil l hne
      exact List.ne_nil_of_mem ((hsame t).2 ht)
    obtain ⟨s', hs', hmerged'⟩ :=
      Issuer.exists_merge_snapshots (e := .least) hne' fun t ht => hknown t ((hsame t).1 ht)
    obtain ⟨hplace, hview, hexcluded⟩ := hmerged.congr hmerged' fun t => (hsame t).symm
    exact ⟨s', hs', hplace, hexcluded, hview⟩
  · intro settings address view owns events s hs
    refine ⟨fun v hv => ?_, fun hkeeps hknown => ?_⟩
    · obtain ⟨l, hreg, hleast⟩ := Session.exists_least hs hv
      refine ⟨l, hreg, fun hne => ?_⟩
      obtain ⟨least, hv, hadmits⟩ := hleast hne
      exact ⟨least, hv, fun w => hadmits w.position⟩
    · obtain ⟨rs, hsound⟩ := Session.Sound.run_start hkeeps address view owns events
      exact (hs ▸ hsound).faithful.exists_localMinimum hknown

/-- Of two snapshots, one excludes a write and the other is pinned before another; the least of
them, in whatever order, does both. And a transaction that began between two commits of one value
holds the minimum there, while another one has begun after them. -/
theorem least_bound_exact_pinned :
    ∃ (i : Issuer) (l registered : List Snapshot) (merged again least : Snapshot) (s : Session),
      i = ⟨.replicated, (ViewTable.single ⟨1, ["a"]⟩).add ⟨2, ["a"]⟩⟩ ∧
      l = [⟨1, 5, none, .ofList [⟨4, 0⟩]⟩, ⟨2, 5, some 0, .empty⟩] ∧
      i.mergeMin (l.map .snapshot) = .ok (.snapshot merged) ∧
      merged = ⟨2, 5, some 0, .ofList [⟨4, 0⟩]⟩ ∧
      (∀ w, merged.admits w = true ↔ ∀ t ∈ l, t.admits w = true) ∧
      i.mergeMin ((l.reverse ++ l).map .snapshot) = .ok (.snapshot again) ∧
      again.position = merged.position ∧
      s = (Session.start {} "a" ⟨1, ["a"]⟩ fun _ => true).run
        [.apply 0 [.single ⟨.replicated, 1, 1⟩ "k" (some "x")], .begin,
          .apply 0 [.single ⟨.replicated, 1, 1⟩ "k" (some "y")], .begin] ∧
      s.member.registry.snapshots = registered.map .snapshot ∧ registered.length = 2 ∧
      s.member.localMinimum = .ok (.snapshot least) ∧
      ∀ w, least.admits w = true ↔ ∀ t ∈ registered, t.admits w = true := by
  obtain ⟨i, l, merged, hi, hl, hmerged, hvalue⟩ :
      ∃ (i : Issuer) (l : List Snapshot) (merged : Snapshot),
      i = ⟨.replicated, (ViewTable.single ⟨1, ["a"]⟩).add ⟨2, ["a"]⟩⟩ ∧
      l = [⟨1, 5, none, .ofList [⟨4, 0⟩]⟩, ⟨2, 5, some 0, .empty⟩] ∧
      i.mergeMin (l.map .snapshot) = .ok (.snapshot merged) ∧
      merged = ⟨2, 5, some 0, .ofList [⟨4, 0⟩]⟩ :=
    ⟨_, _, _, rfl, rfl, rfl, rfl⟩
  have hknown : ∀ t ∈ l, i.views.knows t.view = true := by
    rw [hi, hl]
    decide
  obtain ⟨_, hmerged', hadmits, -, -, horder⟩ := least_bound_exact.1 i l (by simp [hl]) hknown
  obtain rfl := Stamp.snapshot.inj (Except.ok.inj (hmerged.symm.trans hmerged'))
  obtain ⟨again, hagain, hplace, -, -⟩ := horder (l.reverse ++ l) fun t => by simp
  obtain ⟨s, v, hs, hv, htwo⟩ : ∃ (s : Session) (v : Stamp),
      s = (Session.start {} "a" ⟨1, ["a"]⟩ fun _ => true).run
        [.apply 0 [.single ⟨.replicated, 1, 1⟩ "k" (some "x")], .begin,
          .apply 0 [.single ⟨.replicated, 1, 1⟩ "k" (some "y")], .begin] ∧
      s.member.localMinimum = .ok v ∧ s.member.registry.snapshots.length = 2 :=
        ⟨_, _, rfl, rfl, rfl⟩
  obtain ⟨registered, hreg, hminimum⟩ := (least_bound_exact.2 _ _ _ _ _ s hs).1 v hv
  rw [hreg, List.length_map] at htwo
  obtain ⟨least, rfl, hleast⟩ := hminimum (List.ne_nil_of_length_eq_add_one htwo)
  exact ⟨i, l, registered, merged, again, least, s, hi, hl, hmerged, hvalue, hadmits, hagain,
    hplace, hs, hreg, htwo, hv, hleast⟩

namespace Transaction

variable {tx : Transaction} {s : Snapshot} {k : Key}

/-- What a transaction comes to by noting the answers that it got, from any members and for any
keys. -/
inductive ReadsTo (tx : Transaction) : Transaction → Prop
  | start : tx.ReadsTo tx
  | read {tx' : Transaction} {ans : Answer} (m : Member) (i : Issuer) (k : Key) (index : Nat) :
    tx.ReadsTo tx' →
      m.read k tx'.stamp tx'.readFrom = .ok ans →
      tx.ReadsTo (tx'.recordRead i k index ans.txBound).2

theorem admitsAt_recordRead (hstamp : tx.stamp = .snapshot s)
    (hwindow : tx.readFrom.isEmpty = false) {m : Member} {ans : Answer}
    (hread : m.read k tx.stamp tx.readFrom = .ok ans) (i : Issuer) (index : Nat) :
    ∃ s', (tx.recordRead i k index ans.txBound).2.stamp = .snapshot s' ∧
      ∀ q, s'.admitsAt q = true ↔ s.admitsAt q = true := by
  rw [hstamp] at hread
  obtain ⟨b, found, -, hb, -, rfl⟩ := Member.read_ok hwindow hread
  change ∃ s', (tx.recordRead i k index (some (.snapshot b))).2.stamp = .snapshot s' ∧ _
  rcases hnoted : tx.recordRead i k index (some (.snapshot b)) with ⟨outcome, noted⟩
  rcases recordRead_cases hstamp hnoted with ⟨_, -, hsame⟩ | ⟨-, hraised⟩
  · exact ⟨s, hsame, fun q => Iff.rfl⟩
  · refine ⟨_, hraised, fun q => Extreme.admitsAt_ofSnapshots_greatest.trans ⟨?_, ?_⟩⟩
    · rintro ⟨hadm | hadm, -⟩
      · exact hadm
      · exact Journal.admitsAt_of_snapshotAt hb hadm
    · intro hadm
      have hkept : q ∉ b.excluded := fun hq =>
        Bool.false_ne_true ((Journal.not_admitsAt_of_excluded hb hq).symm.trans hadm)
      exact ⟨.inl hadm, (Snapshot.admitsAt_iff.1 hadm).2, hkept⟩

/-- A transaction may read the same however often it reads. -/
theorem ReadsTo.admitsAt {tx' : Transaction} (h : tx.ReadsTo tx') (hstamp : tx.stamp = .snapshot s)
    (hwindow : tx.readFrom.isEmpty = false) : tx'.readFrom.isEmpty = false ∧
      ∃ s', tx'.stamp = .snapshot s' ∧ ∀ q, s'.admitsAt q = true ↔ s.admitsAt q = true := by
  induction h with
  | start => exact ⟨hwindow, s, hstamp, fun q => Iff.rfl⟩
  | read m i k index _ hread ih =>
    obtain ⟨hwindow', s', hstamp', hsame⟩ := ih
    obtain ⟨s'', hstamp'', hsame'⟩ := admitsAt_recordRead hstamp' hwindow' hread i index
    exact ⟨(recordRead_window k index _).2, s'', hstamp'', fun q => (hsame' q).trans (hsame q)⟩

end Transaction

/-- Take any snapshots of known views, at least one. Their maximum is a snapshot that admits a write
exactly if one of them admits it and none of them excludes it. So a transaction that notes a read
with any bound may read from then on what it or the bound admitted, except for what one of them
excludes. If what it notes are answers that members gave it, it may read the same as in the
beginning. -/
theorem greatest_bound_exact :
    (∀ (i : Issuer) (l : List Snapshot), l ≠ [] → (∀ t ∈ l, i.views.knows t.view = true) →
      ∃ s, i.mergeMax (l.map .snapshot) = .ok (.snapshot s) ∧
        ∀ w, s.admits w = true ↔ (∃ t ∈ l, t.admits w = true) ∧ ∀ t ∈ l, w.position ∉ t.excluded) ∧
    ∀ (tx : Transaction) (s : Snapshot), tx.stamp = .snapshot s →
      (∀ (i : Issuer) (k : Key) (index : Nat) (o : Snapshot) (noted : Transaction),
        tx.recordRead i k index (some (.snapshot o)) = (.ok (), noted) →
        ∃ s', noted.stamp = .snapshot s' ∧
          ∀ w, s'.admits w = true ↔
            (s.admits w = true ∨ o.admits w = true) ∧ w.position ∉ s.excluded ∧
            w.position ∉ o.excluded) ∧
      (tx.readFrom.isEmpty = false → ∀ tx', tx.ReadsTo tx' →
        ∃ s', tx'.stamp = .snapshot s' ∧ ∀ w, s'.admits w = true ↔ s.admits w = true) := by
  refine ⟨?_, fun tx s hstamp => ⟨?_, ?_⟩⟩
  · intro i l hne hknown
    obtain ⟨s, hs, hmerged⟩ := Issuer.exists_merge_snapshots (e := .greatest) hne hknown
    exact ⟨s, hs, fun w => hmerged.admitsAt_greatest⟩
  · intro i k index o noted hnoted
    rcases Transaction.recordRead_cases hstamp hnoted with ⟨_, herror, -⟩ | ⟨-, hraised⟩
    · cases herror
    · exact ⟨_, hraised, fun w => Extreme.admitsAt_ofSnapshots_greatest⟩
  · intro hwindow tx' hreads
    obtain ⟨-, s', hs', hsame⟩ := hreads.admitsAt hstamp hwindow
    exact ⟨s', hs', fun w => hsame w.position⟩

/-- A transaction notes a read with a bound beyond its own that excludes a write of its last value:
it may read what the bound admits, without that write. And one that notes the answer of a member
that is ahead excludes what the member has beyond it, which it could not read before either. -/
theorem greatest_bound_exact_ahead :
    ∃ (i : Issuer) (l : List Snapshot) (merged raised own again : Snapshot)
      (tx noted : Transaction) (s s' : Session)
      (begun : Transaction) (m : Member) (ans : Answer),
      i = ⟨.replicated, .single ⟨1, ["a"]⟩⟩ ∧
      l = [⟨1, 4, none, .empty⟩, ⟨1, 5, some 0, .ofList [⟨4, 1⟩]⟩] ∧
      i.mergeMax (l.map .snapshot) = .ok (.snapshot merged) ∧
      (∀ w, merged.admits w = true ↔ (∃ t ∈ l, t.admits w = true) ∧
        ∀ t ∈ l, w.position ∉ t.excluded) ∧
      tx = { id := 0, stamp := .snapshot ⟨1, 4, none, .empty⟩, readFrom := .ofList [0] } ∧
      tx.recordRead i "k" 0 (some (.snapshot ⟨1, 5, some 0, .ofList [⟨4, 1⟩]⟩)) = (.ok (), noted) ∧
      noted.stamp = .snapshot raised ∧ raised.admits ⟨1, 5, 0⟩ = true ∧
      s = (Session.start {} "a" ⟨1, ["a", "b"]⟩ fun _ => true).run
        [.apply 0 [.single ⟨.replicated, 1, 1⟩ "k" (some "x")]] ∧
      s' = (Session.start {} "b" ⟨1, ["a", "b"]⟩ fun _ => true).run
        [.apply 0 [.single ⟨.replicated, 1, 1⟩ "k" (some "x"),
          .single ⟨.replicated, 1, 1⟩ "k" (some "y")]] ∧
      s.member.begin = .ok (begun, m) ∧ begun.stamp = .snapshot own ∧
      s'.member.read "k" begun.stamp begun.readFrom = .ok ans ∧
      (begun.recordRead m.issuer "k" 1 ans.txBound).2.stamp = .snapshot again ∧ again ≠ own ∧
      ∀ w, again.admits w = true ↔ own.admits w = true := by
  obtain ⟨i, l, hi, hl, hknown⟩ : ∃ (i : Issuer) (l : List Snapshot),
      i = ⟨.replicated, .single ⟨1, ["a"]⟩⟩ ∧
      l = [⟨1, 4, none, .empty⟩, ⟨1, 5, some 0, .ofList [⟨4, 1⟩]⟩] ∧
      ∀ t ∈ l, i.views.knows t.view = true := ⟨_, _, rfl, rfl, by decide⟩
  obtain ⟨merged, hmerged, hadmits⟩ := greatest_bound_exact.1 i l (by simp [hl]) hknown
  obtain ⟨tx, noted, htx, hstamp, hnoted⟩ : ∃ (tx noted : Transaction),
      tx = { id := 0, stamp := .snapshot ⟨1, 4, none, .empty⟩, readFrom := .ofList [0] } ∧
      tx.stamp = .snapshot ⟨1, 4, none, .empty⟩ ∧
      tx.recordRead i "k" 0 (some (.snapshot ⟨1, 5, some 0, .ofList [⟨4, 1⟩]⟩)) = (.ok (), noted) :=
    ⟨_, _, rfl, rfl, by rw [hi]; rfl⟩
  obtain ⟨raised, hraised, hraise⟩ := (greatest_bound_exact.2 tx _ hstamp).1 i "k" 0 _ noted hnoted
  obtain ⟨s, s', begun, m, ans, own, _, hs, hs', hbegin, hown, hwindow, hread, hnoted', hne⟩ :
      ∃ (s s' : Session) (begun : Transaction) (m : Member) (ans : Answer) (own again : Snapshot),
        s = (Session.start {} "a" ⟨1, ["a", "b"]⟩ fun _ => true).run
          [.apply 0 [.single ⟨.replicated, 1, 1⟩ "k" (some "x")]] ∧
        s' = (Session.start {} "b" ⟨1, ["a", "b"]⟩ fun _ => true).run
          [.apply 0 [.single ⟨.replicated, 1, 1⟩ "k" (some "x"),
            .single ⟨.replicated, 1, 1⟩ "k" (some "y")]] ∧
        s.member.begin = .ok (begun, m) ∧ begun.stamp = .snapshot own ∧
        begun.readFrom.isEmpty = false ∧
        s'.member.read "k" begun.stamp begun.readFrom = .ok ans ∧
        (begun.recordRead m.issuer "k" 1 ans.txBound).2.stamp = .snapshot again ∧ again ≠ own :=
    ⟨_, _, _, _, _, _, _, rfl, rfl, rfl, rfl, rfl, rfl, rfl, by decide⟩
  have hreads := Transaction.ReadsTo.read s'.member m.issuer "k" 1 .start hread
  obtain ⟨again, hagain, hsame⟩ := (greatest_bound_exact.2 begun own hown).2 hwindow _ hreads
  obtain rfl := Stamp.snapshot.inj (hnoted'.symm.trans hagain)
  have hadmitted : raised.admits ⟨1, 5, 0⟩ = true := (hraise ⟨1, 5, 0⟩).2 (by decide)
  exact ⟨i, l, merged, raised, own, _, tx, noted, s, s', begun, m, ans, hi, hl, hmerged, hadmits,
    htx, hnoted, hraised, hadmitted, hs, hs', hbegin, hown, hread, hagain, hne, hsame⟩

/-- The greatest of two snapshots does not admit a write that the first admits, and neither does a
transaction with the first snapshot once it has noted a read with the second. -/
theorem greatest_bound_loses :
    ∃ (i : Issuer) (s o merged : Snapshot) (w : WriteStamp) (tx noted : Transaction),
      i = ⟨.replicated, .single ⟨1, ["a"]⟩⟩ ∧ s = ⟨1, 4, none, .empty⟩ ∧
      o = ⟨1, 5, none, .ofList [⟨4, 1⟩]⟩ ∧
      i.mergeMax [.snapshot s, .snapshot o] = .ok (.snapshot merged) ∧ w = ⟨1, 4, 1⟩ ∧
      s.admits w = true ∧
      merged.admits w = false ∧ tx.stamp = .snapshot s ∧
      tx.recordRead i "k" 0 (some (.snapshot o)) = (.ok (), noted) ∧
      noted.stamp = .snapshot merged :=
  ⟨_, _, _, _, _, { id := 0, stamp := .snapshot ⟨1, 4, none, .empty⟩, readFrom := .ofList [0] }, _,
    rfl, rfl, rfl, rfl, rfl, rfl, rfl, rfl, rfl, rfl⟩

end Multiversion
