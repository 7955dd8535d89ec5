import Multiversion.Proofs.RetainedReads
/- A collection while no transaction runs.

   What a member still needs then is its greatest commit. All that it has logged and stored lies at
   or before that one, in whatever views and with however many commits of one value, so that the
   journal is trimmed to its newest entry (`Journal.dropOlder_eq_getLast?`) and every timeline to
   its newest revision (`Member.Faithful.gc_latest`). A snapshot taken at the greatest commit looks
   at no other entry (`Member.Faithful.beginSnapshot_trimmed`), and at no other revision. -/
namespace Multiversion

/-- Of entries that are all at or before the bound only the newest stays. -/
theorem Journal.dropOlder_eq_getLast? {bound : Stamp} {l : List Entry}
    (h : ∀ e ∈ l, e.atOrBefore bound = true) :
    dropOlder bound l = l.getLast?.toList := by
  fun_induction dropOlder bound l with
  | case1 a b rest hab ih =>
    obtain ⟨-, hrest⟩ := List.forall_mem_cons.1 h
    rw [ih hrest, List.getLast?_cons_cons]
  | case2 a b rest hab =>
    obtain ⟨ha, hrest⟩ := List.forall_mem_cons.1 h
    simp [ha, hrest b List.mem_cons_self] at hab
  | case3 l hshort =>
    cases l with
    | nil => rfl
    | cons a rest =>
      cases rest with
      | nil => rfl
      | cons b rest => exact absurd rfl (hshort a b rest)

namespace Member

variable {m m' : Member} {seed : Entry} {rs : List Record} {c : CommitStamp} {n : Nat}

/-- A trimmed journal gives a new transaction the same bound. -/
theorem Faithful.beginSnapshot_trimmed (h : m.Faithful seed rs) {store : Store} {j' : Journal}
    {dropped : List Entry} (hsplit : m.journal.entries = dropped ++ j'.entries)
    (hstarted' : j'.entries ≠ []) (hlatest : j'.latest = m.journal.latest) {b : Snapshot}
    (hb : m.beginSnapshot = .ok b) :
    ({ m with journal := j', store } : Member).beginSnapshot = .ok b := by
  obtain ⟨c, hc, hrank, hknown, hs⟩ := h.beginSnapshot_ok hb
  have hreached : (lastEntry seed rs).atOrBefore
      (.commit (m.issuer.stamp m.issuer.currentView c.value)) = true :=
    Entry.atOrBefore_commit.2 (hrank ▸ Issuer.rank_le_stamp hknown)
  have hsame := Journal.snapshotAt_trimmed (i := m.issuer) hsplit
    (.inr ⟨_, h.lastEntry_mem_trimmed hsplit hstarted', hreached⟩)
  have hmark : j'.latestStamp = .ok (.commit c) := by
    rw [Journal.latestStamp_congr h.started hstarted' hlatest]
    simp [Journal.latestStamp, Journal.head, h.head?_eq, Journal.mark, hc]
  have hmoved := Issuer.restamp_commit.2 ⟨hknown, rfl⟩
  simp [Member.beginSnapshot, checkEnabled, h.keeps, Journal.current, hmark, hmoved,
    snapshotAt, hsame, hs]

/-- A collection at the greatest commit, the view of which has to be known, leaves the newest entry
alone, and of every key the newest revision. -/
theorem Faithful.gc_latest (h : m.Faithful seed rs) (hc : m.journal.latest = some c)
    (hgc : m.gc (.commit c) = .ok (n, m')) :
    m.issuer.views.knows c.view = true ∧ m'.journal.entries = [lastEntry seed rs] ∧
      ∀ k, (m'.store.timeline k).revisions = (m.store.timeline k).newest?.toList := by
  obtain ⟨bound, oldest, j', hbound, htrim, rfl, -⟩ := gc_ok hgc
  obtain ⟨latest, hlatest, hrank⟩ := h.latest
  obtain rfl := Option.some.inj (hc.symm.trans hlatest)
  obtain ⟨hvalue, -⟩ := Rank.mk.inj hrank
  obtain ⟨hcut, -, -, hknown⟩ :=
    Journal.snapshotAt_newest h.head?_eq (Std.le_of_eq hrank.symm) hvalue.symm hbound
  refine ⟨hknown, ?_, ?_⟩
  · have hall : ∀ e ∈ m.journal.entries, e.atOrBefore (.commit c) = true := fun e he =>
      Entry.atOrBefore_commit.2 (hrank ▸ h.records.rank_le_lastEntry (h.newest.subset he))
    obtain ⟨-, ⟨habsent, -⟩ | ⟨-, rfl⟩⟩ := Journal.trim_cases htrim
    · cases habsent
    · show Journal.dropOlder (.commit c) m.journal.entries = _
      rw [Journal.dropOlder_eq_getLast? hall, ← Journal.head?, h.head?_eq]
      rfl
  · intro k
    rw [Store.timeline_collect, Timeline.newest?, ← List.take_one]
    exact Timeline.throughFirst_eq_take fun r hr =>
      hcut.admits_iff.2 (h.position_le (List.dropLast_subset _ hr))

/-- A snapshot taken at the greatest commit reads every key after any collection as before it. -/
theorem Faithful.read_gc_newest (h : m.Faithful seed rs) {cutoff : Stamp}
    (hgc : m.gc cutoff = .ok (n, m')) {b : Snapshot} (hb : m.beginSnapshot = .ok b) :
    m'.beginSnapshot = .ok b ∧
      ∀ k, m'.store.get k (.snapshot b) = m.store.get k (.snapshot b) ∧
        ∀ readFrom, m'.read k (.snapshot b) readFrom = m.read k (.snapshot b) readFrom := by
  have hcut := (h.beginSnapshot hb).1
  obtain ⟨_, _, j', -, htrim, rfl, -⟩ := gc_ok hgc
  obtain ⟨hstarted', hlatest, dropped, hsplit, -⟩ := Journal.trim_ok htrim
  refine ⟨h.beginSnapshot_trimmed hsplit hstarted' hlatest hb, fun k => ⟨?_, fun readFrom => ?_⟩⟩
  · exact Store.get_collect k b fun r hr _ =>
      hcut.admits_iff.2 (h.position_le (List.dropLast_subset _ hr))
  · cases hwindow : readFrom.isEmpty with
    | true => exact h.read_gc_first hgc hwindow
    | false =>
      refine h.read_retained hgc (h.lastEntry_mem_trimmed hsplit hstarted') hcut hwindow ?_
      rintro ⟨f, hf, hlt, -⟩
      exact Std.not_le_of_gt hlt (h.records.position_le_lastEntry (h.newest.subset hf))

theorem Faithful.localMinimum_idle (h : m.Faithful seed rs) (hidle : m.registry.snapshots = [])
    {least : Stamp} (hleast : m.localMinimum = .ok least) :
    ∃ c, m.journal.latest = some c ∧ least = .commit c := by
  obtain ⟨c, hc, -⟩ := h.latest
  rcases localMinimum_fold (l := []) hidle hleast with ⟨-, rfl⟩ | ⟨s, -, hfold⟩
  · exact ⟨c, hc, by rw [Journal.mark, hc]⟩
  · cases hfold

end Member

namespace Session

/-- Take any run of a member that keeps history, at the end of which no transaction is registered,
and a collection of all that the member does not need itself any more. If it succeeds, the journal
has its newest entry alone, and every key its newest revision; the number returned is that of the
revisions that are gone. The greatest commit is what it was, and so is the snapshot that a new
transaction gets: it finds for every key what it found before, which is the newest revision. -/
theorem idle_collection {settings : Settings} (hkeeps : settings.keepsHistory = true)
    (address : Address) (view : View) (owns : Key → Bool) (events : List Event) {s : Session}
    (hs : s = (start settings address view owns).run events)
    (hidle : s.member.registry.snapshots = []) {least : Stamp}
    (hleast : s.member.localMinimum = .ok least) {n : Nat} {m' : Member}
    (hgc : s.member.gc least = .ok (n, m')) :
    (∃ newest, s.member.journal.head? = some newest ∧ m'.journal.entries = [newest]) ∧
      (∀ k, (m'.store.timeline k).revisions = (s.member.store.timeline k).newest?.toList) ∧
      n + m'.store.count = s.member.store.count ∧
      m'.journal.latest = s.member.journal.latest ∧
      m'.journal.latestStamp = s.member.journal.latestStamp ∧
      ∃ b, s.member.beginSnapshot = .ok b ∧ m'.beginSnapshot = .ok b ∧ ∀ k,
        m'.store.get k (.snapshot b) = s.member.store.get k (.snapshot b) ∧
        (∀ readFrom, m'.read k (.snapshot b) readFrom = s.member.read k (.snapshot b) readFrom) ∧
        ∀ r, (s.member.store.timeline k).newest? = some r →
          m'.store.get k (.snapshot b) = .ok (.ofSighting ⟨r, none⟩) := by
  obtain ⟨rs, hsound⟩ := Sound.run_start hkeeps address view owns events
  rw [← hs] at hsound
  have h := hsound.faithful
  obtain ⟨c, hc, rfl⟩ := h.localMinimum_idle hidle hleast
  obtain ⟨hknown, hentries, hrevisions⟩ := h.gc_latest hc hgc
  have hlatest : m'.journal.latest = s.member.journal.latest := by
    obtain ⟨_, _, _, -, htrim, rfl, -⟩ := Member.gc_ok hgc
    exact (Journal.trim_ok htrim).2.1
  obtain ⟨b, hb⟩ := h.exists_beginSnapshot_ok fun c' hc' => by
    rwa [← Option.some.inj (hc.symm.trans hc')]
  obtain ⟨hb', hread⟩ := h.read_gc_newest hgc hb
  refine ⟨⟨_, h.head?_eq, hentries⟩, hrevisions, Member.gc_count_add hgc, hlatest, ?_,
    b, hb, hb', ?_⟩
  · exact Journal.latestStamp_congr h.started (by simp [hentries]) hlatest
  · intro k
    obtain ⟨hget, hread⟩ := hread k
    refine ⟨hget, hread, fun r hr => ?_⟩
    rw [hget]
    obtain ⟨older, holder⟩ := List.head?_eq_some_iff.1 hr
    refine Store.get_of_newest holder
      ((h.beginSnapshot hb).1.admits_iff.2 (h.position_le (k := k) ?_))
    exact holder ▸ List.mem_cons_self

/-- Two commits of one value in two views, by which a key is written and removed, and one that
writes another key. When the transaction that ran in between is dropped, three entries and the first
revision go, and a new snapshot still finds the removal. -/
theorem idle_collection_two_views :
    ∃ (s : Session) (n : Nat) (m' : Member) (newest : Entry) (b : Snapshot),
      s = (start {} "a" ⟨1, ["a"]⟩ fun _ => true).run
        [.apply 0 [.single ⟨.replicated, 1, 1⟩ "k" (some "x")], .begin, .learn ⟨2, ["a"]⟩,
          .apply 0 [.single ⟨.replicated, 2, 1⟩ "k" none,
            .single ⟨.replicated, 2, 2⟩ "j" (some "y")], .drop 0] ∧
      s.member.journal.entries.length = 4 ∧
      s.member.localMinimum = .ok (.commit ⟨.replicated, 2, 2⟩) ∧
      s.member.gc (.commit ⟨.replicated, 2, 2⟩) = .ok (n, m') ∧ n = 1 ∧
      newest.write = ⟨2, 2, 0⟩ ∧ m'.journal.entries = [newest] ∧
      (m'.store.timeline "k").revisions = [⟨⟨2, 1, 1⟩, none, none⟩] ∧
      s.member.beginSnapshot = .ok b ∧ m'.beginSnapshot = .ok b ∧
      m'.store.get "k" (.snapshot b) = .ok (.ofWrite none ⟨2, 1, 1⟩ none) := by
  obtain ⟨s, n, m', e, hs, hlength, hleast, hgc, hn, hwrite, hhead, hnewest⟩ :
      ∃ (s : Session) (n : Nat) (m' : Member) (e : Entry),
        s = (start {} "a" ⟨1, ["a"]⟩ fun _ => true).run
          [.apply 0 [.single ⟨.replicated, 1, 1⟩ "k" (some "x")], .begin, .learn ⟨2, ["a"]⟩,
            .apply 0 [.single ⟨.replicated, 2, 1⟩ "k" none,
              .single ⟨.replicated, 2, 2⟩ "j" (some "y")], .drop 0] ∧
        s.member.journal.entries.length = 4 ∧
        s.member.localMinimum = .ok (.commit ⟨.replicated, 2, 2⟩) ∧
        s.member.gc (.commit ⟨.replicated, 2, 2⟩) = .ok (n, m') ∧ n = 1 ∧
        e.write = ⟨2, 2, 0⟩ ∧ s.member.journal.head? = some e ∧
        (s.member.store.timeline "k").newest? = some ⟨⟨2, 1, 1⟩, none, none⟩ :=
    ⟨_, _, _, _, rfl, rfl, rfl, rfl, rfl, rfl, rfl, rfl⟩
  obtain ⟨⟨newest, hnewest', hentries⟩, hrevisions, -, -, -, b, hb, hb', hread⟩ :=
    idle_collection rfl "a" ⟨1, ["a"]⟩ (fun _ => true) _ hs (by rw [hs]; rfl) hleast hgc
  obtain rfl := Option.some.inj (hhead.symm.trans hnewest')
  refine ⟨s, n, m', e, b, hs, hlength, hleast, hgc, hn, hwrite, hentries, ?_, hb, hb',
    (hread "k").2.2 _ hnewest⟩
  rw [hrevisions, hnewest]
  rfl

end Session
end Multiversion
