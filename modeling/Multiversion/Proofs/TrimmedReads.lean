import Multiversion.Proofs.Session
/- Reads after a collection that no transaction is registered against.

   The bound of a read that is given as a commit or a write is made from the commit value alone, and
   what was logged later with that value is kept out of it by looking at the journal. A collection
   trims the journal, and then an entry of that kind is overlooked (`Overlooked`). Nothing else
   changes for the bound (`Member.Faithful.admits_trimmed`). So a read is answered after a
   collection as before it, or is told that the history of its key is gone, unless a revision that
   an overlooked entry has written is the oldest one left of the key: then it is answered with that
   (`Session.read_trimmed_cases`). `Session.read_trimmed_overlooked` is a run in which that
   happens. -/
namespace Multiversion

theorem Store.admits_of_get {s : Store} {k : Key} {b : Snapshot} {found : Answer} {w : WriteStamp}
    (h : s.get k (.snapshot b) = .ok found) (hw : found.creation = .write w) :
    b.admits w = true := by
  rw [get_snapshot] at h
  split at h
  · next sighting hsight =>
    cases h
    cases hw
    exact (Timeline.mem_of_search hsight).2
  · split at h
    · cases h
    · cases h
      cases hw

/-- The entry is overlooked after a collection, by a read at the stamp: the stamp is no snapshot and
has the entry's commit value, but the entry comes after it, and is no longer in the journal. -/
structure Overlooked (m m' : Member) (stamp : Stamp) (e : Entry) : Prop where
  mem : e ∈ m.journal.entries
  trimmed : e ∉ m'.journal.entries
  not_snapshot : stamp.snapshot? = none
  value_eq : stamp.value? = some e.stamp.value
  beyond : e.atOrBefore stamp = false

namespace Entry

theorem value_le_of_not_atOrBefore {e : Entry} {bound : Stamp} {v : Int64}
    (he : e.atOrBefore bound = false) (hb : bound.snapshot? = none) (hv : bound.value? = some v) :
    v ≤ e.stamp.value := by
  cases bound with
  | absent => cases hv
  | snapshot s => cases hb
  | write w =>
    obtain rfl : w.value = v := Option.some.inj hv
    have hlt : w.position < e.position :=
      Std.not_le.1 (mt atOrBefore_write.2 (Bool.eq_false_iff.1 he))
    have hvalue := Position.value_le (Std.le_of_lt hlt)
    exact hvalue
  | commit c =>
    obtain rfl : c.value = v := Option.some.inj hv
    have hlt : c.rank < e.stamp.rank :=
      Std.not_le.1 (mt atOrBefore_commit.2 (Bool.eq_false_iff.1 he))
    have hvalue := Rank.value_le (Std.le_of_lt hlt)
    exact hvalue

end Entry

namespace Journal

variable {i : Issuer} {j : Journal} {bound : Stamp} {s s₀ : Snapshot} {e : Entry}

theorem admits_before (hs₀ : i.toSnapshot bound = .ok s₀) (h : j.snapshotAt i bound = .ok s)
    (hbefore : ∀ f ∈ j.entries, e.position < f.position) :
    s.admits e.write = s₀.admits e.write := by
  obtain ⟨s₀', hs₀', rfl⟩ := snapshotAt_ok h
  obtain rfl := Except.ok.inj (hs₀.symm.trans hs₀')
  have hexcluded : e.position ∈
      (pinTo (excludeWrites s₀ (j.passed bound)) (j.floor? bound)).excluded ↔
        e.position ∈ s₀.excluded := by
    rw [mem_excluded_bound]
    constructor
    · rintro (hx | ⟨f, hf, -, heq⟩)
      · exact hx
      · exact absurd (heq ▸ hbefore f (not_atOrBefore_of_mem_passed hf).1) Std.lt_irrefl
    · exact .inl
  have hposition : e.position ≤
      (pinTo (excludeWrites s₀ (j.passed bound)) (j.floor? bound)).position ↔
        e.position ≤ s₀.position := by
    rcases position_bound with hpin | ⟨f, hf, -, -, hpin⟩
    · rw [hpin]
    · -- A pin is at an entry of the journal, and so reaches all that lies before it.
      have hle : e.position ≤ f.position := Std.le_of_lt (hbefore f (atOrBefore_of_floor? hf).1)
      exact ⟨fun hpos => Std.le_trans hpos position_bound_le, fun _ => hpin ▸ hle⟩
  apply Bool.eq_iff_iff.2
  show Snapshot.admitsAt _ e.position = true ↔ s₀.admitsAt e.position = true
  rw [Snapshot.admitsAt_iff, Snapshot.admitsAt_iff, hexcluded, hposition]

end Journal

theorem Issuer.admits_toSnapshot_iff {i : Issuer} {bound : Stamp} {s : Snapshot} {e : Entry}
    (hs : i.toSnapshot bound = .ok s) (he : e.atOrBefore bound = false) :
    s.admits e.write = true ↔ bound.snapshot? = none ∧ bound.value? = some e.stamp.value := by
  rcases toSnapshot_ok hs with rfl | ⟨hb, hpin, hexcluded, ⟨rfl, -⟩ | hvalue⟩
  · rw [Entry.atOrBefore_snapshot] at he
    exact iff_of_false (Bool.eq_false_iff.1 he) (fun h => nomatch h.1)
  · cases he
  · have hpos : s.position = ⟨s.value, Int32.maxValue⟩ := by rw [Snapshot.position, hpin]; rfl
    have hadm : s.admits e.write = true ↔ e.stamp.value ≤ s.value := by
      show s.admitsAt e.position = true ↔ _
      rw [Snapshot.admitsAt_iff, hpos, Position.le_last_iff, hexcluded]
      simp
      rfl
    rw [hadm, hvalue, Option.some.injEq]
    have hge := Entry.value_le_of_not_atOrBefore he hb hvalue
    exact ⟨fun hle => ⟨hb, Std.le_antisymm hge hle⟩, fun h => Std.le_of_eq h.2.symm⟩

namespace Member

variable {m : Member} {seed e : Entry} {rs : List Record} {stamp cutoff : Stamp}
  {b b' bound : Snapshot} {j' : Journal} {dropped : List Entry} {k : Key}
  {readFrom : OrderedSet Nat} {ans : Answer} {oldest : Option CommitStamp}

theorem Faithful.beyond_readStamp_iff (h : m.Faithful seed rs) (he : e ∈ m.journal.entries) :
    (e.atOrBefore (m.readStamp stamp) = false ∧ (m.readStamp stamp).snapshot? = none ∧
      (m.readStamp stamp).value? = some e.stamp.value) ↔
    e.atOrBefore stamp = false ∧ stamp.snapshot? = none ∧ stamp.value? = some e.stamp.value := by
  cases stamp with
  | absent =>
    obtain ⟨c, hlatest, hrank⟩ := h.latest
    have hle : e.stamp.rank ≤ c.rank := hrank ▸ h.records.rank_le_lastEntry (h.newest.subset he)
    have hreached : e.atOrBefore (.commit c) = true := Entry.atOrBefore_commit.2 hle
    simp [readStamp, Journal.mark, hlatest, hreached]
  | commit c => rfl
  | write w => rfl
  | snapshot s => rfl

/-- When the oldest entries of a journal go, the bound of a stamp admits what it admitted before of
all that was ever applied, except for what went, lies beyond the stamp and has its value. -/
theorem Faithful.admits_trimmed (h : m.Faithful seed rs)
    (hsplit : m.journal.entries = dropped ++ j'.entries)
    (hb : m.journal.snapshotAt m.issuer stamp = .ok b) (hb' : j'.snapshotAt m.issuer stamp = .ok b')
    (he : e ∈ seed :: rs.map (·.entry)) :
    b.admits e.write = b'.admits e.write ∨
      e ∈ dropped ∧ e.atOrBefore stamp = false ∧ stamp.snapshot? = none ∧
      stamp.value? = some e.stamp.value := by
  obtain ⟨s₀, hs₀, -⟩ := Journal.snapshotAt_ok hb
  obtain ⟨older, hlog⟩ := h.newest
  have hord := h.records.pairwise
  rw [← hlog] at he hord
  obtain ⟨-, hchronological, hbefore⟩ := List.pairwise_append.1 hord
  rw [hsplit] at hbefore
  obtain ⟨-, hkept, hdropped⟩ := List.pairwise_append.1 (hsplit ▸ hchronological)
  rcases List.mem_append.1 he with he | he
  · left
    have hall : ∀ f ∈ dropped ++ j'.entries, e.position < f.position :=
      fun f hf => (hbefore e he f hf).position_lt
    rw [Journal.admits_before hs₀ hb (hsplit ▸ hall),
      Journal.admits_before hs₀ hb' fun f hf => hall f (List.mem_append_right _ hf)]
  · have hadm := Journal.admits_snapshotAt_iff hchronological hb he
    rw [hsplit] at he
    rcases List.mem_append.1 he with he | he
    · rw [Journal.admits_before hs₀ hb' fun f hf => (hdropped e he f hf).position_lt]
      cases hat : e.atOrBefore stamp with
      | true => exact .inl ((hadm.2 hat).trans (Issuer.admits_toSnapshot hs₀ hat).symm)
      | false =>
        have hnot : b.admits e.write = false := by simpa [hat] using hadm
        cases hs : s₀.admits e.write with
        | false => exact .inl hnot
        | true => exact .inr ⟨he, rfl, (Issuer.admits_toSnapshot_iff hs₀ hat).1 hs⟩
    · left
      exact Bool.eq_iff_iff.2 (hadm.trans (Journal.admits_snapshotAt_iff hkept hb' he).symm)

/-- The oldest revision that a collection leaves, if a dropped entry has written it, is the only one
that was written by a dropped entry, or before. -/
theorem Faithful.eq_or_mem_of_kept (h : m.Faithful seed rs)
    (hbound : m.journal.snapshotAt m.issuer cutoff = .ok bound)
    (hsplit : m.journal.entries = dropped ++ j'.entries)
    (hdropped : ∀ f ∈ dropped, f.atOrBefore cutoff = true) (he : e ∈ dropped) {v r : Revision}
    (hv : v ∈ ((m.store.timeline k).collect bound.admits).revisions) (hve : v.position = e.position)
    (hr : r ∈ ((m.store.timeline k).collect bound.admits).revisions) :
    r = v ∨ ∃ f ∈ j'.entries, e.Before f ∧ r.position = f.position := by
  have hdecreasing := (m.store.timeline k).decreasing
  have hsub := Timeline.throughFirst_sublist bound.admits (m.store.timeline k).revisions
  have hmem : ∀ f ∈ dropped, f ∈ m.journal.entries := fun f hf => hsplit ▸ List.mem_append_left _ hf
  -- The collection cuts at every revision that a dropped entry has written.
  have hcut : ∀ q ∈ ((m.store.timeline k).collect bound.admits).revisions, ∀ f ∈ dropped,
      q.position = f.position →
      ∀ u ∈ ((m.store.timeline k).collect bound.admits).revisions, q.position ≤ u.position := by
    intro q hq f hf hqf u hu
    have hadm : bound.admitsAt f.position = true :=
      Journal.admits_of_atOrBefore h.chronological hbound (hmem f hf) (hdropped f hf)
    rw [← hqf] at hadm
    exact Timeline.position_le_of_mem_throughFirst hdecreasing (hsub.subset hq) hadm hu
  rcases Std.le_iff_lt_or_eq.1 (hcut v hv e he hve r hr) with hlt | heq
  · right
    obtain ⟨f, hf, hrf⟩ := h.written k r (hsub.subset hr)
    have hef : e.position < f.position := hve ▸ hrf ▸ hlt
    have hbefore : e.Before f := by
      rcases Entry.before_or_eq_or_before h.records.pairwise (h.newest.subset (hmem e he)) hf with
        hbefore | rfl | hafter
      · exact hbefore
      · exact absurd hef Std.lt_irrefl
      · exact absurd (Std.lt_trans hef hafter.position_lt) Std.lt_irrefl
    have hjournal : f ∈ m.journal.entries := by
      rcases h.covers hf with ⟨f', hf', heq⟩ | hbeyond
      · exact Entry.eq_of_position_eq h.records.pairwise (h.newest.subset hf') hf heq ▸ hf'
      · exact absurd (Std.lt_trans hef (hbeyond e (hmem e he))) Std.lt_irrefl
    rw [hsplit] at hjournal
    rcases List.mem_append.1 hjournal with hf | hf
    · exact absurd hlt (Std.not_lt.2 (hcut r hr f hf hrf v hv))
    · exact ⟨f, hf, hbefore, hrf⟩
  · exact .inl (Timeline.eq_of_position_eq hdecreasing (hsub.subset hr) (hsub.subset hv) heq.symm)

theorem Faithful.read_trimmed_eq (h : m.Faithful seed rs)
    (htrim : m.journal.trim cutoff = (.ok oldest, j')) (hwindow : readFrom.isEmpty = false)
    (hread : m.read k stamp readFrom = .ok ans) :
    ∃ b b' found, m.journal.snapshotAt m.issuer (m.readStamp stamp) = .ok b ∧
      j'.snapshotAt m.issuer (m.readStamp stamp) = .ok b' ∧
      m.store.get k (.snapshot b) = .ok found ∧
      ans = found.withTxBound (.snapshot b) ∧
      ∀ store, ({ m with journal := j', store } : Member).read k stamp readFrom =
        (do return (← store.get k (.snapshot b')).withTxBound (.snapshot b')) := by
  obtain ⟨hstarted', hlatest, -⟩ := Journal.trim_ok htrim
  obtain ⟨b, found, -, hb, hfound, hans⟩ := read_stamp_ok hwindow (fun _ => h.started) hread
  obtain ⟨s₀, hs₀, -⟩ := Journal.snapshotAt_ok hb
  have hb' := Journal.snapshotAt_eq (j := j') hs₀
  exact ⟨b, _, found, hb, hb', hfound, hans, fun store =>
    read_of_read_ok hwindow hread h.started hstarted' hlatest hb'⟩

/-- A read is answered after a collection as before, or is told that the history of the key is gone,
as long as no overlooked entry has written a revision that is left of the key. -/
theorem Faithful.read_trimmed (h : m.Faithful seed rs)
    (htrim : m.journal.trim cutoff = (.ok oldest, j')) (hwindow : readFrom.isEmpty = false)
    (hread : m.read k stamp readFrom = .ok ans) {m' : Member}
    (hm' : m' = { m with journal := j', store := m.store.collect bound.admits })
    (hnone : ∀ e, Overlooked m m' stamp e →
      ∀ v ∈ (m'.store.timeline k).revisions, v.position ≠ e.position) :
    (∃ b, m'.read k stamp readFrom = .ok (ans.withTxBound (.snapshot b))) ∨
      ∃ asOf, m'.read k stamp readFrom = .error (.unavailable asOf (.collected k)) := by
  obtain ⟨-, -, dropped, hsplit, -, -⟩ := Journal.trim_ok htrim
  obtain ⟨b, b', found, hb, hb', hfound, rfl, hafter⟩ := h.read_trimmed_eq htrim hwindow hread
  have hsame : ∀ r ∈ ((m.store.timeline k).collect bound.admits).revisions,
      b.admits r.stamp = b'.admits r.stamp := by
    intro r hr
    obtain ⟨f, hf, hrf⟩ := h.written k r ((Timeline.throughFirst_sublist _ _).subset hr)
    show b.admitsAt r.position = b'.admitsAt r.position
    rw [hrf]
    rcases h.admits_trimmed hsplit hb hb' hf with heq | ⟨hdropped, hbeyond⟩
    · exact heq
    · have hmem : f ∈ m.journal.entries := hsplit ▸ List.mem_append_left _ hdropped
      obtain ⟨hat, hsnapshot, hvalue⟩ := (h.beyond_readStamp_iff hmem).1 hbeyond
      have hgone : f ∉ j'.entries := by
        intro hf'
        have hbefore := (List.pairwise_append.1 (hsplit ▸ h.chronological)).2.2 f hdropped f hf'
        exact Std.lt_irrefl hbefore.position_lt
      refine absurd hrf (hnone f (hm' ▸ ⟨hmem, hgone, hsnapshot, hvalue, hat⟩) r ?_)
      rw [hm', Store.timeline_collect]
      exact hr
  rw [hm', hafter, Store.get_snapshot, Store.timeline_collect]
  rw [Store.get_snapshot] at hfound
  rcases Timeline.sight_collect_cases hsame with heq | ⟨hnone, htrimmed⟩
  · rw [heq]
    cases hsight : (m.store.timeline k).sight b.admits with
    | some sighting =>
      rw [hsight] at hfound
      cases hfound
      exact .inl ⟨b', rfl⟩
    | none =>
      rw [hsight] at hfound
      dsimp only at hfound ⊢
      split at hfound
      · cases hfound
      · cases hfound
        split
        · exact .inr ⟨_, rfl⟩
        · exact .inl ⟨b', rfl⟩
  · rw [hnone]
    simp only [htrimmed, if_true]
    exact .inr ⟨_, rfl⟩

/-- A revision that an overlooked entry has written, if it is left of the key, is what the read is
answered with after the collection, and is not what it was answered with before. -/
theorem Faithful.read_overlooked (h : m.Faithful seed rs)
    (hbound : m.journal.snapshotAt m.issuer cutoff = .ok bound)
    (htrim : m.journal.trim cutoff = (.ok oldest, j')) (hwindow : readFrom.isEmpty = false)
    (hread : m.read k stamp readFrom = .ok ans) {m' : Member}
    (hm' : m' = { m with journal := j', store := m.store.collect bound.admits })
    (hover : Overlooked m m' stamp e) {v : Revision} (hv : v ∈ (m'.store.timeline k).revisions)
    (hve : v.position = e.position) :
    ∃ ans', m'.read k stamp readFrom = .ok ans' ∧ ans'.creation = .write v.stamp ∧
    ans.creation ≠ .write v.stamp := by
  obtain ⟨-, -, dropped, hsplit, hdropped, -⟩ := Journal.trim_ok htrim
  obtain ⟨b, b', found, hb, hb', hfound, rfl, hafter⟩ := h.read_trimmed_eq htrim hwindow hread
  obtain ⟨s₀, hs₀, -⟩ := Journal.snapshotAt_ok hb
  rw [hm', Store.timeline_collect] at hv
  have hgone : e ∉ j'.entries := by simpa [hm'] using hover.trimmed
  have he : e ∈ dropped := (List.mem_append.1 (hsplit ▸ hover.mem)).resolve_right hgone
  obtain ⟨hat, hsnapshot, hvalue⟩ := (h.beyond_readStamp_iff hover.mem).2
    ⟨hover.beyond, hover.not_snapshot, hover.value_eq⟩
  have hchronological := h.chronological
  rw [hsplit] at hchronological
  obtain ⟨-, hkept, hbefore⟩ := List.pairwise_append.1 hchronological
  -- Before the collection the bound excluded what the entry had written, and after it the bound
  -- does not.
  have hnot : b.admits v.stamp = false := by
    have hnot := mt (Journal.admits_snapshotAt_iff h.chronological hb hover.mem).1 (by simp [hat])
    show b.admitsAt v.position = false
    rw [hve]
    exact Bool.eq_false_iff.2 hnot
  have hadm : b'.admits v.stamp = true := by
    show b'.admitsAt v.position = true
    rw [hve]
    show b'.admits e.write = true
    rw [Journal.admits_before hs₀ hb' fun f hf => (hbefore e he f hf).position_lt]
    exact (Issuer.admits_toSnapshot_iff hs₀ hat).2 ⟨hsnapshot, hvalue⟩
  have honly : ∀ r ∈ ((m.store.timeline k).collect bound.admits).revisions, b'.admits r.stamp =
      true → r = v := by
    intro r hr hradm
    rcases h.eq_or_mem_of_kept hbound hsplit hdropped he hv hve hr with rfl | ⟨f, hf, hef, hrf⟩
    · rfl
    · have hradm : b'.admitsAt r.position = true := hradm
      rw [hrf] at hradm
      have hfat := Journal.atOrBefore_of_admits hkept hb' hf hradm
      rw [Entry.atOrBefore_of_before hfat hef hsnapshot] at hat
      cases hat
  obtain ⟨sighting, hsight, rfl⟩ := Timeline.exists_sight_of_unique hv hadm honly
  rw [hm', hafter, Store.get_snapshot, Store.timeline_collect, hsight]
  refine ⟨_, rfl, rfl, ?_⟩
  intro hsame
  simp [Store.admits_of_get hfound hsame] at hnot

end Member

namespace Session

/-- Take any run of a member that keeps history, any collection that then succeeds, and any read of
a transaction with a window, at a stamp of any kind, that was answered before the collection. After
it the same read is answered with the same write, or told that the history of the key is gone;
unless a revision is left of the key that an entry has written which is overlooked at the stamp. If
there is such a revision, then it is what the read is answered with, though it was not before. -/
theorem read_trimmed_cases {settings : Settings} (hkeeps : settings.keepsHistory = true)
    (address : Address) (view : View) (owns : Key → Bool) (events : List Event) {s : Session}
    (hs : s = (start settings address view owns).run events) {m' : Member}
    (hgc : (∃ cutoff n, s.member.gc cutoff = .ok (n, m')) ∨
      ∃ cutoff n, s.member.gcBefore cutoff = .ok (n, m'))
    {k : Key} {stamp : Stamp} {readFrom : OrderedSet Nat} (hwindow : readFrom.isEmpty = false)
    {ans : Answer} (hread : s.member.read k stamp readFrom = .ok ans) :
    ((∀ e, Overlooked s.member m' stamp e →
      ∀ v ∈ (m'.store.timeline k).revisions, v.position ≠ e.position) →
      (∃ b, m'.read k stamp readFrom = .ok (ans.withTxBound (.snapshot b))) ∨
        ∃ asOf, m'.read k stamp readFrom = .error (.unavailable asOf (.collected k))) ∧
    ∀ e, Overlooked s.member m' stamp e →
    ∀ v ∈ (m'.store.timeline k).revisions, v.position = e.position →
      ∃ ans', m'.read k stamp readFrom = .ok ans' ∧ ans'.creation = .write v.stamp ∧
      ans.creation ≠ .write v.stamp := by
  obtain ⟨rs, hsound⟩ := Sound.run_start hkeeps address view owns events
  rw [← hs] at hsound
  obtain ⟨cutoff, n, hgc⟩ : ∃ cutoff n, s.member.gc cutoff = .ok (n, m') := by
    rcases hgc with hgc | ⟨value, n, hgc⟩
    · exact hgc
    · obtain ⟨_, _, _, bound, -, -, -, -, hgc⟩ := Member.gcBefore_ok hgc
      exact ⟨bound, n, hgc⟩
  obtain ⟨bound, oldest, j', hbound, htrim, hm', -⟩ := Member.gc_ok hgc
  refine ⟨hsound.faithful.read_trimmed htrim hwindow hread hm', ?_⟩
  intro e hover v hv hve
  exact hsound.faithful.read_overlooked hbound htrim hwindow hread hm' hover hv hve

/-- At a snapshot nothing is overlooked: the second of two commits of its value is read before and
after it has become the oldest revision. -/
theorem read_trimmed_cases_snapshot :
    ∃ (s : Session) (n : Nat) (m' : Member) (ans : Answer) (b : Snapshot),
      s = (start {} "a" ⟨1, ["a"]⟩ fun _ => true).run
        [.apply 0 [.single ⟨.replicated, 1, 1⟩ "k" (some "x"),
          .single ⟨.replicated, 1, 1⟩ "k" (some "y"), .single ⟨.replicated, 1, 2⟩ "j" (some "z")]] ∧
      s.member.gcBefore 2 = .ok (n, m') ∧
      s.member.read "k" (.snapshot { view := 1, value := 1 }) (.ofList [0]) = .ok ans ∧
      ans.value = some "y" ∧
      m'.read "k" (.snapshot { view := 1, value := 1 }) (.ofList [0]) =
        .ok (ans.withTxBound (.snapshot b)) := by
  obtain ⟨s, n, m', ans, ans', hs, hgc, hread, hans, hread'⟩ :
      ∃ (s : Session) (n : Nat) (m' : Member) (ans ans' : Answer),
        s = (start {} "a" ⟨1, ["a"]⟩ fun _ => true).run
          [.apply 0 [.single ⟨.replicated, 1, 1⟩ "k" (some "x"),
            .single ⟨.replicated, 1, 1⟩ "k" (some "y"),
            .single ⟨.replicated, 1, 2⟩ "j" (some "z")]] ∧
        s.member.gcBefore 2 = .ok (n, m') ∧
        s.member.read "k" (.snapshot { view := 1, value := 1 }) (.ofList [0]) = .ok ans ∧
        ans.value = some "y" ∧
        m'.read "k" (.snapshot { view := 1, value := 1 }) (.ofList [0]) = .ok ans' :=
    ⟨_, _, _, _, _, rfl, rfl, rfl, rfl, rfl⟩
  have hcases :=
    (read_trimmed_cases rfl "a" ⟨1, ["a"]⟩ (fun _ => true) _ hs (.inr ⟨2, n, hgc⟩) rfl hread).1
  rcases hcases fun e hover => nomatch hover.not_snapshot with ⟨b, hsame⟩ | ⟨asOf, hgone⟩
  · exact ⟨s, n, m', ans, b, hs, hgc, hread, hans, hsame⟩
  · rw [hread'] at hgone
    cases hgone

/-- At the write of the first of two commits of one value, the second is overlooked when a
collection has cut beyond both: the read is answered with the first before the collection, and with
the second after it. -/
theorem read_trimmed_overlooked :
    ∃ (s : Session) (n : Nat) (m' : Member) (ans ans' : Answer),
      s = (start {} "a" ⟨1, ["a"]⟩ fun _ => true).run
        [.apply 0 [.single ⟨.replicated, 1, 1⟩ "k" (some "x")],
          .apply 0 [.single ⟨.replicated, 1, 1⟩ "k" (some "y")],
          .apply 0 [.single ⟨.replicated, 1, 2⟩ "j" (some "z")]] ∧
      s.member.read "k" (.write ⟨1, 1, 0⟩) (.ofList [0]) = .ok ans ∧ ans.value = some "x" ∧
      s.member.gcBefore 2 = .ok (n, m') ∧
      m'.read "k" (.write ⟨1, 1, 0⟩) (.ofList [0]) = .ok ans' ∧ ans'.value = some "y" :=
  ⟨_, _, _, _, _, rfl, rfl, rfl, rfl, rfl, rfl⟩

end Session
end Multiversion
