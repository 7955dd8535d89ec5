import Multiversion.Proofs.RetainedWrites
/- What a collection leaves readable at the entries that it leaves.

   A collection trims the journal at the cutoff itself, from the oldest entry on, and the timelines
   at the bound of the cutoff, each below the newest revision that the bound admits. Of the entries,
   both reach the same ones. But the journal stops at the first entry that is not reached, and at an
   absent cutoff at once, and a timeline may be cut at any entry that is (`Member.CutBeyond`). A
   snapshot at an entry that is left reads a key as before if the key's timeline is not cut beyond
   that entry (`Member.Faithful.read_retained`), and can not read it any more otherwise
   (`Member.Faithful.read_cut_beyond`). If the cutoff reaches the entries without a gap, no timeline
   is cut beyond an entry that is left (`Member.Faithful.not_cutBeyond`). -/
namespace Multiversion

theorem Timeline.throughFirst_eq_take {keep : WriteStamp → Bool} {l : List Revision}
    (h : ∀ r ∈ l.dropLast, keep r.stamp = true) : throughFirst keep l = l.take 1 := by
  cases l with
  | nil => rfl
  | cons r older =>
    cases older with
    | nil => exact throughFirst_eq_self (by simp)
    | cons q rest =>
      rw [List.dropLast_cons_cons] at h
      rw [throughFirst, if_pos (h r List.mem_cons_self), List.take_succ_cons, List.take_zero]

theorem Timeline.exists_older {t : Timeline} {v : Revision} (hv : v ∈ t.revisions.dropLast) :
    ∃ q ∈ t.revisions, q.position < v.position := by
  rcases List.eq_nil_or_concat t.revisions with hnil | ⟨newer, q, hlast⟩
  · simp [hnil] at hv
  · have hdecreasing := t.decreasing
    rw [List.concat_eq_append] at hlast
    rw [hlast, List.dropLast_concat] at hv
    rw [hlast] at hdecreasing
    have hlt := (List.pairwise_append.1 hdecreasing).2.2 v hv q List.mem_cons_self
    exact ⟨q, by simp [hlast], hlt⟩

namespace Member

variable {m m' : Member} {seed e : Entry} {rs : List Record} {cutoff : Stamp} {n : Nat}
  {s : Snapshot} {k : Key} {readFrom : OrderedSet Nat}

/-- A collection cuts the timeline of a key beyond an entry: the cutoff reaches an entry after it
whose commit has written the key over an older revision. -/
def CutBeyond (m : Member) (cutoff : Stamp) (k : Key) (e : Entry) : Prop :=
  ∃ f ∈ m.journal.entries, e.position < f.position ∧ f.atOrBefore cutoff = true ∧
    ∃ v ∈ (m.store.timeline k).revisions.dropLast, v.position = f.position

/-- A snapshot at an entry that is left reads a key as before if its timeline is not cut beyond the
entry. -/
theorem Faithful.read_retained (h : m.Faithful seed rs) (hgc : m.gc cutoff = .ok (n, m'))
    (he : e ∈ m'.journal.entries) (hcut : s.CutsAt e.position) (hwindow : readFrom.isEmpty = false)
    (hnot : ¬ m.CutBeyond cutoff k e) :
    m'.read k (.snapshot s) readFrom = m.read k (.snapshot s) readFrom := by
  obtain ⟨bound, c, j', hbound, htrim, rfl, -⟩ := gc_ok hgc
  obtain ⟨hstarted', hlatest, dropped, hsplit, -, -⟩ := Journal.trim_ok htrim
  have hold : e ∈ m.journal.entries := hsplit ▸ List.mem_append_right dropped he
  have hadmitted : e.atOrBefore (.snapshot s) = true :=
    Entry.atOrBefore_snapshot.trans (hcut.admits_iff.2 (Std.le_refl _))
  have hsame : j'.snapshotAt m.issuer (.snapshot s) = m.journal.snapshotAt m.issuer (.snapshot s) :=
    Journal.snapshotAt_trimmed hsplit (.inr ⟨e, he, hadmitted⟩)
  refine h.read_cut (.inl ⟨e, hold, rfl⟩) hcut hwindow hstarted' hlatest hsame ?_
  intro v hv hkeep
  obtain ⟨f, hf, hvf⟩ := h.mem_journal_of_recent hv
  have hreached : f.atOrBefore cutoff = true := by
    apply (Journal.admits_snapshotAt_iff h.chronological hbound hf).1
    show bound.admitsAt f.position = true
    rw [← hvf]
    exact hkeep
  rw [hvf]
  exact Std.not_lt.1 fun hlt => hnot ⟨f, hf, hlt, hreached, v, hv, hvf⟩

/-- It can not read the key any more if it is. -/
theorem Faithful.read_cut_beyond (h : m.Faithful seed rs) (hgc : m.gc cutoff = .ok (n, m'))
    (hcut : s.CutsAt e.position) (hwindow : readFrom.isEmpty = false)
    (hbeyond : m.CutBeyond cutoff k e) {ans : Answer}
    (hread : m.read k (.snapshot s) readFrom = .ok ans) :
    ∃ asOf, m'.read k (.snapshot s) readFrom = .error (.unavailable asOf (.collected k)) := by
  obtain ⟨bound, c, j', hbound, htrim, rfl, -⟩ := gc_ok hgc
  obtain ⟨hstarted', hlatest, -⟩ := Journal.trim_ok htrim
  obtain ⟨f, hf, hlt, hreached, v, hv, hvf⟩ := hbeyond
  obtain ⟨q, hq, hqv⟩ := Timeline.exists_older hv
  have hkeep : bound.admitsAt v.position = true := by
    rw [hvf]
    exact (Journal.admits_snapshotAt_iff h.chronological hbound hf).2 hreached
  exact h.read_lost hcut hwindow hread hstarted' hlatest (List.dropLast_subset _ hv) hkeep
    (hvf ▸ hlt) hq hqv

theorem Faithful.read_gc_first (h : m.Faithful seed rs) (hgc : m.gc cutoff = .ok (n, m'))
    {tx : Stamp} (hwindow : readFrom.isEmpty = true) :
    m'.read k tx readFrom = m.read k tx readFrom := by
  obtain ⟨bound, c, j', hbound, htrim, rfl, -⟩ := gc_ok hgc
  obtain ⟨hstarted', hlatest, dropped, hsplit, -, -⟩ := Journal.trim_ok htrim
  exact h.read_cut_first hwindow hsplit hstarted' hlatest

/-- A cutoff that reaches the entries without a gap cuts no timeline beyond an entry that it
leaves. -/
theorem Faithful.not_cutBeyond (h : m.Faithful seed rs) (hgc : m.gc cutoff = .ok (n, m'))
    (he : e ∈ m'.journal.entries) (habsent : cutoff.isAbsent = false)
    (hback : m.journal.ReachesBack cutoff) :
    ¬ m.CutBeyond cutoff k e := by
  obtain ⟨bound, c, j', -, htrim, rfl, -⟩ := gc_ok hgc
  rintro ⟨f, hf, hlt, hreached, -⟩
  have hbeyond := Journal.not_atOrBefore_of_trim h.chronological hback habsent htrim he hf hlt
  simp [hreached] at hbeyond

theorem Faithful.gc_absent (h : m.Faithful seed rs) (hgc : m.gc .absent = .ok (n, m')) :
    m'.journal = m.journal ∧
      ∀ k, (m'.store.timeline k).revisions = (m.store.timeline k).revisions.take 1 := by
  obtain ⟨bound, c, j', hbound, htrim, rfl, -⟩ := gc_ok hgc
  constructor
  · obtain ⟨-, ⟨-, rfl⟩ | ⟨hpresent, -⟩⟩ := Journal.trim_cases htrim
    · rfl
    · cases hpresent
  · intro k
    rw [Store.timeline_collect]
    apply Timeline.throughFirst_eq_take
    intro v hv
    obtain ⟨f, hf, hvf⟩ := h.mem_journal_of_recent hv
    show bound.admitsAt v.position = true
    rw [hvf]
    exact (Journal.admits_snapshotAt_iff h.chronological hbound hf).2 rfl

end Member

namespace Session

/-- Take any run of a member that keeps history, a collection at any cutoff, and a snapshot at an
entry that is left. For every key the snapshot is answered, or refused, as before, unless the key's
timeline is cut beyond the entry and the reader has a window; then every read of the key that was
answered before is refused. This can not happen at a commit or a write, nor at a snapshot that
reaches the entries without a gap. At an absent cutoff the journal stays as it is, and every key
loses all but its newest revision. -/
theorem retained_read_cases {settings : Settings} (hkeeps : settings.keepsHistory = true)
    (address : Address) (view : View) (owns : Key → Bool) (events : List Event) {s : Session}
    (hs : s = (start settings address view owns).run events) {cutoff : Stamp} {n : Nat}
    {m' : Member} (hgc : s.member.gc cutoff = .ok (n, m')) :
    (∀ e ∈ m'.journal.entries, ∀ t : Snapshot, t.CutsAt e.position →
      ∀ (k : Key) (readFrom : OrderedSet Nat),
      ((readFrom.isEmpty = false → ¬ s.member.CutBeyond cutoff k e) →
        m'.read k (.snapshot t) readFrom = s.member.read k (.snapshot t) readFrom) ∧
      (readFrom.isEmpty = false → s.member.CutBeyond cutoff k e →
        ∀ ans, s.member.read k (.snapshot t) readFrom = .ok ans →
          ∃ asOf, m'.read k (.snapshot t) readFrom = .error (.unavailable asOf (.collected k))) ∧
      (cutoff.isAbsent = false → cutoff.snapshot? = none ∨ s.member.journal.ReachesBack cutoff →
        ¬ s.member.CutBeyond cutoff k e)) ∧
      (cutoff = .absent → m'.journal = s.member.journal ∧
        ∀ k, (m'.store.timeline k).revisions = (s.member.store.timeline k).revisions.take 1) := by
  obtain ⟨rs, hsound⟩ := Sound.run_start hkeeps address view owns events
  rw [← hs] at hsound
  have h := hsound.faithful
  constructor
  · intro e he t hcut k readFrom
    refine ⟨fun hnot => ?_, fun hwindow hbeyond ans hread => ?_, fun habsent hreaches => ?_⟩
    · cases hwindow : readFrom.isEmpty with
      | true => exact h.read_gc_first hgc hwindow
      | false => exact h.read_retained hgc he hcut hwindow (hnot hwindow)
    · exact h.read_cut_beyond hgc hcut hwindow hbeyond hread
    · have hback : s.member.journal.ReachesBack cutoff :=
        hreaches.elim Journal.reachesBack_of_not_snapshot id
      exact h.not_cutBeyond hgc he habsent hback
  · rintro rfl
    exact h.gc_absent hgc

/-- A collection at a commit leaves its entry, and a snapshot there reads what it read before. -/
theorem retained_read_cases_commit :
    ∃ (s : Session) (m' : Member) (ans : Answer), s = (start {} "a" ⟨1, ["a"]⟩ fun _ => true).run
        [.apply 0 [.single ⟨.replicated, 1, 1⟩ "k" (some "w")],
          .apply 0 [.single ⟨.replicated, 1, 2⟩ "k" (some "x")],
          .apply 0 [.single ⟨.replicated, 1, 3⟩ "k" (some "y")]] ∧
      s.member.gc (.commit ⟨.replicated, 1, 2⟩) = .ok (1, m') ∧ ans.value = some "x" ∧
      s.member.read "k" (.snapshot ⟨1, 2, some 0, .empty⟩) (.ofList [0]) = .ok ans ∧
      m'.read "k" (.snapshot ⟨1, 2, some 0, .empty⟩) (.ofList [0]) = .ok ans := by
  obtain ⟨s, m', e, ans, hs, hgc, he, hpos, hread, hans⟩ :
      ∃ (s : Session) (m' : Member) (e : Entry) (ans : Answer),
      s = (start {} "a" ⟨1, ["a"]⟩ fun _ => true).run
        [.apply 0 [.single ⟨.replicated, 1, 1⟩ "k" (some "w")],
          .apply 0 [.single ⟨.replicated, 1, 2⟩ "k" (some "x")],
          .apply 0 [.single ⟨.replicated, 1, 3⟩ "k" (some "y")]] ∧
      s.member.gc (.commit ⟨.replicated, 1, 2⟩) = .ok (1, m') ∧ e ∈ m'.journal.entries ∧
      e.position = ⟨2, 0⟩ ∧
      s.member.read "k" (.snapshot ⟨1, 2, some 0, .empty⟩) (.ofList [0]) = .ok ans ∧
      ans.value = some "x" :=
    ⟨_, _, _, _, rfl, rfl, List.mem_cons_self, rfl, rfl, rfl⟩
  have hcut : (⟨1, 2, some 0, .empty⟩ : Snapshot).CutsAt e.position := ⟨hpos.symm, by simp⟩
  obtain ⟨hreads, -⟩ := retained_read_cases rfl "a" ⟨1, ["a"]⟩ (fun _ => true) _ hs hgc
  obtain ⟨hsame, -, hnot⟩ := hreads e he _ hcut "k" (.ofList [0])
  exact ⟨s, m', ans, hs, hgc, hans, hread, (hsame fun _ => hnot rfl (.inl rfl)).trans hread⟩

/-- The entries of both commits are left, by an absent cutoff and by a snapshot that reaches the
second without the first. Yet the revision of the first commit goes, and the snapshot that read it
is refused. -/
theorem retained_read_refused :
    ∃ (s : Session) (e : Entry) (ans : Answer), s = (start {} "a" ⟨1, ["a"]⟩ fun _ => true).run
        [.apply 0 [.single ⟨.replicated, 1, 1⟩ "k" (some "x")],
          .apply 0 [.single ⟨.replicated, 1, 2⟩ "k" (some "y")]] ∧
      (⟨1, 1, some 0, .empty⟩ : Snapshot).CutsAt e.position ∧ ans.value = some "x" ∧
      s.member.read "k" (.snapshot ⟨1, 1, some 0, .empty⟩) (.ofList [0]) = .ok ans ∧
      ∀ cutoff ∈ [.absent, .snapshot ⟨1, 2, none, .ofList [⟨1, 0⟩]⟩],
      ∃ m' asOf, s.member.gc cutoff = .ok (1, m') ∧
        e ∈ m'.journal.entries ∧
        m'.read "k" (.snapshot ⟨1, 1, some 0, .empty⟩) (.ofList [0]) =
          .error (.unavailable asOf (.collected "k")) := by
  refine ⟨_, ⟨⟨.replicated, 1, 1⟩, 0, .only (.ofList ["k"])⟩, _, rfl, ⟨rfl, by simp⟩, ?_, rfl, ?_⟩
  · rfl
  · intro cutoff hcutoff
    simp only [List.mem_cons, List.not_mem_nil, or_false] at hcutoff
    rcases hcutoff with rfl | rfl
    · exact ⟨_, _, rfl, List.mem_cons_of_mem _ List.mem_cons_self, rfl⟩
    · exact ⟨_, _, rfl, List.mem_cons_of_mem _ List.mem_cons_self, rfl⟩

end Session
end Multiversion
