import Multiversion.Proofs.SnapshotIsolation
/- Reads for transactions of other members.

   A member answers such a read once its greatest commit is not before the commit value and view of
   the snapshot (`Member.checkReached_snapshot`). That says nothing of sub-versions: a member that
   has applied some but not all commits of the value and view at which the snapshot was taken
   passes, and answers from what it has.

   `remote_read_cases` says what a read that succeeds may find, and exactly when it finds what the
   transaction's own member held when the transaction began. `remote_read_outdated` is a run in
   which it does not. -/
namespace Multiversion

namespace Member

variable {m : Member} {seed e : Entry} {rs : List Record} {s : Snapshot} {readFrom : OrderedSet Nat}
  {c : CommitStamp}

/-- What a member must have applied before it answers is the commit value and view of the
snapshot. -/
theorem floor_snapshot_ok {i : Issuer} {least : Option CommitStamp}
    (hwindow : readFrom.isEmpty = false) (h : i.floor (.snapshot s) readFrom = .ok least) :
    least = some (i.stampAt ⟨s.value, s.view⟩) := by
  simp only [Issuer.floor, Issuer.windowView?, hwindow, Stamp.view?, Stamp.rank?, Option.map_some,
    Issuer.rankOf] at h
  obtain ⟨_, -, h⟩ := bind_eq_ok.1 h
  obtain ⟨_, hrank, h⟩ := bind_eq_ok.1 h
  obtain ⟨_, -, hrank⟩ := bind_eq_ok.1 hrank
  cases hrank
  exact (Except.ok.inj h).symm

/-- A read waits for the greatest commit to come to the commit value and view of the snapshot. -/
theorem checkReached_snapshot_eq {least : Option CommitStamp} (hwindow : readFrom.isEmpty = false)
    (hlast : m.journal.head? = some e) (hlatest : m.journal.latest = some c)
    (hfloor : m.issuer.floor (.snapshot s) readFrom = .ok least) :
    m.checkReached (.snapshot s) readFrom =
      if (⟨s.value, s.view⟩ : Rank) ≤ c.rank then .ok ()
      else .error (.unavailable (.commit (m.issuer.stampAt ⟨s.value, s.view⟩))
        (.notApplied m.settings.replicationTimeout)) := by
  obtain rfl := floor_snapshot_ok hwindow hfloor
  have hreached : m.journal.reached (.commit (m.issuer.stampAt ⟨s.value, s.view⟩)) =
      .ok (decide ((⟨s.value, s.view⟩ : Rank) ≤ c.rank)) := by
    simp only [Journal.reached, hlast, Journal.mark, hlatest, Stamp.atOrAfter_commit]
    rfl
  simp only [checkReached, hfloor, hreached, mapError_ok, ok_bind, decide_eq_true_eq]
  rfl

/-- A member has caught up with a snapshot, as far as reads wait for it, when its greatest commit is
not before the snapshot's commit value and view. -/
theorem checkReached_snapshot {least : Option CommitStamp} (hwindow : readFrom.isEmpty = false)
    (hlast : m.journal.head? = some e) (hlatest : m.journal.latest = some c)
    (hfloor : m.issuer.floor (.snapshot s) readFrom = .ok least) :
    m.checkReached (.snapshot s) readFrom = .ok () ↔ (⟨s.value, s.view⟩ : Rank) ≤ c.rank := by
  rw [checkReached_snapshot_eq hwindow hlast hlatest hfloor]
  split <;> simp_all

theorem Faithful.value_of_read_behind {k : Key} {p : Position} {ans : Answer}
    (h : m.Faithful seed rs) (hk : m.owns k = true) (hs : s.CutsAt p)
    (hp : (lastEntry seed rs).position ≤ p) (hwindow : readFrom.isEmpty = false)
    (hread : m.read k (.snapshot s) readFrom = .ok ans) :
    ans.value = heldAfter (rs.map (·.commit)) k := by
  obtain ⟨b, found, -, hb, hfound, rfl⟩ := Member.read_ok hwindow hread
  obtain ⟨hexc, hpos⟩ := Journal.snapshotAt_of_cutsAt h.chronological hs hb
  -- Taken here, the bound may be pinned lower than the snapshot, but not below the newest entry.
  have hlast : (lastEntry seed rs).position ≤ b.position := by
    rcases hpos with hpos | ⟨f, -, hpos, -, hmax⟩
    · exact hpos ▸ hp
    · exact hpos ▸ hmax _ (List.mem_of_getLast? h.head?_eq) hp
  have hkept : (m.store.timeline k).NewestOf (revisionsOf k (rs ++ [])) := by
    rw [List.append_nil]
    exact h.kept k hk
  show found.value = _
  refine Store.value_of_get hkept ?_ (fun r hr => absurd hr List.not_mem_nil) hfound
  intro r hr
  have hle := h.records.position_le_lastEntry (List.mem_cons_of_mem _ (List.mem_map_of_mem hr))
  refine Snapshot.admitsAt_iff.2 ⟨Std.le_trans hle hlast, ?_⟩
  intro hx
  exact Std.lt_irrefl (Std.lt_of_lt_of_le (hexc _ hx) (Std.le_trans hle hp))

/-- A member that has answered a read has caught up with the snapshot, as far as reads wait for
it. -/
theorem Faithful.rank_le_of_read {k : Key} {ans : Answer} (h : m.Faithful seed rs)
    (hwindow : readFrom.isEmpty = false) (hread : m.read k (.snapshot s) readFrom = .ok ans) :
    (⟨s.value, s.view⟩ : Rank) ≤ (lastEntry seed rs).stamp.rank := by
  obtain ⟨c, hlatest, hrank⟩ := h.latest
  obtain ⟨_, _, hreached, -⟩ := read_ok hwindow hread
  obtain ⟨least, hfloor, -⟩ := bind_eq_ok.1 hreached
  rw [← hrank]
  exact (checkReached_snapshot hwindow h.head?_eq hlatest (mapError_eq_ok.1 hfloor)).1 hreached

end Member

namespace Session

/-- Let a transaction begin on one member, and let another member, which has applied more or fewer
of the same commits, answer a read for it. If that member has applied all that the transaction has
seen, the answer is what the transaction's own member held when the transaction began. If it has
not, then its greatest commit has just the commit value and view of the snapshot, and the answer is
what it holds itself. -/
theorem remote_read_cases {settings settings' : Settings} (hkeeps : settings.keepsHistory = true)
    (hkeeps' : settings'.keepsHistory = true)
    (hplacement : settings'.placement = settings.placement) (address address' : Address)
    (view : View) (owns owns' : Key → Bool) (events events' : List Event) {s s' : Session}
    (hs : s = (start settings address view owns).run events)
    (hs' : s' = (start settings' address' view owns').run events') {commits : List Commit}
    (happlied : s.applied <+: commits) (happlied' : s'.applied <+: commits) {tx : Transaction}
    {m : Member} (hbegin : s.member.begin = .ok (tx, m)) {k : Key} (hk : owns' k = true)
    {ans : Answer} (hread : s'.member.read k tx.stamp tx.readFrom = .ok ans) :
    (ans.value = heldAfter s.applied k ↔ s.applied <+: s'.applied ∨
      heldAfter s'.applied k = heldAfter s.applied k) ∧
      (¬ s.applied <+: s'.applied → ans.value = heldAfter s'.applied k ∧
        ∃ c, s'.member.journal.latest = some c ∧ tx.stamp.rank? = some c.rank) := by
  obtain ⟨rs, hsound⟩ := Sound.run_start hkeeps address view owns events
  obtain ⟨rs', hsound'⟩ := Sound.run_start hkeeps' address' view owns' events'
  have hseed : settings'.seed view = settings.seed view := by simp [Settings.seed, hplacement]
  have howns : s'.member.owns k = true := by
    rw [hs', (frame_run _ events').owns_eq]
    exact hk
  rw [← hs] at hsound
  rw [← hs', hseed] at hsound'
  obtain ⟨b, hb, -, hstamp, hwindow, -⟩ := Member.begin_ok hbegin
  obtain ⟨hcut, hvalue, hview, -⟩ := hsound.faithful.beginSnapshot hb
  rw [hstamp] at hread ⊢
  rw [hsound.applied_eq, hsound'.applied_eq]
  by_cases hpre : rs.map (·.commit) <+: rs'.map (·.commit)
  · -- The member has applied all that the transaction has seen.
    obtain ⟨rest, rfl⟩ := hsound.faithful.records.prefix_of_commits hsound'.faithful.records hpre
    have hans := hsound'.faithful.value_of_read howns hcut hwindow hread
    exact ⟨⟨fun _ => .inl hpre, fun _ => hans⟩, fun hnot => absurd hpre hnot⟩
  · -- It lacks some of it, and only its greatest commit can have let the read through.
    rw [hsound.applied_eq] at happlied
    rw [hsound'.applied_eq] at happlied'
    have hpre' : rs'.map (·.commit) <+: rs.map (·.commit) :=
      (List.prefix_or_prefix_of_prefix happlied happlied').resolve_left hpre
    obtain ⟨rest, rfl⟩ := hsound'.faithful.records.prefix_of_commits hsound.faithful.records hpre'
    have hmem := lastEntry_mem_log (settings.seed view) (List.prefix_append rs' rest)
    have hans := hsound'.faithful.value_of_read_behind howns hcut
      (hsound.faithful.records.position_le_lastEntry hmem) hwindow hread
    obtain ⟨c, hlatest, hc⟩ := hsound'.faithful.latest
    have hge := hsound'.faithful.rank_le_of_read hwindow hread
    have hle : c.rank ≤ ⟨b.value, b.view⟩ :=
      calc c.rank = (lastEntry (settings.seed view) rs').stamp.rank := hc
        _ ≤ (lastEntry (settings.seed view) (rs' ++ rest)).stamp.rank :=
          hsound.faithful.records.rank_le_lastEntry hmem
        _ ≤ ⟨b.value, b.view⟩ := Rank.le_iff.2 (.inr ⟨hvalue.symm, hview⟩)
    have hrank : (⟨b.value, b.view⟩ : Rank) = c.rank := Std.le_antisymm (hc ▸ hge) hle
    constructor
    · exact ⟨fun h => .inr (hans.symm.trans h), fun h => hans.trans (h.resolve_left hpre)⟩
    · exact fun _ => ⟨hans, c, hlatest, congrArg some hrank⟩

/-- A member that is ahead answers as of the beginning of the transaction. -/
theorem remote_read_cases_ahead :
    ∃ (s s' : Session) (tx : Transaction) (m : Member) (ans : Answer),
      s = (start {} "a" ⟨1, ["a", "b"]⟩ fun _ => true).run
        [.apply 0 [.single ⟨.replicated, 1, 1⟩ "k" (some "x")]] ∧
      s' = (start {} "b" ⟨1, ["a", "b"]⟩ fun _ => true).run
        [.apply 0 [.single ⟨.replicated, 1, 1⟩ "k" (some "x"),
          .single ⟨.replicated, 1, 1⟩ "k" (some "y")]] ∧
      s.member.begin = .ok (tx, m) ∧ s'.member.read "k" tx.stamp tx.readFrom = .ok ans ∧
      ans.value = heldAfter s.applied "k" := by
  obtain ⟨s, s', tx, m, ans, hs, hs', hpre, hbegin, hread⟩ :
      ∃ (s s' : Session) (tx : Transaction) (m : Member) (ans : Answer),
        s = (start {} "a" ⟨1, ["a", "b"]⟩ fun _ => true).run
          [.apply 0 [.single ⟨.replicated, 1, 1⟩ "k" (some "x")]] ∧
        s' = (start {} "b" ⟨1, ["a", "b"]⟩ fun _ => true).run
          [.apply 0 [.single ⟨.replicated, 1, 1⟩ "k" (some "x"),
            .single ⟨.replicated, 1, 1⟩ "k" (some "y")]] ∧
        s.applied <+: s'.applied ∧ s.member.begin = .ok (tx, m) ∧
        s'.member.read "k" tx.stamp tx.readFrom = .ok ans :=
    ⟨_, _, _, _, _, rfl, rfl, ⟨_, rfl⟩, rfl, rfl⟩
  have hcases :=
    remote_read_cases rfl rfl rfl "a" "b" ⟨1, ["a", "b"]⟩ (fun _ => true)
      (fun _ => true) _ _ hs hs' hpre
    List.prefix_rfl hbegin (k := "k") rfl hread
  exact ⟨s, s', tx, m, ans, hs, hs', hbegin, hread, hcases.1.2 (.inl hpre)⟩

/-- A member that lacks the second of two commits of one value is not held back: it answers a
transaction that began after both with the first, and, once it has applied the second, with that. -/
theorem remote_read_outdated :
    ∃ (s s' : Session) (tx : Transaction) (m : Member) (ans ans' : Answer),
      s = (start {} "a" ⟨1, ["a", "b"]⟩ fun _ => true).run
        [.apply 0 [.single ⟨.replicated, 1, 1⟩ "k" (some "x")],
          .apply 0 [.single ⟨.replicated, 1, 1⟩ "k" (some "y")]] ∧
      s' = (start {} "b" ⟨1, ["a", "b"]⟩ fun _ => true).run
        [.apply 0 [.single ⟨.replicated, 1, 1⟩ "k" (some "x")]] ∧
      s'.applied <+: s.applied ∧ s.member.begin = .ok (tx, m) ∧ heldAfter s.applied "k" = some "y" ∧
      s'.member.read "k" tx.stamp tx.readFrom = .ok ans ∧ ans.value = some "x" ∧
      (s'.step (.apply 0 [.single ⟨.replicated, 1, 1⟩ "k" (some "y")])).member.read "k"
        tx.stamp tx.readFrom =
          .ok ans' ∧
      ans'.value = some "y" :=
  ⟨_, _, _, _, _, _, rfl, rfl, ⟨_, rfl⟩, rfl, rfl, rfl, rfl, rfl, rfl⟩

end Session
end Multiversion
