import Multiversion.Proofs.Collection
import Multiversion.Proofs.RemoteRead
/- The first read of a transaction, where it began.

   The snapshot of a new transaction is stamped with the current view, and a read waits for a commit
   of that view. So a transaction can read at once exactly if the greatest commit of its member is
   of the current view (`first_read_iff`): then it finds every key, because no timeline is ever left
   without its newest revision (`Store.Rooted`). From a change of the view until the first commit of
   the new view it finds none (`first_read_after_view_change`). -/
namespace Multiversion

theorem Issuer.checkIndexes_current {i : Issuer} {address : Address} {n : Nat}
    (h : i.views.current.indexOf? address = some n) :
    i.checkIndexes i.currentView (.ofList [n]) = .ok () := by
  obtain ⟨hlt, -⟩ := List.findIdx?_eq_some_iff_getElem.1 h
  have hmember : firstOutside i.views.current (OrderedSet.ofList [n]).toList = none := by
    apply List.find?_eq_none.2
    intro j hj
    obtain rfl : j = n := List.mem_singleton.1 (OrderedSet.mem_ofList.1 hj)
    simp [View.member?, hlt]
  rw [checkIndexes, currentView, ViewTable.get_currentId, ok_bind, hmember]

/-- No timeline has lost all of its revisions to collections. -/
def Store.Rooted (s : Store) : Prop :=
  ∀ k, (s.timeline k).trimmed = true → (s.timeline k).revisions ≠ []

namespace Store

variable {s s' : Store}

theorem Rooted.stored (h : s.Rooted) {owns : Key → Bool} {rs : List Record}
    (hs : Member.Stored owns rs s s') :
    s'.Rooted := by
  intro k htrimmed
  obtain ⟨added, hrevisions, -⟩ := hs.revisions_eq k
  rw [hrevisions]
  exact List.append_ne_nil_of_right_ne_nil added (h k (hs.trimmed_eq k ▸ htrimmed))

theorem Rooted.collect (h : s.Rooted) (keep : WriteStamp → Bool) : (s.collect keep).Rooted := by
  intro k htrimmed
  rw [timeline_collect] at htrimmed ⊢
  apply Timeline.throughFirst_ne_nil
  intro hnil
  have hold : (s.timeline k).trimmed = true := by
    simpa [Timeline.collect, hnil, Timeline.throughFirst] using htrimmed
  exact h k hold hnil

theorem Rooted.expire (s : Store) (now : Nat) : (s.expire now).2.Rooted := by
  intro k htrimmed
  rw [timeline_expire] at htrimmed ⊢
  split at htrimmed
  · cases htrimmed
  · next hne =>
    rw [if_neg hne]
    simpa [Timeline.isEmpty] using hne

/-- A bound that admits all revisions finds the newest one, or that the key was never written. -/
theorem Rooted.exists_get_ok (h : s.Rooted) {k : Key} {b : Snapshot}
    (hall : ∀ v ∈ (s.timeline k).revisions, b.admits v.stamp = true) :
    ∃ found, s.get k (.snapshot b) = .ok found := by
  rw [get_snapshot]
  cases hsight : (s.timeline k).sight b.admits with
  | some found => exact ⟨_, rfl⟩
  | none =>
    have hnil : (s.timeline k).revisions = [] := by
      apply List.eq_nil_iff_forall_not_mem.2
      intro v hv
      have hnot := Timeline.search_eq_none_iff.1 hsight v hv
      simp [hall v hv] at hnot
    have htrimmed : ¬ (s.timeline k).trimmed = true := fun htrimmed => h k htrimmed hnil
    exact ⟨_, if_neg htrimmed⟩

end Store

namespace Session

variable {s : Session} {seed : Entry} {rs : List Record}

theorem rooted_absorb (h : s.Sound seed rs) (hr : s.member.store.Rooted) (now : Nat)
    (batch : List Commit) :
    (s.absorb batch (s.member.applyBatch now batch)).member.store.Rooted := by
  rw [member_absorb]
  rcases h.faithful.applyBatch now batch with ⟨fault, heq⟩ | ⟨rs', m', heq, -, happ, -⟩
  · rw [heq]
    exact hr
  · rw [heq]
    exact hr.stored happ.stored

theorem rooted_collect (hr : s.member.store.Rooted) (cutoff : Stamp) :
    (s.step (.collect cutoff)).member.store.Rooted := by
  rcases collect_cases s cutoff with heq | ⟨n, m', hgc, heq⟩ <;> rw [heq]
  · exact hr
  · obtain ⟨bound, _, _, -, -, rfl, -⟩ := Member.gc_ok hgc
    exact hr.collect bound.admits

theorem rooted_step (h : s.Sound seed rs) (hr : s.member.store.Rooted) (event : Event) :
    (s.step event).member.store.Rooted := by
  cases event with
  | apply now batch => exact rooted_absorb h hr now batch
  | applyOne now k value agreed => exact rooted_absorb h hr now _
  | collect cutoff => exact rooted_collect hr cutoff
  | collectBefore value =>
    rcases collectBefore_cases s value with heq | ⟨cutoff, heq⟩ <;> rw [heq]
    · exact hr
    · exact rooted_collect hr cutoff
  | expire now => exact Store.Rooted.expire s.member.store now
  | begin =>
    rw [step]
    split
    · next hbegin =>
      obtain ⟨_, -, -, -, -, rfl⟩ := Member.begin_ok hbegin
      exact hr
    · exact hr
  | _ => exact hr

theorem rooted_run (h : s.Sound seed rs) (hr : s.member.store.Rooted) (events : List Event) :
    (s.run events).member.store.Rooted := by
  induction events generalizing s rs with
  | nil => exact hr
  | cons event rest ih =>
    obtain ⟨rs', h'⟩ := h.step event
    exact ih h' (rooted_step h hr event)

end Session

namespace Member

variable {m m' : Member} {seed : Entry} {rs : List Record} {tx : Transaction}

theorem begin_readFrom (h : m.begin = .ok (tx, m')) :
    ∃ index, m.issuer.views.current.indexOf? m.address = some index ∧ m.index = .ok index ∧
      tx.readFrom = .ofList [index] := by
  simp only [begin, bind_eq_ok, mapError_eq_ok, pure_eq_ok, Except.ok.injEq, Prod.mk.injEq] at h
  obtain ⟨_, -, index, hindex, s, -, rfl, -⟩ := h
  refine ⟨index, ?_, hindex, rfl⟩
  rw [Member.index] at hindex
  split at hindex
  · next n hn => exact hn.trans (congrArg some (Except.ok.inj hindex))
  · cases hindex

theorem Faithful.begin_view (h : m.Faithful seed rs) (hbegin : m.begin = .ok (tx, m')) :
    ∃ c s, m.journal.latest = some c ∧ tx.stamp = .snapshot s ∧ s.value = c.value ∧
    s.view = m.issuer.currentView ∧
      c.view ≤ m.issuer.currentView ∧ m.issuer.checkIndexes s.view tx.readFrom = .ok () := by
  obtain ⟨s, hs, -, hstamp, -, -⟩ := begin_ok hbegin
  obtain ⟨index, hindex, -, hfrom⟩ := begin_readFrom hbegin
  obtain ⟨c, hlatest, hrank, hknown, hs⟩ := h.beginSnapshot_ok hs
  have hle : c.view ≤ m.issuer.currentView := ViewTable.le_currentId hknown
  have hrank' : (lastEntry seed rs).stamp.rank ≤
      (m.issuer.stamp m.issuer.currentView c.value).rank :=
    hrank ▸ Issuer.rank_le_stamp hknown
  obtain ⟨-, hview, hvalue, -⟩ :=
    Journal.snapshotAt_newest h.head?_eq hrank' (congrArg Rank.value hrank).symm hs
  exact ⟨c, s, hlatest, hstamp, hvalue, hview, hle,
    by rw [hview, hfrom]; exact Issuer.checkIndexes_current hindex⟩

/-- A new transaction has what it waits for exactly if the greatest commit is of the current view.
Else it waits for a commit of its own value in the current view. -/
theorem Faithful.checkReached_of_begin (h : m.Faithful seed rs) (hbegin : m.begin = .ok (tx, m'))
    {c : CommitStamp} (hlatest : m.journal.latest = some c) :
    m.checkReached tx.stamp tx.readFrom =
      if c.view = m.issuer.currentView then .ok ()
      else .error (.unavailable (.commit (m.issuer.stamp m.issuer.currentView c.value))
        (.notApplied m.settings.replicationTimeout)) := by
  obtain ⟨_, _, -, _, hwindow, -⟩ := begin_ok hbegin
  obtain ⟨c', s, hlatest', hstamp, hvalue, hview, hle, hindexes⟩ := h.begin_view hbegin
  obtain rfl := Option.some.inj (hlatest.symm.trans hlatest')
  have hfloor : m.issuer.floor (.snapshot s) tx.readFrom =
      .ok (some (m.issuer.stampAt ⟨s.value, s.view⟩)) := by
    have hknown : m.issuer.views.check s.view = .ok () :=
      Issuer.check_eq_ok.2 (hview ▸ ViewTable.knows_currentId m.issuer.views)
    simp [Issuer.floor, Issuer.windowView?, hwindow, Stamp.view?, Stamp.rank?, hindexes,
      Issuer.rankOf, hknown]
  have hreached : (⟨s.value, s.view⟩ : Rank) ≤ c.rank ↔ c.view = m.issuer.currentView := by
    rw [hvalue, hview, Rank.le_iff]
    constructor
    · rintro (hless | ⟨-, hview⟩)
      · exact absurd hless Std.lt_irrefl
      · exact Nat.le_antisymm hle hview
    · intro heq
      exact .inr ⟨rfl, Nat.le_of_eq heq.symm⟩
  rw [hstamp, checkReached_snapshot_eq hwindow h.head?_eq hlatest hfloor, hvalue, hview]
  simp only [← hreached, hvalue, hview]
  rfl

theorem Faithful.exists_read_of_begin (h : m.Faithful seed rs) (hrooted : m.store.Rooted)
    (hbegin : m.begin = .ok (tx, m')) (hreached : m.checkReached tx.stamp tx.readFrom = .ok ())
    (k : Key) :
    ∃ v noted, m.readIn tx k = (.ok v, noted) := by
  obtain ⟨s, hs, -, hstamp, hwindow, -⟩ := begin_ok hbegin
  obtain ⟨index, -, hindex, -⟩ := begin_readFrom hbegin
  obtain ⟨_, s', -, hstamp', -, -, -, hindexes⟩ := h.begin_view hbegin
  obtain rfl : s = s' := Stamp.snapshot.inj (hstamp.symm.trans hstamp')
  obtain ⟨hcut, -, -, hknown⟩ := h.beginSnapshot hs
  obtain ⟨b, hb⟩ := Journal.exists_snapshotAt_ok (j := m.journal) hknown
  -- The bound cuts history at the newest entry, so it admits all that is stored.
  have hbcut := Journal.cutsAt_snapshotAt h.chronological (h.covers lastEntry_mem) hcut hb
  obtain ⟨found, hfound⟩ :=
    hrooted.exists_get_ok (k := k) fun v hv => hbcut.admits_iff.2 (h.position_le hv)
  have henabled : m.checkEnabled = .ok () := by simp [checkEnabled, h.keeps]
  have hceiling : m.issuer.ceiling (.snapshot s) tx.readFrom = .ok (some (.snapshot s)) := by
    simp [Issuer.ceiling, Issuer.windowView?, hwindow, Stamp.view?, Stamp.rank?, hindexes]
  have hread : m.read k tx.stamp tx.readFrom = .ok (found.withTxBound (.snapshot b)) := by
    rw [hstamp] at hreached ⊢
    simp [read_snapshot_eq hwindow, henabled, hreached, hceiling, snapshotAt, hb, hfound]
  have hmerged : m.issuer.mergeMax [tx.stamp, .snapshot b] =
      .ok (.snapshot (Extreme.greatest.ofSnapshots s b)) := by
    rw [hstamp]
    refine (Issuer.merge_snapshots_ok (l := [s, b])).2 ⟨?_, rfl⟩
    intro t ht
    simp only [List.mem_cons, List.not_mem_nil, or_false] at ht
    rcases ht with rfl | rfl
    · exact hknown
    · exact Journal.knows_of_snapshotAt hb
  obtain ⟨noted, hnoted⟩ : ∃ noted, tx.recordRead m.issuer k index (some (.snapshot b)) =
      (.ok (), noted) := by
    simp only [Transaction.recordRead, hmerged]
    exact ⟨_, rfl⟩
  have hbound : (found.withTxBound (.snapshot b)).txBound = some (.snapshot b) := rfl
  simp only [readIn, hread, hindex, ok_bind, mapError_ok, pure, Except.pure, hbound, hnoted]
  exact ⟨_, _, rfl⟩

theorem readIn_of_not_reached {fault : TxFault} (hkeeps : m.settings.keepsHistory = true)
    (h : m.checkReached tx.stamp tx.readFrom = .error fault) (k : Key) :
    m.readIn tx k = (.error fault, tx) := by
  have hread : m.read k tx.stamp tx.readFrom = .error fault := by
    simp only [read, readBound, checkEnabled, if_pos hkeeps, h, ok_bind, error_bind]
  simp only [readIn, hread, error_bind]

end Member

namespace Session

/-- Let a transaction begin at any time in any run of a member that keeps history. If the greatest
commit of the member is of the current view, the transaction can read every key at once. If it is
not, no key can be read: the member waits for a commit of the same value in the current view, which
it may never see, and then tells the transaction to abort. -/
theorem first_read_iff {settings : Settings} (hkeeps : settings.keepsHistory = true)
    (address : Address) (view : View) (owns : Key → Bool) (events : List Event) {s : Session}
    (hs : s = (start settings address view owns).run events) {tx : Transaction} {m : Member}
    (hbegin : s.member.begin = .ok (tx, m)) :
    ∃ c, m.journal.latest = some c ∧
      (m.checkReached tx.stamp tx.readFrom = .ok () ↔ c.view = m.issuer.currentView) ∧
      (c.view = m.issuer.currentView → ∀ k, ∃ v noted, m.readIn tx k = (.ok v, noted)) ∧
      (c.view ≠ m.issuer.currentView → ∀ k, m.readIn tx k =
        (.error (.unavailable (.commit (m.issuer.stamp m.issuer.currentView c.value))
          (.notApplied m.settings.replicationTimeout)), tx)) := by
  obtain ⟨rs, hsound⟩ := Sound.run_start hkeeps address view owns events
  have hrooted : s.member.store.Rooted := by
    rw [hs]
    exact rooted_run (Sound.start hkeeps address view owns)
      (fun k htrimmed => nomatch htrimmed) events
  rw [← hs] at hsound
  obtain ⟨c, hlatest, -⟩ := hsound.faithful.latest
  have hreached := hsound.faithful.checkReached_of_begin hbegin hlatest
  -- Beginning changes only what is registered, and reads do not look at that.
  obtain ⟨_, -, -, -, -, rfl⟩ := Member.begin_ok hbegin
  refine ⟨c, hlatest, ?_, ?_, ?_⟩
  · show s.member.checkReached tx.stamp tx.readFrom = .ok () ↔ c.view = s.member.issuer.currentView
    rw [hreached]
    split <;> simp_all
  · intro hview k
    rw [if_pos hview] at hreached
    exact hsound.faithful.exists_read_of_begin hrooted hbegin hreached k
  · intro hview k
    rw [if_neg hview] at hreached
    exact Member.readIn_of_not_reached hsound.faithful.keeps hreached k

/-- After the first commit of a new view, though it has the value of an older one, a transaction
reads at once. -/
theorem first_read_iff_same_value :
    ∃ (s : Session) (tx noted : Transaction) (m : Member) (v : Option Value),
      s = (start {} "a" ⟨1, ["a"]⟩ fun _ => true).run
        [.apply 0 [.single ⟨.replicated, 1, 1⟩ "k" (some "x")], .learn ⟨2, ["a"]⟩,
          .apply 0 [.single ⟨.replicated, 2, 1⟩ "j" (some "y")]] ∧
      s.member.begin = .ok (tx, m) ∧ m.readIn tx "k" = (.ok v, noted) := by
  obtain ⟨s, tx, m, c, hs, hbegin, hlatest, hview⟩ :
      ∃ (s : Session) (tx : Transaction) (m : Member) (c : CommitStamp),
        s = (start {} "a" ⟨1, ["a"]⟩ fun _ => true).run
          [.apply 0 [.single ⟨.replicated, 1, 1⟩ "k" (some "x")], .learn ⟨2, ["a"]⟩,
            .apply 0 [.single ⟨.replicated, 2, 1⟩ "j" (some "y")]] ∧
        s.member.begin = .ok (tx, m) ∧ m.journal.latest = some c ∧ c.view = m.issuer.currentView :=
    ⟨_, _, _, _, rfl, rfl, rfl, rfl⟩
  obtain ⟨c', hlatest', -, hreads, -⟩ :=
    first_read_iff rfl "a" ⟨1, ["a"]⟩ (fun _ => true) _ hs hbegin
  obtain rfl := Option.some.inj (hlatest.symm.trans hlatest')
  obtain ⟨v, noted, hread⟩ := hreads hview "k"
  exact ⟨s, tx, noted, m, v, hs, hbegin, hread⟩

/-- After a change of the view a transaction can not read what its own member holds, and is told to
abort. -/
theorem first_read_after_view_change :
    ∃ (s : Session) (tx : Transaction) (m : Member),
      s = (start {} "a" ⟨1, ["a"]⟩ fun _ => true).run
        [.apply 0 [.single ⟨.replicated, 1, 1⟩ "k" (some "x")], .learn ⟨2, ["a"]⟩] ∧
      s.member.begin = .ok (tx, m) ∧ heldAfter s.applied "k" = some "x" ∧
      m.readIn tx "k" = (.error (.unavailable (.commit ⟨.replicated, 2, 1⟩)
        (.notApplied (.ofSecs 15))), tx) :=
  ⟨_, _, _, rfl, rfl, rfl, rfl⟩

end Session
end Multiversion
