import Multiversion.Proofs.Collection
import Multiversion.Proofs.Session
/- What the journal and the store have in common.

   The journal and the timelines are trimmed each on its own: the journal from its oldest entry on,
   and every timeline below the newest revision that the bound admits. Neither goes further than the
   other. The journal is trimmed as far as the cutoff reaches without a gap
   (`Journal.trim_maximal`). A cutoff that reaches an entry reaches all older ones if it is a commit
   or a write, and also if a collection before a commit value has bounded it by what is registered
   (`Journal.reachesBack_of_cuts`), because registered snapshots cut history. So a revision that is
   cut off was written by a commit that the journal has forgotten too (`Member.Retains.collect`),
   and `journal_matches_store` says for all runs what each of the two holds of the other. -/
namespace Multiversion

/-- The cutoff reaches the entries of a journal from the oldest on, without a gap. -/
def Journal.ReachesBack (j : Journal) (cutoff : Stamp) : Prop :=
  ∀ e ∈ j.entries, ∀ f ∈ j.entries, e.Before f → f.atOrBefore cutoff = true →
    e.atOrBefore cutoff = true

namespace Journal

variable {j j' : Journal} {cutoff : Stamp} {c : Option CommitStamp}

theorem reachesBack_of_not_snapshot (h : cutoff.snapshot? = none) : j.ReachesBack cutoff :=
  fun _ _ _ _ hbefore hf => Entry.atOrBefore_of_before hf hbefore h

/-- A bound that reaches to a rank, as far as some snapshots do that cut history. -/
theorem reachesBack_of_cuts {s : Snapshot} {r : Rank} {l : List Snapshot}
    (hcuts : ∀ t ∈ l, ∃ p, t.CutsAt p)
    (hadmits : ∀ e ∈ j.entries, s.admits e.write = true ↔
      e.stamp.rank ≤ r ∧ ∀ t ∈ l, t.admits e.write = true) : j.ReachesBack (.snapshot s) := by
  intro e he f hf hbefore hreached
  rw [Entry.atOrBefore_snapshot] at hreached ⊢
  obtain ⟨hrank, hall⟩ := (hadmits f hf).1 hreached
  refine (hadmits e he).2 ⟨Std.le_trans hbefore.rank_le hrank, ?_⟩
  intro t ht
  obtain ⟨p, hcut⟩ := hcuts t ht
  have hle : e.position ≤ f.position := Std.le_of_lt hbefore.position_lt
  exact hcut.admits_iff.2 (Std.le_trans hle (hcut.admits_iff.1 (hall t ht)))

theorem not_atOrBefore_of_trim (hj : j.entries.Pairwise Entry.Before) (hback : j.ReachesBack cutoff)
    (habsent : cutoff.isAbsent = false) (htrim : j.trim cutoff = (.ok c, j')) {e f : Entry}
    (he : e ∈ j'.entries) (hf : f ∈ j.entries) (hlt : e.position < f.position) :
    f.atOrBefore cutoff = false := by
  obtain ⟨-, -, dropped, hsplit, -, -⟩ := trim_ok htrim
  have hj' := hj
  rw [hsplit] at hj'
  obtain ⟨-, hkept, hdropped⟩ := List.pairwise_append.1 hj'
  have hnot : ¬ f.Before e := fun h => Std.lt_irrefl (Std.lt_trans hlt h.position_lt)
  have hf' : f ∈ j'.entries := by
    rw [hsplit] at hf
    rcases List.mem_append.1 hf with hf | hf
    · exact absurd (hdropped f hf e he) hnot
    · exact hf
  -- `f` is not the oldest entry that is left, so that both the oldest and the one after it come no
  -- later than `f`.
  cases hentries : j'.entries with
  | nil => simp [hentries] at hf'
  | cons a rest =>
    rw [hentries] at he hf' hkept
    obtain ⟨holdest, hrest⟩ := List.pairwise_cons.1 hkept
    have hfrest : f ∈ rest := by
      rcases List.mem_cons.1 hf' with rfl | hf'
      · rcases List.mem_cons.1 he with rfl | he
        · exact absurd hlt Std.lt_irrefl
        · exact absurd (holdest e he) hnot
      · exact hf'
    cases rest with
    | nil => simp at hfrest
    | cons b rest =>
      have hin : ∀ g ∈ a :: b :: rest, g ∈ j.entries := fun g hg => by
        rw [hsplit, hentries]
        exact List.mem_append_right dropped hg
      cases hreached : f.atOrBefore cutoff with
      | false => rfl
      | true =>
        have ha := hback a (hin a (by simp)) f (hin f hf') (holdest f hfrest) hreached
        have hb : b.atOrBefore cutoff = true := by
          rcases List.mem_cons.1 hfrest with rfl | hf''
          · exact hreached
          · exact hback b (hin b (by simp)) f (hin f hf')
              ((List.pairwise_cons.1 hrest).1 f hf'') hreached
        exact absurd ⟨ha, hb⟩ (trim_maximal htrim habsent hentries)

end Journal

namespace Member

variable {m m' : Member} {seed : Entry} {rs rs' : List Record}

/-- What the journal still has of the commits that write the member's own keys, their timelines have
as well. -/
def Retains (m : Member) (rs : List Record) : Prop :=
  ∀ k, m.owns k = true → ∀ r ∈ rs, r.entry ∈ m.journal.entries → ∀ v, r.revision? k = some v →
    v ∈ (m.store.timeline k).revisions

theorem Retains.of_applied (hret : m.Retains rs) (hm' : m'.Faithful seed (rs ++ rs'))
    (happ : Applied (lastEntry seed rs) rs' m m') : m'.Retains (rs ++ rs') := by
  intro k hk r hr he v hv
  have hk : m.owns k = true := by
    rw [happ.frame] at hk
    exact hk
  obtain ⟨added, hrev, -, howned⟩ := happ.stored.revisions_eq k
  rw [hrev, howned hk]
  rw [happ.entries_eq] at he
  rcases List.mem_append.1 hr with hr | hr
  · rcases List.mem_append.1 he with he | he
    · exact List.mem_append_right _ (hret k hk r hr he v hv)
    · -- An old commit has not got the entry of a new one.
      obtain ⟨r', hr', heq⟩ := List.mem_map.1 he
      have hle : r.entry.position ≤ (lastEntry seed rs).position :=
        hm'.records.of_append.1.position_le_lastEntry
          (List.mem_cons_of_mem _ (List.mem_map_of_mem hr))
      have hlt := hm'.records.lastEntry_position_lt hr'
      rw [heq] at hlt
      exact absurd hle (Std.not_le_of_gt hlt)
  · exact List.mem_append_left _ (mem_revisionsOf.2 ⟨r, hr, hv⟩)

/-- A collection takes no revision whose entry it leaves: a newer one that the bound admits would be
of a later entry, which the cutoff does not reach. -/
theorem Retains.collect (hret : m.Retains rs) (h : m.Faithful seed rs) {cutoff : Stamp}
    {bound : Snapshot} {c : Option CommitStamp} {j' : Journal}
    (hback : m.journal.ReachesBack cutoff) (habsent : cutoff.isAbsent = false)
    (hbound : m.journal.snapshotAt m.issuer cutoff = .ok bound)
    (htrim : m.journal.trim cutoff = (.ok c, j')) :
    ({ m with journal := j', store := m.store.collect bound.admits } : Member).Retains rs := by
  intro k hk r hr he v hv
  obtain ⟨-, -, dropped, hsplit, -, -⟩ := Journal.trim_ok htrim
  have hold : r.entry ∈ m.journal.entries := hsplit ▸ List.mem_append_right dropped he
  have hvpos : v.position = r.entry.position :=
    congrArg WriteStamp.position (Record.stamp_revision hv).1
  show v ∈ ((m.store.collect bound.admits).timeline k).revisions
  rw [Store.timeline_collect]
  apply Decidable.byContradiction
  intro hlost
  obtain ⟨q, hq, hadmitted, hlt⟩ :=
    Timeline.exists_newer_of_not_mem_throughFirst (m.store.timeline k).decreasing
    (hret k hk r hr hold v hv) hlost
  obtain ⟨e, hlog, hqpos⟩ := h.written k q hq
  have hlater : r.entry.position < e.position := hvpos ▸ hqpos ▸ hlt
  obtain ⟨f, hf, hfpos⟩ : ∃ f ∈ m.journal.entries, f.position = e.position := by
    rcases h.covers hlog with hcovered | hbeyond
    · exact hcovered
    · exact absurd (Std.lt_trans hlater (hbeyond _ hold)) Std.lt_irrefl
  have hreached : f.atOrBefore cutoff = true := by
    apply (Journal.admits_snapshotAt_iff h.chronological hbound hf).1
    show bound.admitsAt f.position = true
    rw [hfpos, ← hqpos]
    exact hadmitted
  have hbeyond :=
    Journal.not_atOrBefore_of_trim h.chronological hback habsent htrim he hf (hfpos ▸ hlater)
  simp [hreached] at hbeyond

theorem Faithful.length_filter_le_one (h : m.Faithful seed rs) {oldest : Entry}
    (holdest : m.journal.entries.head? = some oldest) (k : Key) :
    ((m.store.timeline k).revisions.filter (·.position ≤ oldest.position)).length ≤ 1 := by
  have hrecent := h.recent k
  rcases List.eq_nil_or_concat (m.store.timeline k).revisions with hnil | ⟨newer, v, hlast⟩
  · simp [hnil]
  · rw [hlast] at hrecent ⊢
    have hbeyond : newer.filter (·.position ≤ oldest.position) = [] := by
      apply List.filter_eq_nil_iff.2
      intro w hw
      have hlt := hrecent w (by simpa using hw) oldest holdest
      simpa using Std.not_le_of_gt hlt
    rw [List.concat_eq_append, List.filter_append, hbeyond, List.nil_append]
    exact List.length_filter_le _ [v]

end Member

/-- Whether what an event collects from the store it also collects from the journal. An absent
cutoff leaves the journal as it is, and the exclusions of a snapshot may leave a gap in what it
reaches. -/
def Event.collectsAlike : Event → Bool
  | .collect .absent => false
  | .collect (.snapshot _) => false
  | _ => true

namespace Session

variable {s : Session} {seed : Entry} {rs : List Record}

theorem Sound.step_same (h : s.Sound seed rs) {event : Event}
    (happlied : (s.step event).applied = s.applied) :
    (s.step event).Sound seed rs := by
  obtain ⟨rs', h'⟩ := h.step event
  have heq := h'.applied_eq
  rw [happlied, h.applied_eq, List.map_append, List.self_eq_append_right, List.map_eq_nil_iff]
    at heq
  rwa [heq, List.append_nil] at h'

theorem applied_settle (outcome : Except TxFault (Nat × Member)) :
    (s.settle outcome).applied = s.applied := by
  cases outcome <;> rfl

theorem Sound.retains_absorb (h : s.Sound seed rs) (hret : s.member.Retains rs) (now : Nat)
    (batch : List Commit) :
    ∃ rs', (s.absorb batch (s.member.applyBatch now batch)).Sound seed (rs ++ rs') ∧
      (s.absorb batch (s.member.applyBatch now batch)).member.Retains (rs ++ rs') := by
  rcases h.faithful.applyBatch now batch with ⟨fault, heq⟩ | ⟨rs', m', heq, rfl, happ, hm'⟩
  · refine ⟨[], ?_⟩
    rw [heq, List.append_nil]
    exact ⟨h, hret⟩
  · refine ⟨rs', ?_⟩
    rw [heq]
    exact ⟨h.of_faithful hm' (by rw [happ.frame]), hret.of_applied hm' happ⟩

theorem Sound.retains_collect (h : s.Sound seed rs) (hret : s.member.Retains rs) {cutoff : Stamp}
    (hcutoff : (Event.collect cutoff).collectsAlike = true) :
    (s.step (.collect cutoff)).member.Retains rs := by
  rcases collect_cases s cutoff with heq | ⟨n, m', hgc, heq⟩ <;> rw [heq]
  · exact hret
  · obtain ⟨bound, c, j', hbound, htrim, rfl, -⟩ := Member.gc_ok hgc
    have hkind : cutoff.snapshot? = none ∧ cutoff.isAbsent = false := by
      cases cutoff with
      | absent => cases hcutoff
      | snapshot t => cases hcutoff
      | _ => exact ⟨rfl, rfl⟩
    exact hret.collect h.faithful (Journal.reachesBack_of_not_snapshot hkind.1) hkind.2 hbound htrim

theorem Sound.retains_collectBefore (h : s.Sound seed rs) (hret : s.member.Retains rs)
    (value : Int64) :
    (s.step (.collectBefore value)).member.Retains rs := by
  rw [Session.step]
  cases hgc : s.member.gcBefore value with
  | error fault => exact hret
  | ok outcome =>
    obtain ⟨l, hreg⟩ := h.exists_snapshots
    obtain ⟨c, bound, oldest, j', hbound, htrim, hm', -, hadmits⟩ :=
      h.faithful.gcBefore_bound (n := outcome.1) hreg hgc
    have hcuts : ∀ t ∈ l, ∃ p, t.CutsAt p := by
      intro t ht
      have hmem : Stamp.snapshot t ∈ s.member.registry.snapshots := hreg ▸ List.mem_map_of_mem ht
      obtain ⟨id, hid⟩ := Registry.mem_snapshots.1 hmem
      obtain ⟨t', seen, heq, -, hcut⟩ := h.registered id _ hid
      cases heq
      exact ⟨_, hcut⟩
    show outcome.2.Retains rs
    rw [hm']
    exact hret.collect h.faithful (Journal.reachesBack_of_cuts hcuts hadmits) rfl hbound htrim

theorem Sound.retains_expire (h : s.Sound seed rs) (hret : s.member.Retains rs) (now : Nat) :
    (s.step (.expire now)).member.Retains rs := by
  intro k hk r hr he v hv
  have hexpires : ∀ v ∈ revisionsOf k rs, v.expires = none := by
    intro v hv
    obtain ⟨r, -, hr⟩ := mem_revisionsOf.1 hv
    exact (Record.stamp_revision hr).2
  show v ∈ ((s.member.store.expire now).2.timeline k).revisions
  rw [Store.timeline_expire, (h.faithful.kept k hk).expire_eq now hexpires]
  exact hret k hk r hr he v hv

theorem Sound.retains_step (h : s.Sound seed rs) (hret : s.member.Retains rs) {event : Event}
    (hevent : event.collectsAlike = true) :
    ∃ rs', (s.step event).Sound seed (rs ++ rs') ∧ (s.step event).member.Retains (rs ++ rs') := by
  have same (happlied : (s.step event).applied = s.applied)
      (hret' : (s.step event).member.Retains rs) :
      ∃ rs', (s.step event).Sound seed (rs ++ rs') ∧ (s.step event).member.Retains (rs ++ rs') :=
    ⟨[], by simpa using ⟨h.step_same happlied, hret'⟩⟩
  cases event with
  | apply now batch => exact h.retains_absorb hret now batch
  | applyOne now k value agreed => exact h.retains_absorb hret now _
  | collect cutoff => exact same (applied_settle _) (h.retains_collect hret hevent)
  | collectBefore value => exact same (applied_settle _) (h.retains_collectBefore hret value)
  | expire now => exact same rfl (h.retains_expire hret now)
  | begin =>
    refine same ?_ ?_
    · rw [Session.step]
      split <;> rfl
    · rw [Session.step]
      split
      · next hbegin =>
        obtain ⟨_, -, -, -, -, rfl⟩ := Member.begin_ok hbegin
        exact hret
      · exact hret
  | _ => exact same rfl hret

theorem Sound.retains_run (h : s.Sound seed rs) (hret : s.member.Retains rs) {events : List Event}
    (hevents : ∀ e ∈ events, e.collectsAlike = true) :
    ∃ rs', (s.run events).Sound seed (rs ++ rs') ∧ (s.run events).member.Retains (rs ++ rs') := by
  induction events generalizing s rs with
  | nil => exact ⟨[], by simpa using ⟨h, hret⟩⟩
  | cons event rest ih =>
    obtain ⟨hevent, hrest⟩ := List.forall_mem_cons.1 hevents
    obtain ⟨rs₁, h₁, hret₁⟩ := h.retains_step hret hevent
    obtain ⟨rs₂, h₂, hret₂⟩ := ih h₁ hret₁ hrest
    exact ⟨rs₁ ++ rs₂, by rw [← List.append_assoc]; exact ⟨h₂, hret₂⟩⟩

/-- Take any run of a member that keeps history, with collections before commit values, and at
commits and writes. Its journal and its store then hold of the log of all that it has applied: no
revision of any key lies beyond the newest entry; for every other entry than the first of all, and
every key of it that the member owns, there is the revision that the commit wrote, with the last
value that it wrote; and of what is not beyond the oldest entry, no key has more than one
revision. -/
theorem journal_matches_store {settings : Settings} (hkeeps : settings.keepsHistory = true)
    (address : Address) (view : View) (owns : Key → Bool) {events : List Event}
    (hevents : ∀ e ∈ events, e.collectsAlike = true) {s : Session}
    (hs : s = (start settings address view owns).run events) :
    ∃ oldest newest rs, s.member.journal.entries.head? = some oldest ∧
      s.member.journal.entries.getLast? = some newest ∧ Records (settings.seed view) rs ∧
      rs.map (·.commit) = s.applied ∧
      s.member.journal.entries <:+ settings.seed view :: rs.map (·.entry) ∧
      (∀ k, ∀ v ∈ (s.member.store.timeline k).revisions, v.position ≤ newest.position) ∧
      (∀ e ∈ s.member.journal.entries, e ≠ settings.seed view → ∀ k, owns k = true →
        e.keys.contains k = true →
        ∃ r ∈ rs, r.entry = e ∧ ∃ v, lastValue k r.commit.writes = some v ∧
          ⟨e.write, v, none⟩ ∈ (s.member.store.timeline k).revisions) ∧
      ∀ k, ((s.member.store.timeline k).revisions.filter
        (·.position ≤ oldest.position)).length ≤ 1 := by
  have hnone : (start settings address view owns).member.Retains [] := by
    intro k hk r hr
    simp at hr
  obtain ⟨rs, hsound, hret⟩ := (Sound.start hkeeps address view owns).retains_run hnone hevents
  rw [← hs, List.nil_append] at hsound hret
  have howns : s.member.owns = owns := by
    rw [hs, (frame_run _ events).owns_eq]
    rfl
  have h := hsound.faithful
  obtain ⟨oldest, rest, holdest⟩ := List.exists_cons_of_ne_nil h.started
  have hhead : s.member.journal.entries.head? = some oldest := by rw [holdest, List.head?_cons]
  refine ⟨oldest, lastEntry (settings.seed view) rs, rs, hhead, h.head?_eq, h.records,
    hsound.applied_eq.symm, h.newest, fun k v hv => h.position_le hv, ?_,
    fun k => h.length_filter_le_one hhead k⟩
  intro e he hne k hk hkey
  obtain ⟨r, hr, rfl⟩ := List.mem_map.1 ((List.mem_cons.1 (h.newest.subset he)).resolve_left hne)
  obtain ⟨v, hv⟩ := h.records.exists_revision_of_contains hr hkey
  have hmem := hret k (by rwa [howns]) r hr he v hv
  obtain ⟨value, hvalue, rfl⟩ := Option.map_eq_some_iff.1 hv
  exact ⟨r, hr, rfl, value, hvalue, hmem⟩

/-- Two commits of one value, between which a transaction has begun, and a collection that is to go
beyond both: the entry of the later commit is left, and so is the revision that it wrote. -/
theorem journal_matches_store_same_value :
    ∃ (s : Session) (e : Entry) (r : Record) (v : Option Value),
      s = (start {} "a" ⟨1, ["a"]⟩ fun _ => true).run
        [.apply 0 [.single ⟨.replicated, 1, 1⟩ "k" (some "x")], .begin,
          .apply 0 [.single ⟨.replicated, 1, 1⟩ "k" (some "y")], .collectBefore 5] ∧
      s.member.journal.entries.getLast? = some e ∧ e.write = ⟨1, 1, 1⟩ ∧
      r.commit ∈ s.applied ∧ r.entry = e ∧
      lastValue "k" r.commit.writes = some v ∧
      ⟨e.write, v, none⟩ ∈ (s.member.store.timeline "k").revisions := by
  obtain ⟨s, e, hs, he, hwrite, hkey⟩ : ∃ (s : Session) (e : Entry),
      s = (start {} "a" ⟨1, ["a"]⟩ fun _ => true).run
        [.apply 0 [.single ⟨.replicated, 1, 1⟩ "k" (some "x")], .begin,
          .apply 0 [.single ⟨.replicated, 1, 1⟩ "k" (some "y")], .collectBefore 5] ∧
      s.member.journal.entries.getLast? = some e ∧ e.write = ⟨1, 1, 1⟩ ∧
      e.keys.contains "k" = true :=
    ⟨_, _, rfl, rfl, rfl, rfl⟩
  obtain ⟨-, -, rs, -, -, -, happlied, -, -, hretained, -⟩ :=
    journal_matches_store rfl "a" ⟨1, ["a"]⟩ (fun _ => true)
    (by simp [Event.collectsAlike]) hs
  have hne : e ≠ Settings.seed {} ⟨1, ["a"]⟩ := by
    rintro rfl
    cases hwrite
  obtain ⟨r, hr, hentry, v, hv, hmem⟩ := hretained e (List.mem_of_getLast? he) hne "k" rfl hkey
  exact ⟨s, e, r, v, hs, he, hwrite, happlied ▸ List.mem_map_of_mem hr, hentry, hv, hmem⟩

end Session
end Multiversion
