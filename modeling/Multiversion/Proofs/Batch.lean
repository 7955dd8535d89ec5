import Multiversion.Proofs.Applying
import Multiversion.Proofs.Chronology
import Multiversion.Proofs.History
/- Applying a batch of commits.

   Each commit of an accepted batch is logged as the entry that follows the one before it
   (`Records`), which makes the log chronological and determines it by the commits alone
   (`Records.prefix_of_commits`). A member that keeps history either refuses a batch and stays as it
   is (`Member.applyBatch_refused`), or stores and logs all of it (`Member.applyBatch_accepted`): no
   write can be refused once the journal has agreed to the batch, because everything stored so far
   is older. -/
namespace Multiversion

/-- Commits that were logged one after the other, right after an entry. -/
inductive Records : Entry → List Record → Prop
  | nil (last : Entry) : Records last []
  | cons {last : Entry} {c : Commit} {e : Entry} {rest : List Record}
      (logged : Entry.ofStamp c.stamp (last.nextSub c.stamp.value?)
        (.only (.ofList (c.writes.map (·.change.key)))) =
          .ok e)
      (follows : e.follows last = true) (rest_ok : Records e rest) : Records last (⟨c, e⟩ :: rest)

/-- The newest entry of a log that begins with `seed`. -/
def lastEntry (seed : Entry) (rs : List Record) : Entry := (rs.getLast?.map (·.entry)).getD seed

section LastEntry

variable {seed : Entry} {r : Record} {rs rs' : List Record}

@[simp] theorem lastEntry_nil : lastEntry seed [] = seed := rfl

@[simp] theorem lastEntry_cons : lastEntry seed (r :: rs) = lastEntry r.entry rs := by
  rw [lastEntry, lastEntry, List.getLast?_cons]
  cases rs.getLast? <;> rfl

theorem lastEntry_append : lastEntry seed (rs ++ rs') = lastEntry (lastEntry seed rs) rs' := by
  induction rs generalizing seed with
  | nil => rfl
  | cons r rest ih => rw [List.cons_append, lastEntry_cons, lastEntry_cons, ih]

theorem getLast?_cons_entries : (seed :: rs.map (·.entry)).getLast? = some (lastEntry seed rs) := by
  induction rs generalizing seed with
  | nil => rfl
  | cons r rest ih => rw [List.map_cons, List.getLast?_cons_cons, ih, lastEntry_cons]

theorem lastEntry_mem : lastEntry seed rs ∈ seed :: rs.map (·.entry) :=
  List.mem_of_getLast? getLast?_cons_entries

theorem lastEntry_mem_log (seed : Entry) (h : rs <+: rs') :
    lastEntry seed rs ∈ seed :: rs'.map (·.entry) := by
  obtain ⟨rest, rfl⟩ := h
  rw [List.map_append, ← List.cons_append]
  exact List.mem_append_left _ lastEntry_mem

end LastEntry

theorem Entry.ofStamp_ok {v : Stamp} {sub : Int32} {keys : Affected} {e : Entry}
    (h : Entry.ofStamp v sub keys = .ok e) : v = .commit e.stamp ∧ e.sub = sub ∧ e.keys = keys := by
  cases v with
  | commit c => cases h; exact ⟨rfl, rfl, rfl⟩
  | _ => cases h

namespace Records

variable {seed : Entry} {rs rs' : List Record}

theorem append (h : Records seed rs) (h' : Records (lastEntry seed rs) rs') :
    Records seed (rs ++ rs') := by
  induction h with
  | nil last => exact h'
  | cons logged follows _ ih =>
    rw [lastEntry_cons] at h'
    exact .cons logged follows (ih h')

theorem pairwise (h : Records seed rs) : (seed :: rs.map (·.entry)).Pairwise Entry.Before := by
  induction h with
  | nil last => exact List.pairwise_singleton _ last
  | cons _ follows _ ih => exact Entry.pairwise_cons_of_follows follows ih

theorem eq_or_before_lastEntry (h : Records seed rs) {e : Entry}
    (he : e ∈ seed :: rs.map (·.entry)) :
    e = lastEntry seed rs ∨ e.Before (lastEntry seed rs) :=
  Entry.eq_or_before_getLast h.pairwise getLast?_cons_entries he

theorem position_le_lastEntry (h : Records seed rs) {e : Entry}
    (he : e ∈ seed :: rs.map (·.entry)) :
    e.position ≤ (lastEntry seed rs).position := by
  rcases h.eq_or_before_lastEntry he with rfl | hlt
  · exact Std.le_refl _
  · exact Std.le_of_lt hlt.position_lt

theorem rank_le_lastEntry (h : Records seed rs) {e : Entry} (he : e ∈ seed :: rs.map (·.entry)) :
    e.stamp.rank ≤ (lastEntry seed rs).stamp.rank := by
  rcases h.eq_or_before_lastEntry he with rfl | hbefore
  · exact Std.le_refl _
  · exact hbefore.rank_le

theorem of_append (h : Records seed (rs ++ rs')) :
    Records seed rs ∧ Records (lastEntry seed rs) rs' := by
  induction rs generalizing seed with
  | nil => exact ⟨.nil seed, h⟩
  | cons r rest ih =>
    cases h with
    | cons logged follows rest_ok =>
      obtain ⟨hrest, h'⟩ := ih rest_ok
      exact ⟨.cons logged follows hrest, by rwa [lastEntry_cons]⟩

theorem lastEntry_position_lt (h : Records seed (rs ++ rs')) {r : Record} (hr : r ∈ rs') :
    (lastEntry seed rs).position < r.entry.position :=
  ((List.pairwise_cons.1 h.of_append.2.pairwise).1 _ (List.mem_map_of_mem hr)).position_lt

theorem decreasing_revisionsOf (h : Records seed rs) (k : Key) :
    (revisionsOf k rs).Pairwise fun newer older => older.position < newer.position := by
  rw [revisionsOf, List.pairwise_reverse, List.pairwise_filterMap]
  apply (List.pairwise_map.1 h.pairwise.of_cons).imp
  intro r r' hbefore v hv v' hv'
  have hlt := hbefore.position_lt
  rw [Revision.position, Revision.position, (Record.stamp_revision hv).1,
    (Record.stamp_revision hv').1]
  exact hlt

theorem logged_of_mem (h : Records seed rs) {r : Record} (hr : r ∈ rs) :
    r.commit.stamp = .commit r.entry.stamp ∧
    r.entry.keys = .only (.ofList (r.commit.writes.map (·.change.key))) := by
  induction h with
  | nil last => simp at hr
  | cons logged _ _ ih =>
    rcases List.mem_cons.1 hr with rfl | hr
    · exact ⟨(Entry.ofStamp_ok logged).1, (Entry.ofStamp_ok logged).2.2⟩
    · exact ih hr

theorem exists_revision_of_contains (h : Records seed rs) {r : Record} (hr : r ∈ rs) {k : Key}
    (hk : r.entry.keys.contains k = true) : ∃ v, r.revision? k = some v := by
  rw [(h.logged_of_mem hr).2] at hk
  have hmem : ∃ w ∈ r.commit.writes, w.change.key = k := by
    simpa [Affected.contains] using hk
  obtain ⟨v, hv⟩ := exists_lastValue hmem
  exact ⟨⟨r.entry.write, v, none⟩, by simp [Record.revision?, hv]⟩

/-- A log is determined by the commits: of two logs from one entry on the one of fewer commits
begins the other. -/
theorem prefix_of_commits (h : Records seed rs) (h' : Records seed rs')
    (hpre : rs.map (·.commit) <+: rs'.map (·.commit)) : rs <+: rs' := by
  induction h generalizing rs' with
  | nil last => exact List.nil_prefix
  | cons logged follows _ ih =>
    cases h' with
    | nil => simp at hpre
    | cons logged' follows' rest' =>
      obtain ⟨rfl, hrest⟩ := List.cons_prefix_cons.1 hpre
      obtain rfl := Except.ok.inj (logged.symm.trans logged')
      exact List.cons_prefix_cons.2 ⟨rfl, ih rest' hrest⟩

end Records

/-- What a batch is checked for: its entries can be made, and each may follow the one before it. -/
theorem records_of_entriesAfter {last : Entry} {batch : List Commit} {es : List Entry}
    (hes : Member.entriesAfter last batch = .ok es) (hcheck : Journal.checkOrder last es = .ok ()) :
    ∃ rs, Records last rs ∧ rs.map (·.commit) = batch ∧ rs.map (·.entry) = es := by
  induction batch generalizing last es with
  | nil =>
    cases hes
    exact ⟨[], .nil last, rfl, rfl⟩
  | cons c rest ih =>
    simp only [Member.entriesAfter, bind_eq_ok, pure_eq_ok, Except.ok.injEq] at hes
    obtain ⟨e, he, es, hes, rfl⟩ := hes
    rw [Journal.checkOrder] at hcheck
    split at hcheck
    · next hfollows =>
      obtain ⟨rs, hrs, rfl, rfl⟩ := ih hes hcheck
      exact ⟨⟨c, e⟩ :: rs, .cons he hfollows hrs, rfl, rfl⟩
    · cases hcheck

theorem Journal.pairwise_of_checkOrder {last : Entry} {es : List Entry}
    (h : checkOrder last es = .ok ()) :
    (last :: es).Pairwise Entry.Before := by
  induction es generalizing last with
  | nil => exact List.pairwise_singleton _ last
  | cons e rest ih =>
    rw [checkOrder] at h
    split at h
    · next hfollows => exact Entry.pairwise_cons_of_follows hfollows (ih h)
    · cases h

/-- The ranks of chronological entries do not decrease, so the greatest of them is that of the
newest. -/
theorem foldl_max_rank {last : Entry} {es : List Entry} (h : (last :: es).Pairwise Entry.Before) :
    (es.map (·.stamp.rank)).foldl max last.stamp.rank = (es.getLast?.getD last).stamp.rank := by
  induction es generalizing last with
  | nil => rfl
  | cons e rest ih =>
    obtain ⟨hfirst, hrest⟩ := List.pairwise_cons.1 h
    have hle := (hfirst e List.mem_cons_self).rank_le
    have hmax : max last.stamp.rank e.stamp.rank = e.stamp.rank :=
      Std.le_antisymm (Std.max_le_iff.2 ⟨hle, Std.le_refl _⟩) (Std.max_le_iff.1 (Std.le_refl _)).2
    rw [List.map_cons, List.foldl_cons, hmax, ih hrest, List.getLast?_cons]
    rfl

namespace Member

variable {m : Member} {c : Commit} {e last : Entry}

/-- Under the multiversion rule the write of a commit is left out, or stored with the stamp that it
is logged with. The owner of the key keeps it for good. -/
theorem putOf_cases (hkeeps : m.settings.keepsHistory = true) (hrule : m.rule = .multiversion)
    (hstamp : c.stamp = .commit e.stamp) (now : Nat) (w : Write) :
    (m.putOf now c e.sub w = .ok none ∧ m.owns w.change.key = false) ∨
      ∃ expires, m.putOf now c e.sub w =
        .ok (some ⟨w.change.key, ⟨e.write, w.value, expires⟩, true⟩) ∧
        (m.owns w.change.key = true → expires = none) := by
  have hdecide : m.rule.decide m.issuer m.settings.shadowCopies m.owns
      ⟨c.stamp, c.prepared⟩ w.change =
        .ok ⟨some (.commit e.stamp), .of m.settings.shadowCopies m.owns w.change⟩ := by
    simp [hrule, hstamp, Scheme.decide, Scheme.stampFor]
  simp only [putOf, hdecide, mapError_ok, ok_bind, Stamp.forRevision, hkeeps]
  by_cases howns : m.owns w.change.key = true
  · exact .inr ⟨none, by simp [Disposition.of, howns, Disposition.isApplied,
      Entry.write], fun _ => rfl⟩
  · cases hd : Disposition.of m.settings.shadowCopies m.owns w.change with
    | owner => exact .inr ⟨none, by simp [Disposition.isApplied, Entry.write], fun _ => rfl⟩
    | shadowCopy =>
      exact .inr ⟨some (m.settings.shadowLifespan.after now),
        by simp [Disposition.isApplied, Entry.write], fun h => absurd h howns⟩
    | rollback => exact .inl ⟨by simp [Disposition.isApplied], by simpa using howns⟩

end Member

/-- The revisions of every key of a store: what a commit that is being stored has written so far, on
top of what was there before. -/
structure Layered (s : Store) (e : Entry) (top : Key → Option Revision)
    (base : Key → List Revision) : Prop where
  revisions_eq : ∀ k, (s.timeline k).revisions = (top k).toList ++ base k
  position_top : ∀ k, ∀ r ∈ top k, r.position = e.position
  position_base : ∀ k, ∀ r ∈ base k, r.position < e.position

/-- Storing one more write of the commit keeps the layers, whatever the commit has written to the
key before. -/
theorem Layered.put {s : Store} {e : Entry} {top : Key → Option Revision}
    {base : Key → List Revision} (h : Layered s e top base) (k : Key) (r : Revision)
    (hr : r.position = e.position) :
    ∃ s', s.apply ⟨k, r, true⟩ = (.ok (), s') ∧
    (∀ j, (s'.timeline j).trimmed = (s.timeline j).trimmed) ∧
      Layered s' e (fun j => if j = k then some r else top j) base := by
  have hle : ∀ q ∈ (s.timeline k).revisions, q.position ≤ r.position := by
    intro q hq
    rw [h.revisions_eq, List.mem_append, Option.mem_toList] at hq
    rw [hr]
    rcases hq with hq | hq
    · exact h.position_top k q hq ▸ Std.le_refl _
    · exact Std.le_of_lt (h.position_base k q hq)
  obtain ⟨outcome, t, hinsert, htrimmed, hrevisions⟩ := Timeline.insert_ok (s.timeline k) r hle
  have hbelow : (s.timeline k).revisions.filter (·.position < r.position) = base k := by
    rw [h.revisions_eq, List.filter_append, List.filter_eq_nil_iff.2, List.nil_append,
      List.filter_eq_self.2]
    · intro q hq
      simpa [hr] using h.position_base k q hq
    · intro q hq
      simp [hr, h.position_top k q (Option.mem_toList.1 hq), Std.lt_irrefl]
  refine ⟨s.setTimeline k t, Store.apply_eq_ok.2 ⟨outcome, t, hinsert, rfl⟩, ?_, ?_, ?_,
    h.position_base⟩
  · intro j
    rw [Store.timeline_setTimeline]
    split
    · next hj => rw [hj, htrimmed]
    · rfl
  · intro j
    rw [Store.timeline_setTimeline]
    split
    · next hj => rw [hj, hrevisions, hbelow]; rfl
    · exact h.revisions_eq j
  · intro j q hq
    split at hq
    · cases hq; exact hr
    · exact h.position_top j q hq

namespace Member

variable {m : Member} {c : Commit} {e last : Entry}

theorem applyAll_writes (hkeeps : m.settings.keepsHistory = true) (hrule : m.rule = .multiversion)
    (hstamp : c.stamp = .commit e.stamp) (now : Nat) {base : Key → List Revision} (ws : List Write)
    (s : Store) (top : Key → Option Revision) (h : Layered s e top base) :
    ∃ s' top', (∀ rest, s.applyAll (ws.map (m.putOf now c e.sub) ++ rest) = s'.applyAll rest) ∧
      (∀ k, (s'.timeline k).trimmed = (s.timeline k).trimmed) ∧ Layered s' e top' base ∧
      ∀ k, m.owns k = true → top' k =
        ((lastValue k ws).map fun v => (⟨e.write, v, none⟩ : Revision)).or (top k) := by
  induction ws generalizing s top with
  | nil => exact ⟨s, top, fun rest => rfl, fun k => rfl, h, fun k _ => rfl⟩
  | cons w rest ih =>
    rcases putOf_cases hkeeps hrule hstamp now w with ⟨hput, hnot⟩ | ⟨expires, hput, hown⟩
    · obtain ⟨s', top', happly, htrimmed, hlayered, htop⟩ := ih s top h
      refine ⟨s', top', ?_, htrimmed, hlayered, ?_⟩
      · intro more
        rw [List.map_cons, List.cons_append, hput]
        exact happly more
      · intro k hk
        have hne : k ≠ w.change.key := by
          rintro rfl
          simp [hk] at hnot
        rw [htop k hk, lastValue, if_neg hne, Option.or_none]
    · obtain ⟨s₁, hs₁, htrimmed₁, h₁⟩ := h.put w.change.key ⟨e.write, w.value, expires⟩ rfl
      obtain ⟨s', top', happly, htrimmed, hlayered, htop⟩ := ih s₁ _ h₁
      refine ⟨s', top', ?_, fun k => (htrimmed k).trans (htrimmed₁ k), hlayered, ?_⟩
      · intro more
        rw [List.map_cons, List.cons_append, hput, Store.applyAll_cons_some, hs₁]
        exact happly more
      · intro k hk
        -- The last write of the commit to a key is the one that stays on top.
        rw [htop k hk, lastValue]
        cases lastValue k rest with
        | some v => rfl
        | none =>
          by_cases hkey : k = w.change.key
          · subst hkey
            simp [hown hk]
          · simp [hkey]

theorem zip_subs (rs : List Record) : (rs.map (·.commit)).zip ((rs.map (·.entry)).map (·.sub)) =
    rs.map fun r => (r.commit, r.entry.sub) := by
  rw [List.map_map, List.zip_map']
  rfl

/-- What logged commits add to the timelines of a store. -/
structure Stored (owns : Key → Bool) (rs : List Record) (s s' : Store) : Prop where
  trimmed_eq : ∀ k, (s'.timeline k).trimmed = (s.timeline k).trimmed
  revisions_eq : ∀ k, ∃ added, (s'.timeline k).revisions = added ++ (s.timeline k).revisions ∧
    (∀ v ∈ added, ∃ r ∈ rs, v.position = r.entry.position) ∧
    (owns k = true → added = revisionsOf k rs)

theorem applyAll_records (hkeeps : m.settings.keepsHistory = true) (hrule : m.rule = .multiversion)
    {rs : List Record} (hrs : Records last rs) (now : Nat) (s : Store)
    (hs : ∀ k, ∀ v ∈ (s.timeline k).revisions, v.position ≤ last.position) :
    ∃ s', s.applyAll (m.putsOf now (rs.map fun r => (r.commit, r.entry.sub))) = (.ok (), s') ∧
      Stored m.owns rs s s' := by
  induction hrs generalizing s with
  | nil last => exact ⟨s, rfl, fun k => rfl, fun k => ⟨[], rfl, by simp, fun _ => rfl⟩⟩
  | @cons last c e rest logged follows _ ih =>
    -- All that is stored so far lies before the entry of the next commit.
    have hlt := (Entry.before_of_follows follows).position_lt
    have hlayered : Layered s e (fun _ => none) fun k => (s.timeline k).revisions :=
      ⟨fun k => rfl, by simp, fun k v hv => Std.lt_of_le_of_lt (hs k v hv) hlt⟩
    obtain ⟨s₁, top, happly, htrimmed₁, h₁, htop⟩ :=
      applyAll_writes hkeeps hrule (Entry.ofStamp_ok logged).1 now c.writes s _ hlayered
    obtain ⟨s', hs', htrimmed, hrevisions⟩ := ih s₁ fun k v hv => by
      rw [h₁.revisions_eq, List.mem_append, Option.mem_toList] at hv
      rcases hv with hv | hv
      · exact h₁.position_top k v hv ▸ Std.le_refl _
      · exact Std.le_of_lt (h₁.position_base k v hv)
    refine ⟨s', ?_, fun k => (htrimmed k).trans (htrimmed₁ k), ?_⟩
    · have hputs : m.putsOf now ((⟨c, e⟩ :: rest : List Record).map fun r =>
          (r.commit, r.entry.sub)) =
            c.writes.map (m.putOf now c e.sub) ++
            m.putsOf now (rest.map fun r => (r.commit, r.entry.sub)) := rfl
      rw [hputs, happly, hs']
    · intro k
      obtain ⟨added, hadded, hpos, howned⟩ := hrevisions k
      refine ⟨added ++ (top k).toList, by rw [hadded, h₁.revisions_eq, List.append_assoc], ?_, ?_⟩
      · intro v hv
        rcases List.mem_append.1 hv with hv | hv
        · obtain ⟨r, hr, hvr⟩ := hpos v hv
          exact ⟨r, List.mem_cons_of_mem _ hr, hvr⟩
        · exact ⟨_, List.mem_cons_self, h₁.position_top k v (Option.mem_toList.1 hv)⟩
      · intro hk
        rw [howned hk, htop k hk, Option.or_none, ← List.singleton_append, revisionsOf_append]
        congr 1
        cases hv : lastValue k c.writes <;> simp [revisionsOf, Record.revision?, hv]

end Member

namespace Journal

variable {i : Issuer} {j : Journal} {last : Entry} {es : List Entry}

theorem head_eq_ok : j.head = .ok last ↔ j.head? = some last := by
  rw [head]
  cases j.head? <;> simp

/-- The places that a journal merges when it checks entries. -/
def ranksWith (j : Journal) (es : List Entry) : List Rank :=
  (j.latest.toList ++ es.map (·.stamp)).map CommitStamp.rank

theorem ranksWith_of_latest {latest : CommitStamp} (h : j.latest = some latest) :
    j.ranksWith es = latest.rank :: es.map (·.stamp.rank) := by
  simp [ranksWith, h, Function.comp_def]

/-- A journal agrees to entries that are in order, if the places to be merged are all of known
views. -/
theorem check_eq_ok {merged : Option CommitStamp} :
    j.check i es = .ok merged ↔ ∃ last, j.head? = some last ∧
    checkOrder last es = .ok () ∧ (∀ r ∈ j.ranksWith es, i.views.knows r.view = true) ∧
      merged = (Extreme.fold max (j.ranksWith es)).map i.stampAt := by
  simp only [check, Issuer.mergeRanks, bind_eq_ok, mapError_eq_ok, pure_eq_ok,
    Except.ok.injEq, head_eq_ok]
  constructor
  · rintro ⟨last, hlast, _, horder, _, hknown, rfl⟩
    exact ⟨last, hlast, horder, Issuer.checkAll_eq_ok.1 hknown, rfl⟩
  · rintro ⟨last, hlast, horder, hknown, rfl⟩
    exact ⟨last, hlast, (), horder, (), Issuer.checkAll_eq_ok.2 hknown, rfl⟩

end Journal

namespace Member

variable {m : Member} {c : Commit} {e last : Entry}

/-- A member after it has applied the commits of some records, and as it was before. -/
structure Applied (last : Entry) (rs : List Record) (m m' : Member) : Prop where
  frame : m' = { m with store := m'.store, journal := m'.journal }
  entries_eq : m'.journal.entries = m.journal.entries ++ rs.map (·.entry)
  latest : ∃ c, m'.journal.latest = some c ∧ c.rank = (lastEntry last rs).stamp.rank ∧
    m.issuer.views.knows c.view = true
  stored : Stored m.owns rs m.store m'.store

theorem check_ok {i : Issuer} {j : Journal} {latest : CommitStamp} {es : List Entry}
    {merged : Option CommitStamp} (hlast : j.head? = some last) (hlatest : j.latest = some latest)
    (h : j.check i es = .ok merged) :
    Journal.checkOrder last es = .ok () ∧
      ∃ c, merged = some c ∧ c.rank = (es.map (·.stamp.rank)).foldl max latest.rank ∧
        i.views.knows c.view = true := by
  obtain ⟨last', hlast', horder, hknown, rfl⟩ := Journal.check_eq_ok.1 h
  obtain rfl := Option.some.inj (hlast.symm.trans hlast')
  rw [Journal.ranksWith_of_latest hlatest] at hknown ⊢
  exact ⟨horder, _, rfl, rfl, hknown _ (List.max?_mem List.max?_cons')⟩

theorem entriesOf_ok {batch : List Commit} {es : List Entry} (hlast : m.journal.head? = some last)
    (h : m.entriesOf batch = .ok es) (hcheck : Journal.checkOrder last es = .ok ()) :
    ∃ rs, Records last rs ∧ rs.map (·.commit) = batch ∧ rs.map (·.entry) = es := by
  rw [entriesOf] at h
  split at h
  · next hempty =>
    obtain rfl := List.isEmpty_iff.1 hempty
    cases h
    exact ⟨[], .nil last, rfl, rfl⟩
  · simp only [Journal.head, hlast, mapError_ok, ok_bind, mapError_eq_ok] at h
    exact records_of_entriesAfter h hcheck

/-- Of a batch that passes the check it applies all. -/
theorem applyBatch_accepted {latest : CommitStamp} (hkeeps : m.settings.keepsHistory = true)
    (hrule : m.rule = .multiversion) (hlast : m.journal.head? = some last)
    (hlatest : m.journal.latest = some latest) (hrank : latest.rank = last.stamp.rank)
    (hstore : ∀ k, ∀ v ∈ (m.store.timeline k).revisions, v.position ≤ last.position) (now : Nat)
    {batch : List Commit} {es : List Entry} (h : m.checkedEntries batch = .ok es) :
    ∃ rs m', m.applyBatch now batch = (.ok (), m') ∧ Records last rs ∧ rs.map (·.commit) = batch ∧
      rs.map (·.entry) = es ∧ Applied last rs m m' := by
  obtain ⟨hes, merged, hcheck⟩ := checkedEntries_eq_ok.1 h
  obtain ⟨horder, c, rfl, hmax, hknown⟩ := check_ok hlast hlatest hcheck
  obtain ⟨rs, hrs, rfl, rfl⟩ := entriesOf_ok hlast hes horder
  obtain ⟨s', hs', hstored⟩ := applyAll_records hkeeps hrule hrs now m.store hstore
  have hrank' : c.rank = (lastEntry last rs).stamp.rank := by
    rw [hmax, hrank, foldl_max_rank hrs.pairwise, List.getLast?_map]
    rfl
  rw [← zip_subs] at hs'
  refine ⟨rs, ?_⟩
  cases rs with
  | nil =>
    -- Nothing is appended then, and the greatest commit stays as it was.
    have hview : latest.view = c.view := congrArg Rank.view hmax.symm
    exact ⟨_, (applyBatch_eq_ok hkeeps).2 ⟨_, s', _, h, hs', rfl, rfl⟩, hrs, rfl, rfl, rfl,
      (List.append_nil _).symm, ⟨latest, hlatest, hrank, hview ▸ hknown⟩, hstored⟩
  | cons r rest =>
    have happend : m.journal.append m.issuer ((r :: rest).map (·.entry)) = (.ok (),
        { m.journal with
          entries := m.journal.entries ++ (r :: rest).map (·.entry), latest := some c }) := by
      rw [Journal.append, hcheck]
      rfl
    exact ⟨_, (applyBatch_eq_ok hkeeps).2 ⟨_, s', _, h, hs', happend, rfl⟩, hrs, rfl, rfl, rfl, rfl,
      ⟨c, rfl, hrank', hknown⟩, hstored⟩

end Member
end Multiversion
