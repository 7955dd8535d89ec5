import Multiversion.Member.Collect
import Multiversion.Proofs.Batch
/- A member that keeps history stays faithful to the commits it has applied.

   `Member.Faithful` says what the journal and the timelines of a member have to do with the log of
   all commits it has ever applied: they have lost some of the oldest, but nothing in between, and a
   timeline of a key that the member owns knows whether it has lost anything. Every operation on the
   member keeps this, whatever it is given. -/
namespace Multiversion

/-- The journal and the store hold what a log says, as far as they reach back. -/
structure Member.Faithful (m : Member) (seed : Entry) (rs : List Record) : Prop where
  keeps : m.settings.keepsHistory = true
  rule : m.rule = .multiversion
  records : Records seed rs
  started : m.journal.entries ≠ []
  newest : m.journal.entries <:+ seed :: rs.map (·.entry)
  latest : ∃ c, m.journal.latest = some c ∧ c.rank = (lastEntry seed rs).stamp.rank
  /-- Every revision was written by a commit of the log. -/
  written : ∀ k, ∀ v ∈ (m.store.timeline k).revisions, ∃ e ∈ seed :: rs.map (·.entry),
    v.position = e.position
  /-- Of the revisions that no entry of the journal is older than, each timeline has at most one. -/
  recent : ∀ k, ∀ v ∈ (m.store.timeline k).revisions.dropLast, ∀ f,
    m.journal.entries.head? = some f →
    f.position < v.position
  kept : ∀ k, m.owns k = true → (m.store.timeline k).NewestOf (revisionsOf k rs)

/-- The first entry of a member that starts in a view. -/
def Settings.seed (settings : Settings) (view : View) : Entry :=
  ⟨⟨settings.placement, view.id, 0⟩, 0, .all⟩

namespace Member.Faithful

variable {m m' : Member} {seed : Entry} {rs : List Record}

theorem create {settings : Settings} (h : settings.keepsHistory = true) (address : Address)
    (view : View) (owns : Key → Bool) :
    (Member.create settings address view owns).Faithful (settings.seed view) [] := by
  have hjournal : (Member.create settings address view owns).journal =
      { entries := [settings.seed view], latest := some (settings.seed view).stamp } := by
    simp only [Member.create, h, if_true]
    rfl
  have hnone : ∀ k, (Member.create settings address view owns).store.timeline k = .empty :=
    fun k => rfl
  constructor
  case keeps => exact h
  case rule => simpa [Settings.keepsHistory, Member.create] using h
  case records => exact .nil _
  case started => simp [hjournal]
  case newest => simp [hjournal]
  case latest => exact ⟨(settings.seed view).stamp, by rw [hjournal], rfl⟩
  case written => simp [hnone, Timeline.empty]
  case recent => simp [hnone, Timeline.empty]
  case kept => exact fun k _ => (hnone k).symm ▸ Timeline.newestOf_empty

theorem head?_eq (h : m.Faithful seed rs) : m.journal.head? = some (lastEntry seed rs) := by
  obtain ⟨older, hsplit⟩ := h.newest
  have hlast : (older ++ m.journal.entries).getLast? = some (lastEntry seed rs) :=
    hsplit ▸ getLast?_cons_entries
  rw [List.getLast?_append] at hlast
  cases hl : m.journal.entries.getLast? with
  | none => exact absurd (List.getLast?_eq_none_iff.1 hl) h.started
  | some f => rw [hl] at hlast; rw [Journal.head?, hl]; exact hlast

theorem chronological (h : m.Faithful seed rs) : m.journal.entries.Pairwise Entry.Before :=
  h.records.pairwise.sublist h.newest.sublist

theorem covers (h : m.Faithful seed rs) {e : Entry} (he : e ∈ seed :: rs.map (·.entry)) :
    m.journal.Covers e.position := by
  obtain ⟨older, hsplit⟩ := h.newest
  have hord := h.records.pairwise
  rw [← hsplit] at he hord
  rcases List.mem_append.1 he with he | he
  · exact .inr fun f hf => ((List.pairwise_append.1 hord).2.2 e he f hf).position_lt
  · exact .inl ⟨e, he, rfl⟩

theorem position_le (h : m.Faithful seed rs) {k : Key} {v : Revision}
    (hv : v ∈ (m.store.timeline k).revisions) :
    v.position ≤ (lastEntry seed rs).position := by
  obtain ⟨e, he, hve⟩ := h.written k v hv
  exact hve ▸ h.records.position_le_lastEntry he

/-- A revision that is not the oldest one kept was written by a commit that is still in the
journal. -/
theorem mem_journal_of_recent (h : m.Faithful seed rs) {k : Key} {v : Revision}
    (hv : v ∈ (m.store.timeline k).revisions.dropLast) :
    ∃ e ∈ m.journal.entries, v.position = e.position := by
  obtain ⟨e, he, hve⟩ := h.written k v (List.dropLast_subset _ hv)
  obtain ⟨older, hsplit⟩ := h.newest
  have hord := h.records.pairwise
  rw [← hsplit] at he hord
  rcases List.mem_append.1 he with he | he
  · obtain ⟨first, rest, hfirst⟩ := List.exists_cons_of_ne_nil h.started
    have hbefore := (List.pairwise_append.1 hord).2.2 e he first (hfirst ▸ List.mem_cons_self)
    have hlt := h.recent k v hv first (by rw [hfirst]; rfl)
    rw [hve] at hlt
    exact absurd (Std.lt_trans hlt hbefore.position_lt) Std.lt_irrefl
  · exact ⟨e, he, hve⟩

theorem exists_revision (h : m.Faithful seed rs) {k : Key} (hk : m.owns k = true) {q : Revision}
    (hq : q ∈ (m.store.timeline k).revisions) {r : Record} (hr : r ∈ rs)
    (hkey : r.entry.keys.contains k = true) (hlt : q.position < r.entry.position) :
    ∃ v ∈ (m.store.timeline k).revisions, v.position = r.entry.position := by
  obtain ⟨v, hv⟩ := h.records.exists_revision_of_contains hr hkey
  have hvpos : v.position = r.entry.position :=
    congrArg WriteStamp.position (Record.stamp_revision hv).1
  obtain ⟨lost, hfull, -⟩ := h.kept k hk
  have hvfull : v ∈ revisionsOf k rs := mem_revisionsOf.2 ⟨r, hr, hv⟩
  have hdecreasing := h.records.decreasing_revisionsOf k
  rw [hfull] at hvfull hdecreasing
  rcases List.mem_append.1 hvfull with hkept | hlost
  · exact ⟨v, hkept, hvpos⟩
  · have hless := (List.pairwise_append.1 hdecreasing).2.2 q hq v hlost
    rw [hvpos] at hless
    exact absurd (Std.lt_trans hlt hless) Std.lt_irrefl

theorem exists_record (h : m.Faithful seed rs) {seen : List Record} (hseen : seen <+: rs)
    {e : Entry} (he : e ∈ m.journal.entries) (hlt : (lastEntry seed seen).position < e.position) :
    ∃ r ∈ rs, r.entry = e := by
  rcases List.mem_cons.1 (h.newest.subset he) with rfl | he
  · obtain ⟨rest, rfl⟩ := hseen
    have hle := h.records.of_append.1.position_le_lastEntry List.mem_cons_self
    exact absurd hle (Std.not_le_of_gt hlt)
  · exact List.mem_map.1 he

/-- A member that has applied the commits of some records is faithful to the log with these records
added. -/
theorem of_applied (h : m.Faithful seed rs) {rs' : List Record}
    (hrs' : Records (lastEntry seed rs) rs') (happ : Applied (lastEntry seed rs) rs' m m') :
    m'.Faithful seed (rs ++ rs') := by
  have hlog : seed :: (rs ++ rs').map (·.entry) = (seed :: rs.map (·.entry)) ++
      rs'.map (·.entry) := by simp
  constructor
  case keeps =>
    rw [happ.frame]
    exact h.keeps
  case rule =>
    rw [happ.frame]
    exact h.rule
  case records => exact h.records.append hrs'
  case started =>
    rw [happ.entries_eq]
    exact List.append_ne_nil_of_left_ne_nil h.started _
  case newest =>
    rw [happ.entries_eq, hlog]
    obtain ⟨older, hsplit⟩ := h.newest
    exact ⟨older, by rw [← List.append_assoc, hsplit]⟩
  case latest =>
    obtain ⟨c, hc, hrank, -⟩ := happ.latest
    exact ⟨c, hc, by rw [hrank, lastEntry_append]⟩
  case written =>
    intro k v hv
    obtain ⟨added, hrev, hadded, -⟩ := happ.stored.revisions_eq k
    rw [hrev] at hv
    rw [hlog]
    rcases List.mem_append.1 hv with hv | hv
    · obtain ⟨r, hr, hvr⟩ := hadded v hv
      exact ⟨r.entry, List.mem_append_right _ (List.mem_map_of_mem hr), hvr⟩
    · obtain ⟨e, he, hve⟩ := h.written k v hv
      exact ⟨e, List.mem_append_left _ he, hve⟩
  case recent =>
    intro k v hv f hf
    obtain ⟨added, hrev, hadded, -⟩ := happ.stored.revisions_eq k
    obtain ⟨first, more, hfirst⟩ := List.exists_cons_of_ne_nil h.started
    have hf : m.journal.entries.head? = some f := by simpa [happ.entries_eq, hfirst] using hf
    have hf_le : f.position ≤ (lastEntry seed rs).position :=
      h.records.position_le_lastEntry (h.newest.subset (List.mem_of_head? hf))
    have hnew : ∀ w ∈ added, f.position < w.position := by
      intro w hw
      obtain ⟨r, hr, hwr⟩ := hadded w hw
      rw [hwr]
      exact Std.lt_of_le_of_lt hf_le ((h.records.append hrs').lastEntry_position_lt hr)
    rw [hrev] at hv
    -- If nothing was kept before, the oldest revision is a new one.
    by_cases hold : (m.store.timeline k).revisions = []
    · rw [hold, List.append_nil] at hv
      exact hnew v (List.dropLast_subset _ hv)
    · rw [List.dropLast_append_of_ne_nil hold] at hv
      rcases List.mem_append.1 hv with hv | hv
      · exact hnew v hv
      · exact h.recent k v hv f hf
  case kept =>
    intro k hk
    obtain ⟨added, hrev, -, howned⟩ := happ.stored.revisions_eq k
    rw [happ.frame] at hk
    have hk : m.owns k = true := hk
    rw [howned hk] at hrev
    rw [revisionsOf_append]
    exact (h.kept k hk).append hrev (happ.stored.trimmed_eq k)

theorem applyBatch_accepted (h : m.Faithful seed rs) (now : Nat) {batch : List Commit}
    {es : List Entry} (hes : m.checkedEntries batch = .ok es) :
    ∃ rs' m', m.applyBatch now batch = (.ok (), m') ∧ rs'.map (·.commit) = batch ∧
    rs'.map (·.entry) = es ∧
      Applied (lastEntry seed rs) rs' m m' ∧ m'.Faithful seed (rs ++ rs') := by
  obtain ⟨c, hlatest, hrank⟩ := h.latest
  obtain ⟨rs', m', hm', hrs', hbatch, hentries, happ⟩ :=
    Member.applyBatch_accepted h.keeps h.rule h.head?_eq hlatest hrank
      (fun k v => h.position_le) now hes
  exact ⟨rs', m', hm', hbatch, hentries, happ, h.of_applied hrs' happ⟩

/-- An accepted batch is logged after what was logged before; a refused one changes nothing. -/
theorem applyBatch (h : m.Faithful seed rs) (now : Nat) (batch : List Commit) :
    (∃ fault, m.applyBatch now batch = (.error fault, m)) ∨
      ∃ rs' m', m.applyBatch now batch = (.ok (), m') ∧ rs'.map (·.commit) = batch ∧
        Applied (lastEntry seed rs) rs' m m' ∧ m'.Faithful seed (rs ++ rs') := by
  cases hes : m.checkedEntries batch with
  | error fault => exact .inl ⟨fault, applyBatch_refused h.keeps now hes⟩
  | ok es =>
    obtain ⟨rs', m', hm', hbatch, -, happ, hfaithful⟩ := h.applyBatch_accepted now hes
    exact .inr ⟨rs', m', hm', hbatch, happ, hfaithful⟩

/-- When a collection trims the journal, it leaves of each timeline at most one revision that no
entry still in the journal is older than: the others are admitted with the entries that wrote
them. -/
theorem position_lt_of_trimmed (h : m.Faithful seed rs) {cutoff : Stamp} {bound : Snapshot}
    (hbound : m.journal.snapshotAt m.issuer cutoff = .ok bound) {dropped rest : List Entry}
    {g : Entry} (hsplit : m.journal.entries = dropped ++ g :: rest)
    (hdropped : ∀ e ∈ dropped, e.atOrBefore cutoff = true) (hg : g.atOrBefore cutoff = true)
    {k : Key} {v : Revision} (hv : v ∈ (m.store.timeline k).revisions.dropLast)
    (hnot : bound.admits v.stamp = false) : g.position < v.position := by
  obtain ⟨e, he, hve⟩ := h.mem_journal_of_recent hv
  have hlater : e.atOrBefore cutoff = false := by
    cases hb : e.atOrBefore cutoff with
    | false => rfl
    | true =>
      have hadm : bound.admitsAt e.position = true :=
        (Journal.admits_snapshotAt_iff h.chronological hbound he).2 hb
      rw [← hve] at hadm
      exact absurd hadm (Bool.eq_false_iff.1 hnot)
  have hord := h.chronological
  rw [hsplit] at he hord
  rcases List.mem_append.1 he with he | he
  · simp [hdropped e he] at hlater
  · rcases List.mem_cons.1 he with rfl | he
    · simp [hg] at hlater
    · have hbefore := (List.pairwise_cons.1 (List.pairwise_append.1 hord).2.1).1 e he
      exact hve ▸ hbefore.position_lt

/-- Trimming the journal at a stamp, and the timelines by what the bound of the stamp admits. -/
theorem collect (h : m.Faithful seed rs) {cutoff : Stamp} {bound : Snapshot}
    {c : Option CommitStamp} {j' : Journal}
    (hbound : m.journal.snapshotAt m.issuer cutoff = .ok bound)
    (htrim : m.journal.trim cutoff = (.ok c, j')) :
    ({ m with journal := j', store := m.store.collect bound.admits } :
      Member).Faithful seed rs := by
  obtain ⟨hstarted, hlatest, dropped, hsplit, hdropped, holdest⟩ := Journal.trim_ok htrim
  have hsuffix : j'.entries <:+ m.journal.entries := ⟨dropped, hsplit.symm⟩
  constructor
  case keeps => exact h.keeps
  case rule => exact h.rule
  case records => exact h.records
  case started => exact hstarted
  case newest => exact hsuffix.trans h.newest
  case latest => exact hlatest ▸ h.latest
  case written =>
    intro k v hv
    rw [Store.timeline_collect] at hv
    exact h.written k v ((Timeline.throughFirst_sublist _ _).subset hv)
  case kept =>
    intro k hk
    rw [Store.timeline_collect]
    exact (h.kept k hk).collect
  case recent =>
    intro k v hv f hf
    rw [Store.timeline_collect] at hv
    have hold := Timeline.dropLast_throughFirst_subset hv
    have hnot : bound.admits v.stamp = false := Timeline.not_keep_of_mem_dropLast hv
    by_cases hd : dropped = []
    · exact h.recent k v hold f (by rw [hsplit, hd]; exact hf)
    · obtain ⟨g, rest, hg, hgb⟩ := holdest hd
      obtain rfl : g = f := by simpa [hg] using hf
      rw [hg] at hsplit
      exact h.position_lt_of_trimmed hbound hsplit hdropped hgb hold hnot

theorem expire (h : m.Faithful seed rs) (now : Nat) : (m.expire now).2.Faithful seed rs := by
  have hsub : ∀ k, ((m.store.expire now).2.timeline k).revisions = [] ∨
      ((m.store.expire now).2.timeline k).revisions =
        (m.store.timeline k).revisions.filter (!·.isExpired now) := by
    intro k
    rw [Store.timeline_expire]
    split
    · exact .inl rfl
    · exact .inr rfl
  constructor
  case keeps => exact h.keeps
  case rule => exact h.rule
  case records => exact h.records
  case started => exact h.started
  case newest => exact h.newest
  case latest => exact h.latest
  case written =>
    intro k v hv
    rcases hsub k with hk | hk
    · simp [Member.expire, hk] at hv
    · simp only [Member.expire, hk] at hv
      exact h.written k v (List.mem_filter.1 hv).1
  case recent =>
    intro k v hv
    rcases hsub k with hk | hk
    · simp [Member.expire, hk] at hv
    · simp only [Member.expire, hk] at hv
      exact h.recent k v (Timeline.dropLast_filter_subset _ hv)
  case kept =>
    intro k hk
    have hself := (h.kept k hk).expire_eq now fun v hv => by
      obtain ⟨r, -, hr⟩ := mem_revisionsOf.1 hv
      exact (Record.stamp_revision hr).2
    show ((m.store.expire now).2.timeline k).NewestOf _
    rw [Store.timeline_expire, hself]
    exact h.kept k hk

theorem of_eq (h : m.Faithful seed rs) (issuer : Issuer) (registry : Registry) :
    ({ m with issuer, registry } : Member).Faithful seed rs :=
  ⟨h.keeps, h.rule, h.records, h.started, h.newest, h.latest, h.written, h.recent, h.kept⟩

end Member.Faithful

namespace Member

variable {m m' : Member}

/-- What a collection did when it succeeded: it says how many revisions are gone. -/
theorem gc_ok {cutoff : Stamp} {n : Nat} (h : m.gc cutoff = .ok (n, m')) : ∃ bound c j',
    m.journal.snapshotAt m.issuer cutoff = .ok bound ∧ m.journal.trim cutoff = (.ok c, j') ∧
      m' = { m with journal := j', store := m.store.collect bound.admits } ∧
      n + (m.store.collect bound.admits).count = m.store.count := by
  simp only [gc, snapshotAt, bind_eq_ok, mapError_eq_ok, pure_eq_ok, Except.ok.injEq,
    Prod.mk.injEq] at h
  obtain ⟨_, -, bound, hbound, c, htrim, ⟨removed, store⟩, hstore, rfl, rfl⟩ := h
  obtain ⟨n, hgc, hcount⟩ := m.store.gc_snapshot bound
  obtain ⟨rfl, rfl⟩ := Prod.mk.inj (Except.ok.inj (hstore.symm.trans hgc))
  exact ⟨bound, c, _, hbound, Prod.ext htrim rfl, rfl, hcount⟩

theorem exists_gc_eq {cutoff : Stamp} {bound : Snapshot} {c : Option CommitStamp} {j' : Journal}
    (henabled : m.checkEnabled = .ok ()) (hbound : m.journal.snapshotAt m.issuer cutoff = .ok bound)
    (htrim : m.journal.trim cutoff = (.ok c, j')) :
    ∃ n, m.gc cutoff =
      .ok (n, { m with journal := j', store := m.store.collect bound.admits }) := by
  obtain ⟨n, hgc, -⟩ := m.store.gc_snapshot bound
  refine ⟨n, ?_⟩
  simp only [gc, henabled, snapshotAt, hbound, htrim, hgc, mapError_ok, ok_bind, pure_eq_ok]

theorem gc_count_add {cutoff : Stamp} {n : Nat} (h : m.gc cutoff = .ok (n, m')) :
    n + m'.store.count = m.store.count := by
  obtain ⟨_, _, _, -, -, rfl, hcount⟩ := gc_ok h
  exact hcount

/-- A collection before a commit value is one at the lesser of what is requested and what is still
needed. -/
theorem gcBefore_ok {value : Int64} {n : Nat} (h : m.gcBefore value = .ok (n, m')) :
    ∃ requested minimum least bound,
      m.journal.snapshotAt m.issuer (.commit (m.issuer.stamp m.issuer.views.oldestId value)) =
        .ok requested ∧
      m.localMinimum = .ok minimum ∧ m.journal.snapshotAt m.issuer minimum = .ok least ∧
      m.issuer.mergeMin [.snapshot requested, .snapshot least] = .ok bound ∧
      m.gc bound = .ok (n, m') := by
  simp only [gcBefore, snapshotAt, bind_eq_ok, mapError_eq_ok] at h
  obtain ⟨requested, hrequested, minimum, hminimum, least, hleast, bound, hbound, hgc⟩ := h
  exact ⟨requested, minimum, least, bound, hrequested, hminimum, hleast, hbound, hgc⟩

variable {seed : Entry} {rs : List Record}

theorem Faithful.gc (h : m.Faithful seed rs) {cutoff : Stamp} {n : Nat}
    (hgc : m.gc cutoff = .ok (n, m')) :
    m'.Faithful seed rs := by
  obtain ⟨bound, c, j', hbound, htrim, rfl, -⟩ := gc_ok hgc
  exact h.collect hbound htrim

end Member
end Multiversion
