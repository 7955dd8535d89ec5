import Multiversion.Proofs.Collection
import Multiversion.Proofs.Session
/- Collections one after the other, in any order and delivered more than once.

   The second collection is bounded anew, from a journal that the first has already trimmed, and so
   by another snapshot than it would have been alone. What is compared is therefore not the bounds
   but what they reach of the entries that are left, and that depends on nothing that a collection
   changes (`Member.Behind`): both journal and timelines are cut where the entries stop being behind
   (`Member.Faithful.collected`). Cutting twice is cutting at the further of two places
   (`Journal.dropBehind_of_further`, `Store.collect_of_further`), or at the first if the second is
   nearer (`Journal.dropBehind_of_nearer`, `Store.collect_of_nearer`).

   Main statements: `Member.Faithful.gcBefore_of_further` and `gcBefore_of_nearer` for two
   collections, `Member.Faithful.gcBeforeEach` for any number of them, `Session.collections_commute`
   for a run. -/
namespace Multiversion

namespace Journal

variable {bound bound' : Stamp} {l : List Entry} {j : Journal}

theorem dropOlder_congr (h : ∀ e ∈ l, e.atOrBefore bound = e.atOrBefore bound') :
    dropOlder bound l = dropOlder bound' l := by
  fun_induction dropOlder bound l with
  | case1 a b rest hab ih =>
    obtain ⟨ha, hrest⟩ := List.forall_mem_cons.1 h
    rw [ih hrest, dropOlder, if_pos]
    rwa [← ha, ← hrest b List.mem_cons_self]
  | case2 a b rest hab =>
    obtain ⟨ha, hrest⟩ := List.forall_mem_cons.1 h
    rw [dropOlder, if_neg]
    rwa [← ha, ← hrest b List.mem_cons_self]
  | case3 l hshort =>
    cases l with
    | nil => rfl
    | cons a later =>
      cases later with
      | nil => rfl
      | cons b rest => exact absurd rfl (hshort a b rest)

theorem dropOlder_of_further (h : ∀ e ∈ l, e.atOrBefore bound = true → e.atOrBefore bound' = true) :
    dropOlder bound' (dropOlder bound l) = dropOlder bound' l := by
  fun_induction dropOlder bound l with
  | case1 a b rest hab ih =>
    obtain ⟨ha, hb⟩ := Bool.and_eq_true_iff.1 hab
    obtain ⟨hfirst, hrest⟩ := List.forall_mem_cons.1 h
    have hboth : (a.atOrBefore bound' && b.atOrBefore bound') = true :=
      Bool.and_eq_true_iff.2 ⟨hfirst ha, hrest b List.mem_cons_self hb⟩
    rw [ih hrest]
    conv => rhs; rw [dropOlder, if_pos hboth]
  | case2 a b rest hab => rfl
  | case3 l hshort => rfl

theorem dropOlder_of_nearer (h : ∀ e ∈ l, e.atOrBefore bound = true → e.atOrBefore bound' = true) :
    dropOlder bound (dropOlder bound' l) = dropOlder bound' l := by
  obtain ⟨dropped, hsplit, -⟩ := dropOlder_spec bound' l
  match hkept : dropOlder bound' l with
  | [] => rfl
  | [_] => rfl
  | a :: b :: rest =>
    have hin : ∀ e ∈ a :: b :: rest, e ∈ l := fun e he => by
      rw [hsplit, hkept]
      exact List.mem_append_right dropped he
    rw [dropOlder, if_neg]
    intro hboth
    obtain ⟨ha, hb⟩ := Bool.and_eq_true_iff.1 hboth
    exact dropOlder_maximal hkept ⟨h a (hin a (by simp)) ha, h b (hin b (by simp)) hb⟩

theorem dropBehind_congr (h : ∀ e ∈ j.entries, e.atOrBefore bound = e.atOrBefore bound') :
    j.dropBehind bound = j.dropBehind bound' := by
  rw [dropBehind, dropBehind, dropOlder_congr h]

theorem dropBehind_of_further
    (h : ∀ e ∈ j.entries, e.atOrBefore bound = true → e.atOrBefore bound' = true) :
    (j.dropBehind bound).dropBehind bound' = j.dropBehind bound' := by
  have hsame := dropOlder_of_further h
  have hle := (dropOlder_suffix bound j.entries).length_le
  have hle' := (dropOlder_suffix bound' (dropOlder bound j.entries)).length_le
  rw [hsame] at hle'
  simp only [dropBehind, hsame, Journal.mk.injEq, true_and, and_true]
  omega

theorem dropBehind_of_nearer
    (h : ∀ e ∈ j.entries, e.atOrBefore bound = true → e.atOrBefore bound' = true) :
    (j.dropBehind bound').dropBehind bound = j.dropBehind bound' := by
  simp only [dropBehind, dropOlder_of_nearer h, Nat.sub_self, Nat.add_zero]

end Journal

namespace Timeline

variable {keep keep' : WriteStamp → Bool} {l : List Revision} {t : Timeline}

/-- Where a timeline is cut depends only on which of its revisions but the oldest pass the test. -/
theorem throughFirst_congr (h : ∀ r ∈ l.dropLast, keep r.stamp = keep' r.stamp) :
    throughFirst keep l = throughFirst keep' l := by
  induction l with
  | nil => rfl
  | cons r older ih =>
    cases older with
    | nil => rw [throughFirst_eq_self (by simp), throughFirst_eq_self (by simp)]
    | cons q rest =>
      rw [List.dropLast_cons_cons] at h
      obtain ⟨hr, hrest⟩ := List.forall_mem_cons.1 h
      conv => lhs; rw [throughFirst, hr, ih hrest]
      conv => rhs; rw [throughFirst]

theorem throughFirst_of_further (h : ∀ r ∈ l.dropLast, keep r.stamp = true → keep' r.stamp = true) :
    throughFirst keep' (throughFirst keep l) = throughFirst keep' l := by
  induction l with
  | nil => rfl
  | cons r older ih =>
    cases older with
    | nil =>
      have hself : throughFirst keep [r] = [r] := throughFirst_eq_self (by simp)
      rw [hself]
    | cons q rest =>
      rw [List.dropLast_cons_cons] at h
      obtain ⟨hr, hrest⟩ := List.forall_mem_cons.1 h
      cases hpasses : keep r.stamp with
      | true => simp [throughFirst, hpasses, hr hpasses]
      | false =>
        have hcut : throughFirst keep (r :: q :: rest) = r :: throughFirst keep (q :: rest) := by
          rw [throughFirst, if_neg (by simp [hpasses])]
        rw [hcut]
        conv => lhs; rw [throughFirst, ih hrest]
        conv => rhs; rw [throughFirst]

theorem ext_of_eq {t t' : Timeline} (h : t.revisions = t'.revisions)
    (htrimmed : t.trimmed = t'.trimmed) : t = t' := by
  cases t
  cases t'
  cases h
  cases htrimmed
  rfl

theorem collect_congr (h : ∀ r ∈ t.revisions.dropLast, keep r.stamp = keep' r.stamp) :
    t.collect keep = t.collect keep' := by
  have hsame := throughFirst_congr h
  apply ext_of_eq
  · exact hsame
  · simp only [collect, hsame]

theorem collect_of_further
    (h : ∀ r ∈ t.revisions.dropLast, keep r.stamp = true → keep' r.stamp = true) :
    (t.collect keep).collect keep' = t.collect keep' := by
  have hsame := throughFirst_of_further h
  apply ext_of_eq
  · exact hsame
  · -- Either of the two cuts is remembered, and there was one if fewer revisions are left.
    have hle := (throughFirst_sublist keep t.revisions).length_le
    have hle' := (throughFirst_sublist keep' (throughFirst keep t.revisions)).length_le
    rw [hsame] at hle'
    simp only [collect, hsame, Bool.or_assoc, ← Bool.decide_or]
    congr 2
    apply propext
    omega

theorem collect_of_nearer
    (h : ∀ r ∈ t.revisions.dropLast, keep r.stamp = true → keep' r.stamp = true) :
    (t.collect keep').collect keep = t.collect keep' := by
  apply collect_eq_self
  intro r hr
  have hnot : keep' r.stamp = false := not_keep_of_mem_dropLast hr
  cases hk : keep r.stamp with
  | false => rfl
  | true => simp [h r (dropLast_throughFirst_subset hr) hk] at hnot

end Timeline

namespace Store

variable {s : Store} {keep keep' : WriteStamp → Bool}

theorem mapValues_congr {f g : Timeline → Timeline} (h : ∀ k, f (s.timeline k) = g (s.timeline k)) :
    s.timelines.mapValues f = s.timelines.mapValues g := by
  apply OrderedMap.ext
  intro k
  have hk := h k
  rw [timeline] at hk
  rw [OrderedMap.get?_mapValues, OrderedMap.get?_mapValues]
  cases hget : s.timelines.get? k with
  | none => rfl
  | some t =>
    rw [hget] at hk
    exact congrArg some hk

theorem mapValues_mapValues (s : Store) (f g : Timeline → Timeline) :
    (s.timelines.mapValues f).mapValues g = s.timelines.mapValues fun t => g (f t) := by
  apply OrderedMap.ext
  intro k
  simp only [OrderedMap.get?_mapValues, Option.map_map, Function.comp_def]

theorem collect_congr
    (h : ∀ k, ∀ r ∈ (s.timeline k).revisions.dropLast, keep r.stamp = keep' r.stamp) :
    s.collect keep = s.collect keep' :=
  congrArg Store.mk (mapValues_congr fun k => Timeline.collect_congr (h k))

theorem collect_of_further
    (h : ∀ k, ∀ r ∈ (s.timeline k).revisions.dropLast, keep r.stamp = true → keep' r.stamp = true) :
    (s.collect keep).collect keep' = s.collect keep' := by
  rw [collect, collect, mapValues_mapValues]
  exact congrArg Store.mk (mapValues_congr fun k => Timeline.collect_of_further (h k))

theorem collect_of_nearer
    (h : ∀ k, ∀ r ∈ (s.timeline k).revisions.dropLast, keep r.stamp = true → keep' r.stamp = true) :
    (s.collect keep').collect keep = s.collect keep' := by
  rw [collect, collect, mapValues_mapValues]
  exact congrArg Store.mk (mapValues_congr fun k => Timeline.collect_of_nearer (h k))

end Store

namespace Member

variable {m m' m₁ m₂ : Member} {seed : Entry} {rs : List Record} {l : List Snapshot} {c d : Int64}
  {n n₁ : Nat} {e : Entry} {s s' s₂ bound bound' bound₂ : Snapshot}

/-- An entry is behind if it comes neither after the commit value, in the oldest known view, nor
after any registered snapshot. -/
def Behind (m : Member) (value : Int64) (e : Entry) : Prop :=
  e.stamp.rank ≤ ⟨value, m.issuer.views.oldestId⟩ ∧
    ∀ v ∈ m.registry.snapshots, e.atOrBefore v = true

theorem Behind.mono (h : m.Behind c e) (hle : c ≤ d) : m.Behind d e := by
  refine ⟨Std.le_trans h.1 ?_, h.2⟩
  rcases Std.le_iff_lt_or_eq.1 hle with hlt | rfl
  · exact Rank.le_iff.2 (.inl hlt)
  · exact Std.le_refl _

theorem gcBefore_count (h : m.gcBefore c = .ok (n, m')) : n + m'.store.count = m.store.count := by
  obtain ⟨_, _, _, bound, -, -, -, -, hgc⟩ := gcBefore_ok h
  exact gc_count_add hgc

/-- The member after its journal is cut at one bound and its timelines at another. -/
def cut (m : Member) (s bound : Snapshot) : Member :=
  { m with journal := m.journal.dropBehind (.snapshot s), store := m.store.collect bound.admits }

/-- What a collection before a commit value has done: it cuts the journal and the timelines, at
bounds that reach the entries that are behind. -/
structure Collected (m m' : Member) (value : Int64) (s bound : Snapshot) : Prop where
  eq_cut : m' = m.cut s bound
  dropped_iff : ∀ e ∈ m.journal.entries, e.atOrBefore (.snapshot s) = true ↔ m.Behind value e
  cut_iff : ∀ e ∈ m.journal.entries, ∀ r : Revision, r.position = e.position →
    (bound.admits r.stamp = true ↔ m.Behind value e)

theorem Faithful.collected (h : m.Faithful seed rs)
    (hreg : m.registry.snapshots = l.map Stamp.snapshot) (hgc : m.gcBefore c = .ok (n, m')) :
    ∃ s bound, Collected m m' c s bound := by
  obtain ⟨s, bound, oldest, j', hbound, htrim, rfl, -, hadmits⟩ := h.gcBefore_bound hreg hgc
  have hbehind : ∀ e ∈ m.journal.entries, e.atOrBefore (.snapshot s) = true ↔ m.Behind c e := by
    intro e he
    rw [Behind, hreg, List.forall_mem_map]
    simp only [Entry.atOrBefore_snapshot]
    exact hadmits e he
  obtain ⟨-, ⟨habsent, -⟩ | ⟨-, rfl⟩⟩ := Journal.trim_cases htrim
  · cases habsent
  refine ⟨s, bound, rfl, hbehind, ?_⟩
  intro e he r hre
  rw [← hbehind e he, ← Journal.admits_snapshotAt_iff h.chronological hbound he]
  show bound.admitsAt r.position = true ↔ bound.admitsAt e.position = true
  rw [hre]

theorem localMinimum_congr {j' : Journal} {store' : Store} (hstarted : m.journal.entries ≠ [])
    (hstarted' : j'.entries ≠ []) (hlatest : j'.latest = m.journal.latest) :
    ({ m with journal := j', store := store' } : Member).localMinimum = m.localMinimum := by
  simp only [localMinimum, checkEnabled, Journal.latestStamp_congr hstarted hstarted' hlatest]

theorem Faithful.exists_gcBefore_ok_of_ok (h : m.Faithful seed rs)
    (hgc : m.gcBefore c = .ok (n, m')) (d : Int64) :
    ∃ n' m'', m.gcBefore d = .ok (n', m'') := by
  obtain ⟨_, _, _, _, -, hminimum, hleast, -, -⟩ := gcBefore_ok hgc
  exact h.exists_gcBefore_ok_of_minimum hminimum hleast d

theorem Faithful.gcBefore (h : m.Faithful seed rs) (hgc : m.gcBefore c = .ok (n, m')) :
    m'.Faithful seed rs := by
  obtain ⟨_, _, _, _, -, -, -, -, hgc⟩ := gcBefore_ok hgc
  exact h.gc hgc

theorem Faithful.exists_gcBefore_again (h : m.Faithful seed rs) (hgc : m.gcBefore c = .ok (n, m'))
    (d : Int64) :
    ∃ n' m'', m'.gcBefore d = .ok (n', m'') := by
  have h' := h.gcBefore hgc
  obtain ⟨_, v, least, bound, -, hminimum, hleast, -, hgc⟩ := gcBefore_ok hgc
  obtain ⟨_, _, j', -, htrim, rfl, -⟩ := gc_ok hgc
  obtain ⟨hstarted', hlatest, -⟩ := Journal.trim_ok htrim
  obtain ⟨s₀, hs₀, -⟩ := Journal.snapshotAt_ok hleast
  exact h'.exists_gcBefore_ok_of_minimum
    ((localMinimum_congr h.started hstarted' hlatest).trans hminimum)
    (Journal.snapshotAt_eq hs₀) d

namespace Collected

theorem registry_eq (h : Collected m m' c s bound) :
    m'.registry = m.registry := by rw [h.eq_cut]; rfl

theorem behind_iff (h : Collected m m' c s bound) : m'.Behind d e ↔
    m.Behind d e := by rw [h.eq_cut]; rfl

theorem mem_of_mem (h : Collected m m' c s bound) (he : e ∈ m'.journal.entries) :
    e ∈ m.journal.entries := by
  rw [h.eq_cut] at he
  exact (Journal.dropOlder_suffix _ _).subset he

theorem reaches (hc : Collected m m₁ c s bound) (hd : Collected m m' d s' bound')
    (h : m.Faithful seed rs) (hle : c ≤ d) :
    (∀ e ∈ m.journal.entries, e.atOrBefore (.snapshot s) = true →
      e.atOrBefore (.snapshot s') = true) ∧
      ∀ k, ∀ r ∈ (m.store.timeline k).revisions.dropLast, bound.admits r.stamp = true →
      bound'.admits r.stamp = true := by
  constructor
  · intro e he hreached
    exact (hd.dropped_iff e he).2 (((hc.dropped_iff e he).1 hreached).mono hle)
  · intro k r hr hadmitted
    obtain ⟨e, he, hre⟩ := h.mem_journal_of_recent hr
    exact (hd.cut_iff e he r hre).2 (((hc.cut_iff e he r hre).1 hadmitted).mono hle)

/-- The second of two collections cuts what the first has left where it would have cut at first. -/
theorem again (hc : Collected m m₁ c s bound) (hd : Collected m m' d s' bound')
    (hcd : Collected m₁ m₂ d s₂ bound₂) (h₁ : m₁.Faithful seed rs) :
    m₂ = (m.cut s bound).cut s' bound' := by
  have hjournal : m₁.journal.dropBehind (.snapshot s₂) = m₁.journal.dropBehind (.snapshot s') := by
    apply Journal.dropBehind_congr
    intro e he
    apply Bool.eq_iff_iff.2
    rw [hcd.dropped_iff e he, hc.behind_iff, hd.dropped_iff e (hc.mem_of_mem he)]
  have hstore : m₁.store.collect bound₂.admits = m₁.store.collect bound'.admits := by
    apply Store.collect_congr
    intro k r hr
    obtain ⟨e, he, hre⟩ := h₁.mem_journal_of_recent hr
    apply Bool.eq_iff_iff.2
    rw [hcd.cut_iff e he r hre, hc.behind_iff, hd.cut_iff e (hc.mem_of_mem he) r hre]
  rw [← hc.eq_cut, hcd.eq_cut, cut, cut, hjournal, hstore]

end Collected

theorem Faithful.gcBefore_twice (h : m.Faithful seed rs)
    (hreg : m.registry.snapshots = l.map Stamp.snapshot) (hgc : m.gcBefore c = .ok (n₁, m₁))
    (hc : Collected m m₁ c s bound) (hd : Collected m m' d s' bound') :
    ∃ n', m₁.gcBefore d = .ok (n', (m.cut s bound).cut s' bound') := by
  obtain ⟨n', m₂, hagain⟩ := h.exists_gcBefore_again hgc d
  have h₁ := h.gcBefore hgc
  obtain ⟨s₂, bound₂, hcd⟩ := h₁.collected (hc.registry_eq ▸ hreg) hagain
  exact ⟨n', by rw [← hc.again hd hcd h₁, hagain]⟩

/-- After a collection one that reaches further leaves what it leaves on its own. -/
theorem Faithful.gcBefore_of_further (h : m.Faithful seed rs)
    (hreg : m.registry.snapshots = l.map Stamp.snapshot) (hle : c ≤ d)
    (hgc : m.gcBefore c = .ok (n₁, m₁)) (hgc' : m.gcBefore d = .ok (n, m')) :
    ∃ n', m₁.gcBefore d = .ok (n', m') := by
  obtain ⟨s, bound, hc⟩ := h.collected hreg hgc
  obtain ⟨s', bound', hd⟩ := h.collected hreg hgc'
  obtain ⟨n', hagain⟩ := h.gcBefore_twice hreg hgc hc hd
  obtain ⟨hdropped, hcut⟩ := hc.reaches hd h hle
  have heq : (m.cut s bound).cut s' bound' = m' := by
    rw [hd.eq_cut]
    simp only [cut, Journal.dropBehind_of_further hdropped, Store.collect_of_further hcut]
  exact ⟨n', heq ▸ hagain⟩

/-- After a collection one that does not reach further takes nothing. -/
theorem Faithful.gcBefore_of_nearer (h : m.Faithful seed rs)
    (hreg : m.registry.snapshots = l.map Stamp.snapshot) (hle : c ≤ d)
    (hgc : m.gcBefore d = .ok (n, m')) : m'.gcBefore c = .ok (0, m') := by
  obtain ⟨n₁, m₁, hgc'⟩ := h.exists_gcBefore_ok_of_ok hgc c
  obtain ⟨s, bound, hc⟩ := h.collected hreg hgc'
  obtain ⟨s', bound', hd⟩ := h.collected hreg hgc
  obtain ⟨n', hagain⟩ := h.gcBefore_twice hreg hgc hd hc
  obtain ⟨hdropped, hcut⟩ := hc.reaches hd h hle
  have heq : (m.cut s' bound').cut s bound = m' := by
    rw [hd.eq_cut]
    simp only [cut, Journal.dropBehind_of_nearer hdropped, Store.collect_of_nearer hcut]
  rw [heq] at hagain
  have hcount := gcBefore_count hagain
  rw [Nat.add_eq_right] at hcount
  rw [hagain, hcount]

/-- Collect before one commit value after the other. -/
def gcBeforeEach (m : Member) : List Int64 → Except TxFault Member
  | [] => .ok m
  | c :: rest => do (← m.gcBefore c).2.gcBeforeEach rest

theorem gcBeforeEach_eq_self {cutoffs : List Int64} (h : ∀ c ∈ cutoffs, m.gcBefore c = .ok (0, m)) :
    m.gcBeforeEach cutoffs = .ok m := by
  induction cutoffs with
  | nil => rfl
  | cons c rest ih =>
    obtain ⟨hc, hrest⟩ := List.forall_mem_cons.1 h
    rw [gcBeforeEach, hc, ok_bind, ih hrest]

/-- Collections before several values leave what the one before the greatest of them leaves on its
own. -/
theorem Faithful.gcBeforeEach (h : m.Faithful seed rs)
    (hreg : m.registry.snapshots = l.map Stamp.snapshot) (hgc : m.gcBefore d = .ok (n, m'))
    {cutoffs : List Int64} (hmem : d ∈ cutoffs) (hle : ∀ c ∈ cutoffs, c ≤ d) :
    m.gcBeforeEach cutoffs = .ok m' := by
  induction cutoffs generalizing m n with
  | nil => cases hmem
  | cons c rest ih =>
    obtain ⟨hfirst, hrest⟩ := List.forall_mem_cons.1 hle
    by_cases hlater : d ∈ rest
    · obtain ⟨n₁, m₁, hgc'⟩ := h.exists_gcBefore_ok_of_ok hgc c
      obtain ⟨s, bound, hc⟩ := h.collected hreg hgc'
      obtain ⟨n', hagain⟩ := h.gcBefore_of_further hreg hfirst hgc' hgc
      rw [Member.gcBeforeEach, hgc', ok_bind]
      exact ih (h.gcBefore hgc') (hc.registry_eq ▸ hreg) hagain hlater hrest
    · -- The greatest comes first and not again, so that the rest takes nothing.
      obtain rfl : d = c := (List.mem_cons.1 hmem).resolve_right hlater
      rw [Member.gcBeforeEach, hgc, ok_bind]
      exact gcBeforeEach_eq_self fun c hc => h.gcBefore_of_nearer hreg (hrest c hc) hgc

end Member

namespace Session

/-- Take any run of a member that keeps history, and two commit values before which it can collect.
One collection after the other, in either order, and the one before the greater value alone leave
the very same member: journal, numbering, timelines and what these know of earlier collections. A
second collection before the same value takes nothing. The same holds of any number of collections,
in any order and with any repetition. -/
theorem collections_commute {settings : Settings} (hkeeps : settings.keepsHistory = true)
    (address : Address) (view : View) (owns : Key → Bool) (events : List Event) {s : Session}
    (hs : s = (start settings address view owns).run events) {c d : Int64} {n₁ n₂ : Nat}
    {m₁ m₂ : Member} (hc : s.member.gcBefore c = .ok (n₁, m₁))
    (hd : s.member.gcBefore d = .ok (n₂, m₂)) :
    m₁.gcBefore c = .ok (0, m₁) ∧
      ∃ m', (∃ n, s.member.gcBefore (max c d) = .ok (n, m')) ∧ (∃ n, m₁.gcBefore d = .ok (n, m')) ∧
        (∃ n, m₂.gcBefore c = .ok (n, m')) ∧ (∀ e ≤ max c d, m'.gcBefore e = .ok (0, m')) ∧
        ∀ cutoffs, max c d ∈ cutoffs → (∀ e ∈ cutoffs, e ≤ max c d) →
        s.member.gcBeforeEach cutoffs = .ok m' := by
  obtain ⟨rs, hsound⟩ := Sound.run_start hkeeps address view owns events
  rw [← hs] at hsound
  obtain ⟨l, hreg⟩ := hsound.exists_snapshots
  have h := hsound.faithful
  refine ⟨h.gcBefore_of_nearer hreg (Std.le_refl c) hc, ?_⟩
  by_cases hle : c ≤ d
  · have hmax : max c d = d := if_pos hle
    rw [hmax]
    refine ⟨m₂, ⟨n₂, hd⟩, h.gcBefore_of_further hreg hle hc hd,
      ⟨0, h.gcBefore_of_nearer hreg hle hd⟩, ?_, ?_⟩
    · exact fun e he => h.gcBefore_of_nearer hreg he hd
    · exact fun cutoffs hmem hall => h.gcBeforeEach hreg hd hmem hall
  · have hmax : max c d = c := if_neg hle
    have hle : d ≤ c := Std.le_of_lt (Std.not_le.1 hle)
    rw [hmax]
    refine ⟨m₁, ⟨n₁, hc⟩, ⟨0, h.gcBefore_of_nearer hreg hle hc⟩,
      h.gcBefore_of_further hreg hle hd hc, ?_, ?_⟩
    · exact fun e he => h.gcBefore_of_nearer hreg he hc
    · exact fun cutoffs hmem hall => h.gcBeforeEach hreg hc hmem hall

/-- The second of two collections is held back by a transaction that began before the last commit,
and takes what the first has left before it. -/
theorem collections_commute_held_back :
    ∃ (s : Session) (m₁ m' : Member), s = (start {} "a" ⟨1, ["a"]⟩ fun _ => true).run
        [.apply 0 [.single ⟨.replicated, 1, 1⟩ "k" (some "w")],
          .apply 0 [.single ⟨.replicated, 1, 1⟩ "k" (some "x")],
          .apply 0 [.single ⟨.replicated, 1, 2⟩ "k" (some "y")], .begin,
          .apply 0 [.single ⟨.replicated, 1, 3⟩ "k" (some "z")]] ∧
      s.member.gcBefore 1 = .ok (1, m₁) ∧ s.member.gcBefore 3 = .ok (2, m') ∧
      m₁.gcBefore 3 = .ok (1, m') ∧
      m'.gcBefore 1 = .ok (0, m') ∧ s.member.gcBeforeEach [3, 1, 1, 3] = .ok m' := by
  obtain ⟨s, m₁, m₂, hs, hc, hd⟩ : ∃ (s : Session) (m₁ m₂ : Member),
      s = (start {} "a" ⟨1, ["a"]⟩ fun _ => true).run
        [.apply 0 [.single ⟨.replicated, 1, 1⟩ "k" (some "w")],
          .apply 0 [.single ⟨.replicated, 1, 1⟩ "k" (some "x")],
          .apply 0 [.single ⟨.replicated, 1, 2⟩ "k" (some "y")], .begin,
          .apply 0 [.single ⟨.replicated, 1, 3⟩ "k" (some "z")]] ∧
      s.member.gcBefore 1 = .ok (1, m₁) ∧ s.member.gcBefore 3 = .ok (2, m₂) :=
        ⟨_, _, _, rfl, rfl, rfl⟩
  have hmax : max (1 : Int64) 3 = 3 := rfl
  obtain ⟨-, m', ⟨n, halone⟩, ⟨n', hagain⟩, -, htakes, heach⟩ :=
    collections_commute rfl "a" ⟨1, ["a"]⟩ (fun _ => true) _ hs hc hd
  rw [hmax] at halone htakes heach
  obtain ⟨rfl, rfl⟩ := Prod.mk.inj (Except.ok.inj (hd.symm.trans halone))
  have hone : n' = 1 := by
    have h₁ := Member.gcBefore_count hc
    have h₂ := Member.gcBefore_count hd
    have h₁₂ := Member.gcBefore_count hagain
    omega
  exact ⟨s, m₁, m₂, hs, hc, hd, hone ▸ hagain, htakes 1 (by decide), heach _ (by simp) (by simp)⟩

end Session
end Multiversion
