import Multiversion.Proofs.Session
/- When a member takes a batch of commits.

   The check that a batch has to pass is that all of it are commits of known views, none before the
   one that it follows (`Member.Accepts`, `Member.Faithful.exists_checkedEntries_iff`). That the
   entries may follow each other is no condition of its own: the sub-versions are counted up so that
   they may. Nothing can fail after the check, so a batch is applied as a whole or not at all
   (`Session.batch_accepted_iff`). -/
namespace Multiversion

/-- Counting up brings a later sub-version, unless it wraps around. -/
theorem lt_add_one_of_ne_minValue {sub : Int32} (h : sub + 1 ≠ Int32.minValue) :
    sub < sub + 1 := by grind

/-- An entry with the next sub-version may follow if its commit does not come before the one that it
follows. -/
theorem Entry.follows_iff {last e : Entry} (hsub : e.sub = last.nextSub (some e.stamp.value))
    (hfits : e.sub ≠ Int32.minValue) : e.follows last = true ↔ last.stamp.rank ≤ e.stamp.rank := by
  constructor
  · intro h
    exact (before_of_follows h).rank_le
  · intro h
    simp only [follows, Bool.and_eq_true, Bool.or_eq_true, decide_eq_true_eq]
    rcases Rank.le_iff.1 h with hless | ⟨hvalue, hview⟩
    · exact ⟨.inl (Rank.lt_iff.2 (.inl hless)), Position.lt_iff.2 (.inl hless)⟩
    · -- Commits of one value are told apart by the sub-version, whatever their views.
      have hvalue : last.stamp.value = e.stamp.value := hvalue
      have hnext : e.sub = last.sub + 1 := by rw [hsub, nextSub, if_pos (congrArg some hvalue.symm)]
      have hlt : last.sub < e.sub := hnext ▸ lt_add_one_of_ne_minValue (hnext ▸ hfits)
      refine ⟨?_, Position.lt_iff.2 (.inr ⟨hvalue, hlt⟩)⟩
      rcases Std.le_iff_lt_or_eq.1 h with hrank | hrank
      · exact .inl hrank
      · exact .inr ⟨hrank, hlt⟩

theorem pairwise_le_cons_cons {a b : Rank} {l : List Rank} :
    (a :: b :: l).Pairwise (· ≤ ·) ↔ a ≤ b ∧ (b :: l).Pairwise (· ≤ ·) := by
  rw [List.pairwise_cons (a := a), List.forall_mem_cons]
  constructor
  · rintro ⟨⟨hab, -⟩, h⟩
    exact ⟨hab, h⟩
  · rintro ⟨hab, h⟩
    exact ⟨⟨hab, fun c hc => Std.le_trans hab ((List.pairwise_cons.1 h).1 c hc)⟩, h⟩

namespace Member

variable {m : Member} {last : Entry} {batch : List Commit} {es : List Entry}

theorem exists_entriesAfter_iff (last : Entry) :
    (∃ es, entriesAfter last batch = .ok es) ↔ ∀ c ∈ batch, ∃ stamp, c.stamp = .commit stamp := by
  induction batch generalizing last with
  | nil => simp [entriesAfter]
  | cons c rest ih =>
    simp only [entriesAfter, bind_eq_ok, pure_eq_ok, List.forall_mem_cons]
    constructor
    · rintro ⟨_, e, he, es, hes, -⟩
      exact ⟨⟨e.stamp, (Entry.ofStamp_ok he).1⟩, (ih e).1 ⟨es, hes⟩⟩
    · rintro ⟨⟨stamp, hstamp⟩, hrest⟩
      obtain ⟨es, hes⟩ := (ih _).2 hrest
      exact ⟨_, _, by rw [hstamp]; rfl, es, hes, rfl⟩

theorem stamps_entriesAfter (h : entriesAfter last batch = .ok es) :
    batch.map (·.stamp) = es.map (Stamp.commit ·.stamp) := by
  induction batch generalizing last es with
  | nil =>
    cases h
    rfl
  | cons c rest ih =>
    simp only [entriesAfter, bind_eq_ok, pure_eq_ok, Except.ok.injEq] at h
    obtain ⟨e, he, es, hes, rfl⟩ := h
    rw [List.map_cons, List.map_cons, ih hes, (Entry.ofStamp_ok he).1]

theorem ranks_entriesAfter (h : entriesAfter last batch = .ok es) :
    batch.filterMap (·.stamp.rank?) = es.map (·.stamp.rank) := by
  have hmap : (batch.map (·.stamp)).filterMap Stamp.rank? =
      (es.map (Stamp.commit ·.stamp)).filterMap Stamp.rank? :=
    congrArg _ (stamps_entriesAfter h)
  simpa [List.filterMap_map, Function.comp_def, Stamp.rank?] using hmap

/-- The entries of a batch are in order if its commits are, right from the entry that they
follow. -/
theorem checkOrder_entriesAfter (h : entriesAfter last batch = .ok es)
    (hfits : ∀ e ∈ es, e.sub ≠ Int32.minValue) :
    Journal.checkOrder last es = .ok () ↔
      (last.stamp.rank :: es.map (·.stamp.rank)).Pairwise (· ≤ ·) := by
  induction batch generalizing last es with
  | nil =>
    cases h
    simp [Journal.checkOrder]
  | cons c rest ih =>
    simp only [entriesAfter, bind_eq_ok, pure_eq_ok, Except.ok.injEq] at h
    obtain ⟨e, he, es, hes, rfl⟩ := h
    obtain ⟨hfit, hfits⟩ := List.forall_mem_cons.1 hfits
    obtain ⟨hstamp, hsub, -⟩ := Entry.ofStamp_ok he
    have hfollows : e.follows last = true ↔ last.stamp.rank ≤ e.stamp.rank :=
      Entry.follows_iff (by rw [hsub, hstamp]; rfl) hfit
    rw [List.map_cons, pairwise_le_cons_cons, ← hfollows, ← ih hes hfits, Journal.checkOrder]
    split
    · next hyes => simp [hyes]
    · next hno => simp [hno]

end Member

/-- The journal agrees to entries that are in order, if their views and that of the greatest commit
are known. -/
theorem Journal.exists_check_iff {i : Issuer} {j : Journal} {last : Entry} {latest : CommitStamp}
    {es : List Entry} (hlast : j.head? = some last) (hlatest : j.latest = some latest) :
    (∃ merged, j.check i es = .ok merged) ↔ Journal.checkOrder last es = .ok () ∧
      i.views.knows latest.view = true ∧ ∀ e ∈ es, i.views.knows e.stamp.view = true := by
  have hviews : (∀ r ∈ j.ranksWith es, i.views.knows r.view = true) ↔
      i.views.knows latest.view = true ∧ ∀ e ∈ es, i.views.knows e.stamp.view = true := by
    rw [ranksWith_of_latest hlatest, List.forall_mem_cons, List.forall_mem_map]
    rfl
  simp only [check_eq_ok, hlast, hviews, Option.some.injEq]
  constructor
  · rintro ⟨_, _, rfl, horder, hknown, -⟩
    exact ⟨horder, hknown⟩
  · rintro ⟨horder, hknown⟩
    exact ⟨_, last, rfl, horder, hknown, rfl⟩

/-- What a batch has to be for a member to take it: commits of known views, none before the one that
it follows. -/
structure Member.Accepts (m : Member) (batch : List Commit) : Prop where
  commits : ∀ c ∈ batch, ∃ stamp, c.stamp = .commit stamp
  known : ∀ c ∈ batch, ∀ view, c.stamp.view? = some view → m.issuer.views.knows view = true
  latest_known : ∀ c, m.journal.latest = some c → m.issuer.views.knows c.view = true
  ordered : (m.journal.head?.toList.map (·.stamp.rank) ++
    batch.filterMap (·.stamp.rank?)).Pairwise (· ≤ ·)

/-- No sub-version of the batch is counted beyond the last one, from where it would wrap around to
the least. -/
def Member.SubsFit (m : Member) (batch : List Commit) : Prop :=
  ∀ es, m.entriesOf batch = .ok es → ∀ e ∈ es, e.sub ≠ Int32.minValue

namespace Member

variable {m : Member} {batch : List Commit} {seed : Entry} {rs : List Record}

theorem entriesOf_eq {last : Entry} (hlast : m.journal.head? = some last) :
    m.entriesOf batch = (entriesAfter last batch).mapError .stamp := by
  cases batch with
  | nil => rfl
  | cons c rest =>
    simp only [entriesOf, Journal.head, hlast, mapError_ok, ok_bind, List.isEmpty_cons]; rfl

/-- A batch whose sub-versions fit passes the check exactly if it is acceptable. -/
theorem Faithful.exists_checkedEntries_iff (h : m.Faithful seed rs) (hfits : m.SubsFit batch) :
    (∃ es, m.checkedEntries batch = .ok es) ↔ m.Accepts batch := by
  obtain ⟨latest, hlatest, -⟩ := h.latest
  have hlast := h.head?_eq
  have hentries : ∀ es, m.entriesOf batch = .ok es ↔
      entriesAfter (lastEntry seed rs) batch = .ok es := by
    intro es
    rw [entriesOf_eq hlast, mapError_eq_ok]
  have hknown : ∀ es, entriesAfter (lastEntry seed rs) batch = .ok es →
      ((∀ e ∈ es, m.issuer.views.knows e.stamp.view = true) ↔
        ∀ c ∈ batch, ∀ view, c.stamp.view? = some view → m.issuer.views.knows view = true) := by
    intro es hes
    have hstamps := stamps_entriesAfter hes
    have hall : (∀ v ∈ batch.map (·.stamp), ∀ view, v.view? = some view →
        m.issuer.views.knows view = true) ↔
          ∀ v ∈ es.map (Stamp.commit ·.stamp), ∀ view, v.view? = some view →
        m.issuer.views.knows view = true := by
      rw [hstamps]
    simpa [Stamp.view?, Stamp.rank?, CommitStamp.rank] using hall.symm
  have hordered : ∀ es, m.entriesOf batch = .ok es →
      (Journal.checkOrder (lastEntry seed rs) es = .ok () ↔
        (m.journal.head?.toList.map (·.stamp.rank) ++
          batch.filterMap (·.stamp.rank?)).Pairwise (· ≤ ·)) := by
    intro es hes
    rw [checkOrder_entriesAfter ((hentries es).1 hes) (hfits es hes),
      ranks_entriesAfter ((hentries es).1 hes), hlast]
    rfl
  constructor
  · rintro ⟨es, hes⟩
    obtain ⟨hes, hcheck⟩ := checkedEntries_eq_ok.1 hes
    obtain ⟨horder, hview, hviews⟩ := (Journal.exists_check_iff hlast hlatest).1 hcheck
    refine ⟨(exists_entriesAfter_iff _).1 ⟨es, (hentries es).1 hes⟩,
      (hknown es ((hentries es).1 hes)).1 hviews, ?_, (hordered es hes).1 horder⟩
    intro c hc
    exact Option.some.inj (hlatest.symm.trans hc) ▸ hview
  · intro haccepts
    obtain ⟨es, hes⟩ := (exists_entriesAfter_iff (lastEntry seed rs)).2 haccepts.commits
    have hes' := (hentries es).2 hes
    have hcheck := (Journal.exists_check_iff hlast hlatest).2
      ⟨(hordered es hes').2 haccepts.ordered, haccepts.latest_known latest hlatest,
        (hknown es hes).2 haccepts.known⟩
    exact ⟨es, checkedEntries_eq_ok.2 ⟨hes', hcheck⟩⟩

theorem checkedEntries_ne_stale (stale : StaleWrite) :
    m.checkedEntries batch ≠ .error (.stale stale) := by
  intro h
  simp only [checkedEntries, bind_eq_error, mapError_eq_error] at h
  rcases h with h | ⟨es, -, ⟨_, -, h⟩ | ⟨_, -, h⟩⟩
  · rw [entriesOf] at h
    split at h
    · cases h
    · simp [bind_eq_error] at h
  · cases h
  · cases h

theorem exists_append_of_check {i : Issuer} {j : Journal} {es : List Entry}
    {merged : Option CommitStamp} (h : j.check i es = .ok merged) :
    ∃ journal, j.append i es = (.ok (), journal) := by
  rw [Journal.append, h]
  split
  · exact ⟨_, rfl⟩
  · exact ⟨_, rfl⟩

end Member

namespace Session

/-- Take any run of a member that keeps history, and then any batch whose sub-versions fit. The
member takes the batch exactly if it is acceptable. If it does, one entry for each commit is
appended to the journal, in order, and what the commits write to a key that the member owns comes on
top of the key's timeline. If it does not, nothing has changed, and the reason is never a write:
what the journal has agreed to can be stored, and appended. -/
theorem batch_accepted_iff {settings : Settings} (hkeeps : settings.keepsHistory = true)
    (address : Address) (view : View) (owns : Key → Bool) (events : List Event) {s : Session}
    (hs : s = (start settings address view owns).run events) (now : Nat) {batch : List Commit}
    (hfits : s.member.SubsFit batch) :
    ((s.member.applyBatch now batch).1 = .ok () ↔ s.member.Accepts batch) ∧
      (∀ m', s.member.applyBatch now batch = (.ok (), m') →
        ∃ rs : List Record, rs.map (·.commit) = batch ∧
        m'.journal.entries = s.member.journal.entries ++ rs.map (·.entry) ∧
        (∀ r ∈ rs, r.commit.stamp = .commit r.entry.stamp ∧
          r.entry.keys = .only (.ofList (r.commit.writes.map (·.change.key)))) ∧
        ∀ k, owns k = true →
          (m'.store.timeline k).revisions = revisionsOf k rs ++
            (s.member.store.timeline k).revisions) ∧
      (∀ fault m', s.member.applyBatch now batch = (.error fault, m') →
        m' = s.member ∧ ∀ stale, fault ≠ .stale stale) ∧
      ∀ es merged, s.member.entriesOf batch = .ok es →
      s.member.journal.check s.member.issuer es = .ok merged →
        (∃ journal, s.member.journal.append s.member.issuer es = (.ok (), journal)) ∧
          (s.member.applyBatch now batch).1 = .ok () := by
  obtain ⟨rs, hsound⟩ := Sound.run_start hkeeps address view owns events
  have howns : s.member.owns = owns := by rw [hs, (frame_run _ events).owns_eq]; rfl
  rw [← hs] at hsound
  have hfaithful := hsound.faithful
  have hiff : (s.member.applyBatch now batch).1 = .ok () ↔
      ∃ es, s.member.checkedEntries batch = .ok es := by
    cases hes : s.member.checkedEntries batch with
    | error fault => simp [Member.applyBatch_refused hfaithful.keeps now hes]
    | ok es =>
      obtain ⟨_, m', hm', -⟩ := hfaithful.applyBatch_accepted now hes
      simp [hm']
  refine ⟨hiff.trans (hfaithful.exists_checkedEntries_iff hfits), ?_, ?_, ?_⟩
  · intro m' hm'
    obtain ⟨es, hes⟩ := hiff.1 (congrArg Prod.fst hm')
    obtain ⟨rs', m'', hm'', hbatch, -, happ, hfaithful'⟩ := hfaithful.applyBatch_accepted now hes
    obtain rfl : m' = m'' := congrArg Prod.snd (hm'.symm.trans hm'')
    refine ⟨rs', hbatch, happ.entries_eq,
      fun r hr => hfaithful'.records.logged_of_mem (List.mem_append_right _ hr), ?_⟩
    intro k hk
    obtain ⟨added, hrevisions, -, hadded⟩ := happ.stored.revisions_eq k
    rw [hrevisions, hadded (howns ▸ hk)]
  · intro fault m' hm'
    cases hes : s.member.checkedEntries batch with
    | error fault' =>
      rw [Member.applyBatch_refused hfaithful.keeps now hes] at hm'
      obtain ⟨hfault, rfl⟩ := Prod.mk.inj hm'
      obtain rfl := Except.error.inj hfault
      exact ⟨rfl, fun stale hstale => Member.checkedEntries_ne_stale stale (hstale ▸ hes)⟩
    | ok es =>
      obtain ⟨_, _, hok, -⟩ := hfaithful.applyBatch_accepted now hes
      rw [hok] at hm'
      cases hm'
  · intro es merged hes hcheck
    exact ⟨Member.exists_append_of_check hcheck,
      hiff.2 ⟨es, Member.checkedEntries_eq_ok.2 ⟨hes, merged, hcheck⟩⟩⟩

/-- After a commit of a view, one of the same value in the next view is taken, as the second write
of that value. -/
theorem batch_accepted_iff_same_value :
    ∃ s : Session, s = (start {} "a" ⟨1, ["a"]⟩ fun _ => true).run
        [.apply 0 [.single ⟨.replicated, 1, 1⟩ "k" (some "x")], .learn ⟨2, ["a"]⟩] ∧
      s.member.SubsFit [.single ⟨.replicated, 2, 1⟩ "k" (some "y"),
        .single ⟨.replicated, 2, 3⟩ "k" none] ∧
      (s.member.applyBatch 0
        [.single ⟨.replicated, 2, 1⟩ "k" (some "y"),
          .single ⟨.replicated, 2, 3⟩ "k" none]).1 = .ok () ∧
      s.member.Accepts [.single ⟨.replicated, 2, 1⟩ "k" (some "y"),
        .single ⟨.replicated, 2, 3⟩ "k" none] := by
  obtain ⟨s, es, hs, hes, hsubs, happly⟩ : ∃ (s : Session) (es : List Entry),
      s = (start {} "a" ⟨1, ["a"]⟩ fun _ => true).run
        [.apply 0 [.single ⟨.replicated, 1, 1⟩ "k" (some "x")], .learn ⟨2, ["a"]⟩] ∧
      s.member.entriesOf [.single ⟨.replicated, 2, 1⟩ "k" (some "y"),
        .single ⟨.replicated, 2, 3⟩ "k" none] =
          .ok es ∧
      (es.all fun e => e.sub != Int32.minValue) = true ∧
      (s.member.applyBatch 0
        [.single ⟨.replicated, 2, 1⟩ "k" (some "y"),
          .single ⟨.replicated, 2, 3⟩ "k" none]).1 = .ok () :=
    ⟨_, _, rfl, rfl, rfl, rfl⟩
  have hfits : s.member.SubsFit
      [.single ⟨.replicated, 2, 1⟩ "k" (some "y"), .single ⟨.replicated, 2, 3⟩ "k" none] := by
    intro es' hes' e he
    obtain rfl := Except.ok.inj (hes.symm.trans hes')
    exact bne_iff_ne.1 (List.all_eq_true.1 hsubs e he)
  exact ⟨s, hs, hfits, happly,
    (batch_accepted_iff rfl "a" ⟨1, ["a"]⟩ (fun _ => true) _ hs 0 hfits).1.1 happly⟩

end Session
end Multiversion
