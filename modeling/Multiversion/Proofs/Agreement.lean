import Multiversion.Proofs.Acceptance
import Multiversion.Proofs.Collection
import Multiversion.Proofs.Merging
/- The stamp that a commit gets: votes, their merge, and what the voters make of it.

   A vote is one value beyond the greatest commit of the voter (`Member.Faithful.prepare_eq`). Votes
   of known views merge into the greatest of their places, as a stamp of the merging issuer
   (`Issuer.mergeMax_eq`), so it does not matter in which order or groups they are merged, nor how
   often (`Grouping.merge_eq`). What is agreed has the merged value and the current view of the
   member that agrees, which is not older than the view of any vote. Its value is therefore beyond
   all that any voter had applied, and a voter that knows its view takes it as the first commit of
   its value (`Member.Faithful.applyBatch_beyond`). `agreed_accepted` puts this together. -/
namespace Multiversion

namespace Rank

theorem max?_append (l l' : List Rank) : (l ++ l').max? = Option.merge max l.max? l'.max? := by
  induction l with
  | nil => cases h : l'.max? <;> simp [h]
  | cons a rest ih =>
    rw [List.cons_append, List.max?_cons, List.max?_cons, ih]
    cases rest.max? <;> cases l'.max? <;> simp [Std.Associative.assoc]

end Rank

namespace Issuer

variable {i : Issuer} {stamps : List Stamp} {merged : Stamp}

/-- A stamp that counts in a merge of votes, or is left out of it: a commit of a known view, or
absent. -/
def Counts (i : Issuer) (v : Stamp) : Prop :=
  v = .absent ∨ ∃ c, v = .commit c ∧ i.views.knows c.view = true

theorem fold_greatest (l : List Rank) :
    Extreme.fold Extreme.greatest.pick l = l.max? := by cases l <;> rfl

/-- Votes merge into the greatest of their places. -/
theorem mergeMax_eq (h : ∀ v ∈ stamps, i.Counts v) :
    i.mergeMax stamps = .ok (i.ofRank (stamps.filterMap Stamp.rank?).max?) := by
  have hcommits : Stamp.Only .commit stamps :=
    fun v hv => (h v hv).imp_right fun ⟨c, hc, _⟩ => ⟨c, hc⟩
  have hknown : ∀ v ∈ stamps, i.Knows v := by
    intro v hv view hview
    rcases h v hv with rfl | ⟨c, rfl, hc⟩
    · cases hview
    · cases hview
      exact hc
  rw [mergeMax, merge_commits hcommits, checkAll_eq_ok.2 (knows_iff_ranks.1 hknown), fold_greatest]
  rfl

theorem counts_of_mergeMax (hcommits : ∀ v ∈ stamps, ∃ c, v = .commit c)
    (h : i.mergeMax stamps = .ok merged) :
    ∀ v ∈ stamps, i.Counts v := by
  intro v hv
  obtain ⟨c, rfl⟩ := hcommits v hv
  exact .inr ⟨c, rfl, exists_merge_ok_iff.1 ⟨merged, h⟩ _ hv c.view rfl⟩

theorem agree_ok {j : Issuer} {top : Option Rank} {owners : List Address} {c : CommitStamp}
    (h : i.agree (j.ofRank top) owners = .ok c) :
    ∃ r, top = some r ∧ c.value = r.value ∧ r ≤ c.rank := by
  rw [agree, rank?_ofRank] at h
  cases top with
  | none => cases h
  | some r =>
    obtain ⟨_, hview, h⟩ := bind_eq_ok.1 h
    have hle : r.view ≤ i.currentView := ViewTable.le_currentId (check_eq_ok.1 hview)
    have hc : c = i.stamp i.currentView r.value := by
      split at h
      · obtain ⟨_, -, h⟩ := bind_eq_ok.1 h
        exact (Except.ok.inj h).symm
      · exact (Except.ok.inj h).symm
    rw [hc]
    exact ⟨r, rfl, rfl, Rank.le_iff.2 (.inr ⟨rfl, hle⟩)⟩

end Issuer

/-- A way to merge votes: one by one, or in groups that are merged first. -/
inductive Grouping
  | nil
  | vote (v : Stamp) (rest : Grouping)
  | group (inner rest : Grouping)

namespace Grouping

/-- The votes, in order. -/
def stamps : Grouping → List Stamp
  | nil => []
  | vote v rest => v :: rest.stamps
  | group inner rest => inner.stamps ++ rest.stamps

/-- What the outermost merge is given: the votes in it, and the merges of its groups. -/
def inputs (i : Issuer) : Grouping → Except StampFault (List Stamp)
  | nil => .ok []
  | vote v rest => do return v :: (← rest.inputs i)
  | group inner rest => do
    let merged ← i.mergeMax (← inner.inputs i)
    return merged :: (← rest.inputs i)

def merge (i : Issuer) (g : Grouping) : Except StampFault Stamp := do i.mergeMax (← g.inputs i)

variable {i : Issuer}

theorem inputs_ok (g : Grouping) (h : ∀ v ∈ g.stamps, i.Counts v) :
    ∃ l, g.inputs i = .ok l ∧ (∀ v ∈ l, i.Counts v) ∧
      (l.filterMap Stamp.rank?).max? = (g.stamps.filterMap Stamp.rank?).max? := by
  induction g with
  | nil => exact ⟨[], rfl, by simp, rfl⟩
  | vote v rest ih =>
    obtain ⟨hv, hrest⟩ := List.forall_mem_cons.1 h
    obtain ⟨l, hl, hcounts, hmax⟩ := ih hrest
    refine ⟨v :: l, by rw [inputs, hl]; rfl, List.forall_mem_cons.2 ⟨hv, hcounts⟩, ?_⟩
    rw [stamps, ← List.singleton_append, List.filterMap_append, Rank.max?_append, hmax,
      ← Rank.max?_append, ← List.filterMap_append, List.singleton_append]
  | group inner rest ihinner ihrest =>
    rw [stamps, List.forall_mem_append] at h
    obtain ⟨l, hl, hcounts, hmax⟩ := ihinner h.1
    obtain ⟨l', hl', hcounts', hmax'⟩ := ihrest h.2
    have hmerged := Issuer.mergeMax_eq hcounts
    rw [hmax] at hmerged
    refine ⟨_, by rw [inputs, hl, ok_bind, hmerged, ok_bind, hl']; rfl,
      List.forall_mem_cons.2 ⟨?_, hcounts'⟩, ?_⟩
    · cases hinner : (inner.stamps.filterMap Stamp.rank?).max? with
      | none => exact .inl rfl
      | some r =>
        obtain ⟨v, hv, hrank⟩ := List.mem_filterMap.1 (List.max?_mem hinner)
        rcases h.1 v hv with rfl | ⟨c, rfl, hknown⟩
        · cases hrank
        · cases hrank
          exact .inr ⟨_, rfl, hknown⟩
    · have hgroup (r : Option Rank) :
          ([i.ofRank r].filterMap Stamp.rank?).max? = r := by cases r <;> rfl
      rw [stamps, ← List.singleton_append, List.filterMap_append, List.filterMap_append,
        Rank.max?_append, Rank.max?_append, hgroup, hmax']

/-- All ways to merge the same votes come to the same. -/
theorem merge_eq {g : Grouping} {votes : List Stamp} (h : ∀ v ∈ votes, i.Counts v)
    (hsame : ∀ v, v ∈ g.stamps ↔ v ∈ votes) : g.merge i = i.mergeMax votes := by
  obtain ⟨l, hl, hcounts, hmax⟩ := g.inputs_ok fun v hv => h v ((hsame v).1 hv)
  have hranks : (g.stamps.filterMap Stamp.rank?).max? = (votes.filterMap Stamp.rank?).max? := by
    rw [← Issuer.fold_greatest, ← Issuer.fold_greatest]
    exact Extreme.fold_pick_congr fun r => by simp only [List.mem_filterMap, hsame]
  rw [merge, hl, ok_bind, Issuer.mergeMax_eq hcounts, Issuer.mergeMax_eq h, hmax, hranks]

end Grouping

namespace Member

variable {m : Member} {seed : Entry} {rs : List Record} {c : CommitStamp}

/-- A vote is one value beyond the greatest commit, in the current view. There is none beyond the
last value, and none if the view of the greatest commit is forgotten. -/
theorem Faithful.prepare_eq (h : m.Faithful seed rs) (hc : m.journal.latest = some c) :
    m.prepare =
      if m.issuer.views.knows c.view then
        if c.value = Int64.maxValue then .error (.stamp (.overflow c.value))
        else .ok (.commit (m.issuer.stamp m.issuer.currentView (c.value + 1)))
      else .error (.stamp (.unknownView c.view)) := by
  have henabled : m.checkEnabled = .ok () := by simp [checkEnabled, h.keeps]
  simp only [prepare, henabled, Journal.latestStamp, Journal.head, h.head?_eq, Journal.mark, hc,
    ok_bind, pure_eq_ok, mapError_ok, Issuer.increment, Issuer.rankOf, Stamp.rank?,
    CommitStamp.rank, ViewTable.check]
  by_cases hknown : m.issuer.views.knows c.view = true
  · rw [if_pos hknown, if_pos hknown]
    by_cases hlast : c.value = Int64.maxValue
    · simp [Issuer.successor, hlast]
    · simp [Issuer.successor, hlast]
  · rw [if_neg hknown, if_neg hknown]
    rfl

theorem Faithful.prepare_ok (h : m.Faithful seed rs) {v : Stamp} (hv : m.prepare = .ok v) :
    ∃ c, m.journal.latest = some c ∧ c.rank = (lastEntry seed rs).stamp.rank ∧
      m.issuer.views.knows c.view = true ∧ c.value < c.value + 1 ∧
      v = .commit (m.issuer.stamp m.issuer.currentView (c.value + 1)) := by
  obtain ⟨c, hc, hrank⟩ := h.latest
  rw [h.prepare_eq hc] at hv
  split at hv
  · next hknown =>
    split at hv
    · cases hv
    · next hnot =>
      have hlt : c.value < c.value + 1 := by grind
      exact ⟨c, hc, hrank, hknown, hlt, (Except.ok.inj hv).symm⟩
  · cases hv

/-- The value of a commit that is beyond all others is new: the commit is taken, as the first of its
value. -/
theorem Faithful.applyBatch_beyond (h : m.Faithful seed rs)
    (hbeyond : (lastEntry seed rs).stamp.value < c.value)
    (hlatest : ∀ l, m.journal.latest = some l → m.issuer.views.knows l.view = true)
    (hknown : m.issuer.views.knows c.view = true) (now : Nat) (writes : List Write)
    (prepared : OrderedMap Key Stamp) :
    ∃ m', m.applyBatch now [⟨.commit c, writes, prepared⟩] = (.ok (), m') ∧
      m'.journal.entries = m.journal.entries ++
        [⟨c, 0, .only (.ofList (writes.map (·.change.key)))⟩] := by
  obtain ⟨l, hl, -⟩ := h.latest
  have hlast := h.head?_eq
  have hsub : (lastEntry seed rs).nextSub (some c.value) = 0 := by
    rw [Entry.nextSub, if_neg]
    intro heq
    exact Std.lt_irrefl (Option.some.inj heq ▸ hbeyond)
  have hentries : m.entriesOf [⟨.commit c, writes, prepared⟩] =
      .ok [⟨c, 0, .only (.ofList (writes.map (·.change.key)))⟩] := by
    rw [entriesOf_eq hlast]
    simp only [entriesAfter, Entry.ofStamp, Stamp.value?, Stamp.rank?, CommitStamp.rank,
      Option.map_some, hsub]
    rfl
  have horder : Journal.checkOrder (lastEntry seed rs)
      [⟨c, 0, .only (.ofList (writes.map (·.change.key)))⟩] = .ok () := by
    have hfollows : (⟨c, 0, .only (.ofList (writes.map (·.change.key)))⟩ : Entry).follows
        (lastEntry seed rs) = true := by
      simp only [Entry.follows, Bool.and_eq_true, Bool.or_eq_true, decide_eq_true_eq]
      exact ⟨.inl (Rank.lt_iff.2 (.inl hbeyond)), Position.lt_iff.2 (.inl hbeyond)⟩
    rw [Journal.checkOrder, if_pos hfollows]
    rfl
  have hcheck := (Journal.exists_check_iff hlast hl).2 ⟨horder, hlatest l hl, by simpa using hknown⟩
  obtain ⟨rs', m', hm', -, hlogged, happ, -⟩ :=
    h.applyBatch_accepted now (checkedEntries_eq_ok.2 ⟨hentries, hcheck⟩)
  exact ⟨m', hm', by rw [happ.entries_eq, hlogged]⟩

end Member

/-- A member that keeps history may come to this after any run. -/
def Session.Reached (s : Session) : Prop :=
  ∃ settings address view owns events, Settings.keepsHistory settings = true ∧
    s = (Session.start settings address view owns).run events

/-- A vote, and the session in which the voter gave it. -/
structure Vote where
  voter : Session
  stamp : Stamp

/-- The voter has come to its state by some run, and this is its vote. -/
structure Vote.Cast (v : Vote) : Prop where
  reached : v.voter.Reached
  prepared : v.voter.member.prepare = .ok v.stamp

namespace Session

theorem Reached.exists_sound {s : Session} (h : s.Reached) : ∃ seed rs, s.Sound seed rs := by
  obtain ⟨settings, address, view, owns, events, hkeeps, rfl⟩ := h
  obtain ⟨rs, hsound⟩ := Sound.run_start hkeeps address view owns events
  exact ⟨_, rs, hsound⟩

theorem member_run_learn (s : Session) (views : List View) : ∃ issuer,
    (s.run (views.map .learn)).member = { s.member with issuer } ∧
      ∀ id, s.member.issuer.views.knows id = true → issuer.views.knows id = true := by
  induction views generalizing s with
  | nil => exact ⟨s.member.issuer, rfl, fun _ h => h⟩
  | cons view rest ih =>
    obtain ⟨issuer, hmember, hknows⟩ := ih (s.step (.learn view))
    exact ⟨issuer, hmember, fun id h => hknows id (ViewTable.knows_add view h)⟩

end Session

theorem Vote.Cast.exists_commit {v : Vote} (h : v.Cast) : ∃ c, v.stamp = .commit c ∧
    (∀ e ∈ v.voter.member.journal.entries, e.stamp.value < c.value) ∧
      ∀ applied ∈ v.voter.applied, ∃ d, applied.stamp = .commit d ∧ d.value < c.value := by
  obtain ⟨seed, rs, hsound⟩ := h.reached.exists_sound
  have hfaithful := hsound.faithful
  obtain ⟨latest, -, hrank, -, hlt, hstamp⟩ := hfaithful.prepare_ok h.prepared
  have hvalue : ∀ e ∈ seed :: rs.map (·.entry), e.stamp.value < latest.value + 1 := by
    intro e he
    have hle := Rank.value_le (hrank ▸ hfaithful.records.rank_le_lastEntry he)
    exact Std.lt_of_le_of_lt hle hlt
  refine ⟨_, hstamp, fun e he => hvalue e (hfaithful.newest.subset he), ?_⟩
  intro applied happlied
  rw [hsound.applied_eq] at happlied
  obtain ⟨r, hr, rfl⟩ := List.mem_map.1 happlied
  exact ⟨r.entry.stamp, (hfaithful.records.logged_of_mem hr).1,
    hvalue _ (List.mem_cons_of_mem _ (List.mem_map_of_mem hr))⟩

/-- A voter that has only learned views since takes any commit that is not of a lesser value than
its vote. -/
theorem Vote.Cast.exists_applyBatch {v : Vote} (h : v.Cast) {c d : CommitStamp}
    (hd : v.stamp = .commit d) (hle : d.value ≤ c.value) (views : List View) {s : Session}
    (hs : s = v.voter.run (views.map .learn)) (hknown : s.member.issuer.views.knows c.view = true)
    (now : Nat) (writes : List Write) (prepared : OrderedMap Key Stamp) :
    ∃ m', s.member.applyBatch now [⟨.commit c, writes, prepared⟩] = (.ok (), m') ∧
      m'.journal.entries = s.member.journal.entries ++
        [⟨c, 0, .only (.ofList (writes.map (·.change.key)))⟩] := by
  obtain ⟨seed, rs, hsound⟩ := h.reached.exists_sound
  have hfaithful := hsound.faithful
  obtain ⟨latest, hlatest, hrank, hview, hlt, hstamp⟩ := hfaithful.prepare_ok h.prepared
  obtain rfl : d = _ := Stamp.commit.inj (hd.symm.trans hstamp)
  obtain ⟨issuer, hmember, hknows⟩ := v.voter.member_run_learn views
  rw [← hs] at hmember
  rw [hmember] at hknown ⊢
  have hbeyond : (lastEntry seed rs).stamp.value < c.value := by
    have hvalue : latest.value = (lastEntry seed rs).stamp.value := congrArg Rank.value hrank
    exact hvalue ▸ Std.lt_of_lt_of_le hlt hle
  have hlearned := hfaithful.of_eq issuer v.voter.member.registry
  refine hlearned.applyBatch_beyond hbeyond ?_ hknown now writes prepared
  intro l hl
  obtain rfl : l = latest := Option.some.inj (hl.symm.trans hlatest)
  exact hknows _ hview

/-- Take any list of members, each after any run, and let each of them vote. Merge the votes on any
issuer, and agree on the merge on any member. If all of this succeeds, a commit is agreed that is at
or after every vote, and the value of which is beyond all that any voter had applied by then. A
voter that has since done nothing but learn views, and knows the view of the commit, applies any
transaction with it, and logs it as the first commit of its value. The votes merge into the same in
any order, with any repetition and in any groups. A member with a commit of the last value does not
vote: it fails with an overflow, or, if it has forgotten the view of that commit, because that view
is unknown. -/
theorem agreed_accepted {votes : List Vote} (hcast : ∀ v ∈ votes, v.Cast) {i : Issuer}
    {merged : Stamp} (hmerged : i.mergeMax (votes.map (·.stamp)) = .ok merged) {m : Member}
    {owners : List Address} {agreed : Stamp} (hagreed : m.commit merged owners = .ok agreed) :
    (∃ c, agreed = .commit c ∧ ∀ v ∈ votes, agreed.atOrAfter v.stamp = .ok true ∧
      (∀ e ∈ v.voter.member.journal.entries, e.stamp.value < c.value) ∧
      (∀ applied ∈ v.voter.applied, ∃ d, applied.stamp = .commit d ∧ d.value < c.value) ∧
      ∀ (views : List View) (s : Session), s = v.voter.run (views.map .learn) →
        s.member.issuer.views.knows c.view = true →
          ∀ (now : Nat) (writes : List Write) (prepared : OrderedMap Key Stamp),
            ∃ m', s.member.applyBatch now [⟨agreed, writes, prepared⟩] = (.ok (), m') ∧
              m'.journal.entries =
                s.member.journal.entries ++ [⟨c, 0, .only (.ofList (writes.map (·.change.key)))⟩]) ∧
      (∀ g : Grouping, (∀ v, v ∈ g.stamps ↔ v ∈ votes.map (·.stamp)) → g.merge i = .ok merged) ∧
      ∀ (s : Session) (c : CommitStamp), s.Reached → s.member.journal.latest = some c →
      c.value = Int64.maxValue →
        s.member.prepare = .error (.stamp
          (if s.member.issuer.views.knows c.view then .overflow Int64.maxValue
            else .unknownView c.view)) := by
  have hcommits : ∀ v ∈ votes.map (·.stamp), ∃ c, v = .commit c := by
    intro v hv
    obtain ⟨vote, hvote, rfl⟩ := List.mem_map.1 hv
    obtain ⟨c, hc, -⟩ := (hcast vote hvote).exists_commit
    exact ⟨c, hc⟩
  have hcounts := Issuer.counts_of_mergeMax hcommits hmerged
  refine ⟨?_, ?_, ?_⟩
  · have hmax := Issuer.mergeMax_eq hcounts
    rw [hmerged] at hmax
    obtain rfl := Except.ok.inj hmax
    simp only [Member.commit, bind_eq_ok, mapError_eq_ok, pure_eq_ok, Except.ok.injEq] at hagreed
    obtain ⟨_, -, c, hagree, rfl⟩ := hagreed
    obtain ⟨r, htop, hvalue, hle⟩ := Issuer.agree_ok hagree
    refine ⟨c, rfl, ?_⟩
    intro v hv
    obtain ⟨d, hd, hentries, happlied⟩ := (hcast v hv).exists_commit
    -- The place of the vote is not beyond the merged one, nor that beyond the commit.
    have hplace : d.rank ∈ (votes.map (·.stamp)).filterMap Stamp.rank? :=
      List.mem_filterMap.2 ⟨v.stamp, List.mem_map_of_mem hv, by rw [hd]; rfl⟩
    have hbelow : d.rank ≤ r := (List.max?_eq_some_iff.1 htop).2 d.rank hplace
    have hmerge : d.rank.value ≤ r.value := Rank.value_le hbelow
    have hdvalue : d.value ≤ c.value := hvalue ▸ hmerge
    refine ⟨?_, ?_, ?_, ?_⟩
    · rw [hd, Stamp.atOrAfter_commit, decide_eq_true (Std.le_trans hbelow hle)]
    · exact fun e he => Std.lt_of_lt_of_le (hentries e he) hdvalue
    · intro applied hmem
      obtain ⟨d', hd', hlt⟩ := happlied applied hmem
      exact ⟨d', hd', Std.lt_of_lt_of_le hlt hdvalue⟩
    · intro views s hs hknown now writes prepared
      exact (hcast v hv).exists_applyBatch hd hdvalue views hs hknown now writes prepared
  · intro g hsame
    rw [Grouping.merge_eq hcounts hsame, hmerged]
  · intro s c hreached hc hlast
    obtain ⟨seed, rs, hsound⟩ := hreached.exists_sound
    rw [hsound.faithful.prepare_eq hc, if_pos hlast, hlast]
    split <;> rfl

/-- Two voters with different histories and views. The merge is the vote of the second one, who
agrees on it; the first one applies it as soon as it has learned the view. -/
theorem agreed_accepted_other_views :
    ∃ (a b : Session) (m' : Member), a = (Session.start {} "a" ⟨1, ["a", "b"]⟩ fun _ => true).run
        [.apply 0 [.single ⟨.replicated, 1, 1⟩ "k" (some "x")]] ∧
      b = (Session.start {} "b" ⟨1, ["a", "b"]⟩ fun _ => true).run
        [.learn ⟨2, ["a", "b"]⟩, .apply 0 [.single ⟨.replicated, 2, 3⟩ "k" (some "y")]] ∧
      a.member.prepare = .ok (.commit ⟨.replicated, 1, 2⟩) ∧
      b.member.prepare = .ok (.commit ⟨.replicated, 2, 4⟩) ∧
      b.member.commit (.commit ⟨.replicated, 2, 4⟩) [] = .ok (.commit ⟨.replicated, 2, 4⟩) ∧
      (a.run [.learn ⟨2, ["a", "b"]⟩]).member.applyBatch 0 [.single ⟨.replicated, 2, 4⟩ "k" none] =
        (.ok (), m') ∧
      m'.journal.entries.getLast? = some ⟨⟨.replicated, 2, 4⟩, 0, .only (.ofList ["k"])⟩ := by
  obtain ⟨a, b, ha, hb, hvoteA, hvoteB, hmerged, hagreed⟩ : ∃ a b : Session,
      a = (Session.start {} "a" ⟨1, ["a", "b"]⟩ fun _ => true).run
        [.apply 0 [.single ⟨.replicated, 1, 1⟩ "k" (some "x")]] ∧
      b = (Session.start {} "b" ⟨1, ["a", "b"]⟩ fun _ => true).run
        [.learn ⟨2, ["a", "b"]⟩, .apply 0 [.single ⟨.replicated, 2, 3⟩ "k" (some "y")]] ∧
      a.member.prepare = .ok (.commit ⟨.replicated, 1, 2⟩) ∧
      b.member.prepare = .ok (.commit ⟨.replicated, 2, 4⟩) ∧
      b.member.issuer.mergeMax [.commit ⟨.replicated, 1, 2⟩, .commit ⟨.replicated, 2, 4⟩] =
        .ok (.commit ⟨.replicated, 2, 4⟩) ∧
      b.member.commit (.commit ⟨.replicated, 2, 4⟩) [] = .ok (.commit ⟨.replicated, 2, 4⟩) :=
    ⟨_, _, rfl, rfl, rfl, rfl, rfl, rfl⟩
  have hcast : ∀ v ∈ [(⟨a, .commit ⟨.replicated, 1, 2⟩⟩ : Vote), ⟨b, .commit ⟨.replicated, 2, 4⟩⟩],
      v.Cast := by
    intro v hv
    simp only [List.mem_cons, List.not_mem_nil, or_false] at hv
    rcases hv with rfl | rfl
    · exact ⟨⟨_, _, _, _, _, rfl, ha⟩, hvoteA⟩
    · exact ⟨⟨_, _, _, _, _, rfl, hb⟩, hvoteB⟩
  obtain ⟨⟨c, hc, haccepted⟩, -⟩ := agreed_accepted hcast hmerged hagreed
  obtain rfl := Stamp.commit.inj hc
  obtain ⟨-, -, -, happly⟩ := haccepted _ List.mem_cons_self
  have hknown : (a.run [.learn ⟨2, ["a", "b"]⟩]).member.issuer.views.knows 2 =
      true := by rw [ha]; rfl
  obtain ⟨m', hm', hentries⟩ :=
    happly [⟨2, ["a", "b"]⟩] _ rfl hknown 0 [.ofValue "k" none none] .empty
  exact ⟨a, b, m', ha, hb, hvoteA, hvoteB, hagreed, hm',
    by rw [hentries, List.getLast?_concat]; rfl⟩

/-- A member that has forgotten the view of its last commit can not tell that its value is the last
one. -/
theorem agreed_accepted_forgotten_view :
    ∃ s : Session, s = (Session.start {} "a" ⟨1, ["a"]⟩ fun _ => true).run
        [.apply 0 [.single ⟨.replicated, 1, Int64.maxValue⟩ "k" (some "x")],
          .learn ⟨2, ["a"]⟩, .forget 2] ∧
      s.member.journal.latest = some ⟨.replicated, 1, Int64.maxValue⟩ ∧
      s.member.prepare = .error (.stamp (.unknownView 1)) ∧
      s.member.prepare ≠ .error (.stamp (.overflow Int64.maxValue)) :=
  ⟨_, rfl, rfl, rfl, fun h => by cases h⟩

end Multiversion
