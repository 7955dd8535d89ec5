import Multiversion.Proofs.Collection
import Multiversion.Proofs.JournalRuns
import Multiversion.Proofs.Splitting
/- The bounds that readers take from a journal, at any time of a run.

   A bound is taken by one look at the journal from its newest end. Of the entries that are there it
   admits exactly the ones at or before the stamp it is taken at, so that taken again it stops at
   the same entry, excludes what is excluded already and keeps its pin
   (`Journal.snapshotAt_snapshotAt`): `Chronicle.read_bound_exact`.

   What is logged later was not looked at. A bound admits it if the stamp's own bound does, unless
   the look has pinned it (`Journal.admits_later_iff`); and only an entry with the stamp's own
   commit value, at or before the stamp, pins it (`Journal.pins_iff_floor?`). Where the journal has
   that value only beyond the stamp, the next commit of the value falls within the bound.
   `Chronicle.read_bound_stable_iff` says when a bound stays what it is, and
   `Chronicle.read_bound_unstable` is a run in which it does not. -/
namespace Multiversion

namespace Journal

variable {i : Issuer} {j : Journal} {bound bound' : Stamp} {s own r : Snapshot} {e newest : Entry}
  {l : List Entry}

theorem passed_floor?_congr (h : ∀ e ∈ j.entries, e.atOrBefore bound = e.atOrBefore bound') :
    j.passed bound = j.passed bound' ∧ j.floor? bound = j.floor? bound' := by
  have hreverse : ∀ e ∈ j.entries.reverse, e.atOrBefore bound = e.atOrBefore bound' :=
    fun e he => h e (List.mem_reverse.1 he)
  rw [passed, passed, floor?, floor?]
  generalize j.entries.reverse = l at hreverse
  induction l with
  | nil => exact ⟨rfl, rfl⟩
  | cons e rest ih =>
    obtain ⟨he, hrest⟩ := List.forall_mem_cons.1 hreverse
    obtain ⟨hpassed, hfloor⟩ := ih hrest
    rw [List.takeWhile_cons, List.takeWhile_cons, List.find?_cons, List.find?_cons, he,
      hpassed, hfloor]
    exact ⟨rfl, rfl⟩

theorem value_pinTo (s : Snapshot) (f : Option Entry) : (pinTo s f).value = s.value := by
  cases f with
  | none => rfl
  | some e => rw [pinTo]; split <;> rfl

theorem position_pinTo_some (hpin : s.pin = none) (hvalue : e.stamp.value = s.value) :
    (pinTo s (some e)).position = e.position := by
  rw [pinTo, if_pos ⟨hpin, hvalue⟩, Snapshot.position, ← hvalue]
  rfl

theorem pinTo_pinTo (s : Snapshot) (f : Option Entry) : pinTo (pinTo s f) f = pinTo s f := by
  cases f with
  | none => rfl
  | some e =>
    by_cases h : s.pin = none ∧ e.stamp.value = s.value
    · simp [pinTo, h]
    · simp [pinTo, h]

theorem excludeWrites_eq_self (h : ∀ e ∈ l, e.stamp.value ≤ s.value → e.position ∈ s.excluded) :
    excludeWrites s l = s := by
  have hexcluded : (excludeWrites s l).excluded = s.excluded := by
    apply OrderedSet.ext
    intro q
    rw [mem_excludeWrites, or_iff_left_iff_imp]
    rintro ⟨e, he, hvalue, rfl⟩
    exact h e he hvalue
  rw [excludeWrites_eq, hexcluded]

/-- A bound that is taken again is itself. -/
theorem snapshotAt_snapshotAt (hj : j.entries.Pairwise Entry.Before)
    (h : j.snapshotAt i bound = .ok r) :
    j.snapshotAt i (.snapshot r) = .ok r := by
  have hown : i.toSnapshot (.snapshot r) = .ok r := by
    rw [Issuer.toSnapshot, Issuer.check_eq_ok.2 (knows_of_snapshotAt h)]
    rfl
  have hsame : ∀ e ∈ j.entries, e.atOrBefore (.snapshot r) = e.atOrBefore bound := fun e he =>
    Entry.atOrBefore_snapshot.trans (Bool.eq_iff_iff.2 (admits_snapshotAt_iff hj h he))
  obtain ⟨hpassed, hfloor⟩ := passed_floor?_congr hsame
  obtain ⟨own, -, rfl⟩ := snapshotAt_ok h
  rw [snapshotAt_eq hown, hpassed, hfloor, excludeWrites_eq_self, pinTo_pinTo]
  intro e he hvalue
  rw [value_pinTo, excludeWrites_eq] at hvalue
  exact mem_excluded_bound.2 (.inr ⟨e, he, hvalue, rfl⟩)

theorem exists_snapshotAt_of_knows
    (hknown : ∀ view, bound.view? = some view → i.views.knows view = true) :
    ∃ r, j.snapshotAt i bound = .ok r := by
  cases bound with
  | absent => exact ⟨_, snapshotAt_eq rfl⟩
  | snapshot s => exact exists_snapshotAt_ok (hknown s.view rfl)
  | commit c => exact exists_snapshotAt_commit_ok (hknown c.view rfl)
  | write w =>
    have hown : i.toSnapshot (.write w) = .ok { view := w.view, value := w.value } := by
      simp [Issuer.toSnapshot, Issuer.rankOf, Stamp.rank?, Issuer.check_eq_ok.2 (hknown w.view rfl)]
    exact ⟨_, snapshotAt_eq hown⟩

/-- The journal pins the bound of a stamp, given the stamp's own bound: that has no pin, and an
entry of its commit value is at or before the stamp. -/
def Pins (j : Journal) (bound : Stamp) (own : Snapshot) : Prop :=
  own.pin = none ∧ ∃ e ∈ j.entries, e.stamp.value = own.value ∧ e.atOrBefore bound = true

/-- The entry that the look stops at is then of that value too. -/
theorem pins_iff_floor? (hj : j.entries.Pairwise Entry.Before)
    (hown : i.toSnapshot bound = .ok own) :
    j.Pins bound own ↔ own.pin = none ∧ ∃ f, j.floor? bound = some f ∧
      f.stamp.value = own.value := by
  refine and_congr_right fun hpin => ⟨?_, ?_⟩
  · rintro ⟨e, he, hvalue, hreached⟩
    have hsome : (j.entries.reverse.find? (·.atOrBefore bound)).isSome = true :=
      List.find?_isSome.2 ⟨e, List.mem_reverse.2 he, hreached⟩
    obtain ⟨f, hf⟩ := Option.isSome_iff_exists.1 hsome
    refine ⟨f, hf, ?_⟩
    have hle : f.stamp.value ≤ own.value := by
      have hadm := Issuer.admits_toSnapshot hown (atOrBefore_of_floor? hf).2
      obtain ⟨hpos, -⟩ := Snapshot.admitsAt_iff.1 hadm
      exact Position.value_le hpos
    rcases le_floor_of_atOrBefore hj hf he hreached with rfl | hbefore
    · exact hvalue
    · have hge := Rank.value_le hbefore.rank_le
      exact Std.le_antisymm hle (hvalue ▸ hge)
  · rintro ⟨f, hf, hvalue⟩
    obtain ⟨hmem, hreached⟩ := atOrBefore_of_floor? hf
    exact ⟨f, hmem, hvalue, hreached⟩

/-- Of what comes after all entries a bound admits what the stamp's own bound does, and nothing if
it is pinned. -/
theorem admits_later_iff (hj : j.entries.Pairwise Entry.Before)
    (hown : i.toSnapshot bound = .ok own) (h : j.snapshotAt i bound = .ok r)
    (hlater : ∀ f ∈ j.entries, f.position < e.position) :
    r.admits e.write = true ↔ own.admits e.write = true ∧ ¬ j.Pins bound own := by
  obtain ⟨_, hown', rfl⟩ := snapshotAt_ok h
  obtain rfl := Except.ok.inj (hown.symm.trans hown')
  have hnotPassed : ¬ ∃ f ∈ j.passed bound, f.stamp.value ≤ own.value ∧
      e.position = f.position := by
    rintro ⟨f, hf, -, hpos⟩
    exact absurd (hpos ▸ hlater f (not_atOrBefore_of_mem_passed hf).1) Std.lt_irrefl
  have hadmits : ∀ t : Snapshot, t.admits e.write = true ↔ e.position ≤ t.position ∧
      e.position ∉ t.excluded :=
    fun t => Snapshot.admitsAt_iff
  rw [hadmits, hadmits, mem_excluded_bound, or_iff_left hnotPassed, pins_iff_floor? hj hown]
  by_cases hpins : own.pin = none ∧ ∃ f, j.floor? bound = some f ∧ f.stamp.value = own.value
  · obtain ⟨hpin, f, hf, hvalue⟩ := hpins
    have hpos : (pinTo (excludeWrites own (j.passed bound)) (j.floor? bound)).position =
        f.position := by
      rw [hf, position_pinTo_some] <;> rw [excludeWrites_eq]
      · exact hpin
      · exact hvalue
    have hlt := hlater f (atOrBefore_of_floor? hf).1
    rw [hpos]
    exact iff_of_false (fun h => Std.not_le_of_gt hlt h.1) fun h => h.2 ⟨hpin, f, hf, hvalue⟩
  · rw [and_iff_left hpins]
    rcases @position_bound own (j.passed bound) (j.floor? bound) with hpos |
        ⟨f, hf, hpin, hvalue, -⟩
    · rw [hpos]
    · exact absurd ⟨hpin, f, hf, hvalue⟩ hpins

/-- Nothing that is logged later falls within the bound of a stamp, given the stamp's own bound:
either the newest entry is beyond its commit value, or the journal pins it, or it admits no write of
its value after the newest entry. -/
def Settles (j : Journal) (bound : Stamp) (own : Snapshot) : Prop :=
  ∃ newest, j.head? = some newest ∧
    (own.value < newest.stamp.value ∨ j.Pins bound own ∨
      ∀ sub, newest.sub < sub → own.admitsAt ⟨own.value, sub⟩ = false)

theorem Continues.chronological {history : List Entry} (h : j.Continues history) :
    j.entries.Pairwise Entry.Before := by
  rw [h.entries_eq]
  exact h.ordered.sublist (List.drop_sublist _ _)

/-- The bound that a journal settles admits nothing that comes after all its entries; the greatest
commit is to have reached the stamp. -/
theorem Settles.not_admits (hsettles : j.Settles bound own) (hj : j.entries.Pairwise Entry.Before)
    (hown : i.toSnapshot bound = .ok own) (h : j.snapshotAt i bound = .ok r)
    (hnewest : j.head? = some newest) (hreached : own.value ≤ newest.stamp.value)
    (hlater : ∀ f ∈ j.entries, f.position < e.position) :
    r.admits e.write = false := by
  rw [Bool.eq_false_iff]
  intro hadm
  obtain ⟨hadm, hpins⟩ := (admits_later_iff hj hown h hlater).1 hadm
  have hlt := hlater newest (List.mem_of_getLast? hnewest)
  have hle : e.stamp.value ≤ own.value := by
    obtain ⟨hpos, -⟩ := Snapshot.admitsAt_iff.1 hadm
    exact Position.value_le hpos
  have hge : newest.stamp.value ≤ e.stamp.value := Position.value_le (Std.le_of_lt hlt)
  obtain ⟨_, hnewest', hbeyond | hpinned | hnone⟩ := hsettles
  · obtain rfl := Option.some.inj (hnewest.symm.trans hnewest')
    exact Std.not_le_of_gt hbeyond (Std.le_trans hge hle)
  · exact hpins hpinned
  · obtain rfl := Option.some.inj (hnewest.symm.trans hnewest')
    have hvalue : e.stamp.value = own.value := Std.le_antisymm hle (Std.le_trans hreached hge)
    rcases Position.lt_iff.1 hlt with hvalue' | ⟨-, hsub⟩
    · exact Std.not_le_of_gt hvalue' (Std.le_trans hle hreached)
    · have hnot : own.admitsAt ⟨e.stamp.value, e.sub⟩ = false := hvalue ▸ hnone e.sub hsub
      exact Bool.false_ne_true (hnot.symm.trans hadm)

end Journal

theorem Entry.follows_of_sub {e last : Entry} (hrank : e.stamp.rank = last.stamp.rank)
    (hsub : last.sub < e.sub) :
    e.follows last = true := by
  have hpos : last.position < e.position :=
    Position.lt_iff.2 (.inr ⟨(congrArg Rank.value hrank).symm, hsub⟩)
  simp [follows, hrank, hsub, hpos]

theorem Issuer.value_toSnapshot {i : Issuer} {bound : Stamp} {own : Snapshot} {rank : Rank}
    (h : i.toSnapshot bound = .ok own) (hrank : bound.rank? = some rank) :
    own.value = rank.value := by
  rcases toSnapshot_ok h with rfl | ⟨-, -, -, ⟨rfl, -⟩ | hvalue⟩
  · cases hrank
    rfl
  · cases hrank
  · rw [Stamp.value?, hrank] at hvalue
    exact (Option.some.inj hvalue).symm

namespace Chronicle

variable {c : Chronicle} {seed e newest : Entry} {latest : CommitStamp}

theorem Sound.chronological (h : c.Sound) : c.journal.entries.Pairwise Entry.Before := by
  rcases h with ⟨hempty, -⟩ | ⟨seed, h⟩
  · rw [hempty]
    exact .nil
  · exact h.chronological

theorem before_of_accepted (h : c.journal.Continues (seed :: c.accepted)) {after : List Event}
    {later : List Entry} (hlater : (c.run after).accepted = c.accepted ++ later) (he : e ∈ later) :
    ∀ f ∈ c.journal.entries, f.Before e := by
  intro f hf
  have hordered := (continues_run h after).1.ordered
  rw [hlater, ← List.cons_append] at hordered
  exact (List.pairwise_append.1 hordered).2.2 f (h.mem_of_mem hf) e he

/-- An entry that may follow the newest one, in the view of the greatest commit, is accepted once
that view is known. -/
theorem accepted_of_follows (hlatest : c.journal.latest = some latest)
    (hnewest : c.journal.head? = some newest) (hfollows : e.follows newest = true)
    (hview : e.stamp.view = latest.view) (members : List Address) :
    (c.run [.learn ⟨latest.view, members⟩, .append [e]]).accepted = c.accepted ++ [e] := by
  have hempty : ([e] : List Entry) ≠ [] := List.cons_ne_nil _ _
  have hknown : (c.issuer.views.add ⟨latest.view, members⟩).knows latest.view = true := by
    simp [ViewTable.knows, ViewTable.add, OrderedMap.contains, OrderedMap.get?_insert]
  have horder : Journal.checkOrder newest [e] = .ok () := by
    rw [Journal.checkOrder, if_pos hfollows]
    rfl
  have hranks : ∀ r ∈ c.journal.ranksWith [e],
      (c.issuer.views.add ⟨latest.view, members⟩).knows r.view = true := by
    rw [Journal.ranksWith_of_latest hlatest, List.map_singleton, List.forall_mem_cons,
      List.forall_mem_singleton]
    exact ⟨hknown, (congrArg _ hview).trans hknown⟩
  have happend := (Journal.append_eq_ok (i := c.issuer.addView ⟨latest.view, members⟩) hempty).2
    ⟨newest, hnewest, horder, hranks, rfl⟩
  show (Chronicle.step { c with issuer := c.issuer.addView ⟨latest.view, members⟩ }
    (.append [e])).accepted = _
  rw [step, act, happend]

/-- Take any run of a journal from the beginning, and any stamp of a known view, or an absent one. A
bound can be taken there. It admits of the entries that the journal has exactly the ones at or
before the stamp, and taken again it is itself. -/
theorem read_bound_exact (i : Issuer) (events : List Event) {c : Chronicle}
    (hc : c = ({ issuer := i } : Chronicle).run events) {bound : Stamp}
    (hknown : ∀ view, bound.view? = some view → c.issuer.views.knows view = true) :
    ∃ r, c.journal.snapshotAt c.issuer bound = .ok r ∧
      (∀ e ∈ c.journal.entries, r.admits e.write = true ↔ e.atOrBefore bound = true) ∧
      c.journal.snapshotAt c.issuer (.snapshot r) = .ok r := by
  have hnew : Sound { issuer := i } := .inl ⟨rfl, rfl⟩
  have hj := (hc ▸ hnew.run events : c.Sound).chronological
  obtain ⟨r, hr⟩ := Journal.exists_snapshotAt_of_knows (j := c.journal) hknown
  exact ⟨r, hr, fun e he => Journal.admits_snapshotAt_iff hj hr he,
    Journal.snapshotAt_snapshotAt hj hr⟩

/-- A snapshot excludes a commit between two that it admits, and a commit of its own value comes
after it. -/
theorem read_bound_exact_gap :
    ∃ (c : Chronicle) (r : Snapshot),
      c = ({ issuer := ⟨.replicated, .single ⟨1, ["a"]⟩⟩ } : Chronicle).run
        [.start, .learn ⟨2, ["a"]⟩, .append [⟨⟨.replicated, 1, 1⟩, 0, .all⟩,
          ⟨⟨.replicated, 1, 2⟩, 0, .all⟩, ⟨⟨.replicated, 1, 3⟩, 0, .all⟩,
          ⟨⟨.replicated, 2, 3⟩, 1, .all⟩]] ∧
      c.journal.snapshotAt c.issuer (.snapshot ⟨1, 3, none, .ofList [⟨2, 0⟩, ⟨3, 1⟩]⟩) = .ok r ∧
      r = ⟨1, 3, some 0, .ofList [⟨2, 0⟩, ⟨3, 1⟩]⟩ ∧
      c.journal.snapshotAt c.issuer (.snapshot r) = .ok r ∧
      (c.journal.entries.filter (r.admits ·.write)).map (·.position) =
        [⟨0, 0⟩, ⟨1, 0⟩, ⟨3, 0⟩] := by
  obtain ⟨c, hc, hentries, hknown, hbound⟩ :
      ∃ c : Chronicle, c = ({ issuer := ⟨.replicated, .single ⟨1, ["a"]⟩⟩ } : Chronicle).run
          [.start, .learn ⟨2, ["a"]⟩, .append [⟨⟨.replicated, 1, 1⟩, 0, .all⟩,
            ⟨⟨.replicated, 1, 2⟩, 0, .all⟩, ⟨⟨.replicated, 1, 3⟩, 0, .all⟩,
            ⟨⟨.replicated, 2, 3⟩, 1, .all⟩]] ∧
        (c.journal.entries.filter (·.atOrBefore
          (.snapshot ⟨1, 3, none, .ofList [⟨2, 0⟩, ⟨3, 1⟩]⟩))).map (·.position) =
            [⟨0, 0⟩, ⟨1, 0⟩, ⟨3, 0⟩] ∧
        c.issuer.views.knows 1 = true ∧
        c.journal.snapshotAt c.issuer (.snapshot ⟨1, 3, none, .ofList [⟨2, 0⟩, ⟨3, 1⟩]⟩) =
          .ok ⟨1, 3, some 0, .ofList [⟨2, 0⟩, ⟨3, 1⟩]⟩ := ⟨_, rfl, rfl, rfl, rfl⟩
  have hviews : ∀ view, (Stamp.snapshot ⟨1, 3, none, .ofList [⟨2, 0⟩, ⟨3, 1⟩]⟩).view? = some view →
      c.issuer.views.knows view = true := fun view hview => Option.some.inj hview ▸ hknown
  obtain ⟨r, hr, hexact, hagain⟩ := read_bound_exact _ _ hc hviews
  refine ⟨c, r, hc, hr, Except.ok.inj (hr.symm.trans hbound), hagain, ?_⟩
  rw [← hentries, List.filter_congr fun e he => Bool.eq_iff_iff.2 (hexact e he)]

/-- Take any run of a journal from the beginning, a stamp that is present and that the greatest
commit has reached, and the bound taken there. The bound admits nothing that is accepted later on,
in any run from there, exactly if the journal settles it. -/
theorem read_bound_stable_iff (i : Issuer) (events : List Event) {c : Chronicle}
    (hc : c = ({ issuer := i } : Chronicle).run events) {bound : Stamp} {rank : Rank}
    (hrank : bound.rank? = some rank) {latest : CommitStamp}
    (hlatest : c.journal.latest = some latest) (hreached : rank ≤ latest.rank) {r : Snapshot}
    (hr : c.journal.snapshotAt c.issuer bound = .ok r) :
    ∃ own, c.issuer.toSnapshot bound = .ok own ∧
      ((∀ after later, (c.run after).accepted = c.accepted ++ later →
        ∀ e ∈ later, r.admits e.write = false) ↔
          c.journal.Settles bound own) := by
  have hnew : Sound { issuer := i } := .inl ⟨rfl, rfl⟩
  have hsound : c.Sound := hc ▸ hnew.run events
  have hj := hsound.chronological
  obtain ⟨hempty, -⟩ | ⟨seed, h⟩ := hsound
  · rw [hempty] at hlatest
    cases hlatest
  obtain ⟨own, hown, -⟩ := Journal.snapshotAt_ok hr
  obtain ⟨c', newest, hc', hnewest, hnewestRank⟩ := h.latest
  obtain rfl := Option.some.inj (hlatest.symm.trans hc')
  rw [← h.head?_eq] at hnewest
  obtain ⟨hvalue, -⟩ := Rank.mk.inj hnewestRank
  have hle : own.value ≤ newest.stamp.value := by
    rw [Issuer.value_toSnapshot hown hrank, ← hvalue]
    exact Rank.value_le hreached
  refine ⟨own, hown, fun hnone => ?_, fun hsettles after later hlater e he => ?_⟩
  · refine ⟨newest, hnewest, ?_⟩
    rcases Std.le_iff_lt_or_eq.1 hle with hbeyond | hsame
    · exact .inl hbeyond
    · refine .inr (Classical.or_iff_not_imp_left.2 fun hpins sub hsub => ?_)
      -- A commit of the newest value may have any later sub-version, and is accepted.
      let e : Entry := ⟨⟨c.issuer.placement, latest.view, own.value⟩, sub, .only .empty⟩
      have hplace : e.stamp.rank = newest.stamp.rank := by
        rw [← hnewestRank]
        exact congrArg (Rank.mk · latest.view) (hsame.trans hvalue.symm)
      have hfollows : e.follows newest = true := Entry.follows_of_sub hplace hsub
      have haccepted := accepted_of_follows hlatest hnewest hfollows rfl []
      have hlater : ∀ f ∈ c.journal.entries, f.position < e.position := fun f hf =>
        (before_of_accepted h haccepted List.mem_cons_self f hf).position_lt
      have hout := hnone _ _ haccepted e List.mem_cons_self
      rw [Bool.eq_false_iff] at hout ⊢
      exact fun hadm => hout ((Journal.admits_later_iff hj hown hr hlater).2 ⟨hadm, hpins⟩)
  · exact hsettles.not_admits hj hown hr hnewest hle fun f hf =>
      (before_of_accepted h hlater he f hf).position_lt

/-- An entry of the value before the stamp, and one after it, in the view of the greatest commit:
the bound is pinned to the first, and a third of the value is kept out of it. -/
theorem read_bound_stable_iff_pinned :
    ∃ (c : Chronicle) (r : Snapshot) (e : Entry),
      c = ({ issuer := ⟨.replicated, .single ⟨1, ["a"]⟩⟩ } : Chronicle).run
        [.start, .learn ⟨2, ["a"]⟩, .append [⟨⟨.replicated, 1, 3⟩, 0, .all⟩,
          ⟨⟨.replicated, 2, 3⟩, 1, .all⟩]] ∧
      c.journal.snapshotAt c.issuer (.commit ⟨.replicated, 1, 3⟩) = .ok r ∧
      (c.run [.append [e]]).accepted = c.accepted ++ [e] ∧ e.write = ⟨2, 3, 2⟩ ∧
      r.admits e.write = false := by
  obtain ⟨c, r, e, first, latest, hc, hr, hown, he, hwrite, hlatest, hreached, hnewest, hfirst,
      hvalue, hbefore⟩ :
      ∃ (c : Chronicle) (r : Snapshot) (e first : Entry) (latest : CommitStamp),
        c = ({ issuer := ⟨.replicated, .single ⟨1, ["a"]⟩⟩ } : Chronicle).run
          [.start, .learn ⟨2, ["a"]⟩, .append [⟨⟨.replicated, 1, 3⟩, 0, .all⟩,
            ⟨⟨.replicated, 2, 3⟩, 1, .all⟩]] ∧
        c.journal.snapshotAt c.issuer (.commit ⟨.replicated, 1, 3⟩) = .ok r ∧
        c.issuer.toSnapshot (.commit ⟨.replicated, 1, 3⟩) = .ok ⟨1, 3, none, .empty⟩ ∧
        (c.run [.append [e]]).accepted = c.accepted ++ [e] ∧ e.write = ⟨2, 3, 2⟩ ∧
        c.journal.latest = some latest ∧ (⟨3, 1⟩ : Rank) ≤ latest.rank ∧
        c.journal.head? = some ⟨⟨.replicated, 2, 3⟩, 1, .all⟩ ∧ first ∈ c.journal.entries ∧
        first.stamp.value = 3 ∧
        first.atOrBefore (.commit ⟨.replicated, 1, 3⟩) = true :=
    ⟨_, _, ⟨⟨.replicated, 2, 3⟩, 2, .all⟩, ⟨⟨.replicated, 1, 3⟩, 0, .all⟩, _, rfl, rfl, rfl, rfl,
      rfl, rfl, by decide, rfl, List.mem_cons_of_mem _ List.mem_cons_self, rfl, rfl⟩
  obtain ⟨_, hown', hstable⟩ := read_bound_stable_iff _ _ hc rfl hlatest hreached hr
  obtain rfl := Except.ok.inj (hown.symm.trans hown')
  exact ⟨c, r, e, hc, hr, he, hwrite,
    hstable.2 ⟨_, hnewest, .inr (.inl ⟨rfl, first, hfirst, hvalue, hbefore⟩)⟩ _ _ he e
      List.mem_cons_self⟩

/-- The greatest commit has reached a commit of an older view, and a snapshot pinned one sub-version
beyond the newest entry. The next commit of their value is admitted by the bounds of both. -/
theorem read_bound_unstable :
    ∃ (c : Chronicle) (e : Entry),
      c = ({ issuer := ⟨.replicated, .single ⟨1, ["a"]⟩⟩ } : Chronicle).run
        [.start, .learn ⟨2, ["a"]⟩, .append [⟨⟨.replicated, 2, 3⟩, 0, .all⟩]] ∧
      c.journal.latest = some ⟨.replicated, 2, 3⟩ ∧
      (c.run [.append [e]]).accepted = c.accepted ++ [e] ∧
      ∀ bound ∈ [.commit ⟨.replicated, 1, 3⟩, .snapshot ⟨2, 3, some 1, .empty⟩],
      ∃ rank r, bound.rank? = some rank ∧
        rank ≤ ⟨3, 2⟩ ∧ c.journal.snapshotAt c.issuer bound = .ok r ∧ r.admits e.write = true := by
  refine ⟨_, ⟨⟨.replicated, 2, 3⟩, 1, .all⟩, rfl, rfl, rfl, ?_⟩
  intro bound hbound
  simp only [List.mem_cons, List.not_mem_nil, or_false] at hbound
  rcases hbound with rfl | rfl
  · exact ⟨_, _, rfl, by decide, rfl, rfl⟩
  · exact ⟨_, _, rfl, by decide, rfl, rfl⟩

end Chronicle
end Multiversion
