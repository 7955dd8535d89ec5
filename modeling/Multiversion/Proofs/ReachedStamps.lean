import Multiversion.Proofs.Comparison
import Multiversion.Proofs.ReadBounds
/- The stamps that a journal has reached, which is what a waiting read asks for.

   A commit is reached by the greatest commit so far, a write and a snapshot by the newest entry.
   All that was ever logged is reached, however much of it is trimmed
   (`Journal.Continues.reached_logged`). The greatest commit and the newest entry only move forward,
   so commits and writes stay reached.

   A snapshot is reached by an entry of its commit value or beyond, but also by one that it
   excludes, whatever the value of that (`Journal.reached_snapshot_iff`). Where the newest entry is
   excluded below the commit value, the next one may be admitted, and then the snapshot is no longer
   reached. `Chronicle.reached_stays_iff` says that this is the only way, and
   `Chronicle.reached_lost` is a run in which it happens. -/
namespace Multiversion

theorem Entry.follows_of_position {e last : Entry} (hview : e.stamp.view = last.stamp.view)
    (hlt : last.position < e.position) : e.follows last = true := by
  rcases Position.lt_iff.1 hlt with hvalue | ⟨hvalue, hsub⟩
  · have hrank : last.stamp.rank < e.stamp.rank := Rank.lt_iff.2 (.inl hvalue)
    simp [follows, hrank, hlt]
  · have hrank : e.stamp.rank = last.stamp.rank := by
      rw [CommitStamp.rank, CommitStamp.rank, hview]
      exact congrArg (Rank.mk · _) hvalue.symm
    exact follows_of_sub hrank hsub

namespace Journal

variable {i : Issuer} {j j' : Journal} {e newest : Entry} {latest c : CommitStamp} {w : WriteStamp}
  {s : Snapshot} {target : Stamp} {history history' : List Entry}

theorem reached_commit_iff (hnewest : j.head? = some newest) (hlatest : j.latest = some latest) :
    j.reached (.commit c) = .ok true ↔ c.rank ≤ latest.rank := by
  simp only [reached, hnewest, mark, hlatest, Stamp.atOrAfter_commit, Except.ok.injEq,
    decide_eq_true_eq]

theorem reached_write_iff (hnewest : j.head? = some newest) :
    j.reached (.write w) = .ok true ↔ w.position ≤ newest.position := by
  simp only [reached, hnewest]
  rw [Stamp.atOrAfter_eq_true_iff rfl, ne_eq, Std.compare_eq_lt, Std.not_lt]
  rfl

/-- A snapshot is reached by an entry of its commit value or beyond, and by one that it excludes. -/
theorem reached_snapshot_iff (hnewest : j.head? = some newest) :
    j.reached (.snapshot s) = .ok true ↔ s.value ≤ newest.stamp.value ∨
    newest.position ∈ s.excluded := by
  have hlt : newest.write.value < s.value ↔ ¬ s.value ≤ newest.stamp.value := Std.not_le.symm
  have hplace (hbelow : ¬ s.value ≤ newest.stamp.value) : newest.position ≤ s.position :=
    Position.le_iff.2 (.inl (hlt.2 hbelow))
  simp only [reached, hnewest]
  rw [Stamp.atOrAfter_eq_true_iff rfl, ne_eq, Snapshot.locate_eq_lt_iff, hlt, Snapshot.admits,
    Snapshot.admitsAt_iff]
  constructor
  · intro hnot
    by_cases hvalue : s.value ≤ newest.stamp.value
    · exact .inl hvalue
    · exact .inr (Decidable.not_not.1 fun hexcluded => hnot ⟨⟨hplace hvalue, hexcluded⟩, hvalue⟩)
  · rintro (hvalue | hexcluded) ⟨⟨-, hnot⟩, hbelow⟩
    · exact hbelow hvalue
    · exact hnot hexcluded

/-- A snapshot that the journal has reached only because it excludes the newest entry: that is of a
lesser commit value, and one that the snapshot admits may come next. -/
def ReachedEarly (j : Journal) (s : Snapshot) : Prop :=
  ∃ newest, j.head? = some newest ∧ newest.position ∈ s.excluded ∧ newest.stamp.value < s.value ∧
    ∃ p : Position, newest.position < p ∧ p.value < s.value ∧ p ∉ s.excluded

namespace Continues

theorem newest_later (h : j.Continues history) (h' : j'.Continues history')
    (hgrows : history <+: history') (he : j.head? = some e) (hnewest : j'.head? = some newest) :
    e = newest ∨ e.Before newest := by
  rw [h.head?_eq] at he
  rw [h'.head?_eq] at hnewest
  exact Entry.eq_or_before_getLast h'.ordered hnewest (hgrows.subset (List.mem_of_getLast? he))

/-- All that was ever logged is reached. -/
theorem reached_logged (h : j.Continues history) (he : e ∈ history) :
    j.reached (.commit e.stamp) = .ok true ∧ j.reached (.write e.write) = .ok true := by
  obtain ⟨latest, newest, hlatest, hnewest, -⟩ := h.latest
  have hhead : j.head? = some newest := h.head?_eq.trans hnewest
  rw [reached_commit_iff hhead hlatest, reached_write_iff hhead]
  refine ⟨h.rank_le he hlatest, ?_⟩
  rcases Entry.eq_or_before_getLast h.ordered hnewest he with rfl | hbefore
  · exact Std.le_refl _
  · exact Std.le_of_lt hbefore.position_lt

theorem reached_later (h : j.Continues history) (h' : j'.Continues history')
    (hgrows : history <+: history') (hreached : j.reached target = .ok true)
    (hearly : ∀ s, target = .snapshot s → ¬ j.ReachedEarly s) :
    j'.reached target = .ok true := by
  obtain ⟨latest, latest', newest', hlatest, hlatest', hnewest', -, hrank⟩ :=
    h.latest_mono h' hgrows
  obtain ⟨newest, hnewest⟩ := exists_head? h.started
  have hlater := h.newest_later h' hgrows hnewest hnewest'
  cases target with
  | absent => simp [reached, hnewest']
  | commit c =>
    rw [reached_commit_iff hnewest hlatest] at hreached
    rw [reached_commit_iff hnewest' hlatest']
    exact Std.le_trans hreached hrank
  | write w =>
    rw [reached_write_iff hnewest] at hreached
    rw [reached_write_iff hnewest']
    rcases hlater with rfl | hbefore
    · exact hreached
    · exact Std.le_trans hreached (Std.le_of_lt hbefore.position_lt)
  | snapshot s =>
    rw [reached_snapshot_iff hnewest] at hreached
    rw [reached_snapshot_iff hnewest']
    rcases hlater with rfl | hbefore
    · exact hreached
    · refine Decidable.or_iff_not_imp_left.2 fun hbelow => ?_
      have hvalue : newest.stamp.value ≤ newest'.stamp.value :=
        Position.value_le (Std.le_of_lt hbefore.position_lt)
      have hbelow' : newest.stamp.value < s.value := Std.lt_of_le_of_lt hvalue (Std.not_le.1 hbelow)
      have hexcluded := hreached.resolve_left (Std.not_le.2 hbelow')
      exact Decidable.not_not.1 fun hadmitted => hearly s rfl
        ⟨newest, hnewest, hexcluded, hbelow', newest'.position, hbefore.position_lt,
          Std.not_le.1 hbelow, hadmitted⟩

end Continues
end Journal

namespace Chronicle

variable {c : Chronicle} {seed : Entry} {s : Snapshot}

theorem exists_not_reached (h : c.journal.Continues (seed :: c.accepted))
    (hearly : c.journal.ReachedEarly s) :
    ∃ after, (c.run after).journal.reached (.snapshot s) ≠ .ok true := by
  obtain ⟨newest, hnewest, -, -, p, hlt, hvalue, hadmitted⟩ := hearly
  obtain ⟨latest, newest', hlatest, hnewest', hrank⟩ := h.latest
  obtain rfl := Option.some.inj (hnewest.symm.trans (h.head?_eq.trans hnewest'))
  let e : Entry := ⟨⟨c.issuer.placement, latest.view, p.value⟩, p.sub, .only .empty⟩
  have hfollows : e.follows newest = true :=
    Entry.follows_of_position (congrArg Rank.view hrank) hlt
  have haccepted := accepted_of_follows hlatest hnewest hfollows rfl []
  obtain ⟨h', -⟩ := continues_run h [.learn ⟨latest.view, []⟩, .append [e]]
  have hhead := h'.head?_eq
  rw [haccepted, ← List.cons_append, List.getLast?_concat] at hhead
  refine ⟨[.learn ⟨latest.view, []⟩, .append [e]], fun hreached => ?_⟩
  rcases (Journal.reached_snapshot_iff hhead).1 hreached with hbeyond | hexcluded
  · exact Std.not_le_of_gt hvalue hbeyond
  · exact hadmitted hexcluded

/-- Take any run of a journal from the beginning, in which it is started. Once a batch is accepted,
the journal has reached the commit and the write of every entry of it. And a stamp that the journal
has reached stays reached, in any run from there, exactly if it is not a snapshot that is reached
early. -/
theorem reached_stays_iff (i : Issuer) (events : List Event) (hstart : .start ∈ events)
    {c : Chronicle} (hc : c = ({ issuer := i } : Chronicle).run events) :
    (∀ batch c', c.act (.append batch) = (.ok (), c') → ∀ e ∈ batch,
      c'.journal.reached (.commit e.stamp) = .ok true ∧
      c'.journal.reached (.write e.write) = .ok true) ∧
    ∀ target, c.journal.reached target = .ok true →
      ((∀ after, (c.run after).journal.reached target = .ok true) ↔
        ∀ s, target = .snapshot s → ¬ c.journal.ReachedEarly s) := by
  have hnew : Sound { issuer := i } := .inl ⟨rfl, rfl⟩
  obtain ⟨seed, h⟩ := hnew.exists_continues hstart
  rw [← hc] at h
  constructor
  · intro batch c' hact e he
    have hstep : c.step (.append batch) = c' := by rw [step, hact]
    obtain ⟨h', -⟩ := continues_step h (.append batch)
    rw [hstep] at h'
    obtain ⟨journal, -, rfl⟩ := act_append_eq_ok.1 hact
    exact h'.reached_logged (List.mem_cons_of_mem _ (List.mem_append_right _ he))
  · intro target hreached
    constructor
    · rintro hstays s rfl hearly
      obtain ⟨after, hlost⟩ := exists_not_reached h hearly
      exact hlost (hstays after)
    · intro hearly after
      obtain ⟨h', hgrows⟩ := continues_run h after
      exact h.reached_later h' (List.cons_prefix_cons.2 ⟨rfl, hgrows⟩) hreached hearly

/-- The newest entry is of a newer view than a snapshot of its commit value, which therefore
excludes it. The snapshot stays reached when two commits of that value are accepted, the last of
which it admits; and each of them is reached. -/
theorem reached_stays_iff_same_value :
    ∃ (c c' : Chronicle) (s : Snapshot) (e f : Entry),
      c = ({ issuer := ⟨.replicated, .single ⟨1, ["a"]⟩⟩ } : Chronicle).run
        [.start, .learn ⟨2, ["a"]⟩, .append [⟨⟨.replicated, 2, 3⟩, 0, .all⟩]] ∧
      s = ⟨1, 3, none, .ofList [⟨3, 0⟩]⟩ ∧ e.write = ⟨2, 3, 1⟩ ∧ f.write = ⟨2, 3, 2⟩ ∧
      c.act (.append [e, f]) = (.ok (), c') ∧ s.admits f.write = true ∧
      c.journal.reached (.snapshot s) = .ok true ∧
      (c.run [.append [e, f]]).journal.reached (.snapshot s) = .ok true ∧
      c'.journal.reached (.write ⟨2, 3, 1⟩) = .ok true := by
  obtain ⟨c, c', s, e, f, newest, hc, hs, he, hf, hact, hadmits, hreached, hnewest, hvalue⟩ :
      ∃ (c c' : Chronicle) (s : Snapshot) (e f newest : Entry),
        c = ({ issuer := ⟨.replicated, .single ⟨1, ["a"]⟩⟩ } : Chronicle).run
          [.start, .learn ⟨2, ["a"]⟩, .append [⟨⟨.replicated, 2, 3⟩, 0, .all⟩]] ∧
        s = ⟨1, 3, none, .ofList [⟨3, 0⟩]⟩ ∧ e.write = ⟨2, 3, 1⟩ ∧ f.write = ⟨2, 3, 2⟩ ∧
        c.act (.append [e, f]) = (.ok (), c') ∧ s.admits f.write = true ∧
        c.journal.reached (.snapshot s) = .ok true ∧ c.journal.head? = some newest ∧
        newest.stamp.value = s.value :=
    ⟨_, _, _, ⟨⟨.replicated, 2, 3⟩, 1, .all⟩, ⟨⟨.replicated, 2, 3⟩, 2, .all⟩, _, rfl, rfl, rfl, rfl,
      rfl, rfl, rfl, rfl, rfl⟩
  have hnotEarly : ¬ c.journal.ReachedEarly s := by
    rintro ⟨newest', hnewest', -, hlt, -⟩
    obtain rfl := Option.some.inj (hnewest.symm.trans hnewest')
    exact Std.lt_irrefl (hvalue ▸ hlt)
  obtain ⟨hlogged, hstays⟩ := reached_stays_iff _ _ List.mem_cons_self hc
  have hlater := (hstays _ hreached).2 fun t ht => Stamp.snapshot.inj ht ▸ hnotEarly
  obtain ⟨-, hwrite⟩ := hlogged _ _ hact e List.mem_cons_self
  exact ⟨c, c', s, e, f, hc, hs, he, hf, hact, hadmits, hreached, hlater _, he ▸ hwrite⟩

/-- A snapshot of value 5 that excludes a write of value 3 is reached by the commit of that write,
and no longer by the next commit, of value 4. -/
theorem reached_lost :
    ∃ (c : Chronicle) (s : Snapshot) (e : Entry),
      c = ({ issuer := ⟨.replicated, .single ⟨1, ["a"]⟩⟩ } : Chronicle).run
        [.start, .append [⟨⟨.replicated, 1, 3⟩, 0, .only (.ofList ["k"])⟩]] ∧
      s = ⟨1, 5, none, .ofList [⟨3, 0⟩]⟩ ∧ e.write = ⟨1, 4, 0⟩ ∧
      (c.run [.append [e]]).accepted = c.accepted ++ [e] ∧
      c.journal.reached (.snapshot s) = .ok true ∧
      (c.run [.append [e]]).journal.reached (.snapshot s) = .ok false :=
  ⟨_, _, ⟨⟨.replicated, 1, 4⟩, 0, .only (.ofList ["k"])⟩, rfl, rfl, rfl, rfl, rfl, rfl⟩

end Chronicle
end Multiversion
