import Multiversion.Proofs.Merging
import Multiversion.Proofs.ReadBounds
import Multiversion.Proofs.Visibility
/- The commit that a read is answered with.

   A bound may pass any of the entries: what it excludes lies between entries that it admits. The
   commits of those it admits are merged by commit value and view, while entries are in order by
   commit value and sub-version. In a chronological journal both orders go the same way, so the
   greatest commit of any part of it is that of its newest entry (`Entry.fold_greatest_rank`), and
   the answer is the commit of the newest entry at or before the bound (`Journal.available_eq`). A
   bound that admits more gets an answer that is not before. `Chronicle.available_exact` says so for
   every journal there can be. -/
namespace Multiversion

namespace Entry

/-- The greatest of the commits of chronological entries is that of the newest one. -/
theorem fold_greatest_rank {l : List Entry} (hl : l.Pairwise Before) :
    Extreme.fold Extreme.greatest.pick (l.map (·.stamp.rank)) = l.getLast?.map (·.stamp.rank) := by
  cases l with
  | nil => rfl
  | cons a rest =>
    rw [List.map_cons, Extreme.fold, List.getLast?_cons, Option.map_some]
    exact congrArg some (foldl_max_rank hl)

end Entry

theorem Stamp.atOrBefore_commit {a b : CommitStamp} :
    (Stamp.commit a).atOrBefore (.commit b) = .ok (decide (a.rank ≤ b.rank)) :=
  congrArg Except.ok (decide_eq_decide.2 compare_ne_gt_iff)

namespace Journal

variable {i : Issuer} {j : Journal} {bound bound' v v' : Stamp} {newest : Entry}

theorem floor?_eq_getLast? (j : Journal) (bound : Stamp) :
    j.floor? bound = (j.entries.filter (·.atOrBefore bound)).getLast? := by
  rw [List.getLast?_eq_head?_reverse, ← List.filter_reverse, List.head?_filter, floor?]

/-- At a bound that is a write or a snapshot the answer is the commit of the newest entry at or
before it, if the views of all of those entries are known. -/
theorem available_eq (hj : j.entries.Pairwise Entry.Before) (hpresent : bound.isAbsent = false)
    (hcommit : bound.commit? = none) : j.available i (some bound) = (do
      (i.checkAll ((j.entries.filter (·.atOrBefore bound)).map (·.stamp.rank))).mapError .stamp
      return i.ofRank ((j.floor? bound).map (·.stamp.rank))) := by
  have hgreatest := Entry.fold_greatest_rank (hj.filter (·.atOrBefore bound))
  rw [← floor?_eq_getLast?] at hgreatest
  cases bound with
  | absent => simp [Stamp.isAbsent] at hpresent
  | commit c => simp [Stamp.commit?] at hcommit
  | _ =>
    simp only [available, filterM_test, mapError_ok, ok_bind, Issuer.mergeRanks, hgreatest]
    cases i.checkAll _ with
    | error fault => rfl
    | ok _ => cases j.floor? _ <;> rfl

theorem available_eq_ok_iff (hj : j.entries.Pairwise Entry.Before)
    (hpresent : bound.isAbsent = false) (hcommit : bound.commit? = none) :
    j.available i (some bound) = .ok v ↔
      (∀ e ∈ j.entries, e.atOrBefore bound = true → i.views.knows e.stamp.view = true) ∧
        v = i.ofRank ((j.floor? bound).map (·.stamp.rank)) := by
  have hknown : i.checkAll ((j.entries.filter (·.atOrBefore bound)).map (·.stamp.rank)) = .ok () ↔
      ∀ e ∈ j.entries, e.atOrBefore bound = true → i.views.knows e.stamp.view = true := by
    rw [Issuer.checkAll_eq_ok, List.forall_mem_map]
    simp only [List.mem_filter, and_imp]
    rfl
  rw [available_eq hj hpresent hcommit, ← hknown]
  simp only [bind_eq_ok, mapError_eq_ok, pure_eq_ok, Except.ok.injEq]
  constructor
  · rintro ⟨_, hcheck, rfl⟩
    exact ⟨hcheck, rfl⟩
  · rintro ⟨hcheck, rfl⟩
    exact ⟨(), hcheck, rfl⟩

/-- If a bound admits more than another, then its newest entry does not come before the other's. -/
theorem floor?_le (hj : j.entries.Pairwise Entry.Before)
    (hfurther : ∀ e ∈ j.entries, e.atOrBefore bound = true → e.atOrBefore bound' = true)
    (hnewest : j.floor? bound = some newest) :
    ∃ newest', j.floor? bound' = some newest' ∧ newest.stamp.rank ≤ newest'.stamp.rank := by
  obtain ⟨hmem, hbound⟩ := atOrBefore_of_floor? hnewest
  have hbound' := hfurther newest hmem hbound
  cases hnewest' : j.floor? bound' with
  | none =>
    have hnone : ∀ e ∈ j.entries, e.atOrBefore bound' = false := by
      simpa [floor?, List.find?_eq_none] using hnewest'
    simp [hnone newest hmem] at hbound'
  | some newest' =>
    -- The first newest entry is among those that the second bound admits.
    refine ⟨newest', rfl, ?_⟩
    rcases le_floor_of_atOrBefore hj hnewest' hmem hbound' with rfl | hbefore
    · exact Std.le_refl _
    · exact hbefore.rank_le

theorem ofRank_floor?_le (hj : j.entries.Pairwise Entry.Before)
    (hfurther : ∀ e ∈ j.entries, e.atOrBefore bound = true → e.atOrBefore bound' = true) :
    (i.ofRank ((j.floor? bound).map (·.stamp.rank))).atOrBefore
      (i.ofRank ((j.floor? bound').map (·.stamp.rank))) = .ok true := by
  cases hnewest : j.floor? bound with
  | none => cases (j.floor? bound').map (·.stamp.rank) <;> rfl
  | some newest =>
    obtain ⟨newest', hnewest', hle⟩ := floor?_le hj hfurther hnewest
    rw [hnewest', Option.map_some, Option.map_some]
    show (Stamp.commit (i.stampAt _)).atOrBefore (.commit (i.stampAt _)) = _
    rw [Stamp.atOrBefore_commit]
    exact congrArg Except.ok (decide_eq_true hle)

end Journal

namespace Chronicle

/-- Take any run of a journal from the beginning, and ask for the commit that a read is to be
answered with, at a bound that is a write or a snapshot. There is an answer exactly if the views of
all entries at or before the bound are known. It is absent exactly if there is no such entry.
Otherwise it has the commit value and the view of the newest of them: no entry after that one is at
or before the bound, and its write does not compare as after the bound. At another bound of that
kind, which has every entry at or before it that the first one has, the answer, if there is one, is
not before the first. -/
theorem available_exact (i : Issuer) (events : List Event) {c : Chronicle}
    (hc : c = ({ issuer := i } : Chronicle).run events) {bound : Stamp}
    (hpresent : bound.isAbsent = false) (hcommit : bound.commit? = none) :
    ((∃ v, c.journal.available c.issuer (some bound) = .ok v) ↔
      ∀ e ∈ c.journal.entries, e.atOrBefore bound = true →
      c.issuer.views.knows e.stamp.view = true) ∧
    ∀ v, c.journal.available c.issuer (some bound) = .ok v →
      (v = .absent ↔ ∀ e ∈ c.journal.entries, e.atOrBefore bound = false) ∧
      (v ≠ .absent → ∃ older newest newer, c.journal.entries = older ++ newest :: newer ∧
        newest.atOrBefore bound = true ∧ (∀ e ∈ newer, e.atOrBefore bound = false) ∧
        (Stamp.write newest.write).atOrBefore bound = .ok true ∧
        v = .commit ⟨c.issuer.placement, newest.stamp.view, newest.stamp.value⟩) ∧
      ∀ bound' v', bound'.isAbsent = false → bound'.commit? = none →
        (∀ e ∈ c.journal.entries, e.atOrBefore bound = true → e.atOrBefore bound' = true) →
        c.journal.available c.issuer (some bound') = .ok v' → v.atOrBefore v' = .ok true := by
  have hnew : Sound { issuer := i } := .inl ⟨rfl, rfl⟩
  have hj : c.journal.entries.Pairwise Entry.Before :=
    (hc ▸ hnew.run events : c.Sound).chronological
  constructor
  · simp only [Journal.available_eq_ok_iff hj hpresent hcommit, exists_and_left,
      exists_eq, and_true]
  intro v hv
  obtain ⟨-, rfl⟩ := (Journal.available_eq_ok_iff hj hpresent hcommit).1 hv
  refine ⟨?_, ?_, ?_⟩
  · rcases c.journal.floor_cases bound with ⟨hfloor, -, hnone⟩ |
        ⟨older, newest, newer, hsplit, hnewest, -, hfloor, -⟩
    · rw [hfloor]
      exact iff_of_true rfl hnone
    · rw [hfloor]
      refine iff_of_false (fun habsent => by cases habsent) fun hnone => ?_
      rw [hnone newest (by simp [hsplit])] at hnewest
      cases hnewest
  · intro hsome
    rcases c.journal.floor_cases bound with ⟨hfloor, -, -⟩ |
        ⟨older, newest, newer, hsplit, hnewest, hnewer, hfloor, -⟩
    · rw [hfloor] at hsome
      exact absurd rfl hsome
    · rw [hfloor]
      exact ⟨older, newest, newer, hsplit, hnewest, hnewer,
        by rw [Entry.write_atOrBefore hpresent hcommit, hnewest], rfl⟩
  · intro bound' v' hpresent' hcommit' hfurther hv'
    obtain ⟨-, rfl⟩ := (Journal.available_eq_ok_iff hj hpresent' hcommit').1 hv'
    exact Journal.ofRank_floor?_le hj hfurther

/-- Two commits of one value in different views. A snapshot that excludes the second is answered
with the first, and the write of the second with the second, which is not before. A snapshot that
excludes every entry gets nothing. -/
theorem available_exact_gap : ∃ (c : Chronicle) (blind bound bound' v v' : Stamp),
    c = ({ issuer := ⟨.replicated, .single ⟨1, ["a"]⟩⟩ } : Chronicle).run [.start,
      .learn ⟨2, ["a"]⟩, .append [⟨⟨.replicated, 1, 3⟩, 0, .all⟩, ⟨⟨.replicated, 2, 3⟩, 1, .all⟩]] ∧
    blind = .snapshot { view := 1, value := 3, excluded := .ofList [⟨0, 0⟩, ⟨3, 0⟩, ⟨3, 1⟩] } ∧
    bound = .snapshot { view := 1, value := 9, excluded := .ofList [⟨3, 1⟩] } ∧
    bound' = .write ⟨2, 3, 1⟩ ∧
    c.journal.available c.issuer (some blind) = .ok .absent ∧
    c.journal.available c.issuer (some bound) = .ok v ∧ v = .commit ⟨.replicated, 1, 3⟩ ∧
    c.journal.available c.issuer (some bound') = .ok v' ∧ v' = .commit ⟨.replicated, 2, 3⟩ ∧
    v.atOrBefore v' = .ok true := by
  obtain ⟨c, blind, bound, bound', v, v', hc, hentries, hviews, hblind, hbound, hbound', hv, hv',
      hanswer, hanswer'⟩ :
      ∃ (c : Chronicle) (blind bound bound' v v' : Stamp),
      c = ({ issuer := ⟨.replicated, .single ⟨1, ["a"]⟩⟩ } : Chronicle).run [.start,
        .learn ⟨2, ["a"]⟩, .append [⟨⟨.replicated, 1, 3⟩, 0, .all⟩,
          ⟨⟨.replicated, 2, 3⟩, 1, .all⟩]] ∧
      c.journal.entries = [⟨⟨.replicated, 1, 0⟩, 0, .all⟩, ⟨⟨.replicated, 1, 3⟩, 0, .all⟩,
        ⟨⟨.replicated, 2, 3⟩, 1, .all⟩] ∧
      (∀ e ∈ c.journal.entries, c.issuer.views.knows e.stamp.view = true) ∧
      blind = .snapshot { view := 1, value := 3, excluded := .ofList [⟨0, 0⟩, ⟨3, 0⟩, ⟨3, 1⟩] } ∧
      bound = .snapshot { view := 1, value := 9, excluded := .ofList [⟨3, 1⟩] } ∧
      bound' = .write ⟨2, 3, 1⟩ ∧
      v = .commit ⟨.replicated, 1, 3⟩ ∧ v' = .commit ⟨.replicated, 2, 3⟩ ∧
      c.journal.available c.issuer (some bound) = .ok v ∧
      c.journal.available c.issuer (some bound') = .ok v' :=
    ⟨_, _, _, _, _, _, rfl, rfl, by decide +kernel, rfl, rfl, rfl, rfl, rfl, rfl, rfl⟩
  refine ⟨c, blind, bound, bound', v, v', hc, hblind, hbound, hbound', ?_, hanswer, hv,
    hanswer', hv', ?_⟩
  · have hpresent : blind.isAbsent = false := by rw [hblind]; rfl
    have hcommit : blind.commit? = none := by rw [hblind]; rfl
    obtain ⟨hanswers, hexact⟩ := available_exact _ _ hc hpresent hcommit
    obtain ⟨answer, hnothing⟩ := hanswers.2 fun e he _ => hviews e he
    obtain ⟨habsent, -⟩ := hexact answer hnothing
    have hall : ∀ e ∈ c.journal.entries, e.atOrBefore blind = false := by
      rw [hentries, hblind]
      decide +kernel
    rw [hnothing, habsent.2 hall]
  · have hpresent : bound.isAbsent = false := by rw [hbound]; rfl
    have hcommit : bound.commit? = none := by rw [hbound]; rfl
    obtain ⟨-, hexact⟩ := available_exact _ _ hc hpresent hcommit
    obtain ⟨-, -, hordered⟩ := hexact v hanswer
    refine hordered bound' v' (by rw [hbound']; rfl) (by rw [hbound']; rfl) ?_ hanswer'
    rw [hentries, hbound, hbound']
    decide +kernel

end Chronicle
end Multiversion
