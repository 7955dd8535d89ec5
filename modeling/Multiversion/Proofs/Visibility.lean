import Multiversion.Proofs.EntryTest
import Multiversion.Proofs.Lookup
/- One rule for what lies at or before a stamp.

   Three places decide it, each in its own way. The journal tests its entries by comparing them; a
   timeline tests the writes that it keeps by their places and by what a snapshot excludes; and a
   comparison looks for what is beyond the snapshot first, and orders the rest by value. They agree
   on every bound that says something of single writes: a write passes the test of a timeline
   exactly if it does not compare as after the bound (`Stamp.visible_iff`), and then so does its
   entry in the journal (`Entry.test_visible`). Against a commit only the journal can test, by the
   places of commits, and every look-up fails. So journal and timelines do not part: in a timeline
   that keeps the writes of the journal a look-up finds the write of the newest entry at or before
   the bound (`Journal.find_floor?`). -/
namespace Multiversion

variable {bound : Stamp} {visible : WriteStamp → Bool} {o : Ordering}

namespace Stamp

theorem exists_compare_write (h : bound.commit? = none) (w : WriteStamp) :
    ∃ o, (write w).compare bound = .ok o := by
  cases bound with
  | commit c => simp [commit?] at h
  | _ => exact ⟨_, rfl⟩

/-- A write passes the test of a bound exactly if it does not compare as after it. -/
theorem visible_iff (h : bound.visibility = .ok visible) (hpresent : bound.isAbsent = false)
    {w : WriteStamp} (ho : (write w).compare bound = .ok o) : visible w = true ↔ o ≠ .gt := by
  cases bound with
  | absent => simp [isAbsent] at hpresent
  | write b =>
    cases h
    cases ho
    rw [decide_eq_true_eq, compare_ne_gt_iff]
  | snapshot s =>
    cases h
    cases ho
    rw [ne_eq, Snapshot.locate_eq_gt_iff, Bool.not_eq_false]
  | commit c => cases h

end Stamp

namespace Entry

variable {e : Entry}

/-- The journal passes an entry exactly if a timeline passes its write. -/
theorem test_visible (h : bound.visibility = .ok visible) (e : Entry) :
    e.test bound = .ok (visible e.write) := by
  cases hpresent : bound.isAbsent with
  | true =>
    -- An absent bound is no bound here, though every write compares as after it.
    obtain rfl : bound = .absent := by cases bound <;> first | rfl | cases hpresent
    cases h
    rfl
  | false =>
    have hcommit : bound.commit? = none := by
      cases bound with
      | commit c => cases h
      | _ => rfl
    obtain ⟨o, ho⟩ := Stamp.exists_compare_write hcommit e.write
    have hiff := Stamp.visible_iff h hpresent ho
    rw [test_eq, ← write_atOrBefore hpresent hcommit, Stamp.atOrBefore, ho]
    exact congrArg Except.ok (Bool.eq_iff_iff.2 (decide_eq_true_iff.trans hiff.symm))

theorem atOrBefore_eq (h : bound.visibility = .ok visible) (e : Entry) :
    e.atOrBefore bound = visible e.write :=
  Except.ok.inj ((e.test_eq bound).symm.trans (test_visible h e))

end Entry

namespace Timeline

/-- A look-up at a commit fails wherever there is something to look at, and a collection wherever
there is something to collect. -/
theorem commit_fails (t : Timeline) (c : CommitStamp) :
    (t.isEmpty = false → t.find (.commit c) = .error (.incomparable .write (.commit c.placement))) ∧
    (2 ≤ t.length → t.gc (.commit c) = .error (.incomparable .write (.commit c.placement))) := by
  constructor
  · intro h
    simp [find, h, Stamp.visibility]
  · intro h
    have hlength : ¬ t.length < 2 := by omega
    simp [gc, hlength, Stamp.isAbsent, Stamp.visibility]

end Timeline

/-- Test any entry at any bound. If the bound is absent, a write, or a snapshot, wherever that is
pinned and whatever it excludes, then timelines have a test for it, by which they are looked up. The
journal's own test of the entry succeeds, and passes the entry exactly if the timelines' test passes
its write; and at a bound that is there the write compares with the bound, and passes exactly if it
does not compare as after it. If the bound is a commit, then the journal passes the entry exactly if
its commit value is less, or the same and its view id is not greater; there is no test for single
writes, so every look-up fails that finds a revision to test, and every collection that finds one to
collect. -/
theorem Entry.tests_agree (e : Entry) :
    (∀ bound : Stamp, bound.commit? = none → ∃ visible, bound.visibility = .ok visible ∧
      (∀ t : Timeline, t.find bound = .ok (t.sight visible)) ∧
      e.test bound = .ok (visible e.write) ∧
      (bound.isAbsent = false → ∃ o, (Stamp.write e.write).compare bound = .ok o ∧
        (visible e.write = true ↔ o ≠ .gt) ∧ (e.test bound = .ok true ↔ o ≠ .gt))) ∧
    ∀ c : CommitStamp,
      (∃ passes, e.test (.commit c) = .ok passes ∧ (passes = true ↔
        e.stamp.value < c.value ∨ e.stamp.value = c.value ∧ e.stamp.view ≤ c.view)) ∧
      (Stamp.commit c).visibility = .error (.incomparable .write (.commit c.placement)) ∧
      ∀ t : Timeline,
        (t.isEmpty = false → t.find (.commit c) =
          .error (.incomparable .write (.commit c.placement))) ∧
        (2 ≤ t.length → t.gc (.commit c) =
          .error (.incomparable .write (.commit c.placement))) := by
  constructor
  · intro bound hcommit
    obtain ⟨visible, hvisible⟩ := Stamp.exists_visibility hcommit
    have htest := test_visible hvisible e
    refine ⟨visible, hvisible, fun t => t.find_eq hvisible, htest, fun hpresent => ?_⟩
    obtain ⟨o, ho⟩ := Stamp.exists_compare_write hcommit e.write
    have hiff := Stamp.visible_iff hvisible hpresent ho
    exact ⟨o, ho, hiff, by rw [htest, Except.ok.injEq, hiff]⟩
  · intro c
    exact ⟨⟨_, e.test_eq _, atOrBefore_commit.trans Rank.le_iff⟩, by simp [Stamp.visibility],
      fun t => t.commit_fails c⟩

/-- A snapshot is pinned to one write and excludes another of a smaller value. The entry of the
excluded write fails both tests and compares as after the snapshot, and so does one of the
snapshot's own value that is beyond the pin. A timeline that keeps both writes can not be looked up
or collected at a commit, which the first entry is at or before. -/
theorem Entry.tests_agree_pinned :
    ∃ (excluded beyond : Entry) (bound : Stamp) (visible : WriteStamp → Bool)
    (t : Timeline) (c : CommitStamp), excluded = ⟨⟨.replicated, 1, 3⟩, 0, .all⟩ ∧
    beyond = ⟨⟨.replicated, 1, 5⟩, 3, .all⟩ ∧ c = ⟨.distributed, 0, 5⟩ ∧
    bound = .snapshot { view := 1, value := 5, pin := some 2, excluded := .ofList [⟨3, 0⟩] } ∧
    t.revisions = [⟨beyond.write, some "b", none⟩, ⟨excluded.write, some "a", none⟩] ∧
    bound.commit? = none ∧ bound.isAbsent = false ∧ bound.visibility = .ok visible ∧
    t.find bound = .ok none ∧
    excluded.test bound = .ok false ∧ visible excluded.write = false ∧
    (Stamp.write excluded.write).compare bound = .ok .gt ∧
    beyond.test bound = .ok false ∧ visible beyond.write = false ∧
    (Stamp.write beyond.write).compare bound = .ok .gt ∧
    excluded.test (.commit c) = .ok true ∧ beyond.test (.commit c) = .ok false ∧
    t.find (.commit c) = .error (.incomparable .write (.commit .distributed)) ∧
    t.gc (.commit c) = .error (.incomparable .write (.commit .distributed)) := by
  have htest {e : Entry} {bound : Stamp} {passes : Bool} (h : e.atOrBefore bound = passes) :
      e.test bound = .ok passes := h ▸ e.test_eq bound
  obtain ⟨x, y, bound, c, hx, hy, hc, hbound, hxfails, hyfails, hxcommit, hycommit⟩ :
      ∃ (x y : Entry) (bound : Stamp) (c : CommitStamp),
        x = ⟨⟨.replicated, 1, 3⟩, 0, .all⟩ ∧ y = ⟨⟨.replicated, 1, 5⟩, 3, .all⟩ ∧
        c = ⟨.distributed, 0, 5⟩ ∧
        bound = .snapshot { view := 1, value := 5, pin := some 2, excluded := .ofList [⟨3, 0⟩] } ∧
        x.test bound = .ok false ∧ y.test bound = .ok false ∧
        x.test (.commit c) = .ok true ∧ y.test (.commit c) = .ok false :=
    ⟨_, _, _, _, rfl, rfl, rfl, rfl, htest (by decide +kernel), htest (by decide +kernel),
      htest (by decide +kernel), htest (by decide +kernel)⟩
  obtain ⟨t, ht⟩ : ∃ t : Timeline,
      t.revisions = [⟨y.write, some "b", none⟩, ⟨x.write, some "a", none⟩] := by
    subst hx hy
    exact ⟨⟨_, by decide, false⟩, rfl⟩
  have hcommit : bound.commit? = none := by rw [hbound]; rfl
  have hpresent : bound.isAbsent = false := by rw [hbound]; rfl
  obtain ⟨hxtests, hxcommits⟩ := tests_agree x
  obtain ⟨hytests, -⟩ := tests_agree y
  obtain ⟨visible, hvisible, hfind, hxtest, hxcompare⟩ := hxtests bound hcommit
  obtain ⟨visible', hvisible', -, hytest, hycompare⟩ := hytests bound hcommit
  obtain rfl : visible = visible' := Except.ok.inj (hvisible.symm.trans hvisible')
  have hxvisible : visible x.write = false := Except.ok.inj (hxtest.symm.trans hxfails)
  have hyvisible : visible y.write = false := Except.ok.inj (hytest.symm.trans hyfails)
  obtain ⟨o, ho, hogt, -⟩ := hxcompare hpresent
  obtain ⟨o', ho', hogt', -⟩ := hycompare hpresent
  simp only [hxvisible, hyvisible, Bool.false_eq_true, false_iff, Decidable.not_not] at hogt hogt'
  subst hogt hogt'
  obtain ⟨-, -, htimeline⟩ := hxcommits c
  obtain ⟨hlookup, hgc⟩ := htimeline t
  rw [hc] at hlookup hgc
  refine ⟨x, y, bound, visible, t, c, hx, hy, hc, hbound, ht, hcommit, hpresent, hvisible, ?_,
    hxfails, hxvisible, ho, hyfails, hyvisible, ho', hxcommit, hycommit,
    hc ▸ hlookup ?_, hc ▸ hgc ?_⟩
  · rw [hfind, Timeline.sight, ht]
    simp [Timeline.search, hxvisible, hyvisible]
  · simp [Timeline.isEmpty, ht]
  · simp [Timeline.length, ht]

/-- In a timeline that keeps the writes of all entries a look-up at any stamp that is not a commit
finds the write of the newest entry at or before it. -/
theorem Journal.find_floor? {t : Timeline} {j : Journal} (hcommit : bound.commit? = none)
    (hwrites : t.revisions.map (·.stamp) = j.entries.reverse.map (·.write)) :
    ∃ found, t.find bound = .ok found ∧
    found.map (·.revision.stamp) = (j.floor? bound).map (·.write) := by
  obtain ⟨visible, hvisible⟩ := Stamp.exists_visibility hcommit
  refine ⟨t.sight visible, Timeline.find_eq hvisible, ?_⟩
  have htest : (fun e : Entry => e.atOrBefore bound) = visible ∘ (·.write) :=
    funext fun e => Entry.atOrBefore_eq hvisible e
  calc (t.sight visible).map (·.revision.stamp)
      = (t.revisions.find? (visible ∘ (·.stamp))).map (·.stamp) := by
        rw [← Function.comp_def, ← Option.map_map, Timeline.revision_sight]
        rfl
    _ = (t.revisions.map (·.stamp)).find? visible := List.find?_map.symm
    _ = (j.entries.reverse.find? (visible ∘ (·.write))).map (·.write) := by
      rw [hwrites, List.find?_map]
    _ = (j.floor? bound).map (·.write) := by rw [Journal.floor?, htest]

end Multiversion
