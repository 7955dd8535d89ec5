import Multiversion.Proofs.Cut
import Multiversion.Proofs.Timelines
/- What a look-up finds, and what a new write changes of it.

   A look-up finds the newest of the revisions that the stamp admits (`Timeline.IsNewest`), and it
   is valid until the oldest of those that are newer (`Timeline.ValidUntil`). That follows from
   where the search stops: at the first revision that is admitted, below some that are not
   (`Timeline.split_of_sight`). A write goes on top of the timeline or in place of its newest
   revision, or is refused. If the stamp does not admit the write, then a new revision on top ends
   the validity of the one below it, and a look-up finds nothing else
   (`Timeline.lookup_and_insert`). -/
namespace Multiversion

/-- The bound a stamp puts on single writes: an absent stamp puts none, and below a commit there are
no single writes. -/
def Stamp.Admits : Stamp → WriteStamp → Prop
  | absent, _ => True
  | write b, w => w.position ≤ b.position
  | snapshot s, w => w.position ≤ s.position ∧ w.position ∉ s.excluded
  | commit _, _ => False

instance (v : Stamp) (w : WriteStamp) : Decidable (v.Admits w) :=
  match v with
  | .absent => inferInstanceAs (Decidable True)
  | .write b => inferInstanceAs (Decidable (w.position ≤ b.position))
  | .snapshot s => inferInstanceAs (Decidable (w.position ≤ s.position ∧ w.position ∉ s.excluded))
  | .commit _ => inferInstanceAs (Decidable False)

theorem Stamp.admits_iff {v : Stamp} {visible : WriteStamp → Bool} (h : v.visibility = .ok visible)
    {w : WriteStamp} :
    visible w = true ↔ v.Admits w := by
  cases v with
  | absent => cases h; simp [Admits]
  | write b => cases h; simp [Admits]
  | snapshot s => cases h; exact Snapshot.admitsAt_iff
  | commit c => cases h

theorem Stamp.exists_visibility {v : Stamp} (h : v.commit? = none) :
    ∃ visible, v.visibility = .ok visible := by
  cases v with
  | commit c => cases h
  | _ => exact ⟨_, rfl⟩

/-- What was found in a timeline, once a write is on top that the look-up does not see: the newest
revision is valid until the write, and every other one as long as before. -/
def Sighting.coveredBy (found : Sighting) (newest : Option Revision) (w : WriteStamp) : Sighting :=
  if newest = some found.revision then { found with validUntil := some w } else found

namespace Timeline

/-- The newest of the revisions that the stamp admits. -/
structure IsNewest (t : Timeline) (asOf : Stamp) (r : Revision) : Prop where
  mem : r ∈ t.revisions
  admitted : asOf.Admits r.stamp
  le : ∀ q ∈ t.revisions, asOf.Admits q.stamp → q.position ≤ r.position

/-- The next revision after a place: the oldest of the newer ones. -/
structure IsNext (t : Timeline) (p : Position) (q : Revision) : Prop where
  mem : q ∈ t.revisions
  newer : p < q.position
  le : ∀ u ∈ t.revisions, p < u.position → q.position ≤ u.position

/-- What is at a place is valid until the next revision, and for good if there is none. -/
def ValidUntil (t : Timeline) (p : Position) : Option WriteStamp → Prop
  | none => ∀ u ∈ t.revisions, u.position ≤ p
  | some w => ∃ q, t.IsNext p q ∧ q.stamp = w

/-- What a look-up at a stamp has to find. -/
def Shows (t : Timeline) (asOf : Stamp) : Option Sighting → Prop
  | none => ∀ r ∈ t.revisions, ¬ asOf.Admits r.stamp
  | some found =>
    t.IsNewest asOf found.revision ∧ t.ValidUntil found.revision.position found.validUntil ∧
      ∀ w ∈ found.validUntil, ¬ asOf.Admits w

variable {t : Timeline} {asOf : Stamp} {r q : Revision} {above below : List Revision}
  {visible : WriteStamp → Bool} {newer : Option WriteStamp} {l : List Revision} {found : Sighting}

/-- A search stops at the first revision that passes the test, and the one above it is the end of
its validity. -/
theorem split_of_search (h : search visible newer l = some found) : ∃ above below,
    l = above ++ found.revision :: below ∧ (∀ q ∈ above, visible q.stamp = false) ∧
      visible found.revision.stamp = true ∧
      found.validUntil = (above.getLast?.map (·.stamp)).or newer := by
  induction l generalizing newer with
  | nil => cases h
  | cons r older ih =>
    rw [search] at h
    split at h
    · next hr =>
      cases h
      exact ⟨[], older, rfl, by simp, hr, rfl⟩
    · next hr =>
      obtain ⟨above, below, hsplit, habove, hfound, huntil⟩ := ih h
      refine ⟨r :: above, below, by rw [hsplit, List.cons_append], ?_, hfound, ?_⟩
      · exact List.forall_mem_cons.2 ⟨by simpa using hr, habove⟩
      · rw [huntil, List.getLast?_cons]
        cases above.getLast? <;> rfl

theorem split_of_sight (h : t.sight visible = some found) : ∃ above below,
    t.revisions = above ++ found.revision :: below ∧ (∀ q ∈ above, visible q.stamp = false) ∧
      visible found.revision.stamp = true ∧ found.validUntil = above.getLast?.map (·.stamp) := by
  obtain ⟨above, below, hsplit, habove, hfound, huntil⟩ := split_of_search h
  exact ⟨above, below, hsplit, habove, hfound, by rw [huntil, Option.or_none]⟩

theorem mem_above_iff (h : t.revisions = above ++ r :: below) (hq : q ∈ t.revisions) :
    (q ∈ above ↔ r.position < q.position) ∧ (q ∈ below ↔ q.position < r.position) := by
  have hdecreasing := t.decreasing
  rw [h] at hdecreasing hq
  obtain ⟨-, hbelow, hacross⟩ := List.pairwise_append.1 hdecreasing
  have hnewer : q ∈ above → r.position < q.position := fun hq => hacross q hq r List.mem_cons_self
  have holder : q ∈ below → q.position < r.position := (List.pairwise_cons.1 hbelow).1 q
  rw [List.mem_append, List.mem_cons] at hq
  refine ⟨⟨hnewer, fun hlt => ?_⟩, holder, fun hlt => ?_⟩
  · rcases hq with hq | rfl | hq
    · exact hq
    · exact absurd hlt Std.lt_irrefl
    · exact absurd (Std.lt_trans hlt (holder hq)) Std.lt_irrefl
  · rcases hq with hq | rfl | hq
    · exact absurd (Std.lt_trans hlt (hnewer hq)) Std.lt_irrefl
    · exact absurd hlt Std.lt_irrefl
    · exact hq

theorem validUntil_of_split (h : t.revisions = above ++ r :: below) :
    t.ValidUntil r.position (above.getLast?.map (·.stamp)) := by
  cases hlast : above.getLast? with
  | none =>
    obtain rfl := List.getLast?_eq_none_iff.1 hlast
    exact fun u hu => Std.not_lt.1 fun hlt => List.not_mem_nil ((mem_above_iff h hu).1.2 hlt)
  | some q =>
    obtain ⟨init, rfl⟩ := List.getLast?_eq_some_iff.1 hlast
    have hsplit : t.revisions = init ++ q :: (r :: below) := by rw [h, List.append_assoc]; rfl
    have hq : q ∈ t.revisions := by rw [hsplit]; simp
    refine ⟨q, ⟨hq, (mem_above_iff h hq).1.1 (by simp), fun u hu hlt => ?_⟩, rfl⟩
    rcases List.mem_append.1 ((mem_above_iff h hu).1.2 hlt) with hinit | hlast
    · exact Std.le_of_lt ((mem_above_iff hsplit hu).1.1 hinit)
    · obtain rfl := List.mem_singleton.1 hlast
      exact Std.le_refl _

theorem shows_sight (h : asOf.visibility = .ok visible) : t.Shows asOf (t.sight visible) := by
  cases hs : t.sight visible with
  | none =>
    intro r hr
    rw [← Stamp.admits_iff h, search_eq_none_iff.1 hs r hr]
    exact Bool.false_ne_true
  | some found =>
    obtain ⟨above, below, hsplit, habove, hfound, huntil⟩ := split_of_sight hs
    have hnot : ∀ q ∈ above, ¬ asOf.Admits q.stamp := by
      intro q hq
      rw [← Stamp.admits_iff h, habove q hq]
      exact Bool.false_ne_true
    refine ⟨⟨by simp [hsplit], (Stamp.admits_iff h).1 hfound, fun q hq hadmitted => ?_⟩, ?_, ?_⟩
    · exact Std.not_lt.1 fun hlt => hnot q ((mem_above_iff hsplit hq).1.2 hlt) hadmitted
    · rw [huntil]
      exact validUntil_of_split hsplit
    · intro w hw
      rw [huntil, Option.mem_def, Option.map_eq_some_iff] at hw
      obtain ⟨q, hq, rfl⟩ := hw
      exact hnot q (List.mem_of_getLast? hq)

theorem insert_newer (h : ∀ q ∈ t.newest?, q.position < r.position) :
    ∃ t', t.insert r = (.ok .newest, t') ∧
    t'.revisions = r :: t.revisions ∧ t'.trimmed = t.trimmed := by
  unfold insert
  split
  · next hl => exact ⟨_, rfl, by simp [hl], rfl⟩
  · next newest older hl =>
    have hlt : newest.position < r.position := h newest (by simp [newest?, hl])
    rw [dif_pos hlt]
    exact ⟨_, rfl, by simp [hl], rfl⟩

theorem insert_same (h : t.newest? = some q) (heq : r.position = q.position) :
    ∃ t', t.insert r = (.ok .replaced, t') ∧
    t'.revisions = r :: t.revisions.tail ∧ t'.trimmed = t.trimmed := by
  unfold insert
  split
  · next hl => simp [newest?, hl] at h
  · next newest older hl =>
    obtain rfl : newest = q := by simpa [newest?, hl] using h
    rw [dif_neg (heq ▸ Std.lt_irrefl), dif_pos heq]
    exact ⟨_, rfl, by simp [hl], rfl⟩

theorem insert_older (h : t.newest? = some q) (hlt : r.position < q.position) :
    t.insert r = (.error ⟨q.stamp, r.stamp⟩, t) := by
  unfold insert
  split
  · next hl => simp [newest?, hl] at h
  · next newest older hl =>
    obtain rfl : newest = q := by simpa [newest?, hl] using h
    rw [dif_neg (Std.not_lt.2 (Std.le_of_lt hlt)), dif_neg fun heq => Std.lt_irrefl (heq ▸ hlt)]

/-- Below a revision that does not pass the test a search finds what it finds without it. Only the
newest revision of what is below is then valid until there. -/
theorem search_below (w : WriteStamp) :
    search visible (some w) l = (search visible none l).map (·.coveredBy l.head? w) := by
  cases l with
  | nil => rfl
  | cons r older =>
    rw [search, search]
    split
    · simp [Sighting.coveredBy]
    · next hr =>
      cases hs : search visible (some r.stamp) older with
      | none => rfl
      | some found =>
        have hne : r ≠ found.revision := fun heq => hr (heq ▸ (mem_of_search hs).2)
        simp [Sighting.coveredBy, hne]

theorem sight_covered {t' : Timeline} (h : t'.revisions = r :: t.revisions)
    (hr : visible r.stamp = false) :
    t'.sight visible = (t.sight visible).map (·.coveredBy t.newest? r.stamp) := by
  rw [sight, h, search, if_neg (by simp [hr]), search_below]
  rfl

/-- Look a timeline up, however it was made, at any stamp that is not a commit. Among the revisions
that the stamp admits the newest one is found, valid until the oldest of the newer ones, which the
stamp does not admit; or nothing is found if it admits none. A write that is newer than all
revisions goes on top, and if the stamp does not admit it, then the same is found, only that what
was the newest revision is valid until the write. A write at the place of the newest revision takes
just its place. An older write is refused, and leaves the timeline as it is. -/
theorem lookup_and_insert (t : Timeline) (asOf : Stamp) (h : asOf.commit? = none) : ∃ found,
    t.find asOf = .ok found ∧ t.Shows asOf found ∧ ∀ r : Revision,
      ((∀ q ∈ t.newest?, q.position < r.position) → ∃ t', t.insert r = (.ok .newest, t') ∧
        t'.revisions = r :: t.revisions ∧ t'.trimmed = t.trimmed ∧
        (¬ asOf.Admits r.stamp → t'.find asOf = .ok (found.map (·.coveredBy t.newest? r.stamp)))) ∧
      ∀ q, t.newest? = some q →
        (r.position = q.position → ∃ t', t.insert r = (.ok .replaced, t') ∧
          t'.revisions = r :: t.revisions.tail ∧
          t'.trimmed = t.trimmed) ∧
        (r.position < q.position → t.insert r = (.error ⟨q.stamp, r.stamp⟩, t)) := by
  obtain ⟨visible, hvisible⟩ := Stamp.exists_visibility h
  refine ⟨t.sight visible, find_eq hvisible, shows_sight hvisible,
    fun r => ⟨fun hnewer => ?_, fun q hq => ?_⟩⟩
  · obtain ⟨t', hinsert, hrevisions, htrimmed⟩ := insert_newer hnewer
    refine ⟨t', hinsert, hrevisions, htrimmed, fun hnot => ?_⟩
    have hr : visible r.stamp = false :=
      Bool.eq_false_iff.2 fun hr => hnot ((Stamp.admits_iff hvisible).1 hr)
    rw [find_eq hvisible, sight_covered hrevisions hr]
  · exact ⟨insert_same hq, insert_older hq⟩

/-- A snapshot is pinned to the newest revision. A later write of the same commit value goes on top,
and the snapshot still finds that revision, now valid until the write; it does not find the
write. -/
theorem lookup_and_insert_pinned : ∃ (t t' : Timeline) (asOf : Stamp) (b r : Revision),
    b = ⟨⟨1, 2, 0⟩, some "b", none⟩ ∧ r = ⟨⟨1, 2, 1⟩, some "c", none⟩ ∧
    t.revisions = [b, ⟨⟨1, 1, 0⟩, some "a", none⟩] ∧
    asOf = .snapshot { view := 1, value := 2, pin := some 0 } ∧
    asOf.commit? = none ∧ t.find asOf = .ok (some ⟨b, none⟩) ∧
    (∀ q ∈ t.newest?, q.position < r.position) ∧
    ¬ asOf.Admits r.stamp ∧ t.insert r = (.ok .newest, t') ∧
    t'.find asOf = .ok (some ⟨b, some r.stamp⟩) := by
  obtain ⟨t, ht⟩ : ∃ t : Timeline, t =
    ⟨[⟨⟨1, 2, 0⟩, some "b", none⟩, ⟨⟨1, 1, 0⟩, some "a", none⟩], by decide, false⟩ := ⟨_, rfl⟩
  have hfound : t.find (.snapshot { view := 1, value := 2, pin := some 0 }) =
      .ok (some ⟨⟨⟨1, 2, 0⟩, some "b", none⟩, none⟩) := by
    rw [find_snapshot, ht]
    exact congrArg Except.ok (by decide +kernel)
  have hnewer : ∀ q ∈ t.newest?, q.position < (⟨1, 2, 1⟩ : WriteStamp).position := by
    rw [ht]
    decide
  have hnot : ¬ Stamp.Admits (.snapshot { view := 1, value := 2, pin := some 0 }) ⟨1, 2, 1⟩ := by
    decide
  obtain ⟨found, hfind, -, hwrite⟩ :=
    lookup_and_insert t (.snapshot { view := 1, value := 2, pin := some 0 }) rfl
  obtain ⟨t', hinsert, -, -, hafter⟩ := (hwrite ⟨⟨1, 2, 1⟩, some "c", none⟩).1 hnewer
  obtain rfl := Except.ok.inj (hfind.symm.trans hfound)
  refine ⟨t, t', _, _, _, rfl, rfl, by rw [ht], rfl, rfl, hfound, hnewer, hnot, hinsert, ?_⟩
  rw [hafter hnot, ht]
  rfl

end Timeline
end Multiversion
