import Multiversion.Proofs.Comparison
import Multiversion.Proofs.Lookup
/- When an answer is the most recent one, and what validation says of that.

   An answer gives a write, and says whether that is the newest of its key. Validation at the stamp
   that the key was read at looks at the newest write alone. Both come down to whether the revision
   that was found has others above it (`Store.validate_eq_ok_iff`, `Answer.mostRecent_iff`). They
   part where no write was found: then the answer takes itself for the most recent one, but if the
   key has writes, and the stamp admits none of them, validation fails (`Store.most_recent_iff`).
   `Store.most_recent_unseen` is such a read. -/
namespace Multiversion

namespace Answer

/-- The answer of a revision is the most recent one if there is nothing above the revision. -/
theorem mostRecent_iff {found : Sighting} {above : List Revision}
    (h : found.validUntil = above.getLast?.map (·.stamp)) :
    (ofSighting found).mostRecent = true ↔ above = [] := by
  show found.validUntil.isNone = true ↔ _
  rw [h, Option.isNone_iff_eq_none, Option.map_eq_none_iff, List.getLast?_eq_none_iff]

theorem exists_next {t : Timeline} {found : Sighting}
    (hvalid : t.ValidUntil found.revision.position found.validUntil)
    (hnot : (ofSighting found).mostRecent = false) :
    ∃ next, t.IsNext found.revision.position next ∧
    (ofSighting found).validUntil = some (.write next.stamp) := by
  obtain ⟨r, validUntil⟩ := found
  cases validUntil with
  | none => exact absurd hnot.symm Bool.false_ne_true
  | some w =>
    obtain ⟨next, hnext, rfl⟩ := hvalid
    exact ⟨next, hnext, rfl⟩

end Answer

namespace Store

variable {s : Store} {k : Key} {asOf : Stamp} {visible : WriteStamp → Bool} {ans : Answer}

theorem validate_nil (h : (s.timeline k).revisions = []) : s.validate k asOf = .ok () := by
  rw [validate, Timeline.newest?, h]
  rfl

theorem validate_cons {r : Revision} {older : List Revision}
    (hvisible : asOf.visibility = .ok visible) (h : (s.timeline k).revisions = r :: older) :
    s.validate k asOf = .ok () ↔ visible r.stamp = true := by
  rw [validate, Timeline.newest?, h, hvisible]
  show (if visible r.stamp = true then _ else _) = _ ↔ _
  split
  · next hr => exact iff_of_true rfl hr
  · next hr =>
    refine iff_of_false ?_ hr
    rintro ⟨⟩

/-- A key validates if the newest revision that the stamp admits has none above it. -/
theorem validate_eq_ok_iff {r : Revision} {above below : List Revision}
    (hvisible : asOf.visibility = .ok visible)
    (hsplit : (s.timeline k).revisions = above ++ r :: below)
    (habove : ∀ q ∈ above, visible q.stamp = false) (hr : visible r.stamp = true) :
    s.validate k asOf = .ok () ↔ above = [] := by
  cases above with
  | nil => exact iff_of_true ((validate_cons hvisible hsplit).2 hr) rfl
  | cons q rest =>
    rw [validate_cons hvisible hsplit, habove q List.mem_cons_self]
    exact iff_of_false Bool.false_ne_true (List.cons_ne_nil q rest)

theorem get_eq_ok (hvisible : asOf.visibility = .ok visible) (h : s.get k asOf = .ok ans) :
    ans = ((s.timeline k).sight visible).elim .notFound .ofSighting := by
  rw [get_eq hvisible] at h
  cases hs : (s.timeline k).sight visible with
  | some found =>
    rw [hs] at h
    exact (Except.ok.inj h).symm
  | none =>
    rw [hs] at h
    dsimp only at h
    split at h
    · cases h
    · exact (Except.ok.inj h).symm

/-- Nothing that was written is newer than the answer. -/
def Latest (s : Store) (k : Key) (ans : Answer) : Prop :=
  ∀ r ∈ (s.timeline k).revisions, ans.creation.compare (.write r.stamp) ≠ .ok .lt

theorem latest_notFound_iff : s.Latest k .notFound ↔ (s.timeline k).revisions = [] := by
  rw [List.eq_nil_iff_forall_not_mem]
  exact forall_congr' fun r => ⟨fun h hr => h hr rfl, fun h hr => absurd hr h⟩

theorem latest_ofSighting_iff {found : Sighting} {above below : List Revision}
    (hsplit : (s.timeline k).revisions = above ++ found.revision :: below) :
    s.Latest k (.ofSighting found) ↔ above = [] := by
  rw [List.eq_nil_iff_forall_not_mem]
  constructor
  · intro hlatest q hq
    have hmem : q ∈ (s.timeline k).revisions := by simp [hsplit, hq]
    exact hlatest q hmem (Stamp.compare_write_eq_lt_iff.2
      ((Timeline.mem_above_iff hsplit hmem).1.1 hq))
  · intro hnone q hq hlt
    exact hnone q ((Timeline.mem_above_iff hsplit hq).1.2 (Stamp.compare_write_eq_lt_iff.1 hlt))

/-- Read a key at any stamp that is not a commit, and get an answer. Validation at the stamp
succeeds exactly if no write of the key is newer than the answer. The answer says the same, except
where it found no write although the key has some; there it says that it is the most recent one, and
valid for good. Whenever it says that it is not, it is valid until the next newer write. -/
theorem most_recent_iff (s : Store) (k : Key) (asOf : Stamp) (ans : Answer)
    (hasOf : asOf.commit? = none) (h : s.get k asOf = .ok ans) :
    (s.validate k asOf = .ok () ↔ s.Latest k ans) ∧
    ((ans.mostRecent = true ↔ s.validate k asOf = .ok ()) ↔
      (ans.isNotFound = true → (s.timeline k).revisions = [])) ∧
    (ans.isNotFound = true → ans.mostRecent = true ∧ ans.validUntil = none) ∧
    (ans.mostRecent = false → ∃ w next, ans.creation = .write w ∧
      (s.timeline k).IsNext w.position next ∧
      ans.validUntil = some (.write next.stamp)) := by
  obtain ⟨visible, hvisible⟩ := Stamp.exists_visibility hasOf
  obtain rfl := get_eq_ok hvisible h
  cases hs : (s.timeline k).sight visible with
  | none =>
    have hvalidate : s.validate k asOf = .ok () ↔ (s.timeline k).revisions = [] := by
      cases hrevisions : (s.timeline k).revisions with
      | nil => exact iff_of_true (validate_nil hrevisions) rfl
      | cons r older =>
        have hr := Timeline.search_eq_none_iff.1 hs r (hrevisions ▸ List.mem_cons_self)
        rw [validate_cons hvisible hrevisions, hr]
        exact iff_of_false Bool.false_ne_true (List.cons_ne_nil r older)
    rw [Option.elim_none]
    refine ⟨hvalidate.trans latest_notFound_iff.symm, ?_, fun _ => ⟨rfl, rfl⟩, ?_⟩
    · rw [hvalidate]
      exact ⟨fun hagrees _ => hagrees.1 rfl, fun hnil => iff_of_true rfl (hnil rfl)⟩
    · exact fun hnot => absurd hnot.symm Bool.false_ne_true
  | some found =>
    obtain ⟨above, below, hsplit, habove, hfound, huntil⟩ := Timeline.split_of_sight hs
    have hvalidate := validate_eq_ok_iff hvisible hsplit habove hfound
    have hrecent := Answer.mostRecent_iff huntil
    have hpresent : (Answer.ofSighting found).isNotFound ≠ true := Bool.false_ne_true
    rw [Option.elim_some]
    refine ⟨hvalidate.trans (latest_ofSighting_iff hsplit).symm, ?_,
      fun hnot => absurd hnot hpresent, fun hnot => ?_⟩
    · exact iff_of_true (hrecent.trans hvalidate.symm) fun hnot => absurd hnot hpresent
    · have hvalid := Timeline.validUntil_of_split hsplit
      rw [← huntil] at hvalid
      obtain ⟨next, hnext, hvalidUntil⟩ := Answer.exists_next hvalid hnot
      exact ⟨found.revision.stamp, next, rfl, hnext, hvalidUntil⟩

/-- A snapshot excludes the newest write of a key. The answer is the write below it, valid until
that one, and the key does not validate. -/
theorem most_recent_iff_excluded : ∃ (s : Store) (asOf : Stamp) (ans : Answer),
    (s.timeline "k").revisions = [⟨⟨1, 3, 0⟩, some "b", none⟩, ⟨⟨1, 2, 0⟩, some "a", none⟩] ∧
    asOf = .snapshot { view := 1, value := 3, excluded := .ofList [⟨3, 0⟩] } ∧ asOf.commit? = none ∧
    s.get "k" asOf = .ok ans ∧ ans.value = some "a" ∧ ans.mostRecent = false ∧
    ans.validUntil = some (.write ⟨1, 3, 0⟩) ∧ s.validate "k" asOf ≠ .ok () ∧
    ¬ s.Latest "k" ans := by
  obtain ⟨s, asOf, ans, hs, hasOf, hans, hget⟩ : ∃ (s : Store) (asOf : Stamp) (ans : Answer),
      s = ⟨.ofList [("k", ⟨[⟨⟨1, 3, 0⟩, some "b", none⟩, ⟨⟨1, 2, 0⟩, some "a", none⟩],
        by decide, false⟩)]⟩ ∧
      asOf = .snapshot { view := 1, value := 3, excluded := .ofList [⟨3, 0⟩] } ∧
      ans = .ofWrite (some "a") ⟨1, 2, 0⟩ (some ⟨1, 3, 0⟩) ∧ s.get "k" asOf = .ok ans :=
    ⟨_, _, _, rfl, rfl, rfl, rfl⟩
  have hkind : asOf.commit? = none := by rw [hasOf]; rfl
  obtain ⟨hvalidate, hagrees, -, -⟩ := most_recent_iff s "k" asOf ans hkind hget
  have hsame : ans.mostRecent = true ↔ s.validate "k" asOf = .ok () :=
    hagrees.2 (by rw [hans]; exact fun h => absurd h Bool.false_ne_true)
  have hnot : ¬ s.validate "k" asOf = .ok () := by
    rw [← hsame, hans]
    exact Bool.false_ne_true
  refine ⟨s, asOf, ans, by rw [hs]; rfl, hasOf, hkind, hget, ?_, ?_, ?_, hnot, mt hvalidate.2 hnot⟩
  all_goals rw [hans]; rfl

/-- A key is written once, and read at a snapshot from before that. The answer finds no write, and
says that it is the most recent one and valid for good; but the key has been overwritten since, as
validation says. -/
theorem most_recent_unseen : ∃ (s : Store) (asOf : Stamp) (ans : Answer),
    Store.empty.put "k" ⟨⟨1, 2, 0⟩, some "x", none⟩ = (.ok .newest, s) ∧
    asOf = .snapshot { view := 1, value := 1 } ∧ s.get "k" asOf = .ok ans ∧ ans.mostRecent = true ∧
    ans.validUntil = none ∧ s.validate "k" asOf = .error (.conflict (Text.quote "k")) :=
  ⟨_, _, _, rfl, rfl, rfl, rfl, rfl, rfl⟩

end Store
end Multiversion
