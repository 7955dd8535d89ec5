import Multiversion.Proofs.Comparison
/- The journal's test of its entries, and the loops that make it.

   The test is a comparison of an entry with a bound, and the comparison never fails there
   (`Entry.test_eq`): it has an order for commits among themselves, and for writes with whatever
   bounds writes. So every loop over the journal comes to an end, and what it comes to is told by
   the outcome of the test: a bound is taken from the entries that the search for the newest one at
   or before it has passed (`Journal.snapshotAt_eq_passed`), a reader is answered from all that are
   at or before it (`Journal.filterM_test`), and the journal is trimmed by their first run
   (`Journal.trim_eq`). -/
namespace Multiversion

namespace Entry

variable {e : Entry}

/-- Whether the entry passes the test. -/
def atOrBefore (e : Entry) (bound : Stamp) : Bool :=
  match e.test bound with
  | .ok passes => passes
  | .error _ => false

theorem test_eq (e : Entry) (bound : Stamp) : e.test bound = .ok (e.atOrBefore bound) := by
  cases bound <;> rfl

theorem write_atOrBefore {bound : Stamp} (hpresent : bound.isAbsent = false)
    (hcommit : bound.commit? = none) :
    (Stamp.write e.write).atOrBefore bound = .ok (e.atOrBefore bound) := by
  cases bound with
  | absent => simp [Stamp.isAbsent] at hpresent
  | commit c => simp [Stamp.commit?] at hcommit
  | write w => exact e.test_eq (.write w)
  | snapshot s => exact e.test_eq (.snapshot s)

@[simp] theorem atOrBefore_absent : e.atOrBefore .absent = true := rfl

theorem atOrBefore_commit {c : CommitStamp} :
    e.atOrBefore (.commit c) = true ↔ e.stamp.rank ≤ c.rank :=
  decide_eq_true_iff.trans compare_ne_gt_iff

theorem atOrBefore_write {w : WriteStamp} :
    e.atOrBefore (.write w) = true ↔ e.position ≤ w.position :=
  decide_eq_true_iff.trans compare_ne_gt_iff

theorem atOrBefore_snapshot {s : Snapshot} : e.atOrBefore (.snapshot s) = s.admits e.write := by
  have htest : e.atOrBefore (.snapshot s) = true ↔ s.locate e.write ≠ .gt := decide_eq_true_iff
  rw [Bool.eq_iff_iff, htest, ne_eq, Snapshot.locate_eq_gt_iff, Bool.not_eq_false]

end Entry

namespace Journal

variable {i : Issuer} {j : Journal} {bound : Stamp} {e : Entry} {rest : List Entry}

/-- The entries newer than the newest one at or before the bound, newest first. -/
def passed (j : Journal) (bound : Stamp) : List Entry :=
  j.entries.reverse.takeWhile (!·.atOrBefore bound)

/-- The newest entry at or before the bound. -/
def floor? (j : Journal) (bound : Stamp) : Option Entry :=
  j.entries.reverse.find? (·.atOrBefore bound)

theorem excludeNewer_eq (bound : Stamp) (s : Snapshot) (l : List Entry) : excludeNewer bound s l =
    .ok (l.find? (·.atOrBefore bound), excludeWrites s (l.takeWhile (!·.atOrBefore bound))) := by
  induction l generalizing s with
  | nil => rfl
  | cons e older ih =>
    rw [excludeNewer, e.test_eq, ok_bind, ih]
    cases h : e.atOrBefore bound with
    | true => simp [h, excludeWrites]
    | false => simp [h, excludeWrites_cons]

/-- A bound is the bound of the stamp, with the writes that were passed excluded, pinned to the
newest entry at or before the stamp. -/
theorem snapshotAt_eq_passed (i : Issuer) (j : Journal) (bound : Stamp) : j.snapshotAt i bound = (do
    let s ← (i.toSnapshot bound).mapError .stamp
    return pinTo (excludeWrites s (j.passed bound)) (j.floor? bound)) := by
  simp only [snapshotAt, excludeNewer_eq, mapError_ok, ok_bind, passed, floor?]

theorem filterM_test (bound : Stamp) (l : List Entry) :
    l.filterM (fun e => e.test bound) = .ok (l.filter (·.atOrBefore bound)) := by
  have haux : ∀ acc, l.filterAuxM (fun e => e.test bound) acc =
      .ok ((l.filter (·.atOrBefore bound)).reverse ++ acc) := by
    induction l with
    | nil => exact fun acc => rfl
    | cons e rest ih =>
      intro acc
      rw [List.filterAuxM, e.test_eq, ok_bind, ih]
      cases h : e.atOrBefore bound <;> simp [h]
  rw [List.filterM, haux, ok_bind, List.append_nil, List.reverse_reverse]
  rfl

theorem eligible_eq (bound : Stamp) (l : List Entry) :
    eligible bound l = .ok (l.takeWhile (·.atOrBefore bound)).length := by
  induction l with
  | nil => rfl
  | cons e rest ih =>
    rw [eligible, e.test_eq, ok_bind, ih]
    cases h : e.atOrBefore bound <;> simp [h]

/-- Drop the oldest entry as long as the one after it lies at or before the bound too. -/
def dropOlder (bound : Stamp) : List Entry → List Entry
  | a :: b :: rest =>
    if a.atOrBefore bound && b.atOrBefore bound then dropOlder bound (b :: rest) else a :: b :: rest
  | short => short

/-- Of the leading run of entries at or before a bound the last one stays, and all that follows. -/
theorem dropOlder_eq_drop (bound : Stamp) (l : List Entry) :
    dropOlder bound l = l.drop ((l.takeWhile (·.atOrBefore bound)).length - 1) := by
  fun_induction dropOlder bound l with
  | case1 a b rest hab ih =>
    -- The run goes on behind the first entry, so it is dropped, and one less of the rest.
    obtain ⟨ha, hb⟩ := Bool.and_eq_true_iff.1 hab
    simp only [List.takeWhile_cons, ha, hb, if_true, List.length_cons, Nat.add_sub_cancel] at ih ⊢
    rw [ih, List.drop_succ_cons]
  | case2 a b rest hab =>
    cases ha : a.atOrBefore bound with
    | false => simp [ha]
    | true =>
      have hb : b.atOrBefore bound = false := by simpa [ha] using hab
      simp [ha, hb]
  | case3 l hshort =>
    rcases l with _ | ⟨a, _ | ⟨b, rest⟩⟩
    · simp
    · cases ha : a.atOrBefore bound <;> simp [ha]
    · exact absurd rfl (hshort a b rest)

/-- The journal without the entries that a bound drops. It counts on from there. -/
def dropBehind (j : Journal) (bound : Stamp) : Journal :=
  { j with
    entries := dropOlder bound j.entries
    first := j.first + (j.entries.length - (dropOlder bound j.entries).length) }

theorem exists_head? (h : j.entries ≠ []) : ∃ f, j.head? = some f := by
  cases hl : j.entries.getLast? with
  | none => exact absurd (List.getLast?_eq_none_iff.1 hl) h
  | some f => exact ⟨f, hl⟩

/-- A journal is trimmed unless the bound is absent or its oldest entry is beyond the bound. -/
theorem trim_eq (h : j.entries = e :: rest) : j.trim bound =
    if bound.isAbsent = true ∨ e.atOrBefore bound = false then (.ok none, j)
    else (.ok ((dropOlder bound j.entries).head?.map (·.stamp)), j.dropBehind bound) := by
  obtain ⟨newest, hnewest⟩ := exists_head? (h ▸ List.cons_ne_nil e rest)
  have hdrop := dropOlder_eq_drop bound j.entries
  have hle := (List.takeWhile_prefix (·.atOrBefore bound) (l := j.entries)).length_le
  simp only [trim, head, hnewest, ok_bind, pure_eq_ok, eligible_eq, mapError_ok]
  cases bound.isAbsent with
  | true => simp
  | false =>
    cases hreached : e.atOrBefore bound with
    | false => simp [h, hreached]
    | true =>
      obtain ⟨n, hn⟩ : ∃ n, (j.entries.takeWhile (·.atOrBefore bound)).length = n + 1 :=
        ⟨(rest.takeWhile (·.atOrBefore bound)).length, by simp [h, hreached]⟩
      rw [hn] at hle hdrop
      rw [Nat.add_sub_cancel] at hdrop
      have hforgotten : j.entries.length - (j.entries.length - n) = n := by omega
      simp [hn, hdrop, dropBehind, hforgotten]

theorem trim_empty (h : j.entries = []) : j.trim bound = (.error .notStarted, j) := by
  simp [trim, head, head?, h]

end Journal
end Multiversion
