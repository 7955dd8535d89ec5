import Multiversion.Proofs.Cut
import Multiversion.Proofs.Fallible
/- The laws of the comparison of stamps.

   Two stamps that are exchanged compare the other way round (`Stamp.compare_swap`). Writes are in
   order among themselves, and so are commits. A snapshot is at or after the writes it admits and
   before all others, so it stands in order among writes unless it excludes one and admits a newer
   one (`Snapshot.Skips`). Of three stamps, each before the next, the first is before the last
   exactly if no snapshot among them does that to the others (`Stamp.compare_consistent`);
   `Stamp.compare_skipped` is a case in which one does. -/
namespace Multiversion

namespace Snapshot

variable {s : Snapshot} {w older newer : WriteStamp}

theorem value_le_of_admits (h : s.admits w = true) : w.value ≤ s.value := by
  have hvalue := Position.value_le (admitsAt_iff.1 h).1
  exact hvalue

theorem locate_eq (s : Snapshot) (w : WriteStamp) :
    s.locate w = if s.admits w = true then compare w.value s.value else .gt := by
  have hbeyond : (w.position ∈ s.excluded ∨ s.position < w.position) ↔ ¬ s.admits w = true := by
    rw [admits, admitsAt_iff, Decidable.not_and_iff_not_or_not, Std.not_le,
      Decidable.not_not, or_comm]
  simp only [locate, hbeyond, ite_not]

theorem locate_eq_lt_iff : s.locate w = .lt ↔ s.admits w = true ∧ w.value < s.value := by
  rw [locate_eq]
  split
  · next h => rw [Std.compare_eq_lt, and_iff_right h]
  · next h => simp [h]

theorem locate_eq_gt_iff : s.locate w = .gt ↔ s.admits w = false := by
  rw [locate_eq]
  split
  · next h => simp [h, Std.compare_eq_gt, Std.not_lt.2 (value_le_of_admits h)]
  · next h => simpa using h

/-- The snapshot excludes a write and admits a newer one. -/
structure Skips (s : Snapshot) (older newer : WriteStamp) : Prop where
  excluded : older.position ∈ s.excluded
  lt : older.position < newer.position
  admitted : s.admits newer = true

theorem skips_iff (hlt : older.position < newer.position) (hnewer : s.admits newer = true) :
    s.Skips older newer ↔ s.admits older = false := by
  have hreached : older.position ≤ s.position :=
    Std.le_of_lt (Std.lt_of_lt_of_le hlt (admitsAt_iff.1 hnewer).1)
  have hadmits : s.admits older = true ↔ older.position ∉ s.excluded := by
    rw [admits, admitsAt_iff, and_iff_right hreached]
  rw [Bool.eq_false_iff, ne_eq, hadmits, Decidable.not_not]
  exact ⟨Skips.excluded, fun hexcluded => ⟨hexcluded, hlt, hnewer⟩⟩

end Snapshot

namespace Stamp

variable {a b c : Stamp} {o : Ordering}

theorem atOrAfter_eq_true_iff (h : a.compare b = .ok o) : a.atOrAfter b = .ok true ↔ o ≠ .lt := by
  rw [atOrAfter, h]
  simp

theorem atOrBefore_eq_true_iff (h : a.compare b = .ok o) : a.atOrBefore b = .ok true ↔ o ≠ .gt := by
  rw [atOrBefore, h]
  simp

theorem compare_write_eq_lt_iff {u w : WriteStamp} :
    (write u).compare (write w) = .ok .lt ↔ u.position < w.position := by
  rw [compare, Except.ok.injEq, Std.compare_eq_lt]

theorem compare_commit_eq_lt_iff {c d : CommitStamp} :
    (commit c).compare (commit d) = .ok .lt ↔ c.rank < d.rank := by
  rw [compare, Except.ok.injEq, Std.compare_eq_lt]

theorem compare_write_snapshot_eq_lt_iff {w : WriteStamp} {s : Snapshot} :
    (write w).compare (snapshot s) = .ok .lt ↔ s.admits w = true ∧ w.value < s.value := by
  rw [compare, Except.ok.injEq, Snapshot.locate_eq_lt_iff]

theorem compare_snapshot_write_eq_lt_iff {w : WriteStamp} {s : Snapshot} :
    (snapshot s).compare (write w) = .ok .lt ↔ s.admits w = false := by
  rw [compare, Except.ok.injEq, ← Snapshot.locate_eq_gt_iff, Ordering.swap_eq_lt]

theorem compare_swap (h : a.compare b = .ok o) : b.compare a = .ok o.swap := by
  cases a with
  | absent => cases b <;> cases h <;> rfl
  | write u =>
    cases b with
    | absent => cases h; rfl
    | write w => cases h; exact congrArg Except.ok Std.OrientedOrd.eq_swap
    | snapshot s => cases h; rfl
    | commit c => cases h
  | snapshot s =>
    cases b with
    | absent => cases h; rfl
    | write w => cases h; exact congrArg Except.ok Ordering.swap_swap.symm
    | snapshot s' => cases h
    | commit c => cases h
  | commit c =>
    cases b with
    | absent => cases h; rfl
    | write w => cases h
    | snapshot s => cases h
    | commit d => cases h; exact congrArg Except.ok Std.OrientedOrd.eq_swap

/-- A snapshot among the stamps skips a write among them. -/
def Skipping (l : List Stamp) : Prop :=
  ∃ s older newer, snapshot s ∈ l ∧ write older ∈ l ∧ write newer ∈ l ∧ s.Skips older newer

theorem skipping_iff {l : List Stamp} {s : Snapshot} {older newer : WriteStamp}
    (hlt : older.position < newer.position) (hl : l.Perm [snapshot s, write older, write newer]) :
    Skipping l ↔ s.Skips older newer := by
  constructor
  · rintro ⟨s', u, w, hs, hu, hw, hskips⟩
    rw [hl.mem_iff] at hs hu hw
    simp only [List.mem_cons, snapshot.injEq, write.injEq, reduceCtorEq, List.not_mem_nil,
      or_false, false_or] at hs hu hw
    subst hs
    have huw := hskips.lt
    rcases hu with rfl | rfl
    · rcases hw with rfl | rfl
      · exact absurd huw Std.lt_irrefl
      · exact hskips
    · rcases hw with rfl | rfl
      · exact absurd (Std.lt_trans hlt huw) Std.lt_irrefl
      · exact absurd huw Std.lt_irrefl
  · intro hskips
    exact ⟨s, older, newer, by simp [hl.mem_iff], by simp [hl.mem_iff], by simp [hl.mem_iff],
      hskips⟩

theorem not_skipping_of_not_snapshot {l : List Stamp} (h : ∀ s, snapshot s ∉ l) : ¬ Skipping l :=
  fun ⟨s, _, _, hs, _⟩ => h s hs

theorem not_skipping_absent : ¬ Skipping [absent, b, c] := by
  rintro ⟨s, u, w, hs, hu, hw, hskips⟩
  have hne : write u ≠ write w := fun h => Std.lt_irrefl (write.inj h ▸ hskips.lt)
  simp only [List.mem_cons, reduceCtorEq, List.not_mem_nil, or_false, false_or] at hs hu hw
  grind

theorem write_write_snapshot {u w : WriteStamp} {s : Snapshot} (huw : u.position < w.position)
    (hws : (write w).compare (snapshot s) = .ok .lt) :
    (write u).compare (snapshot s) = .ok .lt ↔ ¬ Skipping [write u, write w, snapshot s] := by
  obtain ⟨hw, hvalue⟩ := compare_write_snapshot_eq_lt_iff.1 hws
  have hle := Position.value_le (Std.le_of_lt huw)
  have hlt : u.value < s.value := Std.lt_of_le_of_lt hle hvalue
  have hperm : [write u, write w, snapshot s].Perm [snapshot s, write u, write w] :=
    @List.perm_append_comm _ [write u, write w] [snapshot s]
  rw [compare_write_snapshot_eq_lt_iff, and_iff_left hlt, skipping_iff huw hperm,
    Snapshot.skips_iff huw hw, Bool.not_eq_false]

/-- Of a write before a snapshot and a write after it the second is the newer one, unless it is
skipped. -/
theorem write_snapshot_write {u w : WriteStamp} {s : Snapshot}
    (hus : (write u).compare (snapshot s) = .ok .lt)
    (hsw : (snapshot s).compare (write w) = .ok .lt) :
    (write u).compare (write w) = .ok .lt ↔ ¬ Skipping [write u, snapshot s, write w] := by
  obtain ⟨hu, -⟩ := compare_write_snapshot_eq_lt_iff.1 hus
  have hw := compare_snapshot_write_eq_lt_iff.1 hsw
  rw [compare_write_eq_lt_iff]
  rcases Std.lt_trichotomy u.position w.position with hlt | heq | hgt
  · rw [skipping_iff hlt (.swap _ _ _)]
    exact iff_of_true hlt fun hskips => (Snapshot.admitsAt_iff.1 hu).2 hskips.excluded
  · have hsame : s.admits u = s.admits w := congrArg s.admitsAt heq
    simp [hu, hw] at hsame
  · have hperm : [write u, snapshot s, write w].Perm [snapshot s, write w, write u] :=
      @List.perm_append_comm _ [write u] [snapshot s, write w]
    rw [skipping_iff hgt hperm, Snapshot.skips_iff hgt hu]
    exact iff_of_false (Std.not_lt.2 (Std.le_of_lt hgt)) (not_not_intro hw)

theorem snapshot_write_write {u w : WriteStamp} {s : Snapshot}
    (hsu : (snapshot s).compare (write u) = .ok .lt) (huw : u.position < w.position) :
    (snapshot s).compare (write w) = .ok .lt ↔ ¬ Skipping [snapshot s, write u, write w] := by
  have hu := compare_snapshot_write_eq_lt_iff.1 hsu
  rw [compare_snapshot_write_eq_lt_iff, skipping_iff huw (.refl _), Bool.eq_false_iff]
  exact not_congr ⟨fun hw => (Snapshot.skips_iff huw hw).2 hu, Snapshot.Skips.admitted⟩

/-- Three stamps, each before the next: the first is before the last, unless a snapshot among them
skips a write. -/
theorem compare_lt_iff (hab : a.compare b = .ok .lt) (hbc : b.compare c = .ok .lt)
    (hac : a.compare c = .ok o) :
    a.compare c = .ok .lt ↔ ¬ Skipping [a, b, c] := by
  cases a with
  | absent =>
    refine iff_of_true ?_ not_skipping_absent
    cases c with
    | absent => cases b <;> cases hbc
    | _ => rfl
  | write u =>
    cases b with
    | absent => cases hab
    | write v =>
      rw [compare_write_eq_lt_iff] at hab
      cases c with
      | absent => cases hbc
      | write w =>
        rw [compare_write_eq_lt_iff] at hbc ⊢
        exact iff_of_true (Std.lt_trans hab hbc) (not_skipping_of_not_snapshot (by simp))
      | snapshot s => exact write_write_snapshot hab hbc
      | commit e => cases hbc
    | snapshot s =>
      cases c with
      | write w => exact write_snapshot_write hab hbc
      | _ => cases hbc
    | commit d => cases hab
  | snapshot s =>
    cases b with
    | write v =>
      cases c with
      | write w => exact snapshot_write_write hab (compare_write_eq_lt_iff.1 hbc)
      | snapshot s' => cases hac
      | _ => cases hbc
    | _ => cases hab
  | commit d =>
    cases b with
    | commit e =>
      cases c with
      | commit f =>
        rw [compare_commit_eq_lt_iff] at hab hbc ⊢
        exact iff_of_true (Std.lt_trans hab hbc) (not_skipping_of_not_snapshot (by simp))
      | _ => cases hbc
    | _ => cases hab

/-- Two stamps compare the one way exactly if exchanged they compare the other way. Of three stamps
that all compare, each before the next, the first is before the last exactly if no snapshot among
them skips a write among them; so it is if there is no snapshot, or one that excludes nothing,
wherever that is pinned. -/
theorem compare_consistent (a b c : Stamp) :
    (∀ o, a.compare b = .ok o ↔ b.compare a = .ok o.swap) ∧
    ∀ o, a.compare b = .ok .lt → b.compare c = .ok .lt → a.compare c = .ok o →
    (o = .lt ↔ ¬ Skipping [a, b, c]) := by
  constructor
  · intro o
    refine ⟨compare_swap, fun h => ?_⟩
    have hback := compare_swap h
    rwa [Ordering.swap_swap] at hback
  · intro o hab hbc hac
    rw [← compare_lt_iff hab hbc hac, hac, Except.ok.injEq]

/-- A pinned snapshot between a write before it and one after its pin, which excludes a third
write. -/
theorem compare_consistent_pinned : ∃ a b c : Stamp, a = .write ⟨1, 1, 0⟩ ∧
    b = .snapshot { view := 1, value := 5, pin := some 2, excluded := .ofList [⟨3, 0⟩] } ∧
    c = .write ⟨1, 5, 3⟩ ∧
    a.compare b = .ok .lt ∧ b.compare c = .ok .lt ∧ a.compare c = .ok .lt ∧ b.compare a = .ok .gt ∧
    ¬ Skipping [a, b, c] := by
  obtain ⟨a, b, c, ha, hb, hc, hab, hbc, hac⟩ : ∃ a b c : Stamp, a = .write ⟨1, 1, 0⟩ ∧
      b = .snapshot { view := 1, value := 5, pin := some 2, excluded := .ofList [⟨3, 0⟩] } ∧
      c = .write ⟨1, 5, 3⟩ ∧
      a.compare b = .ok .lt ∧ b.compare c = .ok .lt ∧ a.compare c = .ok .lt :=
    ⟨_, _, _, rfl, rfl, rfl, compare_write_snapshot_eq_lt_iff.2 (by decide +kernel),
      compare_snapshot_write_eq_lt_iff.2 (by decide +kernel),
      compare_write_eq_lt_iff.2 (by decide +kernel)⟩
  refine ⟨a, b, c, ha, hb, hc, hab, hbc, hac, ?_, ?_⟩
  · exact ((compare_consistent a b c).1 .lt).1 hab
  · exact ((compare_consistent a b c).2 .lt hab hbc hac).1 rfl

/-- A write is before a newer one, and that is before a snapshot, but the snapshot excludes the
first write: it is after the snapshot. -/
theorem compare_skipped : ∃ a b c : Stamp, a = .write ⟨1, 3, 0⟩ ∧ b = .write ⟨1, 4, 0⟩ ∧
    c = .snapshot { view := 1, value := 5, excluded := .ofList [⟨3, 0⟩] } ∧
    a.compare b = .ok .lt ∧ b.compare c = .ok .lt ∧ a.compare c = .ok .gt :=
  ⟨_, _, _, rfl, rfl, rfl, compare_write_eq_lt_iff.2 (by decide +kernel),
    compare_write_snapshot_eq_lt_iff.2 (by decide +kernel),
    congrArg Except.ok (Snapshot.locate_eq_gt_iff.2 (by decide +kernel))⟩

end Stamp
end Multiversion
