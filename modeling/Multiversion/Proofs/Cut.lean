import Multiversion.Issuer.Merge
import Multiversion.Journal.Bound
/- What a snapshot admits.

   A snapshot cuts history at a place if it admits exactly the writes up to that place
   (`Snapshot.CutsAt`). The bound of a new transaction does, and everything a transaction does to
   its bound keeps it so: excluding and merging in writes that lie beyond the cut changes nothing
   that is admitted. The lesser of two snapshots admits what both admit
   (`admitsAt_ofSnapshots_least`), which is why a collection bounded by it is safe for both. -/
namespace Multiversion

namespace Position

theorem le_maxValue (v : Int64) : v ≤ Int64.maxValue := Int64.le_iff_toInt_le.2 v.toInt_le

theorem le_last (v : Int64) (sub : Int32) : (⟨v, sub⟩ : Position) ≤ ⟨v, Int32.maxValue⟩ :=
  le_iff.2 (.inr ⟨rfl, Int32.le_iff_toInt_le.2 sub.toInt_le⟩)

theorem value_le {p q : Position} (h : p ≤ q) : p.value ≤ q.value := by
  rcases le_iff.1 h with h | ⟨h, -⟩
  · exact Std.le_of_lt h
  · exact Std.le_of_eq h

theorem le_last_iff {p : Position} {v : Int64} : p ≤ ⟨v, Int32.maxValue⟩ ↔ p.value ≤ v := by
  constructor
  · intro h
    have hvalue := value_le h
    exact hvalue
  · intro h
    obtain ⟨value, sub⟩ := p
    rcases Std.le_iff_lt_or_eq.1 h with hlt | rfl
    · exact le_iff.2 (.inl hlt)
    · exact le_last value sub

end Position

theorem Rank.value_le {p q : Rank} (h : p ≤ q) : p.value ≤ q.value := by
  rcases le_iff.1 h with h | ⟨h, -⟩
  · exact Std.le_of_lt h
  · exact Std.le_of_eq h

section Order

variable {α : Type} [LE α] [LT α] [Ord α] [Std.LawfulOrderOrd α] [Std.LawfulOrderLT α] {a b : α}

theorem compare_ne_gt_iff : compare a b ≠ .gt ↔ a ≤ b := by
  rw [ne_eq, Std.compare_eq_gt, Std.not_lt]

theorem compare_ne_lt_iff : compare a b ≠ .lt ↔ b ≤ a := by
  rw [ne_eq, Std.compare_eq_lt, Std.not_lt]

end Order

theorem Stamp.atOrAfter_commit {a b : CommitStamp} :
    (Stamp.commit a).atOrAfter (.commit b) = .ok (decide (b.rank ≤ a.rank)) :=
  congrArg Except.ok (decide_eq_decide.2 compare_ne_lt_iff)

namespace Snapshot

/-- The snapshot admits exactly the writes up to the place: it reaches there, and excludes nothing
before. -/
structure CutsAt (s : Snapshot) (p : Position) : Prop where
  position_eq : s.position = p
  excluded_gt : ∀ q ∈ s.excluded, p < q

variable {s t : Snapshot} {p q : Position}

theorem admitsAt_iff : s.admitsAt q = true ↔ q ≤ s.position ∧ q ∉ s.excluded := by
  simp [admitsAt]

theorem CutsAt.admitsAt_iff (h : s.CutsAt p) : s.admitsAt q = true ↔ q ≤ p := by
  rw [Snapshot.admitsAt_iff, h.position_eq, and_iff_left_iff_imp]
  intro hq hx
  exact Std.not_le_of_gt (h.excluded_gt q hx) hq

theorem CutsAt.admits_iff (h : s.CutsAt p) {w : WriteStamp} : s.admits w = true ↔ w.position ≤ p :=
  h.admitsAt_iff

@[simp] theorem position_moveTo (s : Snapshot) (p : Position) : (s.moveTo p).position = p := by
  obtain ⟨v, sub⟩ := p
  simp only [moveTo, position]
  split <;> simp_all

end Snapshot

namespace Extreme
open Snapshot

variable {s t : Snapshot} {p q : Position}

@[simp] theorem position_ofSnapshots (e : Extreme) (s t : Snapshot) :
    (e.ofSnapshots s t).position = e.pick s.position t.position :=
  position_moveTo s (e.pick s.position t.position)

@[simp] theorem mem_excluded_ofSnapshots (e : Extreme) :
    q ∈ (e.ofSnapshots s t).excluded ↔ q ∈ s.excluded ∨ q ∈ t.excluded :=
  OrderedSet.mem_union

@[simp] theorem view_ofSnapshots (e : Extreme) (s t : Snapshot) :
    (e.ofSnapshots s t).view = max s.view t.view := rfl

/-- Of two snapshots the lesser admits what both admit. -/
theorem admitsAt_ofSnapshots_least :
    (least.ofSnapshots s t).admitsAt q = true ↔ s.admitsAt q = true ∧ t.admitsAt q = true := by
  rw [admitsAt_iff, admitsAt_iff, admitsAt_iff, position_ofSnapshots, mem_excluded_ofSnapshots]
  have hmin : q ≤ least.pick s.position t.position ↔ q ≤ s.position ∧ q ≤ t.position :=
    Std.le_min_iff
  rw [hmin, not_or, and_and_and_comm]

/-- Raising a snapshot by one that reaches no further, and excludes nothing before the cut, leaves
the cut alone. -/
theorem cutsAt_ofSnapshots_greatest (hs : s.CutsAt p) (ht : t.position ≤ p)
    (hx : ∀ q ∈ t.excluded, p < q) :
    (greatest.ofSnapshots s t).CutsAt p where
  position_eq := by
    rw [position_ofSnapshots, hs.position_eq]
    have h : max p t.position ≤ p := Std.max_le_iff.2 ⟨Std.le_refl p, ht⟩
    exact Std.le_antisymm h (Std.max_le_iff.1 (Std.le_refl _)).1
  excluded_gt q hq := by
    rcases (mem_excluded_ofSnapshots greatest).1 hq with h | h
    · exact hs.excluded_gt q h
    · exact hx q h

end Extreme

namespace Journal
open Snapshot

variable {s : Snapshot} {q : Position}

/-- Exclude the writes of the given entries that the bound's value would admit. -/
def excludeWrites (s : Snapshot) (newer : List Entry) : Snapshot :=
  newer.foldl (fun s e => if e.stamp.value ≤ s.value then s.exclude e.position else s) s

theorem excludeWrites_cons (s : Snapshot) (e : Entry) (rest : List Entry) :
    excludeWrites s (e :: rest) =
      excludeWrites (if e.stamp.value ≤ s.value then s.exclude e.position else s) rest :=
  rfl

theorem excludeWrites_eq (s : Snapshot) (newer : List Entry) :
    excludeWrites s newer = { s with excluded := (excludeWrites s newer).excluded } := by
  induction newer generalizing s with
  | nil => rfl
  | cons e rest ih =>
    rw [excludeWrites_cons, ih]
    split <;> rfl

theorem mem_excludeWrites {newer : List Entry} :
    q ∈ (excludeWrites s newer).excluded ↔
      q ∈ s.excluded ∨ ∃ e ∈ newer, e.stamp.value ≤ s.value ∧ q = e.position := by
  induction newer generalizing s with
  | nil => simp [excludeWrites]
  | cons e rest ih =>
    rw [excludeWrites_cons, ih]
    split
    · next h => simp [Snapshot.exclude, h, or_assoc, or_left_comm]
    · next h => simp [h]

theorem excluded_pinTo (s : Snapshot) (f : Option Entry) : (pinTo s f).excluded = s.excluded := by
  cases f with
  | none => rfl
  | some e => rw [pinTo]; split <;> rfl

theorem view_pinTo (s : Snapshot) (f : Option Entry) : (pinTo s f).view = s.view := by
  cases f with
  | none => rfl
  | some e => rw [pinTo]; split <;> rfl

/-- A pin at an entry brings the bound to the entry's own place, and only if the bound had no
pin. -/
theorem position_pinTo (s : Snapshot) (f : Option Entry) :
    (pinTo s f).position = s.position ∨
      ∃ e, f = some e ∧ s.pin = none ∧ e.stamp.value = s.value ∧
      (pinTo s f).position = e.position := by
  cases f with
  | none => exact .inl rfl
  | some e =>
    rw [pinTo]
    split
    · next h =>
      refine .inr ⟨e, rfl, h.1, h.2, ?_⟩
      simp [Snapshot.position, Entry.position, Entry.write, CommitStamp.write,
        WriteStamp.position, h.2]
    · exact .inl rfl

theorem position_pinTo_le (s : Snapshot) (f : Option Entry) :
    (pinTo s f).position ≤ s.position := by
  rcases position_pinTo s f with h | ⟨e, -, hpin, hv, h⟩
  · exact h ▸ Std.le_refl _
  · rw [h, Snapshot.position, hpin, ← hv]
    exact Position.le_last e.stamp.value e.sub

end Journal
end Multiversion
