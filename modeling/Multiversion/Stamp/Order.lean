/- The two orders of commit history.

   Single writes are placed by commit value and sub-version, commits by commit value and view id.
   Both orders are lexicographic and linear. -/
namespace Multiversion

/-- The place of one write in commit history: its commit value, then its sub-version. -/
structure Position where
  value : Int64
  sub : Int32
deriving DecidableEq, Inhabited, Repr

namespace Position

instance : LT Position := ⟨fun p q => p.value < q.value ∨ (p.value = q.value ∧ p.sub < q.sub)⟩
instance : LE Position := ⟨fun p q => p.value < q.value ∨ (p.value = q.value ∧ p.sub ≤ q.sub)⟩

theorem lt_iff {p q : Position} : p < q ↔ p.value < q.value ∨ (p.value = q.value ∧ p.sub < q.sub) :=
  Iff.rfl

theorem le_iff {p q : Position} : p ≤ q ↔ p.value < q.value ∨ (p.value = q.value ∧ p.sub ≤ q.sub) :=
  Iff.rfl

instance : DecidableLT Position := fun p q =>
  inferInstanceAs (Decidable (p.value < q.value ∨ (p.value = q.value ∧ p.sub < q.sub)))

instance : DecidableLE Position := fun p q =>
  inferInstanceAs (Decidable (p.value < q.value ∨ (p.value = q.value ∧ p.sub ≤ q.sub)))

instance : Std.IsLinearOrder Position where
  le_refl p := by simp only [le_iff]; grind
  le_trans p q r := by simp only [le_iff]; grind
  le_antisymm p q := by
    obtain ⟨a, b⟩ := p; obtain ⟨c, d⟩ := q
    simp only [le_iff, Position.mk.injEq]; grind
  le_total p q := by simp only [le_iff]; grind

instance : Std.LawfulOrderLT Position where
  lt_iff p q := by simp only [lt_iff, le_iff]; grind

instance : Ord Position := ⟨fun p q => compareOfLessAndEq p q⟩

instance : Std.LawfulOrderOrd Position where
  isLE_compare _ _ := isLE_compareOfLessAndEq Std.le_antisymm Std.not_le fun _ _ => Std.le_total
  isGE_compare _ _ := isGE_compareOfLessAndEq Std.le_antisymm Std.not_le fun _ _ => Std.le_total

instance : Max Position := maxOfLe
instance : Min Position := minOfLe

instance : Std.LawfulOrderMax Position where
  max_le_iff p q r := by show (if p ≤ q then q else p) ≤ r ↔ _; split <;> grind
  max_eq_or p q := by
    show (if p ≤ q then q else p) = p ∨ (if p ≤ q then q else p) = q
    split <;> simp

end Position

/-- The place of a commit in commit history: its commit value, then the view it was agreed in. -/
structure Rank where
  value : Int64
  view : Nat
deriving DecidableEq, Inhabited, Repr

namespace Rank

instance : LT Rank := ⟨fun p q => p.value < q.value ∨ (p.value = q.value ∧ p.view < q.view)⟩
instance : LE Rank := ⟨fun p q => p.value < q.value ∨ (p.value = q.value ∧ p.view ≤ q.view)⟩

theorem lt_iff {p q : Rank} : p < q ↔ p.value < q.value ∨ (p.value = q.value ∧ p.view < q.view) :=
  Iff.rfl

theorem le_iff {p q : Rank} : p ≤ q ↔ p.value < q.value ∨ (p.value = q.value ∧ p.view ≤ q.view) :=
  Iff.rfl

instance : DecidableLT Rank := fun p q =>
  inferInstanceAs (Decidable (p.value < q.value ∨ (p.value = q.value ∧ p.view < q.view)))

instance : DecidableLE Rank := fun p q =>
  inferInstanceAs (Decidable (p.value < q.value ∨ (p.value = q.value ∧ p.view ≤ q.view)))

instance : Std.IsLinearOrder Rank where
  le_refl p := by simp only [le_iff]; grind
  le_trans p q r := by simp only [le_iff]; grind
  le_antisymm p q := by
    obtain ⟨a, b⟩ := p; obtain ⟨c, d⟩ := q
    simp only [le_iff, Rank.mk.injEq]; grind
  le_total p q := by simp only [le_iff]; grind

instance : Std.LawfulOrderLT Rank where
  lt_iff p q := by simp only [lt_iff, le_iff]; grind

instance : Ord Rank := ⟨fun p q => compareOfLessAndEq p q⟩

instance : Std.LawfulOrderOrd Rank where
  isLE_compare _ _ := isLE_compareOfLessAndEq Std.le_antisymm Std.not_le fun _ _ => Std.le_total
  isGE_compare _ _ := isGE_compareOfLessAndEq Std.le_antisymm Std.not_le fun _ _ => Std.le_total

instance : Max Rank := maxOfLe
instance : Min Rank := minOfLe

instance : Std.LawfulOrderMax Rank where
  max_le_iff p q r := by show (if p ≤ q then q else p) ≤ r ↔ _; split <;> grind
  max_eq_or p q := by
    show (if p ≤ q then q else p) = p ∨ (if p ≤ q then q else p) = q
    split <;> simp

end Rank
end Multiversion
