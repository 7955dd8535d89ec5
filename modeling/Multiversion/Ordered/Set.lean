import Multiversion.Ordered.Place
/- Finite sets kept as strictly increasing lists.

   The list is the set's only representation, so two sets with the same members are equal
   (`OrderedSet.ext`), and listing a set lists its members in order. Main statements: `mem_insert`,
   `mem_union`, `mem_ofList`. -/
namespace Multiversion
open Ordered

/-- A finite set of values of a linear order, listed from the least member to the greatest. -/
structure OrderedSet (α : Type) [LT α] where
  toList : List α
  increasing : toList.Pairwise (· < ·)

namespace OrderedSet

variable {α : Type} [LT α]

theorem toList_inj {s t : OrderedSet α} : s.toList = t.toList ↔ s = t :=
  ⟨fun h => by cases s; cases t; cases h; rfl, congrArg toList⟩

instance [DecidableEq α] : DecidableEq (OrderedSet α) := fun _ _ => decidable_of_iff _ toList_inj

/-- The set without members. -/
def empty : OrderedSet α := ⟨[], .nil⟩

instance : Inhabited (OrderedSet α) := ⟨empty⟩

instance : Membership α (OrderedSet α) := ⟨fun s x => x ∈ s.toList⟩

instance [DecidableEq α] (x : α) (s : OrderedSet α) : Decidable (x ∈ s) :=
  inferInstanceAs (Decidable (x ∈ s.toList))

@[simp] theorem not_mem_empty (x : α) : ¬ x ∈ (empty : OrderedSet α) := List.not_mem_nil

/-- Whether the set has no members. -/
def isEmpty (s : OrderedSet α) : Bool := s.toList.isEmpty

variable [LE α] [DecidableLT α] [Std.IsLinearOrder α] [Std.LawfulOrderLT α]

/-- Add a member. -/
def insert (s : OrderedSet α) (x : α) : OrderedSet α :=
  ⟨place (fun y => y) x s.toList, increasing_place s.increasing⟩

@[simp] theorem mem_insert {s : OrderedSet α} {x y : α} : y ∈ s.insert x ↔ y = x ∨ y ∈ s := by
  refine (mem_place s.increasing).trans ⟨fun h => h.imp id And.left, fun h => ?_⟩
  exact (Classical.em (y = x)).imp id fun hne => ⟨h.resolve_left hne, hne⟩

/-- Add every value of a list. -/
def insertAll (s : OrderedSet α) (l : List α) : OrderedSet α := l.foldl insert s

@[simp] theorem mem_insertAll {s : OrderedSet α} {l : List α} {y : α} :
    y ∈ s.insertAll l ↔ y ∈ s ∨ y ∈ l := by
  induction l generalizing s with
  | nil => simp [insertAll]
  | cons x rest ih =>
    show y ∈ (s.insert x).insertAll rest ↔ _
    rw [ih, mem_insert, List.mem_cons, or_assoc, or_left_comm]

/-- The members of both sets. -/
def union (s t : OrderedSet α) : OrderedSet α := s.insertAll t.toList

@[simp] theorem mem_union {s t : OrderedSet α} {y : α} : y ∈ s.union t ↔ y ∈ s ∨ y ∈ t :=
  mem_insertAll

/-- The set of the values of a list. -/
def ofList (l : List α) : OrderedSet α := empty.insertAll l

@[simp] theorem mem_ofList {l : List α} {y : α} : y ∈ ofList l ↔ y ∈ l := by simp [ofList]

omit [DecidableLT α] in
/-- A set is determined by its members. -/
theorem ext {s t : OrderedSet α} (h : ∀ x, x ∈ s ↔ x ∈ t) : s = t :=
  toList_inj.1 (eq_of_mem_iff s.increasing t.increasing h)

end OrderedSet
end Multiversion
