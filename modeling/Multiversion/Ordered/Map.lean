import Multiversion.Ordered.Place
/- Finite maps kept as lists of pairs with strictly increasing keys.

   Listing a map lists its entries in the order of their keys. A key looks up a value exactly when
   the pair is an entry (`get?_eq_some_iff`); from that follow `get?_insert`, `get?_erase`,
   `get?_mapValues`, and `ext`: a map is determined by what its keys look up. -/
namespace Multiversion
open Ordered

/-- A finite map from keys of a linear order, listed from the least key to the greatest. -/
structure OrderedMap (κ α : Type) [LT κ] where
  entries : List (κ × α)
  increasing : entries.Pairwise (fun a b => a.1 < b.1)

namespace OrderedMap

variable {κ α β : Type} [LT κ]

theorem entries_inj {m n : OrderedMap κ α} : m.entries = n.entries ↔ m = n :=
  ⟨fun h => by cases m; cases n; cases h; rfl, congrArg entries⟩

instance [DecidableEq κ] [DecidableEq α] : DecidableEq (OrderedMap κ α) :=
  fun _ _ => decidable_of_iff _ entries_inj

/-- The map without entries. -/
def empty : OrderedMap κ α := ⟨[], .nil⟩

instance : Inhabited (OrderedMap κ α) := ⟨empty⟩

/-- The number of entries. -/
def size (m : OrderedMap κ α) : Nat := m.entries.length

/-- The keys, in order. -/
def keys (m : OrderedMap κ α) : List κ := m.entries.map Prod.fst

/-- The values, in the order of their keys. -/
def values (m : OrderedMap κ α) : List α := m.entries.map Prod.snd

/-- Apply a function to every value. -/
def mapValues (f : α → β) (m : OrderedMap κ α) : OrderedMap κ β :=
  ⟨m.entries.map fun e => (e.1, f e.2), List.pairwise_map.2 m.increasing⟩

/-- Keep the entries that pass the test. -/
def filter (keep : κ → α → Bool) (m : OrderedMap κ α) : OrderedMap κ α :=
  ⟨m.entries.filter fun e => keep e.1 e.2, m.increasing.filter _⟩

section Lookup

variable [DecidableEq κ]

/-- The value of a key. -/
def get? (m : OrderedMap κ α) (k : κ) : Option α := (m.entries.find? fun e => e.1 = k).map Prod.snd

/-- Whether the map has an entry for the key. -/
def contains (m : OrderedMap κ α) (k : κ) : Bool := (m.get? k).isSome

/-- Drop the entry of a key. -/
def erase (m : OrderedMap κ α) (k : κ) : OrderedMap κ α := m.filter fun j _ => j ≠ k

@[simp] theorem get?_empty (k : κ) : (empty : OrderedMap κ α).get? k = none := rfl

variable [LE κ] [Std.IsLinearOrder κ] [Std.LawfulOrderLT κ]

/-- A key looks up a value exactly when the pair is an entry. -/
theorem get?_eq_some_iff {m : OrderedMap κ α} {k : κ} {a : α} :
    m.get? k = some a ↔ (k, a) ∈ m.entries := by
  obtain ⟨l, hl⟩ := m
  simp only [get?, Option.map_eq_some_iff]
  induction l with
  | nil => simp
  | cons e rest ih =>
    have ⟨he, hr⟩ := List.pairwise_cons.1 hl
    by_cases hk : e.1 = k
    · rw [List.find?_cons_of_pos (by simpa using hk), List.mem_cons]
      constructor
      · rintro ⟨f, hf, rfl⟩
        cases hf
        exact .inl (by rw [← hk])
      · rintro (rfl | h)
        · exact ⟨_, rfl, rfl⟩
        · have := he _ h; grind
    · rw [List.find?_cons_of_neg (by simpa using hk), ih hr, List.mem_cons]
      exact ⟨.inr, fun h => h.resolve_left fun h => hk (by rw [← h])⟩

/-- A map is determined by what its keys look up. -/
theorem ext {m n : OrderedMap κ α} (h : ∀ k, m.get? k = n.get? k) : m = n :=
  entries_inj.1 (eq_of_mem_iff m.increasing n.increasing fun e => by
    rw [← get?_eq_some_iff, ← get?_eq_some_iff, h])

theorem get?_filter (m : OrderedMap κ α) (keep : κ → α → Bool) (k : κ) :
    (m.filter keep).get? k = (m.get? k).filter (keep k) := by
  ext a
  rw [get?_eq_some_iff, Option.filter_eq_some_iff, get?_eq_some_iff]
  exact List.mem_filter

theorem get?_erase (m : OrderedMap κ α) (k j : κ) :
    (m.erase k).get? j = if j = k then none else m.get? j := by
  rw [erase, get?_filter]
  cases m.get? j with
  | none => simp
  | some a => by_cases h : j = k <;> simp [h]

@[simp] theorem get?_mapValues (m : OrderedMap κ α) (f : α → β) (k : κ) :
    (m.mapValues f).get? k = (m.get? k).map f := by
  ext b
  simp only [get?_eq_some_iff, Option.map_eq_some_iff, mapValues, List.mem_map, Prod.mk.injEq]
  exact ⟨fun ⟨e, he, hk, hb⟩ => ⟨e.2, hk ▸ he, hb⟩, fun ⟨a, ha, hb⟩ => ⟨(k, a), ha, rfl, hb⟩⟩

end Lookup

variable [LE κ] [DecidableLT κ] [Std.IsLinearOrder κ] [Std.LawfulOrderLT κ]

/-- Set the value of a key. -/
def insert (m : OrderedMap κ α) (k : κ) (a : α) : OrderedMap κ α :=
  ⟨place Prod.fst (k, a) m.entries, increasing_place m.increasing⟩

theorem insert_ne_nil (m : OrderedMap κ α) (k : κ) (a : α) : (m.insert k a).entries ≠ [] :=
  place_ne_nil _ _ _

/-- The map of a list of entries; of two entries with one key the later counts. -/
def ofList (l : List (κ × α)) : OrderedMap κ α := l.foldl (fun m e => m.insert e.1 e.2) empty

theorem get?_insert [DecidableEq κ] (m : OrderedMap κ α) (k j : κ) (a : α) :
    (m.insert k a).get? j = if j = k then some a else m.get? j := by
  ext b
  rw [get?_eq_some_iff]
  refine (mem_place m.increasing).trans ?_
  split
  · next h => subst h; simp [eq_comm]
  · next h => rw [get?_eq_some_iff]; simp [h]

theorem mapValues_insert [DecidableEq κ] (m : OrderedMap κ α) (f : α → β) (k : κ) (a : α) :
    (m.insert k a).mapValues f = (m.mapValues f).insert k (f a) := by
  apply ext
  intro j
  rw [get?_mapValues, get?_insert, get?_insert, get?_mapValues]
  split <;> rfl

theorem foldl_insert [DecidableEq κ] (m : OrderedMap κ α) (f : α → α) :
    m.entries.foldl (fun n e => n.insert e.1 (f e.2)) m = m.mapValues f := by
  have hget : ∀ l : List (κ × α), l.Pairwise (fun a b => a.1 < b.1) →
      ∀ (n : OrderedMap κ α) (k : κ),
      (l.foldl (fun n e => n.insert e.1 (f e.2)) n).get? k =
        ((l.find? fun e => e.1 = k).map fun e => f e.2).or (n.get? k) := by
    intro l hl
    induction l with
    | nil => exact fun n k => rfl
    | cons e rest ih =>
      intro n k
      obtain ⟨he, hrest⟩ := List.pairwise_cons.1 hl
      rw [List.foldl_cons, ih hrest, get?_insert]
      by_cases hk : e.1 = k
      · have hnone : rest.find? (fun e => e.1 = k) = none := by
          refine List.find?_eq_none.2 fun a ha hak => ?_
          have hlt := he a ha
          rw [hk, of_decide_eq_true hak] at hlt
          exact Std.lt_irrefl hlt
        simp [hk, hnone]
      · simp [hk, Ne.symm hk]
  apply ext
  intro k
  rw [hget m.entries m.increasing, get?_mapValues, get?]
  cases m.entries.find? (fun e => e.1 = k) <;> simp

end OrderedMap
end Multiversion
