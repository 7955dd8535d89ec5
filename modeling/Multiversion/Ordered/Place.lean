/- Lists whose elements have strictly increasing keys.

   Such a list is determined by its members (`eq_of_mem_iff`). `place` puts an element where its key
   belongs, over an element that has the same key already (`mem_place`). -/
namespace Multiversion.Ordered

variable {α κ : Type} [LT κ] [DecidableLT κ]

/-- Put an element where its key belongs, in place of an element with the same key. -/
def place (key : α → κ) (x : α) : List α → List α
  | [] => [x]
  | y :: rest =>
    if key x < key y then x :: y :: rest
    else if key y < key x then y :: place key x rest
    else x :: rest

theorem place_ne_nil (key : α → κ) (x : α) (l : List α) : place key x l ≠ [] := by
  cases l with
  | nil => exact List.cons_ne_nil x []
  | cons y rest => rw [place]; split <;> (try split) <;> exact List.cons_ne_nil _ _

variable [LE κ] [Std.IsLinearOrder κ] [Std.LawfulOrderLT κ] {key : α → κ}

/-- The members afterwards: the element, and what had another key. -/
theorem mem_place {x y : α} {l : List α} (hl : l.Pairwise (key · < key ·)) :
    y ∈ place key x l ↔ y = x ∨ (y ∈ l ∧ key y ≠ key x) := by
  induction l with
  | nil => simp [place]
  | cons z rest ih =>
    have ⟨hz, hr⟩ := List.pairwise_cons.1 hl
    have hne : ∀ w ∈ rest, key w ≠ key z := fun w hw e => by have := hz w hw; grind
    rw [place]
    split
    · next hlt =>
      have : ∀ w ∈ z :: rest, key w ≠ key x := fun w hw e => by
        rcases List.mem_cons.1 hw with rfl | hw
        · grind
        · have := hz w hw; grind
      rw [List.mem_cons]
      exact or_congr_right ⟨fun h => ⟨h, this y h⟩, And.left⟩
    · split
      · next hgt =>
        rw [List.mem_cons, ih hr, List.mem_cons]
        constructor
        · rintro (rfl | rfl | ⟨hy, hk⟩)
          · exact .inr ⟨.inl rfl, by grind⟩
          · exact .inl rfl
          · exact .inr ⟨.inr hy, hk⟩
        · rintro (rfl | ⟨rfl | hy, hk⟩)
          · exact .inr (.inl rfl)
          · exact .inl rfl
          · exact .inr (.inr ⟨hy, hk⟩)
      · next h₁ h₂ =>
        have hk : key x = key z := by grind
        rw [List.mem_cons, List.mem_cons]
        constructor
        · rintro (rfl | hy)
          · exact .inl rfl
          · exact .inr ⟨.inr hy, hk ▸ hne y hy⟩
        · rintro (rfl | ⟨rfl | hy, hother⟩)
          · exact .inl rfl
          · exact absurd hk.symm hother
          · exact .inr hy

theorem increasing_place {x : α} {l : List α} (hl : l.Pairwise (key · < key ·)) :
    (place key x l).Pairwise (key · < key ·) := by
  induction l with
  | nil => exact List.pairwise_singleton _ x
  | cons z rest ih =>
    have ⟨hz, hr⟩ := List.pairwise_cons.1 hl
    rw [place]
    split
    · next hlt =>
      refine List.pairwise_cons.2 ⟨fun w hw => ?_, hl⟩
      rcases List.mem_cons.1 hw with rfl | hw
      · exact hlt
      · exact Std.lt_trans hlt (hz w hw)
    · split
      · next hgt =>
        refine List.pairwise_cons.2 ⟨fun w hw => ?_, ih hr⟩
        rcases (mem_place hr).1 hw with rfl | ⟨hw, _⟩
        · exact hgt
        · exact hz w hw
      · next h₁ h₂ =>
        have hk : key z = key x := by grind
        exact List.pairwise_cons.2 ⟨fun w hw => hk ▸ hz w hw, hr⟩

omit [DecidableLT κ] in
/-- A list with strictly increasing keys is determined by its members. -/
theorem eq_of_mem_iff {l m : List α} (hl : l.Pairwise (key · < key ·))
    (hm : m.Pairwise (key · < key ·)) (h : ∀ x, x ∈ l ↔ x ∈ m) : l = m := by
  induction l generalizing m with
  | nil => exact (List.eq_nil_iff_forall_not_mem.2 fun x hx => nomatch (h x).2 hx).symm
  | cons x l ih =>
    cases m with
    | nil => exact nomatch (h x).1 List.mem_cons_self
    | cons y m =>
      have ⟨hx, hl'⟩ := List.pairwise_cons.1 hl
      have ⟨hy, hm'⟩ := List.pairwise_cons.1 hm
      have hxy : x = y := by
        rcases List.mem_cons.1 ((h x).1 List.mem_cons_self) with e | e
        · exact e
        · rcases List.mem_cons.1 ((h y).2 List.mem_cons_self) with f | f
          · exact f.symm
          · have := hx y f; have := hy x e; grind
      subst hxy
      refine congrArg (x :: ·) (ih hl' hm' fun z => ⟨fun hz => ?_, fun hz => ?_⟩)
      · rcases List.mem_cons.1 ((h z).1 (List.mem_cons_of_mem _ hz)) with rfl | hz'
        · have := hx z hz; grind
        · exact hz'
      · rcases List.mem_cons.1 ((h z).2 (List.mem_cons_of_mem _ hz)) with rfl | hz'
        · have := hy z hz; grind
        · exact hz'

end Multiversion.Ordered
