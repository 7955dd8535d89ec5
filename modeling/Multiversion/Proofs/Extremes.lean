import Multiversion.Proofs.Cut
/- The extremes that stamps merge into.

   The furthest of some places is one of them, and all others are behind it
   (`Extreme.fold_pick_eq_some_iff`). So it does not depend on their order or repetition
   (`Extreme.fold_pick_congr`), nor on whether they are taken in groups
   (`Extreme.fold_pick_flatten`). Writes merge into one of the furthest (`Extreme.isFurthest_fold`).
   Snapshots merge part by part (`Extreme.isMerged_fold`): into the furthest of their places and the
   newest of their views, with all of their exclusions. The least of them therefore admits what all
   of them admit (`Extreme.IsMerged.admitsAt_least`), but the greatest of them only those writes
   that one of them admits and none excludes (`Extreme.IsMerged.admitsAt_greatest`). -/
namespace Multiversion.Extreme

/-- The first is as far to this end as the second. -/
def Reaches {α : Type} [LE α] : Extreme → α → α → Prop
  | greatest, a, b => b ≤ a
  | least, a, b => a ≤ b

theorem fold_eq_none_iff {α : Type} {combine : α → α → α} {l : List α} :
    fold combine l = none ↔ l = [] := by
  cases l <;> simp [fold]

theorem exists_fold {α : Type} {l : List α} (combine : α → α → α) (hl : l ≠ []) :
    ∃ a, fold combine l = some a :=
  Option.ne_none_iff_exists'.1 (mt fold_eq_none_iff.1 hl)

theorem fold_map {α β : Type} {f : α → β} {combine : α → α → α} {combine' : β → β → β}
    (hf : ∀ a b, combine' (f a) (f b) = f (combine a b)) (l : List α) :
    fold combine' (l.map f) = (fold combine l).map f := by
  cases l with
  | nil => rfl
  | cons a rest =>
    rw [List.map_cons, fold, fold, List.foldl_map, Option.map_some]
    exact congrArg some (List.foldl_hom f hf)

section Linear

variable {α : Type} [Max α] [Min α] [LE α] [Std.IsLinearOrder α] [Std.LawfulOrderMax α]
  [Std.LawfulOrderMin α] {e : Extreme} {a b c : α} {l l' : List α}

omit [Max α] [Min α] [Std.LawfulOrderMax α] [Std.LawfulOrderMin α] in
theorem Reaches.trans (h : e.Reaches a b) (h' : e.Reaches b c) : e.Reaches a c := by
  cases e with
  | greatest => exact Std.le_trans (a := c) (b := b) h' h
  | least => exact Std.le_trans (a := a) (b := b) h h'

omit [Max α] [Min α] [Std.LawfulOrderMax α] [Std.LawfulOrderMin α] in
theorem Reaches.antisymm (h : e.Reaches a b) (h' : e.Reaches b a) : a = b := by
  cases e with
  | greatest => exact Std.le_antisymm (a := a) (b := b) h' h
  | least => exact Std.le_antisymm (a := a) (b := b) h h'

/-- The furthest of a list is one of it that reaches all others. -/
theorem fold_pick_eq_some_iff : fold e.pick l = some a ↔ a ∈ l ∧ ∀ b ∈ l, e.Reaches a b := by
  cases e with
  | greatest =>
    have hmax : fold greatest.pick l = l.max? := by cases l <;> rfl
    rw [hmax]
    exact List.max?_eq_some_iff
  | least =>
    have hmin : fold least.pick l = l.min? := by cases l <;> rfl
    rw [hmin]
    exact List.min?_eq_some_iff

/-- The furthest of a list depends only on what is in it. -/
theorem fold_pick_congr (h : ∀ a, a ∈ l ↔ a ∈ l') : fold e.pick l = fold e.pick l' := by
  apply Option.ext
  intro a
  rw [fold_pick_eq_some_iff, fold_pick_eq_some_iff, h]
  simp only [h]

/-- Groups may be settled first. -/
theorem fold_pick_flatten (groups : List (List α)) :
    fold e.pick (groups.filterMap (fold e.pick)) = fold e.pick groups.flatten := by
  apply Option.ext
  intro a
  rw [fold_pick_eq_some_iff, fold_pick_eq_some_iff]
  simp only [List.mem_filterMap, List.mem_flatten]
  constructor
  · rintro ⟨⟨g, hg, ha⟩, hall⟩
    refine ⟨⟨g, hg, (fold_pick_eq_some_iff.1 ha).1⟩, ?_⟩
    rintro b ⟨g', hg', hb⟩
    obtain ⟨top, htop⟩ := exists_fold e.pick (List.ne_nil_of_mem hb)
    exact (hall top ⟨g', hg', htop⟩).trans ((fold_pick_eq_some_iff.1 htop).2 b hb)
  · rintro ⟨⟨g, hg, ha⟩, hall⟩
    obtain ⟨top, htop⟩ := exists_fold e.pick (List.ne_nil_of_mem ha)
    obtain ⟨hmem, hreaches⟩ := fold_pick_eq_some_iff.1 htop
    obtain rfl : a = top := (hall top ⟨g, hg, hmem⟩).antisymm (hreaches a ha)
    refine ⟨⟨g, hg, htop⟩, ?_⟩
    rintro b ⟨g', hg', hb⟩
    exact hall b ⟨g', hg', (fold_pick_eq_some_iff.1 hb).1⟩

end Linear

section Writes

variable {e : Extreme} {w : WriteStamp} {l : List WriteStamp}

theorem ofWrites_eq_or (e : Extreme) (a b : WriteStamp) :
    e.ofWrites a b = a ∨ e.ofWrites a b = b := by
  cases e <;> rw [ofWrites] <;> split <;> simp

theorem position_ofWrites (e : Extreme) (a b : WriteStamp) :
    e.pick a.position b.position = (e.ofWrites a b).position := by
  apply Option.some.inj
  show fold e.pick [a.position, b.position] = _
  rw [fold_pick_eq_some_iff]
  cases e with
  | greatest =>
    rw [ofWrites]
    split
    · next h => simp [Reaches, Std.le_of_lt h]
    · next h => simp [Reaches, Std.not_lt.1 h]
  | least =>
    rw [ofWrites]
    split
    · next h => simp [Reaches, Std.le_of_lt h]
    · next h => simp [Reaches, Std.not_lt.1 h]

/-- Writes merge into one of them, at the furthest of their places. -/
theorem isFurthest_fold (h : fold e.ofWrites l = some w) :
    w ∈ l ∧ ∀ u ∈ l, e.Reaches w.position u.position := by
  constructor
  · cases l with
    | nil => cases h
    | cons a rest =>
      obtain rfl := Option.some.inj h
      clear h
      induction rest generalizing a with
      | nil => exact List.mem_cons_self
      | cons b rest ih =>
        rw [List.foldl_cons]
        rcases List.mem_cons.1 (ih (e.ofWrites a b)) with heq | hmem
        · rw [heq]
          rcases e.ofWrites_eq_or a b with heq | heq <;> rw [heq] <;> simp
        · exact List.mem_cons_of_mem _ (List.mem_cons_of_mem _ hmem)
  · have hplace : fold e.pick (l.map WriteStamp.position) = some w.position := by
      rw [fold_map e.position_ofWrites, h, Option.map_some]
    intro u hu
    exact (fold_pick_eq_some_iff.1 hplace).2 _ (List.mem_map_of_mem hu)

end Writes

section Snapshots

variable {e : Extreme} {s s' : Snapshot} {l l' : List Snapshot} {q : Position}

/-- A snapshot that some others merge into. -/
structure IsMerged (e : Extreme) (s : Snapshot) (l : List Snapshot) : Prop where
  position_eq : fold e.pick (l.map Snapshot.position) = some s.position
  view_eq : fold greatest.pick (l.map Snapshot.view) = some s.view
  mem_excluded : ∀ q, q ∈ s.excluded ↔ ∃ t ∈ l, q ∈ t.excluded

theorem isMerged_fold (h : fold e.ofSnapshots l = some s) : e.IsMerged s l where
  position_eq := by rw [fold_map fun a b => (e.position_ofSnapshots a b).symm, h, Option.map_some]
  view_eq := by
    have hview (a b : Snapshot) : greatest.pick a.view b.view = (e.ofSnapshots a b).view :=
      (e.view_ofSnapshots a b).symm
    rw [fold_map hview, h, Option.map_some]
  mem_excluded q := by
    cases l with
    | nil => cases h
    | cons a rest =>
      obtain rfl := Option.some.inj h
      clear h
      induction rest generalizing a with
      | nil => simp
      | cons b rest ih =>
        rw [List.foldl_cons, ih]
        simp only [List.mem_cons, or_and_right, exists_or, exists_eq_left,
          mem_excluded_ofSnapshots, or_assoc]

namespace IsMerged

theorem reaches (h : e.IsMerged s l) {t : Snapshot} (ht : t ∈ l) :
    e.Reaches s.position t.position :=
  (fold_pick_eq_some_iff.1 h.position_eq).2 _ (List.mem_map_of_mem ht)

theorem exists_position (h : e.IsMerged s l) : ∃ t ∈ l, t.position = s.position :=
  List.mem_map.1 (fold_pick_eq_some_iff.1 h.position_eq).1

theorem exists_view (h : e.IsMerged s l) : ∃ t ∈ l, t.view = s.view :=
  List.mem_map.1 (fold_pick_eq_some_iff.1 h.view_eq).1

theorem view_le (h : e.IsMerged s l) {t : Snapshot} (ht : t ∈ l) : t.view ≤ s.view :=
  (fold_pick_eq_some_iff.1 h.view_eq).2 _ (List.mem_map_of_mem ht)

/-- What snapshots merge into depends only on which of them there are, but for how a pin at the last
sub-version is written. -/
theorem congr (h : e.IsMerged s l) (h' : e.IsMerged s' l') (hsame : ∀ t, t ∈ l ↔ t ∈ l') :
    s'.position = s.position ∧ s'.view = s.view ∧ s'.excluded = s.excluded := by
  have hmap {β : Type} (f : Snapshot → β) (b : β) : b ∈ l.map f ↔
      b ∈ l'.map f := by simp only [List.mem_map, hsame]
  refine ⟨?_, ?_, ?_⟩
  · have hplace := fold_pick_congr (e := e) (hmap Snapshot.position)
    rw [h.position_eq, h'.position_eq] at hplace
    exact (Option.some.inj hplace).symm
  · have hview := fold_pick_congr (e := greatest) (hmap Snapshot.view)
    rw [h.view_eq, h'.view_eq] at hview
    exact (Option.some.inj hview).symm
  · apply OrderedSet.ext
    intro q
    rw [h.mem_excluded, h'.mem_excluded]
    simp only [hsame]

/-- The least of some snapshots admits what all of them admit. -/
theorem admitsAt_least (h : least.IsMerged s l) :
    s.admitsAt q = true ↔ ∀ t ∈ l, t.admitsAt q = true := by
  simp only [Snapshot.admitsAt_iff, h.mem_excluded]
  constructor
  · rintro ⟨hpos, hnot⟩ t ht
    have hle : s.position ≤ t.position := h.reaches ht
    exact ⟨Std.le_trans hpos hle, fun hq => hnot ⟨t, ht, hq⟩⟩
  · intro hall
    obtain ⟨t, ht, hpos⟩ := h.exists_position
    refine ⟨hpos ▸ (hall t ht).1, ?_⟩
    rintro ⟨t', ht', hq⟩
    exact (hall t' ht').2 hq

/-- The greatest of some snapshots admits what one of them admits and none of them excludes. -/
theorem admitsAt_greatest (h : greatest.IsMerged s l) :
    s.admitsAt q = true ↔ (∃ t ∈ l, t.admitsAt q = true) ∧ ∀ t ∈ l, q ∉ t.excluded := by
  simp only [Snapshot.admitsAt_iff, h.mem_excluded, not_exists, not_and]
  constructor
  · rintro ⟨hpos, hnot⟩
    obtain ⟨t, ht, hsame⟩ := h.exists_position
    exact ⟨⟨t, ht, hsame ▸ hpos, hnot t ht⟩, hnot⟩
  · rintro ⟨⟨t, ht, hpos, -⟩, hnot⟩
    have hle : t.position ≤ s.position := h.reaches ht
    exact ⟨Std.le_trans hpos hle, hnot⟩

end IsMerged

theorem admitsAt_ofSnapshots_greatest : (greatest.ofSnapshots s s').admitsAt q = true ↔
    (s.admitsAt q = true ∨ s'.admitsAt q = true) ∧ q ∉ s.excluded ∧ q ∉ s'.excluded := by
  have hmerged : greatest.IsMerged (greatest.ofSnapshots s s') [s, s'] := isMerged_fold rfl
  rw [hmerged.admitsAt_greatest]
  simp

end Snapshots
end Multiversion.Extreme
