import Multiversion.Proofs.Fallible
import Multiversion.Store.Basic
/- What the timelines of a store answer.

   A look-up sees the newest revision that passes its test (`Timeline.revision_sight`). A write that
   is not older than any kept revision goes on top, over one at its own place
   (`Timeline.insert_ok`). A collection cuts a timeline below the newest revision that passes the
   test it is given, and a look-up notices nothing of it as long as it sees every revision that
   could be the place of the cut (`Store.get_collect`). -/
namespace Multiversion

namespace Timeline

variable {visible visible' keep : WriteStamp → Bool} {newer : Option WriteStamp}
  {l l' : List Revision} {t : Timeline}

theorem search_eq_none_iff : search visible newer l = none ↔ ∀ r ∈ l, visible r.stamp = false := by
  induction l generalizing newer with
  | nil => simp [search]
  | cons r older ih =>
    rw [search]
    split
    · next h => simp [h]
    · next h => rw [ih]; simp [h]

theorem revision_search :
    (search visible newer l).map (·.revision) = l.find? (visible ·.stamp) := by
  induction l generalizing newer with
  | nil => rfl
  | cons r older ih =>
    rw [search]
    split
    · next h => simp [h]
    · next h => simp [h, ih]

theorem mem_of_search {found : Sighting} (h : search visible newer l = some found) :
    found.revision ∈ l ∧ visible found.revision.stamp = true := by
  have hfind : l.find? (visible ·.stamp) = some found.revision := by
    rw [← @revision_search visible newer l, h]
    rfl
  exact ⟨List.mem_of_find?_eq_some hfind,
    List.find?_some (p := fun r : Revision => visible r.stamp) hfind⟩

theorem search_congr (h : ∀ r ∈ l, visible r.stamp = visible' r.stamp) :
    search visible newer l = search visible' newer l := by
  induction l generalizing newer with
  | nil => rfl
  | cons r older ih =>
    obtain ⟨hr, holder⟩ := List.forall_mem_cons.1 h
    rw [search, search, hr, ih holder]

theorem search_append {found : Sighting} (h : search visible newer l = some found) :
    search visible newer (l ++ l') = some found := by
  induction l generalizing newer with
  | nil => cases h
  | cons r older ih =>
    rw [search] at h
    rw [List.cons_append, search]
    split at h
    · next hr => rw [if_pos hr, h]
    · next hr => rw [if_neg hr, ih h]

theorem revision_sight : (t.sight visible).map (·.revision) = t.revisions.find? (visible ·.stamp) :=
  revision_search

theorem exists_sight_of_unique {v : Revision} (hv : v ∈ t.revisions)
    (hvisible : visible v.stamp = true)
    (honly : ∀ r ∈ t.revisions, visible r.stamp = true → r = v) :
    ∃ found, t.sight visible = some found ∧
      found.revision = v := by
  cases hs : t.sight visible with
  | none =>
    have hnot := search_eq_none_iff.1 hs v hv
    simp [hvisible] at hnot
  | some found =>
    obtain ⟨hmem, hadm⟩ := mem_of_search hs
    exact ⟨found, rfl, honly _ hmem hadm⟩

theorem find_eq {asOf : Stamp} (h : asOf.visibility = .ok visible) :
    t.find asOf = .ok (t.sight visible) := by
  rw [find]
  split
  · next hempty => simp [sight, List.isEmpty_iff.1 hempty, search]
  · rw [h]; rfl

theorem find_snapshot (t : Timeline) (s : Snapshot) :
    t.find (.snapshot s) = .ok (t.sight s.admits) := find_eq rfl

/-- The revisions down to the first one that passes the test. -/
def throughFirst (visible : WriteStamp → Bool) : List Revision → List Revision
  | [] => []
  | r :: older => if visible r.stamp then [r] else r :: throughFirst visible older

theorem throughFirst_sublist (visible : WriteStamp → Bool) (l : List Revision) :
    List.Sublist (throughFirst visible l) l := by
  induction l with
  | nil => exact List.Sublist.slnil
  | cons r older ih =>
    rw [throughFirst]
    split
    · exact List.Sublist.cons_cons r (List.nil_sublist older)
    · exact ih.cons_cons r

/-- What a collection leaves of a timeline: the revisions down to the newest one that passes the
test. -/
def collect (t : Timeline) (visible : WriteStamp → Bool) : Timeline :=
  let kept := throughFirst visible t.revisions
  { revisions := kept
    decreasing := t.decreasing.sublist (throughFirst_sublist visible t.revisions)
    trimmed := t.trimmed || kept.length < t.revisions.length }

theorem collect_of_throughFirst_eq (h : throughFirst keep t.revisions = t.revisions) :
    t.collect keep = t := by
  obtain ⟨revisions, decreasing, trimmed⟩ := t
  simp only [collect] at h ⊢
  simp [h]

/-- The first revision whose newer neighbour passes the test comes right after the first one that
passes. -/
theorem fst_divide :
    (divide visible newer l).1 = if newer.any visible then [] else throughFirst visible l := by
  induction l generalizing newer with
  | nil => simp [divide, throughFirst]
  | cons r older ih =>
    rw [divide]
    split
    · rfl
    · show r :: (divide visible (some r.stamp) older).1 = _
      rw [throughFirst, ih, Option.any_some]
      cases visible r.stamp <;> rfl

theorem cut_eq (t : Timeline) (visible : WriteStamp → Bool) : ∃ lost,
    t.revisions = (t.collect visible).revisions ++ lost ∧
    t.cut visible = (lost.length, t.collect visible) := by
  have hkept : (divide visible none t.revisions).1 = throughFirst visible t.revisions := fst_divide
  have hsplit := divide_append visible none t.revisions
  rw [cut]
  split
  · next kept h =>
    rw [h] at hkept hsplit
    rw [List.append_nil] at hsplit
    have hself : t.collect visible = t := collect_of_throughFirst_eq (hkept.symm.trans hsplit)
    exact ⟨[], by rw [hself, List.append_nil], by rw [hself]; rfl⟩
  · next kept lost hlost h =>
    rw [h] at hkept hsplit
    obtain rfl : kept = throughFirst visible t.revisions := hkept
    refine ⟨lost, hsplit.symm, ?_⟩
    have hlength := congrArg List.length hsplit
    have hpos := List.length_pos_iff.2 hlost
    rw [List.length_append] at hlength
    have hshorter : (throughFirst visible t.revisions).length < t.revisions.length := by
      dsimp only at hlength
      omega
    simp [collect, hshorter]

theorem exists_throughFirst_append (keep : WriteStamp → Bool) (l : List Revision) :
    ∃ lost, l = throughFirst keep l ++ lost := by
  induction l with
  | nil => exact ⟨[], rfl⟩
  | cons r older ih =>
    rw [throughFirst]
    split
    · exact ⟨older, rfl⟩
    · obtain ⟨lost, h⟩ := ih
      exact ⟨lost, by rw [List.cons_append, ← h]⟩

theorem throughFirst_ne_nil (h : l ≠ []) : throughFirst keep l ≠ [] := by
  cases l with
  | nil => exact absurd rfl h
  | cons r older => rw [throughFirst]; split <;> exact List.cons_ne_nil _ _

theorem not_keep_of_mem_dropLast {r : Revision} (h : r ∈ (throughFirst keep l).dropLast) :
    keep r.stamp = false := by
  induction l with
  | nil => simp [throughFirst] at h
  | cons q older ih =>
    rw [throughFirst] at h
    split at h
    · simp at h
    · next hq =>
      cases hrest : throughFirst keep older with
      | nil => simp [hrest] at h
      | cons a rest =>
        rw [hrest, List.dropLast_cons_cons, List.mem_cons] at h
        rcases h with rfl | h
        · simpa using hq
        · exact ih (hrest ▸ h)

theorem dropLast_throughFirst_subset : (throughFirst keep l).dropLast ⊆ l.dropLast := by
  obtain ⟨lost, h⟩ := exists_throughFirst_append keep l
  intro r hr
  cases lost with
  | nil => rwa [h, List.append_nil]
  | cons q rest =>
    rw [h, List.dropLast_append_of_ne_nil (List.cons_ne_nil q rest)]
    exact List.mem_append_left _ (List.dropLast_subset _ hr)

/-- What is dropped in the middle leaves the oldest revision the oldest, or makes a newer one the
oldest. -/
theorem dropLast_filter_subset (keep : Revision → Bool) :
    (l.filter keep).dropLast ⊆ l.dropLast := by
  induction l with
  | nil => simp
  | cons q older ih =>
    cases older with
    | nil => cases h : keep q <;> simp [h]
    | cons q' rest =>
      rw [List.dropLast_cons_cons]
      intro r hr
      cases h : keep q with
      | false =>
        rw [List.filter_cons_of_neg (by simp [h])] at hr
        exact List.mem_cons_of_mem _ (ih hr)
      | true =>
        -- If nothing is left below, then `q` has become the oldest, and nothing is above it.
        rw [List.filter_cons_of_pos h] at hr
        cases hrest : (q' :: rest).filter keep with
        | nil => simp [hrest] at hr
        | cons a b =>
          rw [hrest, List.dropLast_cons_cons, List.mem_cons] at hr
          rcases hr with rfl | hr
          · exact List.mem_cons_self
          · exact List.mem_cons_of_mem _ (ih (hrest ▸ hr))

theorem throughFirst_eq_self (h : ∀ r ∈ l.dropLast, keep r.stamp = false) :
    throughFirst keep l = l := by
  induction l with
  | nil => rfl
  | cons r older ih =>
    rw [throughFirst]
    cases older with
    | nil => split <;> rfl
    | cons q rest =>
      rw [List.dropLast_cons_cons] at h
      rw [if_neg (by simp [h r List.mem_cons_self]), ih fun a ha => h a (List.mem_cons_of_mem r ha)]

theorem eq_of_position_eq (hl : l.Pairwise fun newer older => older.position < newer.position)
    {r q : Revision} (hr : r ∈ l) (hq : q ∈ l) (h : r.position = q.position) : r = q := by
  induction l with
  | nil => cases hr
  | cons a older ih =>
    obtain ⟨hnewest, hrest⟩ := List.pairwise_cons.1 hl
    rcases List.mem_cons.1 hr with rfl | hr' <;> rcases List.mem_cons.1 hq with rfl | hq'
    · rfl
    · exact absurd (h ▸ hnewest q hq') Std.lt_irrefl
    · exact absurd (h ▸ hnewest r hr') Std.lt_irrefl
    · exact ih hrest hr' hq'

theorem position_le_of_mem_throughFirst
    (hl : l.Pairwise fun newer older => older.position < newer.position) {r : Revision} (hr : r ∈ l)
    (hkeep : keep r.stamp = true) {q : Revision} (hq : q ∈ throughFirst keep l) :
    r.position ≤ q.position := by
  induction l with
  | nil => simp at hr
  | cons a older ih =>
    obtain ⟨hnewest, hrest⟩ := List.pairwise_cons.1 hl
    have hfirst : r.position ≤ a.position := by
      rcases List.mem_cons.1 hr with rfl | hr
      · exact Std.le_refl _
      · exact Std.le_of_lt (hnewest r hr)
    rw [throughFirst] at hq
    split at hq
    · obtain rfl := List.mem_singleton.1 hq
      exact hfirst
    · next ha =>
      rcases List.mem_cons.1 hq with rfl | hq
      · exact hfirst
      · have hr' : r ∈ older := (List.mem_cons.1 hr).resolve_left fun h => ha (h ▸ hkeep)
        exact ih hrest hr' hq

theorem exists_newer_of_not_mem_throughFirst
    (hl : l.Pairwise fun newer older => older.position < newer.position) {r : Revision} (hr : r ∈ l)
    (hlost : r ∉ throughFirst keep l) :
    ∃ q ∈ l, keep q.stamp = true ∧ r.position < q.position := by
  induction l with
  | nil => simp at hr
  | cons a older ih =>
    obtain ⟨hnewest, hrest⟩ := List.pairwise_cons.1 hl
    rw [throughFirst] at hlost
    split at hlost
    · next ha =>
      have hr' : r ∈ older :=
        (List.mem_cons.1 hr).resolve_left fun h => hlost (h ▸ List.mem_cons_self)
      exact ⟨a, List.mem_cons_self, ha, hnewest r hr'⟩
    · rw [List.mem_cons, not_or] at hlost
      obtain ⟨q, hq, hkeep, hlt⟩ := ih hrest ((List.mem_cons.1 hr).resolve_left hlost.1) hlost.2
      exact ⟨q, List.mem_cons_of_mem a hq, hkeep, hlt⟩

/-- A look-up that sees every revision but the oldest at which a timeline may be cut finds after the
cut what it found before. -/
theorem search_throughFirst (h : ∀ r ∈ l.dropLast, keep r.stamp = true → visible r.stamp = true) :
    search visible newer (throughFirst keep l) = search visible newer l := by
  induction l generalizing newer with
  | nil => rfl
  | cons r older ih =>
    cases older with
    | nil => rw [throughFirst_eq_self (by simp)]
    | cons q rest =>
      rw [List.dropLast_cons_cons] at h
      rw [throughFirst]
      split
      · next hr => simp [search, h r List.mem_cons_self hr]
      · rw [search, search, ih fun a ha => h a (List.mem_cons_of_mem r ha)]

theorem sight_collect
    (h : ∀ r ∈ t.revisions.dropLast, keep r.stamp = true → visible r.stamp = true) :
    (t.collect keep).sight visible = t.sight visible :=
  search_throughFirst h

theorem collect_eq_self (h : ∀ r ∈ t.revisions.dropLast, keep r.stamp = false) :
    t.collect keep = t :=
  collect_of_throughFirst_eq (throughFirst_eq_self h)

theorem cut_snd (t : Timeline) (visible : WriteStamp → Bool) :
    (t.cut visible).2 = t.collect visible := by
  obtain ⟨lost, -, hcut⟩ := t.cut_eq visible
  rw [hcut]

theorem cut_fst_add (t : Timeline) (visible : WriteStamp → Bool) :
    (t.cut visible).1 + (t.collect visible).length = t.length := by
  obtain ⟨lost, hsplit, hcut⟩ := t.cut_eq visible
  rw [hcut, length, length, hsplit, List.length_append, Nat.add_comm]

theorem expire_fst_add (t : Timeline) (now : Nat) :
    (t.expire now).1 + (t.expire now).2.length = t.length :=
  Nat.sub_add_cancel (List.length_filter_le _ t.revisions)

theorem gc_eq {least : Stamp} (hleast : least ≠ .absent) (h : least.visibility = .ok visible)
    (t : Timeline) :
    t.gc least = .ok (t.cut visible) := by
  have hpresent : least.isAbsent = false := by
    cases least with
    | absent => exact absurd rfl hleast
    | _ => rfl
  rw [gc, hpresent, Bool.false_or]
  split
  · next hshort =>
    have hlength : t.revisions.length < 2 := of_decide_eq_true hshort
    have hnil : t.revisions.dropLast = [] :=
      List.eq_nil_of_length_eq_zero (by rw [List.length_dropLast]; omega)
    have hself : t.collect visible = t := collect_eq_self (by simp [hnil])
    have hcount := t.cut_fst_add visible
    rw [hself, Nat.add_eq_right] at hcount
    exact congrArg Except.ok (Prod.ext hcount.symm ((t.cut_snd visible).trans hself).symm)
  · rw [h]; rfl

theorem collect_of_sight_none
    (h : ∀ r ∈ t.revisions.dropLast, keep r.stamp = true → visible r.stamp = true)
    (hnone : t.sight visible = none) : t.collect keep = t := by
  apply collect_eq_self
  intro r hr
  have := search_eq_none_iff.1 hnone r (List.dropLast_subset _ hr)
  cases hk : keep r.stamp with
  | false => rfl
  | true => simp [h r hr hk] at this

theorem exists_collect_append (keep : WriteStamp → Bool) (t : Timeline) :
    ∃ lost, t.revisions = (t.collect keep).revisions ++ lost :=
  exists_throughFirst_append keep t.revisions

theorem trimmed_collect_iff {lost : List Revision}
    (hlost : t.revisions = (t.collect keep).revisions ++ lost) :
    (t.collect keep).trimmed = true ↔ t.trimmed = true ∨ lost ≠ [] := by
  have hlength := congrArg List.length hlost
  rw [List.length_append] at hlength
  have hshorter : (throughFirst keep t.revisions).length < t.revisions.length ↔ lost ≠ [] := by
    rw [← List.length_pos_iff, hlength]
    exact Nat.lt_add_right_iff_pos
  simp only [collect, Bool.or_eq_true, decide_eq_true_eq, hshorter]

theorem trimmed_collect {q : Revision} (hq : q ∈ t.revisions)
    (hlost : q ∉ (t.collect keep).revisions) :
    (t.collect keep).trimmed = true := by
  obtain ⟨lost, hsplit⟩ := exists_collect_append keep t
  refine (trimmed_collect_iff hsplit).2 (.inr ?_)
  rintro rfl
  rw [hsplit, List.append_nil] at hq
  exact hlost hq

/-- A look-up in what a collection leaves finds what a look-up found before that agrees with it
there; or it finds nothing, and knows that there was more. -/
theorem sight_collect_cases
    (h : ∀ r ∈ (t.collect keep).revisions, visible r.stamp = visible' r.stamp) :
    (t.collect keep).sight visible' = t.sight visible ∨
      (t.collect keep).sight visible' = none ∧ (t.collect keep).trimmed = true := by
  obtain ⟨lost, hsplit⟩ := exists_collect_append keep t
  have hsame : (t.collect keep).sight visible' = (t.collect keep).sight visible :=
    (search_congr h).symm
  cases hs : (t.collect keep).sight visible with
  | some found =>
    refine .inl (hsame.trans (hs.trans ?_))
    rw [sight, hsplit]
    exact (search_append hs).symm
  | none =>
    cases lost with
    | nil =>
      rw [List.append_nil] at hsplit
      exact .inl (hsame.trans (congrArg (search visible none) hsplit.symm))
    | cons q rest =>
      exact .inr ⟨hsame.trans hs, (trimmed_collect_iff hsplit).2 (.inr (List.cons_ne_nil q rest))⟩

/-- What an insertion that succeeds does: the write goes on top, or takes the place of the newest
revision. -/
theorem insert_cases {r : Revision} {outcome : Insertion} {t' : Timeline}
    (h : t.insert r = (.ok outcome, t')) :
    t'.trimmed = t.trimmed ∧
      (t'.revisions = r :: t.revisions ∧ (∀ q ∈ t.revisions, q.position < r.position) ∨
        ∃ newest older, t.revisions = newest :: older ∧ newest.position = r.position ∧
        t'.revisions = r :: older) := by
  have hd := t.decreasing
  unfold insert at h
  split at h
  · next hl =>
    cases h
    exact ⟨rfl, .inl ⟨by simp [hl], by simp [hl]⟩⟩
  · next newest older hl =>
    rw [hl] at hd
    split at h
    · next hlt =>
      cases h
      refine ⟨rfl, .inl ⟨by simp [hl], ?_⟩⟩
      rw [hl]
      exact List.forall_mem_cons.2 ⟨hlt,
        fun q hq => Std.lt_trans ((List.pairwise_cons.1 hd).1 q hq) hlt⟩
    · split at h
      · next heq =>
        cases h
        exact ⟨rfl, .inr ⟨newest, older, hl, heq.symm, rfl⟩⟩
      · cases h

theorem mem_of_insert {r q : Revision} {outcome : Insertion} {t' : Timeline}
    (h : t.insert r = (.ok outcome, t')) (hq : q ∈ t'.revisions) : q = r ∨ q ∈ t.revisions := by
  rcases (insert_cases h).2 with ⟨htop, -⟩ | ⟨newest, older, hold, -, hover⟩
  · exact List.mem_cons.1 (htop ▸ hq)
  · rw [hold]
    exact (List.mem_cons.1 (hover ▸ hq)).imp_right (List.mem_cons_of_mem newest)

/-- A write that is not older than any kept revision goes on top, and what it is on top of is
older. -/
theorem insert_ok (t : Timeline) (r : Revision) (h : ∀ q ∈ t.revisions, q.position ≤ r.position) :
    ∃ outcome t', t.insert r = (.ok outcome, t') ∧ t'.trimmed = t.trimmed ∧
      t'.revisions = r :: t.revisions.filter (·.position < r.position) := by
  have hd := t.decreasing
  unfold insert
  split
  · next hl => exact ⟨_, _, rfl, rfl, by simp [hl]⟩
  · next newest older hl =>
    rw [hl] at hd h
    obtain ⟨hnewest, -⟩ := List.pairwise_cons.1 hd
    have hle := h newest List.mem_cons_self
    split
    · next hlt =>
      refine ⟨_, _, rfl, rfl, ?_⟩
      show r :: newest :: older = r :: _
      rw [hl, List.filter_eq_self.2]
      intro q hq
      rcases List.mem_cons.1 hq with rfl | hq
      · simpa using hlt
      · simpa using Std.lt_trans (hnewest q hq) hlt
    · next hlt =>
      -- At the place of the newest revision the write replaces it.
      have heq : r.position = newest.position := Std.le_antisymm (Std.not_lt.1 hlt) hle
      rw [dif_pos heq]
      refine ⟨_, _, rfl, rfl, ?_⟩
      show r :: older = r :: _
      rw [hl, List.filter_cons_of_neg (by simpa using hlt), List.filter_eq_self.2]
      intro q hq
      simpa [heq] using hnewest q hq

end Timeline

namespace Store

variable {s : Store} {k j : Key} {visible keep : WriteStamp → Bool}

theorem timeline_setTimeline (t : Timeline) :
    (s.setTimeline k t).timeline j = if j = k then t else s.timeline j := by
  rw [timeline, setTimeline, OrderedMap.get?_insert]
  split <;> rfl

/-- What a collection leaves of a store. -/
def collect (s : Store) (visible : WriteStamp → Bool) : Store :=
  ⟨s.timelines.mapValues (·.collect visible)⟩

@[simp] theorem timeline_collect : (s.collect keep).timeline k = (s.timeline k).collect keep := by
  rw [timeline, collect, OrderedMap.get?_mapValues, timeline]
  cases s.timelines.get? k <;> rfl

/-- A timeline of which nothing is left goes, and with it what it knew of earlier collections. -/
theorem timeline_expire (now : Nat) : (s.expire now).2.timeline k =
    if ((s.timeline k).expire now).2.isEmpty then .empty else ((s.timeline k).expire now).2 := by
  rw [timeline, expire, OrderedMap.get?_filter, OrderedMap.get?_mapValues,
    OrderedMap.get?_mapValues, timeline]
  cases s.timelines.get? k with
  | none => rfl
  | some t =>
    simp only [Option.map_some, Option.filter_some, Option.getD_some]
    cases (t.expire now).2.isEmpty <;> rfl

theorem foldl_expire (now : Nat) (l : List (Key × Timeline)) (n : Nat) :
    (l.map fun e => e.2.expire now).foldl (fun n e => n + e.1) n +
      (((l.map fun e => (e.2.expire now).2).filter (!·.isEmpty)).flatMap
        Timeline.revisions).length =
      n + (l.flatMap fun e => e.2.revisions).length := by
  induction l generalizing n with
  | nil => rfl
  | cons e rest ih =>
    have hrest := ih (n + (e.2.expire now).1)
    have hlost := e.2.expire_fst_add now
    simp only [List.map_cons, List.foldl_cons, List.flatMap_cons, List.length_append,
      List.filter_cons]
    split
    · simp only [Timeline.length, List.flatMap_cons, List.length_append] at hlost ⊢
      omega
    · next hempty =>
      have hnil : (e.2.expire now).2.length = 0 := by
        simpa [Timeline.isEmpty, Timeline.length] using hempty
      simp only [Timeline.length] at hlost hnil
      omega

/-- What expiry returns is how many revisions are gone, those of keys that are dropped among
them. -/
theorem expire_fst_add (s : Store) (now : Nat) :
    (s.expire now).1 + (s.expire now).2.count = s.count := by
  have hcount := foldl_expire now s.timelines.entries 0
  simpa [expire, count, OrderedMap.values, OrderedMap.mapValues, OrderedMap.filter, List.filter_map,
    List.flatMap_map, Function.comp_def] using hcount

section Loop

variable {least : Stamp} {f : Timeline → Nat × Timeline}

theorem foldlM_gcKey (h : ∀ t : Timeline, t.gc least = .ok (f t))
    (hlost : ∀ t : Timeline, (f t).1 + (f t).2.length = t.length) (l : List (Key × Timeline))
    (n : Nat) (m : OrderedMap Key Timeline) : ∃ n',
      l.foldlM (gcKey least) (n, ⟨m⟩) = .ok (n', ⟨l.foldl (fun m e => m.insert e.1 (f e.2).2) m⟩) ∧
      n' + (l.flatMap fun e => (f e.2).2.revisions).length =
        n + (l.flatMap fun e => e.2.revisions).length := by
  induction l generalizing n m with
  | nil => exact ⟨n, rfl, rfl⟩
  | cons e rest ih =>
    obtain ⟨n', hrest, hcount⟩ := ih (n + (f e.2).1) (m.insert e.1 (f e.2).2)
    have hkey : gcKey least (n, ⟨m⟩) e = .ok (n + (f e.2).1, ⟨m.insert e.1 (f e.2).2⟩) := by
      rw [gcKey, h]
      rfl
    refine ⟨n', by rw [List.foldlM_cons, hkey, ok_bind, hrest, List.foldl_cons], ?_⟩
    have hlost := hlost e.2
    simp only [Timeline.length] at hlost
    simp only [List.flatMap_cons, List.length_append]
    omega

/-- A store is collected timeline by timeline, and what the timelines have lost is added up. -/
theorem gc_of_forall (h : ∀ t : Timeline, t.gc least = .ok (f t))
    (hlost : ∀ t : Timeline, (f t).1 + (f t).2.length = t.length) (s : Store) :
    ∃ n s', s.gc least = .ok (n, s') ∧ s' = ⟨s.timelines.mapValues fun t => (f t).2⟩ ∧
      n + s'.count = s.count := by
  obtain ⟨n, hgc, hcount⟩ := foldlM_gcKey h hlost s.timelines.entries 0 s.timelines
  rw [OrderedMap.foldl_insert s.timelines fun t => (f t).2] at hgc
  refine ⟨n, _, hgc, rfl, ?_⟩
  simpa [count, OrderedMap.values, OrderedMap.mapValues, List.flatMap_map] using hcount

end Loop

theorem gc_eq {least : Stamp} (hleast : least ≠ .absent) (h : least.visibility = .ok visible)
    (s : Store) :
    ∃ n, s.gc least = .ok (n, s.collect visible) ∧ n + (s.collect visible).count = s.count := by
  obtain ⟨n, s', hgc, rfl, hcount⟩ :=
    gc_of_forall (Timeline.gc_eq hleast h) (fun t => t.cut_snd visible ▸ t.cut_fst_add visible) s
  simp only [Timeline.cut_snd] at hgc hcount
  exact ⟨n, hgc, hcount⟩

theorem gc_snapshot (s : Store) (b : Snapshot) :
    ∃ n, s.gc (.snapshot b) = .ok (n, s.collect b.admits) ∧
    n + (s.collect b.admits).count = s.count :=
  gc_eq (fun h => by cases h) rfl s

theorem get_eq {asOf : Stamp} (h : asOf.visibility = .ok visible) (s : Store) (k : Key) :
    s.get k asOf =
      match (s.timeline k).sight visible with
      | some found => .ok (.ofSighting found)
      | none =>
        if (s.timeline k).trimmed then .error (.unavailable asOf (.collected k))
        else .ok .notFound := by
  rw [get, Timeline.find_eq h, mapError_ok, ok_bind]
  rfl

theorem get_snapshot (s : Store) (k : Key) (b : Snapshot) :
    s.get k (.snapshot b) =
      match (s.timeline k).sight b.admits with
      | some found => .ok (.ofSighting found)
      | none =>
        if (s.timeline k).trimmed then .error (.unavailable (.snapshot b) (.collected k))
        else .ok .notFound :=
  get_eq rfl s k

theorem get_of_newest {b : Snapshot} {r : Revision} {older : List Revision}
    (hrevisions : (s.timeline k).revisions = r :: older) (hadm : b.admits r.stamp = true) :
    s.get k (.snapshot b) = .ok (.ofSighting ⟨r, none⟩) := by
  have hsight : (s.timeline k).sight b.admits = some ⟨r, none⟩ := by
    rw [Timeline.sight, hrevisions, Timeline.search, if_pos hadm]
  rw [get_snapshot, hsight]

/-- A collection does not change what a snapshot reads of a key if the snapshot admits every
revision of it but the oldest at which the collection may cut. -/
theorem get_collect (k : Key) (b : Snapshot)
    (h : ∀ r ∈ (s.timeline k).revisions.dropLast, keep r.stamp = true → b.admits r.stamp = true) :
    (s.collect keep).get k (.snapshot b) = s.get k (.snapshot b) := by
  rw [get_snapshot, get_snapshot, timeline_collect, Timeline.sight_collect h]
  cases hs : (s.timeline k).sight b.admits with
  | some found => rfl
  | none => rw [Timeline.collect_of_sight_none h hs]

theorem get_collect_lost {b : Snapshot} {r q : Revision} (hr : r ∈ (s.timeline k).revisions)
    (hkeep : keep r.stamp = true) (hb : b.position < r.position) (hq : q ∈ (s.timeline k).revisions)
    (hlt : q.position < r.position) :
    (s.collect keep).get k (.snapshot b) = .error (.unavailable (.snapshot b) (.collected k)) := by
  have hkept : ∀ u ∈ ((s.timeline k).collect keep).revisions, r.position ≤ u.position := fun u hu =>
    Timeline.position_le_of_mem_throughFirst (s.timeline k).decreasing hr hkeep hu
  have hnone : ((s.timeline k).collect keep).sight b.admits = none := by
    apply Timeline.search_eq_none_iff.2
    intro u hu
    have hbeyond : ¬ u.stamp.position ≤ b.position :=
      Std.not_le_of_gt (Std.lt_of_lt_of_le hb (hkept u hu))
    rw [Snapshot.admits, Snapshot.admitsAt, decide_eq_false hbeyond, Bool.false_and]
  have htrimmed : ((s.timeline k).collect keep).trimmed = true :=
    Timeline.trimmed_collect hq fun hmem => Std.not_le_of_gt hlt (hkept q hmem)
  rw [get_snapshot, timeline_collect, hnone]
  simp [htrimmed]

end Store
end Multiversion
