import Multiversion.Proofs.Chronology
import Multiversion.Proofs.Comparison
import Multiversion.Proofs.Extremes
/- What stamps merge into.

   A merge fails exactly if one of the stamps is of an unknown view (`Issuer.exists_merge_ok_iff`).
   Otherwise it depends on which kinds are present: writes merge into one of them
   (`Issuer.merge_writes`), snapshots into a snapshot (`Issuer.merge_snapshots`), and anything else
   into the commit at the furthest place (`Issuer.merge_mixed`). Each of these depends only on which
   stamps there are, so their order and repetition do not count (`Issuer.alike_of_merge`), and
   commits may be merged in groups (`Issuer.merge_groups`). `Issuer.merge_laws` puts this
   together. -/
namespace Multiversion

namespace Stamp

/-- The stamps of a list that are present are all of one kind. -/
def Only {α : Type} (make : α → Stamp) (l : List Stamp) : Prop :=
  ∀ v ∈ l, v = .absent ∨ ∃ a, v = make a

theorem only_congr {α : Type} {make : α → Stamp} {l l' : List Stamp} (h : ∀ v, v ∈ l' ↔ v ∈ l) :
    Only make l' ↔ Only make l := by
  simp only [Only, h]

theorem Only.not_only {α β : Type} {make : α → Stamp} {make' : β → Stamp} {l : List Stamp}
    (h : Only make l) (hsome : ¬ ∀ v ∈ l, v = .absent) (hne : ∀ a b, make a ≠ make' b) :
    ¬ Only make' l := by
  intro h'
  refine hsome fun v hv => ?_
  rcases h v hv with habsent | ⟨a, rfl⟩
  · exact habsent
  · rcases h' _ hv with habsent | ⟨b, hb⟩
    · exact habsent
    · exact absurd hb (hne a b)

/-- Two stamps at one place of history: writes that compare equal, or bounds that reach equally far,
with the same view and the same exclusions. -/
def Alike : Stamp → Stamp → Prop
  | write a, write b => (write a).compare (write b) = .ok .eq
  | snapshot s, snapshot t => s.position = t.position ∧ s.view = t.view ∧ s.excluded = t.excluded
  | a, b => a = b

end Stamp

namespace Extreme

variable {e : Extreme}

/-- Whether the first stamp is at the second, or further to this end. -/
def bounds (e : Extreme) (a b : Stamp) : Except StampFault Bool :=
  match e with
  | greatest => a.atOrAfter b
  | least => a.atOrBefore b

theorem bounds_write_iff {a b : WriteStamp} :
    e.bounds (.write a) (.write b) = .ok true ↔ e.Reaches a.position b.position := by
  cases e with
  | greatest =>
    rw [bounds, Stamp.atOrAfter_eq_true_iff rfl, ne_eq, Std.compare_eq_lt, Std.not_lt]; rfl
  | least =>
    rw [bounds, Stamp.atOrBefore_eq_true_iff rfl, ne_eq, Std.compare_eq_gt, Std.not_lt]; rfl

theorem bounds_commit_iff {a b : CommitStamp} :
    e.bounds (.commit a) (.commit b) = .ok true ↔ e.Reaches a.rank b.rank := by
  cases e with
  | greatest =>
    rw [bounds, Stamp.atOrAfter_eq_true_iff rfl, ne_eq, Std.compare_eq_lt, Std.not_lt]; rfl
  | least =>
    rw [bounds, Stamp.atOrBefore_eq_true_iff rfl, ne_eq, Std.compare_eq_gt, Std.not_lt]; rfl

end Extreme

namespace Issuer

variable {i : Issuer} {e : Extreme} {stamps stamps' : List Stamp} {merged merged' : Stamp}
  {fault : StampFault}

/-- The view of the stamp is known, if it has one. -/
def Knows (i : Issuer) (v : Stamp) : Prop := ∀ view, v.view? = some view → i.views.knows view = true

theorem knows_snapshots_iff {l : List Snapshot} :
    (∀ v ∈ l.map Stamp.snapshot, i.Knows v) ↔ ∀ s ∈ l, i.views.knows s.view = true := by
  rw [List.forall_mem_map]
  refine forall₂_congr fun s _ => ⟨fun h => h s.view rfl, ?_⟩
  rintro h _ ⟨⟩
  exact h

/-- The commit at a place, absent if there is none. -/
def ofRank (i : Issuer) : Option Rank → Stamp
  | none => .absent
  | some r => .commit (i.stampAt r)

theorem rank?_ofRank (r : Option Rank) : (i.ofRank r).rank? = r := by cases r <;> rfl

theorem filterMap_present {α : Type} (f : Stamp → Option α) (hf : f .absent = none)
    (l : List Stamp) :
    (l.filter (!·.isAbsent)).filterMap f = l.filterMap f := by
  induction l with
  | nil => rfl
  | cons v rest ih =>
    cases v with
    | absent => rw [List.filterMap_cons_none hf]; exact ih
    | _ => rw [List.filter_cons_of_pos rfl, List.filterMap_cons, List.filterMap_cons, ih]

theorem all_snapshots_iff :
    (stamps.filter (!·.isAbsent)).all (·.snapshot?.isSome) = true ↔
      Stamp.Only .snapshot stamps := by
  rw [List.all_eq_true]
  simp only [List.mem_filter, and_imp]
  refine forall₂_congr fun v _ => ?_
  cases v <;> simp [Stamp.isAbsent, Stamp.snapshot?]

theorem all_writes_iff :
    (stamps.filter (!·.isAbsent)).all (·.write?.isSome) = true ↔ Stamp.Only .write stamps := by
  rw [List.all_eq_true]
  simp only [List.mem_filter, and_imp]
  refine forall₂_congr fun v _ => ?_
  cases v <;> simp [Stamp.isAbsent, Stamp.write?]

theorem mem_ranks_iff {r : Rank} :
    r ∈ stamps.filterMap Stamp.rank? ↔ ∃ v ∈ stamps, v.rank? = some r :=
  List.mem_filterMap

theorem ranks_ne_nil (h : ¬ ∀ v ∈ stamps, v = .absent) : stamps.filterMap Stamp.rank? ≠ [] := by
  intro hnil
  refine h fun v hv => ?_
  have hnone := List.filterMap_eq_nil_iff.1 hnil v hv
  cases v with
  | absent => rfl
  | _ => cases hnone

theorem knows_iff_ranks :
    (∀ v ∈ stamps, i.Knows v) ↔ ∀ r ∈ stamps.filterMap Stamp.rank?,
      i.views.knows r.view = true := by
  simp only [List.mem_filterMap, Knows, Stamp.view?, Option.map_eq_some_iff]
  constructor
  · rintro h r ⟨v, hv, hr⟩
    exact h v hv r.view ⟨r, hr, rfl⟩
  · rintro h v hv _ ⟨r, hr, rfl⟩
    exact h r ⟨v, hv, hr⟩

theorem checkAll_error {ranks : List Rank} (h : i.checkAll ranks = .error fault) :
    ∃ r ∈ ranks, i.views.knows r.view = false ∧ fault = .unknownView r.view := by
  induction ranks with
  | nil => cases h
  | cons r rest ih =>
    rw [checkAll, bind_eq_error] at h
    rcases h with h | ⟨_, -, h⟩
    · exact ⟨r, List.mem_cons_self, check_eq_error.1 h⟩
    · obtain ⟨r', hr', hunknown⟩ := ih h
      exact ⟨r', List.mem_cons_of_mem _ hr', hunknown⟩

theorem checkAll_append (ranks ranks' : List Rank) :
    i.checkAll (ranks ++ ranks') = (do i.checkAll ranks; i.checkAll ranks') := by
  induction ranks with
  | nil => rfl
  | cons r rest ih =>
    rw [List.cons_append, checkAll, checkAll, ih]
    cases i.views.check r.view <;> rfl

theorem merge_eq_ok_iff : i.merge e stamps = .ok merged ↔ (∀ v ∈ stamps, i.Knows v) ∧ merged =
    (if (stamps.filter (!·.isAbsent)).all (·.snapshot?.isSome) then
        (Extreme.fold e.ofSnapshots (stamps.filterMap Stamp.snapshot?)).map Stamp.snapshot
      else if (stamps.filter (!·.isAbsent)).all (·.write?.isSome) then
        (Extreme.fold e.ofWrites (stamps.filterMap Stamp.write?)).map Stamp.write
      else ((Extreme.fold e.pick (stamps.filterMap Stamp.rank?)).map i.stampAt).map
        Stamp.commit).getD .absent := by
  simp only [merge, mergeRanks, filterMap_present Stamp.rank? rfl,
    filterMap_present Stamp.snapshot? rfl, filterMap_present Stamp.write? rfl, bind_eq_ok,
    pure_eq_ok, Except.ok.injEq, knows_iff_ranks]
  constructor
  · rintro ⟨_, ⟨_, hknown, rfl⟩, rfl⟩
    exact ⟨checkAll_eq_ok.1 hknown, rfl⟩
  · rintro ⟨hknown, rfl⟩
    exact ⟨_, ⟨(), checkAll_eq_ok.2 hknown, rfl⟩, rfl⟩

/-- Stamps can be merged exactly if all of their views are known. -/
theorem exists_merge_ok_iff :
    (∃ merged, i.merge e stamps = .ok merged) ↔ ∀ v ∈ stamps, i.Knows v := by
  simp only [merge_eq_ok_iff, exists_and_left, exists_eq, and_true]

theorem merge_error (h : i.merge e stamps = .error fault) :
    ∃ v ∈ stamps, ∃ view, v.view? = some view ∧ i.views.knows view = false ∧
    fault = .unknownView view := by
  simp only [merge, mergeRanks, filterMap_present Stamp.rank? rfl, bind_eq_error, pure_eq_ok,
    reduceCtorEq, and_false, exists_false, or_false] at h
  obtain ⟨r, hr, hunknown, hfault⟩ := checkAll_error h
  obtain ⟨v, hv, hrank⟩ := mem_ranks_iff.1 hr
  exact ⟨v, hv, r.view, congrArg (Option.map Rank.view) hrank, hunknown, hfault⟩

theorem merge_absent (h : ∀ v ∈ stamps, v = .absent) : i.merge e stamps = .ok .absent := by
  have hnone : stamps.filterMap Stamp.snapshot? = [] :=
    List.filterMap_eq_nil_iff.2 fun v hv => congrArg Stamp.snapshot? (h v hv)
  refine merge_eq_ok_iff.2 ⟨?_, ?_⟩
  · intro v hv view hview
    rw [h v hv] at hview
    cases hview
  · rw [if_pos (all_snapshots_iff.2 fun v hv => .inl (h v hv)), hnone]
    rfl

/-- Snapshots merge into a snapshot. -/
theorem merge_snapshots (hall : Stamp.Only .snapshot stamps) (hsome : ¬ ∀ v ∈ stamps, v = .absent)
    (h : i.merge e stamps = .ok merged) :
    ∃ s, merged = .snapshot s ∧ e.IsMerged s (stamps.filterMap Stamp.snapshot?) := by
  obtain ⟨-, rfl⟩ := merge_eq_ok_iff.1 h
  have hne : stamps.filterMap Stamp.snapshot? ≠ [] := by
    intro hnil
    refine hsome fun v hv => (hall v hv).resolve_right ?_
    rintro ⟨s, rfl⟩
    cases List.filterMap_eq_nil_iff.1 hnil _ hv
  obtain ⟨s, hs⟩ := Extreme.exists_fold e.ofSnapshots hne
  rw [if_pos (all_snapshots_iff.2 hall), hs]
  exact ⟨s, rfl, Extreme.isMerged_fold hs⟩

theorem merge_snapshots_ok {l : List Snapshot} : i.merge e (l.map Stamp.snapshot) = .ok merged ↔
    (∀ s ∈ l, i.views.knows s.view = true) ∧
      merged = ((Extreme.fold e.ofSnapshots l).map Stamp.snapshot).getD .absent := by
  have hall : Stamp.Only .snapshot (l.map Stamp.snapshot) := by simp [Stamp.Only]
  have hself : (l.map Stamp.snapshot).filterMap Stamp.snapshot? = l := by
    simp [List.filterMap_map, Function.comp_def, Stamp.snapshot?]
  rw [merge_eq_ok_iff, knows_snapshots_iff, if_pos (all_snapshots_iff.2 hall), hself]

theorem exists_merge_snapshots {l : List Snapshot} (hne : l ≠ [])
    (hknown : ∀ s ∈ l, i.views.knows s.view = true) :
    ∃ s, i.merge e (l.map Stamp.snapshot) = .ok (.snapshot s) ∧ e.IsMerged s l := by
  obtain ⟨s, hs⟩ := Extreme.exists_fold e.ofSnapshots hne
  exact ⟨s, merge_snapshots_ok.2 ⟨hknown, by rw [hs]; rfl⟩, Extreme.isMerged_fold hs⟩

/-- Writes merge into one of them, at the furthest place. -/
theorem merge_writes (hall : Stamp.Only .write stamps) (hmixed : ¬ Stamp.Only .snapshot stamps)
    (h : i.merge e stamps = .ok merged) :
    ∃ w, merged = .write w ∧ .write w ∈ stamps ∧ ∀ u, .write u ∈ stamps →
    e.Reaches w.position u.position := by
  obtain ⟨-, rfl⟩ := merge_eq_ok_iff.1 h
  have hmem : ∀ u, u ∈ stamps.filterMap Stamp.write? ↔ .write u ∈ stamps := by
    intro u
    rw [List.mem_filterMap]
    constructor
    · rintro ⟨v, hv, hu⟩
      cases v <;> cases hu
      exact hv
    · intro hu
      exact ⟨_, hu, rfl⟩
  have hne : stamps.filterMap Stamp.write? ≠ [] := by
    intro hnil
    refine hmixed fun v hv => (hall v hv).imp_right ?_
    rintro ⟨w, rfl⟩
    cases List.filterMap_eq_nil_iff.1 hnil _ hv
  obtain ⟨w, hw⟩ := Extreme.exists_fold e.ofWrites hne
  obtain ⟨hwmem, hreaches⟩ := Extreme.isFurthest_fold hw
  rw [if_neg (mt all_snapshots_iff.1 hmixed), if_pos (all_writes_iff.2 hall), hw]
  exact ⟨w, rfl, (hmem w).1 hwmem, fun u hu => hreaches u ((hmem u).2 hu)⟩

/-- Anything else merges into the commit at the furthest place. -/
theorem merge_mixed (hmixed : ¬ Stamp.Only .snapshot stamps) (hmixed' : ¬ Stamp.Only .write stamps)
    (h : i.merge e stamps = .ok merged) :
    ∃ r, merged = .commit (i.stampAt r) ∧ (∃ v ∈ stamps, v.rank? = some r) ∧
      ∀ v ∈ stamps, ∀ r', v.rank? = some r' → e.Reaches r r' := by
  obtain ⟨-, rfl⟩ := merge_eq_ok_iff.1 h
  have hne : stamps.filterMap Stamp.rank? ≠ [] :=
    ranks_ne_nil fun hall => hmixed fun v hv => .inl (hall v hv)
  obtain ⟨r, hr⟩ := Extreme.exists_fold e.pick hne
  obtain ⟨hmem, hreaches⟩ := Extreme.fold_pick_eq_some_iff.1 hr
  rw [if_neg (mt all_snapshots_iff.1 hmixed), if_neg (mt all_writes_iff.1 hmixed'), hr]
  exact ⟨r, rfl, mem_ranks_iff.1 hmem,
    fun v hv r' hr' => hreaches r' (mem_ranks_iff.2 ⟨v, hv, hr'⟩)⟩

/-- What stamps merge into depends only on which of them there are. -/
theorem alike_of_merge (hsame : ∀ v, v ∈ stamps' ↔ v ∈ stamps) (h : i.merge e stamps = .ok merged)
    (h' : i.merge e stamps' = .ok merged') : merged'.Alike merged := by
  by_cases hsnapshots : Stamp.Only .snapshot stamps
  · have hsnapshots' := (Stamp.only_congr hsame).2 hsnapshots
    by_cases habsent : ∀ v ∈ stamps, v = .absent
    · have habsent' : ∀ v ∈ stamps', v = .absent := fun v hv => habsent v ((hsame v).1 hv)
      obtain rfl := Except.ok.inj (h.symm.trans (merge_absent habsent))
      obtain rfl := Except.ok.inj (h'.symm.trans (merge_absent habsent'))
      rfl
    · have habsent' : ¬ ∀ v ∈ stamps', v = .absent :=
        fun hall => habsent fun v hv => hall v ((hsame v).2 hv)
      obtain ⟨s, rfl, hs⟩ := merge_snapshots hsnapshots habsent h
      obtain ⟨s', rfl, hs'⟩ := merge_snapshots hsnapshots' habsent' h'
      exact hs.congr hs' fun t => by simp only [List.mem_filterMap, hsame]
  · have hsnapshots' := mt (Stamp.only_congr hsame).1 hsnapshots
    by_cases hwrites : Stamp.Only .write stamps
    · obtain ⟨w, rfl, hw, hreaches⟩ := merge_writes hwrites hsnapshots h
      obtain ⟨w', rfl, hw', hreaches'⟩ :=
        merge_writes ((Stamp.only_congr hsame).2 hwrites) hsnapshots' h'
      have hplace := (hreaches' w ((hsame _).2 hw)).antisymm (hreaches w' ((hsame _).1 hw'))
      rw [Stamp.Alike, Stamp.compare, hplace, Std.ReflOrd.compare_self]
    · obtain ⟨r, rfl, ⟨v, hv, hr⟩, hreaches⟩ := merge_mixed hsnapshots hwrites h
      obtain ⟨r', rfl, ⟨v', hv', hr'⟩, hreaches'⟩ :=
        merge_mixed hsnapshots' (mt (Stamp.only_congr hsame).1 hwrites) h'
      obtain rfl := (hreaches' v ((hsame v).2 hv) r hr).antisymm
        (hreaches v' ((hsame v').1 hv') r' hr')
      rfl

theorem merge_commits (hall : Stamp.Only .commit stamps) :
    i.merge e stamps = (do
      i.checkAll (stamps.filterMap Stamp.rank?)
      return i.ofRank (Extreme.fold e.pick (stamps.filterMap Stamp.rank?))) := by
  cases hcheck : i.checkAll (stamps.filterMap Stamp.rank?) with
  | error fault =>
    rw [merge, filterMap_present Stamp.rank? rfl, mergeRanks, hcheck]
    rfl
  | ok _ =>
    obtain ⟨merged, hmerged⟩ := exists_merge_ok_iff.2 (knows_iff_ranks.2 (checkAll_eq_ok.1 hcheck))
    rw [hmerged]
    by_cases habsent : ∀ v ∈ stamps, v = .absent
    · have hnone : stamps.filterMap Stamp.rank? = [] :=
        List.filterMap_eq_nil_iff.2 fun v hv => congrArg Stamp.rank? (habsent v hv)
      rw [hnone, ← hmerged, merge_absent habsent]
      rfl
    · have hsnapshots : ¬ Stamp.Only .snapshot stamps :=
        hall.not_only habsent fun _ _ h => nomatch h
      have hwrites : ¬ Stamp.Only .write stamps := hall.not_only habsent fun _ _ h => nomatch h
      obtain ⟨r, rfl, ⟨v, hv, hr⟩, hreaches⟩ := merge_mixed hsnapshots hwrites hmerged
      have hfold : Extreme.fold e.pick (stamps.filterMap Stamp.rank?) = some r := by
        refine Extreme.fold_pick_eq_some_iff.2 ⟨mem_ranks_iff.2 ⟨v, hv, hr⟩, fun r' hr' => ?_⟩
        obtain ⟨v', hv', hrank⟩ := mem_ranks_iff.1 hr'
        exact hreaches v' hv' r' hrank
      rw [hfold]
      rfl

theorem mapM_merge_commits (groups : List (List Stamp)) (hall : Stamp.Only .commit groups.flatten) :
    groups.mapM (i.merge e) = (do
      i.checkAll (groups.flatten.filterMap Stamp.rank?)
      return groups.map fun g => i.ofRank (Extreme.fold e.pick (g.filterMap Stamp.rank?))) := by
  induction groups with
  | nil => rfl
  | cons g rest ih =>
    have hg : Stamp.Only .commit g := fun v hv => hall v (List.mem_append_left _ hv)
    rw [List.mapM_cons, merge_commits hg, ih fun v hv => hall v (List.mem_append_right _ hv),
      List.flatten_cons, List.filterMap_append, checkAll_append]
    cases i.checkAll (g.filterMap Stamp.rank?) with
    | error fault => rfl
    | ok _ => cases i.checkAll (rest.flatten.filterMap Stamp.rank?) <;> rfl

/-- Commits that are merged in groups first come to the same, or fail with the same. -/
theorem merge_groups (groups : List (List Stamp)) (hall : Stamp.Only .commit groups.flatten) :
    (do i.merge e (← groups.mapM (i.merge e))) = i.merge e groups.flatten := by
  rw [mapM_merge_commits groups hall, merge_commits hall]
  cases hcheck : i.checkAll (groups.flatten.filterMap Stamp.rank?) with
  | error fault => rfl
  | ok _ =>
    let tops := groups.map fun g => i.ofRank (Extreme.fold e.pick (g.filterMap Stamp.rank?))
    have hkind : Stamp.Only .commit tops := by
      intro v hv
      obtain ⟨g, -, rfl⟩ := List.mem_map.1 hv
      cases Extreme.fold e.pick (g.filterMap Stamp.rank?) with
      | none => exact .inl rfl
      | some r => exact .inr ⟨_, rfl⟩
    have hranks : tops.filterMap Stamp.rank? =
        (groups.map (·.filterMap Stamp.rank?)).filterMap (Extreme.fold e.pick) := by
      simp only [tops, List.filterMap_map, Function.comp_def, rank?_ofRank]
    -- The places of the groups are places of their commits, so that their views are known too.
    have hknown : i.checkAll (tops.filterMap Stamp.rank?) = .ok () := by
      refine checkAll_eq_ok.2 fun r hr => checkAll_eq_ok.1 hcheck r ?_
      rw [hranks, List.mem_filterMap] at hr
      obtain ⟨ranks, hg, hr⟩ := hr
      rw [List.filterMap_flatten]
      exact List.mem_flatten.2 ⟨ranks, hg, (Extreme.fold_pick_eq_some_iff.1 hr).1⟩
    show i.merge e tops = _
    rw [merge_commits hkind, hknown, hranks, Extreme.fold_pick_flatten, ← List.filterMap_flatten]

/-- Take any issuer, an end of history and any stamps. Stamps that are absent are left out of the
merge, and it is absent if there are no others. It fails exactly if one of the stamps is of an
unknown view, and with such a view. Otherwise, unless those that are present are all snapshots: if
they are all writes, the merge is one of them, and at or beyond all of them; if not, it is a commit
of the issuer at the furthest of their places, so at or beyond all commits among them. It does not
depend on the order or repetition of the stamps, as far as stamps at one place can be told apart;
and commits that are divided into groups in any way, and merged group by group first, merge into the
same. -/
theorem merge_laws (i : Issuer) (e : Extreme) (stamps : List Stamp) :
    i.merge e stamps = i.merge e (stamps.filter (!·.isAbsent)) ∧
    ((∀ v ∈ stamps, v = .absent) → i.merge e stamps = .ok .absent) ∧
    ((∃ view, i.merge e stamps = .error (.unknownView view)) ↔ ∃ v ∈ stamps, ¬ i.Knows v) ∧
    (∀ fault, i.merge e stamps = .error fault →
      ∃ v ∈ stamps, ∃ view, v.view? = some view ∧ i.views.knows view = false ∧
      fault = .unknownView view) ∧
    (∀ merged, i.merge e stamps = .ok merged →
      (¬ Stamp.Only .snapshot stamps → Stamp.Only .write stamps →
        ∃ w, merged = .write w ∧ .write w ∈ stamps ∧ ∀ u, .write u ∈ stamps →
        e.bounds merged (.write u) = .ok true) ∧
      (¬ Stamp.Only .snapshot stamps → ¬ Stamp.Only .write stamps →
        ∃ r, merged = .commit (i.stampAt r) ∧ (∃ v ∈ stamps, v.rank? = some r) ∧
          (∀ v ∈ stamps, ∀ r', v.rank? = some r' → e.Reaches r r') ∧
          ∀ c, .commit c ∈ stamps → e.bounds merged (.commit c) = .ok true) ∧
      ∀ stamps', (∀ v, v ∈ stamps' ↔ v ∈ stamps) →
        ∃ merged', i.merge e stamps' = .ok merged' ∧ merged'.Alike merged) ∧
    (Stamp.Only .commit stamps → ∀ groups : List (List Stamp), groups.flatten = stamps →
      (do i.merge e (← groups.mapM (i.merge e))) = i.merge e stamps) := by
  refine ⟨?_, merge_absent, ?_, fun fault => merge_error, ?_, ?_⟩
  · simp only [merge, List.filter_filter, Bool.and_self]
  · constructor
    · rintro ⟨view, herror⟩
      obtain ⟨v, hv, view, hview, hunknown, -⟩ := merge_error herror
      exact ⟨v, hv, fun hknows => Bool.false_ne_true (hunknown.symm.trans (hknows view hview))⟩
    · rintro ⟨v, hv, hunknown⟩
      cases hmerge : i.merge e stamps with
      | ok merged => exact absurd (exists_merge_ok_iff.1 ⟨merged, hmerge⟩ v hv) hunknown
      | error fault =>
        obtain ⟨_, -, view, -, -, rfl⟩ := merge_error hmerge
        exact ⟨view, rfl⟩
  · intro merged hmerged
    refine ⟨?_, ?_, ?_⟩
    · intro hmixed hwrites
      obtain ⟨w, rfl, hw, hreaches⟩ := merge_writes hwrites hmixed hmerged
      exact ⟨w, rfl, hw, fun u hu => Extreme.bounds_write_iff.2 (hreaches u hu)⟩
    · intro hmixed hmixed'
      obtain ⟨r, rfl, hr, hreaches⟩ := merge_mixed hmixed hmixed' hmerged
      exact ⟨r, rfl, hr, hreaches, fun c hc =>
        Extreme.bounds_commit_iff.2 (hreaches _ hc c.rank rfl)⟩
    · intro stamps' hsame
      have hknown := exists_merge_ok_iff.1 ⟨merged, hmerged⟩
      obtain ⟨merged', hmerged'⟩ :=
        (exists_merge_ok_iff (e := e)).2 fun v hv => hknown v ((hsame v).1 hv)
      exact ⟨merged', hmerged', alike_of_merge hsame hmerged hmerged'⟩
  · rintro hall groups rfl
    exact merge_groups groups hall

/-- A write, a commit and a snapshot, with an absent stamp among them, merge into the commit that
the issuer makes of the write; and of two commits of one value, each in a group of its own, the one
of the older view is the least. -/
theorem merge_laws_mixed :
    ∃ (i : Issuer) (stamps commits : List Stamp) (merged' : Stamp),
      i = ⟨.distributed, (ViewTable.single ⟨1, ["a"]⟩).add ⟨2, ["a"]⟩⟩ ∧
      stamps = [.absent, .write ⟨2, 4, 7⟩, .commit ⟨.replicated, 1, 4⟩,
        .snapshot { view := 2, value := 3 }] ∧
      commits = [.commit ⟨.replicated, 2, 4⟩, .commit ⟨.distributed, 1, 4⟩] ∧
      i.merge .greatest stamps = .ok (.commit ⟨.distributed, 2, 4⟩) ∧
      Extreme.greatest.bounds (.commit ⟨.distributed, 2, 4⟩) (.commit ⟨.replicated, 1, 4⟩) =
        .ok true ∧
      i.merge .greatest (stamps.reverse ++ stamps) = .ok merged' ∧
      merged'.Alike (.commit ⟨.distributed, 2, 4⟩) ∧
      (do
        let merged ← [[Stamp.commit ⟨.replicated, 2, 4⟩], [Stamp.commit ⟨.distributed, 1, 4⟩]].mapM
          (i.merge .least)
        i.merge .least merged) = .ok (.commit ⟨.distributed, 1, 4⟩) := by
  obtain ⟨i, stamps, commits, hi, hstamps, hcommits, hmerged, hleast⟩ :
      ∃ (i : Issuer) (stamps commits : List Stamp),
      i = ⟨.distributed, (ViewTable.single ⟨1, ["a"]⟩).add ⟨2, ["a"]⟩⟩ ∧
      stamps = [.absent, .write ⟨2, 4, 7⟩, .commit ⟨.replicated, 1, 4⟩,
        .snapshot { view := 2, value := 3 }] ∧
      commits = [.commit ⟨.replicated, 2, 4⟩, .commit ⟨.distributed, 1, 4⟩] ∧
      i.merge .greatest stamps = .ok (.commit ⟨.distributed, 2, 4⟩) ∧
      i.merge .least commits = .ok (.commit ⟨.distributed, 1, 4⟩) :=
        ⟨_, _, _, rfl, rfl, rfl, rfl, rfl⟩
  have hcommit : Stamp.commit ⟨.replicated, 1, 4⟩ ∈ stamps := by simp [hstamps]
  have hmixed {α : Type} {make : α → Stamp} (hne : ∀ a, make a ≠ .commit ⟨.replicated, 1, 4⟩) :
      ¬ Stamp.Only make stamps := by
    intro honly
    rcases honly _ hcommit with habsent | ⟨a, ha⟩
    · cases habsent
    · exact hne a ha.symm
  have honly : Stamp.Only .commit commits := by simp [Stamp.Only, hcommits]
  obtain ⟨-, -, -, -, hlaws, -⟩ := merge_laws i .greatest stamps
  obtain ⟨-, hfurthest, horder⟩ := hlaws _ hmerged
  obtain ⟨_, -, -, -, hbounds⟩ :=
    hfurthest (hmixed fun _ h => nomatch h) (hmixed fun _ h => nomatch h)
  obtain ⟨merged', hmerged', halike⟩ := horder (stamps.reverse ++ stamps) fun v => by simp
  obtain ⟨-, -, -, -, -, hgroups⟩ := merge_laws i .least commits
  refine ⟨i, stamps, commits, merged', hi, hstamps, hcommits, hmerged, hbounds _ hcommit,
    hmerged', halike, ?_⟩
  exact (hgroups honly [[.commit ⟨.replicated, 2, 4⟩],
    [.commit ⟨.distributed, 1, 4⟩]] hcommits.symm).trans hleast

end Issuer
end Multiversion
