import Multiversion.Proofs.Lookup
/- What a collection takes from a timeline, and what it leaves to find.

   A collection up to a stamp takes the revisions that are older than the newest one that the stamp
   admits, and only these (`Timeline.Superseded`, `Timeline.mem_lost_iff`). A look-up at a stamp
   that admits everything that the first stamp does stops above the cut, so it notices nothing
   (`Timeline.find_collect`). A look-up at any other stamp stops above the cut as before, or falls
   through the cut, and then the timeline knows that there was more (`Store.get_cases_of_collect`).
   So a read after a collection gives the same answer or none (`gc_exact`). -/
namespace Multiversion

namespace Timeline

/-- A collection up to the stamp is to take the revision: it is older than the newest one that the
stamp admits. An absent stamp takes nothing. -/
def Superseded (t : Timeline) (least : Stamp) (r : Revision) : Prop :=
  least ≠ .absent ∧ ∃ newest, t.IsNewest least newest ∧ r.position < newest.position

variable {t : Timeline} {least asOf : Stamp} {visible : WriteStamp → Bool} {lost : List Revision}

theorem collect_split {above below : List Revision} {r : Revision}
    (h : t.revisions = above ++ r :: below) (habove : ∀ q ∈ above, visible q.stamp = false)
    (hr : visible r.stamp = true) :
    (t.collect visible).revisions = above ++ [r] := by
  show throughFirst visible t.revisions = _
  rw [h]
  clear h
  induction above with
  | nil => rw [List.nil_append, throughFirst, if_pos hr]; rfl
  | cons q rest ih =>
    obtain ⟨hq, hrest⟩ := List.forall_mem_cons.1 habove
    rw [List.cons_append, throughFirst, if_neg (by simp [hq]), ih hrest, List.cons_append]

/-- What is cut off is what is superseded. -/
theorem mem_lost_iff (hleast : least ≠ .absent) (h : least.visibility = .ok visible)
    (hsplit : t.revisions = (t.collect visible).revisions ++ lost) :
    ∀ r ∈ t.revisions, r ∈ lost ↔ t.Superseded least r := by
  have hshows := shows_sight (t := t) h
  intro r hr
  cases hs : t.sight visible with
  | none =>
    rw [hs] at hshows
    have hself : t.collect visible = t :=
      collect_eq_self fun r hr => search_eq_none_iff.1 hs r (List.dropLast_subset _ hr)
    rw [hself, List.self_eq_append_right] at hsplit
    subst hsplit
    refine iff_of_false List.not_mem_nil ?_
    rintro ⟨-, newest, hnewest, -⟩
    exact hshows newest hnewest.mem hnewest.admitted
  | some found =>
    rw [hs] at hshows
    obtain ⟨above, below, habovebelow, habove, hfound, -⟩ := split_of_sight hs
    rw [collect_split habovebelow habove hfound, habovebelow, List.append_assoc] at hsplit
    obtain rfl : below = lost := List.cons.inj (List.append_cancel_left hsplit) |>.2
    rw [(mem_above_iff habovebelow hr).2]
    refine ⟨fun hlt => ⟨hleast, _, hshows.1, hlt⟩, fun ⟨_, newest, hnewest, hlt⟩ => ?_⟩
    exact Std.lt_of_lt_of_le hlt (hshows.1.le newest hnewest.mem hnewest.admitted)

/-- If a look-up admits everything that a collection cuts at, it finds what it found before. -/
theorem find_collect (h : least.visibility = .ok visible)
    (hadmits : ∀ r ∈ t.revisions, least.Admits r.stamp → asOf.Admits r.stamp) :
    (t.collect visible).find asOf = t.find asOf := by
  cases hs : t.sight visible with
  | none =>
    rw [collect_eq_self fun r hr => search_eq_none_iff.1 hs r (List.dropLast_subset _ hr)]
  | some found =>
    -- What is found is admitted at `asOf` as well, so that is no commit.
    obtain ⟨hmem, hfound⟩ := mem_of_search hs
    obtain ⟨visible', hvisible'⟩ : ∃ visible', asOf.visibility = .ok visible' := by
      apply Stamp.exists_visibility
      have hadmitted := hadmits _ hmem ((Stamp.admits_iff h).1 hfound)
      cases asOf with
      | commit c => exact absurd hadmitted not_false
      | _ => rfl
    rw [find_eq hvisible', find_eq hvisible', sight_collect]
    intro r hr hkeep
    exact (Stamp.admits_iff hvisible').2
      (hadmits r (List.dropLast_subset _ hr) ((Stamp.admits_iff h).1 hkeep))

end Timeline

namespace Store

variable {s s' : Store} {least asOf : Stamp} {visible keep : WriteStamp → Bool} {k : Key}

theorem gc_absent (s : Store) : s.gc .absent = .ok (0, s) := by
  have hsame : s.timelines.mapValues (fun t => t) = s.timelines :=
    OrderedMap.entries_inj.1 (List.map_id _)
  have hnothing : ∀ t : Timeline, t.gc .absent = .ok (0, t) := fun _ => rfl
  obtain ⟨n, s', hgc, rfl, hcount⟩ := gc_of_forall hnothing (fun _ => Nat.zero_add _) s
  rw [hsame, Nat.add_eq_right] at hcount
  rw [hgc, hsame, hcount]

/-- A store is collected timeline by timeline, and what is returned is how many revisions are
gone. -/
theorem exists_gc_ok (s : Store) (h : least.commit? = none) : ∃ n s', s.gc least = .ok (n, s') ∧
    n + s'.count = s.count ∧ ∀ k, ∃ gone, (s.timeline k).gc least = .ok (gone, s'.timeline k) := by
  obtain ⟨visible, hvisible⟩ := Stamp.exists_visibility h
  by_cases hleast : least = .absent
  · subst hleast
    exact ⟨0, s, s.gc_absent, Nat.zero_add _, fun k => ⟨0, rfl⟩⟩
  · obtain ⟨n, hgc, hcount⟩ := gc_eq hleast hvisible s
    refine ⟨n, s.collect visible, hgc, hcount, fun k => ⟨((s.timeline k).cut visible).1, ?_⟩⟩
    rw [Timeline.gc_eq hleast hvisible, timeline_collect, ← Timeline.cut_snd]

/-- A read of a timeline that was cut is answered as before, or is told that the history is gone. -/
theorem get_cases_of_collect (h : asOf.visibility = .ok visible)
    (hcut : s'.timeline k = (s.timeline k).collect keep) :
    s'.get k asOf = s.get k asOf ∨ s'.get k asOf = .error (.unavailable asOf (.collected k)) := by
  rw [get_eq h, get_eq h, hcut]
  rcases Timeline.sight_collect_cases fun _ _ => rfl with hsame | ⟨hnone, htrimmed⟩
  · rw [hsame]
    cases (s.timeline k).sight visible with
    | some found => exact .inl rfl
    | none =>
      cases htrimmed : ((s.timeline k).collect keep).trimmed with
      | true => exact .inr rfl
      | false =>
        -- A timeline that has not lost anything now had not lost anything before.
        have hbefore : (s.timeline k).trimmed = false := (Bool.or_eq_false_iff.1 htrimmed).1
        exact .inl (by rw [hbefore])
  · rw [hnone, htrimmed]
    exact .inr rfl

end Store

/-- Collect up to any stamp that is not a commit. Of every timeline exactly what is older than the
newest revision that the stamp admits is taken, and the number returned is that of the revisions
taken; a timeline that was not empty is not empty, and one knows of a loss exactly if it knew of one
or has lost something now. A look-up that admits every revision that the stamp admits finds what it
found, and until when it is valid. The timelines of a store are collected one by one, the number
returned is that of the revisions that are gone from all of them, and whatever stamp a key is read
at, the answer is what it was, or that the history of the key is gone. -/
theorem gc_exact (least : Stamp) (h : least.commit? = none) :
    (∀ t : Timeline, ∃ n t' lost, t.gc least = .ok (n, t') ∧ t.revisions = t'.revisions ++ lost ∧
      (∀ r ∈ t.revisions, r ∈ lost ↔ t.Superseded least r) ∧ n = lost.length ∧
      (t.revisions ≠ [] → t'.revisions ≠ []) ∧ (t'.trimmed = true ↔ t.trimmed = true ∨ lost ≠ []) ∧
      ∀ asOf, (∀ r ∈ t.revisions, least.Admits r.stamp → asOf.Admits r.stamp) →
      t'.find asOf = t.find asOf) ∧
    ∀ s : Store, ∃ n s', s.gc least = .ok (n, s') ∧ n + s'.count = s.count ∧
      (∀ k, ∃ gone, (s.timeline k).gc least = .ok (gone, s'.timeline k)) ∧
      ∀ k asOf, asOf.commit? = none →
        s'.get k asOf = s.get k asOf ∨
        s'.get k asOf = .error (.unavailable asOf (.collected k)) := by
  obtain ⟨visible, hvisible⟩ := Stamp.exists_visibility h
  constructor
  · intro t
    by_cases hleast : least = .absent
    · subst hleast
      refine ⟨0, t, [], rfl, (List.append_nil _).symm, fun r _ => ?_, rfl, id,
        by simp, fun _ _ => rfl⟩
      exact iff_of_false List.not_mem_nil fun hsuperseded => hsuperseded.1 rfl
    · obtain ⟨lost, hsplit, hcut⟩ := t.cut_eq visible
      refine ⟨lost.length, t.collect visible, lost, ?_, hsplit,
        Timeline.mem_lost_iff hleast hvisible hsplit, rfl, Timeline.throughFirst_ne_nil,
        Timeline.trimmed_collect_iff hsplit, fun _ => Timeline.find_collect hvisible⟩
      rw [Timeline.gc_eq hleast hvisible, hcut]
  · intro s
    obtain ⟨n, s', hs', hcount, htimelines⟩ := s.exists_gc_ok h
    refine ⟨n, s', hs', hcount, htimelines, fun k asOf hasOf => ?_⟩
    obtain ⟨visible', hvisible'⟩ := Stamp.exists_visibility hasOf
    obtain ⟨gone, hgone⟩ := htimelines k
    by_cases hleast : least = .absent
    · subst hleast
      obtain ⟨-, hsame⟩ := Prod.mk.inj (Except.ok.inj hgone)
      exact .inl (by rw [Store.get, Store.get, ← hsame])
    · rw [Timeline.gc_eq hleast hvisible] at hgone
      have hcut : s'.timeline k = (s.timeline k).collect visible := by
        rw [← Timeline.cut_snd, Except.ok.inj hgone]
      exact Store.get_cases_of_collect hvisible' hcut

/-- A snapshot excludes the newest of three revisions. Collecting up to it takes only the oldest: a
read at the second one is answered as before, and a read at the oldest one is told that the history
is gone. -/
theorem gc_exact_excluded : ∃ (s s' : Store) (least : Stamp) (a b c : Revision),
    a = ⟨⟨1, 1, 0⟩, some "a", none⟩ ∧ b = ⟨⟨1, 2, 0⟩, some "b", none⟩ ∧
    c = ⟨⟨1, 3, 0⟩, some "c", none⟩ ∧
    (s.timeline "k").revisions = [c, b, a] ∧ (s.timeline "k").trimmed = false ∧
    least = .snapshot { view := 1, value := 3, excluded := .ofList [⟨3, 0⟩] } ∧
    least.commit? = none ∧
    s.gc least = .ok (1, s') ∧ (s'.timeline "k").revisions = [c, b] ∧
    (s'.timeline "k").trimmed = true ∧
    (∀ r ∈ (s.timeline "k").revisions, least.Admits r.stamp →
      Stamp.Admits (.write b.stamp) r.stamp) ∧
    (s'.timeline "k").find (.write b.stamp) = (s.timeline "k").find (.write b.stamp) ∧
    s.get "k" (.write a.stamp) = .ok (.ofSighting ⟨a, some b.stamp⟩) ∧
    s'.get "k" (.write a.stamp) = .error (.unavailable (.write a.stamp) (.collected "k")) := by
  obtain ⟨s, bound, hs, hbound⟩ : ∃ (s : Store) (bound : Snapshot),
      s = ⟨.ofList [("k", ⟨[⟨⟨1, 3, 0⟩, some "c", none⟩, ⟨⟨1, 2, 0⟩, some "b", none⟩,
        ⟨⟨1, 1, 0⟩, some "a", none⟩], by decide, false⟩)]⟩ ∧
      bound = { view := 1, value := 3, excluded := .ofList [⟨3, 0⟩] } := ⟨_, _, rfl, rfl⟩
  obtain ⟨hcollect, hstore⟩ := gc_exact (.snapshot bound) rfl
  obtain ⟨n, s', hs', hcount, htimelines, -⟩ := hstore s
  obtain ⟨gone, hgone⟩ := htimelines "k"
  obtain ⟨_, t', -, ht', -, -, -, -, -, hfind⟩ := hcollect (s.timeline "k")
  obtain ⟨-, rfl⟩ := Prod.mk.inj (Except.ok.inj (ht'.symm.trans hgone))
  have hcut : s.gc (.snapshot bound) = .ok (1, s.collect bound.admits) := by rw [hs, hbound]; rfl
  obtain ⟨rfl, rfl⟩ := Prod.mk.inj (Except.ok.inj (hs'.symm.trans hcut))
  have hadmits : ∀ r ∈ (s.timeline "k").revisions,
      Stamp.Admits (.snapshot bound) r.stamp → Stamp.Admits (.write ⟨1, 2, 0⟩) r.stamp := by
    rw [hs, hbound]
    decide +kernel
  refine ⟨s, s.collect bound.admits, .snapshot bound, _, _, _, rfl, rfl, rfl,
    by rw [hs]; rfl, by rw [hs]; rfl, by rw [hbound], rfl, hs', ?_, ?_, hadmits,
    hfind _ hadmits, by rw [hs]; rfl, ?_⟩
  all_goals rw [hs, hbound]; rfl

end Multiversion
