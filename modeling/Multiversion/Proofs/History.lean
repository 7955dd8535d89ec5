import Multiversion.Member.Commit
import Multiversion.Proofs.Timelines
/- The history of commits, as a plain map sees it and as timelines keep it.

   Applied one after the other, commits leave a plain map (`heldAfter`). The same commits, each with
   the entry it was logged as (`Record`), give every key the revisions that its owner stores
   (`revisionsOf`), and the plain map is what the newest of them hold (`heldAfter_eq`). A timeline
   may have lost the oldest revisions as long as it knows of it (`Timeline.NewestOf`): a look-up
   that admits the commits of a first part of the history, and none of the rest, then finds what the
   plain map held after the first part, or fails (`Store.value_of_get`). -/
namespace Multiversion

/-- What a write leaves in a plain map; without a value the key is removed. -/
def Write.applyTo (w : Write) (m : Key → Option Value) : Key → Option Value :=
  fun k => if k = w.change.key then w.value else m k

/-- What a commit leaves in a plain map. -/
def Commit.applyTo (c : Commit) (m : Key → Option Value) : Key → Option Value :=
  c.writes.foldl (fun m w => w.applyTo m) m

/-- The commit of a single write. -/
def Commit.single (stamp : CommitStamp) (k : Key) (value : Option Value) : Commit :=
  ⟨.commit stamp, [.ofValue k value none], .empty⟩

/-- What a plain map holds after a sequence of commits; none for a key that was removed or never
written. -/
def heldAfter (commits : List Commit) : Key → Option Value :=
  commits.foldl (fun m c => c.applyTo m) fun _ => none

/-- The last value that writes give to a key, if there is a write of it. -/
def lastValue (k : Key) : List Write → Option (Option Value)
  | [] => none
  | w :: rest => (lastValue k rest).or (if k = w.change.key then some w.value else none)

theorem Commit.applyTo_apply (c : Commit) (m : Key → Option Value) (k : Key) :
    c.applyTo m k = (lastValue k c.writes).getD (m k) := by
  rw [applyTo]
  induction c.writes generalizing m with
  | nil => rfl
  | cons w rest ih =>
    rw [List.foldl_cons, ih, lastValue, Write.applyTo]
    cases lastValue k rest with
    | some v => rfl
    | none => split <;> rfl

theorem lastValue_eq_none_iff {k : Key} {ws : List Write} :
    lastValue k ws = none ↔ ∀ w ∈ ws, w.change.key ≠ k := by
  induction ws with
  | nil => simp [lastValue]
  | cons w rest ih =>
    rw [lastValue, Option.or_eq_none_iff, ih, List.forall_mem_cons, and_comm]
    simp [eq_comm]

theorem exists_lastValue {k : Key} {ws : List Write} (h : ∃ w ∈ ws, w.change.key = k) :
    ∃ v, lastValue k ws = some v := by
  obtain ⟨w, hw, hkey⟩ := h
  exact Option.ne_none_iff_exists'.1 fun hnone => lastValue_eq_none_iff.1 hnone w hw hkey

theorem lastValue_append {k : Key} {ws ws' : List Write} :
    lastValue k (ws ++ ws') = (lastValue k ws').or (lastValue k ws) := by
  induction ws with
  | nil => rw [List.nil_append, lastValue, Option.or_none]
  | cons w rest ih => rw [List.cons_append, lastValue, lastValue, ih, Option.or_assoc]

/-- A commit with the entry it was logged as. -/
structure Record where
  commit : Commit
  entry : Entry

namespace Record

/-- The revision that the owner of a key stores for the commit, if the commit writes the key. -/
def revision? (k : Key) (r : Record) : Option Revision :=
  (lastValue k r.commit.writes).map fun v => ⟨r.entry.write, v, none⟩

theorem stamp_revision {k : Key} {r : Record} {v : Revision} (h : r.revision? k = some v) :
    v.stamp = r.entry.write ∧ v.expires = none := by
  obtain ⟨_, -, rfl⟩ := Option.map_eq_some_iff.1 h
  exact ⟨rfl, rfl⟩

end Record

/-- The revisions of a key that its owner has stored, newest first. -/
def revisionsOf (k : Key) (rs : List Record) : List Revision :=
  (rs.filterMap (·.revision? k)).reverse

variable {k : Key} {rs rs' : List Record}

@[simp] theorem revisionsOf_append :
    revisionsOf k (rs ++ rs') = revisionsOf k rs' ++ revisionsOf k rs := by
  simp [revisionsOf]

theorem mem_revisionsOf {v : Revision} :
    v ∈ revisionsOf k rs ↔ ∃ r ∈ rs, r.revision? k = some v := by
  simp [revisionsOf]

/-- What a plain map holds for a key is what the newest revision of the key holds. -/
theorem heldAfter_eq (k : Key) (rs : List Record) :
    heldAfter (rs.map (·.commit)) k = (revisionsOf k rs).head?.bind (·.value) := by
  -- The induction is on the commits, over whatever the map held before them.
  have hfrom : ∀ m : Key → Option Value, (rs.map (·.commit)).foldl (fun m c => c.applyTo m) m k =
      ((revisionsOf k rs).head?.map (·.value)).getD (m k) := by
    induction rs with
    | nil => exact fun m => rfl
    | cons r rest ih =>
      intro m
      rw [List.map_cons, List.foldl_cons, ih, Commit.applyTo_apply]
      rw [← List.singleton_append, revisionsOf_append, List.head?_append]
      cases (revisionsOf k rest).head? with
      | some v => rfl
      | none => cases hv : lastValue k r.commit.writes <;> simp [revisionsOf, Record.revision?, hv]
  rw [heldAfter, hfrom]
  cases (revisionsOf k rs).head? <;> rfl

/-- The timeline has the newest of some revisions. It knows whether it lacks any of them, and as
long as there were any it has the newest one. -/
def Timeline.NewestOf (t : Timeline) (full : List Revision) : Prop :=
  ∃ lost, full = t.revisions ++ lost ∧ (t.trimmed = true ↔ lost ≠ []) ∧
    (t.revisions = [] → lost = [])

namespace Timeline

variable {t : Timeline} {full : List Revision}

theorem newestOf_empty : empty.NewestOf [] := ⟨[], rfl, by simp [empty], fun _ => rfl⟩

theorem NewestOf.newest?_eq (h : t.NewestOf full) : t.newest? = full.head? := by
  obtain ⟨lost, hfull, -, hnil⟩ := h
  rw [newest?, hfull]
  cases hl : t.revisions with
  | nil => rw [hnil hl]; rfl
  | cons r older => rfl

theorem NewestOf.append {t' : Timeline} {added : List Revision} (h : t.NewestOf full)
    (hrev : t'.revisions = added ++ t.revisions) (htrim : t'.trimmed = t.trimmed) :
    t'.NewestOf (added ++ full) := by
  obtain ⟨lost, hfull, htrimmed, hnil⟩ := h
  refine ⟨lost, by rw [hfull, hrev, List.append_assoc], by rw [htrim, htrimmed], fun h => hnil ?_⟩
  rw [hrev] at h
  exact (List.append_eq_nil_iff.1 h).2

theorem NewestOf.collect {keep : WriteStamp → Bool} (h : t.NewestOf full) :
    (t.collect keep).NewestOf full := by
  obtain ⟨lost, hfull, htrimmed, hnil⟩ := h
  obtain ⟨cut, hcut⟩ := exists_collect_append keep t
  refine ⟨cut ++ lost, ?_, ?_, ?_⟩
  · rw [hfull, ← List.append_assoc, ← hcut]
  · have hboth : cut ++ lost ≠ [] ↔ cut ≠ [] ∨ lost ≠ [] := by
      rw [ne_eq, List.append_eq_nil_iff]
      exact Classical.not_and_iff_not_or_not
    rw [trimmed_collect_iff hcut, htrimmed, hboth]
    exact or_comm
  · intro h
    have hrev : t.revisions = [] := by
      cases hl : t.revisions with
      | nil => rfl
      | cons r older => exact absurd h (throughFirst_ne_nil (by simp [hl]))
    rw [hrev] at hcut
    rw [hnil hrev, List.append_nil]
    exact (List.append_eq_nil_iff.1 hcut.symm).2

theorem NewestOf.expire_eq (h : t.NewestOf full) (now : Nat) (hexp : ∀ r ∈ full, r.expires = none) :
    (if (t.expire now).2.isEmpty then empty else (t.expire now).2) = t := by
  obtain ⟨lost, hfull, htrimmed, hnil⟩ := h
  have hself : t.revisions.filter (!·.isExpired now) = t.revisions := by
    apply List.filter_eq_self.2
    intro r hr
    have := hexp r (hfull ▸ List.mem_append_left lost hr)
    simp [Revision.isExpired, this]
  obtain ⟨revisions, decreasing, trimmed⟩ := t
  simp only at hself htrimmed hnil
  simp only [Timeline.expire, isEmpty, hself]
  split
  · next hempty =>
    obtain rfl := List.isEmpty_iff.1 hempty
    simp only [hnil, ne_eq, not_true_eq_false, iff_false, Bool.not_eq_true] at htrimmed
    simp [empty, htrimmed]
  · rfl

end Timeline

/-- A look-up that admits the first part of the history and nothing of the rest finds what a plain
map held after the first part. -/
theorem Store.value_of_get {s : Store} {b : Snapshot} {ans : Answer}
    (hkept : (s.timeline k).NewestOf (revisionsOf k (rs ++ rs')))
    (hseen : ∀ r ∈ rs, b.admits r.entry.write = true)
    (hunseen : ∀ r ∈ rs', b.admits r.entry.write = false) (h : s.get k (.snapshot b) = .ok ans) :
    ans.value = heldAfter (rs.map (·.commit)) k := by
  obtain ⟨lost, hfull, htrimmed, -⟩ := hkept
  have hfind : (revisionsOf k (rs ++ rs')).find? (b.admits ·.stamp) = (revisionsOf k rs).head? := by
    have hnone : (revisionsOf k rs').find? (b.admits ·.stamp) = none := by
      rw [List.find?_eq_none]
      intro v hv
      obtain ⟨r, hr, hrv⟩ := mem_revisionsOf.1 hv
      simp [(Record.stamp_revision hrv).1, hunseen r hr]
    rw [revisionsOf_append, List.find?_append, hnone, Option.none_or]
    cases hl : revisionsOf k rs with
    | nil => rfl
    | cons v older =>
      obtain ⟨r, hr, hrv⟩ := mem_revisionsOf.1 (hl ▸ List.mem_cons_self : v ∈ revisionsOf k rs)
      simp [(Record.stamp_revision hrv).1, hseen r hr]
  rw [heldAfter_eq, ← hfind, hfull, List.find?_append, ← Timeline.revision_sight]
  rw [get_snapshot] at h
  cases hs : (s.timeline k).sight b.admits with
  | some found =>
    rw [hs] at h
    cases h
    rfl
  | none =>
    rw [hs] at h
    by_cases ht : (s.timeline k).trimmed = true
    · simp [ht] at h
    · rw [if_neg ht] at h
      have hlost : lost = [] := Classical.byContradiction fun hne => ht (htrimmed.2 hne)
      cases h
      rw [hlost]
      rfl

end Multiversion
