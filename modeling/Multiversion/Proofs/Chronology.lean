import Multiversion.Proofs.EntryTest
/- The order of a journal, and the bounds taken from it.

   The entries of a journal are chronological: each one lies before the next by place and not after
   it by rank (`Entry.Before`). From that follows what a bound taken at a stamp admits of the
   journal's own commits, namely the ones at or before the stamp (`admits_snapshotAt_iff`); that a
   snapshot which cuts history at a journaled place still does when it is taken again
   (`cutsAt_snapshotAt`); and that trimming the journal below an entry that the stamp reaches does
   not change the bound (`snapshotAt_trimmed`). -/
namespace Multiversion

namespace Entry

/-- The first entry lies before the second: its writes come before, and its commit does not come
after. -/
structure Before (a b : Entry) : Prop where
  position_lt : a.position < b.position
  rank_le : a.stamp.rank ≤ b.stamp.rank

theorem Before.trans {a b c : Entry} (h : a.Before b) (h' : b.Before c) : a.Before c :=
  ⟨Std.lt_trans h.position_lt h'.position_lt, Std.le_trans h.rank_le h'.rank_le⟩

theorem before_of_follows {e last : Entry} (h : e.follows last = true) : last.Before e := by
  simp only [follows, Bool.and_eq_true, Bool.or_eq_true, decide_eq_true_eq] at h
  obtain ⟨hrank | ⟨hrank, -⟩, hpos⟩ := h
  · exact ⟨hpos, Std.le_of_lt hrank⟩
  · exact ⟨hpos, hrank ▸ Std.le_refl _⟩

theorem before_or_eq_or_before {l : List Entry} (hl : l.Pairwise Before) {a b : Entry}
    (ha : a ∈ l) (hb : b ∈ l) :
    a.Before b ∨ a = b ∨ b.Before a := by
  induction l with
  | nil => simp at ha
  | cons c rest ih =>
    obtain ⟨hc, hrest⟩ := List.pairwise_cons.1 hl
    rcases List.mem_cons.1 ha with rfl | ha' <;> rcases List.mem_cons.1 hb with rfl | hb'
    · exact .inr (.inl rfl)
    · exact .inl (hc b hb')
    · exact .inr (.inr (hc a ha'))
    · exact ih hrest ha' hb'

theorem eq_of_position_eq {l : List Entry} (hl : l.Pairwise Before) {a b : Entry} (ha : a ∈ l)
    (hb : b ∈ l) (h : a.position = b.position) : a = b := by
  rcases before_or_eq_or_before hl ha hb with hbefore | heq | hbefore
  · exact absurd (h ▸ hbefore.position_lt) Std.lt_irrefl
  · exact heq
  · exact absurd (h ▸ hbefore.position_lt) Std.lt_irrefl

theorem pairwise_cons_of_follows {last e : Entry} {rest : List Entry} (h : e.follows last = true)
    (hrest : (e :: rest).Pairwise Before) : (last :: e :: rest).Pairwise Before := by
  have hfirst := before_of_follows h
  refine List.pairwise_cons.2 ⟨?_, hrest⟩
  intro f hf
  rcases List.mem_cons.1 hf with rfl | hf
  · exact hfirst
  · exact hfirst.trans ((List.pairwise_cons.1 hrest).1 f hf)

theorem eq_or_before_getLast {l : List Entry} (hl : l.Pairwise Before) {last e : Entry}
    (hlast : l.getLast? = some last) (he : e ∈ l) : e = last ∨ e.Before last := by
  obtain ⟨older, rfl⟩ := List.getLast?_eq_some_iff.1 hlast
  rcases List.mem_append.1 he with he | he
  · exact .inr ((List.pairwise_append.1 hl).2.2 e he last List.mem_cons_self)
  · exact .inl (List.mem_singleton.1 he)

/-- Unless the bound is a snapshot, what lies before an entry at or before it is at or before it
too. -/
theorem atOrBefore_of_before {e f : Entry} {bound : Stamp} (hf : f.atOrBefore bound = true)
    (hle : e.Before f) (hb : bound.snapshot? = none) : e.atOrBefore bound = true := by
  cases bound with
  | absent => rfl
  | snapshot s => simp [Stamp.snapshot?] at hb
  | write w =>
    exact atOrBefore_write.2 (Std.le_trans (Std.le_of_lt hle.position_lt) (atOrBefore_write.1 hf))
  | commit c => exact atOrBefore_commit.2 (Std.le_trans hle.rank_le (atOrBefore_commit.1 hf))

theorem value_le_of_atOrBefore {e : Entry} {bound : Stamp} {v : Int64}
    (he : e.atOrBefore bound = true) (hb : bound.snapshot? = none) (hv : bound.value? = some v) :
    e.stamp.value ≤ v := by
  cases bound with
  | absent => simp [Stamp.value?, Stamp.rank?] at hv
  | snapshot s => simp [Stamp.snapshot?] at hb
  | write w =>
    obtain rfl : w.value = v := Option.some.inj hv
    have hvalue := Position.value_le (atOrBefore_write.1 he)
    exact hvalue
  | commit c =>
    obtain rfl : c.value = v := Option.some.inj hv
    have hvalue := Rank.value_le (atOrBefore_commit.1 he)
    exact hvalue

end Entry

namespace Issuer

theorem check_eq_ok {t : ViewTable} {id : Nat} : t.check id = .ok () ↔ t.knows id = true := by
  rw [ViewTable.check]
  split
  · next h => simp [h]
  · next h => simp [h]

theorem check_eq_error {t : ViewTable} {id : Nat} {fault : StampFault} :
    t.check id = .error fault ↔ t.knows id = false ∧ fault = .unknownView id := by
  rw [ViewTable.check]
  split
  · next h => simp [h]
  · next h => simp [h, eq_comm]

theorem checkAll_eq_ok {i : Issuer} {ranks : List Rank} :
    i.checkAll ranks = .ok () ↔ ∀ r ∈ ranks, i.views.knows r.view = true := by
  induction ranks with
  | nil => simp [checkAll]
  | cons r rest ih =>
    rw [checkAll, bind_eq_ok, List.forall_mem_cons, ← ih]
    exact ⟨fun ⟨_, hr, hrest⟩ => ⟨check_eq_ok.1 hr, hrest⟩,
      fun ⟨hr, hrest⟩ => ⟨(), check_eq_ok.2 hr, hrest⟩⟩

/-- The bound of a stamp that is not a snapshot reaches to the last sub-version of its value and
excludes nothing. -/
theorem toSnapshot_ok {i : Issuer} {bound : Stamp} {s : Snapshot} (h : i.toSnapshot bound = .ok s) :
    bound = .snapshot s ∨
      bound.snapshot? = none ∧ s.pin = none ∧ s.excluded = .empty ∧
        (bound = .absent ∧ s.value = Int64.maxValue ∨ bound.value? = some s.value) := by
  cases bound with
  | absent =>
    simp only [toSnapshot, Except.ok.injEq] at h
    subst h
    exact .inr ⟨rfl, rfl, rfl, .inl ⟨rfl, rfl⟩⟩
  | snapshot t =>
    simp only [toSnapshot, bind_eq_ok, pure_eq_ok, Except.ok.injEq] at h
    obtain ⟨-, -, rfl⟩ := h
    exact .inl rfl
  | write w =>
    simp only [toSnapshot, rankOf, Stamp.rank?, bind_eq_ok, pure_eq_ok, Except.ok.injEq] at h
    obtain ⟨r, ⟨-, -, rfl⟩, rfl⟩ := h
    exact .inr ⟨rfl, rfl, rfl, .inr rfl⟩
  | commit c =>
    simp only [toSnapshot, rankOf, Stamp.rank?, bind_eq_ok, pure_eq_ok, Except.ok.injEq] at h
    obtain ⟨r, ⟨-, -, rfl⟩, rfl⟩ := h
    exact .inr ⟨rfl, rfl, rfl, .inr rfl⟩

theorem admits_toSnapshot {i : Issuer} {bound : Stamp} {s : Snapshot}
    (h : i.toSnapshot bound = .ok s) {e : Entry} (he : e.atOrBefore bound = true) :
    s.admits e.write = true := by
  rcases toSnapshot_ok h with rfl | ⟨hb, hpin, hx, hv⟩
  · rwa [Entry.atOrBefore_snapshot] at he
  · have hvalue : e.stamp.value ≤ s.value := by
      rcases hv with ⟨-, hv⟩ | hv
      · rw [hv]
        exact Position.le_maxValue e.stamp.value
      · exact Entry.value_le_of_atOrBefore he hb hv
    refine Snapshot.admitsAt_iff.2 ⟨?_, by simp [hx]⟩
    rw [Snapshot.position, hpin]
    exact Position.le_last_iff.2 hvalue

end Issuer

namespace Journal

variable {i : Issuer} {j : Journal} {bound : Stamp} {s t : Snapshot} {p : Position}

theorem floor_cases (j : Journal) (bound : Stamp) :
    (j.floor? bound = none ∧ j.passed bound = j.entries.reverse ∧
      ∀ e ∈ j.entries, e.atOrBefore bound = false) ∨
      ∃ older f newer, j.entries = older ++ f :: newer ∧ f.atOrBefore bound = true ∧
        (∀ e ∈ newer, e.atOrBefore bound = false) ∧ j.floor? bound = some f ∧
        j.passed bound = newer.reverse := by
  cases hf : j.floor? bound with
  | none =>
    have hall : ∀ e ∈ j.entries, e.atOrBefore bound = false := by
      simpa [floor?, List.find?_eq_none] using hf
    refine .inl ⟨rfl, ?_, hall⟩
    rw [passed, ← List.append_nil j.entries.reverse, List.takeWhile_append_of_pos,
      List.takeWhile_nil]
    intro e he
    simp [hall e (List.mem_reverse.1 he)]
  | some f =>
    obtain ⟨hfb, newer, older, hsplit, hnewer⟩ := List.find?_eq_some_iff_append.1 hf
    refine .inr ⟨older.reverse, f, newer.reverse, ?_, hfb, ?_, rfl, ?_⟩
    · rw [← List.reverse_reverse j.entries, hsplit]
      simp
    · intro e he
      simpa using hnewer e (List.mem_reverse.1 he)
    · rw [passed, hsplit, List.takeWhile_append_of_pos (fun e he => hnewer e he)]
      simp [hfb]

theorem not_atOrBefore_of_mem_passed {e : Entry} (h : e ∈ j.passed bound) :
    e ∈ j.entries ∧ e.atOrBefore bound = false := by
  have hmem := List.mem_reverse.1 ((List.takeWhile_sublist _).subset h)
  have hnot := (List.all_eq_true.1 List.all_takeWhile) e h
  exact ⟨hmem, by simpa using hnot⟩

theorem atOrBefore_of_floor? {f : Entry} (h : j.floor? bound = some f) :
    f ∈ j.entries ∧ f.atOrBefore bound = true :=
  ⟨List.mem_reverse.1 (List.mem_of_find?_eq_some h), by
    obtain ⟨hb, -⟩ := List.find?_eq_some_iff_append.1 h
    exact hb⟩

theorem le_floor_of_atOrBefore (hj : j.entries.Pairwise Entry.Before) {f e : Entry}
    (hf : j.floor? bound = some f) (he : e ∈ j.entries) (hb : e.atOrBefore bound = true) :
    e = f ∨ e.Before f := by
  rcases floor_cases j bound with ⟨hnone, -⟩ | ⟨older, g, newer, hsplit, -, hnewer, hg, -⟩
  · simp [hnone] at hf
  · obtain rfl : g = f := Option.some.inj (hg.symm.trans hf)
    rw [hsplit] at he hj
    rcases List.mem_append.1 he with he | he
    · exact .inr ((List.pairwise_append.1 hj).2.2 e he g List.mem_cons_self)
    · rcases List.mem_cons.1 he with rfl | he
      · exact .inl rfl
      · simp [hnewer e he] at hb

theorem snapshotAt_eq {s₀ : Snapshot} (h : i.toSnapshot bound = .ok s₀) :
    j.snapshotAt i bound = .ok (pinTo (excludeWrites s₀ (j.passed bound)) (j.floor? bound)) := by
  rw [snapshotAt_eq_passed, h]
  rfl

theorem snapshotAt_ok (h : j.snapshotAt i bound = .ok s) : ∃ s₀, i.toSnapshot bound = .ok s₀ ∧
    s = pinTo (excludeWrites s₀ (j.passed bound)) (j.floor? bound) := by
  simp only [snapshotAt_eq_passed, bind_eq_ok, mapError_eq_ok, pure_eq_ok, Except.ok.injEq] at h
  obtain ⟨s₀, hs₀, rfl⟩ := h
  exact ⟨s₀, hs₀, rfl⟩

theorem snapshotAt_snapshot_ok (h : j.snapshotAt i (.snapshot s) = .ok t) :
    i.views.knows s.view = true ∧
      t = pinTo (excludeWrites s (j.passed (.snapshot s))) (j.floor? (.snapshot s)) := by
  simp only [snapshotAt_eq_passed, Issuer.toSnapshot, bind_eq_ok, mapError_eq_ok, pure_eq_ok,
    Except.ok.injEq] at h
  obtain ⟨_, ⟨_, hknown, rfl⟩, rfl⟩ := h
  exact ⟨Issuer.check_eq_ok.1 hknown, rfl⟩

theorem mem_excluded_bound {s₀ : Snapshot} {newer : List Entry} {f : Option Entry} :
    p ∈ (pinTo (excludeWrites s₀ newer) f).excluded ↔
      p ∈ s₀.excluded ∨ ∃ e ∈ newer, e.stamp.value ≤ s₀.value ∧ p = e.position := by
  rw [excluded_pinTo, mem_excludeWrites]

theorem position_bound {s₀ : Snapshot} {newer : List Entry} {f : Option Entry} :
    (pinTo (excludeWrites s₀ newer) f).position = s₀.position ∨
      ∃ e, f = some e ∧ s₀.pin = none ∧ e.stamp.value = s₀.value ∧
        (pinTo (excludeWrites s₀ newer) f).position = e.position := by
  have hpos : (excludeWrites s₀ newer).position = s₀.position := by rw [excludeWrites_eq]; rfl
  have hpin : (excludeWrites s₀ newer).pin = s₀.pin := by rw [excludeWrites_eq]
  have hvalue : (excludeWrites s₀ newer).value = s₀.value := by rw [excludeWrites_eq]
  rcases position_pinTo (excludeWrites s₀ newer) f with h | ⟨e, hf, hp, hv, h⟩
  · exact .inl (h.trans hpos)
  · exact .inr ⟨e, hf, hpin ▸ hp, hvalue ▸ hv, h⟩

theorem position_bound_le {s₀ : Snapshot} {newer : List Entry} {f : Option Entry} :
    (pinTo (excludeWrites s₀ newer) f).position ≤ s₀.position := by
  have hpos : (excludeWrites s₀ newer).position = s₀.position := by rw [excludeWrites_eq]; rfl
  exact hpos ▸ position_pinTo_le (excludeWrites s₀ newer) f

/-- Of the journal's own commits a bound admits only those at or before the stamp: a later one was
passed, and so is excluded unless it lies beyond the bound. -/
theorem atOrBefore_of_admits (hj : j.entries.Pairwise Entry.Before)
    (h : j.snapshotAt i bound = .ok s) {e : Entry} (he : e ∈ j.entries)
    (hadm : s.admits e.write = true) : e.atOrBefore bound = true := by
  obtain ⟨s₀, hs₀, rfl⟩ := snapshotAt_ok h
  obtain ⟨hpos, hexc⟩ := Snapshot.admitsAt_iff.1 hadm
  rw [mem_excluded_bound, not_or] at hexc
  have hpos₀ : e.position ≤ s₀.position := Std.le_trans hpos position_bound_le
  have hpassed : e ∉ j.passed bound := by
    intro hmem
    have hvalue := Position.value_le hpos₀
    exact hexc.2 ⟨e, hmem, hvalue, rfl⟩
  rcases floor_cases j bound with ⟨-, hp, -⟩ | ⟨older, f, newer, hsplit, hfb, -, -, hp⟩
  · rw [hp] at hpassed
    exact absurd (List.mem_reverse.2 he) hpassed
  · rw [hp, List.mem_reverse] at hpassed
    rw [hsplit] at he hj
    rcases List.mem_append.1 he with hold | hnew
    · -- What is older than the newest entry at or before the stamp is so as well, also if the stamp
      -- is a snapshot: then the bound admits nothing that the snapshot does not admit.
      have hbefore := (List.pairwise_append.1 hj).2.2 e hold f List.mem_cons_self
      rcases Issuer.toSnapshot_ok hs₀ with rfl | ⟨hb, -⟩
      · rw [Entry.atOrBefore_snapshot]
        exact Snapshot.admitsAt_iff.2 ⟨hpos₀, hexc.1⟩
      · exact Entry.atOrBefore_of_before hfb hbefore hb
    · rcases List.mem_cons.1 hnew with rfl | hnew
      · exact hfb
      · exact absurd hnew hpassed

theorem admits_of_atOrBefore (hj : j.entries.Pairwise Entry.Before)
    (h : j.snapshotAt i bound = .ok s) {e : Entry} (he : e ∈ j.entries)
    (hb : e.atOrBefore bound = true) : s.admits e.write = true := by
  obtain ⟨s₀, hs₀, rfl⟩ := snapshotAt_ok h
  obtain ⟨hpos, hexc⟩ := Snapshot.admitsAt_iff.1 (Issuer.admits_toSnapshot hs₀ hb)
  apply Snapshot.admitsAt_iff.2
  constructor
  · rcases position_bound with hpin | ⟨f, hf, -, -, hpin⟩
    · rw [hpin]
      exact hpos
    · rw [hpin]
      rcases le_floor_of_atOrBefore hj hf he hb with rfl | hbefore
      · exact Std.le_refl _
      · exact Std.le_of_lt hbefore.position_lt
  · rw [mem_excluded_bound]
    rintro (hx | ⟨g, hg, -, hpe⟩)
    · exact hexc hx
    · obtain ⟨hgj, hgb⟩ := not_atOrBefore_of_mem_passed hg
      obtain rfl := Entry.eq_of_position_eq hj he hgj hpe
      simp [hb] at hgb

/-- Of the journal's own commits a bound admits exactly those at or before the stamp it is taken
at. -/
theorem admits_snapshotAt_iff (hj : j.entries.Pairwise Entry.Before)
    (h : j.snapshotAt i bound = .ok s) {e : Entry} (he : e ∈ j.entries) :
    s.admits e.write = true ↔ e.atOrBefore bound = true :=
  ⟨atOrBefore_of_admits hj h he, admits_of_atOrBefore hj h he⟩

/-- Taken again, a snapshot that cuts history excludes nothing before the cut, and reaches to the
cut or, if it has no pin, to the newest entry before it. -/
theorem snapshotAt_of_cutsAt (hj : j.entries.Pairwise Entry.Before) (hs : s.CutsAt p)
    (h : j.snapshotAt i (.snapshot s) = .ok t) :
    (∀ q ∈ t.excluded, p < q) ∧
      (t.position = p ∨
        ∃ f ∈ j.entries, t.position = f.position ∧ f.position ≤ p ∧
          ∀ e ∈ j.entries, e.position ≤ p → e.position ≤ f.position) := by
  obtain ⟨-, rfl⟩ := snapshotAt_snapshot_ok h
  have hcut : ∀ e : Entry, e.atOrBefore (.snapshot s) = true ↔ e.position ≤ p :=
    fun e => Entry.atOrBefore_snapshot ▸ hs.admits_iff
  constructor
  · intro q hq
    rcases mem_excluded_bound.1 hq with hq | ⟨e, he, -, rfl⟩
    · exact hs.excluded_gt q hq
    · have hnot := (not_atOrBefore_of_mem_passed he).2
      have : ¬ e.position ≤ p := fun hle => by simp [(hcut e).2 hle] at hnot
      exact Std.not_le.1 this
  · rcases position_bound with hpin | ⟨f, hf, -, -, hpin⟩
    · exact .inl (hpin.trans hs.position_eq)
    · obtain ⟨hmem, hfb⟩ := atOrBefore_of_floor? hf
      refine .inr ⟨f, hmem, hpin, (hcut f).1 hfb, ?_⟩
      intro e he hle
      rcases le_floor_of_atOrBefore hj hf he ((hcut e).2 hle) with rfl | hlt
      · exact Std.le_refl _
      · exact Std.le_of_lt hlt.position_lt

/-- The journal has an entry at the place, unless it has been trimmed beyond it. -/
def Covers (j : Journal) (p : Position) : Prop :=
  (∃ e ∈ j.entries, e.position = p) ∨ ∀ e ∈ j.entries, p < e.position

/-- A snapshot that cuts history where an entry was appended still does when it is taken again. -/
theorem cutsAt_snapshotAt (hj : j.entries.Pairwise Entry.Before) (hp : j.Covers p) (hs : s.CutsAt p)
    (h : j.snapshotAt i (.snapshot s) = .ok t) : t.CutsAt p := by
  obtain ⟨hexc, hpos | ⟨f, hf, hpos, hfp, hmax⟩⟩ := snapshotAt_of_cutsAt hj hs h
  · exact ⟨hpos, hexc⟩
  · rcases hp with ⟨e, he, rfl⟩ | hbeyond
    · exact ⟨hpos.trans (Std.le_antisymm hfp (hmax e he (Std.le_refl _))), hexc⟩
    · exact absurd hfp (Std.not_le_of_gt (hbeyond f hf))

/-- The bound of the greatest commit, in a view that is not older, cuts history at the newest
entry. -/
theorem snapshotAt_newest {e : Entry} {c : CommitStamp} (he : j.head? = some e)
    (hr : e.stamp.rank ≤ c.rank) (hv : e.stamp.value = c.value)
    (h : j.snapshotAt i (.commit c) = .ok s) :
    s.CutsAt e.position ∧ s.view = c.view ∧ s.value = c.value ∧ i.views.knows c.view = true := by
  have hb : e.atOrBefore (.commit c) = true := Entry.atOrBefore_commit.2 hr
  obtain ⟨older, hsplit⟩ : ∃ older, j.entries.reverse = e :: older := by
    rw [head?, ← List.head?_reverse] at he
    exact List.head?_eq_some_iff.1 he
  have hpassed : j.passed (.commit c) = [] := by simp [passed, hsplit, hb]
  have hfloor : j.floor? (.commit c) = some e := by simp [floor?, hsplit, hb]
  obtain ⟨s₀, hs₀, rfl⟩ := snapshotAt_ok h
  simp only [Issuer.toSnapshot, Issuer.rankOf, Stamp.rank?, bind_eq_ok, pure_eq_ok,
    Except.ok.injEq] at hs₀
  obtain ⟨r, ⟨_, hknown, rfl⟩, rfl⟩ := hs₀
  rw [hpassed, hfloor]
  have hpin : pinTo (excludeWrites { view := c.rank.view, value := c.rank.value } []) (some e) =
      { view := c.view, value := c.value, pin := some e.sub } := by
    simp [pinTo, excludeWrites, CommitStamp.rank, hv]
  rw [hpin]
  refine ⟨⟨?_, by simp⟩, rfl, rfl, ?_⟩
  · simp [Snapshot.position, Entry.position, Entry.write, CommitStamp.write,
      WriteStamp.position, hv]
  · exact Issuer.check_eq_ok.1 hknown

/-- What is trimmed away below an entry at or before a stamp makes no difference to the bound of the
stamp. -/
theorem snapshotAt_trimmed {j' : Journal} {dropped : List Entry}
    (hsplit : j.entries = dropped ++ j'.entries)
    (hkept : dropped = [] ∨ ∃ e ∈ j'.entries, e.atOrBefore bound = true) :
    j'.snapshotAt i bound = j.snapshotAt i bound := by
  rcases hkept with rfl | ⟨e, he, hb⟩
  · simp only [List.nil_append] at hsplit
    simp [snapshotAt_eq_passed, passed, floor?, hsplit]
  · -- Both look-ups come from the newest end and stop at `e` at the latest, before what is gone.
    have hfloor : j.floor? bound = j'.floor? bound := by
      have hsome : (j'.entries.reverse.find? (·.atOrBefore bound)).isSome = true :=
        List.find?_isSome.2 ⟨e, List.mem_reverse.2 he, hb⟩
      rw [floor?, floor?, hsplit, List.reverse_append, List.find?_append, Option.or_of_isSome hsome]
    have hpassed : j.passed bound = j'.passed bound := by
      rw [passed, passed, hsplit, List.reverse_append, List.takeWhile_append, if_neg]
      intro hlen
      have hall : j'.entries.reverse.takeWhile (fun f => !f.atOrBefore bound) =
          j'.entries.reverse :=
        (List.takeWhile_sublist _).eq_of_length hlen
      have hmem : e ∈ j'.entries.reverse.takeWhile (fun f => !f.atOrBefore bound) := by
        rw [hall]
        exact List.mem_reverse.2 he
      simp [(not_atOrBefore_of_mem_passed hmem).2] at hb
    simp [snapshotAt_eq_passed, hfloor, hpassed]

/-- Below an entry at or before the bound nothing later than the bound is trimmed away, and that
entry stays. -/
theorem dropOlder_spec (bound : Stamp) (l : List Entry) :
    ∃ dropped, l = dropped ++ dropOlder bound l ∧ (∀ e ∈ dropped, e.atOrBefore bound = true) ∧
      (dropped ≠ [] → ∃ f rest, dropOlder bound l = f :: rest ∧ f.atOrBefore bound = true) := by
  fun_induction dropOlder bound l with
  | case1 a b rest hab ih =>
    obtain ⟨hA, hB⟩ := Bool.and_eq_true_iff.1 hab
    obtain ⟨dropped, hsplit, hdropped, hkept⟩ := ih
    refine ⟨a :: dropped, by rw [List.cons_append, ← hsplit], ?_, ?_⟩
    · intro e he
      rcases List.mem_cons.1 he with rfl | he
      · exact hA
      · exact hdropped e he
    · intro _
      cases dropped with
      | nil => exact ⟨b, rest, hsplit.symm, hB⟩
      | cons => exact hkept (List.cons_ne_nil _ _)
  | case2 a b rest => exact ⟨[], rfl, by simp, by simp⟩
  | case3 l => exact ⟨[], rfl, by simp, by simp⟩

theorem dropOlder_ne_nil {l : List Entry} (h : l ≠ []) : dropOlder bound l ≠ [] := by
  fun_induction dropOlder bound l with
  | case1 a b rest hab ih => exact ih (List.cons_ne_nil b rest)
  | case2 a b rest => exact List.cons_ne_nil _ _
  | case3 l => exact h

theorem dropOlder_suffix (bound : Stamp) (l : List Entry) : dropOlder bound l <:+ l := by
  obtain ⟨dropped, hsplit, -⟩ := dropOlder_spec bound l
  exact ⟨dropped, hsplit.symm⟩

theorem dropOlder_eq_self {a : Entry} {rest : List Entry} (h : a.atOrBefore bound = false) :
    dropOlder bound (a :: rest) = a :: rest := by
  cases rest with
  | nil => rfl
  | cons b rest => simp [dropOlder, h]

theorem dropOlder_maximal {l rest : List Entry} {a b : Entry}
    (h : dropOlder bound l = a :: b :: rest) :
    ¬ (a.atOrBefore bound = true ∧ b.atOrBefore bound = true) := by
  fun_induction dropOlder bound l with
  | case1 a' b' rest' hab ih => exact ih h
  | case2 a' b' rest' hab =>
    cases h
    simpa using hab
  | case3 l hshort => exact absurd h (hshort a b rest)

theorem trim_cases {c : Option CommitStamp} {j' : Journal} (h : j.trim bound = (.ok c, j')) :
    j.entries ≠ [] ∧
      (bound.isAbsent = true ∧ j' = j ∨ bound.isAbsent = false ∧ j' = j.dropBehind bound) := by
  have hne : j.entries ≠ [] := by
    intro hnil
    rw [trim_empty hnil] at h
    cases h
  refine ⟨hne, ?_⟩
  obtain ⟨a, rest, hentries⟩ := List.exists_cons_of_ne_nil hne
  rw [trim_eq hentries] at h
  cases habsent : bound.isAbsent with
  | true =>
    rw [if_pos (.inl habsent)] at h
    exact .inl ⟨rfl, (Prod.mk.inj h).2.symm⟩
  | false =>
    refine .inr ⟨rfl, ?_⟩
    split at h
    · next hbeyond =>
      have hself : dropOlder bound (a :: rest) = a :: rest :=
        dropOlder_eq_self (hbeyond.resolve_left (by simp [habsent]))
      obtain ⟨-, rfl⟩ := Prod.mk.inj h
      rw [dropBehind, hentries, hself, Nat.sub_self, Nat.add_zero, ← hentries]
    · exact (Prod.mk.inj h).2.symm

/-- A trimmed journal has lost entries at its front, all of them at or before the bound, and so is
then the oldest one that it still has. -/
theorem trim_ok {c : Option CommitStamp} {j' : Journal} (h : j.trim bound = (.ok c, j')) :
    j'.entries ≠ [] ∧ j'.latest = j.latest ∧
      ∃ dropped, j.entries = dropped ++ j'.entries ∧ (∀ e ∈ dropped, e.atOrBefore bound = true) ∧
        (dropped ≠ [] → ∃ f rest, j'.entries = f :: rest ∧ f.atOrBefore bound = true) := by
  obtain ⟨hne, ⟨-, rfl⟩ | ⟨-, rfl⟩⟩ := trim_cases h
  · exact ⟨hne, rfl, [], rfl, by simp, by simp⟩
  · exact ⟨dropOlder_ne_nil hne, rfl, dropOlder_spec bound j.entries⟩

theorem trim_maximal {c : Option CommitStamp} {j' : Journal} (h : j.trim bound = (.ok c, j'))
    (hbound : bound.isAbsent = false) {a b : Entry} {rest : List Entry}
    (hentries : j'.entries = a :: b :: rest) :
    ¬ (a.atOrBefore bound = true ∧ b.atOrBefore bound = true) := by
  obtain ⟨-, ⟨habsent, -⟩ | ⟨-, rfl⟩⟩ := trim_cases h
  · simp [hbound] at habsent
  · exact dropOlder_maximal hentries

theorem exists_trim_ok (h : j.entries ≠ []) (bound : Stamp) :
    ∃ c j', j.trim bound = (.ok c, j') := by
  obtain ⟨e, rest, hentries⟩ := List.exists_cons_of_ne_nil h
  rw [trim_eq hentries]
  split <;> exact ⟨_, _, rfl⟩

theorem trim_error {fault : JournalFault} (h : (j.trim bound).1 = .error fault) :
    (j.trim bound).2 = j := by
  by_cases hempty : j.entries = []
  · rw [trim_empty hempty]
  · obtain ⟨c, j', htrim⟩ := exists_trim_ok hempty bound
    rw [htrim] at h
    cases h

theorem exists_snapshotAt_ok (h : i.views.knows s.view = true) :
    ∃ t, j.snapshotAt i (.snapshot s) = .ok t := by
  have hs : i.toSnapshot (.snapshot s) = .ok s := by
    rw [Issuer.toSnapshot, Issuer.check_eq_ok.2 h]
    rfl
  exact ⟨_, snapshotAt_eq hs⟩

theorem exists_snapshotAt_commit_ok {c : CommitStamp} (h : i.views.knows c.view = true) :
    ∃ t, j.snapshotAt i (.commit c) = .ok t := by
  have hs : i.toSnapshot (.commit c) = .ok { view := c.view, value := c.value } := by
    simp [Issuer.toSnapshot, Issuer.rankOf, Stamp.rank?, CommitStamp.rank, Issuer.check_eq_ok.2 h]
  exact ⟨_, snapshotAt_eq hs⟩

end Journal
end Multiversion
