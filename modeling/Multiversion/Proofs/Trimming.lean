import Multiversion.Proofs.JournalRuns
/- What a journal loses when it is trimmed, and who can tell.

   Trimming forgets the leading run of entries at or before the bound, except for its last one
   (`Journal.dropOlder_eq_drop`), whether entries further on are at or before the bound or not. A
   reader whose bound reaches all that the trimming bound reaches stops at the entry that stayed, or
   at a newer one. All else looks only at the newest entry and at the greatest commit, which stay as
   they are (`Journal.EndsAlike`). Two journals that end alike do so after any events
   (`Chronicle.EndsAlike.run`), so nobody who waits for a stamp can tell them apart
   (`Chronicle.EndsAlike.wait_eq`). `Chronicle.trim_exact` puts this together. -/
namespace Multiversion

namespace Journal

variable {i : Issuer} {j j' : Journal} {bound least target : Stamp} {kept : Option CommitStamp}
  {a : Entry} {rest batch : List Entry}

/-- How many entries are forgotten at a bound. -/
def forgotten (j : Journal) (bound : Stamp) : Nat :=
  if bound.isAbsent then 0 else (j.entries.takeWhile (·.atOrBefore bound)).length - 1

theorem forgotten_le (j : Journal) (bound : Stamp) : j.forgotten bound ≤ j.entries.length := by
  have hrun := (List.takeWhile_prefix (·.atOrBefore bound) (l := j.entries)).length_le
  rw [forgotten]
  split <;> omega

theorem trim_drops (htrim : j.trim bound = (.ok kept, j')) :
    j'.entries = j.entries.drop (j.forgotten bound) ∧ j'.first = j.first + j.forgotten bound := by
  have hle := j.forgotten_le bound
  obtain ⟨hne, ⟨habsent, rfl⟩ | ⟨hpresent, rfl⟩⟩ := trim_cases htrim
  · simp [forgotten, habsent]
  · have hdrop : dropOlder bound j.entries = j.entries.drop (j.forgotten bound) := by
      rw [dropOlder_eq_drop, forgotten, hpresent]
      rfl
    refine ⟨hdrop, ?_⟩
    rw [dropBehind, hdrop, List.length_drop, Nat.sub_sub_self hle]

/-- Nothing is kept, and nothing changed, if there is no bound or the oldest entry is beyond it;
otherwise what is kept is the commit of the oldest entry that is left. -/
theorem trim_keeps (h : j.entries = a :: rest) (htrim : j.trim bound = (.ok kept, j')) :
    if bound.isAbsent = true ∨ a.atOrBefore bound = false then kept = none ∧ j' = j
    else ∃ v, kept = some v ∧ j'.oldest = .ok (.commit v) := by
  have hequation := htrim.symm.trans (trim_eq h)
  split at hequation
  · next hnothing =>
    rw [if_pos hnothing]
    obtain ⟨hkept, rfl⟩ := Prod.mk.inj hequation
    exact ⟨Except.ok.inj hkept, rfl⟩
  · next hsome =>
    rw [if_neg hsome]
    obtain ⟨hkept, rfl⟩ := Prod.mk.inj hequation
    obtain rfl := Except.ok.inj hkept
    obtain ⟨b, left, hleft⟩ : ∃ b left, dropOlder bound j.entries = b :: left :=
      List.exists_cons_of_ne_nil (dropOlder_ne_nil (h ▸ List.cons_ne_nil a rest))
    exact ⟨b.stamp, by simp [hleft], by simp [oldest, dropBehind, hleft]⟩

/-- A reader whose bound reaches all that the trimming bound reaches gets the bound it got
before. -/
theorem snapshotAt_trim (htrim : j.trim least = (.ok kept, j'))
    (hreaches : ∀ e ∈ j.entries, e.atOrBefore least = true → e.atOrBefore bound = true)
    (i : Issuer) :
    j'.snapshotAt i bound = j.snapshotAt i bound := by
  obtain ⟨-, -, dropped, hsplit, -, holdest⟩ := trim_ok htrim
  refine snapshotAt_trimmed hsplit ?_
  by_cases hdropped : dropped = []
  · exact .inl hdropped
  · obtain ⟨oldest, left, hleft, hleast⟩ := holdest hdropped
    have hmem : oldest ∈ j'.entries := by simp [hleft]
    have hold : oldest ∈ j.entries := by
      rw [hsplit]
      exact List.mem_append_right dropped hmem
    exact .inr ⟨oldest, hmem, hreaches oldest hold hleast⟩

/-- The journals have the same newest entry and the same greatest commit. They may reach back to
different entries. -/
structure EndsAlike (j j' : Journal) : Prop where
  head?_eq : j'.head? = j.head?
  latest_eq : j'.latest = j.latest

namespace EndsAlike

theorem of_trim (htrim : j.trim bound = (.ok kept, j')) : j.EndsAlike j' := by
  obtain ⟨hne, hlatest, dropped, hsplit, -⟩ := trim_ok htrim
  obtain ⟨newest, hnewest⟩ := exists_head? hne
  have hhead : j.head? = some newest := by
    rw [head?, hsplit, List.getLast?_append, ← head?, hnewest]
    rfl
  exact ⟨hnewest.trans hhead.symm, hlatest⟩

theorem head_eq (h : j.EndsAlike j') : j'.head = j.head := by
  rw [head, head, h.head?_eq]

theorem latestStamp_eq (h : j.EndsAlike j') : j'.latestStamp = j.latestStamp := by
  simp only [latestStamp, mark, h.head_eq, h.latest_eq]

theorem current_eq (h : j.EndsAlike j') (i : Issuer) : j'.current i = j.current i := by
  simp only [current, h.latestStamp_eq]

theorem reached_eq (h : j.EndsAlike j') (target : Stamp) :
    j'.reached target = j.reached target := by
  simp only [reached, mark, h.head?_eq, h.latest_eq]

theorem check_eq (h : j.EndsAlike j') (i : Issuer) (batch : List Entry) :
    j'.check i batch = j.check i batch := by
  simp only [check, h.head_eq, h.latest_eq]

theorem entries_eq_nil_iff (h : j.EndsAlike j') : j'.entries = [] ↔ j.entries = [] := by
  have hlast : j'.entries.getLast? = j.entries.getLast? := h.head?_eq
  rw [← List.getLast?_eq_none_iff, ← List.getLast?_eq_none_iff, hlast]

theorem start (h : j.EndsAlike j') (i : Issuer) : (j.start i).EndsAlike (j'.start i) := by
  have hstarted : j'.isStarted = j.isStarted := by
    rw [isStarted, isStarted, Bool.eq_iff_iff]
    simp [h.entries_eq_nil_iff]
  simp only [Journal.start, hstarted]
  cases j.isStarted with
  | true => exact h
  | false => exact ⟨rfl, rfl⟩

theorem append (h : j.EndsAlike j') (i : Issuer) (batch : List Entry) :
    (j'.append i batch).1 = (j.append i batch).1 ∧
    (j.append i batch).2.EndsAlike (j'.append i batch).2 := by
  cases batch with
  | nil => exact ⟨rfl, h⟩
  | cons e later =>
    -- It is checked against the ends of the journals, and then is the end of both.
    simp only [Journal.append, List.isEmpty_cons, Bool.false_eq_true, if_false, h.check_eq]
    cases j.check i (e :: later) with
    | error fault => exact ⟨rfl, h⟩
    | ok latest =>
      refine ⟨rfl, ?_, rfl⟩
      simp only [head?, List.getLast?_append, List.getLast?_cons, Option.some_or]

theorem trim (h : j.EndsAlike j') (bound : Stamp) :
    (j.trim bound).2.EndsAlike (j'.trim bound).2 := by
  by_cases hempty : j.entries = []
  · rw [trim_empty hempty, trim_empty (h.entries_eq_nil_iff.2 hempty)]
    exact h
  · obtain ⟨kept, left, htrim⟩ := exists_trim_ok hempty bound
    obtain ⟨kept', left', htrim'⟩ :=
      exists_trim_ok (fun hempty' => hempty (h.entries_eq_nil_iff.1 hempty')) bound
    have hleft := of_trim htrim
    have hleft' := of_trim htrim'
    rw [htrim, htrim']
    refine ⟨?_, ?_⟩
    · rw [hleft'.head?_eq, h.head?_eq, hleft.head?_eq]
    · rw [hleft'.latest_eq, h.latest_eq, hleft.latest_eq]

end EndsAlike
end Journal

namespace Chronicle

variable {c c' : Chronicle}

/-- What a wait for a stamp comes to. The journal is looked at, and again after each of the given
runs of events, until the stamp is reached or proves not to compare; with the last look the time is
over. -/
def wait (target : Stamp) : Chronicle → List (List Event) → Except StampFault Bool
  | c, [] => c.journal.reached target
  | c, events :: later => do
    if ← c.journal.reached target then return true
    else wait target (c.run events) later

/-- The journals end alike, and know the same views. -/
structure EndsAlike (c c' : Chronicle) : Prop where
  issuer_eq : c'.issuer = c.issuer
  journal : c.journal.EndsAlike c'.journal

namespace EndsAlike

theorem step (h : c.EndsAlike c') (event : Event) : (c.step event).EndsAlike (c'.step event) := by
  cases event with
  | start =>
    refine ⟨h.issuer_eq, ?_⟩
    show (c.journal.start c.issuer).EndsAlike (c'.journal.start c'.issuer)
    rw [h.issuer_eq]
    exact h.journal.start c.issuer
  | append batch =>
    refine ⟨h.issuer_eq, ?_⟩
    show (c.journal.append c.issuer batch).2.EndsAlike (c'.journal.append c'.issuer batch).2
    rw [h.issuer_eq]
    exact (h.journal.append c.issuer batch).2
  | trim bound => exact ⟨h.issuer_eq, h.journal.trim bound⟩
  | learn view => exact ⟨congrArg (·.addView view) h.issuer_eq, h.journal⟩
  | forget oldest => exact ⟨congrArg (·.forgetViews oldest) h.issuer_eq, h.journal⟩

theorem run (h : c.EndsAlike c') (events : List Event) :
    (c.run events).EndsAlike (c'.run events) := by
  induction events generalizing c c' with
  | nil => exact h
  | cons event rest ih => exact ih (h.step event)

/-- Nobody who waits can tell, whatever happens meanwhile. -/
theorem wait_eq (h : c.EndsAlike c') (target : Stamp) (meanwhile : List (List Event)) :
    c'.wait target meanwhile = c.wait target meanwhile := by
  induction meanwhile generalizing c c' with
  | nil => exact h.journal.reached_eq target
  | cons events later ih => simp only [wait, h.journal.reached_eq, ih (h.run events)]

end EndsAlike

/-- Trim any journal that was started, at any bound. It works, and forgets the leading run of
entries at or before the bound but for the last of them, or nothing if the bound is absent: what is
left ends with the same entry and is counted on from the number before by as many as are gone.
Nothing is returned exactly if the bound is absent or the oldest entry is not at or before it, and
then nothing has changed; otherwise it is the commit of the oldest entry that is left. A reader
whose bound has every entry at or before it that the trimming bound has gets the same snapshot as
before, or the same fault. Where a transaction may start from, what the greatest commit is, and what
any wait for any stamp comes to, whatever happens to the journal while it waits, is as it would be
without the trimming. -/
theorem trim_exact (c : Chronicle) (hstarted : c.journal.isStarted = true) (least : Stamp) :
    ∃ kept j' gone, c.journal.trim least = (.ok kept, j') ∧ c.journal.entries = gone ++ j'.entries ∧
      gone.length = (if least.isAbsent then 0
        else (c.journal.entries.takeWhile (·.atOrBefore least)).length - 1) ∧
      j'.head? = c.journal.head? ∧ j'.first = c.journal.first + gone.length ∧
      (kept = none ↔ least.isAbsent = true ∨
        ∃ oldest, c.journal.entries.head? = some oldest ∧ oldest.atOrBefore least = false) ∧
      (kept = none → j' = c.journal) ∧ (∀ v, kept = some v → j'.oldest = .ok (.commit v)) ∧
      (∀ bound, (∀ e ∈ c.journal.entries, e.atOrBefore least = true → e.atOrBefore bound = true) →
        ∀ i, j'.snapshotAt i bound = c.journal.snapshotAt i bound) ∧
      (∀ i, j'.current i = c.journal.current i) ∧ j'.latestStamp = c.journal.latestStamp ∧
      ∀ target meanwhile, ({ c with journal := j' }).wait target meanwhile =
        c.wait target meanwhile := by
  have hne : c.journal.entries ≠ [] := by simpa [Journal.isStarted] using hstarted
  obtain ⟨a, rest, hentries⟩ := List.exists_cons_of_ne_nil hne
  obtain ⟨kept, j', htrim⟩ := Journal.exists_trim_ok hne least
  obtain ⟨hleft, hfirst⟩ := Journal.trim_drops htrim
  have halike := Journal.EndsAlike.of_trim htrim
  have hlength : (c.journal.entries.take (c.journal.forgotten least)).length =
      c.journal.forgotten least := by
    rw [List.length_take, Nat.min_eq_left (c.journal.forgotten_le least)]
  have hkept := Journal.trim_keeps hentries htrim
  refine ⟨kept, j', c.journal.entries.take (c.journal.forgotten least), htrim, ?_, ?_,
    halike.head?_eq, ?_, ?_, ?_, ?_, fun bound hreaches => Journal.snapshotAt_trim htrim hreaches,
    halike.current_eq, halike.latestStamp_eq, ?_⟩
  · rw [hleft, List.take_append_drop]
  · rw [hlength, Journal.forgotten]
  · rw [hlength, hfirst]
  · rw [hentries]
    simp only [List.head?_cons, Option.some.injEq, exists_eq_left']
    split at hkept
    · next hnothing => simp [hkept.1, hnothing]
    · next hsome =>
      obtain ⟨v, rfl, -⟩ := hkept
      simp [hsome]
  · rintro rfl
    split at hkept
    · exact hkept.2
    · obtain ⟨v, hv, -⟩ := hkept
      cases hv
  · rintro v rfl
    split at hkept
    · cases hkept.1
    · obtain ⟨v', hv', holdest⟩ := hkept
      cases hv'
      exact holdest
  · intro target meanwhile
    have hends : c.EndsAlike { c with journal := j' } := ⟨rfl, halike⟩
    exact hends.wait_eq target meanwhile

/-- The bound is a snapshot that excludes the third of four entries: the first is forgotten, and the
second stays, although the fourth is at or before the bound as well. A reader at the commit of the
fourth gets the snapshot that it got before, and who waits for a commit that comes next sees it
come. -/
theorem trim_exact_gap : ∃ (c : Chronicle) (least bound : Stamp) (j' : Journal) (s : Snapshot),
    c = ({ issuer := ⟨.replicated, .single ⟨1, ["a"]⟩⟩ } : Chronicle).run [.start,
      .append [⟨⟨.replicated, 1, 3⟩, 0, .all⟩, ⟨⟨.replicated, 1, 4⟩, 0, .all⟩,
        ⟨⟨.replicated, 1, 5⟩, 0, .all⟩]] ∧
    least = .snapshot { view := 1, value := 5, excluded := .ofList [⟨4, 0⟩] } ∧
    bound = .commit ⟨.replicated, 1, 5⟩ ∧ c.journal.isStarted = true ∧
    c.journal.trim least = (.ok (some ⟨.replicated, 1, 3⟩), j') ∧ j'.first = 1 ∧
    c.journal.snapshotAt c.issuer bound = .ok s ∧ j'.snapshotAt c.issuer bound = .ok s ∧
    ({ c with journal := j' }).wait (.commit ⟨.replicated, 1, 6⟩)
      [[.append [⟨⟨.replicated, 1, 6⟩, 0, .all⟩]]] = .ok true := by
  obtain ⟨c, hc, hentries, hfirst, hknown, hwait⟩ : ∃ c : Chronicle,
      c = ({ issuer := ⟨.replicated, .single ⟨1, ["a"]⟩⟩ } : Chronicle).run [.start,
        .append [⟨⟨.replicated, 1, 3⟩, 0, .all⟩, ⟨⟨.replicated, 1, 4⟩, 0, .all⟩,
          ⟨⟨.replicated, 1, 5⟩, 0, .all⟩]] ∧
      c.journal.entries = [⟨⟨.replicated, 1, 0⟩, 0, .all⟩, ⟨⟨.replicated, 1, 3⟩, 0, .all⟩,
        ⟨⟨.replicated, 1, 4⟩, 0, .all⟩, ⟨⟨.replicated, 1, 5⟩, 0, .all⟩] ∧
      c.journal.first = 0 ∧ c.issuer.views.knows 1 = true ∧
      c.wait (.commit ⟨.replicated, 1, 6⟩) [[.append [⟨⟨.replicated, 1, 6⟩, 0, .all⟩]]] =
        .ok true :=
    ⟨_, rfl, rfl, rfl, rfl, rfl⟩
  obtain ⟨least, hleast⟩ : ∃ least : Stamp,
      least = .snapshot { view := 1, value := 5, excluded := .ofList [⟨4, 0⟩] } := ⟨_, rfl⟩
  have hstarted : c.journal.isStarted = true := by simp [Journal.isStarted, hentries]
  obtain ⟨kept, j', gone, htrim, hsplit, hgone, -, hcounts, hnone, -, holdest, hreader,
      -, -, hwaits⟩ :=
    trim_exact c hstarted least
  have hlength : gone.length = 1 := by
    rw [hgone, hentries, hleast]
    decide +kernel
  have hleft : j'.entries = c.journal.entries.drop 1 := by rw [hsplit, List.drop_left' hlength]
  have hkept : kept = some ⟨.replicated, 1, 3⟩ := by
    cases kept with
    | none =>
      rw [hentries, hleast] at hnone
      exact absurd (hnone.1 rfl) (by decide +kernel)
    | some v =>
      have hv := holdest v rfl
      simp only [Journal.oldest, hleft, hentries, List.drop_succ_cons, List.drop_zero,
        List.head?_cons] at hv
      cases hv
      rfl
  obtain ⟨s, hs⟩ :=
    Journal.exists_snapshotAt_commit_ok (j := c.journal) (c := ⟨.replicated, 1, 5⟩) hknown
  refine ⟨c, least, _, j', s, hc, hleast, rfl, hstarted, hkept ▸ htrim,
    by rw [hcounts, hfirst, hlength], hs, ?_, ?_⟩
  · rw [hreader _ ?_ c.issuer, hs]
    rw [hentries, hleast]
    decide +kernel
  · rw [hwaits, hwait]

end Chronicle
end Multiversion
