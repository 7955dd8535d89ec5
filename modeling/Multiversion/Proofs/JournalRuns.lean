import Multiversion.Proofs.Batch
import Multiversion.Proofs.KnownViews
/- Runs of a journal.

   A journal is told apart from its history: all that was ever logged, from the first entry on. The
   journal has a piece of it, from some number to the end (`Journal.Continues`), so an entry has the
   number of its place in the history, and the journal ends where the history does, however much of
   it is trimmed. What is appended comes after all that was logged before, in both orders; the
   greatest commit is therefore that of the newest entry, and its place never decreases.

   Main statements: `Journal.Continues.append` and `Journal.Continues.trim` for one call,
   `Chronicle.continues_run` and `Chronicle.Sound.run` for runs, `Chronicle.journal_run` for what
   holds at any time of a run and from then on. -/
namespace Multiversion

/-- The entry with a number, if the journal still has it. -/
def Journal.numbered? (j : Journal) (n : Nat) : Option Entry := if n < j.first then
  none else j.entries[n - j.first]?

/-- The journal is what is left of a history: it goes to the end of it. -/
structure Journal.Continues (j : Journal) (history : List Entry) : Prop where
  ordered : history.Pairwise Entry.Before
  entries_eq : j.entries = history.drop j.first
  started : j.entries ≠ []
  latest : ∃ c e, j.latest = some c ∧ history.getLast? = some e ∧ c.rank = e.stamp.rank

namespace Journal

variable {i : Issuer} {j j' : Journal} {batch : List Entry} {bound : Stamp}
  {oldest : Option CommitStamp}

theorem exists_number {e : Entry} (he : e ∈ j.entries) : ∃ n, j.numbered? n = some e := by
  obtain ⟨m, hm⟩ := List.mem_iff_getElem?.1 he
  refine ⟨j.first + m, ?_⟩
  rw [numbered?, if_neg (Nat.not_lt.2 (Nat.le_add_right _ _)), Nat.add_sub_cancel_left, hm]

theorem exists_check_iff_append (hbatch : batch ≠ []) :
    (∃ latest, j.check i batch = .ok latest) ↔ ∃ j', j.append i batch = (.ok (), j') := by
  simp only [append_eq_ok_iff_check hbatch]
  constructor
  · rintro ⟨latest, hlatest⟩
    exact ⟨_, latest, hlatest, rfl⟩
  · rintro ⟨_, latest, hlatest, -⟩
    exact ⟨latest, hlatest⟩

namespace Continues

variable {history history' : List Entry} {n : Nat} {e : Entry} {c : CommitStamp}

theorem first_lt (h : j.Continues history) : j.first < history.length := by
  have hne := h.started
  rw [h.entries_eq, ne_eq, List.drop_eq_nil_iff] at hne
  omega

theorem range_eq (h : j.Continues history) : j.range = (j.first, history.length) := by
  have hlt := h.first_lt
  rw [range, h.entries_eq, List.length_drop, Nat.add_sub_cancel' (Nat.le_of_lt hlt)]

theorem head?_eq (h : j.Continues history) : j.head? = history.getLast? := by
  rw [head?, h.entries_eq, List.getLast?_drop, if_neg (Nat.not_le_of_gt h.first_lt)]

theorem mem_of_mem (h : j.Continues history) (he : e ∈ j.entries) : e ∈ history := by
  rw [h.entries_eq] at he
  exact List.mem_of_mem_drop he

theorem numbered?_eq (h : j.Continues history) (hn : j.first ≤ n) :
    j.numbered? n = history[n]? := by
  rw [numbered?, if_neg (Nat.not_lt.2 hn), h.entries_eq, List.getElem?_drop, Nat.add_sub_cancel' hn]

theorem numbered?_eq_some (h : j.Continues history) (hn : j.numbered? n = some e) :
    history[n]? = some e := by
  by_cases hlt : n < j.first
  · rw [numbered?, if_pos hlt] at hn
    cases hn
  · rwa [h.numbered?_eq (Nat.not_lt.1 hlt)] at hn

theorem nodup (h : j.Continues history) : history.Nodup := by
  refine h.ordered.imp fun hbefore => ?_
  rintro rfl
  exact Std.lt_irrefl hbefore.position_lt

theorem numbered?_of_mem (h : j.Continues history) (h' : j'.Continues history')
    (hgrows : history <+: history') (hn : j.numbered? n = some e) (he : e ∈ j'.entries) :
    j'.numbered? n = some e := by
  have hplace : history'[n]? = some e := by
    obtain ⟨later, rfl⟩ := hgrows
    have hold := h.numbered?_eq_some hn
    obtain ⟨hlt, -⟩ := List.getElem?_eq_some_iff.1 hold
    rw [List.getElem?_append_left hlt, hold]
  obtain ⟨n', hn'⟩ := exists_number he
  have hplace' := h'.numbered?_eq_some hn'
  obtain ⟨hlt, -⟩ := List.getElem?_eq_some_iff.1 hplace
  obtain rfl : n = n' := (List.getElem?_inj hlt h'.nodup).1 (hplace.trans hplace'.symm)
  exact hn'

theorem rank_le (h : j.Continues history) (he : e ∈ history) (hc : j.latest = some c) :
    e.stamp.rank ≤ c.rank := by
  obtain ⟨c', newest, hc', hnewest, hrank⟩ := h.latest
  obtain rfl : c = c' := Option.some.inj (hc.symm.trans hc')
  rcases Entry.eq_or_before_getLast h.ordered hnewest he with rfl | hbefore
  · exact Std.le_of_eq hrank.symm
  · exact hrank ▸ hbefore.rank_le

theorem latest_mono (h : j.Continues history) (h' : j'.Continues history')
    (hgrows : history <+: history') :
    ∃ c c' newest, j.latest = some c ∧ j'.latest = some c' ∧ j'.head? = some newest ∧
    c'.rank = newest.stamp.rank ∧
      c.rank ≤ c'.rank := by
  obtain ⟨c, e, hc, he, hrank⟩ := h.latest
  obtain ⟨c', newest, hc', hnewest, hrank'⟩ := h'.latest
  have hmem : e ∈ history' := hgrows.subset (List.mem_of_getLast? he)
  exact ⟨c, c', newest, hc, hc', h'.head?_eq ▸ hnewest, hrank', hrank ▸ h'.rank_le hmem hc'⟩

theorem current_atOrAfter (h : j.Continues history) {v : Stamp} (hv : j.current i = .ok v)
    (he : e ∈ history) :
    v.atOrAfter (.commit e.stamp) = .ok true := by
  obtain ⟨c, newest, hc, hnewest, -⟩ := h.latest
  rw [← h.head?_eq] at hnewest
  have hle := h.rank_le he hc
  simp only [current, latestStamp, head, hnewest, mark, hc, ok_bind, mapError_eq_ok, pure_eq_ok,
    Issuer.restamp_commit] at hv
  obtain ⟨hknown, rfl⟩ := hv
  rw [Stamp.atOrAfter_commit, decide_eq_true (Std.le_trans hle (Issuer.rank_le_stamp hknown))]

theorem of_start (i : Issuer) :
    ((({} : Journal).start i).Continues [⟨i.stamp i.currentView 0, 0, .all⟩]) where
  ordered := List.pairwise_singleton _ _
  entries_eq := rfl
  started := List.cons_ne_nil _ _
  latest := ⟨_, _, rfl, rfl, rfl⟩

theorem start_eq (h : j.Continues history) (i : Issuer) : j.start i = j := by
  have hstarted : j.isStarted = true := by simpa [isStarted] using h.started
  rw [start, if_pos hstarted]

/-- What is appended is logged after all that was logged before. -/
theorem append (h : j.Continues history) (happend : j.append i batch = (.ok (), j')) :
    j'.Continues (history ++ batch) := by
  cases batch with
  | nil =>
    cases happend
    rwa [List.append_nil]
  | cons b rest =>
    obtain ⟨merged, hcheck, rfl⟩ := (append_eq_ok_iff_check (List.cons_ne_nil b rest)).1 happend
    obtain ⟨c, last, hc, hlast, hrank⟩ := h.latest
    obtain ⟨horder, c', rfl, hmax, -⟩ := Member.check_ok (h.head?_eq.trans hlast) hc hcheck
    have hordered := pairwise_of_checkOrder horder
    have hbefore := (List.pairwise_cons.1 hordered).1
    have hlength : j.first ≤ history.length := Nat.le_of_lt h.first_lt
    refine ⟨?_, ?_, by simp, ?_⟩
    · refine List.pairwise_append.2 ⟨h.ordered, (List.pairwise_cons.1 hordered).2, ?_⟩
      intro e he f hf
      rcases Entry.eq_or_before_getLast h.ordered hlast he with rfl | hearlier
      · exact hbefore f hf
      · exact hearlier.trans (hbefore f hf)
    · rw [List.drop_append_of_le_length hlength, ← h.entries_eq]
    · obtain ⟨newest, hnewest⟩ : ∃ newest, (b :: rest).getLast? = some newest :=
        ⟨_, List.getLast?_cons⟩
      refine ⟨c', newest, rfl, by rw [List.getLast?_append, hnewest]; rfl, ?_⟩
      rw [hmax, hrank, foldl_max_rank hordered, hnewest]
      rfl

/-- What is trimmed has been logged all the same. -/
theorem trim (h : j.Continues history) (htrim : j.trim bound = (.ok oldest, j')) :
    j'.Continues history := by
  obtain ⟨hne, ⟨-, rfl⟩ | ⟨-, rfl⟩⟩ := trim_cases htrim
  · exact h
  · refine ⟨h.ordered, ?_, dropOlder_ne_nil hne, h.latest⟩
    rw [dropBehind, ← List.drop_drop, ← h.entries_eq]
    exact List.suffix_iff_eq_drop.1 (dropOlder_suffix bound j.entries)

end Continues
end Journal

/-- A journal with the issuer that it is checked by, and the entries of all batches that it has
accepted so far. -/
structure Chronicle where
  issuer : Issuer
  journal : Journal := {}
  accepted : List Entry := []

namespace Chronicle

/-- What may happen to a journal and to the views that its issuer knows. -/
inductive Event
  | start
  | append (batch : List Entry)
  | trim (bound : Stamp)
  | learn (view : View)
  | forget (least : Nat)

/-- What an event comes to, and the chronicle after it. -/
def act (c : Chronicle) : Event → Except JournalFault Unit × Chronicle
  | .start => (.ok (), { c with journal := c.journal.start c.issuer })
  | .append batch =>
    let (outcome, journal) := c.journal.append c.issuer batch
    let accepted := match outcome with
      | .ok () => c.accepted ++ batch
      | .error _ => c.accepted
    (outcome, { c with journal, accepted })
  | .trim bound =>
    let (oldest, journal) := c.journal.trim bound
    (oldest.map fun _ => (), { c with journal })
  | .learn view => (.ok (), { c with issuer := c.issuer.addView view })
  | .forget least => (.ok (), { c with issuer := c.issuer.forgetViews least })

def step (c : Chronicle) (event : Event) : Chronicle := (c.act event).2

def run (c : Chronicle) (events : List Event) : Chronicle := events.foldl step c

variable {c c' : Chronicle} {event : Event} {batch : List Entry} {fault : JournalFault}
  {seed : Entry}

theorem act_append_eq_ok : c.act (.append batch) = (.ok (), c') ↔
    ∃ journal, c.journal.append c.issuer batch = (.ok (), journal) ∧
      c' = { c with journal, accepted := c.accepted ++ batch } := by
  rw [act]
  rcases c.journal.append c.issuer batch with ⟨_ | ⟨⟩, journal⟩ <;> simp [eq_comm]

/-- What fails leaves no trace. -/
theorem step_of_error (h : (c.act event).1 = .error fault) : c.step event = c := by
  cases event with
  | append batch =>
    have houtcome : (c.journal.append c.issuer batch).1 = .error fault := h
    simp only [step, act, houtcome, Journal.append_error houtcome]
  | trim bound =>
    cases houtcome : (c.journal.trim bound).1 with
    | ok oldest => simp [act, houtcome, Except.map] at h
    | error fault' => simp only [step, act, Journal.trim_error houtcome]
  | start => cases h
  | learn view => cases h
  | forget least => cases h

/-- A chronicle that has not begun, or the journal of which continues from its first entry with what
it has accepted. -/
def Sound (c : Chronicle) : Prop :=
  c.journal = {} ∧ c.accepted = [] ∨ ∃ seed, c.journal.Continues (seed :: c.accepted)

/-- One event keeps what was logged, and adds to it. -/
theorem continues_step (h : c.journal.Continues (seed :: c.accepted)) (event : Event) :
    (c.step event).journal.Continues (seed :: (c.step event).accepted) ∧
    c.accepted <+: (c.step event).accepted := by
  cases event with
  | start =>
    have hstep : c.step .start = c := by
      show { c with journal := c.journal.start c.issuer } = c
      rw [h.start_eq]
    rw [hstep]
    exact ⟨h, List.prefix_refl _⟩
  | append batch =>
    cases hact : c.act (.append batch) with | mk outcome c' =>
    cases outcome with
    | error fault =>
      have hfails : (c.act (.append batch)).1 = .error fault := by rw [hact]
      rw [step_of_error hfails]
      exact ⟨h, List.prefix_refl _⟩
    | ok _ =>
      obtain ⟨journal, happend, rfl⟩ := act_append_eq_ok.1 hact
      rw [step, hact]
      exact ⟨h.append happend, List.prefix_append _ _⟩
  | trim bound =>
    cases htrim : c.journal.trim bound with | mk outcome j' =>
    cases outcome with
    | error fault =>
      have hfails : (c.act (.trim bound)).1 = .error fault := by simp [act, htrim, Except.map]
      rw [step_of_error hfails]
      exact ⟨h, List.prefix_refl _⟩
    | ok oldest =>
      rw [step, act, htrim]
      exact ⟨h.trim htrim, List.prefix_refl _⟩
  | learn view => exact ⟨h, List.prefix_refl _⟩
  | forget least => exact ⟨h, List.prefix_refl _⟩

theorem continues_run (h : c.journal.Continues (seed :: c.accepted)) (events : List Event) :
    (c.run events).journal.Continues (seed :: (c.run events).accepted) ∧
    c.accepted <+: (c.run events).accepted := by
  induction events generalizing c with
  | nil => exact ⟨h, List.prefix_refl _⟩
  | cons event rest ih =>
    obtain ⟨hstep, hgrows⟩ := continues_step h event
    obtain ⟨hrun, hgrows'⟩ := ih hstep
    exact ⟨hrun, hgrows.trans hgrows'⟩

/-- A journal begins when it is started; before that it accepts nothing and can not be trimmed. -/
theorem Sound.step (h : c.Sound) (event : Event) : (c.step event).Sound := by
  rcases h with ⟨hjournal, haccepted⟩ | ⟨seed, h⟩
  · cases event with
    | start =>
      refine .inr ⟨⟨c.issuer.stamp c.issuer.currentView 0, 0, .all⟩, ?_⟩
      show (c.journal.start c.issuer).Continues (_ :: c.accepted)
      rw [hjournal, haccepted]
      exact .of_start c.issuer
    | append batch =>
      rw [Chronicle.step, act, hjournal]
      cases batch with
      | nil => exact .inl ⟨rfl, congrArg (· ++ []) haccepted⟩
      | cons e rest => exact .inl ⟨rfl, haccepted⟩
    | trim bound =>
      rw [Chronicle.step, act, hjournal]
      exact .inl ⟨rfl, haccepted⟩
    | learn view => exact .inl ⟨hjournal, haccepted⟩
    | forget least => exact .inl ⟨hjournal, haccepted⟩
  · exact .inr ⟨seed, (continues_step h event).1⟩

theorem Sound.run (h : c.Sound) (events : List Event) : (c.run events).Sound := by
  induction events generalizing c with
  | nil => exact h
  | cons event rest ih => exact ih (h.step event)

theorem Sound.exists_continues (h : c.Sound) {events : List Event} (hstart : .start ∈ events) :
    ∃ seed, (c.run events).journal.Continues (seed :: (c.run events).accepted) := by
  induction events generalizing c with
  | nil => cases hstart
  | cons event rest ih =>
    rcases List.mem_cons.1 hstart with rfl | hlater
    · rcases h.step .start with ⟨hempty, -⟩ | ⟨seed, hstarted⟩
      · have hne : (c.journal.start c.issuer).entries ≠ [] := by
          rw [Journal.start]
          split
          · next hstarted => simpa [Journal.isStarted] using hstarted
          · exact List.cons_ne_nil _ _
        exact absurd (congrArg Journal.entries hempty) hne
      · exact ⟨seed, (continues_run hstarted rest).1⟩
    · exact ih (h.step event) hlater

/-- Take any run of a journal from the beginning, in which it is started, batches are accepted and
rejected, it is trimmed and views are learned or forgotten in any order, and then any run from
there. At the end of it the writes of the entries strictly increase and their commits do not
decrease. If there is a commit that a new transaction may start from, it is at or after all that was
ever accepted. An entry that was there after the first run, and still is, has the same number. A
call that fails changes nothing, and a batch passes the check exactly if it would be appended. Once
the journal was started it is never empty; its greatest commit has the commit value and view of its
newest entry and has not decreased; and its numbers end with one more than were accepted. -/
theorem journal_run (i : Issuer) (before after : List Event) {c c' : Chronicle}
    (hc : c = ({ issuer := i } : Chronicle).run before) (hc' : c' = c.run after) :
    (c'.journal.entries.Pairwise fun a b => a.position < b.position ∧ a.stamp.rank ≤ b.stamp.rank) ∧
      (∀ v, c'.journal.current c'.issuer = .ok v → ∀ e, e ∈ c'.accepted ∨ e ∈ c'.journal.entries →
        v.atOrAfter (.commit e.stamp) = .ok true) ∧
      (∀ n e, c.journal.numbered? n = some e → e ∈ c'.journal.entries →
        c'.journal.numbered? n = some e) ∧
      (∀ event fault, (c'.act event).1 = .error fault → c'.step event = c') ∧
      (∀ batch, batch ≠ [] → ((∃ latest, c'.journal.check c'.issuer batch = .ok latest) ↔
        ∃ c'', c'.act (.append batch) = (.ok (), c''))) ∧
      (.start ∈ before → c'.journal.entries ≠ [] ∧
        (∃ latest latest' newest, c.journal.latest = some latest ∧
          c'.journal.latest = some latest' ∧
          c'.journal.head? = some newest ∧ latest'.rank = newest.stamp.rank ∧
          latest.rank ≤ latest'.rank) ∧
        c'.journal.range = (c'.journal.first, 1 + c'.accepted.length)) := by
  have hnew : Sound { issuer := i } := .inl ⟨rfl, rfl⟩
  have hsound : c.Sound := hc ▸ hnew.run before
  have hsound' : c'.Sound := hc' ▸ hsound.run after
  refine ⟨?_, ?_, ?_, ?_, ?_, ?_⟩
  · rcases hsound' with ⟨hempty, -⟩ | ⟨seed, h'⟩
    · rw [hempty]
      exact .nil
    · rw [h'.entries_eq]
      exact (h'.ordered.sublist (List.drop_sublist _ _)).imp fun hbefore =>
        ⟨hbefore.position_lt, hbefore.rank_le⟩
  · intro v hv e he
    rcases hsound' with ⟨hempty, -⟩ | ⟨seed, h'⟩
    · rw [hempty] at hv
      cases hv
    · exact h'.current_atOrAfter hv (he.elim (List.mem_cons_of_mem seed) h'.mem_of_mem)
  · intro n e hn he
    rcases hsound with ⟨hempty, -⟩ | ⟨seed, h⟩
    · rw [hempty] at hn
      simp [Journal.numbered?] at hn
    · obtain ⟨h', hgrows⟩ := continues_run h after
      rw [← hc'] at h' hgrows
      exact h.numbered?_of_mem h' (List.cons_prefix_cons.2 ⟨rfl, hgrows⟩) hn he
  · exact fun event fault => step_of_error
  · intro batch hbatch
    rw [Journal.exists_check_iff_append hbatch]
    simp only [act_append_eq_ok]
    constructor
    · rintro ⟨journal, happend⟩
      exact ⟨_, journal, happend, rfl⟩
    · rintro ⟨_, journal, happend, -⟩
      exact ⟨journal, happend⟩
  · intro hstart
    obtain ⟨seed, h⟩ := hnew.exists_continues hstart
    rw [← hc] at h
    obtain ⟨h', hgrows⟩ := continues_run h after
    rw [← hc'] at h' hgrows
    refine ⟨h'.started, h.latest_mono h' (List.cons_prefix_cons.2 ⟨rfl, hgrows⟩), ?_⟩
    rw [h'.range_eq, List.length_cons, Nat.add_comm]

/-- Two commits of one value in different views, of which the first is trimmed; a commit before them
is rejected, one after them is not. The second keeps its number, and the journal ends with one more
than were accepted. -/
theorem journal_run_trimmed :
    ∃ (c c' : Chronicle) (e : Entry),
      c = ({ issuer := ⟨.replicated, .single ⟨1, ["a"]⟩⟩ } : Chronicle).run
        [.start, .learn ⟨2, ["a"]⟩,
          .append [⟨⟨.replicated, 1, 5⟩, 0, .only .empty⟩,
            ⟨⟨.replicated, 2, 5⟩, 1, .only .empty⟩]] ∧
      c' = c.run [.trim (.commit ⟨.replicated, 2, 5⟩),
        .append [⟨⟨.replicated, 2, 4⟩, 0, .only .empty⟩],
        .append [⟨⟨.replicated, 2, 6⟩, 0, .only .empty⟩]] ∧
      e.write = ⟨2, 5, 1⟩ ∧ c.journal.numbered? 2 = some e ∧ c'.journal.numbered? 2 = some e ∧
      c'.journal.range = (2, 4) ∧ c'.accepted.length = 3 := by
  obtain ⟨c, c', e, hc, hc', he, hwrite, hmem, hfirst, haccepted⟩ :
      ∃ (c c' : Chronicle) (e : Entry),
      c = ({ issuer := ⟨.replicated, .single ⟨1, ["a"]⟩⟩ } : Chronicle).run
        [.start, .learn ⟨2, ["a"]⟩,
          .append [⟨⟨.replicated, 1, 5⟩, 0, .only .empty⟩,
            ⟨⟨.replicated, 2, 5⟩, 1, .only .empty⟩]] ∧
      c' = c.run [.trim (.commit ⟨.replicated, 2, 5⟩),
        .append [⟨⟨.replicated, 2, 4⟩, 0, .only .empty⟩],
        .append [⟨⟨.replicated, 2, 6⟩, 0, .only .empty⟩]] ∧
      c.journal.numbered? 2 = some e ∧ e.write = ⟨2, 5, 1⟩ ∧ c'.journal.entries.head? = some e ∧
      c'.journal.first = 2 ∧ c'.accepted.length = 3 := ⟨_, _, _, rfl, rfl, rfl, rfl, rfl, rfl, rfl⟩
  obtain ⟨-, -, hnumber, -, -, hstarted⟩ := journal_run _ _ _ hc hc'
  obtain ⟨-, -, hrange⟩ := hstarted List.mem_cons_self
  rw [hfirst, haccepted] at hrange
  exact ⟨c, c', e, hc, hc', hwrite, he, hnumber 2 e he (List.mem_of_head? hmem), hrange, haccepted⟩

end Chronicle
end Multiversion
