import Multiversion.Proofs.Acceptance
import Multiversion.Proofs.FirstRead
import Multiversion.Proofs.LocalCollection
/- The views that a member refers to.

   The entries of the journal, the greatest commit and the registered snapshots are each of some
   view (`Member.RefersTo`), and as long as a member knows all of these views it can begin
   transactions and agree to batches (`Member.Faithful.begin_error`,
   `Member.Faithful.unknownView_of_applyBatch`). Whatever happens to a member, it refers to no views
   but those that it referred to before, its current view, and the views of the commits that it
   applies (`Session.advances_step`). So what a member has once answered that it still needs stays a
   bound of what it refers to, but for the commits that it has applied since. -/
namespace Multiversion

theorem Journal.unknownView_of_check {i : Issuer} {j : Journal} {es : List Entry} {id : Nat}
    (h : j.check i es = .error (.stamp (.unknownView id))) : i.views.knows id = false := by
  simp only [check, Issuer.mergeRanks, bind_eq_error, mapError_eq_error] at h
  rcases h with h | ⟨last, -, h | ⟨_, -, _, h, heq⟩⟩
  · rw [head] at h
    split at h <;> cases h
  · induction es generalizing last with
    | nil => cases h
    | cons e rest ih =>
      rw [checkOrder] at h
      split at h
      · exact ih e h
      · cases h
  · cases heq
    rcases h with h | ⟨_, -, h⟩
    · obtain ⟨r, -, hunknown, hfault⟩ := Issuer.checkAll_error h
      exact StampFault.unknownView.inj hfault ▸ hunknown
    · cases h

/-- The views that a member refers to: those of the entries in its journal, of its greatest commit,
and of the registered snapshots. -/
inductive Member.RefersTo (m : Member) : Nat → Prop
  | entry {e : Entry} (he : e ∈ m.journal.entries) : m.RefersTo e.stamp.view
  | latest {c : CommitStamp} (hc : m.journal.latest = some c) : m.RefersTo c.view
  | registered {v : Stamp} {id : Nat} (hv : v ∈ m.registry.snapshots) (hview : v.view? = some id) :
    m.RefersTo id

/-- The member knows every view that it refers to. -/
def Member.KnowsReferred (m : Member) : Prop := ∀ id, m.RefersTo id → m.issuer.views.knows id = true

namespace Member

variable {m m' : Member} {seed : Entry} {rs : List Record} {id : Nat}

theorem RefersTo.mono (h : m'.RefersTo id) (hentries : m'.journal.entries ⊆ m.journal.entries)
    (hlatest : m'.journal.latest = m.journal.latest)
    (hregistered : m'.registry.snapshots ⊆ m.registry.snapshots) :
    m.RefersTo id := by
  cases h with
  | entry he => exact .entry (hentries he)
  | latest hc => exact .latest (hlatest ▸ hc)
  | registered hv hview => exact .registered (hregistered hv) hview

theorem Faithful.refersTo_cases (h : m.Faithful seed rs) (href : m.RefersTo id) :
    (∃ e ∈ m.journal.entries, e.stamp.view = id) ∨
    ∃ v ∈ m.registry.snapshots, v.view? = some id := by
  cases href with
  | entry he => exact .inl ⟨_, he, rfl⟩
  | latest hc =>
    obtain ⟨c, hlatest, hrank⟩ := h.latest
    obtain rfl := Option.some.inj (hc.symm.trans hlatest)
    exact .inl ⟨_, List.mem_of_getLast? h.head?_eq, (congrArg Rank.view hrank).symm⟩
  | registered hv hview => exact .inr ⟨_, hv, hview⟩

theorem Faithful.localMinimumView_le (h : m.Faithful seed rs) {view : Nat}
    (hview : m.localMinimumView = .ok view) (href : m.RefersTo id) : view ≤ id := by
  simp only [localMinimumView, Journal.oldestView, bind_eq_ok, mapError_eq_ok, pure_eq_ok,
    Except.ok.injEq] at hview
  obtain ⟨_, -, oldest, holdest, rfl⟩ := hview
  split at holdest
  · next least hleast =>
    obtain rfl := Except.ok.inj holdest
    have hentry : ∀ e ∈ m.journal.entries, least ≤ e.stamp.view := fun e he =>
      (List.le_min?_iff hleast).1 (Nat.le_refl least) _ (List.mem_map_of_mem he)
    rcases h.refersTo_cases href with ⟨e, he, rfl⟩ | ⟨v, hv, hid⟩
    · cases (m.registry.snapshots.filterMap Stamp.view?).min? with
      | none => exact hentry e he
      | some registered => exact Nat.le_trans (Nat.min_le_right _ _) (hentry e he)
    · have hmem : id ∈ m.registry.snapshots.filterMap Stamp.view? :=
        List.mem_filterMap.2 ⟨v, hv, hid⟩
      cases hmin : (m.registry.snapshots.filterMap Stamp.view?).min? with
      | none => simp [List.min?_eq_none_iff.1 hmin] at hmem
      | some registered =>
        have hle := (List.le_min?_iff hmin).1 (Nat.le_refl registered) id hmem
        exact Nat.le_trans (Nat.min_le_left _ _) hle
  · cases holdest

/-- A member that knows what it refers to fails to begin a transaction only if it is not in the
current view. -/
theorem Faithful.begin_error (h : m.Faithful seed rs) (hknows : m.KnowsReferred) {fault : TxFault}
    (hbegin : m.begin = .error fault) :
    fault = .stamp (.unknownMember m.issuer.currentView m.address) := by
  have henabled : m.checkEnabled = .ok () := by simp [checkEnabled, h.keeps]
  obtain ⟨s, hs⟩ := h.exists_beginSnapshot_ok fun c hlatest => hknows c.view (.latest hlatest)
  simp only [Member.begin, henabled, hs, ok_bind, bind_eq_error, mapError_eq_error] at hbegin
  rcases hbegin with ⟨_, hindex, rfl⟩ | ⟨_, -, hbegin⟩
  · rw [index] at hindex
    split at hindex
    · cases hindex
    · cases hindex
      rfl
  · cases hbegin

/-- A batch that is refused for a view is refused for one that the member does not know. -/
theorem Faithful.unknownView_of_applyBatch (h : m.Faithful seed rs) {now : Nat}
    {batch : List Commit}
    (hrefused : (m.applyBatch now batch).1 = .error (.journal (.stamp (.unknownView id)))) :
    m.issuer.views.knows id = false := by
  cases hes : m.checkedEntries batch with
  | ok es =>
    obtain ⟨_, m', hm', -⟩ := h.applyBatch_accepted now hes
    rw [hm'] at hrefused
    cases hrefused
  | error fault =>
    rw [applyBatch_refused h.keeps now hes] at hrefused
    obtain rfl := Except.error.inj hrefused
    simp only [checkedEntries, bind_eq_error, mapError_eq_error] at hes
    rcases hes with hes | ⟨es, -, ⟨_, hes, heq⟩ | ⟨_, -, hes⟩⟩
    · rw [entriesOf_eq h.head?_eq, mapError_eq_error] at hes
      obtain ⟨_, -, heq⟩ := hes
      cases heq
    · cases heq
      exact Journal.unknownView_of_check hes
    · cases hes

end Member

namespace Session

variable {s s' : Session} {seed : Entry} {rs : List Record}

theorem issuer_step (s : Session) (event : Event) :
    (s.step event).member.issuer = issuerAfter event s.member.issuer := by
  obtain ⟨store, journal, heq⟩ := s.member_step event
  rw [heq]

theorem currentView_le_step (s : Session) (event : Event) :
    s.member.issuer.currentView ≤ (s.step event).member.issuer.currentView := by
  rw [issuer_step]
  cases event with
  | learn view => exact ViewTable.currentId_le_add s.member.issuer.views view
  | forget least => exact Nat.le_of_eq (ViewTable.currentId_forget s.member.issuer.views least).symm
  | _ => exact Nat.le_refl _

theorem knows_step {event : Event} (hevent : event.keepsViews = true) {id : Nat}
    (h : s.member.issuer.views.knows id = true) :
    (s.step event).member.issuer.views.knows id = true := by
  rw [issuer_step]
  cases event with
  | learn view => exact ViewTable.knows_add view h
  | forget least => cases hevent
  | _ => exact h

/-- What becomes of a member when it acts: it may have applied more commits, its current view is not
older, and every view that it has come to refer to was known to it, and was its current view or that
of a new commit. -/
structure Advances (s s' : Session) : Prop where
  currentView_le : s.member.issuer.currentView ≤ s'.member.issuer.currentView
  refersTo : ∃ added, s'.applied = s.applied ++ added ∧ ∀ id, s'.member.RefersTo id →
    s.member.RefersTo id ∨
    s.member.issuer.views.knows id = true ∧
      (id = s.member.issuer.currentView ∨ ∃ c ∈ added, c.stamp.view? = some id)

theorem Advances.of_mono (hcurrent : s.member.issuer.currentView ≤ s'.member.issuer.currentView)
    (happlied : s'.applied = s.applied)
    (hentries : s'.member.journal.entries ⊆ s.member.journal.entries)
    (hlatest : s'.member.journal.latest = s.member.journal.latest)
    (hregistered : s'.member.registry.snapshots ⊆ s.member.registry.snapshots) : s.Advances s' :=
  ⟨hcurrent, [], by rw [happlied, List.append_nil],
    fun _ href => .inl (href.mono hentries hlatest hregistered)⟩

theorem Advances.of_eq (hmember : s'.member = s.member) (happlied : s'.applied = s.applied) :
    s.Advances s' :=
  .of_mono (Nat.le_of_eq (by rw [hmember])) happlied (fun _ he => hmember ▸ he) (by rw [hmember])
    fun _ hv => hmember ▸ hv

theorem Advances.refl (s : Session) : s.Advances s := .of_eq rfl rfl

/-- A batch that is applied brings references to the views of its commits, all of which were
known. -/
theorem advances_absorb (h : s.Sound seed rs) (now : Nat) (batch : List Commit) :
    s.Advances (s.absorb batch (s.member.applyBatch now batch)) := by
  cases hes : s.member.checkedEntries batch with
  | error fault =>
    rw [Member.applyBatch_refused h.faithful.keeps now hes]
    exact .refl s
  | ok es =>
    obtain ⟨rs', m', hm', rfl, rfl, happ, hfaithful'⟩ := h.faithful.applyBatch_accepted now hes
    obtain ⟨latest, hlatest, -⟩ := h.faithful.latest
    obtain ⟨-, _, hcheck⟩ := Member.checkedEntries_eq_ok.1 hes
    obtain ⟨-, -, hknown⟩ := (Journal.exists_check_iff h.faithful.head?_eq hlatest).1 ⟨_, hcheck⟩
    rw [hm']
    refine ⟨?_, rs'.map (·.commit), rfl, ?_⟩
    · have hview : m'.issuer.currentView = s.member.issuer.currentView := by rw [happ.frame]
      exact Nat.le_of_eq hview.symm
    · intro id href
      rcases hfaithful'.refersTo_cases href with ⟨e, he, rfl⟩ | ⟨v, hv, hid⟩
      · rw [happ.entries_eq] at he
        rcases List.mem_append.1 he with he | he
        · exact .inl (.entry he)
        · obtain ⟨r, hr, rfl⟩ := List.mem_map.1 he
          have hstamp := (hfaithful'.records.logged_of_mem (List.mem_append_right _ hr)).1
          refine .inr ⟨hknown _ he, .inr ⟨r.commit, List.mem_map_of_mem hr, ?_⟩⟩
          rw [hstamp]
          rfl
      · rw [happ.frame] at hv
        exact .inl (.registered hv hid)

theorem advances_collect (s : Session) (cutoff : Stamp) :
    s.Advances (s.step (.collect cutoff)) := by
  rcases collect_cases s cutoff with heq | ⟨n, m', hgc, heq⟩ <;> rw [heq]
  · exact .refl s
  · obtain ⟨_, _, _, -, htrim, rfl, -⟩ := Member.gc_ok hgc
    obtain ⟨-, hlatest, dropped, hsplit, -⟩ := Journal.trim_ok htrim
    exact .of_mono (Nat.le_refl _) rfl (fun e he => hsplit ▸ List.mem_append_right _ he) hlatest
      fun _ hv => hv

theorem advances_step (h : s.Sound seed rs) (event : Event) : s.Advances (s.step event) := by
  cases event with
  | apply now batch => exact advances_absorb h now batch
  | applyOne now k value agreed => exact advances_absorb h now _
  | collect cutoff => exact advances_collect s cutoff
  | collectBefore value =>
    rcases collectBefore_cases s value with heq | ⟨cutoff, heq⟩ <;> rw [heq]
    · exact .refl s
    · exact advances_collect s cutoff
  | begin =>
    rw [step]
    split
    · next tx m hbegin =>
      obtain ⟨_, c, -, hstamp, -, hview, -, -⟩ := h.faithful.begin_view hbegin
      obtain ⟨c', -, -, hstamp', -, rfl⟩ := Member.begin_ok hbegin
      obtain rfl : c = c' := Stamp.snapshot.inj (hstamp.symm.trans hstamp')
      refine ⟨Nat.le_refl _, [], (List.append_nil _).symm, ?_⟩
      intro id href
      cases href with
      | entry he => exact .inl (.entry he)
      | latest hc => exact .inl (.latest hc)
      | @registered v _ hv hid =>
        obtain ⟨tx', hget⟩ := Registry.mem_snapshots.1 hv
        rw [Registry.get?_register] at hget
        split at hget
        · obtain rfl := Option.some.inj hget
          obtain rfl : c.view = id := Option.some.inj hid
          rw [hview]
          exact .inr ⟨ViewTable.knows_currentId _, .inl rfl⟩
        · exact .inl (.registered (Registry.mem_snapshots.2 ⟨tx', hget⟩) hid)
    · exact .refl s
  | drop id =>
    refine .of_mono (Nat.le_refl _) rfl (fun _ he => he) rfl ?_
    intro v hv
    obtain ⟨tx, hget⟩ := Registry.mem_snapshots.1 hv
    rw [step, Member.drop, Registry.get?_deregister] at hget
    split at hget
    · cases hget
    · exact Registry.mem_snapshots.2 ⟨tx, hget⟩
  | learn view => exact .of_mono (currentView_le_step s _) rfl (fun _ he => he) rfl fun _ hv => hv
  | forget least => exact .of_mono (currentView_le_step s _) rfl (fun _ he => he) rfl fun _ hv => hv
  | expire now => exact .of_mono (Nat.le_refl _) rfl (fun _ he => he) rfl fun _ hv => hv
  | readIn id k => exact .of_mono (Nat.le_refl _) rfl (fun _ he => he) rfl fun _ hv => hv

theorem Advances.referred_le (h : s.Advances s')
    (hs : ∀ id, s.member.RefersTo id → id ≤ s.member.issuer.currentView) (id : Nat)
    (href : s'.member.RefersTo id) :
    id ≤ s'.member.issuer.currentView := by
  obtain ⟨_, -, hrefers⟩ := h.refersTo
  refine Nat.le_trans ?_ h.currentView_le
  rcases hrefers id href with href | ⟨hknown, -⟩
  · exact hs id href
  · exact ViewTable.le_currentId hknown

theorem knowsReferred_step (h : s.Sound seed rs) {event : Event} (hevent : event.keepsViews = true)
    (hknows : s.member.KnowsReferred) : (s.step event).member.KnowsReferred := by
  intro id href
  obtain ⟨_, -, hrefers⟩ := (advances_step h event).refersTo
  rcases hrefers id href with href | ⟨hknown, -⟩
  · exact knows_step hevent (hknows id href)
  · exact knows_step hevent hknown

end Session
end Multiversion
