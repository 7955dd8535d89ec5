import Multiversion.Proofs.Collection
import Multiversion.Proofs.Session
/- Collection on one member.

   Everything that a collection before a commit value admits, every registered snapshot admits. What
   is trimmed then lies before the cut of every running transaction, and none of them reads anything
   else afterwards (`collection_keeps_reads`). As long as no view is forgotten the collection does
   not fail either. -/
namespace Multiversion

/-- Whether an event leaves all views known. -/
def Event.keepsViews : Event → Bool
  | .forget _ => false
  | _ => true

namespace Member

variable {s : Session} {seed : Entry} {rs : List Record}

theorem ViewsKnown.collect (h : s.member.ViewsKnown) (cutoff : Stamp) :
    (s.step (.collect cutoff)).member.ViewsKnown := by
  rcases s.collect_cases cutoff with heq | ⟨n, m', hgc, heq⟩ <;> rw [heq]
  · exact h
  · obtain ⟨_, _, _, -, htrim, rfl, -⟩ := gc_ok hgc
    exact ⟨(Journal.trim_ok htrim).2.1 ▸ h.latest, h.registered⟩

theorem ViewsKnown.absorb (h : s.member.ViewsKnown) (hs : s.Sound seed rs) (now : Nat)
    (batch : List Commit) : (s.absorb batch (s.member.applyBatch now batch)).member.ViewsKnown := by
  rw [Session.member_absorb]
  rcases hs.faithful.applyBatch now batch with ⟨fault, heq⟩ | ⟨rs', m', heq, -, happ, -⟩
  · rw [heq]
    exact h
  · obtain ⟨c, hc, -, hknown⟩ := happ.latest
    rw [heq]
    show m'.ViewsKnown
    rw [happ.frame]
    exact ⟨fun c' hc' => Option.some.inj (hc.symm.trans hc') ▸ hknown, h.registered⟩

theorem ViewsKnown.step (h : s.member.ViewsKnown) (hs : s.Sound seed rs) {event : Event}
    (hevent : event.keepsViews = true) : (s.step event).member.ViewsKnown := by
  cases event with
  | apply now batch =>
    rw [Session.step]
    exact h.absorb hs now batch
  | applyOne now k value agreed =>
    rw [Session.step, Member.applyCommit]
    exact h.absorb hs now _
  | learn view =>
    exact ⟨fun c hc => ViewTable.knows_add view (h.latest c hc),
      fun id c hc => ViewTable.knows_add view (h.registered id c hc)⟩
  | forget least => cases hevent
  | collect cutoff => exact h.collect cutoff
  | collectBefore value =>
    rcases s.collectBefore_cases value with heq | ⟨cutoff, heq⟩ <;> rw [heq]
    · exact h
    · exact h.collect cutoff
  | expire now => exact ⟨h.latest, h.registered⟩
  | begin =>
    rw [Session.step]
    split
    · next tx m hbegin =>
      obtain ⟨c, hc, -, -, -, rfl⟩ := begin_ok hbegin
      refine ⟨h.latest, ?_⟩
      intro id c' hc'
      rw [Registry.get?_register] at hc'
      split at hc'
      · cases hc'
        exact (hs.faithful.beginSnapshot hc).2.2.2
      · exact h.registered id c' hc'
    · exact h
  | drop id =>
    refine ⟨h.latest, ?_⟩
    intro j c hc
    rw [Session.step, drop, Registry.get?_deregister] at hc
    split at hc
    · cases hc
    · exact h.registered j c hc
  | readIn id k => exact h

theorem ViewsKnown.run (h : s.member.ViewsKnown) (hs : s.Sound seed rs) {events : List Event}
    (hevents : ∀ e ∈ events, e.keepsViews = true) : (s.run events).member.ViewsKnown := by
  induction events generalizing s rs with
  | nil => exact h
  | cons event rest ih =>
    obtain ⟨hevent, hrest⟩ := List.forall_mem_cons.1 hevents
    obtain ⟨rs', hs'⟩ := hs.step event
    exact ih (h.step hs hevent) hs' hrest

theorem ViewsKnown.start {settings : Settings} (h : settings.keepsHistory = true)
    (address : Address) (view : View) (owns : Key → Bool) :
    (Member.create settings address view owns).ViewsKnown := by
  refine ⟨?_, fun id s hs => by simp [Member.create] at hs⟩
  intro c hc
  simp only [create, h, if_true] at hc
  cases hc
  exact ViewTable.knows_oldestId (.single view)

end Member

namespace Session

/-- Take any run of a member that keeps history, in which no view is forgotten, and then any cutoff:
below, within or above the journal. Collecting before it succeeds, and every running transaction is
answered every key exactly as if nothing had been collected: with the same value, end of validity
and bound, or with the same fault. -/
theorem collection_keeps_reads {settings : Settings} (hkeeps : settings.keepsHistory = true)
    (address : Address) (view : View) (owns : Key → Bool) {events : List Event}
    (hevents : ∀ e ∈ events, e.keepsViews = true) {s : Session}
    (hs : s = (start settings address view owns).run events) (cutoff : Int64) :
    ∃ n m', s.member.gcBefore cutoff = .ok (n, m') ∧ ∀ r ∈ s.running, ∀ k,
      m'.read k r.tx.stamp r.tx.readFrom = s.member.read k r.tx.stamp r.tx.readFrom ∧
        m'.readIn r.tx k = s.member.readIn r.tx k := by
  obtain ⟨rs, hsound⟩ := Sound.run_start hkeeps address view owns events
  have hviews :=
    (Member.ViewsKnown.start hkeeps address view owns).run
      (Sound.start hkeeps address view owns) hevents
  rw [← hs] at hsound hviews
  obtain ⟨l, hreg⟩ := hsound.exists_snapshots
  obtain ⟨n, m', hgc⟩ := hsound.faithful.exists_gcBefore_ok hviews hreg cutoff
  refine ⟨n, m', hgc, ?_⟩
  intro r hr k
  obtain ⟨seen, hseen, hanch⟩ := hsound.anchored r hr
  obtain ⟨c, hstamp, hcut⟩ := hanch.cut
  obtain ⟨t, ht, htcut⟩ := hanch.exists_registered hreg
  obtain ⟨b, bound, oldest, j', hbound, htrim, rfl, hadmits, -⟩ :=
    hsound.faithful.gcBefore_bound hreg hgc
  -- The bound admits nothing that the registered snapshot does not admit, and so nothing beyond the
  -- cut.
  have hread := hsound.faithful.read_collect hseen hcut hanch.window hbound htrim
    (fun e _ he => htcut.admits_iff.1 (hadmits t ht _ he)) k
  rw [← hstamp] at hread
  exact ⟨hread, by simp only [Member.readIn, hread]; rfl⟩

/-- A transaction that began between two commits of one value is answered the same after a
collection beyond both. -/
theorem collection_keeps_reads_overwritten :
    ∃ (s : Session) (n : Nat) (m' : Member) (r : Running) (ans : Answer),
      s = (start {} "a" ⟨1, ["a"]⟩ fun _ => true).run
        [.apply 0 [.single ⟨.replicated, 1, 1⟩ "k" (some "x")], .begin,
          .apply 0 [.single ⟨.replicated, 1, 1⟩ "k" (some "y")]] ∧
      r ∈ s.running ∧ s.member.read "k" r.tx.stamp r.tx.readFrom = .ok ans ∧ ans.value = some "x" ∧
      s.member.gcBefore 5 = .ok (n, m') ∧ m'.read "k" r.tx.stamp r.tx.readFrom = .ok ans := by
  obtain ⟨s, r, ans, hs, hr, hread, hans⟩ : ∃ (s : Session) (r : Running) (ans : Answer),
      s = (start {} "a" ⟨1, ["a"]⟩ fun _ => true).run
        [.apply 0 [.single ⟨.replicated, 1, 1⟩ "k" (some "x")], .begin,
          .apply 0 [.single ⟨.replicated, 1, 1⟩ "k" (some "y")]] ∧
      r ∈ s.running ∧ s.member.read "k" r.tx.stamp r.tx.readFrom = .ok ans ∧ ans.value = some "x" :=
    ⟨_, _, _, rfl, List.mem_cons_self, rfl, rfl⟩
  obtain ⟨n, m', hgc, hsame⟩ :=
    collection_keeps_reads rfl "a" ⟨1, ["a"]⟩ (fun _ => true) (by simp [Event.keepsViews]) hs 5
  exact ⟨s, n, m', r, ans, hs, hr, hread, hans, hgc, (hsame r hr "k").1.trans hread⟩

end Session
end Multiversion
