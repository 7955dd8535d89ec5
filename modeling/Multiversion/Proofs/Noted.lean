import Mathlib.Data.List.Induction
import Multiversion.Proofs.SnapshotIsolation
/- What a transaction notes of its reads.

   A read that is answered adds the key to the read set of its transaction, and the place that the
   member has in its current view to the places read from; a read that fails leaves no trace
   (`Member.readIn_snapshot_cases`). So what a transaction has noted is what it began with, and what
   it was answered since (`Session.Noted`). The view of its snapshot stays what it was. -/
namespace Multiversion

/-- A read of a transaction that has a snapshot fails without a trace, or is answered and noted as a
whole: the bounds that are to be merged are of one view, so the merge does not fail. -/
theorem Member.readIn_snapshot_cases {m : Member} {tx : Transaction} {c : Snapshot}
    (hstamp : tx.stamp = .snapshot c) (hwindow : tx.readFrom.isEmpty = false) (k : Key) :
    (∃ fault, (m.read k tx.stamp tx.readFrom = .error fault ∨
      m.index.mapError .stamp = .error fault) ∧
        m.readIn tx k = (.error fault, tx)) ∨
      ∃ v index b, m.index = .ok index ∧ b.view = c.view ∧
        m.readIn tx k = (.ok v, { tx with
          readSet := tx.readSet.insert k
          readFrom := tx.readFrom.insert index
          stamp := .snapshot (Extreme.greatest.ofSnapshots c b) }) := by
  cases hread : m.read k tx.stamp tx.readFrom with
  | error fault => exact .inl ⟨fault, .inl rfl, by rw [readIn, hread]; rfl⟩
  | ok ans =>
    cases hindex : m.index with
    | error fault => exact .inl ⟨.stamp fault, .inr rfl, by rw [readIn, hread, hindex]; rfl⟩
    | ok index =>
      have hread' := hread
      rw [hstamp] at hread'
      obtain ⟨b, found, -, hb, -, rfl⟩ := read_ok hwindow hread'
      obtain ⟨hknown, hbound⟩ := Journal.snapshotAt_snapshot_ok hb
      have hview : b.view = c.view := by
        rw [hbound, Journal.view_pinTo, Journal.excludeWrites_eq]
      have hmerged : m.issuer.mergeMax [tx.stamp, .snapshot b] =
          .ok (.snapshot (Extreme.greatest.ofSnapshots c b)) := by
        rw [hstamp]
        refine (Issuer.merge_snapshots_ok (l := [c, b])).2 ⟨?_, rfl⟩
        simp [hview, hknown]
      refine .inr ⟨found.value, index, b, rfl, hview, ?_⟩
      simp only [readIn, hread, hindex, mapError_ok, ok_bind, pure_eq_ok, Transaction.recordRead,
        Answer.withTxBound, hmerged]

namespace Session

variable {s : Session} {seed : Entry} {rs : List Record}

/-- Within a run the transaction with an id read a key after the events `mid`, and was answered a
value. -/
structure Answered (s : Session) (id : Nat) (events mid : List Event) (k : Key)
    (v : Option Value) : Prop where
  happened : mid ++ [.readIn id k] <+: events
  answered : ∃ r ∈ (s.run mid).running, r.tx.id = id ∧
    ∃ noted, (s.run mid).member.readIn r.tx k = (.ok v, noted)

theorem run_concat (s : Session) (events : List Event) (event : Event) :
    s.run (events ++ [event]) = (s.run events).step event := by
  simp [run, List.foldl_append]

theorem answered_concat_iff {id : Nat} {events mid : List Event} {event : Event} {k : Key}
    {v : Option Value} :
    s.Answered id (events ++ [event]) mid k v ↔
      s.Answered id events mid k v ∨ (mid = events ∧ event = .readIn id k ∧
        ∃ r ∈ (s.run events).running, r.tx.id = id ∧
          ∃ noted, (s.run events).member.readIn r.tx k = (.ok v, noted)) := by
  constructor
  · rintro ⟨hpre, hanswer⟩
    rcases List.prefix_concat_iff.1 hpre with heq | hpre
    · obtain ⟨rfl, hevent⟩ := List.append_inj' heq rfl
      exact .inr ⟨rfl, (List.singleton_inj.1 hevent).symm, hanswer⟩
    · exact .inl ⟨hpre, hanswer⟩
  · rintro (⟨hpre, hanswer⟩ | ⟨rfl, rfl, hanswer⟩)
    · exact ⟨hpre.trans (List.prefix_append events [event]), hanswer⟩
    · exact ⟨List.prefix_rfl, hanswer⟩

/-- What a transaction has noted after some events, next to what it had noted before them. -/
structure Noted (s : Session) (events : List Event) (tx₀ tx : Transaction) : Prop where
  view_eq : tx.stamp.view? = tx₀.stamp.view?
  mem_readSet : ∀ k, k ∈ tx.readSet ↔ k ∈ tx₀.readSet ∨ ∃ mid v, s.Answered tx₀.id events mid k v
  mem_readFrom : ∀ n, n ∈ tx.readFrom ↔
    n ∈ tx₀.readFrom ∨ ∃ mid k v, s.Answered tx₀.id events mid k v ∧
      (s.run mid).member.index = .ok n

theorem Noted.unanswered {events : List Event} {event : Event} {tx₀ tx : Transaction}
    (h : s.Noted events tx₀ tx)
    (hnone : ∀ mid k v, s.Answered tx₀.id (events ++ [event]) mid k v →
      s.Answered tx₀.id events mid k v) :
    s.Noted (events ++ [event]) tx₀ tx := by
  have hsame : ∀ mid k v, s.Answered tx₀.id (events ++ [event]) mid k v ↔
      s.Answered tx₀.id events mid k v :=
    fun mid k v => ⟨hnone mid k v, fun hold => answered_concat_iff.2 (.inl hold)⟩
  refine ⟨h.view_eq, ?_, ?_⟩
  · simpa only [hsame] using h.mem_readSet
  · simpa only [hsame] using h.mem_readFrom

theorem Noted.answered {events : List Event} {tx₀ tx tx' : Transaction} (h : s.Noted events tx₀ tx)
    {k : Key} {v : Option Value} {index : Nat} (hindex : (s.run events).member.index = .ok index)
    (hview : tx'.stamp.view? = tx.stamp.view?) (hset : tx'.readSet = tx.readSet.insert k)
    (hfrom : tx'.readFrom = tx.readFrom.insert index)
    (hnow : s.Answered tx₀.id (events ++ [.readIn tx₀.id k]) events k v) :
    s.Noted (events ++ [.readIn tx₀.id k]) tx₀ tx' := by
  have hlast : ∀ {mid j u}, s.Answered tx₀.id (events ++ [.readIn tx₀.id k]) mid j u →
      s.Answered tx₀.id events mid j u ∨ (mid = events ∧ j = k) := by
    intro mid j u hread
    rcases answered_concat_iff.1 hread with hold | ⟨hmid, hevent, -⟩
    · exact .inl hold
    · cases hevent
      exact .inr ⟨hmid, rfl⟩
  refine ⟨hview.trans h.view_eq, ?_, ?_⟩
  · intro j
    rw [hset, OrderedSet.mem_insert, h.mem_readSet]
    constructor
    · rintro (rfl | hj | ⟨mid, u, hold⟩)
      · exact .inr ⟨events, v, hnow⟩
      · exact .inl hj
      · exact .inr ⟨mid, u, answered_concat_iff.2 (.inl hold)⟩
    · rintro (hj | ⟨mid, u, hread⟩)
      · exact .inr (.inl hj)
      · rcases hlast hread with hold | ⟨-, rfl⟩
        · exact .inr (.inr ⟨mid, u, hold⟩)
        · exact .inl rfl
  · intro n
    rw [hfrom, OrderedSet.mem_insert, h.mem_readFrom]
    constructor
    · rintro (rfl | hn | ⟨mid, j, u, hold, hplace⟩)
      · exact .inr ⟨events, k, v, hnow, hindex⟩
      · exact .inl hn
      · exact .inr ⟨mid, j, u, answered_concat_iff.2 (.inl hold), hplace⟩
    · rintro (hn | ⟨mid, j, u, hread, hplace⟩)
      · exact .inr (.inl hn)
      · rcases hlast hread with hold | ⟨rfl, rfl⟩
        · exact .inr (.inr ⟨mid, j, u, hold, hplace⟩)
        · rw [hindex] at hplace
          exact .inl (Except.ok.inj hplace).symm

/-- One event keeps the notes of a running transaction in step with the answers it got. -/
theorem Sound.noted_step {events : List Event} (h : (s.run events).Sound seed rs) {event : Event}
    {tx₀ : Transaction} {r : Running} (hr : r ∈ (s.run events).running) (hid : r.tx.id = tx₀.id)
    (hnoted : s.Noted events tx₀ r.tx) :
    s.Noted (events ++ [event]) tx₀ ((s.run events).txAfter event r.tx) := by
  obtain ⟨seen, -, hanch⟩ := h.anchored r hr
  obtain ⟨c, hstamp, -⟩ := hanch.cut
  -- Another transaction with this id is this one.
  have hsame : ∀ r' ∈ (s.run events).running, r'.tx.id = tx₀.id → r' = r := fun r' hr' hid' =>
    h.distinct r' hr' r hr (hid'.trans hid.symm)
  by_cases hevent : ∃ k, event = .readIn tx₀.id k
  · obtain ⟨k, rfl⟩ := hevent
    rw [txAfter, if_pos hid]
    rcases Member.readIn_snapshot_cases (m := (s.run events).member) hstamp hanch.window k with
      ⟨fault, -, hread⟩ | ⟨v, index, b, hindex, hview, hread⟩
    · rw [hread]
      refine hnoted.unanswered ?_
      intro mid j u hnew
      rcases answered_concat_iff.1 hnew with hold | ⟨-, hevent, r', hr', hid', noted, hread'⟩
      · exact hold
      · cases hevent
        rw [hsame r' hr' hid', hread] at hread'
        cases hread'
    · have hnow : s.Answered tx₀.id (events ++ [.readIn tx₀.id k]) events k v :=
        answered_concat_iff.2 (.inr ⟨rfl, rfl, r, hr, hid, _, hread⟩)
      have hview' : (Stamp.snapshot (Extreme.greatest.ofSnapshots c b)).view? =
          r.tx.stamp.view? := by
        rw [hstamp]
        show some (max c.view b.view) = some c.view
        rw [hview, Nat.max_self]
      rw [hread]
      exact hnoted.answered hindex hview' rfl rfl hnow
  · have hother : (s.run events).txAfter event r.tx = r.tx := by
      cases event with
      | readIn id k =>
        rw [txAfter, if_neg]
        rintro rfl
        exact hevent ⟨k, by rw [hid]⟩
      | _ => rfl
    rw [hother]
    refine hnoted.unanswered ?_
    intro mid k u hnew
    rcases answered_concat_iff.1 hnew with hold | ⟨-, hread, -⟩
    · exact hold
    · exact absurd ⟨k, hread⟩ hevent

theorem Sound.noted (h : s.Sound seed rs) {r₀ r : Running} (hr₀ : r₀ ∈ s.running)
    {events : List Event} (hr : r ∈ (s.run events).running) (hid : r.tx.id = r₀.tx.id) :
    s.Noted events r₀.tx r.tx := by
  obtain ⟨_, -, hanch⟩ := h.anchored r₀ hr₀
  induction events using List.reverseRecOn generalizing r with
  | nil =>
    obtain rfl := h.distinct r hr r₀ hr₀ hid
    have hnone : ∀ mid k v, ¬ s.Answered r.tx.id [] mid k v := fun mid k v hread =>
      absurd (List.prefix_nil.1 hread.happened) (by simp)
    exact ⟨rfl, by simp [hnone], by simp [hnone]⟩
  | append_singleton events event ih =>
    rw [run_concat] at hr
    obtain ⟨rs', hsound⟩ := h.run events
    have hfresh := Nat.lt_of_lt_of_le hanch.fresh (frame_run s events).nextId_le
    obtain ⟨r₁, hr₁, rfl⟩ := running_step hr (hid ▸ hfresh)
    have hid₁ : r₁.tx.id = r₀.tx.id := (id_txAfter event r₁.tx).symm.trans hid
    exact hsound.noted_step hr₁ hid₁ (ih hr₁ hid₁)

theorem Sound.noted_of_begin (h : s.Sound seed rs) {tx : Transaction} {m : Member}
    (hbegin : s.member.begin = .ok (tx, m)) {events : List Event} {r : Running}
    (hr : r ∈ (s.run (.begin :: events)).running) (hid : r.tx.id = tx.id) :
    (s.step .begin).Noted events tx r.tx := by
  have hnew : (⟨tx, s.applied⟩ : Running) ∈ (s.step .begin).running := by
    rw [Session.step, hbegin]
    exact List.mem_cons_self
  exact h.begin.noted hnew hr hid

end Session
end Multiversion
