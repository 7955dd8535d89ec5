import Multiversion.Proofs.Acceptance
import Multiversion.Proofs.Validation
/- A batch that is half applied.

   A batch is applied step by step: it goes into the store write by write, and into the journal when
   all of it is stored. The members that the steps lead through before the last one
   (`Member.halfway`) differ from the one before the batch only in what is stored beyond the newest
   entry of the journal (`Member.Faithful.sameUpTo_halfway`), because every write is stored with the
   stamp of an entry that comes later. No bound reaches there before the entries are appended,
   neither that of a new snapshot nor that of a running transaction, so what is read on the way is
   what was read before the batch (`Store.SameUpTo.value_get`, `Member.readIn_of_sameUpTo`). A
   snapshot taken after that finds the last write of the batch to each key
   (`Session.half_applied_unseen`). -/
namespace Multiversion

namespace Store

/-- The stores agree on all that lies up to a place. -/
structure SameUpTo (s s' : Store) (p : Position) : Prop where
  trimmed_eq : ∀ k, (s'.timeline k).trimmed = (s.timeline k).trimmed
  revisions_eq : ∀ k,
    (s'.timeline k).revisions.filter (·.position ≤ p) =
      (s.timeline k).revisions.filter (·.position ≤ p)

namespace SameUpTo

variable {s s' s'' : Store} {p : Position}

theorem refl (s : Store) (p : Position) : s.SameUpTo s p := ⟨fun _ => rfl, fun _ => rfl⟩

theorem trans (h : s.SameUpTo s' p) (h' : s'.SameUpTo s'' p) : s.SameUpTo s'' p :=
  ⟨fun k => (h'.trimmed_eq k).trans (h.trimmed_eq k),
    fun k => (h'.revisions_eq k).trans (h.revisions_eq k)⟩

theorem of_apply {k : Key} {r : Revision} (hr : p < r.position)
    (h : s.apply ⟨k, r, true⟩ = (.ok (), s')) :
    s.SameUpTo s' p := by
  obtain ⟨outcome, t, hinsert, rfl⟩ := apply_eq_ok.1 h
  obtain ⟨htrimmed, hrevisions⟩ := Timeline.insert_cases hinsert
  have hnot : ¬ r.position ≤ p := Std.not_le_of_gt hr
  have hkept : t.revisions.filter (·.position ≤ p) =
      (s.timeline k).revisions.filter (·.position ≤ p) := by
    rcases hrevisions with ⟨htop, -⟩ | ⟨newest, older, hold, hsame, hover⟩
    · rw [htop, List.filter_cons_of_neg (by simpa using hnot)]
    · have hnewest : ¬ newest.position ≤ p := hsame ▸ hnot
      rw [hover, hold, List.filter_cons_of_neg (by simpa using hnot),
        List.filter_cons_of_neg (by simpa using hnewest)]
  constructor
  · intro j
    rw [timeline_setTimeline]
    split
    · next hj => rw [hj, htrimmed]
    · rfl
  · intro j
    rw [timeline_setTimeline]
    split
    · next hj => rw [hj, hkept]
    · rfl

/-- A bound that does not reach beyond the place finds the same value, or fails alike. -/
theorem value_get (h : s.SameUpTo s' p) {b : Snapshot} (hb : b.position ≤ p) (k : Key) :
    (s'.get k (.snapshot b)).map (·.value) = (s.get k (.snapshot b)).map (·.value) := by
  have hbelow : ∀ l : List Revision,
      l.find? (b.admits ·.stamp) = (l.filter (·.position ≤ p)).find? (b.admits ·.stamp) := by
    intro l
    rw [List.find?_filter]
    congr 1
    funext r
    cases hadm : b.admits r.stamp with
    | false => simp
    | true =>
      have hle : r.position ≤ p := Std.le_trans (Snapshot.admitsAt_iff.1 hadm).1 hb
      simp [hle]
  have hsight : ((s'.timeline k).sight b.admits).map (·.revision) =
      ((s.timeline k).sight b.admits).map (·.revision) := by
    rw [Timeline.revision_sight, Timeline.revision_sight, hbelow, h.revisions_eq k, ← hbelow]
  rw [get_snapshot, get_snapshot, h.trimmed_eq k]
  cases hs : (s.timeline k).sight b.admits with
  | none =>
    rw [hs, Option.map_none, Option.map_eq_none_iff] at hsight
    rw [hsight]
  | some found =>
    rw [hs, Option.map_some, Option.map_eq_some_iff] at hsight
    obtain ⟨found', hs', hsame⟩ := hsight
    rw [hs']
    exact congrArg (fun r : Revision => Except.ok r.value) hsame

end SameUpTo

theorem sameUpTo_carryOut {p : Position} {put : Except TxFault (Option Put)}
    (hput : ∀ q, put = .ok (some q) → q.keepsHistory = true ∧ p < q.revision.position) (s : Store) :
    s.SameUpTo (s.carryOut put).2 p := by
  match put with
  | .error fault => exact .refl s p
  | .ok none => exact .refl s p
  | .ok (some q) =>
    show s.SameUpTo (s.apply q).2 p
    cases happly : s.apply q with | mk outcome s' =>
    cases outcome with
    | error stale =>
      obtain rfl : s' = s := by simpa [happly] using apply_error (congrArg Prod.fst happly)
      exact .refl s' p
    | ok _ =>
      obtain ⟨k, r, keeps⟩ := q
      obtain ⟨rfl, hr⟩ := hput _ rfl
      exact .of_apply hr happly

end Store

namespace Member

variable {m m' : Member} {seed last : Entry} {rs : List Record} {batch : List Commit}
  {es : List Entry} {k : Key} {tx : Stamp} {readFrom : OrderedSet Nat} {p : Position}
  {store : Store}

/-- The members that a batch leads through while it is stored, before its entries are appended to
the journal. -/
def halfway (m : Member) (now : Nat) (batch : List Commit) (es : List Entry) : List Member :=
  along take m (m.stepsOf now batch es).dropLast

theorem put_beyond (hkeeps : m.settings.keepsHistory = true) (hrule : m.rule = .multiversion)
    (hrs : Records last rs) {now : Nat} {q : Put}
    (hq : .ok (some q) ∈ m.putsOf now (rs.map fun r => (r.commit, r.entry.sub))) :
    q.keepsHistory = true ∧ last.position < q.revision.position := by
  obtain ⟨⟨c, sub⟩, hcommit, hq⟩ := List.mem_flatMap.1 hq
  obtain ⟨r, hr, heq⟩ := List.mem_map.1 hcommit
  obtain ⟨rfl, rfl⟩ := Prod.mk.inj heq
  obtain ⟨w, -, hput⟩ := List.mem_map.1 hq
  have hbefore := (List.pairwise_cons.1 hrs.pairwise).1 r.entry (List.mem_map_of_mem hr)
  rcases putOf_cases hkeeps hrule (hrs.logged_of_mem hr).1 now w with ⟨hnone, -⟩ |
      ⟨expires, hsome, -⟩
  · rw [hnone] at hput
    cases hput
  · rw [hsome] at hput
    cases hput
    exact ⟨rfl, hbefore.position_lt⟩

/-- A batch that passes the check leads through members that differ from the one before it only in
what they store beyond the newest entry. -/
theorem Faithful.sameUpTo_halfway (h : m.Faithful seed rs) (hes : m.checkedEntries batch = .ok es)
    {now : Nat} (hm' : m' ∈ m.halfway now batch es) :
    ∃ store, m' = { m with store } ∧ m.store.SameUpTo store (lastEntry seed rs).position := by
  obtain ⟨rs', _, -, rfl, rfl, -, hfaithful⟩ := h.applyBatch_accepted now hes
  have hputs : ∀ q, .ok (some q) ∈ m.putsOf now (rs'.map fun r => (r.commit, r.entry.sub)) →
      q.keepsHistory = true ∧ (lastEntry seed rs).position < q.revision.position :=
    fun q hq => put_beyond h.keeps h.rule hfaithful.records.of_append.2 hq
  rw [halfway, stepsOf, List.dropLast_concat, zip_subs] at hm'
  refine forall_along (P := fun m' => ∃ store, m' = { m with store } ∧
    m.store.SameUpTo store (lastEntry seed rs).position) ⟨m.store, rfl, .refl _ _⟩ ?_ m' hm'
  rintro _ hstep _ ⟨store, rfl, hstore⟩
  obtain ⟨put, hput, rfl⟩ := List.mem_map.1 hstep
  refine ⟨(store.carryOut put).2, rfl, hstore.trans (store.sameUpTo_carryOut ?_)⟩
  rintro q rfl
  exact hputs q hput

/-- A batch that is applied is appended to the journal where it has led to, and that is the last of
its steps. -/
theorem halfway_of_applyBatch (hkeeps : m.settings.keepsHistory = true)
    (hes : m.checkedEntries batch = .ok es) {now : Nat}
    (h : m.applyBatch now batch = (.ok (), m')) : ∃ stored journal,
      (m.halfway now batch es).getLast? = some stored ∧
      m.journal.append m.issuer es = (.ok (), journal) ∧
        m' = { stored with journal } ∧
        along take m (m.stepsOf now batch es) = m.halfway now batch es ++ [m'] := by
  rw [applyBatch_checked hkeeps now hes, stepsOf] at h
  obtain ⟨stored, hstored, hlogged⟩ := inTurn_append.1 h
  rw [halfway, stepsOf, List.dropLast_concat, getLast?_along, along_concat hstored, hstored]
  rw [takeAll_store] at hstored
  obtain ⟨-, rfl⟩ := Prod.mk.inj hstored
  rw [inTurn_singleton] at hlogged
  obtain ⟨houtcome, rfl⟩ := Prod.mk.inj hlogged
  exact ⟨_, _, rfl, Prod.ext (mapError_eq_ok.1 houtcome) rfl, rfl, rfl⟩

/-- Neither a first read, nor one at a snapshot that reaches no further than the newest entry, gets
a bound beyond it. -/
theorem Faithful.position_readBound_le (h : m.Faithful seed rs)
    (htx : readFrom.isEmpty = true ∨ ∃ c, tx = .snapshot c ∧
      c.position ≤ (lastEntry seed rs).position)
    {b : Snapshot} (hb : m.readBound tx readFrom = .ok b) :
    b.position ≤ (lastEntry seed rs).position := by
  simp only [readBound, bind_eq_ok, mapError_eq_ok] at hb
  obtain ⟨_, -, c, hc, hb⟩ := hb
  cases hwindow : readFrom.isEmpty with
  | true =>
    simp only [Issuer.ceiling, Issuer.windowView?, hwindow, if_true] at hc
    cases hc
    obtain ⟨latest, hlatest, hrank⟩ := h.latest
    simp only [Journal.available, Journal.latestStamp, Journal.head, h.head?_eq, Journal.mark,
      hlatest, ok_bind, pure_eq_ok, mapError_ok, snapshotAt, mapError_eq_ok] at hb
    obtain ⟨hcut, -⟩ := Journal.snapshotAt_newest h.head?_eq (Std.le_of_eq hrank.symm)
      (congrArg Rank.value hrank).symm hb
    exact Std.le_of_eq hcut.position_eq
  | false =>
    rw [hwindow] at htx
    obtain ⟨s, rfl, hle⟩ := htx.resolve_left Bool.false_ne_true
    rcases ceiling_ok hwindow hc with ⟨habsent, -⟩ | rfl
    · cases habsent
    · simp only [readStamp, snapshotAt, mapError_eq_ok] at hb
      exact Std.le_trans (Journal.position_snapshotAt_le hb) hle

/-- A read whose bound does not reach beyond the place is answered with the same value and the same
bound, or fails alike. -/
theorem read_of_sameUpTo (hstore : m.store.SameUpTo store p)
    (hb : ∀ b, m.readBound tx readFrom = .ok b → b.position ≤ p) (k : Key) :
    (({ m with store } : Member).read k tx readFrom).map (fun ans => (ans.value, ans.txBound)) =
      (m.read k tx readFrom).map fun ans => (ans.value, ans.txBound) := by
  have hbound : ({ m with store } : Member).readBound tx readFrom = m.readBound tx readFrom := rfl
  have henabled : ({ m with store } : Member).checkEnabled = m.checkEnabled := rfl
  -- Of the answer that the look-up gives, only the value counts.
  have hanswer : ∀ (x : Except TxFault Answer) (b : Snapshot),
      (do return (← x).withTxBound (.snapshot b) : Except TxFault Answer).map
        (fun ans => (ans.value, ans.txBound)) =
          (x.map (·.value)).map fun value => (value, some (.snapshot b)) := by
    intro x b
    cases x <;> rfl
  rw [read, read, hbound, henabled]
  cases m.checkEnabled with
  | error fault => rfl
  | ok _ =>
    cases hread : m.readBound tx readFrom with
    | error fault => rfl
    | ok b =>
      simp only [ok_bind, hanswer]
      rw [hstore.value_get (hb b hread) k]

theorem value_read_of_sameUpTo (hstore : m.store.SameUpTo store p)
    (hb : ∀ b, m.readBound tx readFrom = .ok b → b.position ≤ p) (k : Key) :
    (({ m with store } : Member).read k tx readFrom).map (·.value) =
      (m.read k tx readFrom).map (·.value) := by
  have hvalue : ∀ x : Except TxFault Answer,
      (x.map fun ans => (ans.value, ans.txBound)).map Prod.fst = x.map (·.value) := by
    intro x
    cases x <;> rfl
  rw [← hvalue, read_of_sameUpTo hstore hb k, hvalue]

/-- A read within a transaction is answered and noted alike. -/
theorem readIn_of_sameUpTo {t : Transaction} (hstore : m.store.SameUpTo store p)
    (hb : ∀ b, m.readBound t.stamp t.readFrom = .ok b → b.position ≤ p) (k : Key) :
    ({ m with store } : Member).readIn t k = m.readIn t k := by
  have hread := read_of_sameUpTo hstore hb k
  have hindex : ({ m with store } : Member).index = m.index := rfl
  rw [readIn, readIn, hindex]
  cases hold : m.read k t.stamp t.readFrom with
  | error fault =>
    cases hnew : ({ m with store } : Member).read k t.stamp t.readFrom with
    | error fault' =>
      rw [hold, hnew] at hread
      cases hread
      rfl
    | ok ans' =>
      rw [hold, hnew] at hread
      cases hread
  | ok ans =>
    cases hnew : ({ m with store } : Member).read k t.stamp t.readFrom with
    | error fault' =>
      rw [hold, hnew] at hread
      cases hread
    | ok ans' =>
      rw [hold, hnew] at hread
      obtain ⟨hvalue, hbound⟩ := Prod.mk.inj (Except.ok.inj hread)
      cases m.index with
      | error fault => rfl
      | ok index => simp only [ok_bind, pure_eq_ok, mapError_ok, hvalue, hbound]

theorem Faithful.knows_latest (h : m.Faithful seed rs) (hes : m.checkedEntries batch = .ok es)
    {c : CommitStamp} (hc : m.journal.latest = some c) : m.issuer.views.knows c.view = true :=
  ((Journal.exists_check_iff h.head?_eq hc).1 (checkedEntries_eq_ok.1 hes).2).2.1

/-- A snapshot taken after a batch finds the last write of the batch to every key that it writes and
that the member owns. -/
theorem Applied.exists_newest_get {rs' : List Record} (happ : Applied (lastEntry seed rs) rs' m m')
    (h' : m'.Faithful seed (rs ++ rs')) :
    ∃ c, m'.beginSnapshot = .ok c ∧ ∀ k, m.owns k = true → Overwritten (rs'.map (·.commit)) k →
      ∃ r older, revisionsOf k rs' = r :: older ∧
        m'.store.get k (.snapshot c) = .ok (.ofSighting ⟨r, none⟩) := by
  obtain ⟨c, hc⟩ := h'.exists_beginSnapshot_ok fun c hlatest => by
    obtain ⟨latest, hlatest', -, hknown⟩ := happ.latest
    rw [happ.frame, Option.some.inj (hlatest.symm.trans hlatest')]
    exact hknown
  refine ⟨c, hc, fun k hk hwritten => ?_⟩
  have hne : revisionsOf k rs' ≠ [] := fun hnil => revisionsOf_eq_nil_iff.1 hnil hwritten
  obtain ⟨r, older, hrevisions⟩ := List.exists_cons_of_ne_nil hne
  refine ⟨r, older, hrevisions, ?_⟩
  obtain ⟨added, hadded, -, howned⟩ := happ.stored.revisions_eq k
  rw [howned hk, hrevisions, List.cons_append] at hadded
  have hle := h'.position_le (k := k) (v := r) (hadded ▸ List.mem_cons_self)
  exact Store.get_of_newest hadded ((h'.beginSnapshot hc).1.admits_iff.2 hle)

end Member

namespace Session

variable {s : Session} {seed : Entry} {rs : List Record} {batch : List Commit} {es : List Entry}

/-- Half of a batch is seen neither by a snapshot that is taken there nor by a running
transaction. -/
theorem Sound.unseen_halfway (h : s.Sound seed rs) (hes : s.member.checkedEntries batch = .ok es)
    {now : Nat} {c : Snapshot} (hc : s.member.beginSnapshot = .ok c) {m : Member}
    (hm : m ∈ s.member.halfway now batch es) :
    m.beginSnapshot = .ok c ∧ ∀ k,
      (m.store.get k (.snapshot c)).map (·.value) =
        (s.member.store.get k (.snapshot c)).map (·.value) ∧
      (∀ readFrom, (m.read k (.snapshot c) readFrom).map (·.value) =
        (s.member.read k (.snapshot c) readFrom).map (·.value)) ∧
      ∀ r ∈ s.running, m.readIn r.tx k = s.member.readIn r.tx k := by
  obtain ⟨store, rfl, hstore⟩ := h.faithful.sameUpTo_halfway hes hm
  have hle : c.position ≤ (lastEntry seed rs).position :=
    Std.le_of_eq (h.faithful.beginSnapshot hc).1.position_eq
  refine ⟨hc, fun k => ⟨hstore.value_get hle k, fun readFrom => ?_, fun r hr => ?_⟩⟩
  · exact Member.value_read_of_sameUpTo hstore
      (fun b hb => h.faithful.position_readBound_le (.inr ⟨c, rfl, hle⟩) hb) k
  · obtain ⟨seen, hseen, hanch⟩ := h.anchored r hr
    obtain ⟨b, hstamp, hcut⟩ := hanch.cut
    have hle' : b.position ≤ (lastEntry seed rs).position :=
      hcut.position_eq ▸ h.faithful.records.position_le_lastEntry (lastEntry_mem_log _ hseen)
    exact Member.readIn_of_sameUpTo hstore
      (fun b hb => h.faithful.position_readBound_le (.inr ⟨_, hstamp, hle'⟩) hb) k

/-- Take any run of a member that keeps history, and then any batch that passes the check. Wherever
the batch has come to in the store, a snapshot taken there is the one that could be taken before the
batch, and it reads every key as before; so does every running transaction. The batch is then
appended to the journal, and a new snapshot finds the last write of the batch to every key that it
writes and that the member owns. -/
theorem half_applied_unseen {settings : Settings} (hkeeps : settings.keepsHistory = true)
    (address : Address) (view : View) (owns : Key → Bool) (events : List Event) {s : Session}
    (hs : s = (start settings address view owns).run events) (now : Nat) {batch : List Commit}
    {es : List Entry} (hes : s.member.checkedEntries batch = .ok es) :
    ∃ c, s.member.beginSnapshot = .ok c ∧
      (∀ m ∈ s.member.halfway now batch es, m.beginSnapshot = .ok c ∧ ∀ k,
        (m.store.get k (.snapshot c)).map (·.value) =
          (s.member.store.get k (.snapshot c)).map (·.value) ∧
        (∀ readFrom, (m.read k (.snapshot c) readFrom).map (·.value) =
          (s.member.read k (.snapshot c) readFrom).map (·.value)) ∧
        ∀ r ∈ s.running, m.readIn r.tx k = s.member.readIn r.tx k) ∧
      ∃ stored journal m', (s.member.halfway now batch es).getLast? = some stored ∧
        s.member.journal.append s.member.issuer es = (.ok (), journal) ∧
        m' = { stored with journal } ∧
        s.member.applyBatch now batch = (.ok (), m') ∧
        along Member.take s.member (s.member.stepsOf now batch es) =
          s.member.halfway now batch es ++ [m'] ∧
        ∃ c', m'.beginSnapshot = .ok c' ∧
          ∀ k, owns k = true → Overwritten batch k → ∃ r older,
            revisionsOf k (batch.zipWith Record.mk es) = r :: older ∧
              m'.store.get k (.snapshot c') = .ok (.ofSighting ⟨r, none⟩) := by
  obtain ⟨rs, hsound⟩ := Sound.run_start hkeeps address view owns events
  have howns : s.member.owns = owns := by rw [hs, (frame_run _ events).owns_eq]; rfl
  rw [← hs] at hsound
  have hfaithful := hsound.faithful
  obtain ⟨c, hc⟩ :=
    hfaithful.exists_beginSnapshot_ok fun _ hlatest => hfaithful.knows_latest hes hlatest
  obtain ⟨rs', m', hm', rfl, rfl, happ, hfaithful'⟩ := hfaithful.applyBatch_accepted now hes
  obtain ⟨stored, journal, hstored, happend, heq, hsteps⟩ :=
    Member.halfway_of_applyBatch hfaithful.keeps hes hm'
  obtain ⟨c', hc', hnewest⟩ := happ.exists_newest_get hfaithful'
  refine ⟨c, hc, fun m hm => hsound.unseen_halfway hes hc hm, stored, journal, m', hstored, happend,
    heq, hm', hsteps, c', hc', fun k hk hwritten => ?_⟩
  rw [List.zipWith_map, List.zipWith_self, List.map_id']
  exact hnewest k (howns ▸ hk) hwritten

/-- A batch writes a key again with the value of the last commit, and then removes it and writes it
once more with the next value. When the first of these writes is stored, the running transaction
still reads the value from before, and after all of them a new snapshot finds the last. -/
theorem half_applied_unseen_same_value :
    ∃ (s : Session) (batch : List Commit) (es : List Entry) (m m' : Member) (r : Running)
      (c' : Snapshot),
      s = (start {} "a" ⟨1, ["a"]⟩ fun _ => true).run
        [.apply 0 [.single ⟨.replicated, 1, 1⟩ "k" (some "x")], .begin] ∧
      batch = [.single ⟨.replicated, 1, 1⟩ "k" (some "y"),
        ⟨.commit ⟨.replicated, 1, 2⟩, [.ofValue "k" none none, .ofValue "k" (some "z") none],
          .empty⟩] ∧
      s.member.checkedEntries batch = .ok es ∧ m ∈ s.member.halfway 0 batch es ∧ r ∈ s.running ∧
      (m.store.newest? "k").map (·.value) = some (some "y") ∧
      (m.readIn r.tx "k").1 = .ok (some "x") ∧
      s.member.applyBatch 0 batch = (.ok (), m') ∧ m'.beginSnapshot = .ok c' ∧
      m'.store.get "k" (.snapshot c') = .ok (.ofWrite (some "z") ⟨1, 2, 0⟩ none) := by
  obtain ⟨s, batch, es, m, r, hs, hbatch, hes, hm, hr, hnewest, hread, hwritten, hrevisions⟩ :
      ∃ (s : Session) (batch : List Commit) (es : List Entry) (m : Member) (r : Running),
        s = (start {} "a" ⟨1, ["a"]⟩ fun _ => true).run
          [.apply 0 [.single ⟨.replicated, 1, 1⟩ "k" (some "x")], .begin] ∧
        batch = [.single ⟨.replicated, 1, 1⟩ "k" (some "y"),
          ⟨.commit ⟨.replicated, 1, 2⟩, [.ofValue "k" none none, .ofValue "k" (some "z") none],
            .empty⟩] ∧
        s.member.checkedEntries batch = .ok es ∧ m ∈ s.member.halfway 0 batch es ∧ r ∈ s.running ∧
        (m.store.newest? "k").map (·.value) = some (some "y") ∧
        (s.member.readIn r.tx "k").1 = .ok (some "x") ∧
        Overwritten batch "k" ∧
        (revisionsOf "k" (batch.zipWith Record.mk es)).head? = some ⟨⟨1, 2, 0⟩, some "z", none⟩ :=
    ⟨_, _, _, _, _, rfl, rfl, rfl, List.mem_cons_of_mem _ List.mem_cons_self, List.mem_cons_self,
      rfl, rfl, ⟨_, List.mem_cons_self, _, List.mem_cons_self, rfl⟩, rfl⟩
  obtain ⟨_, -, hway, _, _, m', -, -, -, hm', -, c', hc', hafter⟩ :=
    half_applied_unseen rfl "a" ⟨1, ["a"]⟩ (fun _ => true) _ hs 0 hes
  obtain ⟨v, older, hv, hget⟩ := hafter "k" rfl hwritten
  rw [hv] at hrevisions
  obtain rfl := Option.some.inj hrevisions
  exact ⟨s, batch, es, m, m', r, c', hs, hbatch, hes, hm, hr, hnewest,
    (((hway m hm).2 "k").2.2 r hr) ▸ hread, hm', hc', hget⟩

end Session
end Multiversion
