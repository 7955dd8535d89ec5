import Multiversion.Proofs.Session
/- Snapshot isolation on one member.

   Whatever happens to a member while a transaction runs on it, the transaction reads its keys as
   they were when it began, or is told that it can not (`read_isolated`). A read looks at the cut of
   history that the transaction was given, and the timelines that the member owns are faithful to
   the history up to any cut. -/
namespace Multiversion

theorem Records.admits_of_cutsAt {seed : Entry} {seen rest : List Record}
    (h : Records seed (seen ++ rest)) {b : Snapshot}
    (hb : b.CutsAt (lastEntry seed seen).position) :
    (∀ r ∈ seen, b.admits r.entry.write = true) ∧ ∀ r ∈ rest, b.admits r.entry.write = false := by
  constructor
  · intro r hr
    exact hb.admits_iff.2 (h.of_append.1.position_le_lastEntry
      (List.mem_cons_of_mem _ (List.mem_map_of_mem hr)))
  · intro r hr
    have hlt := h.lastEntry_position_lt hr
    have hnot : ¬ r.entry.write.position ≤ (lastEntry seed seen).position := fun hle =>
      Std.lt_irrefl (Std.lt_of_lt_of_le hlt hle)
    simpa using mt hb.admits_iff.1 hnot

theorem Member.Faithful.value_of_read {m : Member} {seed : Entry} {seen rest : List Record}
    {k : Key} {c : Snapshot} {readFrom : OrderedSet Nat} {ans : Answer}
    (h : m.Faithful seed (seen ++ rest)) (hk : m.owns k = true)
    (hc : c.CutsAt (lastEntry seed seen).position) (hwindow : readFrom.isEmpty = false)
    (hread : m.read k (.snapshot c) readFrom = .ok ans) :
    ans.value = heldAfter (seen.map (·.commit)) k := by
  obtain ⟨b, found, -, hb, hfound, rfl⟩ := Member.read_ok hwindow hread
  have hmem := lastEntry_mem_log seed (List.prefix_append seen rest)
  have hcut : b.CutsAt (lastEntry seed seen).position :=
    Journal.cutsAt_snapshotAt h.chronological (h.covers hmem) hc hb
  obtain ⟨hseen, hrest⟩ := h.records.admits_of_cutsAt hcut
  show found.value = _
  exact Store.value_of_get (h.kept k hk) hseen hrest hfound

namespace Session

/-- A transaction reads what a plain map held after the commits it has seen. -/
theorem Sound.value_of_readIn {s : Session} {seed : Entry} {rs : List Record} (h : s.Sound seed rs)
    {r : Running} (hr : r ∈ s.running) {k : Key} (hk : s.member.owns k = true) {v : Option Value}
    {tx : Transaction} (hread : s.member.readIn r.tx k = (.ok v, tx)) : v = heldAfter r.seen k := by
  obtain ⟨seen, ⟨rest, rfl⟩, hanch⟩ := h.anchored r hr
  obtain ⟨c, hstamp, hcut⟩ := hanch.cut
  obtain ⟨ans, hans, rfl⟩ := Member.readIn_ok hread
  rw [hstamp] at hans
  rw [hanch.seen_eq]
  exact h.faithful.value_of_read hk hcut hanch.window hans

theorem Sound.seen_of_begin {s : Session} {seed : Entry} {rs : List Record} (h : s.Sound seed rs)
    {tx : Transaction} {m : Member} (hbegin : s.member.begin = .ok (tx, m)) {events : List Event}
    {r : Running} (hr : r ∈ (s.run (.begin :: events)).running) (hid : r.tx.id = tx.id) :
    r.seen = s.applied := by
  have hstep : s.step .begin = { s with member := m, running := ⟨tx, s.applied⟩ :: s.running } := by
    rw [Session.step, hbegin]
  obtain ⟨c, -, htx, -, -, hm⟩ := Member.begin_ok hbegin
  have hnext : r.tx.id < (s.step .begin).member.registry.nextId := by
    rw [hstep, hm, hid, htx]
    exact Nat.lt_succ_self _
  obtain ⟨r₀, hr₀, hid₀, hseen⟩ := seen_run (s := s.step .begin) hr hnext
  have hnew : (⟨tx, s.applied⟩ : Running) ∈ (s.step .begin).running := by
    rw [hstep]
    exact List.mem_cons_self
  have hsame := h.begin.distinct r₀ hr₀ _ hnew (hid₀.trans hid)
  rw [← hseen, hsame]

/-- Let a transaction begin at any time in any run of a member that keeps history. Whenever it then
reads a key that the member owns, and the read succeeds, it gets what the commits applied before it
began, in the order in which they were applied, left there. So two such reads of a key agree,
whatever happens before, between and after them. -/
theorem read_isolated {settings : Settings} (hkeeps : settings.keepsHistory = true)
    (address : Address) (view : View) (owns : Key → Bool) (before : List Event) {s : Session}
    (hs : s = (start settings address view owns).run before) {tx : Transaction} {m : Member}
    (hbegin : s.member.begin = .ok (tx, m)) (after : List Event) {s' : Session}
    (hs' : s' = s.run (.begin :: after)) {r : Running} (hr : r ∈ s'.running) (hid : r.tx.id = tx.id)
    {k : Key} (hk : owns k = true) {v : Option Value} {noted : Transaction}
    (hread : s'.member.readIn r.tx k = (.ok v, noted)) :
    v = heldAfter s.applied k ∧
      ∀ later, ∀ r' ∈ (s'.run later).running, r'.tx.id = tx.id →
        ∀ v' noted', (s'.run later).member.readIn r'.tx k = (.ok v', noted') → v' = v := by
  obtain ⟨rs, hsound⟩ := Sound.run_start hkeeps address view owns before
  rw [← hs] at hsound
  have howns : ∀ events, (s.run events).member.owns k = true := by
    intro events
    rw [(frame_run s events).owns_eq, hs, (frame_run _ before).owns_eq]
    exact hk
  -- Every later state is reached from `s` by some events that follow the beginning of the
  -- transaction.
  have hvalue : ∀ events, ∀ r ∈ (s.run (.begin :: events)).running, r.tx.id = tx.id → ∀ v noted,
      (s.run (.begin :: events)).member.readIn r.tx k = (.ok v, noted) →
      v = heldAfter s.applied k := by
    intro events r hr hid v noted hread
    obtain ⟨rs', hsound'⟩ := hsound.run (.begin :: events)
    rw [← hsound.seen_of_begin hbegin hr hid]
    exact hsound'.value_of_readIn hr (howns _) hread
  subst hs'
  have hv := hvalue after r hr hid v noted hread
  refine ⟨hv, ?_⟩
  intro later r' hr' hid' v' noted' hread'
  have hrun : (s.run (.begin :: after)).run later = s.run (.begin :: (after ++ later)) := by
    simp [run, List.foldl_append]
  rw [hrun] at hr' hread'
  rw [hv]
  exact hvalue _ r' hr' hid' v' noted' hread'

/-- A transaction that began between two commits of one value reads the first, also after a
collection. -/
theorem read_isolated_overwritten :
    ∃ (s s' : Session) (tx noted : Transaction) (m : Member) (r : Running),
      s = (start {} "a" ⟨1, ["a"]⟩ fun _ => true).run
        [.apply 0 [.single ⟨.replicated, 1, 1⟩ "k" (some "x")]] ∧
      s.member.begin = .ok (tx, m) ∧
      s' = s.run [.begin, .apply 0 [.single ⟨.replicated, 1, 1⟩ "k" (some "y")], .collectBefore 5] ∧
      r ∈ s'.running ∧ r.tx.id = tx.id ∧ s'.member.readIn r.tx "k" = (.ok (some "x"), noted) ∧
      some "x" = heldAfter s.applied "k" := by
  obtain ⟨s, s', tx, noted, m, r, hs, hbegin, hs', hr, hid, hread⟩ :
      ∃ (s s' : Session) (tx noted : Transaction) (m : Member) (r : Running),
        s = (start {} "a" ⟨1, ["a"]⟩ fun _ => true).run
          [.apply 0 [.single ⟨.replicated, 1, 1⟩ "k" (some "x")]] ∧
        s.member.begin = .ok (tx, m) ∧
        s' = s.run [.begin, .apply 0 [.single ⟨.replicated, 1, 1⟩ "k" (some "y")],
          .collectBefore 5] ∧
        r ∈ s'.running ∧ r.tx.id = tx.id ∧ s'.member.readIn r.tx "k" = (.ok (some "x"), noted) :=
    ⟨_, _, _, _, _, _, rfl, rfl, rfl, List.mem_cons_self, rfl, rfl⟩
  have hvalue :=
    (read_isolated rfl "a" ⟨1, ["a"]⟩ (fun _ => true) _ hs hbegin _ hs' hr hid rfl hread).1
  exact ⟨s, s', tx, noted, m, r, hs, hbegin, hs', hr, hid, hread, hvalue⟩

end Session
end Multiversion
