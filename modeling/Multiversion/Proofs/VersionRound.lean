import Multiversion.Proofs.NeededValue
import Multiversion.Proofs.RemoteCollection
import Multiversion.Proofs.Round
/- Rounds of version collection.

   In a round that everybody answers, the cutoff is not beyond the value that any member still
   needs, and in the end every member has collected before it (`World.version_round`). That value is
   not beyond the snapshot of a running transaction, wherever it runs. So the round spares what the
   transaction may read, on every member whose journal has no entry that overtakes the snapshot, and
   on a member that has one it loses what the entry has written (`round_keeps_reads`).
   `round_loses_history` is a run in which that happens. -/
namespace Multiversion

/-- The member after a collection before a cutoff; a collection that fails changes nothing. -/
def Member.collected (m : Member) (cutoff : Int64) : Member :=
  match m.gcBefore cutoff with
  | .ok (_, m') => m'
  | .error _ => m

theorem Session.member_collectBefore (s : Session) (cutoff : Int64) :
    (s.step (.collectBefore cutoff)).member = s.member.collected cutoff := by
  rw [step, Member.collected]
  cases s.member.gcBefore cutoff <;> rfl

/-- In a round over a network that loses nothing the cutoff is not beyond what any member answers,
and every member collects before it. -/
theorem World.version_round {w : World} {name : Address} {cutoff : Int64}
    (hround : (w.cluster.round .version name name).cutoff = .ok (some cutoff)) :
    (∀ n s value, w.sessions.get? n = some s → s.member.minimumValue = .ok value → cutoff ≤ value) ∧
      ∀ n s, w.sessions.get? n = some s →
        (w.cluster.round .version name name).cluster.members.get? n =
          some (s.member.collected cutoff) := by
  have hother : ∀ n s, w.sessions.get? n = some s → n ≠ name →
      n ∈ w.cluster.addresses.filter (· ≠ name) := by
    intro n s hs hn
    have hmember : w.cluster.members.get? n = some s.member := by
      rw [get?_cluster, hs, Option.map_some]
    exact Cluster.mem_others hmember hn
  have hnet : ({} : Network).replies = .empty := rfl
  rcases w.round_cases hnet .version name name with
    ⟨hnone, -⟩ | ⟨s, own, least, hs, hown, hleast, hcutoff, hcluster⟩
  · exact absurd hround (hnone cutoff)
  · obtain rfl : cutoff = least := Option.some.inj (Except.ok.inj (hround.symm.trans hcutoff))
    obtain ⟨hle, hall⟩ := cutoff?_le hleast
    constructor
    · intro n t value ht hvalue
      by_cases hn : n = name
      · subst hn
        obtain rfl : s = t := Option.some.inj (hs.symm.trans ht)
        exact Except.ok.inj (hown.symm.trans hvalue) ▸ hle
      · apply hall value
        refine List.mem_map.2 ⟨_, List.mem_map_of_mem (hother n t ht hn), ?_⟩
        simp [World.reply?, ht, Goal.question, Member.handle, hvalue, Goal.answer?, Reply.version?]
    · intro n t ht
      have hnodup : (name :: Network.reached {} (w.cluster.addresses.filter (· ≠ name))).Nodup := by
        refine List.nodup_cons.2 ⟨?_, ((Cluster.nodup_addresses _).filter _).filter _⟩
        intro hmem
        simpa using (List.mem_filter.1 (List.mem_filter.1 hmem).1).2
      have hmem : n ∈ name :: Network.reached {} (w.cluster.addresses.filter (· ≠ name)) := by
        by_cases hn : n = name
        · exact hn ▸ List.mem_cons_self
        · exact List.mem_cons_of_mem _ (List.mem_filter.2 ⟨hother n t ht hn, rfl⟩)
      have hrun := get?_run_acts (w := w) hnodup (.collectBefore cutoff) n
      rw [if_pos hmem, ht] at hrun
      calc (w.cluster.round .version name name).cluster.members.get? n
          = (((w.step (.act name (.collectBefore cutoff))).ordered {} .version cutoff
              (w.cluster.addresses.filter (· ≠ name))).clusterOver {}).members.get? n :=
            congrArg (fun c : Cluster => c.members.get? n) hcluster
        _ = some (t.step (.collectBefore cutoff)).member :=
          (get?_clusterOver _ {} n).trans (congrArg _ hrun)
        _ = some (t.member.collected cutoff) := congrArg some (t.member_collectBefore cutoff)

/-- What a member answers that it still needs is not beyond the snapshot of a transaction that runs
on it. -/
theorem Session.Sound.minimumValue_le {s : Session} {seed : Entry} {rs : List Record}
    (h : s.Sound seed rs) {r : Running} (hr : r ∈ s.running) {c : Snapshot}
    (hstamp : r.tx.stamp = .snapshot c) {value : Int64}
    (hvalue : s.member.minimumValue = .ok value) : value ≤ c.value := by
  obtain ⟨c', hstamp', hle⟩ := h.le_value_of_running (h.needsFrom_of_minimumValue hvalue) hr
  obtain rfl : c = c' := Stamp.snapshot.inj (hstamp.symm.trans hstamp')
  exact hle

namespace World

/-- Let all members of a cluster have applied the same commits, in whatever order anything else
happened, and let a round of version collection be answered by every member. Take a transaction that
runs on one of them, and any of them as its server. Unless an entry of the server's journal
overtakes the transaction's snapshot, the server answers every key exactly as before the round. If
one does, and the server has carried out the order, then what the transaction could read there of
the keys that the entry wrote has been collected. -/
theorem round_keeps_reads {settings : Settings} (hkeeps : settings.keepsHistory = true)
    (view : View) (owns : Address → Key → Bool) (actions : List Action) {w : World}
    (hw : w = (World.start settings view owns).run actions) {commits : List Commit}
    (hsame : ∀ n s, w.sessions.get? n = some s → s.applied = commits)
    (hanswers : ∀ n s, w.sessions.get? n = some s → ∃ value, s.member.minimumValue = .ok value)
    {name : Address} {cutoff : Int64}
    (hround : (w.cluster.round .version name name).cutoff = .ok (some cutoff))
    {home server : Address} {s t : Session} (hs : w.sessions.get? home = some s)
    (ht : w.sessions.get? server = some t) {r : Running} (hr : r ∈ s.running) :
    ∃ c m', r.tx.stamp = .snapshot c ∧
      (w.cluster.round .version name name).cluster.members.get? server = some m' ∧
      ((¬ ∃ e, Overtakes t.member c cutoff e) →
        ∀ k, m'.read k r.tx.stamp r.tx.readFrom = t.member.read k r.tx.stamp r.tx.readFrom) ∧
      ∀ e, Overtakes t.member c cutoff e → (∃ collected, t.member.gcBefore cutoff = .ok collected) →
        ∀ k, e.keys.contains k = true → t.member.owns k = true →
          ∀ ans, t.member.read k r.tx.stamp r.tx.readFrom = .ok ans → ans.isNotFound = false →
            ∃ asOf, m'.read k r.tx.stamp r.tx.readFrom =
              .error (.unavailable asOf (.collected k)) := by
  have hsound := hw ▸ sound_run hkeeps view owns actions
  obtain ⟨rs, hhome⟩ := hsound home s hs
  obtain ⟨rs', hserver⟩ := hsound server t ht
  obtain ⟨seen, hseen, hanch⟩ := hhome.anchored r hr
  obtain ⟨c, hstamp, hcut⟩ := hanch.cut
  obtain ⟨l, hreg⟩ := hserver.exists_snapshots
  -- The server has applied all that the transaction has seen.
  have hseen' : seen <+: rs' := by
    have hcommits : rs.map (·.commit) = rs'.map (·.commit) :=
      calc rs.map (·.commit) = s.applied := hhome.applied_eq.symm
        _ = commits := hsame home s hs
        _ = t.applied := (hsame server t ht).symm
        _ = rs'.map (·.commit) := hserver.applied_eq
    have hpre : rs.map (·.commit) <+: rs'.map (·.commit) := hcommits ▸ List.prefix_rfl
    exact hseen.trans (hhome.faithful.records.prefix_of_commits hserver.faithful.records hpre)
  obtain ⟨hleast, hcollected⟩ := version_round hround
  have hcutoff : cutoff ≤ c.value := by
    obtain ⟨value, hvalue⟩ := hanswers home s hs
    have hle := hleast home s value hs hvalue
    exact Std.le_trans hle (hhome.minimumValue_le hr hstamp hvalue)
  refine ⟨c, t.member.collected cutoff, hstamp, hcollected server t ht, ?_, ?_⟩
  · intro hnot k
    rw [hstamp, Member.collected]
    split
    · next hgc =>
      exact hserver.faithful.read_gcBefore hseen' hcut hanch.window hreg hcutoff hnot hgc k
    · rfl
  · intro e hover hok k hkey hk ans hread hfound
    obtain ⟨⟨n, m'⟩, hgc⟩ := hok
    rw [hstamp] at hread ⊢
    rw [Member.collected, hgc]
    exact hserver.faithful.read_overtaken hseen' hcut hanch.window hreg hover hkey hk
      hread hfound hgc

/-- Two members that have applied the same two commits of one value, and a transaction on the first
that began between them. -/
def between : World :=
  (World.start {} ⟨1, ["a", "b"]⟩ fun _ _ => true).run
    [.act "a" (.apply 0 [.single ⟨.replicated, 1, 1⟩ "k" (some "x")]),
      .act "b" (.apply 0 [.single ⟨.replicated, 1, 1⟩ "k" (some "x")]), .act "a" .begin,
      .act "a" (.apply 0 [.single ⟨.replicated, 1, 1⟩ "k" (some "y")]),
      .act "b" (.apply 0 [.single ⟨.replicated, 1, 1⟩ "k" (some "y")])]

theorem forall_between {p : Session → Prop} (ha : ∀ s, between.sessions.get? "a" = some s → p s)
    (hb : ∀ s, between.sessions.get? "b" = some s → p s) :
    ∀ n s, between.sessions.get? n = some s → p s := by
  intro n s hs
  obtain ⟨a, b, hentries⟩ : ∃ a b, between.sessions.entries = [("a", a), ("b", b)] := ⟨_, _, rfl⟩
  have hmem := OrderedMap.get?_eq_some_iff.1 hs
  rw [hentries] at hmem
  simp only [List.mem_cons, Prod.mk.injEq, List.not_mem_nil, or_false] at hmem
  rcases hmem with ⟨rfl, rfl⟩ | ⟨rfl, rfl⟩
  · exact ha _ hs
  · exact hb _ hs

/-- On its own member the transaction is answered after a round as before. -/
theorem round_keeps_reads_between :
    ∃ (s : Session) (r : Running) (m' : Member) (ans : Answer),
      between.sessions.get? "a" = some s ∧ r ∈ s.running ∧
      s.member.read "k" r.tx.stamp r.tx.readFrom = .ok ans ∧ ans.value = some "x" ∧
      (between.cluster.round .version "a" "a").cluster.members.get? "a" = some m' ∧
      m'.read "k" r.tx.stamp r.tx.readFrom = .ok ans := by
  obtain ⟨s, t, r, ans, hs, ht, hr, hread, hans, happlied, happlied', hmin, hmin', hreg⟩ :
      ∃ (s t : Session) (r : Running) (ans : Answer),
        between.sessions.get? "a" = some s ∧ between.sessions.get? "b" = some t ∧ r ∈ s.running ∧
        s.member.read "k" r.tx.stamp r.tx.readFrom = .ok ans ∧ ans.value = some "x" ∧
        s.applied = [.single ⟨.replicated, 1, 1⟩ "k" (some "x"),
          .single ⟨.replicated, 1, 1⟩ "k" (some "y")] ∧
        t.applied = [.single ⟨.replicated, 1, 1⟩ "k" (some "x"),
          .single ⟨.replicated, 1, 1⟩ "k" (some "y")] ∧
        s.member.minimumValue = .ok 1 ∧ t.member.minimumValue = .ok 1 ∧
        s.member.registry.snapshots = [r.tx.stamp] :=
    ⟨_, _, _, _, rfl, rfl, List.mem_cons_self, rfl, rfl, rfl, rfl, rfl, rfl, rfl⟩
  obtain ⟨c, m', hstamp, hm', hkept, -⟩ :=
    round_keeps_reads rfl ⟨1, ["a", "b"]⟩ (fun _ _ => true) _ rfl
    (forall_between (fun u hu => Option.some.inj (hs.symm.trans hu) ▸ happlied)
      (fun u hu => Option.some.inj (ht.symm.trans hu) ▸ happlied'))
    (forall_between (fun u hu => Option.some.inj (hs.symm.trans hu) ▸ ⟨1, hmin⟩)
      (fun u hu => Option.some.inj (ht.symm.trans hu) ▸ ⟨1, hmin'⟩))
    (show (between.cluster.round .version "a" "a").cutoff = .ok (some 1) from rfl) hs hs hr
  have hmem : Stamp.snapshot c ∈ s.member.registry.snapshots := by
    rw [hreg, hstamp]
    exact List.mem_cons_self
  exact ⟨s, r, m', ans, hs, hr, hread, hans, hm',
    (hkept (not_overtakes_of_registered hmem rfl) "k").trans hread⟩

/-- On the other member, which the transaction could read as well, the round takes away what it
reads: both members have answered that they need the value of both commits, and the second of them
overtakes the transaction there. -/
theorem round_loses_history :
    ∃ (s t : Session) (r : Running) (m' : Member) (ans : Answer) (asOf : Stamp),
      between.sessions.get? "a" = some s ∧ between.sessions.get? "b" = some t ∧
      s.applied = t.applied ∧
      s.member.minimumValue = .ok 1 ∧ t.member.minimumValue = .ok 1 ∧ r ∈ s.running ∧
      t.member.read "k" r.tx.stamp r.tx.readFrom = .ok ans ∧ ans.value = some "x" ∧
      (between.cluster.round .version "a" "a").cutoff = .ok (some 1) ∧
      (between.cluster.round .version "a" "a").cluster.members.get? "b" = some m' ∧
      m'.read "k" r.tx.stamp r.tx.readFrom = .error (.unavailable asOf (.collected "k")) :=
  ⟨_, _, _, _, _, _, rfl, rfl, rfl, rfl, rfl, List.mem_cons_self, rfl, rfl, rfl, rfl, rfl⟩

end World
end Multiversion
