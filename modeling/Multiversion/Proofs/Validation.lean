import Multiversion.Proofs.Noted
import Multiversion.Proofs.FirstRead
/- Validation on one member.

   The bound of a transaction cuts history where the transaction began, so a key validates exactly
   if no commit that was applied since writes it (`Store.validate_eq`). A set of keys is validated
   in order, and fails at the first of them that was overwritten (`Member.Faithful.validate_eq`).
   That is all that decides on it, whatever else has happened to the member (`validate_exact`):
   commits of one value, removals and collections included. -/
namespace Multiversion

/-- Some commit writes the key. -/
def Overwritten (commits : List Commit) (k : Key) : Prop :=
  ∃ c ∈ commits, ∃ w ∈ c.writes, w.change.key = k

instance (commits : List Commit) (k : Key) : Decidable (Overwritten commits k) :=
  inferInstanceAs (Decidable (∃ c ∈ commits, ∃ w ∈ c.writes, w.change.key = k))

/-- The first of the keys, in order, that some commit writes. -/
def firstOverwritten (commits : List Commit) (keys : OrderedSet Key) : Option Key :=
  keys.toList.find? fun k => Overwritten commits k

section Overwritten

variable {commits since : List Commit} {k : Key} {keys : OrderedSet Key}

theorem firstOverwritten_eq_none_iff :
    firstOverwritten commits keys = none ↔ ∀ k ∈ keys, ¬ Overwritten commits k := by
  simp only [firstOverwritten, List.find?_eq_none, decide_eq_true_eq]
  exact Iff.rfl

theorem firstOverwritten_eq_some (h : firstOverwritten commits keys = some k) :
    k ∈ keys ∧ Overwritten commits k ∧ ∀ j ∈ keys, j < k → ¬ Overwritten commits j := by
  obtain ⟨hk, before, after, hsplit, hbefore⟩ := List.find?_eq_some_iff_append.1 h
  have hincreasing := keys.increasing
  rw [hsplit] at hincreasing
  obtain ⟨-, hafter, -⟩ := List.pairwise_append.1 hincreasing
  have hmem : k ∈ keys.toList := by simp [hsplit]
  refine ⟨hmem, of_decide_eq_true hk, ?_⟩
  intro j hj hlt
  have hj : j ∈ before ++ k :: after := hsplit ▸ hj
  rcases List.mem_append.1 hj with hj | hj
  · simpa using hbefore j hj
  · rcases List.mem_cons.1 hj with rfl | hj
    · exact absurd hlt Std.lt_irrefl
    · exact absurd (Std.lt_trans hlt ((List.pairwise_cons.1 hafter).1 j hj)) Std.lt_irrefl

theorem heldAfter_append_of_not_overwritten (h : ¬ Overwritten since k) :
    heldAfter (commits ++ since) k = heldAfter commits k := by
  induction since generalizing commits with
  | nil => rw [List.append_nil]
  | cons c rest ih =>
    have hrest : ¬ Overwritten rest k := fun ⟨c', hc', hw⟩ => h ⟨c', List.mem_cons_of_mem c hc', hw⟩
    have hnone : lastValue k c.writes = none :=
      lastValue_eq_none_iff.2 fun w hw hkey => h ⟨c, List.mem_cons_self, w, hw, hkey⟩
    calc heldAfter (commits ++ c :: rest) k
        = heldAfter ((commits ++ [c]) ++ rest) k := by simp
      _ = heldAfter (commits ++ [c]) k := ih hrest
      _ = c.applyTo (heldAfter commits) k := by simp [heldAfter, List.foldl_append]
      _ = heldAfter commits k := by rw [Commit.applyTo_apply, hnone, Option.getD_none]

theorem revisionsOf_eq_nil_iff {rs : List Record} :
    revisionsOf k rs = [] ↔ ¬ Overwritten (rs.map (·.commit)) k := by
  simp only [revisionsOf, List.reverse_eq_nil_iff, List.filterMap_eq_nil_iff, Record.revision?,
    Option.map_eq_none_iff, lastValue_eq_none_iff, Overwritten, List.mem_map, not_exists, not_and]
  constructor
  · rintro h c ⟨r, hr, rfl⟩ w hw
    exact h r hr w hw
  · intro h r hr w hw
    exact h r.commit ⟨r, hr, rfl⟩ w hw

end Overwritten

/-- A bound that admits the first part of the history, and nothing of the rest, conflicts with the
keys that the rest writes. -/
theorem Store.validate_eq {s : Store} {k : Key} {b : Snapshot} {seen rest : List Record}
    (hkept : (s.timeline k).NewestOf (revisionsOf k (seen ++ rest)))
    (hseen : ∀ r ∈ seen, b.admits r.entry.write = true)
    (hrest : ∀ r ∈ rest, b.admits r.entry.write = false) :
    s.validate k (.snapshot b) =
      if Overwritten (rest.map (·.commit)) k then
        .error (.conflict (Text.quote k)) else .ok () := by
  have hnewest := hkept.newest?_eq
  rw [revisionsOf_append] at hnewest
  rw [validate, hnewest]
  cases hnew : revisionsOf k rest with
  | nil =>
    rw [if_neg (revisionsOf_eq_nil_iff.1 hnew), List.nil_append]
    cases hold : revisionsOf k seen with
    | nil => rfl
    | cons v older =>
      obtain ⟨r, hr, hv⟩ := mem_revisionsOf.1 (hold ▸ List.mem_cons_self : v ∈ revisionsOf k seen)
      have hadmitted : b.admits v.stamp = true := (Record.stamp_revision hv).1 ▸ hseen r hr
      simp [Stamp.visibility, hadmitted]
  | cons v older =>
    have hwritten : Overwritten (rest.map (·.commit)) k :=
      Decidable.of_not_not fun hnot => by simp [revisionsOf_eq_nil_iff.2 hnot] at hnew
    obtain ⟨r, hr, hv⟩ := mem_revisionsOf.1 (hnew ▸ List.mem_cons_self : v ∈ revisionsOf k rest)
    have hrefused : b.admits v.stamp = false := (Record.stamp_revision hv).1 ▸ hrest r hr
    simp [Stamp.visibility, hrefused, hwritten]

namespace Member

variable {m : Member} {seed : Entry}

theorem validateAll_eq {asOf : Stamp} {lost : Key → Prop} [DecidablePred lost] {keys : List Key}
    (h : ∀ k ∈ keys, m.store.validate k asOf =
      if lost k then .error (.conflict (Text.quote k)) else .ok ()) :
    m.validateAll asOf keys = match keys.find? fun k => lost k with
      | none => .ok ()
      | some k => .error (.conflict (Text.quote k)) := by
  induction keys with
  | nil => rfl
  | cons k rest ih =>
    obtain ⟨hk, hrest⟩ := List.forall_mem_cons.1 h
    rw [validateAll, hk]
    by_cases hlost : lost k
    · simp [hlost]
    · simp [hlost, ih hrest]

theorem validate_of_validateAll {asOf : Stamp} {keys : List Key}
    (h : m.validateAll asOf keys = .ok ()) {k : Key} (hk : k ∈ keys) :
    m.store.validate k asOf = .ok () := by
  induction keys with
  | nil => simp at hk
  | cons j rest ih =>
    obtain ⟨_, hj, hrest⟩ := bind_eq_ok.1 h
    rcases List.mem_cons.1 hk with rfl | hk
    · exact hj
    · exact ih hrest hk

/-- A faithful member validates a key at a cut of its history against the commits that it has
applied since. -/
theorem Faithful.validate_key {seen rest : List Record} (h : m.Faithful seed (seen ++ rest))
    {c b : Snapshot} (hc : c.CutsAt (lastEntry seed seen).position)
    (hb : m.journal.snapshotAt m.issuer (.snapshot c) = .ok b) {k : Key} (hk : m.owns k = true) :
    m.store.validate k (.snapshot b) =
      if Overwritten (rest.map (·.commit)) k then
        .error (.conflict (Text.quote k)) else .ok () := by
  have hmem := lastEntry_mem_log seed (List.prefix_append seen rest)
  have hcut := Journal.cutsAt_snapshotAt h.chronological (h.covers hmem) hc hb
  obtain ⟨hseen, hrest⟩ := h.records.admits_of_cutsAt hcut
  exact Store.validate_eq (h.kept k hk) hseen hrest

/-- Of the keys that it owns it names the first one that was overwritten. -/
theorem Faithful.validate_eq {seen rest : List Record} (h : m.Faithful seed (seen ++ rest))
    {c : Snapshot} (hc : c.CutsAt (lastEntry seed seen).position)
    (hknown : m.issuer.views.knows c.view = true) {keys : OrderedSet Key}
    (hkeys : ∀ k ∈ keys, m.owns k = true) :
    m.validate (.snapshot c) keys = match firstOverwritten (rest.map (·.commit)) keys with
      | none => .ok ()
      | some k => .error (.conflict (Text.quote k)) := by
  have henabled : m.checkEnabled = .ok () := by simp [checkEnabled, h.keeps]
  obtain ⟨b, hb⟩ := Journal.exists_snapshotAt_ok (j := m.journal) hknown
  simp only [validate, henabled, snapshotAt, hb, mapError_ok, ok_bind]
  exact validateAll_eq fun k hk => h.validate_key hc hb (hkeys k hk)

/-- If all of some keys validate, be they its own or not, then none that it owns was overwritten. -/
theorem Faithful.not_overwritten_of_validate {seen rest : List Record}
    (h : m.Faithful seed (seen ++ rest)) {c : Snapshot}
    (hc : c.CutsAt (lastEntry seed seen).position) {keys : OrderedSet Key}
    (hvalid : m.validate (.snapshot c) keys = .ok ()) {k : Key} (hk : k ∈ keys)
    (howned : m.owns k = true) :
    ¬ Overwritten (rest.map (·.commit)) k := by
  simp only [validate, snapshotAt, bind_eq_ok, mapError_eq_ok] at hvalid
  obtain ⟨_, -, b, hb, hall⟩ := hvalid
  have hone := validate_of_validateAll hall hk
  rw [h.validate_key hc hb howned] at hone
  intro hwritten
  simp [hwritten] at hone

end Member

namespace Session

variable {s : Session} {seed : Entry} {rs : List Record}

/-- A running transaction splits the history where it began. Its snapshot cuts there, and is of the
view that was current then. -/
theorem Sound.split_of_begin (h : s.Sound seed rs) {tx : Transaction} {m : Member}
    (hbegin : s.member.begin = .ok (tx, m)) {events : List Event} {r : Running}
    (hr : r ∈ (s.run (.begin :: events)).running) (hid : r.tx.id = tx.id) :
    ∃ seen rest c, (s.run (.begin :: events)).Sound seed (seen ++ rest) ∧
    seen.map (·.commit) = s.applied ∧
      r.tx.stamp = .snapshot c ∧ c.CutsAt (lastEntry seed seen).position ∧
      c.view = s.member.issuer.currentView := by
  obtain ⟨rs', hsound⟩ := h.run (.begin :: events)
  obtain ⟨seen, ⟨rest, hsplit⟩, hanch⟩ := hsound.anchored r hr
  obtain ⟨c, hstamp, hcut⟩ := hanch.cut
  obtain ⟨-, c₀, -, hstamp₀, -, hview₀, -⟩ := h.faithful.begin_view hbegin
  have hview := (h.noted_of_begin hbegin hr hid).view_eq
  rw [hstamp, hstamp₀] at hview
  have hview : c.view = c₀.view := Option.some.inj hview
  refine ⟨seen, rest, c, hsplit ▸ hsound, ?_, hstamp, hcut, hview.trans hview₀⟩
  rw [← hanch.seen_eq]
  exact h.seen_of_begin hbegin hr hid

/-- Let a transaction begin at any time in any run of a member that keeps history, and look at it at
any later time. As long as the view of its snapshot is still known, any keys that the member owns
validate at the snapshot exactly if no commit that was applied since writes one of them; else the
least key that was written is named. And if all that the transaction has noted to have read
validates, then every value of the member's own keys that it was ever answered is what the key holds
now. -/
theorem validate_exact {settings : Settings} (hkeeps : settings.keepsHistory = true)
    (address : Address) (view : View) (owns : Key → Bool) (before : List Event) {s : Session}
    (hs : s = (start settings address view owns).run before) {tx : Transaction} {m : Member}
    (hbegin : s.member.begin = .ok (tx, m)) (after : List Event) {s' : Session}
    (hs' : s' = s.run (.begin :: after)) {r : Running} (hr : r ∈ s'.running)
    (hid : r.tx.id = tx.id) :
    ∃ c since, r.tx.stamp = .snapshot c ∧ s'.applied = s.applied ++ since ∧
      (s'.member.issuer.views.knows c.view = true →
        ∀ keys : OrderedSet Key, (∀ k ∈ keys, owns k = true) →
        (s'.member.validate r.tx.stamp keys = .ok () ↔ ∀ k ∈ keys, ¬ Overwritten since k) ∧
          (s'.member.validate r.tx.stamp keys ≠ .ok () →
            ∃ k ∈ keys, Overwritten since k ∧ (∀ j ∈ keys, j < k → ¬ Overwritten since j) ∧
              s'.member.validate r.tx.stamp keys = .error (.conflict (Text.quote k)))) ∧
      (s'.member.validate r.tx.stamp r.tx.readSet = .ok () →
        ∀ mid k v, (s.step .begin).Answered tx.id after mid k v → owns k = true →
        v = heldAfter s'.applied k) := by
  obtain ⟨rs, hsound⟩ := Sound.run_start hkeeps address view owns before
  rw [← hs] at hsound
  have howns : ∀ events, (s.run events).member.owns = owns := by
    intro events
    rw [(frame_run s events).owns_eq, hs, (frame_run _ before).owns_eq]
    rfl
  subst hs'
  obtain ⟨seen, rest, c, hsound', hseen, hstamp, hcut, -⟩ := hsound.split_of_begin hbegin hr hid
  have happlied : (s.run (.begin :: after)).applied = s.applied ++ rest.map (·.commit) := by
    rw [hsound'.applied_eq, List.map_append, hseen]
  refine ⟨c, rest.map (·.commit), hstamp, happlied, ?_, ?_⟩
  · intro hknown keys hkeys
    have hkeys' : ∀ k ∈ keys, (s.run (.begin :: after)).member.owns k = true := by rwa [howns]
    rw [hstamp, hsound'.faithful.validate_eq hcut hknown hkeys']
    cases hfirst : firstOverwritten (rest.map (·.commit)) keys with
    | none => simpa using firstOverwritten_eq_none_iff.1 hfirst
    | some k =>
      obtain ⟨hk, hwritten, hleast⟩ := firstOverwritten_eq_some hfirst
      refine ⟨?_, fun _ => ⟨k, hk, hwritten, hleast, rfl⟩⟩
      simpa using ⟨k, hk, hwritten⟩
  · intro hvalid mid k v hread howned
    have hk : k ∈ r.tx.readSet :=
      ((hsound.noted_of_begin hbegin hr hid).mem_readSet k).2 (.inr ⟨mid, v, hread⟩)
    rw [hstamp] at hvalid
    have hnot := hsound'.faithful.not_overwritten_of_validate hcut hvalid hk (by rwa [howns])
    rw [happlied, heldAfter_append_of_not_overwritten hnot]
    -- What was answered is what the key held when the transaction began.
    obtain ⟨r', hr', hid', noted, hans⟩ := hread.answered
    obtain ⟨rs', hmid⟩ := hsound.run (.begin :: mid)
    rw [← hsound.seen_of_begin hbegin (r := r') hr' hid']
    exact hmid.value_of_readIn hr' (howns (.begin :: mid) ▸ howned) hans

/-- A commit of the value that the transaction began at overwrites another key than the one it has
read, and is then collected up to: the one still validates, the other does not. -/
theorem validate_exact_same_value :
    ∃ (s s' : Session) (tx : Transaction) (m : Member) (r : Running),
      s = (start {} "a" ⟨1, ["a"]⟩ fun _ => true).run
        [.apply 0 [.single ⟨.replicated, 1, 1⟩ "k" (some "x")]] ∧
      s.member.begin = .ok (tx, m) ∧
      s' = s.run [.begin, .readIn 0 "k", .apply 0 [.single ⟨.replicated, 1, 1⟩ "j" (some "y")],
        .collectBefore 5] ∧
      r ∈ s'.running ∧ r.tx.id = tx.id ∧ s'.member.validate r.tx.stamp r.tx.readSet = .ok () ∧
      s'.member.validate r.tx.stamp (.ofList ["k", "j"]) = .error (.conflict (Text.quote "j")) ∧
      some "x" = heldAfter s'.applied "k" := by
  obtain ⟨s, s', tx, m, r, c, hs, hbegin, hs', hr, hid, hstamp, hknown, happlied, hset, hread⟩ :
      ∃ (s s' : Session) (tx : Transaction) (m : Member) (r : Running) (c : Snapshot),
        s = (start {} "a" ⟨1, ["a"]⟩ fun _ => true).run
          [.apply 0 [.single ⟨.replicated, 1, 1⟩ "k" (some "x")]] ∧
        s.member.begin = .ok (tx, m) ∧
        s' = s.run [.begin, .readIn 0 "k", .apply 0 [.single ⟨.replicated, 1, 1⟩ "j" (some "y")],
          .collectBefore 5] ∧
        r ∈ s'.running ∧ r.tx.id = tx.id ∧ r.tx.stamp = .snapshot c ∧
        s'.member.issuer.views.knows c.view = true ∧
        s'.applied = s.applied ++ [.single ⟨.replicated, 1, 1⟩ "j" (some "y")] ∧
        r.tx.readSet = .ofList ["k"] ∧
        (s.step .begin).Answered tx.id
          [.readIn 0 "k", .apply 0 [.single ⟨.replicated, 1, 1⟩ "j" (some "y")],
            .collectBefore 5] [] "k" (some "x") :=
    ⟨_, _, _, _, _, _, rfl, rfl, rfl, List.mem_cons_self, rfl, rfl, rfl, rfl, rfl,
      ⟨⟨_, rfl⟩, _, List.mem_cons_self, rfl, _, rfl⟩⟩
  obtain ⟨c', since, hstamp', happlied', hexact, hheld⟩ :=
    validate_exact rfl "a" ⟨1, ["a"]⟩ (fun _ => true) _ hs hbegin _ hs' hr hid
  obtain rfl := Stamp.snapshot.inj (hstamp'.symm.trans hstamp)
  obtain rfl := List.append_cancel_left (happlied'.symm.trans happlied)
  have hone := (hexact hknown r.tx.readSet fun _ _ => rfl).1
  obtain ⟨htwo, hconflict⟩ := hexact hknown (.ofList ["k", "j"]) fun _ _ => rfl
  have hvalid : s'.member.validate r.tx.stamp r.tx.readSet = .ok () := hone.2 (by rw [hset]; decide)
  have hinvalid : s'.member.validate r.tx.stamp (.ofList ["k", "j"]) ≠ .ok () :=
    mt htwo.1 (by decide)
  obtain ⟨k, hk, hwritten, -, hfault⟩ := hconflict hinvalid
  have hk : k = "j" := by
    obtain ⟨_, hc, w, hw, rfl⟩ := hwritten
    rw [List.mem_singleton.1 hc] at hw
    rw [List.mem_singleton.1 hw]
    rfl
  exact ⟨s, s', tx, m, r, hs, hbegin, hs', hr, hid, hvalid, hk ▸ hfault,
    hheld hvalid [] "k" (some "x") hread rfl⟩

end Session
end Multiversion
