import Multiversion.Proofs.Validation
/- The places that a transaction has read from.

   A transaction notes the place that its member has in the view that is current when it begins, and
   in the view that is current whenever a read is answered. What it has noted is looked up in the
   view of its snapshot, which stays the one that was current when it began. So the places are those
   of its member there exactly if the member has had the same place in all of these views, and reads
   fail exactly if it was once further back than that view is long (`read_places`). A member that
   moves back while a transaction runs makes it fail (`read_places_moved`). -/
namespace Multiversion

namespace Issuer

variable {i : Issuer} {v : View} {view : Nat} {readFrom : OrderedSet Nat}

theorem firstOutside_eq_none_iff :
    firstOutside v readFrom.toList = none ↔ ∀ n ∈ readFrom, n < v.size := by
  simp only [firstOutside, List.find?_eq_none, View.member?, View.size, Option.isNone_iff_eq_none,
    List.getElem?_eq_none_iff, Nat.not_le]
  exact Iff.rfl

theorem checkIndexes_eq_ok_iff (hv : i.views.get view = .ok v) :
    i.checkIndexes view readFrom = .ok () ↔ ∀ n ∈ readFrom, n < v.size := by
  rw [← firstOutside_eq_none_iff, checkIndexes, hv, ok_bind]
  cases firstOutside v readFrom.toList <;> simp

theorem exists_unknownIndex (hv : i.views.get view = .ok v) (h : ∃ n ∈ readFrom, v.size ≤ n) :
    ∃ n, i.checkIndexes view readFrom = .error (.unknownIndex view n) := by
  rw [checkIndexes, hv, ok_bind]
  cases hfirst : firstOutside v readFrom.toList with
  | some n => exact ⟨n, rfl⟩
  | none =>
    obtain ⟨n, hn, hle⟩ := h
    exact absurd (firstOutside_eq_none_iff.1 hfirst n hn) (Nat.not_lt.2 hle)

end Issuer

namespace Member

variable {m : Member} {tx : Transaction} {c : Snapshot} {readFrom : OrderedSet Nat} {k : Key}

theorem index_eq_ok_iff {n : Nat} :
    m.index = .ok n ↔ m.issuer.views.current.indexOf? m.address = some n := by
  rw [index]
  cases m.issuer.views.current.indexOf? m.address <;> simp

theorem readIn_of_unknownIndex (hkeeps : m.settings.keepsHistory = true)
    (hstamp : tx.stamp = .snapshot c) (hwindow : tx.readFrom.isEmpty = false) {fault : StampFault}
    (h : m.issuer.checkIndexes c.view tx.readFrom = .error fault) (k : Key) :
    m.readIn tx k = (.error (.stamp fault), tx) := by
  have hfloor : m.issuer.floor (.snapshot c) tx.readFrom = .error fault := by
    simp [Issuer.floor, Issuer.windowView?, hwindow, Stamp.view?, Stamp.rank?, h]
  have hread : m.read k tx.stamp tx.readFrom = .error (.stamp fault) := by
    rw [hstamp, read, checkEnabled, if_pos hkeeps, ok_bind, readBound, checkReached, hfloor]
    rfl
  rw [readIn, hread]
  rfl

theorem checkReached_ne_unknownIndex (hwindow : readFrom.isEmpty = false)
    (h : m.issuer.checkIndexes c.view readFrom = .ok ()) (view n : Nat) :
    m.checkReached (.snapshot c) readFrom ≠ .error (.stamp (.unknownIndex view n)) := by
  intro hreached
  rw [checkReached, bind_eq_error] at hreached
  rcases hreached with hfloor | ⟨least, -, hreached⟩
  · simp only [Issuer.floor, Issuer.windowView?, hwindow, Stamp.view?, Stamp.rank?, Option.map_some,
      h, Issuer.rankOf, ok_bind, Bool.false_eq_true, if_false, mapError_eq_error, bind_eq_error,
      Issuer.check_eq_error] at hfloor
    obtain ⟨fault, hfault, heq⟩ := hfloor
    cases heq
    rcases hfault with (⟨-, hview⟩ | ⟨_, -, hpure⟩) | ⟨_, -, hpure⟩
    · cases hview
    · cases hpure
    · cases hpure
  · split at hreached
    · cases hreached
    · simp only [bind_eq_error, mapError_eq_error] at hreached
      rcases hreached with ⟨_, -, heq⟩ | ⟨_, -, hreached⟩
      · cases heq
      · split at hreached <;> cases hreached

theorem read_ne_unknownIndex (hwindow : readFrom.isEmpty = false)
    (h : m.issuer.checkIndexes c.view readFrom = .ok ()) (view n : Nat) :
    m.read k (.snapshot c) readFrom ≠ .error (.stamp (.unknownIndex view n)) := by
  intro hread
  simp only [read_snapshot_eq hwindow, bind_eq_error] at hread
  rcases hread with hread | ⟨_, -, hread | ⟨_, -, hread | ⟨_, -, hread | ⟨b, -, hread⟩⟩⟩⟩
  · rw [checkEnabled] at hread
    split at hread <;> cases hread
  · exact checkReached_ne_unknownIndex hwindow h view n hread
  · simp [Issuer.ceiling, Issuer.windowView?, hwindow, Stamp.view?, Stamp.rank?, h] at hread
  · rw [snapshotAt, mapError_eq_error] at hread
    obtain ⟨_, -, heq⟩ := hread
    cases heq
  · rcases hread with hread | ⟨_, -, hread⟩
    · rw [Store.get_snapshot] at hread
      split at hread
      · cases hread
      · split at hread <;> cases hread
    · cases hread

/-- Reads of a transaction fail for where it has read from exactly if that can not be looked up. -/
theorem readIn_unknownIndex_iff (hkeeps : m.settings.keepsHistory = true)
    (hstamp : tx.stamp = .snapshot c) (hwindow : tx.readFrom.isEmpty = false) {v : View}
    (hv : m.issuer.views.get c.view = .ok v) (k : Key) :
    (∃ n, m.readIn tx k = (.error (.stamp (.unknownIndex c.view n)), tx)) ↔
      ∃ n ∈ tx.readFrom, v.size ≤ n := by
  constructor
  · rintro ⟨n, hread⟩
    by_cases hall : ∀ n ∈ tx.readFrom, n < v.size
    · have hindexes := (Issuer.checkIndexes_eq_ok_iff hv).2 hall
      rcases readIn_snapshot_cases (m := m) hstamp hwindow k with
        ⟨fault, hfault, hread'⟩ | ⟨_, _, _, -, -, hread'⟩
      · rw [hread'] at hread
        obtain rfl := Except.error.inj (congrArg Prod.fst hread)
        rcases hfault with hfault | hfault
        · rw [hstamp] at hfault
          exact absurd hfault (read_ne_unknownIndex hwindow hindexes _ _)
        · obtain ⟨_, hindex, heq⟩ := mapError_eq_error.1 hfault
          cases heq
          rw [index] at hindex
          split at hindex <;> cases hindex
      · rw [hread'] at hread
        cases congrArg Prod.fst hread
    · simpa using hall
  · intro hout
    obtain ⟨n, hn⟩ := Issuer.exists_unknownIndex hv hout
    exact ⟨n, readIn_of_unknownIndex hkeeps hstamp hwindow hn k⟩

end Member

namespace Session

variable {s : Session} {seed : Entry} {rs : List Record}

theorem address_step (s : Session) (event : Event) :
    (s.step event).member.address = s.member.address := by
  obtain ⟨store, journal, heq⟩ := s.member_step event
  rw [heq]

theorem address_run (s : Session) (events : List Event) :
    (s.run events).member.address = s.member.address := by
  induction events generalizing s with
  | nil => rfl
  | cons event rest ih => exact (ih (s.step event)).trans (address_step s event)

/-- The transaction that begins in `s` notes the place of its member in the state `u`: it begins
there, or a read of it is answered there. -/
def NotesPlaceIn (s : Session) (id : Nat) (after : List Event) (u : Session) : Prop :=
  u = s ∨ ∃ mid k v, (s.step .begin).Answered id after mid k v ∧ u = (s.step .begin).run mid

theorem Sound.exists_place (h : s.Sound seed rs) {tx : Transaction} {m : Member}
    (hbegin : s.member.begin = .ok (tx, m)) {after : List Event} {u : Session}
    (hu : s.NotesPlaceIn tx.id after u) : ∃ n, u.member.index = .ok n := by
  rcases hu with rfl | ⟨mid, k, v, hread, rfl⟩
  · obtain ⟨n, -, hindex, -⟩ := Member.begin_readFrom hbegin
    exact ⟨n, hindex⟩
  · obtain ⟨r, hr, -, noted, hans⟩ := hread.answered
    obtain ⟨_, hsound⟩ := h.begin.run mid
    obtain ⟨seen, -, hanch⟩ := hsound.anchored r hr
    obtain ⟨c, hstamp, -⟩ := hanch.cut
    rcases Member.readIn_snapshot_cases (m := ((s.step .begin).run mid).member) hstamp
      hanch.window k with
      ⟨_, -, hread⟩ | ⟨_, n, _, hindex, -⟩
    · rw [hread] at hans
      cases hans
    · exact ⟨n, hindex⟩

/-- What a transaction has noted to have read from are the places of its member where it noted
them. -/
theorem Sound.mem_readFrom_iff (h : s.Sound seed rs) {tx : Transaction} {m : Member}
    (hbegin : s.member.begin = .ok (tx, m)) {after : List Event} {r : Running}
    (hr : r ∈ (s.run (.begin :: after)).running) (hid : r.tx.id = tx.id) (n : Nat) :
    n ∈ r.tx.readFrom ↔ ∃ u, s.NotesPlaceIn tx.id after u ∧ u.member.index = .ok n := by
  obtain ⟨first, -, hfirst, hfrom⟩ := Member.begin_readFrom hbegin
  rw [(h.noted_of_begin hbegin hr hid).mem_readFrom, hfrom, OrderedSet.mem_ofList,
    List.mem_singleton]
  constructor
  · rintro (rfl | ⟨mid, k, v, hread, hindex⟩)
    · exact ⟨s, .inl rfl, hfirst⟩
    · exact ⟨_, .inr ⟨mid, k, v, hread, rfl⟩, hindex⟩
  · rintro ⟨u, rfl | ⟨mid, k, v, hread, rfl⟩, hindex⟩
    · exact .inl (Except.ok.inj (hindex.symm.trans hfirst))
    · exact .inr ⟨mid, k, v, hread, hindex⟩

/-- Let a transaction begin at any time in any run of a member that keeps history, and look at it at
any later time. It has noted the places that the member had in the views that were current when it
began and whenever a read of it was answered, and its snapshot is still of the first of these views.
As long as that view is known, the places are all the member's place in it exactly if the member had
that place in all of them. They can be looked up there, and no read fails for want of it, exactly if
none of them is beyond the end of that view. -/
theorem read_places {settings : Settings} (hkeeps : settings.keepsHistory = true)
    (address : Address) (view : View) (owns : Key → Bool) (before : List Event) {s : Session}
    (hs : s = (start settings address view owns).run before) {tx : Transaction} {m : Member}
    (hbegin : s.member.begin = .ok (tx, m)) (after : List Event) {s' : Session}
    (hs' : s' = s.run (.begin :: after)) {r : Running} (hr : r ∈ s'.running)
    (hid : r.tx.id = tx.id) :
    ∃ c, r.tx.stamp = .snapshot c ∧ c.view = s.member.issuer.currentView ∧
      (∀ n, n ∈ r.tx.readFrom ↔
        ∃ u, s.NotesPlaceIn tx.id after u ∧
        u.member.issuer.views.current.indexOf? address = some n) ∧
      ∀ v, s'.member.issuer.views.get c.view = .ok v →
        ((∀ n ∈ r.tx.readFrom, v.indexOf? address = some n) ↔
          ∀ u, s.NotesPlaceIn tx.id after u →
            u.member.issuer.views.current.indexOf? address = v.indexOf? address) ∧
        (s'.member.issuer.checkIndexes c.view r.tx.readFrom = .ok () ↔
          ∀ n ∈ r.tx.readFrom, n < v.size) ∧
        ∀ k, (∃ n, s'.member.readIn r.tx k = (.error (.stamp (.unknownIndex c.view n)), r.tx)) ↔
          ∃ n ∈ r.tx.readFrom, v.size ≤ n := by
  obtain ⟨rs, hsound⟩ := Sound.run_start hkeeps address view owns before
  rw [← hs] at hsound
  subst hs'
  have haddress : ∀ events, (s.run events).member.address = address := by
    intro events
    rw [address_run, hs, address_run]
    rfl
  have hplace : ∀ u, s.NotesPlaceIn tx.id after u → ∀ n,
      u.member.index = .ok n ↔ u.member.issuer.views.current.indexOf? address = some n := by
    rintro u (rfl | ⟨mid, -, -, -, rfl⟩) n
    · rw [Member.index_eq_ok_iff, show u.member.address = address from haddress []]
    · rw [Member.index_eq_ok_iff, show ((s.step .begin).run mid).member.address = address from
        haddress (.begin :: mid)]
  have hfrom : ∀ n, n ∈ r.tx.readFrom ↔
      ∃ u, s.NotesPlaceIn tx.id after u ∧
      u.member.issuer.views.current.indexOf? address = some n := by
    intro n
    rw [hsound.mem_readFrom_iff hbegin hr hid]
    constructor
    · rintro ⟨u, hu, hindex⟩
      exact ⟨u, hu, (hplace u hu n).1 hindex⟩
    · rintro ⟨u, hu, hindex⟩
      exact ⟨u, hu, (hplace u hu n).2 hindex⟩
  obtain ⟨seen, rest, c, hsound', -, hstamp, -, hview⟩ := hsound.split_of_begin hbegin hr hid
  obtain ⟨_, -, hanch⟩ := hsound'.anchored r hr
  refine ⟨c, hstamp, hview, hfrom, ?_⟩
  intro v hv
  refine ⟨?_, Issuer.checkIndexes_eq_ok_iff hv,
    Member.readIn_unknownIndex_iff hsound'.faithful.keeps hstamp
    hanch.window hv⟩
  constructor
  · intro hall u hu
    obtain ⟨n, hn⟩ := hsound.exists_place hbegin hu
    have hindex := (hplace u hu n).1 hn
    rw [hindex, hall n ((hfrom n).2 ⟨u, hu, hindex⟩)]
  · intro hsame n hn
    obtain ⟨u, hu, hindex⟩ := (hfrom n).1 hn
    rw [← hsame u hu, hindex]

/-- Two members that change places while a transaction runs on one of them: what it has read from is
then looked up as if it had read from the other. -/
theorem read_places_swapped :
    ∃ (s s' : Session) (tx : Transaction) (m : Member) (r : Running) (c : Snapshot),
      s = (start {} "a" ⟨1, ["a", "b"]⟩ fun _ => true).run
        [.apply 0 [.single ⟨.replicated, 1, 1⟩ "k" (some "x")]] ∧
      s.member.begin = .ok (tx, m) ∧ s' = s.run [.begin, .learn ⟨2, ["b", "a"]⟩, .readIn 0 "k"] ∧
      r ∈ s'.running ∧ r.tx.id = tx.id ∧ r.tx.stamp = .snapshot c ∧
      s'.member.issuer.views.get c.view = .ok ⟨1, ["a", "b"]⟩ ∧ 1 ∈ r.tx.readFrom ∧
      (∃ u, s.NotesPlaceIn tx.id [.learn ⟨2, ["b", "a"]⟩, .readIn 0 "k"] u ∧
        u.member.issuer.views.current.indexOf? "a" = some 1) ∧
      s'.member.issuer.checkIndexes c.view r.tx.readFrom = .ok () := by
  obtain ⟨s, s', tx, m, r, c, hs, hbegin, hs', hr, hid, hstamp, hview, hfrom⟩ :
      ∃ (s s' : Session) (tx : Transaction) (m : Member) (r : Running) (c : Snapshot),
        s = (start {} "a" ⟨1, ["a", "b"]⟩ fun _ => true).run
          [.apply 0 [.single ⟨.replicated, 1, 1⟩ "k" (some "x")]] ∧
        s.member.begin = .ok (tx, m) ∧ s' = s.run [.begin, .learn ⟨2, ["b", "a"]⟩, .readIn 0 "k"] ∧
        r ∈ s'.running ∧ r.tx.id = tx.id ∧ r.tx.stamp = .snapshot c ∧
        s'.member.issuer.views.get c.view = .ok ⟨1, ["a", "b"]⟩ ∧ r.tx.readFrom = .ofList [0, 1] :=
    ⟨_, _, _, _, _, _, rfl, rfl, rfl, List.mem_cons_self, rfl, rfl, rfl, rfl⟩
  obtain ⟨c', hstamp', -, hplaces, hlookup⟩ :=
    read_places rfl "a" ⟨1, ["a", "b"]⟩ (fun _ => true) _ hs hbegin _ hs' hr hid
  obtain rfl := Stamp.snapshot.inj (hstamp'.symm.trans hstamp)
  have hone : 1 ∈ r.tx.readFrom := by
    rw [hfrom]
    decide
  have hindexes := (hlookup _ hview).2.1.2 (by rw [hfrom]; decide)
  exact ⟨s, s', tx, m, r, c', hs, hbegin, hs', hr, hid, hstamp, hview, hone,
    (hplaces 1).1 hone, hindexes⟩

/-- A member that a new one is put in front of while a transaction runs on it: after its next read
the transaction can not look up where it has read from, and can read nothing any more. -/
theorem read_places_moved :
    ∃ (s s' : Session) (tx : Transaction) (m : Member) (r : Running) (c : Snapshot),
      s = (start {} "a" ⟨1, ["a"]⟩ fun _ => true).run
        [.apply 0 [.single ⟨.replicated, 1, 1⟩ "k" (some "x")]] ∧
      s.member.begin = .ok (tx, m) ∧ s' = s.run [.begin, .learn ⟨2, ["b", "a"]⟩, .readIn 0 "k"] ∧
      r ∈ s'.running ∧ r.tx.id = tx.id ∧ r.tx.stamp = .snapshot c ∧
      s'.member.issuer.views.get c.view = .ok ⟨1, ["a"]⟩ ∧ 1 ∈ r.tx.readFrom ∧
      (⟨1, ["a"]⟩ : View).indexOf? "a" = some 0 ∧
      s'.member.issuer.checkIndexes c.view r.tx.readFrom = .error (.unknownIndex 1 1) ∧
      s'.member.readIn r.tx "k" = (.error (.stamp (.unknownIndex 1 1)), r.tx) :=
  ⟨_, _, _, _, _, _, rfl, rfl, rfl, List.mem_cons_self, rfl, rfl, rfl, by decide, rfl, rfl, rfl⟩

end Session
end Multiversion
