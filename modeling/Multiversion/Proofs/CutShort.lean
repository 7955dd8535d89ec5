import Multiversion.Proofs.PlainMap
import Multiversion.Proofs.Splitting
/- Batches that fail midway, on a member without history.

   Only a member that keeps history checks a batch before it stores anything. Any other decides on
   the writes of a batch one after the other and stores each at once, in place of what it has of the
   key, so that a write which is refused (`Member.Refuses`) cuts the batch short: what comes before
   it stays, as if the batch had ended there (`Member.puts_cut_short`), and what comes after it is
   never looked at. The induction is on the writes of one commit, and then on the commits of the
   batch. -/
namespace Multiversion

namespace Store

/-- Some writes have been stored one after the other, each in place of what there was of its key. -/
structure Replaced (s s' : Store) (ws : List Write) : Prop where
  untouched : ∀ k, (∀ w ∈ ws, w.change.key ≠ k) → s'.timeline k = s.timeline k
  written : ∀ k v, lastValue k ws = some v → ∃ r : Revision, r.value = v ∧
    s'.timeline k = (s.timeline k).replace r

variable {s s' s'' : Store} {ws ws' : List Write}

theorem Replaced.refl (s : Store) : s.Replaced s [] := ⟨fun _ _ => rfl, fun _ _ h => nomatch h⟩

theorem Replaced.trans (h : s.Replaced s' ws) (h' : s'.Replaced s'' ws') :
    s.Replaced s'' (ws ++ ws') where
  untouched k hk := by
    obtain ⟨hws, hws'⟩ := List.forall_mem_append.1 hk
    rw [h'.untouched k hws', h.untouched k hws]
  written k v hv := by
    rw [lastValue_append] at hv
    cases hlater : lastValue k ws' with
    | none =>
      rw [hlater, Option.none_or] at hv
      rw [h'.untouched k (lastValue_eq_none_iff.1 hlater)]
      exact h.written k v hv
    | some v' =>
      rw [hlater, Option.some_or] at hv
      obtain ⟨r, hr, heq⟩ := h'.written k v' hlater
      refine ⟨r, hr.trans (Option.some.inj hv), ?_⟩
      rw [heq]
      cases hearlier : lastValue k ws with
      | none => rw [h.untouched k (lastValue_eq_none_iff.1 hearlier)]
      | some v'' =>
        obtain ⟨_, -, heq'⟩ := h.written k v'' hearlier
        rw [heq']
        rfl

theorem Replaced.putOnly (s : Store) (w : Write) {r : Revision} (hr : r.value = w.value) :
    s.Replaced (s.putOnly w.change.key r) [w] where
  untouched k hk := by
    have hne : k ≠ w.change.key := (hk w List.mem_cons_self).symm
    rw [Store.putOnly, timeline_setTimeline, if_neg hne]
  written k v hv := by
    rw [lastValue, lastValue, Option.none_or] at hv
    split at hv
    · next hk =>
      refine ⟨r, hr.trans (Option.some.inj hv), ?_⟩
      rw [Store.putOnly, timeline_setTimeline, if_pos hk, hk]
    · cases hv

end Store

theorem Stamp.exists_rank? {v : Stamp} (h : v ≠ .absent) : ∃ rank, v.rank? = some rank := by
  cases v with
  | absent => exact absurd rfl h
  | _ => exact ⟨_, rfl⟩

theorem Issuer.increment_error {i : Issuer} {v : Stamp} {rank : Rank} {f : StampFault}
    (hrank : v.rank? = some rank) (h : i.increment v = .error f) :
    i.views.knows rank.view = false ∧ f = .unknownView rank.view ∨
      rank.value = Int64.maxValue ∧ f = .overflow rank.value := by
  cases hknown : i.views.knows rank.view with
  | false =>
    simp only [increment, rankOf, hrank, ViewTable.check, hknown, Bool.false_eq_true, if_false,
      error_bind, Except.error.injEq] at h
    exact .inl ⟨rfl, h.symm⟩
  | true =>
    simp only [increment, rankOf, hrank, ViewTable.check, hknown, if_true, ok_bind, pure_eq_ok,
      successor] at h
    split at h
    · next hvalue =>
      cases h
      exact .inr ⟨hvalue, rfl⟩
    · rw [ok_bind] at h
      split at h <;> cases h

theorem Issuer.increment_kind {i : Issuer} {v v' : Stamp} (h : i.increment v = .ok v') :
    v'.write? ≠ none ∨ v'.commit? ≠ none := by
  simp only [increment, bind_eq_ok] at h
  obtain ⟨_, -, _, -, h⟩ := h
  split at h
  · cases h
    exact .inl (Option.some_ne_none _)
  · cases h
    exact .inr (Option.some_ne_none _)

theorem Stamp.forRevision_error {v : Stamp} {sub : Int32} {f : StampFault}
    (h : v.forRevision sub = .error f) :
    v.write? = none ∧ v.commit? = none ∧ f = .unexpected .commit v.kind := by
  cases v with
  | write w => cases h
  | commit c => cases h
  | absent =>
    cases h
    exact ⟨rfl, rfl, rfl⟩
  | snapshot s =>
    cases h
    exact ⟨rfl, rfl, rfl⟩

namespace Member

variable {m m' : Member} {now : Nat} {c : Commit} {w : Write} {fault : TxFault} {s s' : Store}

/-- Whether a write is applied on this member. -/
def applies (m : Member) (w : Write) : Bool :=
  (Disposition.of m.settings.shadowCopies m.owns w.change).isApplied

/-- Why a member without history refuses a write. A prepared stamp is looked at only if the write is
applied. -/
inductive Refuses (m : Member) (c : Commit) (w : Write) : StampFault → Prop
  | unprepared (hrule : m.rule = .simple) (hnone : c.prepared.get? w.change.key = none) :
      Refuses m c w (.unprepared (Text.quote w.change.key))
  | unwritable {v : Stamp} (hrule : m.rule = .simple)
    (hprepared : c.prepared.get? w.change.key = some v)
      (happlies : m.applies w = true) (hwrite : v.write? = none) (hcommit : v.commit? = none) :
      Refuses m c w (.unexpected .commit v.kind)
  | unknownView {v : Stamp} {rank : Rank} (hrule : m.rule = .totalOrder)
    (hprior : w.change.prior = some v)
      (hrank : v.rank? = some rank) (hunknown : m.issuer.views.knows rank.view = false) :
      Refuses m c w (.unknownView rank.view)
  | overflow {v : Stamp} {rank : Rank} (hrule : m.rule = .totalOrder)
    (hprior : w.change.prior = some v)
      (hrank : v.rank? = some rank) (hvalue : rank.value = Int64.maxValue) :
      Refuses m c w (.overflow rank.value)

theorem refuses_of_stampFor (hrule : m.rule ≠ .multiversion) {f : StampFault}
    (h : m.rule.stampFor m.issuer ⟨c.stamp, c.prepared⟩ w.change = .error f) : m.Refuses c w f := by
  cases hr : m.rule with
  | unversioned =>
    rw [hr] at h
    cases h
  | simple =>
    rw [hr, Scheme.stampFor] at h
    split at h
    · cases h
    · next hnone =>
      cases h
      exact .unprepared hr hnone
  | totalOrder =>
    rw [hr, Scheme.stampFor] at h
    split at h
    · cases h
    · cases h
    · next v hpresent hprior =>
      obtain ⟨rank, hrank⟩ := Stamp.exists_rank? hpresent
      simp only [bind_eq_error, pure_eq_ok, reduceCtorEq, and_false, exists_false, or_false] at h
      rcases Issuer.increment_error hrank h with ⟨hunknown, rfl⟩ | ⟨hvalue, rfl⟩
      · exact .unknownView hr hprior hrank hunknown
      · exact .overflow hr hprior hrank hvalue
  | multiversion => exact absurd hr hrule

theorem refuses_of_unwritable (hrule : m.rule ≠ .multiversion) {v : Stamp}
    (h : m.rule.stampFor m.issuer ⟨c.stamp, c.prepared⟩ w.change = .ok (some v))
    (happlies : m.applies w = true) (hwrite : v.write? = none) (hcommit : v.commit? = none) :
    m.Refuses c w (.unexpected .commit v.kind) := by
  cases hr : m.rule with
  | unversioned =>
    rw [hr] at h
    cases h
  | simple =>
    rw [hr, Scheme.stampFor] at h
    split at h
    · next hprepared =>
      cases h
      exact .unwritable hr hprepared happlies hwrite hcommit
    · cases h
  | totalOrder =>
    rw [hr, Scheme.stampFor] at h
    split at h
    · cases h
      cases hwrite
    · cases h
      cases hwrite
    · obtain ⟨v', hv', h⟩ := bind_eq_ok.1 h
      cases h
      rcases Issuer.increment_kind hv' with hne | hne
      · exact absurd hwrite hne
      · exact absurd hcommit hne
  | multiversion => exact absurd hr hrule

theorem putOf_outcome (hkeeps : m.settings.keepsHistory = false) (hrule : m.rule ≠ .multiversion)
    (now : Nat) (c : Commit) (sub : Int32) (w : Write) :
    (∃ f, m.putOf now c sub w = .error (.stamp f) ∧ m.Refuses c w f) ∨
      (m.applies w = false ∧ m.putOf now c sub w = .ok none) ∨
        (m.applies w = true ∧
          ∃ r : Revision, r.value = w.value ∧
          m.putOf now c sub w = .ok (some ⟨w.change.key, r, false⟩)) := by
  rw [putOf, Scheme.decide]
  cases hstamp : m.rule.stampFor m.issuer ⟨c.stamp, c.prepared⟩ w.change with
  | error f => exact .inl ⟨f, rfl, refuses_of_stampFor hrule hstamp⟩
  | ok stamp =>
    simp only [ok_bind, pure_eq_ok, mapError_ok]
    cases happlies : m.applies w with
    | false =>
      rw [applies] at happlies
      exact .inr (.inl ⟨rfl, by simp [happlies]⟩)
    | true =>
      have hdisposition := happlies
      rw [applies] at hdisposition
      rw [hdisposition, if_neg (by simp)]
      cases stamp with
      | none => exact .inr (.inr ⟨rfl, ⟨_, w.value, _⟩, rfl, by rw [hkeeps]; rfl⟩)
      | some v =>
        cases hv : v.forRevision sub with
        | error f =>
          obtain ⟨hwrite, hcommit, rfl⟩ := Stamp.forRevision_error hv
          exact .inl ⟨_, by simp only [hv]; rfl,
            refuses_of_unwritable hrule hstamp happlies hwrite hcommit⟩
        | ok stored =>
          exact .inr (.inr ⟨rfl, ⟨stored, w.value, _⟩, rfl, by simp only [hv, hkeeps]; rfl⟩)

theorem writes_cut_short (hkeeps : m.settings.keepsHistory = false) (hrule : m.rule ≠ .multiversion)
    {ws : List Write} (h : s.applyAll (ws.map (m.putOf now c 0)) = (.error fault, s')) :
    ∃ before w after f, ws = before ++ w :: after ∧ fault = .stamp f ∧ m.Refuses c w f ∧
      s.applyAll (before.map (m.putOf now c 0)) = (.ok (), s') := by
  induction ws generalizing s with
  | nil => cases h
  | cons w rest ih =>
    rw [List.map_cons] at h
    rcases putOf_outcome hkeeps hrule now c 0 w with ⟨f, hput, hrefuses⟩ | ⟨-, hput⟩ |
        ⟨-, r, -, hput⟩
    · rw [hput] at h
      cases h
      exact ⟨[], w, rest, f, rfl, rfl, hrefuses, rfl⟩
    all_goals
      rw [hput] at h
      obtain ⟨before, w', after, f, rfl, hfault, hrefuses, hstored⟩ := ih h
      refine ⟨w :: before, w', after, f, rfl, hfault, hrefuses, ?_⟩
      rw [List.map_cons, hput]
      exact hstored

theorem putsOf_cons (c : Commit) (rest : List Commit) : m.putsOf now ((c :: rest).map (·, 0)) =
    c.writes.map (m.putOf now c 0) ++ m.putsOf now (rest.map (·, 0)) :=
  List.flatMap_cons

/-- A batch that fails to be stored is cut short at a write: all commits before it, and the writes
before it in its own commit, are stored. -/
theorem puts_cut_short (hkeeps : m.settings.keepsHistory = false) (hrule : m.rule ≠ .multiversion)
    {batch : List Commit} (h : s.applyAll (m.putsOf now (batch.map (·, 0))) = (.error fault, s')) :
    ∃ done c before w after rest f, batch = done ++
      { c with writes := before ++ w :: after } :: rest ∧
      fault = .stamp f ∧ m.Refuses c w f ∧
      s.applyAll (m.putsOf now ((done ++ [{ c with writes := before }]).map (·, 0))) =
        (.ok (), s') := by
  induction batch generalizing s with
  | nil => cases h
  | cons c rest ih =>
    rw [putsOf_cons] at h
    rcases inTurn_append_error.1 h with h | ⟨mid, hmid, h⟩
    · obtain ⟨before, w, after, f, hwrites, hfault, hrefuses, hstored⟩ :=
        writes_cut_short hkeeps hrule h
      refine ⟨[], c, before, w, after, rest, f, by rw [← hwrites]; rfl, hfault, hrefuses, ?_⟩
      rw [List.nil_append, putsOf_cons, List.map_nil]
      exact inTurn_append.2 ⟨s', hstored, rfl⟩
    · obtain ⟨done, c', before, w, after, rest, f, rfl, hfault, hrefuses, hstored⟩ := ih h
      refine ⟨c :: done, c', before, w, after, rest, f, rfl, hfault, hrefuses, ?_⟩
      rw [List.cons_append, putsOf_cons]
      exact inTurn_append.2 ⟨mid, hmid, hstored⟩

theorem replaced_writes (hkeeps : m.settings.keepsHistory = false) (hrule : m.rule ≠ .multiversion)
    {ws : List Write} (h : s.applyAll (ws.map (m.putOf now c 0)) = (.ok (), s')) :
    s.Replaced s' (ws.filter m.applies) := by
  induction ws generalizing s with
  | nil =>
    cases h
    exact .refl _
  | cons w rest ih =>
    rw [List.map_cons] at h
    rcases putOf_outcome hkeeps hrule now c 0 w with ⟨f, hput, -⟩ | ⟨happlies, hput⟩ |
        ⟨happlies, r, hr, hput⟩
    · rw [hput] at h
      cases h
    · rw [hput] at h
      rw [List.filter_cons_of_neg (by simp [happlies])]
      exact ih h
    · rw [hput] at h
      rw [List.filter_cons_of_pos happlies]
      exact (Store.Replaced.putOnly s w hr).trans (ih h)

theorem replaced_puts (hkeeps : m.settings.keepsHistory = false) (hrule : m.rule ≠ .multiversion)
    {batch : List Commit} (h : s.applyAll (m.putsOf now (batch.map (·, 0))) = (.ok (), s')) :
    s.Replaced s' ((batch.flatMap (·.writes)).filter m.applies) := by
  induction batch generalizing s with
  | nil =>
    cases h
    exact .refl _
  | cons c rest ih =>
    rw [putsOf_cons] at h
    obtain ⟨mid, hmid, hrest⟩ := inTurn_append.1 h
    rw [List.flatMap_cons, List.filter_append]
    exact (replaced_writes hkeeps hrule hmid).trans (ih hrest)

/-- Take a member without history that decides by the rule of its own scheme, in any state, and any
batch that it fails to apply. One write of the batch is refused: a stamp is not prepared for it or
is not one of a write, or its prior stamp is of an unknown view or of the greatest value. What comes
before that write in the order of the batch is applied, as if the batch ended there: each key has as
its only revision the last of these writes of it that is applied here. Every other key is exactly as
before, and so is the member but for its store. -/
theorem batch_cut_short (hscheme : m.settings.scheme ≠ .multiversion)
    (hrule : m.rule = m.settings.scheme) {batch : List Commit}
    (h : m.applyBatch now batch = (.error fault, m')) :
    ∃ done c before w after rest f, batch = done ++
      { c with writes := before ++ w :: after } :: rest ∧
      fault = .stamp f ∧ m.Refuses c w f ∧
      m.applyBatch now (done ++ [{ c with writes := before }]) = (.ok (), m') ∧
      m' = { m with store := m'.store } ∧
      m.store.Replaced m'.store (((done ++ [{ c with writes := before }]).flatMap (·.writes)).filter
        m.applies) := by
  have hkeeps : m.settings.keepsHistory = false := decide_eq_false hscheme
  have hown : m.rule ≠ .multiversion := hrule ▸ hscheme
  rw [applyBatch_of_not_keeps hkeeps] at h
  obtain ⟨hfault, rfl⟩ := Prod.mk.inj h
  obtain ⟨done, c, before, w, after, rest, f, hbatch, hf, hrefuses, hstored⟩ :=
    puts_cut_short hkeeps hown (Prod.ext hfault rfl)
  have happlied : m.applyBatch now (done ++ [{ c with writes := before }]) = (.ok (), _) :=
    (applyBatch_eq_ok_of_not_keeps hkeeps).2 ⟨_, hstored, rfl⟩
  exact ⟨done, c, before, w, after, rest, f, hbatch, hf, hrefuses, happlied, rfl,
    replaced_puts hkeeps hown hstored⟩

/-- Under total order the second of two commits is cut short after its first write, at a key whose
prior stamp has the greatest value. A key that is owned elsewhere is left out. -/
theorem batch_cut_short_overflow :
    ∃ (m m' : Member) (batch done : List Commit) (c : Commit) (before : List Write) (w : Write)
      (f : StampFault),
      m = create { scheme := .totalOrder } "n" ⟨1, ["n"]⟩ (· ≠ "r") ∧
      batch = [⟨.absent, [.ofValue "a" (some "x") none, .ofValue "r" (some "u") none], .empty⟩,
        ⟨.absent, [.ofValue "a" (some "y") none,
          .ofValue "b" (some "z") (some (.write ⟨1, Int64.maxValue, 0⟩)),
          .ofValue "d" (some "v") none], .empty⟩] ∧
      m.applyBatch 0 batch = (.error (.stamp f), m') ∧ f = .overflow Int64.maxValue ∧
      m.Refuses c w f ∧
      m.applyBatch 0 (done ++ [{ c with writes := before }]) = (.ok (), m') ∧
      m.store.Replaced m'.store (((done ++ [{ c with writes := before }]).flatMap
        Commit.writes).filter m.applies) ∧
      (m'.store.timeline "a").revisions.map (·.value) = [some "y"] ∧
      ∀ k ∈ ["r", "b", "d"], (m'.store.timeline k).revisions = [] := by
  obtain ⟨m, m', batch, hm, hbatch, hfails, ha, hothers⟩ : ∃ (m m' : Member) (batch : List Commit),
      m = create { scheme := .totalOrder } "n" ⟨1, ["n"]⟩ (· ≠ "r") ∧
      batch = [⟨.absent, [.ofValue "a" (some "x") none, .ofValue "r" (some "u") none], .empty⟩,
        ⟨.absent, [.ofValue "a" (some "y") none,
          .ofValue "b" (some "z") (some (.write ⟨1, Int64.maxValue, 0⟩)),
          .ofValue "d" (some "v") none], .empty⟩] ∧
      m.applyBatch 0 batch = (.error (.stamp (.overflow Int64.maxValue)), m') ∧
      (m'.store.timeline "a").revisions.map (·.value) = [some "y"] ∧
      ∀ k ∈ ["r", "b", "d"], (m'.store.timeline k).revisions = [] :=
    ⟨_, _, _, rfl, rfl, rfl, rfl, by simp; exact ⟨rfl, rfl, rfl⟩⟩
  obtain ⟨done, c, before, w, _, _, f, -, hf, hrefuses, happlied, -, hreplaced⟩ :=
    batch_cut_short (by rw [hm]; decide) (by rw [hm]; rfl) hfails
  obtain rfl := TxFault.stamp.inj hf
  exact ⟨m, m', batch, done, c, before, w, _, hm, hbatch, hfails, rfl, hrefuses, happlied,
    hreplaced, ha, hothers⟩

/-- The second write of a commit is refused, because no stamp was prepared for it; the first stays
all the same. -/
theorem batch_leaves_trace :
    ∃ (m m' : Member) (batch : List Commit),
      m = create { scheme := .simple } "n" ⟨1, ["n"]⟩ (fun _ => true) ∧
      batch = [⟨.commit ⟨.replicated, 1, 1⟩,
        [.ofValue "a" (some "x") none, .ofValue "b" (some "y") none],
        .ofList [("a", .write ⟨1, 1, 0⟩)]⟩] ∧
      m.applyBatch 0 batch = (.error (.stamp (.unprepared (Text.quote "b"))), m') ∧
      (m.store.timeline "a").revisions = [] ∧
      (m'.store.timeline "a").revisions = [⟨⟨1, 1, 0⟩, some "x", none⟩] :=
  ⟨_, _, _, rfl, rfl, rfl, rfl, rfl⟩

end Member
end Multiversion
