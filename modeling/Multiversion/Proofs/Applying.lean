import Multiversion.Proofs.Timelines
import Multiversion.Member.Commit
/- Applying a batch step by step.

   The steps that store writes touch nothing but the store, so taking them is carrying out their
   puts in turn (`Member.takeAll_store`), and a batch is applied if its writes can be stored and its
   entries appended (`Member.applyBatch_eq_ok`). A step that fails changes nothing
   (`Member.take_error`). -/
namespace Multiversion

namespace Timeline

theorem insert_error {t : Timeline} {r : Revision} {stale : StaleWrite}
    (h : (t.insert r).1 = .error stale) :
    t.isEmpty = false ∧ (t.insert r).2 = t := by
  unfold insert at h ⊢
  split at h
  · cases h
  · next newest older hl =>
    split at h
    · cases h
    · split at h
      · cases h
      · next hlt heq => exact ⟨by simp [isEmpty, hl], by rw [dif_neg hlt, dif_neg heq]⟩

end Timeline

namespace Store

variable {s s' : Store} {puts puts' : List (Except TxFault (Option Put))} {fault : TxFault}
  {p : Put}

/-- Carry out the puts of writes in turn, up to the first one that fails. -/
def applyAll (s : Store) (puts : List (Except TxFault (Option Put))) :
    Except TxFault Unit × Store :=
  inTurn carryOut s puts

theorem applyAll_cons_some (s : Store) (p : Put) (puts : List (Except TxFault (Option Put))) :
    s.applyAll (.ok (some p) :: puts) =
      match s.apply p with
      | (.ok (), s') => s'.applyAll puts
      | (.error stale, s') => (.error (.stale stale), s') := by
  rw [applyAll, inTurn, carryOut]
  rcases s.apply p with ⟨_ | ⟨⟩, s'⟩ <;> rfl

theorem apply_eq_ok {k : Key} {r : Revision} : s.apply ⟨k, r, true⟩ = (.ok (), s') ↔
    ∃ outcome t, (s.timeline k).insert r = (.ok outcome, t) ∧ s' = s.setTimeline k t := by
  rw [apply, if_pos rfl, put]
  rcases (s.timeline k).insert r with ⟨stale | outcome, t⟩
  · simp [Except.map]
  · constructor
    · intro h
      exact ⟨outcome, t, rfl, (Prod.mk.inj h).2.symm⟩
    · rintro ⟨_, _, hinsert, rfl⟩
      cases hinsert
      rfl

theorem setTimeline_self {k : Key} (h : (s.timeline k).isEmpty = false) :
    s.setTimeline k (s.timeline k) = s := by
  obtain ⟨timelines⟩ := s
  refine congrArg Store.mk (OrderedMap.ext fun j => ?_)
  rw [OrderedMap.get?_insert]
  split
  · next hj =>
    subst hj
    cases hget : timelines.get? j with
    | none => simp [timeline, hget, Timeline.isEmpty, Timeline.empty] at h
    | some t => simp [timeline, hget]
  · rfl

theorem apply_error {stale : StaleWrite} (h : (s.apply p).1 = .error stale) :
    (s.apply p).2 = s := by
  rw [apply] at h ⊢
  split at h
  · next hkeeps =>
    have hinsert : ((s.timeline p.key).insert p.revision).1 = .error stale := by
      cases houtcome : ((s.timeline p.key).insert p.revision).1 with
      | ok outcome => simp [put, houtcome, Except.map] at h
      | error stale' => simpa [put, houtcome, Except.map] using h
    obtain ⟨hempty, hsame⟩ := Timeline.insert_error hinsert
    rw [if_pos hkeeps]
    show s.setTimeline p.key ((s.timeline p.key).insert p.revision).2 = s
    rw [hsame, setTimeline_self hempty]
  · cases h

theorem carryOut_error {put : Except TxFault (Option Put)} (h : (s.carryOut put).1 = .error fault) :
    (s.carryOut put).2 = s := by
  match put with
  | .error e => rfl
  | .ok none => cases h
  | .ok (some p) =>
    cases houtcome : (s.apply p).1 with
    | ok _ => simp [carryOut, houtcome] at h
    | error stale => exact apply_error houtcome

end Store

namespace Journal

variable {i : Issuer} {j j' : Journal} {batch : List Entry} {fault : JournalFault}

theorem append_eq_ok_iff_check (hne : batch ≠ []) : j.append i batch = (.ok (), j') ↔
    ∃ latest, j.check i batch = .ok latest ∧
    j' = { j with entries := j.entries ++ batch, latest } := by
  rw [append, if_neg (by simpa using hne)]
  cases j.check i batch with
  | error fault => simp
  | ok latest => simp [eq_comm]

theorem append_error (h : (j.append i batch).1 = .error fault) : (j.append i batch).2 = j := by
  rw [append] at h ⊢
  split at h
  · cases h
  · next hbatch =>
    rw [if_neg hbatch]
    cases hcheck : j.check i batch with
    | ok latest => simp [hcheck] at h
    | error fault' => rfl

end Journal

namespace Member

variable {m m' : Member} {now : Nat} {batch : List Commit} {es : List Entry} {fault : TxFault}

/-- A step that fails changes nothing. -/
theorem take_error {step : Step} (h : (m.take step).1 = .error fault) : (m.take step).2 = m := by
  cases step with
  | store put => exact congrArg (fun store => { m with store }) (Store.carryOut_error h)
  | log entries =>
    obtain ⟨e, hrefused, -⟩ := mapError_eq_error.1 h
    exact congrArg (fun journal => { m with journal }) (Journal.append_error hrefused)

/-- The steps that store writes carry out their puts. -/
theorem takeAll_store (m : Member) (puts : List (Except TxFault (Option Put))) :
    inTurn take m (puts.map .store) =
      ((m.store.applyAll puts).1, { m with store := (m.store.applyAll puts).2 }) := by
  induction puts generalizing m with
  | nil => rfl
  | cons put rest ih =>
    rw [List.map_cons, inTurn, take, Store.applyAll, inTurn]
    rcases m.store.carryOut put with ⟨_ | ⟨⟩, store⟩
    · rfl
    · exact ih { m with store }

theorem checkedEntries_eq_ok : m.checkedEntries batch = .ok es ↔
    m.entriesOf batch = .ok es ∧ ∃ merged, m.journal.check m.issuer es = .ok merged := by
  simp only [checkedEntries, bind_eq_ok, mapError_eq_ok, pure_eq_ok, Except.ok.injEq]
  constructor
  · rintro ⟨_, hes, merged, hcheck, rfl⟩
    exact ⟨hes, merged, hcheck⟩
  · rintro ⟨hes, merged, hcheck⟩
    exact ⟨es, hes, merged, hcheck, rfl⟩

theorem applyBatch_of_not_keeps (hkeeps : m.settings.keepsHistory = false) (now : Nat)
    (batch : List Commit) :
    m.applyBatch now batch = ((m.store.applyAll (m.putsOf now (batch.map (·, 0)))).1,
      { m with store := (m.store.applyAll (m.putsOf now (batch.map (·, 0)))).2 }) := by
  rw [applyBatch, if_neg (by simp [hkeeps]), takeAll_store]

theorem applyBatch_eq_ok_of_not_keeps (hkeeps : m.settings.keepsHistory = false) :
    m.applyBatch now batch = (.ok (), m') ↔
      ∃ store, m.store.applyAll (m.putsOf now (batch.map (·, 0))) = (.ok (), store) ∧
      m' = { m with store } := by
  rw [applyBatch_of_not_keeps hkeeps]
  constructor
  · intro h
    obtain ⟨houtcome, rfl⟩ := Prod.mk.inj h
    exact ⟨_, Prod.ext houtcome rfl, rfl⟩
  · rintro ⟨store, hstore, rfl⟩
    rw [hstore]

/-- A member that keeps history refuses a batch that does not pass the check, and stays as it is. -/
theorem applyBatch_refused (hkeeps : m.settings.keepsHistory = true) (now : Nat)
    (h : m.checkedEntries batch = .error fault) : m.applyBatch now batch = (.error fault, m) := by
  rw [applyBatch, if_pos hkeeps, h]

theorem applyBatch_checked (hkeeps : m.settings.keepsHistory = true) (now : Nat)
    (h : m.checkedEntries batch = .ok es) :
    m.applyBatch now batch = inTurn take m (m.stepsOf now batch es) := by
  rw [applyBatch, if_pos hkeeps, h]

theorem takeAll_eq_ok : inTurn take m (m.stepsOf now batch es) = (.ok (), m') ↔ ∃ store journal,
    m.store.applyAll (m.putsOf now (batch.zip (es.map (·.sub)))) = (.ok (), store) ∧
      m.journal.append m.issuer es = (.ok (), journal) ∧ m' = { m with store, journal } := by
  rw [stepsOf, inTurn_append, takeAll_store]
  constructor
  · rintro ⟨mid, hstored, hlogged⟩
    obtain ⟨hstore, rfl⟩ := Prod.mk.inj hstored
    obtain ⟨logged, hlog, hend⟩ := inTurn_cons.1 hlogged
    obtain ⟨-, rfl⟩ := Prod.mk.inj hend
    obtain ⟨happend, rfl⟩ := Prod.mk.inj hlog
    exact ⟨_, _, Prod.ext hstore rfl, Prod.ext (mapError_eq_ok.1 happend) rfl, rfl⟩
  · rintro ⟨store, journal, hstore, happend, rfl⟩
    refine ⟨{ m with store }, by rw [hstore], inTurn_cons.2 ⟨{ m with store, journal }, ?_, rfl⟩⟩
    show ((m.journal.append m.issuer es).1.mapError TxFault.journal,
      ({ m with store, journal := (m.journal.append m.issuer es).2 } : Member)) = _
    rw [happend]
    rfl

theorem store_takeAll (m : Member) (now : Nat) (batch : List Commit) (es : List Entry) :
    (inTurn take m (m.stepsOf now batch es)).2.store =
      (m.store.applyAll (m.putsOf now (batch.zip (es.map (·.sub))))).2 := by
  rw [stepsOf, inTurn_append_eq, takeAll_store]
  generalize m.store.applyAll (m.putsOf now (batch.zip (es.map (·.sub)))) = stored
  rcases stored with ⟨_ | ⟨⟩, store⟩
  · rfl
  · have hlog : inTurn take { m with store } [.log es] =
        ({ m with store } : Member).take (.log es) :=
      inTurn_singleton
    exact congrArg (·.2.store) hlog

theorem applyBatch_eq_ok (hkeeps : m.settings.keepsHistory = true) :
    m.applyBatch now batch = (.ok (), m') ↔ ∃ es store journal, m.checkedEntries batch = .ok es ∧
      m.store.applyAll (m.putsOf now (batch.zip (es.map (·.sub)))) = (.ok (), store) ∧
      m.journal.append m.issuer es = (.ok (), journal) ∧ m' = { m with store, journal } := by
  cases hes : m.checkedEntries batch with
  | error fault => simp [applyBatch_refused hkeeps now hes]
  | ok es =>
    rw [applyBatch_checked hkeeps now hes, takeAll_eq_ok]
    constructor
    · rintro ⟨store, journal, h⟩
      exact ⟨es, store, journal, rfl, h⟩
    · rintro ⟨_, store, journal, hsame, h⟩
      obtain rfl := Except.ok.inj hsame
      exact ⟨store, journal, h⟩

theorem takeAll_frame (m : Member) (steps : List Step) :
    ∃ store journal, (inTurn take m steps).2 = { m with store, journal } := by
  induction steps generalizing m with
  | nil => exact ⟨_, _, rfl⟩
  | cons step rest ih =>
    obtain ⟨store, journal, hstep⟩ :
        ∃ store journal, (m.take step).2 = { m with store, journal } := by
      cases step <;> exact ⟨_, _, rfl⟩
    obtain ⟨store', journal', hrest⟩ := ih (m.take step).2
    rw [inTurn]
    split
    · next mid hmid =>
      rw [hmid] at hstep hrest
      obtain rfl : mid = { m with store, journal } := hstep
      exact ⟨store', journal', hrest⟩
    · next e mid hmid =>
      rw [hmid] at hstep
      exact ⟨store, journal, hstep⟩

theorem applyBatch_frame (m : Member) (now : Nat) (batch : List Commit) :
    ∃ store journal, (m.applyBatch now batch).2 = { m with store, journal } := by
  rw [applyBatch]
  split
  · split
    · exact ⟨_, _, rfl⟩
    · exact m.takeAll_frame _
  · exact m.takeAll_frame _

end Member
end Multiversion
