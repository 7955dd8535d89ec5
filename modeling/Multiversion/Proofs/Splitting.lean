import Multiversion.Proofs.Acceptance
import Multiversion.Proofs.Calls
/- Splitting a list of commits into batches.

   Where no shadow copies are kept it makes no difference how a list of commits is split into
   batches, each applied when the ones before it are. The entry of a commit depends on the entry
   before it alone, whether that is an earlier one of the batch or the newest of the journal
   (`Member.entriesAfter_append`); what the journal merges for one batch it merges in steps for two
   (`Journal.append_append`); and what a commit stores depends neither on the time nor on what is
   stored already (`Member.putsOf_congr`). So a batch can be cut at any place
   (`Member.applyBatch_append`), and by induction any number of times
   (`Member.batching_irrelevant`). -/
namespace Multiversion

theorem Extreme.fold_append {α : Type} {combine : α → α → α} {l l' : List α} {a : α}
    (h : fold combine l = some a) :
    fold combine (l ++ l') = fold combine (a :: l') := by
  cases l with
  | nil => cases h
  | cons b rest =>
    obtain rfl := Option.some.inj h
    exact congrArg some List.foldl_append

namespace Journal

variable {i : Issuer} {j j' j'' : Journal} {last : Entry} {es es' : List Entry}

theorem checkOrder_append : checkOrder last (es ++ es') = .ok () ↔
    checkOrder last es = .ok () ∧ checkOrder (es.getLast?.getD last) es' = .ok () := by
  induction es generalizing last with
  | nil => simp [checkOrder]
  | cons e rest ih =>
    rw [List.cons_append, checkOrder, checkOrder, List.getLast?_cons]
    split
    · exact ih
    · simp

theorem append_eq_ok (hne : es ≠ []) :
    j.append i es = (.ok (), j') ↔ ∃ last, j.head? = some last ∧
      checkOrder last es = .ok () ∧ (∀ r ∈ j.ranksWith es, i.views.knows r.view = true) ∧
      j' = { j with
        entries := j.entries ++ es
        latest := (Extreme.fold max (j.ranksWith es)).map i.stampAt } := by
  rw [append_eq_ok_iff_check hne]
  simp only [check_eq_ok]
  constructor
  · rintro ⟨_, ⟨last, hlast, horder, hknown, rfl⟩, rfl⟩
    exact ⟨last, hlast, horder, hknown, rfl⟩
  · rintro ⟨last, hlast, horder, hknown, rfl⟩
    exact ⟨_, ⟨last, hlast, horder, hknown, rfl⟩, rfl⟩

theorem head?_append (hne : es ≠ []) (hlast : j.head? = some last)
    (h : j.append i es = (.ok (), j')) :
    j'.head? = some (es.getLast?.getD last) := by
  obtain ⟨_, -, -, -, rfl⟩ := (append_eq_ok hne).1 h
  show (j.entries ++ es).getLast? = _
  rw [List.getLast?_append, ← head?, hlast, Option.or_some]

theorem ranksWith_append : j.ranksWith (es ++ es') = j.ranksWith es ++ es'.map (·.stamp.rank) := by
  simp [ranksWith, Function.comp_def]

theorem ranksWith_of_append (hne : es ≠ []) (h : j.append i es = (.ok (), j')) :
    ∃ greatest ∈ j.ranksWith es, Extreme.fold max (j.ranksWith es) = some greatest ∧
      ∀ es', j'.ranksWith es' = greatest :: es'.map (·.stamp.rank) := by
  obtain ⟨_, -, -, -, rfl⟩ := (append_eq_ok hne).1 h
  cases hranks : j.ranksWith es with
  | nil => simp [ranksWith, hne] at hranks
  | cons r rest =>
    have hlatest : (Extreme.fold max (r :: rest)).map i.stampAt =
        some (i.stampAt (rest.foldl max r)) := rfl
    exact ⟨rest.foldl max r, List.max?_mem List.max?_cons', rfl, fun es' =>
      (ranksWith_of_latest hlatest).trans rfl⟩

/-- What is appended at once may be appended in two steps. -/
theorem append_append (hne : es ≠ []) (hne' : es' ≠ []) :
    j.append i (es ++ es') = (.ok (), j'') ↔
      ∃ j', j.append i es = (.ok (), j') ∧ j'.append i es' = (.ok (), j'') := by
  have hne'' : es ++ es' ≠ [] := List.append_ne_nil_of_left_ne_nil hne es'
  constructor
  · intro h
    obtain ⟨last, hlast, horder, hknown, rfl⟩ := (append_eq_ok hne'').1 h
    obtain ⟨horder, horder'⟩ := checkOrder_append.1 horder
    rw [ranksWith_append, List.forall_mem_append] at hknown
    have h₁ := (append_eq_ok hne).2 ⟨last, hlast, horder, hknown.1, rfl⟩
    obtain ⟨greatest, hmem, hfold, hranks⟩ := ranksWith_of_append hne h₁
    refine ⟨_, h₁, (append_eq_ok hne').2 ⟨_, head?_append hne hlast h₁, horder', ?_, ?_⟩⟩
    · rw [hranks, List.forall_mem_cons]
      exact ⟨hknown.1 _ hmem, hknown.2⟩
    · rw [hranks, ranksWith_append, Extreme.fold_append hfold, List.append_assoc]
  · rintro ⟨j', h₁, h₂⟩
    obtain ⟨greatest, -, hfold, hranks⟩ := ranksWith_of_append hne h₁
    obtain ⟨last, hlast, horder, hknown, hj'⟩ := (append_eq_ok hne).1 h₁
    obtain ⟨last', hlast', horder', hknown', rfl⟩ := (append_eq_ok hne').1 h₂
    obtain rfl := Option.some.inj (hlast'.symm.trans (head?_append hne hlast h₁))
    rw [hranks, List.forall_mem_cons] at hknown'
    refine (append_eq_ok hne'').2 ⟨last, hlast, checkOrder_append.2 ⟨horder, horder'⟩, ?_, ?_⟩
    · rw [ranksWith_append, List.forall_mem_append]
      exact ⟨hknown, hknown'.2⟩
    · rw [hranks, ranksWith_append, Extreme.fold_append hfold, hj', List.append_assoc]

end Journal

namespace Member

variable {m m' : Member} {batch batch' : List Commit} {last : Entry} {es : List Entry}

theorem entriesAfter_append :
    entriesAfter last (batch ++ batch') = .ok es ↔
      ∃ es₁ es₂, es = es₁ ++ es₂ ∧ entriesAfter last batch = .ok es₁ ∧
        entriesAfter (es₁.getLast?.getD last) batch' = .ok es₂ := by
  induction batch generalizing last es with
  | nil =>
    simp only [List.nil_append, entriesAfter, Except.ok.injEq]
    constructor
    · intro h
      exact ⟨[], es, rfl, rfl, h⟩
    · rintro ⟨_, es₂, rfl, rfl, h⟩
      exact h
  | cons c rest ih =>
    simp only [List.cons_append, entriesAfter, bind_eq_ok, pure_eq_ok, Except.ok.injEq, ih]
    constructor
    · rintro ⟨e, he, _, ⟨es₁, es₂, rfl, h₁, h₂⟩, rfl⟩
      exact ⟨e :: es₁, es₂, rfl, ⟨e, he, es₁, h₁, rfl⟩, by rwa [List.getLast?_cons]⟩
    · rintro ⟨_, es₂, rfl, ⟨e, he, es₁, h₁, rfl⟩, h₂⟩
      rw [List.getLast?_cons] at h₂
      exact ⟨e, he, es₁ ++ es₂, ⟨es₁, es₂, rfl, h₁, h₂⟩, rfl⟩

theorem length_entriesAfter (h : entriesAfter last batch = .ok es) : batch.length = es.length := by
  simpa using congrArg List.length (stamps_entriesAfter h)

/-- Without shadow copies no write expires, so the time does not matter; nor do the store and the
journal. -/
theorem putsOf_congr (hshadow : m.settings.shadowCopies = false) (now now' : Nat) (store : Store)
    (journal : Journal) (commits : List (Commit × Int32)) :
    ({ m with store, journal } : Member).putsOf now' commits = m.putsOf now commits := by
  have hput : ∀ c sub w, ({ m with store, journal } : Member).putOf now' c sub w =
      m.putOf now c sub w := by
    intro c sub w
    have hnot : ¬ Disposition.of m.settings.shadowCopies m.owns w.change = .shadowCopy := by
      rw [hshadow, Disposition.of]
      split <;> simp
    simp only [putOf, Scheme.decide]
    cases m.rule.stampFor m.issuer ⟨c.stamp, c.prepared⟩ w.change with
    | error fault => rfl
    | ok stamp => simp only [ok_bind, pure_eq_ok, mapError_ok, if_neg hnot]
  simp only [putsOf, funext (hput _ _)]

theorem entriesAfter_ne_nil (hne : batch ≠ []) (h : entriesAfter last batch = .ok es) :
    es ≠ [] := by
  rintro rfl
  exact hne (List.length_eq_zero_iff.1 (length_entriesAfter h))

theorem putsOf_append (now : Nat) (commits commits' : List (Commit × Int32)) :
    m.putsOf now (commits ++ commits') = m.putsOf now commits ++ m.putsOf now commits' :=
  List.flatMap_append

/-- What can be appended has been agreed to, so a batch passes the check if entries can be made of
it. -/
theorem checkedEntries_of_append (hne : batch ≠ []) {journal : Journal}
    (happend : m.journal.append m.issuer es = (.ok (), journal)) : m.checkedEntries batch = .ok es ↔
      ∃ last, m.journal.head? = some last ∧ entriesAfter last batch = .ok es := by
  rw [checkedEntries_eq_ok]
  constructor
  · rintro ⟨hes, merged, hcheck⟩
    simp only [Journal.check, bind_eq_ok, Journal.head_eq_ok] at hcheck
    obtain ⟨last, hlast, -⟩ := hcheck
    rw [entriesOf_eq hlast, mapError_eq_ok] at hes
    exact ⟨last, hlast, hes⟩
  · rintro ⟨last, hlast, hes⟩
    obtain ⟨merged, hcheck, -⟩ :=
      (Journal.append_eq_ok_iff_check (entriesAfter_ne_nil hne hes)).1 happend
    exact ⟨by rw [entriesOf_eq hlast, hes, mapError_ok], merged, hcheck⟩

/-- What a member with history does with a batch, whatever it has stored and logged and at whatever
time. -/
theorem applyBatch_eq_ok_of_ne_nil (hkeeps : m.settings.keepsHistory = true)
    (hshadow : m.settings.shadowCopies = false) (hne : batch ≠ []) {store : Store}
    {journal : Journal} {now : Nat} :
    ({ m with store, journal } : Member).applyBatch now batch = (.ok (), m') ↔
      ∃ last es store' journal', journal.head? = some last ∧ entriesAfter last batch = .ok es ∧
        store.applyAll (m.putsOf 0 (batch.zip (es.map (·.sub)))) = (.ok (), store') ∧
        journal.append m.issuer es = (.ok (), journal') ∧
        m' = { m with store := store', journal := journal' } := by
  rw [applyBatch_eq_ok (m := { m with store, journal }) hkeeps]
  simp only [putsOf_congr hshadow 0]
  constructor
  · rintro ⟨es, store', journal', hes, hstore, happend, rfl⟩
    obtain ⟨last, hlast, hes⟩ :=
      (checkedEntries_of_append (m := { m with store, journal }) hne happend).1 hes
    exact ⟨last, es, store', journal', hlast, hes, hstore, happend, rfl⟩
  · rintro ⟨last, es, store', journal', hlast, hes, hstore, happend, rfl⟩
    have hes := (checkedEntries_of_append (m := { m with store, journal }) hne happend).2
      ⟨last, hlast, hes⟩
    exact ⟨es, store', journal', hes, hstore, happend, rfl⟩

/-- A batch can be cut at any place. -/
theorem applyBatch_append (hkeeps : m.settings.keepsHistory = true)
    (hshadow : m.settings.shadowCopies = false) {now now₁ now₂ : Nat} (hne : batch ≠ [])
    (hne' : batch' ≠ []) :
    m.applyBatch now (batch ++ batch') = (.ok (), m') ↔
      ∃ mid, m.applyBatch now₁ batch = (.ok (), mid) ∧
      mid.applyBatch now₂ batch' = (.ok (), m') := by
  have hspec := @applyBatch_eq_ok_of_ne_nil m
  have hzip : ∀ {last : Entry} {es₁ es₂ : List Entry}, entriesAfter last batch = .ok es₁ →
      (batch ++ batch').zip ((es₁ ++ es₂).map (·.sub)) =
        batch.zip (es₁.map (·.sub)) ++ batch'.zip (es₂.map (·.sub)) := by
    intro last es₁ es₂ h₁
    rw [List.map_append, List.zip_append (by rw [List.length_map, length_entriesAfter h₁])]
  constructor
  · intro h
    obtain ⟨last, es, store'', journal'', hlast, hes, hstore, happend, rfl⟩ :=
      (hspec hkeeps hshadow (List.append_ne_nil_of_left_ne_nil hne batch')).1 h
    obtain ⟨es₁, es₂, rfl, h₁, h₂⟩ := entriesAfter_append.1 hes
    have hne₁ := entriesAfter_ne_nil hne h₁
    rw [hzip h₁, putsOf_append] at hstore
    obtain ⟨store', hstore', hstore''⟩ := inTurn_append.1 hstore
    obtain ⟨journal', happend', happend''⟩ :=
      (Journal.append_append hne₁ (entriesAfter_ne_nil hne' h₂)).1 happend
    have hlast' := Journal.head?_append hne₁ hlast happend'
    exact ⟨_, (hspec hkeeps hshadow hne).2 ⟨last, es₁, store', journal', hlast, h₁, hstore',
      happend', rfl⟩, (hspec hkeeps hshadow hne').2 ⟨_, es₂, store'', journal'', hlast', h₂,
        hstore'', happend'', rfl⟩⟩
  · rintro ⟨mid, hmid, h⟩
    obtain ⟨last, es₁, store', journal', hlast, h₁, hstore', happend', rfl⟩ :=
      (hspec hkeeps hshadow hne).1 hmid
    obtain ⟨last', es₂, store'', journal'', hlast', h₂, hstore'', happend'', rfl⟩ :=
      (hspec hkeeps hshadow hne').1 h
    have hne₁ := entriesAfter_ne_nil hne h₁
    obtain rfl := Option.some.inj (hlast'.symm.trans (Journal.head?_append hne₁ hlast happend'))
    refine (hspec hkeeps hshadow (List.append_ne_nil_of_left_ne_nil hne batch')).2
      ⟨last, es₁ ++ es₂, store'', journal'', hlast,
        entriesAfter_append.2 ⟨es₁, es₂, rfl, h₁, h₂⟩, ?_, ?_, rfl⟩
    · rw [hzip h₁, putsOf_append]
      exact inTurn_append.2 ⟨store', hstore', hstore''⟩
    · exact (Journal.append_append hne₁ (entriesAfter_ne_nil hne' h₂)).2
        ⟨journal', happend', happend''⟩

/-- Batches applied in turn, each at its time. -/
def batchCalls (batches : List (Nat × List Commit)) : List Call :=
  batches.map fun b => .batch b.1 b.2

theorem applyBatch_flatMap (hkeeps : m.settings.keepsHistory = true)
    (hshadow : m.settings.shadowCopies = false) {batches : List (Nat × List Commit)}
    (hne : batches ≠ []) (hsome : ∀ b ∈ batches, b.2 ≠ []) (now : Nat) :
    m.applyBatch now (batches.flatMap (·.2)) = (.ok (), m') ↔
      m.performAll (batchCalls batches) = (.ok (), m') := by
  induction batches generalizing m now with
  | nil => exact absurd rfl hne
  | cons b rest ih =>
    obtain ⟨now₁, batch⟩ := b
    obtain ⟨hbatch, hrest⟩ := List.forall_mem_cons.1 hsome
    rw [List.flatMap_cons, batchCalls, List.map_cons, performAll, inTurn_cons]
    cases rest with
    | nil =>
      have hspec := @applyBatch_eq_ok_of_ne_nil m
      simp only [List.flatMap_nil, List.append_nil, List.map_nil, inTurn, perform, Prod.mk.injEq,
        true_and, exists_eq_right]
      exact (hspec hkeeps hshadow hbatch).trans (hspec hkeeps hshadow hbatch).symm
    | cons b' rest' =>
      have hne' : (b' :: rest').flatMap (·.2) ≠ [] := by
        rw [List.flatMap_cons]
        exact List.append_ne_nil_of_left_ne_nil (List.forall_mem_cons.1 hrest).1 _
      rw [applyBatch_append hkeeps hshadow hbatch hne']
      refine exists_congr fun mid => and_congr_right fun hmid => ?_
      obtain ⟨store, journal, hframe⟩ := m.applyBatch_frame now₁ batch
      obtain rfl : mid = { m with store, journal } := by rw [← hframe, hmid]
      exact ih (m := { m with store, journal }) hkeeps hshadow
        (List.cons_ne_nil b' rest') hrest now₁

/-- Take a member that keeps history and no shadow copies, and any commits. It applies all of them
as one batch exactly if it applies them one by one, or in any consecutive batches, and is the same
member after that: in what it has logged, with all sub-versions, in its greatest commit and in what
it has stored. -/
theorem batching_irrelevant {m : Member} (hkeeps : m.settings.keepsHistory = true)
    (hshadow : m.settings.shadowCopies = false) {commits : List Commit} (hne : commits ≠ [])
    (now : Nat) :
    (∀ m', m.applyBatch now commits = (.ok (), m') ↔
      m.performAll (commits.map fun c => .batch now [c]) = (.ok (), m')) ∧
    ∀ batches : List (Nat × List Commit), (∀ b ∈ batches, b.2 ≠ []) →
      batches.flatMap (·.2) = commits →
      ∀ m', m.applyBatch now commits = (.ok (), m') ↔
        m.performAll (batchCalls batches) = (.ok (), m') := by
  have hsplit : ∀ batches : List (Nat × List Commit), (∀ b ∈ batches, b.2 ≠ []) →
      batches.flatMap (·.2) = commits →
      ∀ m', m.applyBatch now commits = (.ok (), m') ↔
        m.performAll (batchCalls batches) = (.ok (), m') := by
    rintro batches hsome rfl m'
    have hne' : batches ≠ [] := by
      rintro rfl
      exact hne rfl
    exact applyBatch_flatMap hkeeps hshadow hne' hsome now
  have hsingly := hsplit (commits.map fun c => (now, [c])) (by simp) (by simp [List.flatMap_map])
  rw [batchCalls, List.map_map] at hsingly
  exact ⟨hsingly, hsplit⟩

/-- A removal and another write of the same value, and a write of the next view, one by one and in
two batches. -/
theorem batching_irrelevant_same_value : ∃ (m m' : Member) (c₁ c₂ c₃ : Commit),
    m = (Member.create {} "a" ⟨1, ["a"]⟩ fun _ => true).viewChanged ⟨2, ["a"]⟩ ∧
    c₁ = .single ⟨.replicated, 1, 1⟩ "k" none ∧ c₂ = .single ⟨.replicated, 1, 1⟩ "k" (some "x") ∧
    c₃ = .single ⟨.replicated, 2, 1⟩ "k" (some "y") ∧ m.applyBatch 7 [c₁, c₂, c₃] = (.ok (), m') ∧
    m.performAll [.batch 7 [c₁], .batch 7 [c₂], .batch 7 [c₃]] = (.ok (), m') ∧
    m.performAll [.batch 7 [c₁], .batch 8 [c₂, c₃]] = (.ok (), m') ∧
    m'.journal.entries.map (·.write) = [⟨1, 0, 0⟩, ⟨1, 1, 0⟩, ⟨1, 1, 1⟩, ⟨2, 1, 2⟩] := by
  obtain ⟨m, m', c₁, c₂, c₃, hm, hc₁, hc₂, hc₃, happly, hentries⟩ :
      ∃ (m m' : Member) (c₁ c₂ c₃ : Commit),
      m = (Member.create {} "a" ⟨1, ["a"]⟩ fun _ => true).viewChanged ⟨2, ["a"]⟩ ∧
      c₁ = .single ⟨.replicated, 1, 1⟩ "k" none ∧ c₂ = .single ⟨.replicated, 1, 1⟩ "k" (some "x") ∧
      c₃ = .single ⟨.replicated, 2, 1⟩ "k" (some "y") ∧ m.applyBatch 7 [c₁, c₂, c₃] = (.ok (), m') ∧
      m'.journal.entries.map (·.write) = [⟨1, 0, 0⟩, ⟨1, 1, 0⟩, ⟨1, 1, 1⟩, ⟨2, 1, 2⟩] :=
    ⟨_, _, _, _, _, rfl, rfl, rfl, rfl, rfl, rfl⟩
  obtain ⟨hsingly, hsplit⟩ :=
    batching_irrelevant (m := m) (hm ▸ rfl) (hm ▸ rfl) (List.cons_ne_nil c₁ [c₂, c₃]) 7
  have hpair := (hsplit [(7, [c₁]), (8, [c₂, c₃])] (by simp) rfl m').1 happly
  exact ⟨m, m', c₁, c₂, c₃, hm, hc₁, hc₂, hc₃, happly, (hsingly m').1 happly, hpair, hentries⟩

end Member
end Multiversion
