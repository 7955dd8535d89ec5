import Multiversion.Proofs.Batch
import Multiversion.Proofs.Calls
/- A member without history is a plain map.

   Whatever stamps the rule of its scheme decides on, a member without history puts each write in
   place of what it has of the key (`Member.Plain.putOf_eq`), so that after calls that succeed every
   key that was written has the last value written and nothing else (`Store.Holds`,
   `Member.Plain.holds_performAll`), and the journal is never started. Under total order the stamp
   of a key counts the commits of the key: each one is stored with the stamp after the one that it
   replaces (`Member.Plain.applyCommit_totalOrder`), in the view that is current then
   (`Member.plain_map`). -/
namespace Multiversion

/-- The writes of a call. -/
def Call.writes : Call → List Write
  | .commit _ k value _ => [.ofValue k value none]
  | .batch _ commits => commits.flatMap (·.writes)
  | .learn _ => []

/-- Every key has the last value written to it and nothing else. -/
def Store.Holds (s : Store) (ws : List Write) : Prop :=
  ∀ k, (s.timeline k).revisions.map (·.value) = (lastValue k ws).toList

theorem Store.Holds.putOnly {s : Store} {ws : List Write} (h : s.Holds ws) (w : Write)
    {r : Revision} (hr : r.value = w.value) : (s.putOnly w.change.key r).Holds (ws ++ [w]) := by
  intro k
  rw [Store.putOnly, timeline_setTimeline, lastValue_append]
  split
  · next hk => simp [lastValue, hk, Timeline.replace, hr]
  · next hk => simpa [lastValue, hk] using h k

namespace Member

variable {m m' : Member}

/-- A member without history that owns every key. -/
structure Plain (m : Member) : Prop where
  keeps : m.settings.keepsHistory = false
  owns : ∀ k, m.owns k = true

/-- Whatever its stamp, a write takes the place of what there is of the key. -/
theorem Plain.putOf_eq (h : m.Plain) {now : Nat} {c : Commit} {sub : Int32} {w : Write}
    {put : Option Put} (hput : m.putOf now c sub w = .ok put) :
    ∃ stamp, put = some ⟨w.change.key, ⟨stamp, w.value, none⟩, false⟩ := by
  have howner : Disposition.of m.settings.shadowCopies m.owns w.change =
      .owner := by simp [Disposition.of, h.owns]
  simp only [putOf, Scheme.decide, bind_eq_ok, mapError_eq_ok, pure_eq_ok, Except.ok.injEq] at hput
  obtain ⟨_, ⟨stamp?, -, rfl⟩, hput⟩ := hput
  rw [howner, if_neg (by simp [Disposition.isApplied])] at hput
  cases stamp? with
  | none =>
    cases hput
    exact ⟨⟨m.issuer.currentView, 0, 0⟩, by simp [h.keeps]⟩
  | some v =>
    obtain ⟨stamp, -, hput⟩ := bind_eq_ok.1 hput
    cases hput
    exact ⟨stamp, by simp [h.keeps]⟩

theorem Plain.holds_applyAll (h : m.Plain) {now : Nat} (l : List (Commit × Int32 × Write))
    {s s' : Store} {ws : List Write} (hs : s.Holds ws)
    (happly : s.applyAll (l.map fun x => m.putOf now x.1 x.2.1 x.2.2) = (.ok (), s')) :
    s'.Holds (ws ++ l.map (·.2.2)) := by
  induction l generalizing s ws with
  | nil =>
    cases happly
    rwa [List.map_nil, List.append_nil]
  | cons x rest ih =>
    obtain ⟨c, sub, w⟩ := x
    rw [List.map_cons] at happly
    cases hput : m.putOf now c sub w with
    | error fault =>
      rw [hput] at happly
      cases happly
    | ok put =>
      obtain ⟨stamp, rfl⟩ := h.putOf_eq hput
      rw [hput] at happly
      have hrest := ih (hs.putOnly w rfl) happly
      rwa [List.append_assoc] at hrest

theorem Plain.holds_applyBatch (h : m.Plain) {now : Nat} {batch : List Commit} {ws : List Write}
    (hs : m.store.Holds ws) (happly : m.applyBatch now batch = (.ok (), m')) :
    m'.store.Holds (ws ++ batch.flatMap (·.writes)) := by
  obtain ⟨store, hstore, rfl⟩ := (applyBatch_eq_ok_of_not_keeps h.keeps).1 happly
  have hputs : m.putsOf now (batch.map (·, 0)) =
      (batch.flatMap fun c => c.writes.map fun w => (c, 0, w)).map fun x =>
        m.putOf now x.1 x.2.1 x.2.2 := by
    simp [putsOf, List.flatMap_map, List.map_flatMap, Function.comp_def]
  rw [hputs] at hstore
  have hholds := h.holds_applyAll _ hs hstore
  simpa [List.map_flatMap, Function.comp_def] using hholds

/-- A call leaves a member without history as it is, but for its store and the views it knows. -/
theorem Plain.perform_frame (h : m.Plain) (call : Call) :
    ∃ store issuer, (m.perform call).2 = { m with store, issuer } := by
  have hbatch : ∀ now batch, ∃ store, (m.applyBatch now batch).2 = { m with store } := by
    intro now batch
    rw [applyBatch_of_not_keeps h.keeps]
    exact ⟨_, rfl⟩
  cases call with
  | commit now k value agreed =>
    obtain ⟨store, hstore⟩ :=
      hbatch now [⟨agreed, [.ofValue k value ((m.store.newest? k).map (·.creation))], .empty⟩]
    exact ⟨store, m.issuer, hstore⟩
  | batch now commits =>
    obtain ⟨store, hstore⟩ := hbatch now commits
    exact ⟨store, m.issuer, hstore⟩
  | learn view => exact ⟨m.store, m.issuer.addView view, rfl⟩

theorem Plain.holds_perform (h : m.Plain) {call : Call} {ws : List Write} (hs : m.store.Holds ws)
    (hcall : m.perform call = (.ok (), m')) : m'.store.Holds (ws ++ call.writes) := by
  cases call with
  | commit now k value agreed =>
    intro j
    have hholds := h.holds_applyBatch hs hcall j
    rw [lastValue_append] at hholds ⊢
    exact hholds
  | batch now commits => exact h.holds_applyBatch hs hcall
  | learn view =>
    cases hcall
    rw [Call.writes, List.append_nil]
    exact hs

theorem Plain.perform_plain (h : m.Plain) {call : Call} (hcall : m.perform call = (.ok (), m')) :
    m'.Plain ∧ m'.rule = m.rule ∧ m'.journal = m.journal := by
  obtain ⟨store, issuer, hm'⟩ := h.perform_frame call
  obtain rfl : m' = { m with store, issuer } := by rw [← hm', hcall]
  exact ⟨⟨h.keeps, h.owns⟩, rfl, rfl⟩

/-- Calls that all succeed write what they are to write; they do not touch the journal. -/
theorem Plain.holds_performAll (h : m.Plain) {calls : List Call} {ws : List Write}
    (hs : m.store.Holds ws) (hcalls : m.performAll calls = (.ok (), m')) :
    m'.store.Holds (ws ++ calls.flatMap Call.writes) ∧ m'.Plain ∧ m'.rule = m.rule ∧
    m'.journal = m.journal := by
  induction calls generalizing m ws with
  | nil =>
    cases hcalls
    exact ⟨by rwa [List.flatMap_nil, List.append_nil], h, rfl, rfl⟩
  | cons call rest ih =>
    obtain ⟨mid, hcall, hrest⟩ := inTurn_cons.1 hcalls
    obtain ⟨hmid, hrule, hjournal⟩ := h.perform_plain hcall
    obtain ⟨hholds, hplain, hrule', hjournal'⟩ := ih hmid (h.holds_perform hs hcall) hrest
    rw [List.append_assoc, ← List.flatMap_cons] at hholds
    exact ⟨hholds, hplain, hrule'.trans hrule, hjournal'.trans hjournal⟩

end Member

theorem toInt_add_one_of_ne_maxValue {v : Int64} (h : v ≠ Int64.maxValue) :
    (v + 1).toInt = v.toInt + 1 := by
  have hmax : Int64.maxValue.toInt = 2 ^ 63 - 1 := by decide
  have hone : (1 : Int64).toInt = 1 := by decide
  have hne : v.toInt ≠ Int64.maxValue.toInt := fun heq => h (Int64.toInt_inj.1 heq)
  have hlt := v.toInt_lt
  have hle := v.le_toInt
  rw [Int64.toInt_add, hone]
  apply Int.bmod_eq_of_le <;> omega

theorem Issuer.increment_write {i : Issuer} {w : WriteStamp} {v : Stamp}
    (h : i.increment (.write w) = .ok v) :
    ∃ n, v = .write ⟨i.currentView, n, 0⟩ ∧ n.toInt = w.value.toInt + 1 := by
  simp only [increment, rankOf, Stamp.rank?, successor, bind_eq_ok, pure_eq_ok,
    Except.ok.injEq] at h
  obtain ⟨_, ⟨_, -, rfl⟩, next, hnext, rfl⟩ := h
  split at hnext
  · cases hnext
  · next hne =>
    cases hnext
    exact ⟨_, rfl, toInt_add_one_of_ne_maxValue hne⟩

theorem Scheme.stampFor_totalOrder {i : Issuer} {tx : CommitContext} {c : Change}
    {newest : Option Revision} (hprior : c.prior = newest.map fun r => .write r.stamp)
    {v : Option Stamp} (h : Scheme.totalOrder.stampFor i tx c = .ok v) :
    ∃ n, v = some (.write ⟨i.currentView, n, 0⟩) ∧
    n.toInt = (newest.map (·.stamp.value.toInt)).getD 0 + 1 := by
  rw [stampFor, hprior] at h
  cases newest with
  | none =>
    cases h
    exact ⟨1, rfl, by decide⟩
  | some r =>
    obtain ⟨next, hnext, hv⟩ := bind_eq_ok.1 h
    obtain ⟨n, rfl, hn⟩ := Issuer.increment_write hnext
    cases hv
    exact ⟨n, rfl, hn⟩

/-- The value of the stamp that a key is stored with; 0 if it was never written. -/
def Store.counter (s : Store) (k : Key) : Int :=
  ((s.timeline k).newest?.map (·.stamp.value.toInt)).getD 0

theorem Store.counter_putOnly {s : Store} {k j : Key} {r : Revision} :
    (s.putOnly k r).counter j = if j = k then r.stamp.value.toInt else s.counter j := by
  rw [counter, putOnly, timeline_setTimeline]
  split <;> rfl

/-- Whether the call is the commit of a key. -/
def Call.commits (k : Key) : Call → Bool
  | .commit _ j _ _ => j = k
  | _ => false

def Call.isBatch : Call → Bool
  | .batch _ _ => true
  | _ => false

namespace Member

variable {m m' : Member} {k : Key}

/-- Under total order a write gets the value after that of the stamp that it replaces, and the
current view. -/
theorem putOf_totalOrder (hrule : m.rule = .totalOrder) {now : Nat} {c : Commit} {sub : Int32}
    {value : Option Value} {put : Put}
    (hput : m.putOf now c sub (.ofValue k value ((m.store.newest? k).map (·.creation))) =
      .ok (some put)) :
    ∃ n : Int64, put.revision.stamp = ⟨m.issuer.currentView, n, 0⟩ ∧
    n.toInt = m.store.counter k + 1 := by
  have hprior : (m.store.newest? k).map (·.creation) = (m.store.timeline k).newest?.map fun r =>
      .write r.stamp := by
    rw [Store.newest?, Option.map_map]
    rfl
  simp only [putOf, hrule, Scheme.decide, bind_eq_ok, mapError_eq_ok, pure_eq_ok,
    Except.ok.injEq] at hput
  obtain ⟨_, ⟨v, hv, rfl⟩, hput⟩ := hput
  obtain ⟨n, rfl, hn⟩ := Scheme.stampFor_totalOrder hprior hv
  split at hput
  · cases hput
  · cases hput
    exact ⟨n, rfl, hn⟩

/-- Under total order the commit of a key gets the value after that of the stamp that it
replaces. -/
theorem Plain.applyCommit_totalOrder (h : m.Plain) (hrule : m.rule = .totalOrder) {now : Nat}
    {value : Option Value} {agreed : Stamp}
    (happly : m.applyCommit now k value agreed = (.ok (), m')) : ∃ n : Int64,
      m' = { m with store := m.store.putOnly k ⟨⟨m.issuer.currentView, n, 0⟩, value, none⟩ } ∧
        n.toInt = m.store.counter k + 1 := by
  obtain ⟨store, hstore, rfl⟩ := (applyBatch_eq_ok_of_not_keeps h.keeps).1 happly
  simp only [putsOf, List.map_cons, List.map_nil, List.flatMap_cons, List.flatMap_nil,
    List.append_nil] at hstore
  cases hput : m.putOf now ⟨agreed,
    [.ofValue k value ((m.store.newest? k).map (·.creation))], .empty⟩ 0
      (.ofValue k value ((m.store.newest? k).map (·.creation))) with
  | error fault =>
    rw [hput] at hstore
    cases hstore
  | ok put =>
    obtain ⟨stamp, rfl⟩ := h.putOf_eq hput
    obtain ⟨n, rfl, hn⟩ := putOf_totalOrder hrule hput
    rw [hput] at hstore
    cases hstore
    exact ⟨n, rfl, hn⟩

/-- Under total order a call that is no batch counts up the keys that it commits, and leaves the
others alone. -/
theorem Plain.perform_totalOrder (h : m.Plain) (hrule : m.rule = .totalOrder) {call : Call}
    (hbatch : call.isBatch = false) (hcall : m.perform call = (.ok (), m')) (k : Key) :
    m'.store.counter k = m.store.counter k + (if call.commits k then 1 else 0) ∧
      (call.commits k = false → m'.store.timeline k = m.store.timeline k) := by
  cases call with
  | commit now j value agreed =>
    obtain ⟨n, rfl, hn⟩ := h.applyCommit_totalOrder hrule hcall
    rw [Store.counter_putOnly, Store.putOnly, Store.timeline_setTimeline]
    by_cases hk : k = j
    · subst hk
      simp [Call.commits, hn]
    · simp [Call.commits, hk, Ne.symm hk]
  | batch now commits => cases hbatch
  | learn view =>
    cases hcall
    exact ⟨(Int.add_zero _).symm, fun _ => rfl⟩

theorem Plain.performAll_totalOrder (h : m.Plain) (hrule : m.rule = .totalOrder) {calls : List Call}
    (hbatch : ∀ call ∈ calls, call.isBatch = false) (hcalls : m.performAll calls = (.ok (), m'))
    (k : Key) :
    m'.store.counter k = m.store.counter k + calls.countP (·.commits k) ∧
      ((∀ call ∈ calls, call.commits k = false) → m'.store.timeline k = m.store.timeline k) := by
  induction calls generalizing m with
  | nil =>
    cases hcalls
    exact ⟨(Int.add_zero _).symm, fun _ => rfl⟩
  | cons call rest ih =>
    obtain ⟨hcall, hrest⟩ := List.forall_mem_cons.1 hbatch
    obtain ⟨mid, hmid, hm'⟩ := inTurn_cons.1 hcalls
    obtain ⟨hplain, hrule', -⟩ := h.perform_plain hmid
    obtain ⟨hcounter, hsame⟩ := h.perform_totalOrder hrule hcall hmid k
    obtain ⟨hcounter', hsame'⟩ := ih hplain (hrule'.trans hrule) hrest hm'
    constructor
    · rw [hcounter', hcounter, List.countP_cons]
      cases call.commits k with
      | true =>
        simp only [if_true]
        omega
      | false =>
        simp only [Bool.false_eq_true, if_false]
        omega
    · intro hnone
      obtain ⟨hfirst, hothers⟩ := List.forall_mem_cons.1 hnone
      exact (hsame' hothers).trans (hsame hfirst)

/-- Take a member without history that owns every key, and calls that all succeed: commits, batches,
and changes of the view. After that the journal has not been started, and each key that was written
has one revision, with the last value written to it, or without a value if that was a removal. Under
total order and without batches the stamp of that revision counts the commits of the key, and is of
the view that was current at the last of them. -/
theorem plain_map {settings : Settings} (hscheme : settings.scheme ≠ .multiversion)
    (address : Address) (view : View) {calls : List Call} {m₀ m : Member}
    (hm₀ : m₀ = create settings address view fun _ => true)
    (hcalls : m₀.performAll calls = (.ok (), m)) :
    m.journal = {} ∧
    (∀ k, (m.store.timeline k).revisions.map (·.value) =
      (lastValue k (calls.flatMap Call.writes)).toList) ∧
    (settings.scheme = .totalOrder → (∀ call ∈ calls, call.isBatch = false) →
      ∀ before now k value agreed after, calls = before ++ .commit now k value agreed :: after →
        (∀ call ∈ after, call.commits k = false) →
        ∃ (mid : Member) (n : Int64), m₀.performAll before = (.ok (), mid) ∧
          n.toInt = calls.countP (·.commits k) ∧
          (m.store.timeline k).revisions = [⟨⟨mid.issuer.currentView, n, 0⟩, value, none⟩]) := by
  have hkeeps : settings.keepsHistory = false := decide_eq_false hscheme
  have hplain : m₀.Plain := hm₀ ▸ ⟨hkeeps, fun k => rfl⟩
  have hjournal : m₀.journal = {} := by rw [hm₀, create, hkeeps]; rfl
  have hnone : ∀ k, m₀.store.timeline k = .empty := hm₀ ▸ fun k => rfl
  have hempty : m₀.store.Holds [] := fun k => by rw [hnone k]; rfl
  obtain ⟨hholds, -, -, hsame⟩ := hplain.holds_performAll hempty hcalls
  refine ⟨hsame.trans hjournal, hholds, ?_⟩
  rintro hscheme hbatch before now k value agreed after rfl hlast
  have hrule : m₀.rule = .totalOrder := hm₀ ▸ hscheme
  obtain ⟨hbatch, hbatch'⟩ := List.forall_mem_append.1 hbatch
  obtain ⟨mid, hbefore, hrest⟩ := inTurn_append.1 hcalls
  obtain ⟨next, hcommit, hafter⟩ := inTurn_cons.1 hrest
  obtain ⟨-, hmid, hrule', -⟩ := hplain.holds_performAll hempty hbefore
  obtain ⟨hnext, hrule'', -⟩ := hmid.perform_plain hcommit
  obtain ⟨n, rfl, hn⟩ := hmid.applyCommit_totalOrder (hrule'.trans hrule) hcommit
  have hcounter := (hplain.performAll_totalOrder hrule hbatch hbefore k).1
  have hkept := (hnext.performAll_totalOrder (hrule''.trans (hrule'.trans hrule))
    (List.forall_mem_cons.1 hbatch').2 hafter k).2 hlast
  refine ⟨mid, n, hbefore, ?_, ?_⟩
  · have hzero : m₀.store.counter k = 0 := by rw [Store.counter, hnone]; rfl
    have hothers : after.countP (·.commits k) = 0 := List.countP_eq_zero.2 (by simpa using hlast)
    rw [hn, hcounter, hzero, List.countP_append, List.countP_cons, hothers]
    simp [Call.commits]
  · rw [hkept, Store.putOnly, Store.timeline_setTimeline, if_pos rfl]
    rfl

/-- A key is written in one view and removed in the next, with a commit of another key in
between. -/
theorem plain_map_totalOrder : ∃ (m₀ m : Member) (n : Int64),
    m₀ = create { scheme := .totalOrder } "a" ⟨1, ["a"]⟩ (fun _ => true) ∧
    m₀.performAll [.commit 0 "k" (some "x") .absent, .commit 0 "j" (some "y") .absent,
      .learn ⟨2, ["a", "b"]⟩, .commit 0 "k" none .absent] = (.ok (), m) ∧
    m.journal = {} ∧ (m.store.timeline "j").revisions.map (·.value) = [some "y"] ∧ n.toInt = 2 ∧
    (m.store.timeline "k").revisions = [⟨⟨2, n, 0⟩, none, none⟩] := by
  obtain ⟨m₀, m, hm₀, hcalls⟩ : ∃ (m₀ m : Member),
      m₀ = create { scheme := .totalOrder } "a" ⟨1, ["a"]⟩ (fun _ => true) ∧
      m₀.performAll [.commit 0 "k" (some "x") .absent, .commit 0 "j" (some "y") .absent,
        .learn ⟨2, ["a", "b"]⟩, .commit 0 "k" none .absent] = (.ok (), m) :=
    ⟨_, _, rfl, rfl⟩
  obtain ⟨hjournal, hholds, hcounts⟩ := plain_map (by decide) "a" ⟨1, ["a"]⟩ hm₀ hcalls
  obtain ⟨mid, n, hbefore, hn, hrevisions⟩ := hcounts rfl (by decide)
    [.commit 0 "k" (some "x") .absent, .commit 0 "j" (some "y") .absent,
      .learn ⟨2, ["a", "b"]⟩] 0 "k" none .absent []
    rfl (by simp)
  have hview : mid.issuer.currentView = 2 := by
    have hmid := congrArg (fun r => r.2.issuer.currentView) hbefore
    rw [hm₀] at hmid
    exact hmid.symm
  rw [hview] at hrevisions
  exact ⟨m₀, m, n, hm₀, hcalls, hjournal, hholds "j", hn, hrevisions⟩

end Member
end Multiversion
