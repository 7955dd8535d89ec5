import Multiversion.Proofs.Session
/- Expiry of the copies of keys owned elsewhere.

   Of a key that a member does not own it keeps what is written for a while, and removals for good.
   Expiry drops revisions wherever they are in a timeline, so it may uncover older ones. As long as
   the clock does not go back these have expired themselves or are removals (`Fading`), so what is
   found after that is what was found before, or nothing, or an older removal (`Faded`,
   `Fading.find?_expire`), and no read goes back to a value that had been overwritten
   (`Session.expiry_restores_nothing`). -/
namespace Multiversion

/-- Revisions of a key owned elsewhere, newest first: what does not expire is a removal, and nothing
expires before what is older. -/
structure Fading (l : List Revision) : Prop where
  removal : ∀ r ∈ l, r.expires = none → r.value = none
  ordered : l.Pairwise fun newer older => ∀ e ∈ older.expires, ∀ e' ∈ newer.expires, e ≤ e'

/-- What is found of a key after revisions have expired, given what was found before. -/
inductive Faded (found : Option Revision) : Option Revision → Prop
  | same : Faded found found
  | gone : Faded found none
  | removal {r older : Revision} (before : found = some r) (hlt : older.position < r.position)
      (removed : older.value = none) (stays : older.expires = none) : Faded found (some older)

theorem Faded.removed_or_same {found : Option Revision} {r : Revision} (h : Faded found (some r)) :
    r.value = none ∨ found = some r := by
  cases h with
  | same => exact .inr rfl
  | removal before hlt removed stays => exact .inl removed

namespace Fading

variable {l l' : List Revision} {r : Revision}

theorem nil : Fading [] := ⟨by simp, .nil⟩

theorem sublist (h : Fading l) (hsub : l'.Sublist l) : Fading l' :=
  ⟨fun r hr => h.removal r (hsub.subset hr), h.ordered.sublist hsub⟩

theorem cons (h : Fading l) (hr : r.expires = none → r.value = none)
    (hle : ∀ q ∈ l, ∀ e ∈ q.expires, ∀ e' ∈ r.expires, e ≤ e') : Fading (r :: l) :=
  ⟨List.forall_mem_cons.2 ⟨hr, h.removal⟩, List.pairwise_cons.2 ⟨hle, h.ordered⟩⟩

theorem removal_of_expired (h : Fading (r :: l)) {now : Nat} (hr : r.isExpired now = true)
    {q : Revision} (hq : q ∈ l) (hstays : q.isExpired now = false) :
    q.expires = none ∧ q.value = none := by
  obtain ⟨e', hr', hexpired⟩ : ∃ e', r.expires = some e' ∧ e' ≤ now := by
    simpa [Revision.isExpired, Option.any_eq_true] using hr
  have hnone : q.expires = none := by
    cases hexpires : q.expires with
    | none => rfl
    | some e =>
      have hle := (List.pairwise_cons.1 h.ordered).1 q hq e hexpires e' hr'
      have hlater : ¬ e ≤ now := by simpa [Revision.isExpired, hexpires] using hstays
      exact absurd (Nat.le_trans hle hexpired) hlater
  exact ⟨hnone, h.removal q (List.mem_cons_of_mem r hq) hnone⟩

/-- Before the first revision that is looked for it does not matter which have expired. That one is
found, unless it has expired itself. -/
theorem find?_expire (h : Fading l)
    (hdecreasing : l.Pairwise fun newer older => older.position < newer.position) (now : Nat)
    (p : Revision → Bool) : Faded (l.find? p) ((l.filter (!·.isExpired now)).find? p) := by
  induction l with
  | nil => exact .same
  | cons r older ih =>
    cases hp : p r with
    | false =>
      have hsame : ((r :: older).filter (!·.isExpired now)).find? p =
          (older.filter (!·.isExpired now)).find? p := by
        rw [List.filter_cons]
        split
        · rw [List.find?_cons_of_neg (by simp [hp])]
        · rfl
      rw [hsame, List.find?_cons_of_neg (by simp [hp])]
      exact ih (h.sublist (List.sublist_cons_self r older)) hdecreasing.of_cons
    | true =>
      rw [List.find?_cons_of_pos hp]
      cases hexpired : r.isExpired now with
      | false =>
        rw [List.filter_cons_of_pos (by simp [hexpired]), List.find?_cons_of_pos hp]
        exact .same
      | true =>
        rw [List.filter_cons_of_neg (by simp [hexpired])]
        cases hfound : (older.filter (!·.isExpired now)).find? p with
        | none => exact .gone
        | some q =>
          obtain ⟨hq, hkept⟩ := List.mem_filter.1 (List.mem_of_find?_eq_some hfound)
          obtain ⟨hstays, hremoved⟩ := h.removal_of_expired hexpired hq (by simpa using hkept)
          exact .removal rfl ((List.pairwise_cons.1 hdecreasing).1 q hq) hremoved hstays

end Fading

namespace Timeline

variable {t t' : Timeline} {r : Revision} {rs : List Revision}

theorem fading_insert (h : Fading t.revisions) (hr : r.expires = none → r.value = none)
    (hle : ∀ q ∈ t.revisions, ∀ e ∈ q.expires, ∀ e' ∈ r.expires, e ≤ e') {outcome : Insertion}
    (hinsert : t.insert r = (.ok outcome, t')) : Fading t'.revisions := by
  rcases (insert_cases hinsert).2 with ⟨htop, -⟩ | ⟨newest, older, hold, -, hover⟩
  · rw [htop]
    exact h.cons hr hle
  · rw [hover]
    rw [hold] at h hle
    exact (h.sublist (List.sublist_cons_self newest older)).cons hr fun q hq =>
      hle q (List.mem_cons_of_mem newest hq)

theorem sight_expire (h : Fading t.revisions) (now : Nat) (visible : WriteStamp → Bool) :
    Faded ((t.sight visible).map (·.revision))
      (((t.expire now).2.sight visible).map (·.revision)) := by
  rw [revision_sight, revision_sight]
  exact h.find?_expire t.decreasing now _

/-- When revisions have expired, whatever is looked up, it is what was found before, or nothing, or
an older removal. -/
def OnlyFades (t : Timeline) : Prop := ∀ now asOf found, t.find asOf = .ok found →
  ∃ found', (t.expire now).2.find asOf = .ok found' ∧
  Faded (found.map (·.revision)) (found'.map (·.revision))

theorem onlyFades_of_fading (h : Fading t.revisions) : t.OnlyFades := by
  intro now asOf found hfound
  rw [find] at hfound
  rw [find]
  split
  · exact ⟨none, rfl, .gone⟩
  · next hleft =>
    have hsome : t.isEmpty = false := by
      cases hempty : t.isEmpty with
      | false => rfl
      | true => simp [isEmpty, expire, List.isEmpty_iff.1 hempty] at hleft
    simp only [hsome, Bool.false_eq_true, if_false, bind_eq_ok, pure_eq_ok,
      Except.ok.injEq] at hfound
    obtain ⟨visible, hvisible, rfl⟩ := hfound
    rw [hvisible]
    exact ⟨_, rfl, sight_expire h now visible⟩

/-- Insert revisions one after the other, up to the first one that is refused. -/
def insertAll (t : Timeline) (rs : List Revision) : Except StaleWrite Unit × Timeline :=
  inTurn (fun t r =>
    let (outcome, t) := t.insert r
    (outcome.map fun _ => (), t)) t rs

theorem exists_insertAll_ok (hrs : rs.Pairwise fun older newer => older.position < newer.position)
    (hlt : ∀ q ∈ t.revisions, ∀ r ∈ rs, q.position < r.position) :
    ∃ t', t.insertAll rs = (.ok (), t') ∧ t'.revisions = rs.reverse ++ t.revisions := by
  induction rs generalizing t with
  | nil => exact ⟨t, rfl, rfl⟩
  | cons r rest ih =>
    obtain ⟨hr, hrest⟩ := List.pairwise_cons.1 hrs
    have hbelow := fun q hq => hlt q hq r List.mem_cons_self
    obtain ⟨outcome, t₁, hinsert, -, hrevisions⟩ :=
      t.insert_ok r fun q hq => Std.le_of_lt (hbelow q hq)
    rw [List.filter_eq_self.2 (by simpa using hbelow)] at hrevisions
    obtain ⟨t', ht', hrevisions'⟩ := ih (t := t₁) hrest (by
      rw [hrevisions]
      exact List.forall_mem_cons.2 ⟨hr, fun q hq s hs => hlt q hq s (List.mem_cons_of_mem r hs)⟩)
    refine ⟨t', ?_, ?_⟩
    · exact inTurn_cons.2 ⟨t₁, by rw [hinsert]; rfl, ht'⟩
    · rw [hrevisions', hrevisions, List.reverse_cons, List.append_assoc, List.singleton_append]

end Timeline

/-- A removal leaves no value. -/
def Write.Honest (w : Write) : Prop := w.change.removed = true → w.value = none

theorem Write.honest_ofValue (k : Key) (value : Option Value) (prior : Option Stamp) :
    (ofValue k value prior).Honest :=
  Option.isNone_iff_eq_none.1

/-- What is stored of keys owned elsewhere is fading, and nothing that is stored expires later than
at the limit. -/
structure Store.Fades (s : Store) (owns : Key → Bool) (limit : Nat) : Prop where
  fading : ∀ k, owns k = false → Fading (s.timeline k).revisions
  expires_le : ∀ k, ∀ r ∈ (s.timeline k).revisions, ∀ e ∈ r.expires, e ≤ limit

/-- A put of history that keeps a store fading: of a key owned elsewhere only removals stay. -/
structure Put.Fades (p : Put) (owns : Key → Bool) (limit : Nat) : Prop where
  keeps : p.keepsHistory = true
  removal : owns p.key = false → p.revision.expires = none → p.revision.value = none
  expires_eq : ∀ e ∈ p.revision.expires, e = limit

namespace Store

variable {s s' : Store} {owns : Key → Bool} {limit limit' : Nat} {k : Key}

namespace Fades

theorem mono (h : s.Fades owns limit) (hle : limit ≤ limit') : s.Fades owns limit' :=
  ⟨h.fading, fun k r hr e he => Nat.le_trans (h.expires_le k r hr e he) hle⟩

theorem of_sublist (h : s.Fades owns limit)
    (hsub : ∀ k, List.Sublist (s'.timeline k).revisions (s.timeline k).revisions) :
    s'.Fades owns limit :=
  ⟨fun k hk => (h.fading k hk).sublist (hsub k),
    fun k r hr => h.expires_le k r ((hsub k).subset hr)⟩

theorem collect (h : s.Fades owns limit) (keep : WriteStamp → Bool) :
    (s.collect keep).Fades owns limit := by
  apply h.of_sublist
  intro k
  rw [timeline_collect]
  exact Timeline.throughFirst_sublist keep _

theorem expire (h : s.Fades owns limit) (now : Nat) : (s.expire now).2.Fades owns limit := by
  apply h.of_sublist
  intro k
  rw [timeline_expire]
  split
  · exact List.nil_sublist _
  · exact List.filter_sublist

theorem apply (h : s.Fades owns limit) {p : Put} (hp : p.Fades owns limit)
    (happly : s.apply p = (.ok (), s')) :
    s'.Fades owns limit := by
  obtain ⟨k, r, keeps⟩ := p
  obtain ⟨rfl, hremoval, hexpires⟩ := hp
  obtain ⟨outcome, t, hinsert, rfl⟩ := apply_eq_ok.1 happly
  constructor
  · intro j hj
    rw [timeline_setTimeline]
    split
    · next hkey =>
      subst hkey
      refine Timeline.fading_insert (h.fading j hj) (hremoval hj) ?_ hinsert
      intro q hq e he e' he'
      exact hexpires e' he' ▸ h.expires_le j q hq e he
    · exact h.fading j hj
  · intro j q hq
    rw [timeline_setTimeline] at hq
    split at hq
    · rcases Timeline.mem_of_insert hinsert hq with rfl | hq
      · exact fun e he => Nat.le_of_eq (hexpires e he)
      · exact h.expires_le k q hq
    · exact h.expires_le j q hq

theorem applyAll (h : s.Fades owns limit) {puts : List (Except TxFault (Option Put))}
    (hputs : ∀ p, .ok (some p) ∈ puts → p.Fades owns limit) :
    (s.applyAll puts).2.Fades owns limit := by
  induction puts generalizing s with
  | nil => exact h
  | cons put rest ih =>
    have hrest := fun p hp => hputs p (List.mem_cons_of_mem put hp)
    match put with
    | .error fault => exact h
    | .ok none => exact ih h hrest
    | .ok (some p) =>
      rw [applyAll_cons_some]
      cases happly : s.apply p with | mk outcome s₁ =>
      cases outcome with
      | error stale =>
        obtain rfl : s₁ = s := by simpa [happly] using apply_error (congrArg Prod.fst happly)
        exact h
      | ok _ => exact ih (h.apply (hputs p List.mem_cons_self) happly) hrest

end Fades

theorem sight_expire (h : Fading (s.timeline k).revisions) (now : Nat)
    (visible : WriteStamp → Bool) :
    Faded (((s.timeline k).sight visible).map (·.revision))
      ((((s.expire now).2.timeline k).sight visible).map (·.revision)) := by
  rw [timeline_expire]
  split
  · exact .gone
  · exact Timeline.sight_expire h now visible

/-- If a look-up finds an older removal at most, a snapshot reads the value of the key that it read
before, or none. -/
theorem value_get_of_faded {b : Snapshot}
    (hfaded : Faded (((s.timeline k).sight b.admits).map (·.revision))
      (((s'.timeline k).sight b.admits).map (·.revision))) {ans : Answer}
    (hget : s'.get k (.snapshot b) = .ok ans) :
    ans.value = none ∨ ∃ before, s.get k (.snapshot b) = .ok before ∧ ans.value = before.value := by
  rw [get_snapshot] at hget ⊢
  cases hafter : (s'.timeline k).sight b.admits with
  | none =>
    rw [hafter] at hget
    dsimp only at hget
    split at hget
    · cases hget
    · cases hget
      exact .inl rfl
  | some found =>
    rw [hafter] at hget hfaded
    cases hget
    refine hfaded.removed_or_same.imp_right fun hsame => ?_
    obtain ⟨before, hbefore, hrevision⟩ := Option.map_eq_some_iff.1 hsame
    rw [hbefore]
    exact ⟨_, rfl, congrArg Revision.value hrevision.symm⟩

end Store

namespace Member

variable {m : Member}

/-- What a write is stored as: a copy that expires, or for good, which of a key owned elsewhere only
a removal is. -/
theorem fades_putOf (hkeeps : m.settings.keepsHistory = true) (hrule : m.rule = .multiversion)
    {now : Nat} {c : Commit} {sub : Int32} {w : Write} (hw : w.Honest) {p : Put}
    (h : m.putOf now c sub w = .ok (some p)) :
    p.Fades m.owns (m.settings.shadowLifespan.after now) := by
  simp only [putOf, hrule, Scheme.decide, Scheme.stampFor, ok_bind, pure_eq_ok, mapError_ok, hkeeps]
    at h
  split at h
  · cases h
  · next happlied =>
    rw [bind_eq_ok] at h
    obtain ⟨stamp, -, h⟩ := h
    cases h
    refine ⟨rfl, ?_, ?_⟩
    · intro hnot hstays
      apply hw
      -- A copy expires, so the write is one that the member applies as an owner would.
      have hcopy : Disposition.of m.settings.shadowCopies m.owns w.change ≠ .shadowCopy := by
        intro hcopy
        simp [hcopy] at hstays
      cases hremoved : w.change.removed with
      | true => rfl
      | false =>
        have hof : Disposition.of m.settings.shadowCopies m.owns w.change =
            if m.settings.shadowCopies then .shadowCopy else .rollback := by
          simp [Disposition.of, hremoved, show m.owns w.change.key = false from hnot]
        rw [hof] at happlied hcopy
        split at hcopy
        · exact absurd rfl hcopy
        · next hshadow => simp [hshadow, Disposition.isApplied] at happlied
    · intro e he
      dsimp only at he
      split at he
      · exact (Option.mem_some.1 he).symm
      · cases he

theorem store_applyBatch (m : Member) (now : Nat) (batch : List Commit) :
    ∃ commits : List (Commit × Int32),
    (∀ c ∈ commits, c.1 ∈ batch) ∧
    (m.applyBatch now batch).2.store = (m.store.applyAll (m.putsOf now commits)).2 := by
  cases hkeeps : m.settings.keepsHistory with
  | false =>
    rw [applyBatch_of_not_keeps hkeeps]
    exact ⟨batch.map (·, 0), by simp, rfl⟩
  | true =>
    cases hes : m.checkedEntries batch with
    | error fault =>
      rw [applyBatch_refused hkeeps now hes]
      exact ⟨[], by simp, rfl⟩
    | ok es =>
      rw [applyBatch_checked hkeeps now hes, store_takeAll]
      exact ⟨batch.zip (es.map (·.sub)), fun c hc => (List.of_mem_zip hc).1, rfl⟩

theorem read_expire {k : Key} {now : Nat}
    (hfaded : ∀ visible, Faded
      (((m.store.timeline k).sight visible).map (·.revision))
      ((((m.store.expire now).2.timeline k).sight visible).map (·.revision))) {tx : Stamp}
    {readFrom : OrderedSet Nat} {ans : Answer}
    (hread : (m.expire now).2.read k tx readFrom = .ok ans) :
    ans.value = none ∨ ∃ before, m.read k tx readFrom = .ok before ∧ ans.value = before.value := by
  have hbound : (m.expire now).2.readBound tx readFrom = m.readBound tx readFrom := rfl
  have henabled : (m.expire now).2.checkEnabled = m.checkEnabled := rfl
  simp only [read, hbound, henabled, bind_eq_ok, pure_eq_ok, Except.ok.injEq] at hread
  obtain ⟨_, henabled, b, hb, found, hfound, rfl⟩ := hread
  refine (Store.value_get_of_faded (hfaded b.admits) hfound).imp_right ?_
  rintro ⟨before, hbefore, hvalue⟩
  exact ⟨before.withTxBound (.snapshot b),
    by rw [read, henabled, ok_bind, hb, ok_bind, hbefore]; rfl, hvalue⟩

end Member

theorem Duration.after_mono (d : Duration) {now now' : Nat} (h : now ≤ now') :
    d.after now ≤ d.after now' := by
  unfold after
  omega

/-- The removals of an event leave no value. -/
def Event.Honest : Event → Prop
  | .apply _ batch => ∀ c ∈ batch, ∀ w ∈ c.writes, w.Honest
  | _ => True

/-- The time at which an event stores commits. -/
def Event.time? : Event → Option Nat
  | .apply now _ => some now
  | .applyOne now _ _ _ => some now
  | _ => none

namespace Session

variable {s : Session} {seed : Entry} {rs : List Record} {limit : Nat}

theorem fades_absorb (h : s.Sound seed rs) (hfades : s.member.store.Fades s.member.owns limit)
    {now : Nat} (hlimit : limit ≤ s.member.settings.shadowLifespan.after now) {batch : List Commit}
    (hhonest : ∀ c ∈ batch, ∀ w ∈ c.writes, w.Honest) :
    (s.absorb batch (s.member.applyBatch now batch)).member.store.Fades s.member.owns
      (s.member.settings.shadowLifespan.after now) := by
  obtain ⟨commits, hcommits, hstore⟩ := s.member.store_applyBatch now batch
  rw [member_absorb, hstore]
  refine (hfades.mono hlimit).applyAll fun p hp => ?_
  obtain ⟨⟨c, sub⟩, hc, hp⟩ := List.mem_flatMap.1 hp
  obtain ⟨w, hw, hput⟩ := List.mem_map.1 hp
  exact Member.fades_putOf h.faithful.keeps h.faithful.rule (hhonest c (hcommits _ hc) w hw) hput

theorem fades_collect (hfades : s.member.store.Fades s.member.owns limit) (cutoff : Stamp) :
    (s.step (.collect cutoff)).member.store.Fades s.member.owns limit := by
  rcases collect_cases s cutoff with heq | ⟨n, m', hgc, heq⟩ <;> rw [heq]
  · exact hfades
  · obtain ⟨bound, _, _, -, -, rfl, -⟩ := Member.gc_ok hgc
    exact hfades.collect bound.admits

/-- An event keeps what is stored fading, unless the clock has gone back. -/
theorem fades_step (h : s.Sound seed rs) (hfades : s.member.store.Fades s.member.owns limit)
    {event : Event} (hhonest : event.Honest)
    (hlimit : ∀ now ∈ event.time?, limit ≤ s.member.settings.shadowLifespan.after now) :
    (s.step event).member.store.Fades s.member.owns
      ((event.time?.map s.member.settings.shadowLifespan.after).getD limit) := by
  cases event with
  | apply now batch => exact fades_absorb h hfades (hlimit now rfl) hhonest
  | applyOne now k value agreed =>
    refine fades_absorb h hfades (hlimit now rfl) ?_
    simp only [List.forall_mem_singleton]
    exact Write.honest_ofValue k value _
  | collect cutoff => exact fades_collect hfades cutoff
  | collectBefore value =>
    show (s.step (.collectBefore value)).member.store.Fades s.member.owns limit
    rcases collectBefore_cases s value with heq | ⟨cutoff, heq⟩ <;> rw [heq]
    · exact hfades
    · exact fades_collect hfades cutoff
  | expire now => exact hfades.expire now
  | begin =>
    rw [step]
    split
    · next hbegin =>
      obtain ⟨_, -, -, -, -, rfl⟩ := Member.begin_ok hbegin
      exact hfades
    · exact hfades
  | _ => exact hfades

theorem fades_run (h : s.Sound seed rs) (hfades : s.member.store.Fades s.member.owns limit)
    {events : List Event} (hhonest : ∀ event ∈ events, event.Honest)
    (hclock : (events.filterMap Event.time?).Pairwise (· ≤ ·))
    (hlimit : ∀ now ∈ events.filterMap Event.time?, limit ≤
      s.member.settings.shadowLifespan.after now) :
    ∃ limit', (s.run events).member.store.Fades s.member.owns limit' := by
  induction events generalizing s rs limit with
  | nil => exact ⟨limit, hfades⟩
  | cons event rest ih =>
    obtain ⟨rs', h'⟩ := h.step event
    obtain ⟨hevent, hrest⟩ := List.forall_mem_cons.1 hhonest
    obtain ⟨hsettings, howns, -⟩ := frame_step s event
    rw [← howns]
    cases htime : event.time? with
    | none =>
      rw [List.filterMap_cons_none htime] at hclock hlimit
      have hstep := fades_step h hfades hevent (by simp [htime])
      rw [htime, ← howns] at hstep
      exact ih h' hstep hrest hclock (by rwa [hsettings])
    | some now =>
      rw [List.filterMap_cons_some htime] at hclock hlimit
      obtain ⟨hfirst, hclock⟩ := List.pairwise_cons.1 hclock
      have hstep := fades_step h hfades hevent
        (by simpa [htime] using hlimit now List.mem_cons_self)
      rw [htime, ← howns] at hstep
      refine ih h' hstep hrest hclock ?_
      intro later hlater
      rw [hsettings]
      exact s.member.settings.shadowLifespan.after_mono (hfirst later hlater)

theorem Sound.timeline_expire (h : s.Sound seed rs) {k : Key} (hk : s.member.owns k = true)
    (now : Nat) :
    (s.member.store.expire now).2.timeline k = s.member.store.timeline k := by
  rw [Store.timeline_expire]
  refine (h.faithful.kept k hk).expire_eq now ?_
  intro v hv
  obtain ⟨r, -, hr⟩ := mem_revisionsOf.1 hv
  exact (Record.stamp_revision hr).2

/-- Insert revisions of a key owned elsewhere into its timeline, in order, with a clock that does
not go back. When some have expired, a look-up finds what it found before, or nothing, or an older
removal, which stays for good; it never finds an older value. That holds of every timeline that a
run of a member makes of a key that it does not own, if the clock does not go back there either. So
a read of any key gets the value that it got before, or none. -/
theorem expiry_restores_nothing :
    (∀ rs : List Revision, (rs.Pairwise fun older newer => older.position < newer.position) →
      (rs.filterMap (·.expires)).Pairwise (· ≤ ·) → (∀ r ∈ rs, r.expires = none → r.value = none) →
      ∃ t, Timeline.empty.insertAll rs = (.ok (), t) ∧ t.OnlyFades) ∧
    ∀ (settings : Settings), settings.keepsHistory = true →
    ∀ address view owns (events : List Event),
      (∀ event ∈ events, event.Honest) → (events.filterMap Event.time?).Pairwise (· ≤ ·) →
      ∀ s, s = (start settings address view owns).run events → ∀ k,
        (owns k = false → (s.member.store.timeline k).OnlyFades) ∧
        ∀ now tx readFrom ans, (s.member.expire now).2.read k tx readFrom = .ok ans →
          ans.value = none ∨ ∃ before, s.member.read k tx readFrom = .ok before ∧
            ans.value = before.value := by
  constructor
  · intro rs hincreasing hexpires hremoval
    obtain ⟨t, ht, hrevisions⟩ :=
      Timeline.exists_insertAll_ok (t := .empty) hincreasing (by simp [Timeline.empty])
    refine ⟨t, ht, Timeline.onlyFades_of_fading ?_⟩
    rw [hrevisions, Timeline.empty, List.append_nil]
    refine ⟨fun r hr => hremoval r (List.mem_reverse.1 hr), List.pairwise_reverse.2 ?_⟩
    exact List.pairwise_filterMap.1 hexpires
  · intro settings hkeeps address view owns events hhonest hclock s hs k
    have hstart : (start settings address view owns).member.store.Fades owns 0 :=
      ⟨fun k _ => .nil, fun k r hr => absurd hr List.not_mem_nil⟩
    obtain ⟨rs, hsound⟩ := Sound.run_start hkeeps address view owns events
    obtain ⟨limit, hfades⟩ :=
      fades_run (.start hkeeps address view owns) hstart hhonest hclock (by simp)
    have howns : s.member.owns = owns := by rw [hs, (frame_run _ events).owns_eq]; rfl
    rw [← hs] at hsound hfades
    refine ⟨fun hk => Timeline.onlyFades_of_fading (hfades.fading k hk), ?_⟩
    intro now tx readFrom ans hread
    refine Member.read_expire (fun visible => ?_) hread
    cases hk : owns k with
    | false => exact Store.sight_expire (hfades.fading k hk) now visible
    | true =>
      rw [hsound.timeline_expire (howns ▸ hk) now]
      exact .same

/-- A key is written, removed, and written again. Once the copies have expired the removal is found,
which is older than what was found before, and newer than the first value. -/
theorem expiry_restores_nothing_removed : ∃ (t : Timeline) (found : Option Sighting) (s : Session)
    (before after : Answer),
    Timeline.empty.insertAll [⟨⟨1, 1, 0⟩, some "x", some 5⟩, ⟨⟨1, 2, 0⟩, none, none⟩,
      ⟨⟨1, 3, 0⟩, some "y", some 9⟩] =
        (.ok (), t) ∧
    (t.expire 9).2.find (.snapshot { view := 1, value := 3 }) = .ok found ∧
    Faded (some ⟨⟨1, 3, 0⟩, some "y", some 9⟩) (found.map (·.revision)) ∧
    s = (start { shadowCopies := true } "a" ⟨1, ["a", "b"]⟩ fun _ => false).run
      [.applyOne 5 "k" (some "x") (.commit ⟨.replicated, 1, 1⟩),
        .applyOne 6 "k" none (.commit ⟨.replicated, 1, 2⟩),
        .applyOne 9 "k" (some "y") (.commit ⟨.replicated, 1, 3⟩)] ∧
    s.member.read "k" .absent .empty = .ok before ∧ before.value = some "y" ∧
    (s.member.expire 700000).2.read "k" .absent .empty = .ok after ∧
    (after.value = none ∨ after.value = some "y") := by
  obtain ⟨s, before, after, hs, hbefore, hvalue, hafter⟩ : ∃ (s : Session) (before after : Answer),
      s = (start { shadowCopies := true } "a" ⟨1, ["a", "b"]⟩ fun _ => false).run
        [.applyOne 5 "k" (some "x") (.commit ⟨.replicated, 1, 1⟩),
          .applyOne 6 "k" none (.commit ⟨.replicated, 1, 2⟩),
          .applyOne 9 "k" (some "y") (.commit ⟨.replicated, 1, 3⟩)] ∧
      s.member.read "k" .absent .empty = .ok before ∧ before.value = some "y" ∧
      (s.member.expire 700000).2.read "k" .absent .empty = .ok after :=
    ⟨_, _, _, rfl, rfl, rfl, rfl⟩
  obtain ⟨t, ht, hfades⟩ := expiry_restores_nothing.1
    [⟨⟨1, 1, 0⟩, some "x", some 5⟩, ⟨⟨1, 2, 0⟩, none, none⟩, ⟨⟨1, 3, 0⟩, some "y", some 9⟩]
    (by decide) (by decide) (by decide)
  have hreads :=
    expiry_restores_nothing.2 { shadowCopies := true } rfl "a" ⟨1, ["a", "b"]⟩ (fun _ => false) _
    (by simp [Event.Honest]) (by decide) s hs "k"
  have hfound : t.find (.snapshot { view := 1, value := 3 }) =
    .ok (some ⟨⟨⟨1, 3, 0⟩, some "y", some 9⟩, none⟩) := by
    cases ht
    rfl
  obtain ⟨found, hfound, hfaded⟩ := hfades 9 _ _ hfound
  refine ⟨t, found, s, before, after, ht, hfound, hfaded, hs, hbefore, hvalue, hafter, ?_⟩
  refine (hreads.2 700000 _ _ _ hafter).imp_right ?_
  rintro ⟨before', hbefore', hsame⟩
  obtain rfl := Except.ok.inj (hbefore'.symm.trans hbefore)
  exact hsame.trans hvalue

/-- What is found after expiry may be older than what was found before: a key that was removed
before its copy was written reads as removed when the copy has expired. -/
theorem expiry_uncovers_removal :
    ∃ (s : Session) (t : Timeline) (b : Snapshot) (written removed : Revision),
    s = (start { shadowCopies := true } "a" ⟨1, ["a", "b"]⟩ fun _ => false).run
      [.applyOne 0 "k" none (.commit ⟨.replicated, 1, 1⟩),
        .applyOne 0 "k" (some "y") (.commit ⟨.replicated, 1, 2⟩)] ∧
    t = s.member.store.timeline "k" ∧ b = { view := 1, value := 2 } ∧
    written = ⟨⟨1, 2, 0⟩, some "y", some 600000⟩ ∧
    removed = ⟨⟨1, 1, 0⟩, none, none⟩ ∧ t.revisions = [written, removed] ∧
    removed.position < written.position ∧
    t.find (.snapshot b) = .ok (some ⟨written, none⟩) ∧
    (t.expire 600000).2.find (.snapshot b) = .ok (some ⟨removed, none⟩) := by
  refine ⟨_, _, { view := 1, value := 2 }, ⟨⟨1, 2, 0⟩, some "y", some 600000⟩,
    ⟨⟨1, 1, 0⟩, none, none⟩, rfl, rfl, rfl, rfl, rfl, by decide +kernel, by decide, ?_, ?_⟩
  · rw [Timeline.find_snapshot]
    exact congrArg Except.ok (by decide +kernel)
  · rw [Timeline.find_snapshot]
    exact congrArg Except.ok (by decide +kernel)

end Session
end Multiversion
