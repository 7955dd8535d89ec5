import Multiversion.Proofs.Chronology
/- The views that a member knows, over any sequence of changes.

   Views are learnt in any order, again and again, and old ones are forgotten (`ViewTable.Change`).
   Learning a view changes nothing but the view of its id, and forgetting drops the views below a
   least id, but never the current one. So whatever the order, the current view is the last one
   learnt with the greatest id of all (`ViewTable.Newest.run`): it only moves forward, and no known
   view is later. That is why a stamp can be moved to the current view and stays at or after what it
   was (`Issuer.views_move_forward`). -/
namespace Multiversion

namespace ViewTable

variable {t : ViewTable} {id : Nat} {v : View} {e : Nat × List Address}

theorem get_of_mem (h : e ∈ t.known.entries) : t.get e.1 = .ok ⟨e.1, e.2⟩ := by
  rw [get, OrderedMap.get?_eq_some_iff.2 h]

theorem knows_of_mem (h : e ∈ t.known.entries) : t.knows e.1 = true := by
  rw [knows, OrderedMap.contains, OrderedMap.get?_eq_some_iff.2 h]
  rfl

theorem knows_oldestId (t : ViewTable) : t.knows t.oldestId = true :=
  knows_of_mem (List.head_mem t.nonempty)

theorem knows_currentId (t : ViewTable) : t.knows t.currentId = true :=
  knows_of_mem (List.getLast_mem t.nonempty)

theorem get_currentId (t : ViewTable) : t.get t.currentId = .ok t.current :=
  get_of_mem (List.getLast_mem t.nonempty)

theorem get_add (t : ViewTable) (v : View) (id : Nat) :
    (t.add v).get id = if id = v.id then .ok v else t.get id := by
  rw [get, get, add, OrderedMap.get?_insert]
  by_cases h : id = v.id
  · subst h
    rw [if_pos rfl, if_pos rfl]
  · rw [if_neg h, if_neg h]

theorem get_forget (t : ViewTable) (least id : Nat) :
    (t.forget least).get id = if t.keepFrom least ≤ id then
      t.get id else .error (.unknownView id) := by
  rw [get, get, forget, OrderedMap.get?_filter]
  cases t.known.get? id with
  | none => exact (ite_self _).symm
  | some members => by_cases h : t.keepFrom least ≤ id <;> simp [Option.filter, h]

theorem knows_add_iff : (t.add v).knows id = true ↔ id = v.id ∨ t.knows id = true := by
  simp only [knows, add, OrderedMap.contains, OrderedMap.get?_insert]
  by_cases h : id = v.id <;> simp [h]

theorem knows_add (v : View) (h : t.knows id = true) : (t.add v).knows id = true :=
  knows_add_iff.2 (.inr h)

theorem knows_forget (least : Nat) :
    (t.forget least).knows id = true ↔ t.knows id = true ∧ (least ≤ id ∨ t.currentId ≤ id) := by
  have hkeep : t.keepFrom least ≤ id ↔ least ≤ id ∨ t.currentId ≤ id := by
    rw [keepFrom]
    omega
  simp only [knows, forget, OrderedMap.contains, OrderedMap.get?_filter, ← hkeep]
  cases t.known.get? id <;> simp

theorem le_currentId (h : t.knows id = true) : id ≤ t.currentId := by
  obtain ⟨members, hget⟩ := Option.isSome_iff_exists.1 h
  have hmem := OrderedMap.get?_eq_some_iff.1 hget
  have hincreasing := t.known.increasing
  rw [← List.dropLast_concat_getLast t.nonempty] at hmem hincreasing
  rcases List.mem_append.1 hmem with hmem | hmem
  · exact Nat.le_of_lt ((List.pairwise_append.1 hincreasing).2.2 _ hmem _ List.mem_cons_self)
  · exact Nat.le_of_eq (congrArg Prod.fst (List.mem_singleton.1 hmem))

theorem currentId_eq (h : t.knows id = true) (hle : ∀ other, t.knows other = true → other ≤ id) :
    t.currentId = id :=
  Nat.le_antisymm (hle _ (knows_currentId t)) (le_currentId h)

theorem current_eq (h : t.get t.currentId = .ok v) : t.current = v :=
  Except.ok.inj ((get_currentId t).symm.trans h)

@[simp] theorem currentId_forget (t : ViewTable) (least : Nat) :
    (t.forget least).currentId = t.currentId :=
  currentId_eq ((knows_forget least).2 ⟨knows_currentId t, .inr (Nat.le_refl _)⟩)
    fun _ hother => le_currentId ((knows_forget least).1 hother).1

theorem current_forget (t : ViewTable) (least : Nat) : (t.forget least).current = t.current := by
  apply current_eq
  have hkept : t.keepFrom least ≤ t.currentId := Nat.min_le_right _ _
  rw [currentId_forget, get_forget, if_pos hkept, get_currentId]

theorem currentId_add (t : ViewTable) (v : View) : (t.add v).currentId = max t.currentId v.id := by
  refine currentId_eq (knows_add_iff.2 ?_) fun other hother => ?_
  · rcases Nat.le_total t.currentId v.id with hle | hle
    · exact .inl (Nat.max_eq_right hle)
    · exact .inr ((Nat.max_eq_left hle).symm ▸ knows_currentId t)
  · rcases knows_add_iff.1 hother with rfl | hother
    · exact Nat.le_max_right _ _
    · exact Nat.le_trans (le_currentId hother) (Nat.le_max_left _ _)

theorem currentId_le_add (t : ViewTable) (v : View) : t.currentId ≤ (t.add v).currentId :=
  currentId_add t v ▸ Nat.le_max_left _ _

theorem current_add (t : ViewTable) (v : View) :
    (t.add v).current = if t.currentId ≤ v.id then v else t.current := by
  apply current_eq
  rw [currentId_add, get_add]
  by_cases h : t.currentId ≤ v.id
  · rw [if_pos h, Nat.max_eq_right h, if_pos rfl]
  · have hlt : v.id < t.currentId := Nat.lt_of_not_le h
    rw [if_neg h, Nat.max_eq_left (Nat.le_of_lt hlt), if_neg (Nat.ne_of_gt hlt), get_currentId]

theorem getLast?_ids (t : ViewTable) : t.ids.getLast? = some t.currentId := by
  rw [ids, OrderedMap.keys, List.getLast?_map, List.getLast?_eq_some_getLast t.nonempty]
  rfl

theorem ids_forget (t : ViewTable) (least : Nat) :
    (t.forget least).ids = t.ids.filter fun id => t.keepFrom least ≤ id := by
  rw [ids, ids, OrderedMap.keys, OrderedMap.keys, List.filter_map]
  rfl

theorem forgotten_eq (t : ViewTable) (least : Nat) :
    t.forgotten least = t.ids.countP (· < t.keepFrom least) := by
  rw [forgotten, OrderedMap.size, OrderedMap.filter, ← List.countP_eq_length_filter, ids,
    OrderedMap.keys, List.countP_map]
  rfl

theorem forgotten_add (t : ViewTable) (least : Nat) :
    t.forgotten least + (t.forget least).ids.length = t.ids.length := by
  rw [forgotten_eq, ids_forget, ← List.countP_eq_length_filter,
    List.length_eq_countP_add_countP fun id => decide (id < t.keepFrom least)]
  simp only [decide_eq_true_eq, Nat.not_lt]

/-- What can happen to the known views. -/
inductive Change
  | learn (v : View)
  | forget (least : Nat)

def step (t : ViewTable) : Change → ViewTable
  | .learn v => t.add v
  | .forget least => t.forget least

def run (t : ViewTable) (changes : List Change) : ViewTable := changes.foldl step t

/-- The views that are learnt, one after the other. -/
def learnt : List Change → List View
  | [] => []
  | .learn v :: rest => v :: learnt rest
  | .forget _ :: rest => learnt rest

theorem currentId_le_run (t : ViewTable) (changes : List Change) :
    t.currentId ≤ (t.run changes).currentId := by
  induction changes generalizing t with
  | nil => exact Nat.le_refl _
  | cons change rest ih =>
    refine Nat.le_trans ?_ (ih (t.step change))
    cases change with
    | learn v => exact currentId_le_add t v
    | forget least => exact Nat.le_of_eq (currentId_forget t least).symm

/-- Of views that are learnt one after the other, the last one with the greatest id. -/
structure Newest (views : List View) (v : View) : Prop where
  id_le : ∀ w ∈ views, w.id ≤ v.id
  last : (views.filter fun w => w.id = v.id).getLast? = some v

namespace Newest

variable {views : List View}

theorem singleton (v : View) : Newest [v] v where
  id_le w hw := Nat.le_of_eq (congrArg View.id (List.mem_singleton.1 hw))
  last := by simp

theorem concat (h : Newest views v) (w : View) :
    Newest (views ++ [w]) (if v.id ≤ w.id then w else v) := by
  split
  · next hle =>
    refine ⟨fun u hu => ?_, by simp⟩
    rcases List.mem_append.1 hu with hu | hu
    · exact Nat.le_trans (h.id_le u hu) hle
    · exact Nat.le_of_eq (congrArg View.id (List.mem_singleton.1 hu))
  · next hlower =>
    have hlt : w.id < v.id := Nat.lt_of_not_le hlower
    refine ⟨fun u hu => ?_, ?_⟩
    · rcases List.mem_append.1 hu with hu | hu
      · exact h.id_le u hu
      · exact Nat.le_of_lt (List.mem_singleton.1 hu ▸ hlt)
    · simp [Nat.ne_of_lt hlt, h.last]

/-- The current view stays the newest of all that were ever learnt. -/
theorem run (h : Newest views t.current) (changes : List Change) :
    Newest (views ++ learnt changes) (t.run changes).current := by
  induction changes generalizing t views with
  | nil => rwa [learnt, List.append_nil]
  | cons change rest ih =>
    cases change with
    | learn v =>
      have hstep := h.concat v
      rw [← currentId, ← current_add] at hstep
      rw [learnt, List.append_cons]
      exact ih hstep
    | forget least =>
      rw [← current_forget t least] at h
      exact ih h

theorem max?_id (h : Newest views v) : (views.map View.id).max? = some v.id := by
  have hmem : v ∈ views := (List.mem_filter.1 (List.mem_of_getLast? h.last)).1
  exact List.max?_eq_some_iff.2 ⟨List.mem_map_of_mem hmem, fun _ hid => by
    obtain ⟨w, hw, rfl⟩ := List.mem_map.1 hid
    exact h.id_le w hw⟩

end Newest

end ViewTable

namespace Issuer

variable {i : Issuer} {base v : Stamp} {r : Rank}

/-- The same point in history in a view; a commit is stamped the way the issuer stamps it. -/
def inView (i : Issuer) (view : Nat) : Stamp → Stamp
  | .absent => .absent
  | .write w => .write { w with view }
  | .snapshot s => .snapshot { s with view }
  | .commit c => .commit (i.stamp view c.value)

theorem restamp_eq (h : base.rank? = some r) :
    i.restamp base =
      (do i.views.check r.view; return i.inView (max r.view i.currentView) base) := by
  cases base with
  | absent => cases h
  | write w =>
    cases h
    dsimp only [restamp]
    cases i.views.check w.view <;> rfl
  | snapshot s =>
    cases h
    dsimp only [restamp]
    cases i.views.check s.view <;> rfl
  | commit c =>
    cases h
    dsimp only [restamp, CommitStamp.rank]
    cases i.views.check c.view <;> rfl

theorem restamp_eq_ok_iff (h : base.rank? = some r) :
    i.restamp base = .ok v ↔ i.views.knows r.view = true ∧ v = i.inView i.currentView base := by
  have hmax (hknown : i.views.knows r.view = true) : max r.view i.currentView = i.currentView :=
    Nat.max_eq_right (ViewTable.le_currentId hknown)
  rw [restamp_eq h, bind_eq_ok]
  constructor
  · rintro ⟨_, hcheck, hv⟩
    have hknown := check_eq_ok.1 hcheck
    rw [hmax hknown] at hv
    exact ⟨hknown, (Except.ok.inj hv).symm⟩
  · rintro ⟨hknown, rfl⟩
    exact ⟨(), check_eq_ok.2 hknown, by rw [hmax hknown]; rfl⟩

theorem restamp_commit {c : CommitStamp} : i.restamp (.commit c) = .ok v ↔
    i.views.knows c.view = true ∧ v = .commit (i.stamp i.currentView c.value) :=
  restamp_eq_ok_iff (r := c.rank) rfl

theorem rank_le_stamp {c : CommitStamp} (hknown : i.views.knows c.view = true) :
    c.rank ≤ (i.stamp i.currentView c.value).rank :=
  Rank.le_iff.2 (.inr ⟨rfl, ViewTable.le_currentId hknown⟩)

/-- Let a member learn and forget views in any sequence, starting from one view. It always knows
some view, and the greatest id that it knows is that of the current view. This is the greatest id of
all views that it ever learnt, whatever happens from then on does not lower it, and the current
view, which it finds, is the last one that it learnt with that id. To learn a view sets the view of
its id and leaves all others. To forget the views below an id keeps exactly those from there on, or
from the current one on if that is lower, and tells how many it dropped. A stamp can be moved to the
current view exactly if its own view is known; of a write and of a snapshot only the view changes,
and a commit with its value comes to lie at or after where it was. -/
theorem views_move_forward (first : View) (changes : List ViewTable.Change) (i : Issuer)
    (hi : i.views = (ViewTable.single first).run changes) :
    i.views.ids.getLast? = some i.currentView ∧
    ((first :: ViewTable.learnt changes).map View.id).max? = some i.currentView ∧
    (∀ more, i.currentView ≤ (i.views.run more).currentId) ∧
    i.views.get i.currentView = .ok i.views.current ∧
    ((first :: ViewTable.learnt changes).filter fun v => v.id = i.currentView).getLast? =
      some i.views.current ∧
    (∀ v id, (i.views.add v).get id = if id = v.id then .ok v else i.views.get id) ∧
    (∀ least id, (i.views.forget least).get id =
      if min least i.currentView ≤ id then i.views.get id else .error (.unknownView id)) ∧
    (∀ least, i.views.forgotten least = i.views.ids.countP (· < min least i.currentView) ∧
      i.views.forgotten least + (i.views.forget least).ids.length = i.views.ids.length) ∧
    (∀ w v, i.restamp (.write w) = .ok v ↔
      i.views.knows w.view = true ∧ v = .write { w with view := i.currentView }) ∧
    (∀ s v, i.restamp (.snapshot s) = .ok v ↔
      i.views.knows s.view = true ∧ v = .snapshot { s with view := i.currentView }) ∧
    ∀ c v, i.restamp (.commit c) = .ok v ↔
      i.views.knows c.view = true ∧ v = .commit (i.stamp i.currentView c.value) ∧
      v.atOrAfter (.commit c) = .ok true := by
  have hnewest : ViewTable.Newest (first :: ViewTable.learnt changes) i.views.current := by
    rw [hi]
    exact ViewTable.Newest.run (t := .single first) (.singleton first) changes
  refine ⟨ViewTable.getLast?_ids _, hnewest.max?_id, ViewTable.currentId_le_run _,
    ViewTable.get_currentId _, hnewest.last, ViewTable.get_add _, ViewTable.get_forget _,
    fun least => ⟨ViewTable.forgotten_eq _ least, ViewTable.forgotten_add _ least⟩,
    fun w v => restamp_eq_ok_iff (r := ⟨w.value, w.view⟩) rfl,
    fun s v => restamp_eq_ok_iff (r := ⟨s.value, s.view⟩) rfl, fun c v => ?_⟩
  rw [restamp_commit]
  refine and_congr_right fun hknown => (and_iff_left_of_imp ?_).symm
  rintro rfl
  rw [Stamp.atOrAfter_commit, decide_eq_true (rank_le_stamp hknown)]

/-- A view is learnt late, below one that is known, and goes with the first one; the first id comes
back with another member, and the greatest one in another order. Forgetting everything below 9 would
leave that one. -/
theorem views_move_forward_late :
    ∃ (i : Issuer) (first : View) (changes : List ViewTable.Change) (s : Snapshot)
      (c : CommitStamp),
      first = ⟨2, ["a"]⟩ ∧ changes = [.learn ⟨5, ["a", "b"]⟩, .learn ⟨3, ["b"]⟩, .forget 4,
        .learn ⟨2, ["c"]⟩, .learn ⟨5, ["b", "a"]⟩] ∧
      i = ⟨.replicated, (ViewTable.single first).run changes⟩ ∧ i.views.ids = [2, 5] ∧
      ((first :: ViewTable.learnt changes).map View.id).max? = some i.currentView ∧
      i.currentView = 5 ∧
      i.views.get 5 = .ok ⟨5, ["b", "a"]⟩ ∧
      (∀ more, 5 ≤ (i.views.run more).currentId) ∧
      (i.views.forget 9).get 2 = .error (.unknownView 2) ∧ i.views.forgotten 9 = 1 ∧
      s = ⟨2, 7, some 1, .ofList [⟨6, 0⟩]⟩ ∧
      i.restamp (.snapshot s) = .ok (.snapshot { s with view := 5 }) ∧
      c = ⟨.distributed, 2, 7⟩ ∧ i.restamp (.commit c) = .ok (.commit ⟨.replicated, 5, 7⟩) ∧
      (Stamp.commit ⟨.replicated, 5, 7⟩).atOrAfter (.commit c) = .ok true := by
  obtain ⟨i, first, changes, hi, hfirst, hchanges, hids, hcurrent, hview⟩ :
      ∃ (i : Issuer) (first : View) (changes : List ViewTable.Change),
        i = ⟨.replicated, (ViewTable.single first).run changes⟩ ∧ first = ⟨2, ["a"]⟩ ∧
        changes = [.learn ⟨5, ["a", "b"]⟩, .learn ⟨3, ["b"]⟩, .forget 4, .learn ⟨2, ["c"]⟩,
          .learn ⟨5, ["b", "a"]⟩] ∧
        i.views.ids = [2, 5] ∧ i.currentView = 5 ∧ i.views.current = ⟨5, ["b", "a"]⟩ :=
    ⟨_, _, _, rfl, rfl, rfl, by decide, by decide, by decide⟩
  have hviews : i.views = (ViewTable.single first).run changes := by rw [hi]
  obtain ⟨-, hmax, hmore, hget, -, -, hforget, hforgotten, -, hsnapshot, hcommit⟩ :=
    views_move_forward first changes i hviews
  have hknown : i.views.knows 2 = true := by
    rw [hviews, hfirst, hchanges]
    decide
  rw [hcurrent] at hmore hget hforget hforgotten hsnapshot hcommit
  rw [hview] at hget
  have hdropped : i.views.forgotten 9 = 1 := by
    rw [(hforgotten 9).1, hids]
    rfl
  have hmoved : i.restamp (.commit ⟨.distributed, 2, 7⟩) = .ok (.commit ⟨.replicated, 5, 7⟩) := by
    rw [hi, hfirst, hchanges]
    rfl
  obtain ⟨-, -, hlater⟩ := (hcommit _ _).1 hmoved
  exact ⟨i, first, changes, _, _, hfirst, hchanges, hi, hids, hmax, hcurrent, hget, hmore,
    (hforget 9 2).trans rfl, hdropped, rfl, (hsnapshot _ _).2 ⟨hknown, rfl⟩, rfl, hmoved, hlater⟩

end Issuer
end Multiversion
