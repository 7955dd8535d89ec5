import Multiversion.View.Basic
/- The places of the members of a view.

   A view is made of a list of addresses, one after the other. Each of them is either listed already
   and changes nothing (`FirstOccurrences.again`), or occurs for the first time and comes last
   (`FirstOccurrences.first`). So the members are the addresses of the list, each once, in the order
   of their first occurrences, and as no member is listed twice, a member and its place determine
   each other (`member_places`). -/
namespace Multiversion.View

variable {l known : List Address} {v : View} {m : Address} {i : Nat}

/-- The members that come from a list: what occurs in it, in the order of the first occurrences. -/
structure FirstOccurrences (l known : List Address) : Prop where
  mem_iff : ∀ m, m ∈ known ↔ m ∈ l
  ordered : known.Pairwise fun a b => l.idxOf a < l.idxOf b

namespace FirstOccurrences

theorem nil : FirstOccurrences [] [] := ⟨fun _ => Iff.rfl, .nil⟩

theorem ordered_append (h : FirstOccurrences l known) (rest : List Address) :
    known.Pairwise fun a b => (l ++ rest).idxOf a < (l ++ rest).idxOf b := by
  refine h.ordered.imp_of_mem fun ha hb hlt => ?_
  rwa [List.idxOf_append, List.idxOf_append, if_pos ((h.mem_iff _).1 ha),
    if_pos ((h.mem_iff _).1 hb)]

/-- An address that is listed already changes nothing. -/
theorem again (h : FirstOccurrences l known) (hm : m ∈ known) :
    FirstOccurrences (l ++ [m]) known where
  mem_iff a := by
    rw [List.mem_append, List.mem_singleton, ← h.mem_iff a]
    constructor
    · exact .inl
    · rintro (ha | rfl)
      · exact ha
      · exact hm
  ordered := h.ordered_append [m]

/-- Any other address comes behind all that are listed. -/
theorem first (h : FirstOccurrences l known) (hm : m ∉ known) :
    FirstOccurrences (l ++ [m]) (known ++ [m]) where
  mem_iff a := by rw [List.mem_append, List.mem_append, h.mem_iff a]
  ordered := by
    refine List.pairwise_append.2 ⟨h.ordered_append [m], List.pairwise_singleton _ m,
      fun a ha b hb => ?_⟩
    obtain rfl := List.mem_singleton.1 hb
    have hal : a ∈ l := (h.mem_iff a).1 ha
    have hbl : b ∉ l := fun hbl => hm ((h.mem_iff b).2 hbl)
    rw [List.idxOf_append, List.idxOf_append, if_pos hal, if_neg hbl]
    exact Nat.lt_of_lt_of_le (List.idxOf_lt_length_of_mem hal) (Nat.le_add_left _ _)

theorem joinAll (h : FirstOccurrences l known) (rest : List Address) :
    FirstOccurrences (l ++ rest) (View.joinAll known rest) := by
  induction rest generalizing l known with
  | nil => rwa [List.append_nil]
  | cons m rest ih =>
    rw [View.joinAll, List.append_cons]
    split
    · next hm => exact ih (h.again hm)
    · next hm => exact ih (h.first hm)

theorem nodup (h : FirstOccurrences l known) : known.Nodup := by
  refine h.ordered.imp fun {a b} hlt heq => ?_
  rw [heq] at hlt
  exact Nat.lt_irrefl _ hlt

end FirstOccurrences

theorem member?_eq_some_iff (hv : v.members.Nodup) :
    v.member? i = some m ↔ v.indexOf? m = some i := by
  rw [member?, indexOf?, List.getElem?_eq_some_iff, List.findIdx?_eq_some_iff_getElem]
  constructor
  · rintro ⟨hi, rfl⟩
    refine ⟨hi, decide_eq_true rfl, fun j hj hsame => ?_⟩
    have hplace : v.members[j]? = v.members[i]? := by
      rw [List.getElem?_eq_getElem (Nat.lt_trans hj hi), List.getElem?_eq_getElem hi,
        of_decide_eq_true hsame]
    exact Nat.ne_of_lt hj ((List.getElem?_inj (Nat.lt_trans hj hi) hv).1 hplace)
  · rintro ⟨hi, hm, -⟩
    exact ⟨hi, of_decide_eq_true hm⟩

theorem contains_iff : v.contains m = true ↔ m ∈ v.members := by
  simp [contains, indexOf?, List.findIdx?_isSome]

/-- Take any list of addresses, in which addresses may occur again anywhere. The view of it lists
each of them once, and lists them in the order of their first occurrences. A member is at a place
exactly if it is looked up there, there is a member at each place that is not beyond the size of the
view, and the view contains exactly the addresses of the list. -/
theorem member_places (id : Nat) (l : List Address) :
    (∀ m, (ofMembers id l).members.count m = if m ∈ l then 1 else 0) ∧
    ((ofMembers id l).members.Pairwise fun a b => l.idxOf a < l.idxOf b) ∧
    (∀ i m, (ofMembers id l).member? i = some m ↔ (ofMembers id l).indexOf? m = some i) ∧
    (∀ i, ((ofMembers id l).member? i).isSome = true ↔ i < (ofMembers id l).size) ∧
    ∀ m, (ofMembers id l).contains m = true ↔ m ∈ l := by
  have hfirst : FirstOccurrences l (ofMembers id l).members := FirstOccurrences.nil.joinAll l
  refine ⟨fun m => ?_, hfirst.ordered, fun i m => member?_eq_some_iff hfirst.nodup,
    fun i => ?_, fun m => ?_⟩
  · simp only [hfirst.nodup.count, hfirst.mem_iff]
  · rw [member?, size, Option.isSome_iff_ne_none, ne_eq, List.getElem?_eq_none_iff, Nat.not_le]
  · rw [contains_iff, hfirst.mem_iff]

example : (ofMembers 1 ["b", "a", "b", "c", "a"]).members = ["b", "a", "c"] := by decide

end Multiversion.View
