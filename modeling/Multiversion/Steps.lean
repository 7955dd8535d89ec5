/- Steps that may fail, taken in turn.

   `inTurn` says what they come to, and `along` which states they lead through; the last of these is
   the one that they come to (`getLast?_along`). -/
namespace Multiversion

variable {σ α ε : Type} {step : σ → α → Except ε Unit × σ} {s s' : σ} {a : α} {l l' : List α}
  {e : ε}

/-- Take steps in turn, up to the first one that fails; what came before it stays. -/
def inTurn (step : σ → α → Except ε Unit × σ) (s : σ) : List α → Except ε Unit × σ
  | [] => (.ok (), s)
  | a :: rest =>
    match step s a with
    | (.ok (), s') => inTurn step s' rest
    | (.error e, s') => (.error e, s')

/-- The states that steps lead through: the first one, and the one after each step, up to the first
one that fails. -/
def along (step : σ → α → Except ε Unit × σ) (s : σ) : List α → List σ
  | [] => [s]
  | a :: rest =>
    match step s a with
    | (.ok (), s') => s :: along step s' rest
    | (.error _, s') => [s, s']

theorem inTurn_singleton : inTurn step s [a] = step s a := by
  rw [inTurn]
  rcases step s a with ⟨_ | ⟨⟩, s'⟩ <;> rfl

theorem inTurn_append_eq : inTurn step s (l ++ l') =
    match inTurn step s l with
    | (.ok (), mid) => inTurn step mid l'
    | (.error e, mid) => (.error e, mid) := by
  fun_induction inTurn step s l with
  | case1 => rfl
  | case2 s a rest s' h ih => rw [List.cons_append, inTurn, h]; exact ih
  | case3 s a rest e s' h => rw [List.cons_append, inTurn, h]

theorem inTurn_append : inTurn step s (l ++ l') = (.ok (), s') ↔
    ∃ mid, inTurn step s l = (.ok (), mid) ∧ inTurn step mid l' = (.ok (), s') := by
  rw [inTurn_append_eq]
  rcases inTurn step s l with ⟨_ | ⟨⟩, mid⟩ <;> simp

theorem inTurn_append_error :
    inTurn step s (l ++ l') = (.error e, s') ↔ inTurn step s l = (.error e, s') ∨
    ∃ mid, inTurn step s l = (.ok (), mid) ∧ inTurn step mid l' = (.error e, s') := by
  rw [inTurn_append_eq]
  rcases inTurn step s l with ⟨_ | ⟨⟩, mid⟩ <;> simp

theorem inTurn_cons : inTurn step s (a :: l) = (.ok (), s') ↔
    ∃ mid, step s a = (.ok (), mid) ∧ inTurn step mid l = (.ok (), s') := by
  rw [inTurn]
  rcases step s a with ⟨_ | ⟨⟩, mid⟩ <;> simp

theorem along_ne_nil (s : σ) (l : List α) : along step s l ≠ [] := by
  fun_cases along step s l <;> exact List.cons_ne_nil _ _

theorem getLast?_along (s : σ) (l : List α) :
    (along step s l).getLast? = some (inTurn step s l).2 := by
  fun_induction along step s l with
  | case1 => rfl
  | case2 s a rest s' h ih =>
    rw [List.getLast?_cons_of_ne_nil (along_ne_nil s' rest), ih, inTurn, h]
  | case3 s a rest e s' h => rw [inTurn, h]; rfl

theorem along_concat (h : inTurn step s l = (.ok (), s')) : along step s (l ++ [a]) =
    along step s l ++ [(step s' a).2] := by
  fun_induction inTurn step s l with
  | case1 s =>
    obtain rfl := (Prod.mk.inj h).2
    simp only [List.nil_append, along]
    rcases step s a with ⟨_ | ⟨⟩, s'⟩ <;> rfl
  | case2 s b rest mid hmid ih =>
    rw [List.cons_append, along, along, hmid]
    exact congrArg (s :: ·) (ih h)
  | case3 s b rest e mid hmid => cases h

/-- What holds before the steps and is kept by each holds of every state on the way. -/
theorem forall_along {P : σ → Prop} (hs : P s) (hstep : ∀ a ∈ l, ∀ s, P s → P (step s a).2) :
    ∀ s' ∈ along step s l, P s' := by
  fun_induction along step s l with
  | case1 s => exact List.forall_mem_singleton.2 hs
  | case2 s a rest s' h ih =>
    have hafter : P s' := by simpa [h] using hstep a List.mem_cons_self s hs
    exact List.forall_mem_cons.2 ⟨hs, ih hafter fun b hb => hstep b (List.mem_cons_of_mem a hb)⟩
  | case3 s a rest e s' h =>
    have hafter : P s' := by simpa [h] using hstep a List.mem_cons_self s hs
    exact List.forall_mem_cons.2 ⟨hs, List.forall_mem_singleton.2 hafter⟩

end Multiversion
