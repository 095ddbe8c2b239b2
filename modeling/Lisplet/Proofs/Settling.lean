import Lisplet.Proofs.Limits

/-! Outcomes with the bound on depth left aside. A computation settles on the way in which it ends
under some bound that it does not meet. Larger bounds change nothing after that, so a computation
settles in one way at most, and two that are run one after the other settle one after the other. -/

namespace Lisplet.Eval

variable {α β : Type} {s : Store}

/-- An outcome that does not tell of a bound. -/
def Finished (out : Except Fault α) : Prop :=
  ∀ fault, out = .error fault → fault.isExhaustion = false

@[simp] theorem finished_ok (a : α) : Finished (.ok a : Except Fault α) := nofun

@[simp] theorem finished_error {fault : Fault} :
    Finished (.error fault : Except Fault α) ↔ fault.isExhaustion = false := by
  constructor
  · intro h
    exact h fault rfl
  · rintro h _ ⟨⟩
    exact h

instance (out : Except Fault α) : Decidable (Finished out) :=
  match out with
  | .ok a => isTrue (finished_ok a)
  | .error _ => decidable_of_iff _ finished_error.symm

/-- Computations under a bound on depth of which larger bounds keep the outcome. -/
def IsMonotone (act : Nat → Eval α) : Prop :=
  ∀ shallow deep, shallow ≤ deep → ∀ s, Finished ((act shallow).on s).1 →
    (act deep).on s = (act shallow).on s

/-- How a computation ends, the bound on its depth left aside: as it does under any bound that it
does not meet. -/
def Settles (act : Nat → Eval α) (s : Store) (r : Except Fault α × Store) : Prop :=
  Finished r.1 ∧ ∃ bound, (act bound).on s = r

theorem Follows.isMonotone {act : Nat → Eval α} {P : α → Prop}
    (h : ∀ shallow deep, shallow ≤ deep → Follows .deeper (act shallow) (act deep) P) :
    IsMonotone act := by
  intro shallow deep hle s hfinished
  refine (h shallow deep hle).on_eq ?_
  rintro ⟨fault, hfault, hdeep⟩
  simp [hfinished fault hfault] at hdeep

theorem eval_isMonotone (f : FrameId) (e : Value) : IsMonotone (eval · f e) :=
  Follows.isMonotone fun _ _ hle => eval_inStep (Coupling.deeper_deepens hle) f e trivial

/-- From some bound on, a computation ends as it settles. -/
theorem Settles.eventually {act : Nat → Eval α} (hact : IsMonotone act)
    {r : Except Fault α × Store} (h : Settles act s r) :
    ∃ bound, ∀ deep ≥ bound, (act deep).on s = r := by
  obtain ⟨hfinished, bound, rfl⟩ := h
  exact ⟨bound, fun deep hle => hact bound deep hle s hfinished⟩

theorem Settles.unique {act : Nat → Eval α} (hact : IsMonotone act)
    {r r' : Except Fault α × Store} (h : Settles act s r) (h' : Settles act s r') : r = r' := by
  obtain ⟨bound, hbound⟩ := h.eventually hact
  obtain ⟨bound', hbound'⟩ := h'.eventually hact
  have hr := hbound _ (Nat.le_max_left bound bound')
  exact hr.symm.trans (hbound' _ (Nat.le_max_right bound bound'))

/-- What holds of two computations from some bound on decides how they settle. -/
theorem Settles.congr {x y : Nat → Eval α} (hx : IsMonotone x) {bound : Nat}
    (heq : ∀ deep ≥ bound, x deep = y deep) {r : Except Fault α × Store} (h : Settles x s r) :
    Settles y s r := by
  obtain ⟨bound', hbound'⟩ := h.eventually hx
  refine ⟨h.1, max bound bound', ?_⟩
  rw [← heq _ (Nat.le_max_left bound bound')]
  exact hbound' _ (Nat.le_max_right bound bound')

/-- Two computations, one after the other: the first settles on a fault, or the first settles on a
value and the second goes on from there. -/
theorem settles_bind_iff {x : Nat → Eval α} {k : Nat → α → Eval β} (hx : IsMonotone x)
    (hk : ∀ a, IsMonotone (k · a)) {r : Except Fault β × Store} :
    Settles (fun bound => x bound >>= k bound) s r ↔
      (∃ fault s', Settles x s (.error fault, s') ∧ r = (.error fault, s')) ∨
        ∃ a s', Settles x s (.ok a, s') ∧ Settles (k · a) s' r := by
  constructor
  · rintro ⟨hfinished, bound, hr⟩
    rw [on_bind] at hr
    rcases hrun : (x bound).on s with ⟨fault | a, s'⟩ <;> rw [hrun] at hr
    · refine .inl ⟨fault, s', ⟨?_, bound, hrun⟩, hr.symm⟩
      simpa [← hr] using hfinished
    · exact .inr ⟨a, s', ⟨finished_ok a, bound, hrun⟩, hfinished, bound, hr⟩
  · rintro (⟨fault, s', ⟨hfinished, bound, hrun⟩, rfl⟩ | ⟨a, s', ha, hr⟩)
    · refine ⟨by simpa using hfinished, bound, ?_⟩
      rw [on_bind, hrun]
    · obtain ⟨bound, hbound⟩ := ha.eventually hx
      obtain ⟨bound', hbound'⟩ := hr.eventually (hk a)
      refine ⟨hr.1, max bound bound', ?_⟩
      rw [on_bind, hbound _ (Nat.le_max_left bound bound')]
      exact hbound' _ (Nat.le_max_right bound bound')

end Lisplet.Eval
