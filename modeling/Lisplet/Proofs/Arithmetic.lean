import Lisplet.Proofs.Applications
import Lisplet.Proofs.Number.Rounding

/-! Arithmetic on any number of operands. The difference and the product take their operands from
left to right, and one is neutral, so the operands before the last may be put into a form of their
own with no change to the result: no step is rounded in another way. Equality compares all operands
with the first one. Since equal numbers are equal to the same numbers, that is to compare each two
of them, and the order of the operands does not matter. What is not a number equals nothing, not
even itself, but an operand that stands alone is not compared. -/

namespace Lisplet

section Folds

variable {xs ys : List Float}

theorem difference_concat (hxs : xs ≠ []) (y : Float) :
    difference (xs ++ [y]) = difference xs - y := by
  obtain ⟨x, xs, rfl⟩ := List.exists_cons_of_ne_nil hxs
  rw [List.cons_append, difference, difference, List.foldl_concat]

theorem product_concat (xs : List Float) (y : Float) : product (xs ++ [y]) = product xs * y := by
  rw [product, product, List.foldl_concat]

theorem product_pair (x y : Float) : product [x, y] = x * y := by
  rw [product, List.foldl_cons, Number.one_mul_eq_self]
  rfl

/-- To compare all numbers with the first one is to compare each two of them. -/
theorem allEqual_iff_pairwise : allEqual xs = true ↔ xs.Pairwise fun x y => (x == y) = true := by
  cases xs with
  | nil => simp [allEqual]
  | cons x xs =>
    rw [allEqual, List.all_eq_true, List.pairwise_cons]
    constructor
    · intro h
      refine ⟨fun y hy => BEq.symm (h y hy), List.pairwise_of_forall_mem_list fun y hy z hz => ?_⟩
      -- two later numbers are compared by way of the first one
      exact BEq.trans (h y hy) (BEq.symm (h z hz))
    · intro h y hy
      exact BEq.symm (h.1 y hy)

theorem allEqual_perm (h : xs.Perm ys) : allEqual xs = allEqual ys := by
  rw [Bool.eq_iff_iff, allEqual_iff_pairwise, allEqual_iff_pairwise]
  exact h.pairwise_iff BEq.symm

theorem allEqual_iff_get :
    allEqual xs = true ↔ ∀ i j : Fin xs.length, i ≠ j → (xs.get i == xs.get j) = true := by
  rw [allEqual_iff_pairwise, List.pairwise_iff_get]
  constructor
  · intro h i j hne
    rcases lt_or_gt_of_ne hne with hlt | hgt
    · exact h i j hlt
    · exact BEq.symm (h j i hgt)
  · intro h i j hlt
    exact h i j (ne_of_lt hlt)

theorem allEqual_of_isNaN (hlength : 2 ≤ xs.length) {x : Float} (hx : x ∈ xs)
    (hnan : x.isNaN = true) : allEqual xs = false := by
  obtain ⟨i, rfl⟩ := List.mem_iff_get.1 hx
  have hnontrivial : Nontrivial (Fin xs.length) := Fin.nontrivial_iff_two_le.2 hlength
  obtain ⟨j, hne⟩ := exists_ne i
  rw [Float.isNaN_eq_decide_eq_nan, decide_eq_true_iff] at hnan
  rw [Bool.eq_false_iff]
  intro h
  have hself := allEqual_iff_get.1 h i j hne.symm
  rw [hnan, Float.nan_beq_eq_false] at hself
  cases hself

end Folds

/-- The form that applies an operation, by its name, to operands. -/
def Builtin.form (op : Builtin) (operands : List Value) : Value :=
  .list (.symbol op.name :: operands)

namespace Eval

variable {depth : Nat} {s : Store} {f : FrameId} {op : Builtin} {es : List Value} {xs : List Float}

/-- A loop whose steps leave the store as it is collects what each step gives. -/
theorem on_mapM {α β : Type} {k : α → Eval β} {as : List α} {bs : List β}
    (h : List.Forall₂ (fun a b => (k a).on s = (.ok b, s)) as bs) :
    (as.mapM k).on s = (.ok bs, s) := by
  induction h with
  | nil => rfl
  | cons ha _ ih =>
    rw [List.mapM_cons, on_bind, ha]
    simp only
    rw [on_bind, ih]
    rfl

theorem on_operandNumbers {ev : Evaluator}
    (h : List.Forall₂ (fun e x => (ev f e).on s = (.ok (.number x), s)) es xs) :
    (operandNumbers depth ev op f es).on s = (.ok xs, s) := by
  refine on_mapM (h.imp fun e x he => ?_)
  rw [on_bind, he]
  rfl

/-- An operation on operands that give numbers gives what it makes of the numbers. -/
theorem on_form {result : List Float → Value}
    (hname : s.lookup? f op.name = some (.builtin op))
    (happly : ∀ depth ev form, applyBuiltin depth ev f form op =
      operandNumbers depth ev op f form.tail >>= fun xs => pure (result xs))
    (h : List.Forall₂ (fun e x => (eval depth f e).on s = (.ok (.number x), s)) es xs) :
    (eval (depth + 1) f (op.form es)).on s = (.ok (result xs), s) := by
  rw [Builtin.form, eval, on_bind, on_lookup, hname]
  simp only [apply, happly, List.tail_cons]
  rw [on_bind, on_operandNumbers h]
  rfl

/-- Numbers stand for themselves. -/
theorem on_numbers (depth : Nat) (f : FrameId) (s : Store) (xs : List Float) :
    List.Forall₂ (fun e x => (eval (depth + 1) f e).on s = (.ok (.number x), s))
      (xs.map .number) xs :=
  List.forall₂_map_left_iff.2 (List.forall₂_same.2 fun _ _ => rfl)

end Eval

/-- In frame `f`, an operation goes on from the number that it gives for `xs` to one more operand by
the given step, and it does so from the form for `xs` as well. -/
def Accumulates (s : Store) (f : FrameId) (op : Builtin) (step : Float → Float → Float)
    (xs : List Float) (y : Float) : Prop :=
  ∃ x, ∀ depth,
    (eval (depth + 2) f (op.form (xs.map .number))).on s = (.ok (.number x), s) ∧
    (eval (depth + 2) f (op.form ((xs ++ [y]).map .number))).on s =
      (.ok (.number (step x y)), s) ∧
    (eval (depth + 3) f (op.form [op.form (xs.map .number), .number y])).on s =
      (.ok (.number (step x y)), s)

section Laws

variable {s : Store} {f : FrameId} {xs : List Float} {y : Float}

theorem accumulates_of_total {op : Builtin} {total : List Float → Float}
    {step : Float → Float → Float} (hname : s.lookup? f op.name = some (.builtin op))
    (happly : ∀ depth ev form, Eval.applyBuiltin depth ev f form op =
      Eval.operandNumbers depth ev op f form.tail >>= fun xs => pure (.number (total xs)))
    (hconcat : total (xs ++ [y]) = step (total xs) y)
    (hpair : total [total xs, y] = step (total xs) y) : Accumulates s f op step xs y := by
  have hnumbers : ∀ depth zs, (eval (depth + 2) f (op.form (zs.map .number))).on s =
      (.ok (.number (total zs)), s) := fun depth zs =>
    Eval.on_form hname happly (Eval.on_numbers depth f s zs)
  refine ⟨total xs, fun depth => ⟨hnumbers depth xs, hconcat ▸ hnumbers depth (xs ++ [y]), ?_⟩⟩
  rw [← hpair]
  exact Eval.on_form hname happly (.cons (hnumbers depth xs) (.cons rfl .nil))

/-- The operands of arithmetic operations can be grouped, or put in another order. Where the
operations are bound to their names, the difference and the product of numbers go on from all but
the last operand to the last one, whether these stand in a form of their own or not. The equality of
numbers gives one marker for all orders of them. It is that of truth just if there is one number or
each two at different places are equal, so with two or more of them it is the other one if any is
not a number. -/
theorem operands_regroup_and_permute
    (hbound : ∀ op : Builtin, op.isArithmetic = true → s.lookup? f op.name = some (.builtin op))
    (hxs : xs ≠ []) (y : Float) :
    Accumulates s f .difference (· - ·) xs y ∧ Accumulates s f .product (· * ·) xs y ∧
      ∃ b, (∀ ys, xs.Perm ys → ∀ depth,
          (eval (depth + 2) f (Builtin.equality.form (ys.map .number))).on s =
            (.ok (.ofBool b), s)) ∧
        (b = true ↔ xs.length = 1 ∨
          ∀ i j : Fin xs.length, i ≠ j → (xs.get i == xs.get j) = true) ∧
        (2 ≤ xs.length → ∀ x ∈ xs, x.isNaN = true → b = false) := by
  have hdifference := hbound .difference rfl
  have hproduct := hbound .product rfl
  have hequality := hbound .equality rfl
  refine ⟨accumulates_of_total hdifference (fun _ _ _ => rfl) (difference_concat hxs y) rfl,
    accumulates_of_total hproduct (fun _ _ _ => rfl) (product_concat xs y) (product_pair _ y),
    allEqual xs, fun ys hys depth => ?_, ?_, fun hlength x hx => allEqual_of_isNaN hlength hx⟩
  · rw [allEqual_perm hys]
    exact Eval.on_form hequality (fun _ _ _ => rfl) (Eval.on_numbers depth f s ys)
  · rw [allEqual_iff_get]
    refine ⟨.inr, fun h => h.elim (fun hone i j hne => ?_) id⟩
    have hsubsingleton : Subsingleton (Fin xs.length) := Fin.subsingleton_iff_le_one.2 hone.le
    exact absurd (Subsingleton.elim i j) hne

end Laws

open Session in
/-- In a fresh session, one and what is not a number are not equal in either order, and they can be
grouped before a further operand. -/
theorem unequal_operands_regroup_and_permute :
    (∀ op : Builtin, op.isArithmetic = true →
      start.lookup? globalFrame op.name = some (.builtin op)) ∧
      [1.0, Float.nan] ≠ [] ∧ 2 ≤ [1.0, Float.nan].length ∧ Float.nan.isNaN = true ∧
      Accumulates start globalFrame .difference (· - ·) [1.0, Float.nan] 0.5 ∧
      (eval 2 globalFrame (Builtin.equality.form [.number 1.0, .number .nan])).on start =
        (.ok .no, start) ∧
      (eval 2 globalFrame (Builtin.equality.form [.number .nan, .number 1.0])).on start =
        (.ok .no, start) := by
  have hbound : ∀ op : Builtin, op.isArithmetic = true →
      start.lookup? globalFrame op.name = some (.builtin op) := fun op _ => start_lookup?_name op
  have hne : [1.0, Float.nan] ≠ [] := List.cons_ne_nil _ _
  have hlength : 2 ≤ [1.0, Float.nan].length := Nat.le_refl 2
  have hnan : Float.nan.isNaN = true := by simp
  obtain ⟨hdifference, -, b, hequality, -, hfalse⟩ := operands_regroup_and_permute hbound hne 0.5
  have hb : b = false := hfalse hlength .nan (by simp) hnan
  subst hb
  exact ⟨hbound, hne, hlength, hnan, hdifference, hequality _ (.refl _) 0,
    hequality _ (.swap _ _ _) 0⟩

end Lisplet
