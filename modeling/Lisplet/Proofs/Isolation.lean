import Lisplet.Proofs.Computation
import Lisplet.Proofs.Renaming

/-! What evaluation reads. Two evaluations that are run in matched frames of matched stores go the
same way: they give equal values or equal faults up to a matching, and leave stores that are
matched again, with the frames that the two runs have added. `Agree` says so of two computations,
and there is one rule for each way of building one. So frames that an evaluation cannot reach make
no difference to it. -/

namespace Lisplet

/-- Stores that have come from matched stores `s` and `t`: they are matched again, and what is newly
matched is new in both. -/
structure Store.Continues (R : Matching) (s t : Store) (R' : Matching) (s' t' : Store) : Prop where
  matched : Matched R' s' t'
  old : ∀ f g, R f g → R' f g
  fresh : ∀ f g, R' f g → R f g ∨ s.next ≤ f ∧ t.next ≤ g
  left : s.next ≤ s'.next
  right : t.next ≤ t'.next

namespace Store.Continues

variable {R R' R'' : Matching} {s t s' t' s'' t'' : Store}

theorem refl (h : Matched R s t) : Continues R s t R s t :=
  ⟨h, fun _ _ hfg => hfg, fun _ _ hfg => .inl hfg, Nat.le_refl _, Nat.le_refl _⟩

theorem trans (h : Continues R s t R' s' t') (h' : Continues R' s' t' R'' s'' t'') :
    Continues R s t R'' s'' t'' := by
  refine ⟨h'.matched, fun f g hfg => h'.old f g (h.old f g hfg), fun f g hfg => ?_,
    Nat.le_trans h.left h'.left, Nat.le_trans h.right h'.right⟩
  rcases h'.fresh f g hfg with hfg | ⟨hf, hg⟩
  · exact h.fresh f g hfg
  · exact .inr ⟨Nat.le_trans h.left hf, Nat.le_trans h.right hg⟩

theorem define (h : Continues R s t R' s' t') {f g : FrameId} (hfg : R' f g) (n : String)
    {v w : Value} (hv : v.Renamed R' w) :
    Continues R s t R' (s'.define f n v) (t'.define g n w) :=
  ⟨h.matched.define hfg n hv, h.old, h.fresh, by rw [next_define]; exact h.left,
    by rw [next_define]; exact h.right⟩

theorem push (h : Matched R s t) {o p : FrameId} (hop : R o p) :
    Continues R s t (extended R s t) (s.push (some o)) (t.push (some p)) := by
  refine ⟨h.push hop, fun _ _ => .inl, ?_, by simp, by simp⟩
  intro f g hfg
  rcases hfg with hfg | ⟨rfl, rfl⟩
  · exact .inl hfg
  · exact .inr ⟨Nat.le_refl _, Nat.le_refl _⟩

end Store.Continues

namespace Eval

open Store

section Rules

variable {α β γ δ : Type} {R : Matching} {s t : Store} {P : Matching → α → β → Prop}
  {Q : Matching → γ → δ → Prop}

/-- Run from matched stores, two computations leave stores that are matched again, by some `R'`;
and both give values as in `P R'`, or both fail with equal faults and the same message. -/
def Agree (R : Matching) (s t : Store) (x : Eval α) (y : Eval β)
    (P : Matching → α → β → Prop) : Prop :=
  ∃ R', Continues R s t R' (x.on s).2 (y.on t).2 ∧
    match (x.on s).1, (y.on t).1 with
    | .ok a, .ok b => P R' a b
    | .error a, .error b => a.Renamed R' b ∧ a.message = b.message
    | _, _ => False

theorem agree_pure (h : Matched R s t) {a : α} {b : β} (hP : P R a b) :
    Agree R s t (pure a) (pure b) P :=
  ⟨R, .refl h, hP⟩

theorem agree_throw (h : Matched R s t) {a b : Fault} (hab : a.Renamed R b) :
    Agree R s t (throw a) (throw b) P :=
  ⟨R, .refl h, hab, hab.message_eq⟩

theorem agree_bind {x : Eval α} {y : Eval β} {k : α → Eval γ} {l : β → Eval δ}
    (h : Agree R s t x y P)
    (hk : ∀ R' s' t' a b, Continues R s t R' s' t' → P R' a b →
      Agree R' s' t' (k a) (l b) Q) : Agree R s t (x >>= k) (y >>= l) Q := by
  obtain ⟨R', hcont, hout⟩ := h
  unfold Agree
  rw [on_bind, on_bind]
  generalize x.on s = runx at hcont hout ⊢
  generalize y.on t = runy at hcont hout ⊢
  -- both runs go on, or neither does
  obtain ⟨fault | a, s'⟩ := runx <;> obtain ⟨fault' | b, t'⟩ := runy
  · exact ⟨R', hcont, hout⟩
  · exact hout.elim
  · exact hout.elim
  · obtain ⟨R'', hcont', hout'⟩ := hk R' s' t' a b hcont hout
    exact ⟨R'', hcont.trans hcont', hout'⟩

theorem Agree.imp {x : Eval α} {y : Eval β} {P' : Matching → α → β → Prop}
    (h : Agree R s t x y P) (hP : ∀ R' a b, P R' a b → P' R' a b) : Agree R s t x y P' := by
  obtain ⟨R', hcont, hout⟩ := h
  refine ⟨R', hcont, ?_⟩
  generalize (x.on s).1 = a at hout ⊢
  generalize (y.on t).1 = b at hout ⊢
  match a, b, hout with
  | .ok a, .ok b, hab => exact hP R' a b hab
  | .error a, .error b, hab => exact hab

theorem agree_map {x : Eval α} {y : Eval β} {k : α → γ} {l : β → δ}
    (h : Agree R s t x y fun R' a b => Q R' (k a) (l b)) : Agree R s t (k <$> x) (l <$> y) Q := by
  rw [map_eq_pure_bind, map_eq_pure_bind]
  exact agree_bind h fun R' s' t' a b hcont hab => agree_pure hcont.matched hab

/-- Loops that collect results, over members that are related as `A` says. -/
theorem agree_mapM {A : α → β → Prop} {k : α → Eval γ} {l : β → Eval δ} {xs : List α} {ys : List β}
    (hxs : List.Forall₂ A xs ys) (h : Matched R s t)
    (mono : ∀ R' R'' c d, (∀ f g, R' f g → R'' f g) → Q R' c d → Q R'' c d)
    (step : ∀ R' s' t' a b, Continues R s t R' s' t' → A a b → Agree R' s' t' (k a) (l b) Q) :
    Agree R s t (xs.mapM k) (ys.mapM l) fun R' => List.Forall₂ (Q R') := by
  induction hxs generalizing R s t with
  | nil => exact agree_pure h .nil
  | cons hab _ ih =>
    rw [List.mapM_cons, List.mapM_cons]
    refine agree_bind (step R s t _ _ (.refl h) hab) fun R' s' t' c d hcont hcd => ?_
    refine agree_bind (ih hcont.matched fun R'' s'' t'' a b hcont' =>
      step R'' s'' t'' a b (hcont.trans hcont')) fun R'' s'' t'' cs ds hcont' hcds => ?_
    exact agree_pure hcont'.matched (.cons (mono R' R'' c d hcont'.old hcd) hcds)

/-- Loops that hand a result on. -/
theorem agree_foldlM {A : α → β → Prop} {k : γ → α → Eval γ} {l : δ → β → Eval δ} {xs : List α}
    {ys : List β} (hxs : List.Forall₂ A xs ys) (h : Matched R s t) {c : γ} {d : δ} (hcd : Q R c d)
    (step : ∀ R' s' t' a b c d, Continues R s t R' s' t' → A a b → Q R' c d →
      Agree R' s' t' (k c a) (l d b) Q) : Agree R s t (xs.foldlM k c) (ys.foldlM l d) Q := by
  induction hxs generalizing R s t c d with
  | nil => exact agree_pure h hcd
  | cons hab _ ih =>
    rw [List.foldlM_cons, List.foldlM_cons]
    refine agree_bind (step R s t _ _ c d (.refl h) hab hcd) fun R' s' t' c d hcont hcd => ?_
    exact ih hcont.matched hcd fun R'' s'' t'' a b c d hcont' =>
      step R'' s'' t'' a b c d (hcont.trans hcont')

/-- Loops that are run for their effect. -/
theorem agree_forM {A : α → β → Prop} {k : α → Eval PUnit} {l : β → Eval PUnit} {xs : List α}
    {ys : List β} (hxs : List.Forall₂ A xs ys) (h : Matched R s t)
    (step : ∀ R' s' t' a b, Continues R s t R' s' t' → A a b →
      Agree R' s' t' (k a) (l b) fun _ _ _ => True) :
    Agree R s t (xs.forM k) (ys.forM l) fun _ _ _ => True := by
  induction hxs generalizing R s t with
  | nil => exact agree_pure h trivial
  | cons hab _ ih =>
    refine agree_bind (step R s t _ _ (.refl h) hab) fun R' s' t' _ _ hcont _ => ?_
    exact ih hcont.matched fun R'' s'' t'' a b hcont' => step R'' s'' t'' a b (hcont.trans hcont')

end Rules

section Primitives

variable {R : Matching} {s t : Store} {f g : FrameId} {v w : Value}

/-- Computations that fail with the same text in equal faults. -/
theorem agree_complain {α β : Type} {P : Matching → α → β → Prop} {x y : Eval String}
    {fault fault' : String → Fault} (hxy : Agree R s t x y fun _ a b => a = b)
    (hfault : ∀ R' shown, (∀ f g, R f g → R' f g) → (fault shown).Renamed R' (fault' shown)) :
    Agree R s t (x >>= fun shown => throw (fault shown)) (y >>= fun shown => throw (fault' shown))
      P := by
  refine agree_bind hxy fun R' s' t' a b hcont hab => ?_
  subst hab
  exact agree_throw hcont.matched (hfault R' a hcont.old)

theorem agree_displayed (h : Matched R s t) (depth : Nat) (hv : v.LooksLike w) :
    Agree R s t (displayed depth v) (displayed depth w) fun _ a b => a = b := by
  unfold displayed
  rw [hv.display depth]
  split
  · exact agree_pure h rfl
  · exact agree_throw h (.same _)

theorem agree_inspected (h : Matched R s t) (depth : Nat) (hv : v.LooksLike w) :
    Agree R s t (inspected depth v) (inspected depth w) fun _ a b => a = b := by
  unfold inspected
  rw [hv.depth, hv.inspect]
  split
  · exact agree_pure h rfl
  · exact agree_throw h (.same _)

theorem agree_lookup (h : Matched R s t) (hfg : R f g) (n : String) :
    Agree R s t (lookup f n) (lookup g n) Value.Renamed := by
  have hrel := h.lookup? hfg n
  unfold Agree
  rw [on_lookup, on_lookup]
  generalize s.lookup? f n = v at hrel
  generalize t.lookup? g n = w at hrel
  cases hrel with
  | none => exact ⟨R, .refl h, .same _, rfl⟩
  | some hvw => exact ⟨R, .refl h, hvw⟩

theorem agree_bindSymbol (h : Matched R s t) (hfg : R f g) (depth : Nat) {name name' : Value}
    (hname : name.Renamed R name') (hv : v.Renamed R w) :
    Agree R s t (bindSymbol depth f name v) (bindSymbol depth g name' w) fun _ _ _ => True := by
  have hlooks := hname.looksLike
  cases hname
  case symbol n => exact ⟨R, (Continues.refl h).define hfg n hv, trivial⟩
  all_goals exact agree_complain (agree_inspected h depth hlooks) fun _ _ _ => .same _

theorem agree_newFrame (h : Matched R s t) {o p : FrameId} (hop : R o p) :
    Agree R s t (newFrame (some o)) (newFrame (some p)) fun R' f g => R' f g :=
  ⟨extended R s t, .push h hop, .inr ⟨rfl, rfl⟩⟩

theorem forall₂_zip {formals formals' args args' : List Value}
    (hformals : List.Forall₂ (Value.Renamed R) formals formals')
    (hargs : List.Forall₂ (Value.Renamed R) args args') :
    List.Forall₂ (fun p q => p.1.Renamed R q.1 ∧ p.2.Renamed R q.2) (formals.zip args)
      (formals'.zip args') := by
  induction hformals generalizing args args' with
  | nil => simp
  | cons hformal _ ih =>
    cases hargs with
    | nil => simp
    | cons harg hargs => exact .cons ⟨hformal, harg⟩ (ih hargs)

/-- A call adds matched frames, and binds equal arguments in them. -/
theorem agree_extend (h : Matched R s t) (depth : Nat) {formals formals' args args' : List Value}
    (hformals : List.Forall₂ (Value.Renamed R) formals formals')
    (hargs : List.Forall₂ (Value.Renamed R) args args') {o p : FrameId} (hop : R o p) :
    Agree R s t (extend depth formals args o) (extend depth formals' args' p)
      fun R' f g => R' f g := by
  refine agree_bind (agree_newFrame h hop) fun R' s' t' f g hcont hfg => ?_
  refine agree_bind (agree_forM (forall₂_zip hformals hargs) hcont.matched ?_) ?_
  · intro R'' s'' t'' pair pair' hcont' hpair
    have hold : ∀ f g, R f g → R'' f g := fun f g hfg => hcont'.old f g (hcont.old f g hfg)
    exact agree_map (agree_bindSymbol hcont'.matched (hcont'.old f g hfg) depth
      (hpair.1.mono hold) (hpair.2.mono hold))
  · intro R'' s'' t'' _ _ hcont' _
    exact agree_pure hcont'.matched (hcont'.old f g hfg)

end Primitives

section Operations

variable {depth : Nat} {ev : Evaluator} {R R' : Matching} {s t s' t' : Store} {f g : FrameId}
  {form form' : List Value}

/-- An evaluator that goes the same way in matched frames of matched stores, on equal
expressions. -/
def IsUniform (ev : Evaluator) : Prop :=
  ∀ {R s t f g e e'}, Matched R s t → R f g → e.Renamed R e' →
    Agree R s t (ev f e) (ev g e') Value.Renamed

/-- A uniform evaluator also agrees later on, in the same frames. -/
theorem IsUniform.onward (hev : IsUniform ev) (hcont : Continues R s t R' s' t') (hfg : R f g)
    {e e' : Value} (he : e.Renamed R e') : Agree R' s' t' (ev f e) (ev g e') Value.Renamed :=
  hev hcont.matched (hcont.old f g hfg) (he.mono hcont.old)

theorem forall₂_tail (hform : List.Forall₂ (Value.Renamed R) form form') :
    List.Forall₂ (Value.Renamed R) form.tail form'.tail := by
  simpa using List.forall₂_drop 1 hform

theorem agree_operandNumber (h : Matched R s t) (op : Builtin) {v w : Value}
    (hv : v.Renamed R w) :
    Agree R s t (operandNumber depth op v) (operandNumber depth op w) fun _ x y => x = y := by
  have hshown : Agree R s t (displayed depth v >>= fun shown => throw (.notNumber op shown))
      (displayed depth w >>= fun shown => throw (.notNumber op shown))
      fun _ (x y : Float) => x = y :=
    agree_complain (agree_displayed h depth hv.looksLike) fun _ _ _ => .same _
  cases hv with
  | number x => exact agree_pure h rfl
  | symbol n => exact hshown
  | builtin b => exact hshown
  | list _ => exact hshown
  | procedure _ _ _ => exact hshown
  | foreign x =>
    cases x with
    | integer n =>
      unfold operandNumber
      dsimp only
      split
      · exact agree_pure h rfl
      · exact agree_throw h (.same _)
    | flag b => exact hshown
    | text t => exact hshown
    | nothing => exact hshown

theorem agree_operandNumbers (hev : IsUniform ev) (h : Matched R s t) (hfg : R f g) (op : Builtin)
    {es es' : List Value} (hes : List.Forall₂ (Value.Renamed R) es es') :
    Agree R s t (operandNumbers depth ev op f es) (operandNumbers depth ev op g es')
      fun _ xs ys => xs = ys := by
  -- the loop relates the numbers one by one, and related by `=` the lists are equal
  have hall : Agree R s t (operandNumbers depth ev op f es) (operandNumbers depth ev op g es')
      fun _ => List.Forall₂ fun (x y : Float) => x = y := by
    refine agree_mapM hes h (fun _ _ _ _ _ hcd => hcd) fun R' s' t' e e' hcont he => ?_
    refine agree_bind (hev.onward hcont hfg he) ?_
    exact fun R'' s'' t'' v w hcont' hv => agree_operandNumber hcont'.matched op hv
  simpa [List.forall₂_eq_eq_eq] using hall

/-- The arithmetic operations, all three at once: they go by the numbers of their operands. -/
theorem agree_arithmetic (hev : IsUniform ev) (h : Matched R s t) (hfg : R f g) (op : Builtin)
    {es es' : List Value} (hes : List.Forall₂ (Value.Renamed R) es es')
    {result : List Float → Value} (hresult : ∀ R xs, (result xs).Renamed R (result xs)) :
    Agree R s t (operandNumbers depth ev op f es >>= fun xs => pure (result xs))
      (operandNumbers depth ev op g es' >>= fun xs => pure (result xs)) Value.Renamed := by
  refine agree_bind (agree_operandNumbers hev h hfg op hes) fun R' s' t' xs ys hcont hxs => ?_
  subst hxs
  exact agree_pure hcont.matched (hresult R' xs)

theorem agree_define (hev : IsUniform ev) (h : Matched R s t) (hfg : R f g)
    (hform : List.Forall₂ (Value.Renamed R) form form') :
    Agree R s t (applyBuiltin depth ev f form .define) (applyBuiltin depth ev g form' .define)
      Value.Renamed := by
  match hform with
  | .nil | .cons _ .nil | .cons _ (.cons _ .nil) | .cons _ (.cons _ (.cons _ (.cons _ _))) =>
    simp only [applyBuiltin]
    exact agree_throw h (.same _)
  | .cons _ (.cons htarget (.cons he .nil)) =>
    have hlooks := htarget.looksLike
    cases htarget
    case symbol n =>
      refine agree_bind (hev h hfg he) fun R' s' t' v w hcont hv => ?_
      refine agree_bind (agree_map (Q := fun _ _ _ => True) (agree_bindSymbol hcont.matched
        (hcont.old f g hfg) depth (.symbol n) hv)) fun R'' s'' t'' _ _ hcont' _ => ?_
      exact agree_pure hcont'.matched (.symbol _)
    all_goals exact agree_complain (agree_inspected h depth hlooks) fun _ _ _ => .same _

theorem agree_branch (hev : IsUniform ev) (h : Matched R s t) (hfg : R f g)
    (hform : List.Forall₂ (Value.Renamed R) form form') :
    Agree R s t (applyBuiltin depth ev f form .branch) (applyBuiltin depth ev g form' .branch)
      Value.Renamed := by
  match hform with
  | .nil | .cons _ .nil | .cons _ (.cons _ .nil) | .cons _ (.cons _ (.cons _ .nil))
  | .cons _ (.cons _ (.cons _ (.cons _ (.cons _ _)))) => exact agree_throw h (.same _)
  | .cons _ (.cons htest (.cons hconseq (.cons halt .nil))) =>
    refine agree_bind (hev h hfg htest) fun R' s' t' v w hcont hv => ?_
    rw [hv.isTrue_eq]
    split
    · exact hev.onward hcont hfg hconseq
    · exact hev.onward hcont hfg halt

/-- The procedures that are made capture matched frames. -/
theorem agree_lambda (h : Matched R s t) (hfg : R f g)
    (hform : List.Forall₂ (Value.Renamed R) form form') :
    Agree R s t (applyBuiltin depth ev f form .lambda) (applyBuiltin depth ev g form' .lambda)
      Value.Renamed := by
  match hform with
  | .nil | .cons _ .nil | .cons _ (.cons _ .nil) | .cons _ (.cons _ (.cons _ (.cons _ _))) =>
    simp only [applyBuiltin]
    exact agree_throw h (.same _)
  | .cons _ (.cons hformals (.cons hbody .nil)) =>
    cases hformals
    case list hformals =>
      simp only [applyBuiltin, Value.all_isSymbol_eq hformals]
      split
      · exact agree_pure h (.procedure hformals hbody hfg)
      · exact agree_throw h (.same _)
    all_goals exact agree_throw h (.same _)

theorem agree_quote (h : Matched R s t) (hform : List.Forall₂ (Value.Renamed R) form form') :
    Agree R s t (applyBuiltin depth ev f form .quote) (applyBuiltin depth ev g form' .quote)
      Value.Renamed := by
  match hform with
  | .nil | .cons _ .nil | .cons _ (.cons _ (.cons _ _)) => exact agree_throw h (.same _)
  | .cons _ (.cons he .nil) => exact agree_pure h he

theorem applyBuiltin_agree (hev : IsUniform ev) (h : Matched R s t) (hfg : R f g)
    (hform : List.Forall₂ (Value.Renamed R) form form') (b : Builtin) :
    Agree R s t (applyBuiltin depth ev f form b) (applyBuiltin depth ev g form' b)
      Value.Renamed := by
  have htail := forall₂_tail hform
  cases b with
  | sequence =>
    refine agree_foldlM htail h (.number 0.0) fun R' s' t' e e' _ _ hcont he _ => ?_
    exact hev.onward hcont hfg he
  | define => exact agree_define hev h hfg hform
  | branch => exact agree_branch hev h hfg hform
  | lambda => exact agree_lambda h hfg hform
  | quote => exact agree_quote h hform
  | product => exact agree_arithmetic hev h hfg .product htail fun _ _ => .number _
  | difference => exact agree_arithmetic hev h hfg .difference htail fun _ _ => .number _
  | equality =>
    refine agree_arithmetic hev h hfg .equality htail fun R xs => ?_
    cases allEqual xs <;> exact .symbol _

theorem apply_agree (hev : IsUniform ev) (h : Matched R s t) (hfg : R f g) {head head' : Value}
    (hhead : head.Renamed R head') (hform : List.Forall₂ (Value.Renamed R) form form') :
    Agree R s t (apply depth ev f head form) (apply depth ev g head' form') Value.Renamed := by
  have hcallable : Agree R s t
      (displayed depth head >>= fun shown => throw (.notCallable head shown))
      (displayed depth head' >>= fun shown => throw (.notCallable head' shown)) Value.Renamed :=
    agree_complain (agree_displayed h depth hhead.looksLike) fun R' shown hold =>
      .notCallable (hhead.mono hold) shown
  cases hhead with
  | builtin b => exact applyBuiltin_agree hev h hfg hform b
  | procedure hformals hbody hframe =>
    refine agree_bind (agree_mapM (Q := Value.Renamed) (forall₂_tail hform) h
      (fun _ _ _ _ hold hv => hv.mono hold) fun R' s' t' e e' hcont he => hev.onward hcont hfg he)
      fun R' s' t' args args' hcont hargs => ?_
    -- the body is evaluated in the new frames, which only the extended matching knows
    refine agree_bind (agree_extend hcont.matched depth
      (Value.forall₂_renamed_mono hformals hcont.old) hargs (hcont.old _ _ hframe)) ?_
    intro R'' s'' t'' k l hcont' hkl
    exact hev hcont'.matched hkl ((hbody.mono hcont.old).mono hcont'.old)
  | symbol n => exact hcallable
  | number x => exact hcallable
  | foreign x => exact hcallable
  | list _ => exact hcallable

/-- Evaluation to any depth is uniform. -/
theorem eval_isUniform (depth : Nat) : IsUniform (eval depth) := by
  induction depth with
  | zero => exact fun h _ _ => agree_throw h (.same _)
  | succ depth ih =>
    intro R s t f g e e' h hfg he
    cases he with
    | symbol n => exact agree_lookup h hfg n
    | number x => exact agree_pure h (.number x)
    | builtin b => exact agree_pure h (.builtin b)
    | procedure hformals hbody hframe => exact agree_pure h (.procedure hformals hbody hframe)
    | foreign x =>
      cases x with
      | integer n => exact agree_pure h (.foreign _)
      | flag b => exact agree_pure h (.foreign _)
      | text t => exact agree_throw h (.same _)
      | nothing => exact agree_throw h (.same _)
    | list hform =>
      cases hform with
      | nil => exact agree_throw h (.same _)
      | @cons head head' _ _ hhead hoperands =>
        have hinvalid : Agree R s t
            (displayed depth head >>= fun shown => throw (.invalidHead head shown))
            (displayed depth head' >>= fun shown => throw (.invalidHead head' shown))
            Value.Renamed :=
          agree_complain (agree_displayed h depth hhead.looksLike) fun R' shown hold =>
            .invalidHead (hhead.mono hold) shown
        cases hhead
        case symbol n =>
          refine agree_bind (agree_lookup h hfg n) fun R' s' t' v w hcont hv => ?_
          exact apply_agree ih hcont.matched (hcont.old f g hfg) hv
            (Value.forall₂_renamed_mono (.cons (.symbol n) hoperands) hcont.old)
        all_goals exact hinvalid

end Operations

end Eval

/-- Values that are equal up to a matching, and displayed alike under every bound. -/
def Value.Corresponds (R : Matching) (v w : Value) : Prop :=
  v.Renamed R w ∧ ∀ bound, v.display bound = w.display bound

/-- Evaluation reads locally. An expression that captures no frame, evaluated in matched frames of
matched stores, gives values that are equal up to a matching and displayed alike, or faults that are
equal up to a matching and worded alike; and it leaves stores that are matched again, the old
matching extended by frames that the two evaluations have added. So frames that the frame of the
evaluation does not reach have no influence: whatever else two stores hold, if they have the
reachable frames in common, the evaluations go the same way. -/
theorem eval_reads_locally (depth : Nat) {e : Value} (he : ∀ g, ¬ e.Captures g) :
    (∀ {R : Matching} {s t : Store} {f g : FrameId}, Store.Matched R s t → R f g →
      Eval.Agree R s t (eval depth f e) (eval depth g e) Value.Corresponds) ∧
    (∀ {s t : Store} {f : FrameId},
      (∀ g, s.Reaches f g → ∃ fr, s.get? g = some fr ∧ t.get? g = some fr) →
      Eval.Agree (fun g g' => g = g' ∧ s.Reaches f g) s t (eval depth f e) (eval depth f e)
        Value.Corresponds) := by
  have hmatched : ∀ {R : Matching} {s t : Store} {f g : FrameId}, Store.Matched R s t → R f g →
      Eval.Agree R s t (eval depth f e) (eval depth g e) Value.Corresponds := by
    intro R s t f g h hfg
    have hself : e.Renamed R e := Value.renamed_self e fun k hk => absurd hk (he k)
    exact (Eval.eval_isUniform depth h hfg hself).imp fun R' v w hvw =>
      ⟨hvw, fun bound => hvw.looksLike.display bound⟩
  exact ⟨hmatched, fun h => hmatched (Store.matched_of_reaches h) ⟨rfl, .refl⟩⟩

namespace Session

theorem initialBindings_captures {p : String × Value} (hp : p ∈ initialBindings) (g : FrameId) :
    ¬ p.2.Captures g :=
  fun hg => Nat.not_lt_zero g ((initialBindings_wellFormed p hp).captures_lt hg)

/-- The outermost frames of two new sessions are matched, whatever else there is in the stores. -/
theorem register_matched (s t : Store) :
    Store.Matched (fun f g => f = s.next ∧ g = t.next) ((s.push none).register s.next)
      ((t.push none).register t.next) := by
  refine (Store.matched_outermost s t).defineAll ⟨rfl, rfl⟩ ?_
  refine List.forall₂_same.2 fun p hp => ⟨rfl, Value.renamed_self p.2 fun g hg => ?_⟩
  exact absurd hg (initialBindings_captures hp g)

/-- The global frame of a fresh session reaches no other frame. -/
theorem start_reaches {g : FrameId} (h : start.Reaches globalFrame g) : g = globalFrame := by
  induction h with
  | refl => rfl
  | tail _ hrefers ih =>
    subst ih
    rcases hrefers with ⟨fr, hfr, houter⟩ | ⟨p, hp, hcaptures⟩
    · obtain rfl : ({ bindings := initialBindings } : Frame) = fr := Option.some.inj hfr
      simp at houter
    · exact absurd hcaptures (initialBindings_captures hp _)

end Session

/-- A call is evaluated in a fresh session, in a new session beside it in one store, and in the
fresh session again when there is another frame. -/
theorem sampleCall_reads_locally :
    (∀ g, ¬ Value.sampleCall.Captures g) ∧
    (((eval 9 0 Value.sampleCall).on Session.start).2.own? 1 "y").isSome = true ∧
    Eval.Agree (fun f g => f = 0 ∧ g = 1) Session.start ((Session.start.push none).register 1)
      (eval 9 0 Value.sampleCall) (eval 9 1 Value.sampleCall) Value.Corresponds ∧
    Eval.Agree (fun g g' => g = g' ∧ Session.start.Reaches 0 g) Session.start
      (Session.start.push none) (eval 9 0 Value.sampleCall) (eval 9 0 Value.sampleCall)
      Value.Corresponds := by
  have hframes : ∀ g, ¬ Value.sampleCall.Captures g := by
    intro g
    simp [Value.sampleCall, Value.captures_list]
  obtain ⟨hrenamed, hreached⟩ := eval_reads_locally 9 hframes
  refine ⟨hframes, by decide +kernel,
    hrenamed (Session.register_matched {} Session.start) ⟨rfl, rfl⟩, hreached fun g hg => ?_⟩
  obtain rfl := Session.start_reaches hg
  exact ⟨{ bindings := initialBindings }, rfl, rfl⟩

end Lisplet
