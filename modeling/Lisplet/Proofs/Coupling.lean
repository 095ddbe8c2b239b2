import Lisplet.Proofs.Computation

/-! Two evaluations in step. They go through the same expressions in the same frames, but on stores
that may differ, and the second may be allowed more depth. A coupling says how the stores may differ
and which expressions are met, in such a way that the difference does not show: the names in these
expressions have the same values in both stores, and what is done to both keeps them related. Then
the first evaluation ends in a fault that the coupling excuses, or both end alike and in related
stores. There is one rule for each way of building a computation. -/

namespace Lisplet

namespace Value

variable {shallow deep : Nat}

theorem findSome?_obstacle?_mono {vs : List Value}
    (h : ∀ v ∈ vs, v.obstacle? shallow = some .tooDeep ∨ v.obstacle? deep = v.obstacle? shallow) :
    vs.findSome? (obstacle? shallow) = some .tooDeep ∨
      vs.findSome? (obstacle? deep) = vs.findSome? (obstacle? shallow) := by
  induction vs with
  | nil => exact .inr rfl
  | cons v vs ih =>
    rw [List.findSome?_cons, List.findSome?_cons]
    rcases h v (by simp) with hdeep | hsame
    · rw [hdeep]
      exact .inl rfl
    · rw [hsame]
      cases v.obstacle? shallow with
      | some o => exact .inr rfl
      | none => exact ih fun u hu => h u (by simp [hu])

/-- A larger bound on nesting only removes the obstacle of nesting too deep. -/
theorem obstacle?_mono (hle : shallow ≤ deep) (v : Value) :
    v.obstacle? shallow = some .tooDeep ∨ v.obstacle? deep = v.obstacle? shallow := by
  induction shallow generalizing deep v with
  | zero => exact .inl (by cases v <;> rfl)
  | succ shallow ih =>
    obtain ⟨deep, rfl⟩ : ∃ d, deep = d + 1 := ⟨deep - 1, by omega⟩
    have hle' : shallow ≤ deep := Nat.le_of_succ_le_succ hle
    cases v with
    | list items => exact findSome?_obstacle?_mono fun v _ => ih hle' v
    | procedure formals body frame =>
      rw [obstacle?, obstacle?]
      by_cases hdepth : depths formals ≤ shallow
      · rw [if_pos hdepth, if_pos (Nat.le_trans hdepth hle')]
        exact .inr rfl
      · rw [if_neg hdepth]
        exact .inl rfl
    | foreign x => cases x <;> exact .inr rfl
    | symbol n => exact .inr rfl
    | number x => exact .inr rfl
    | builtin b => exact .inr rfl

theorem display_mono (hle : shallow ≤ deep) (v : Value) :
    v.display shallow = .error .tooDeep ∨ v.display deep = v.display shallow := by
  unfold display
  rcases obstacle?_mono hle v with hdeep | hsame
  · rw [hdeep]
    exact .inl rfl
  · rw [hsame]
    exact .inr rfl

/-- A value that is a procedure only if its body is in `Code`. -/
def RunsIn (Code : Value → Prop) : Value → Prop
  | .procedure _ body _ => Code body
  | _ => True

theorem runsIn_ofBool (Code : Value → Prop) (b : Bool) : (ofBool b).RunsIn Code := by
  cases b <;> trivial

end Value

/-- How two evaluations in step may differ. -/
structure Coupling where
  /-- How the stores of the two are related. -/
  Stores : Store → Store → Prop
  /-- The expressions that are met. -/
  Code : Value → Prop
  /-- The faults of the first evaluation after which nothing is said of the second. -/
  Excused : Fault → Prop
  item : ∀ {items : List Value} {v : Value}, Code (.list items) → v ∈ items → Code v
  body : ∀ {formals : List Value} {body : Value} {f : FrameId},
    Code (.procedure formals body f) → Code body
  lookup : ∀ {s t : Store} {n : String}, Stores s t → Code (.symbol n) → ∀ f,
    t.lookup? f n = s.lookup? f n
  value : ∀ {s t : Store} {n : String}, Stores s t → Code (.symbol n) → ∀ f v,
    s.lookup? f n = some v → v.RunsIn Code
  define : ∀ {s t : Store} {v : Value}, Stores s t → v.RunsIn Code → ∀ f n,
    Stores (s.define f n v) (t.define f n v)
  next : ∀ {s t : Store}, Stores s t → t.next = s.next
  push : ∀ {s t : Store}, Stores s t → ∀ o, Stores (s.push (some o)) (t.push (some o))

namespace Coupling

variable {c : Coupling}

theorem runsIn_of_code (c : Coupling) {v : Value} (h : c.Code v) : v.RunsIn c.Code := by
  cases v
  case procedure formals body f => exact c.body h
  all_goals trivial

/-- The second evaluation may be allowed the depth `deep` where the first is allowed `shallow`: the
two are equal, or the coupling excuses exhaustion. -/
structure Deepens (c : Coupling) (shallow deep : Nat) : Prop where
  le : shallow ≤ deep
  excused : shallow < deep → ∀ fault : Fault, fault.isExhaustion = true → c.Excused fault

theorem Deepens.pred {shallow deep : Nat} (h : c.Deepens (shallow + 1) (deep + 1)) :
    c.Deepens shallow deep :=
  ⟨Nat.le_of_succ_le_succ h.le, fun hlt => h.excused (Nat.succ_lt_succ hlt)⟩

end Coupling

namespace Eval

variable {c : Coupling}

section Rules

variable {α β : Type} {P : α → Prop} {Q : β → Prop}

/-- Run from related stores, the first computation ends in an excused fault, or both end alike and
in related stores, and with a value as in `P` if they give one. -/
def Follows (c : Coupling) (x y : Eval α) (P : α → Prop) : Prop :=
  ∀ s t, c.Stores s t →
    (∃ fault, (x.on s).1 = .error fault ∧ c.Excused fault) ∨
      c.Stores (x.on s).2 (y.on t).2 ∧ (y.on t).1 = (x.on s).1 ∧ ∀ a, (x.on s).1 = .ok a → P a

theorem follows_pure {a : α} (h : P a) : Follows c (pure a) (pure a) P := by
  intro s t hst
  refine .inr ⟨hst, rfl, fun b hb => ?_⟩
  obtain rfl : a = b := by simpa using hb
  exact h

theorem follows_throw (fault : Fault) : Follows c (throw fault) (throw fault) P := by
  intro s t hst
  exact .inr ⟨hst, rfl, by simp⟩

theorem follows_excused {fault : Fault} (h : c.Excused fault) (y : Eval α) :
    Follows c (throw fault) y P :=
  fun _ _ _ => .inl ⟨fault, rfl, h⟩

theorem follows_bind {x y : Eval α} {k l : α → Eval β} (h : Follows c x y P)
    (hk : ∀ a, P a → Follows c (k a) (l a) Q) : Follows c (x >>= k) (y >>= l) Q := by
  intro s t hst
  have hxy := h s t hst
  rw [on_bind, on_bind]
  generalize x.on s = runx at hxy ⊢
  generalize y.on t = runy at hxy ⊢
  obtain ⟨outx, s'⟩ := runx
  obtain ⟨outy, t'⟩ := runy
  rcases hxy with ⟨fault, hfault, hexcused⟩ | ⟨hst', hout, hP⟩
  · obtain rfl : outx = .error fault := hfault
    exact .inl ⟨fault, rfl, hexcused⟩
  · obtain rfl : outy = outx := hout
    cases outy with
    | error fault => exact .inr ⟨hst', rfl, by simp⟩
    | ok a => exact hk a (hP a rfl) s' t' hst'

theorem follows_map {x y : Eval α} {g : α → β} (h : Follows c x y fun a => Q (g a)) :
    Follows c (g <$> x) (g <$> y) Q := by
  rw [map_eq_pure_bind, map_eq_pure_bind]
  exact follows_bind h fun a ha => follows_pure ha

/-- Loops that collect results. -/
theorem follows_mapM {k l : α → Eval β} {xs : List α}
    (step : ∀ a ∈ xs, Follows c (k a) (l a) Q) :
    Follows c (xs.mapM k) (xs.mapM l) fun bs => ∀ b ∈ bs, Q b := by
  induction xs with
  | nil => exact follows_pure (by simp)
  | cons a xs ih =>
    rw [List.mapM_cons, List.mapM_cons]
    refine follows_bind (step a (by simp)) fun b hb => ?_
    refine follows_bind (ih fun x hx => step x (by simp [hx])) fun bs hbs => ?_
    exact follows_pure (List.forall_mem_cons.2 ⟨hb, hbs⟩)

/-- Loops that hand a result on. -/
theorem follows_foldlM {k l : β → α → Eval β} {xs : List α}
    (step : ∀ a ∈ xs, ∀ b, Follows c (k b a) (l b a) Q) {b : β} (h : Q b) :
    Follows c (xs.foldlM k b) (xs.foldlM l b) Q := by
  induction xs generalizing b with
  | nil => exact follows_pure h
  | cons a xs ih =>
    rw [List.foldlM_cons, List.foldlM_cons]
    refine follows_bind (step a (by simp) b) fun b' hb => ?_
    exact ih (fun x hx => step x (by simp [hx])) hb

/-- Loops that are run for their effect. -/
theorem follows_forM {k l : α → Eval PUnit} {xs : List α}
    (step : ∀ a ∈ xs, Follows c (k a) (l a) fun _ => True) :
    Follows c (xs.forM k) (xs.forM l) fun _ => True := by
  induction xs with
  | nil => exact follows_pure trivial
  | cons a xs ih =>
    refine follows_bind (step a (by simp)) fun _ _ => ?_
    exact ih fun x hx => step x (by simp [hx])

end Rules

section Primitives

variable {shallow deep : Nat}

theorem follows_displayed (hdeep : c.Deepens shallow deep) (v : Value) :
    Follows c (displayed shallow v) (displayed deep v) fun _ => True := by
  have hsame : v.display deep = v.display shallow →
      Follows c (displayed shallow v) (displayed deep v) fun _ => True := by
    intro heq
    rw [displayed, displayed, heq]
    cases v.display shallow with
    | ok text => exact follows_pure trivial
    | error o => exact follows_throw _
  -- At equal bounds the coupling need not excuse exhaustion: both sides meet it, or neither does.
  rcases Nat.eq_or_lt_of_le hdeep.le with rfl | hlt
  · exact hsame rfl
  · rcases v.display_mono hdeep.le with htoo | heq
    · rw [displayed, htoo]
      exact follows_excused (hdeep.excused hlt _ rfl) _
    · exact hsame heq

theorem follows_inspected (hdeep : c.Deepens shallow deep) (v : Value) :
    Follows c (inspected shallow v) (inspected deep v) fun _ => True := by
  unfold inspected
  by_cases hv : v.depth ≤ shallow
  · rw [if_pos hv, if_pos (Nat.le_trans hv hdeep.le)]
    exact follows_pure trivial
  · rw [if_neg hv]
    rcases Nat.eq_or_lt_of_le hdeep.le with rfl | hlt
    · rw [if_neg hv]
      exact follows_throw _
    · exact follows_excused (hdeep.excused hlt _ rfl) _

theorem follows_lookup {n : String} (hn : c.Code (.symbol n)) (f : FrameId) :
    Follows c (lookup f n) (lookup f n) (Value.RunsIn c.Code) := by
  intro s t hst
  rw [on_lookup, on_lookup, c.lookup hst hn]
  cases h : s.lookup? f n with
  | none => exact .inr ⟨hst, rfl, by simp⟩
  | some v =>
    refine .inr ⟨hst, rfl, fun w hw => ?_⟩
    obtain rfl : v = w := by simpa using hw
    exact c.value hst hn f v h

/-- Equal values are bound in both stores, whatever was bound there before. -/
theorem follows_bindSymbol (hdeep : c.Deepens shallow deep) (f : FrameId) (name : Value) {v : Value}
    (hv : v.RunsIn c.Code) :
    Follows c (discard (bindSymbol shallow f name v)) (discard (bindSymbol deep f name v))
      fun _ => True := by
  cases name
  case symbol n => exact fun s t hst => .inr ⟨c.define hst hv f n, rfl, fun _ _ => trivial⟩
  all_goals
    refine follows_map (Q := fun _ => True) (follows_bind (follows_inspected hdeep _) fun _ _ => ?_)
    exact follows_throw _

theorem follows_newFrame (outer : FrameId) :
    Follows c (newFrame (some outer)) (newFrame (some outer)) fun _ => True := by
  intro s t hst
  refine .inr ⟨c.push hst outer, ?_, fun _ _ => trivial⟩
  rw [on_newFrame, on_newFrame, c.next hst]

theorem follows_extend (hdeep : c.Deepens shallow deep) (formals : List Value) {args : List Value}
    (hargs : ∀ v ∈ args, v.RunsIn c.Code) (outer : FrameId) :
    Follows c (extend shallow formals args outer) (extend deep formals args outer)
      fun _ => True := by
  refine follows_bind (follows_newFrame outer) fun f _ => ?_
  refine follows_bind (follows_forM fun pair hpair => ?_) fun _ _ => follows_pure trivial
  exact follows_bindSymbol hdeep f pair.1 (hargs pair.2 (List.of_mem_zip hpair).2)

end Primitives

section Operations

variable {shallow deep : Nat} {ev ev' : Evaluator} {form : List Value}

/-- Evaluators that go in step on the expressions of a coupling. -/
def InStep (c : Coupling) (ev ev' : Evaluator) : Prop :=
  ∀ f e, c.Code e → Follows c (ev f e) (ev' f e) (Value.RunsIn c.Code)

theorem follows_operandNumber (hdeep : c.Deepens shallow deep) (op : Builtin) (v : Value) :
    Follows c (operandNumber shallow op v) (operandNumber deep op v) fun _ => True := by
  have hshown : Follows c (displayed shallow v >>= fun shown => throw (.notNumber op shown))
      (displayed deep v >>= fun shown => throw (.notNumber op shown)) fun (_ : Float) => True :=
    follows_bind (follows_displayed hdeep v) fun _ _ => follows_throw _
  cases v with
  | number x => exact follows_pure trivial
  | foreign x =>
    cases x with
    | integer n =>
      unfold operandNumber
      dsimp only
      split
      · exact follows_pure trivial
      · exact follows_throw _
    | flag b => exact hshown
    | text t => exact hshown
    | nothing => exact hshown
  | symbol n => exact hshown
  | builtin b => exact hshown
  | list items => exact hshown
  | procedure formals body frame => exact hshown

/-- The arithmetic operations, all three at once: they go by the numbers of their operands. -/
theorem follows_arithmetic (hdeep : c.Deepens shallow deep) (hev : InStep c ev ev')
    (op : Builtin) (f : FrameId) {operands : List Value} (hoperands : ∀ e ∈ operands, c.Code e)
    {result : List Float → Value} (hresult : ∀ xs, (result xs).RunsIn c.Code) :
    Follows c (operandNumbers shallow ev op f operands >>= fun xs => pure (result xs))
      (operandNumbers deep ev' op f operands >>= fun xs => pure (result xs))
      (Value.RunsIn c.Code) := by
  refine follows_bind (follows_mapM (Q := fun _ => True) fun e he => ?_) fun xs _ =>
    follows_pure (hresult xs)
  exact follows_bind (hev f e (hoperands e he)) fun v _ => follows_operandNumber hdeep op v

theorem follows_define (hdeep : c.Deepens shallow deep) (hev : InStep c ev ev') (f : FrameId)
    (hform : ∀ e ∈ form, c.Code e) :
    Follows c (applyBuiltin shallow ev f form .define) (applyBuiltin deep ev' f form .define)
      (Value.RunsIn c.Code) := by
  match form with
  | [] | [_] | [_, _] | _ :: _ :: _ :: _ :: _ =>
    simp only [applyBuiltin]
    exact follows_throw _
  | [_, target, e] =>
    cases target
    case symbol n =>
      refine follows_bind (hev f e (hform e (by simp))) fun v hv => ?_
      exact follows_bind (follows_bindSymbol hdeep f _ hv) fun _ _ => follows_pure trivial
    all_goals exact follows_bind (follows_inspected hdeep _) fun _ _ => follows_throw _

theorem follows_branch (hev : InStep c ev ev') (f : FrameId) (hform : ∀ e ∈ form, c.Code e) :
    Follows c (applyBuiltin shallow ev f form .branch) (applyBuiltin deep ev' f form .branch)
      (Value.RunsIn c.Code) := by
  match form with
  | [] | [_] | [_, _] | [_, _, _] | _ :: _ :: _ :: _ :: _ :: _ => exact follows_throw _
  | [_, test, conseq, alt] =>
    refine follows_bind (hev f test (hform test (by simp))) fun v _ => ?_
    split
    · exact hev f conseq (hform conseq (by simp))
    · exact hev f alt (hform alt (by simp))

/-- The procedure that is made has a part of the form as its body. -/
theorem follows_lambda (f : FrameId) (hform : ∀ e ∈ form, c.Code e) :
    Follows c (applyBuiltin shallow ev f form .lambda) (applyBuiltin deep ev' f form .lambda)
      (Value.RunsIn c.Code) := by
  match form with
  | [] | [_] | [_, _] | _ :: _ :: _ :: _ :: _ =>
    simp only [applyBuiltin]
    exact follows_throw _
  | [_, formals, body] =>
    cases formals
    case list formals =>
      simp only [applyBuiltin]
      split
      · exact follows_pure (hform body (by simp))
      · exact follows_throw _
    all_goals exact follows_throw _

theorem follows_quote (f : FrameId) (hform : ∀ e ∈ form, c.Code e) :
    Follows c (applyBuiltin shallow ev f form .quote) (applyBuiltin deep ev' f form .quote)
      (Value.RunsIn c.Code) := by
  match form with
  | [] | [_] | _ :: _ :: _ :: _ => exact follows_throw _
  | [_, e] => exact follows_pure (c.runsIn_of_code (hform e (by simp)))

theorem applyBuiltin_follows (hdeep : c.Deepens shallow deep) (hev : InStep c ev ev') (f : FrameId)
    (hform : ∀ e ∈ form, c.Code e) (b : Builtin) :
    Follows c (applyBuiltin shallow ev f form b) (applyBuiltin deep ev' f form b)
      (Value.RunsIn c.Code) := by
  have htail : ∀ e ∈ form.tail, c.Code e := fun e he => hform e (List.mem_of_mem_tail he)
  cases b with
  | sequence => exact follows_foldlM (fun e he _ => hev f e (htail e he)) trivial
  | define => exact follows_define hdeep hev f hform
  | branch => exact follows_branch hev f hform
  | lambda => exact follows_lambda f hform
  | quote => exact follows_quote f hform
  | product => exact follows_arithmetic hdeep hev .product f htail fun _ => trivial
  | difference => exact follows_arithmetic hdeep hev .difference f htail fun _ => trivial
  | equality =>
    exact follows_arithmetic hdeep hev .equality f htail fun _ => Value.runsIn_ofBool _ _

theorem apply_follows (hdeep : c.Deepens shallow deep) (hev : InStep c ev ev') (f : FrameId)
    {head : Value} (hhead : head.RunsIn c.Code) (hform : ∀ e ∈ form, c.Code e) :
    Follows c (apply shallow ev f head form) (apply deep ev' f head form)
      (Value.RunsIn c.Code) := by
  cases head
  case builtin b => exact applyBuiltin_follows hdeep hev f hform b
  case procedure formals body frame =>
    refine follows_bind (follows_mapM fun e he => hev f e (hform e (List.mem_of_mem_tail he)))
      fun args hargs => ?_
    exact follows_bind (follows_extend hdeep formals hargs frame) fun k _ => hev k body hhead
  all_goals exact follows_bind (follows_displayed hdeep _) fun _ _ => follows_throw _

/-- Evaluation goes in step on the expressions of any coupling. -/
theorem eval_inStep (hdeep : c.Deepens shallow deep) : InStep c (eval shallow) (eval deep) := by
  induction shallow generalizing deep with
  | zero =>
    intro f e _
    cases deep with
    | zero => exact follows_throw _
    | succ deep => exact follows_excused (hdeep.excused (Nat.succ_pos deep) _ rfl) _
  | succ shallow ih =>
    intro f e he
    obtain ⟨deep, rfl⟩ : ∃ d, deep = d + 1 := ⟨deep - 1, by have := hdeep.le; omega⟩
    have hdeep' := hdeep.pred
    cases e with
    | symbol n => exact follows_lookup he f
    | number x => exact follows_pure trivial
    | builtin b => exact follows_pure trivial
    | procedure formals body frame => exact follows_pure (c.body he)
    | foreign x =>
      cases x with
      | integer n => exact follows_pure trivial
      | flag b => exact follows_pure trivial
      | text t => exact follows_throw _
      | nothing => exact follows_throw _
    | list items =>
      cases items with
      | nil => exact follows_throw _
      | cons head operands =>
        cases head
        case symbol n =>
          refine follows_bind (follows_lookup (c.item he (by simp)) f) fun v hv => ?_
          exact apply_follows hdeep' (ih hdeep') f hv fun e' he' => c.item he he'
        all_goals exact follows_bind (follows_displayed hdeep' _) fun _ _ => follows_throw _

end Operations

end Eval

end Lisplet
