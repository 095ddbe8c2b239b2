import Lisplet.Eval

/-! Assertions about computations. `Ends` says how a computation ends when it is run from a store:
what holds of the value and the store if it gives one, and what holds of the fault and the store if
it fails. There is one rule for each way of building a computation, so no proof about evaluation
has to run one by hand. -/

namespace Lisplet.Eval

section Rules

variable {α β : Type} {s : Store} {P : α → Store → Prop} {Q : β → Store → Prop}
  {E : Fault → Store → Prop}

/-- Run from `s`, a computation ends with a value and a store as in `P`, or with a fault and a
store as in `E`. -/
def Ends (act : Eval α) (s : Store) (P : α → Store → Prop) (E : Fault → Store → Prop) : Prop :=
  match act.on s with
  | (.ok a, s') => P a s'
  | (.error fault, s') => E fault s'

theorem ends_pure {a : α} (h : P a s) : (pure a : Eval α).Ends s P E := h

theorem ends_throw {fault : Fault} (h : E fault s) : (throw fault : Eval α).Ends s P E := h

theorem Ends.mono {act : Eval α} {P' : α → Store → Prop} {E' : Fault → Store → Prop}
    (h : act.Ends s P E) (hP : ∀ a s', P a s' → P' a s')
    (hE : ∀ fault s', E fault s' → E' fault s') : act.Ends s P' E' := by
  unfold Ends at h ⊢
  rcases hx : act.on s with ⟨_ | _, _⟩ <;> rw [hx] at h
  · exact hE _ _ h
  · exact hP _ _ h

theorem Ends.imp {act : Eval α} {P' : α → Store → Prop} (h : act.Ends s P E)
    (hP : ∀ a s', P a s' → P' a s') : act.Ends s P' E :=
  h.mono hP fun _ _ hE => hE

theorem Ends.of_ok {act : Eval α} {a : α} {s' : Store} (h : act.Ends s P E)
    (hok : act.on s = (.ok a, s')) : P a s' := by
  unfold Ends at h
  rwa [hok] at h

theorem Ends.of_error {act : Eval α} {fault : Fault} (h : act.Ends s P E)
    (hfault : (act.on s).1 = .error fault) : E fault (act.on s).2 := by
  unfold Ends at h
  rcases hx : act.on s with ⟨_ | _, _⟩ <;> rw [hx] at h hfault <;> cases hfault
  exact h

theorem ends_bind {x : Eval α} {k : α → Eval β}
    (h : x.Ends s (fun a s' => (k a).Ends s' Q E) E) : (x >>= k).Ends s Q E := by
  unfold Ends at h ⊢
  rw [on_bind]
  rcases hx : x.on s with ⟨_ | _, _⟩ <;> rw [hx] at h <;> exact h

theorem ends_map {x : Eval α} {g : α → β} (h : x.Ends s (fun a s' => Q (g a) s') E) :
    (g <$> x).Ends s Q E := by
  rw [map_eq_pure_bind]
  exact ends_bind h

/-- A loop that collects results: `P` holds of the results so far. -/
theorem ends_mapM {k : α → Eval β} {P : List β → Store → Prop} {xs : List α}
    (step : ∀ a ∈ xs, ∀ bs s', P bs s' → (k a).Ends s' (fun b s'' => P (bs ++ [b]) s'') E)
    (h : P [] s) : (xs.mapM k).Ends s P E := by
  suffices hgen : ∀ bs s, P bs s → (xs.mapM k).Ends s (fun cs s' => P (bs ++ cs) s') E by
    simpa using hgen [] s h
  clear h
  induction xs with
  | nil => intro bs s h; exact ends_pure (by simpa using h)
  | cons a xs ih =>
    intro bs s h
    rw [List.mapM_cons]
    apply ends_bind
    refine (step a (by simp) bs s h).imp fun b s' hb => ?_
    apply ends_bind
    refine (ih (fun x hx => step x (by simp [hx])) _ s' hb).imp fun cs s'' hcs => ?_
    exact ends_pure (by simpa using hcs)

/-- A loop that hands a result on: `P` holds of the result at hand. -/
theorem ends_foldlM {k : β → α → Eval β} {xs : List α}
    (step : ∀ a ∈ xs, ∀ b s', Q b s' → (k b a).Ends s' Q E) {b : β} (h : Q b s) :
    (xs.foldlM k b).Ends s Q E := by
  induction xs generalizing b s with
  | nil => exact ends_pure h
  | cons a xs ih =>
    rw [List.foldlM_cons]
    apply ends_bind
    refine (step a (by simp) b s h).imp fun b' s' hb => ?_
    exact ih (fun x hx => step x (by simp [hx])) hb

/-- A loop that is run for its effect: `I` holds of every store on the way. -/
theorem ends_forM {k : α → Eval PUnit} {I : Store → Prop} {xs : List α}
    (step : ∀ a ∈ xs, ∀ s', I s' → (k a).Ends s' (fun _ => I) E) (h : I s) :
    (xs.forM k).Ends s (fun _ => I) E := by
  induction xs generalizing s with
  | nil => exact ends_pure h
  | cons a xs ih =>
    change (k a >>= fun _ => xs.forM k).Ends s _ _
    apply ends_bind
    refine (step a (by simp) s h).imp fun _ s' hs => ?_
    exact ih (fun x hx => step x (by simp [hx])) hs

/-- Run from `s`, a computation leaves a store as in `I`, whether it fails or not. -/
def Leaves (act : Eval α) (s : Store) (I : Store → Prop) : Prop :=
  act.Ends s (fun _ => I) fun _ => I

theorem leaves_iff {act : Eval α} {I : Store → Prop} : act.Leaves s I ↔ I (act.on s).2 := by
  unfold Leaves Ends
  rcases act.on s with ⟨_ | _, _⟩ <;> rfl

end Rules

section Primitives

variable {s : Store} {E : Fault → Store → Prop}

theorem ends_displayed {P : String → Store → Prop} {depth : Nat} {v : Value}
    (hP : ∀ text, v.display depth = .ok text → P text s)
    (hE : ∀ o, v.display depth = .error o → E (.undisplayable o) s) :
    (displayed depth v).Ends s P E := by
  unfold displayed
  cases h : v.display depth with
  | ok text => exact ends_pure (hP text h)
  | error o => exact ends_throw (hE o h)

theorem ends_inspected {P : String → Store → Prop} {depth : Nat} {v : Value}
    (hP : ∀ text, P text s) (hE : depth < v.depth → E (.undisplayable .tooDeep) s) :
    (inspected depth v).Ends s P E := by
  unfold inspected
  split
  · exact ends_pure (hP _)
  · rename_i hdeep
    exact ends_throw (hE (Nat.lt_of_not_le hdeep))

theorem ends_lookup {P : Value → Store → Prop} {f : FrameId} {n : String}
    (hP : ∀ v, s.lookup? f n = some v → P v s) (hE : E (.undefined (.symbol n) n) s) :
    (lookup f n).Ends s P E := by
  unfold Ends
  rw [on_lookup]
  cases h : s.lookup? f n with
  | some v => exact hP v h
  | none => exact hE

theorem ends_bindSymbol {P : Option Value → Store → Prop} {depth : Nat} {f : FrameId}
    {name v : Value} (hP : ∀ n, name = .symbol n → P (s.own? f n) (s.define f n v))
    (hE : name.isSymbol = false → ∀ shown, E (.misuse (.bindTarget shown)) s)
    (hdeep : name.isSymbol = false → E (.undisplayable .tooDeep) s) :
    (bindSymbol depth f name v).Ends s P E := by
  cases name
  case symbol n => exact hP n rfl
  all_goals
    exact ends_bind
      (ends_inspected (fun shown => ends_throw (hE rfl shown)) fun _ => hdeep rfl)

end Primitives

section Operations

variable {depth : Nat} {ev : Evaluator} {f : FrameId} {form : List Value} {s : Store}
  {P : Value → Store → Prop} {E : Fault → Store → Prop}

/-- The faults with which a special form refuses a form of the wrong shape. One of them shows a
part of the form, which may be nested too deep for that. -/
inductive Refusal : Builtin → Fault → Prop where
  | shape (cause : Misuse) (h : ∀ shown, cause ≠ .bindTarget shown) :
      Refusal cause.form (.misuse cause)
  | tooDeep : Refusal .define (.undisplayable .tooDeep)

theorem ends_sequence (step : ∀ e ∈ form.tail, ∀ v s', P v s' → (ev f e).Ends s' P E)
    (h : P (.number 0.0) s) : (applyBuiltin depth ev f form .sequence).Ends s P E := by
  simp only [applyBuiltin]
  exact ends_foldlM step h

/-- A definition, with the parts of the form that are nested too deep to be shown. -/
theorem ends_define_shown
    (good : ∀ head n e, form = [head, .symbol n, e] →
      (ev f e).Ends s (fun v s' => P .unit (s'.define f n v)) E)
    (bad : ∀ fault, Refusal .define fault → fault ≠ .undisplayable .tooDeep → E fault s)
    (deep : ∀ e ∈ form, depth < e.depth → E (.undisplayable .tooDeep) s) :
    (applyBuiltin depth ev f form .define).Ends s P E := by
  simp only [applyBuiltin]
  split
  · rename_i head n e
    apply ends_bind
    refine (good head n e rfl).imp fun v s' h => ?_
    apply ends_bind
    refine ends_map (ends_bindSymbol ?_ nofun nofun)
    rintro m ⟨⟩
    exact h
  · rename_i target _ _
    apply ends_bind
    refine ends_inspected (fun shown => ?_) (deep target (by simp))
    exact ends_throw (bad _ (.shape (.defineTarget shown) nofun) nofun)
  · exact ends_throw (bad _ (.shape .defineLength nofun) nofun)

theorem ends_define
    (good : ∀ head n e, form = [head, .symbol n, e] →
      (ev f e).Ends s (fun v s' => P .unit (s'.define f n v)) E)
    (bad : ∀ fault, Refusal .define fault → E fault s) :
    (applyBuiltin depth ev f form .define).Ends s P E :=
  ends_define_shown good (fun fault h _ => bad fault h) fun _ _ _ => bad _ .tooDeep

theorem ends_branch
    (good : ∀ head test conseq alt, form = [head, test, conseq, alt] →
      (ev f test).Ends s (fun v s' => (ev f (if v.isTrue then conseq else alt)).Ends s' P E) E)
    (bad : ∀ fault, Refusal .branch fault → E fault s) :
    (applyBuiltin depth ev f form .branch).Ends s P E := by
  simp only [applyBuiltin]
  split
  · rename_i head test conseq alt
    apply ends_bind
    refine (good head test conseq alt rfl).imp fun v s' h => ?_
    split
    · rename_i hv; rw [if_pos hv] at h; exact h
    · rename_i hv; rw [if_neg hv] at h; exact h
  · exact ends_throw (bad _ (.shape .branchLength nofun))

theorem ends_lambda
    (good : ∀ head formals body, form = [head, .list formals, body] →
      (∀ v ∈ formals, v.isSymbol = true) → P (.procedure formals body f) s)
    (bad : ∀ fault, Refusal .lambda fault → E fault s) :
    (applyBuiltin depth ev f form .lambda).Ends s P E := by
  simp only [applyBuiltin]
  split
  · rename_i head formals body
    split
    · rename_i hall
      exact ends_pure (good head formals body rfl (List.all_eq_true.1 hall))
    · exact ends_throw (bad _ (.shape .formalsNotSymbols nofun))
  · exact ends_throw (bad _ (.shape .formalsNotList nofun))
  · exact ends_throw (bad _ (.shape .lambdaLength nofun))

theorem ends_quote (good : ∀ head e, form = [head, e] → P e s)
    (bad : ∀ fault, Refusal .quote fault → E fault s) :
    (applyBuiltin depth ev f form .quote).Ends s P E := by
  simp only [applyBuiltin]
  split
  · exact ends_pure (good _ _ rfl)
  · exact ends_throw (bad _ (.shape .quoteLength nofun))

/-- The faults that an operand which is no number leads to. -/
inductive NotNumber (depth : Nat) (op : Builtin) (v : Value) : Fault → Prop where
  | shown (text : String) : NotNumber depth op v (.notNumber op text)
  | undisplayable (o : Obstacle) (h : v.display depth = .error o) :
      NotNumber depth op v (.undisplayable o)
  | tooLarge (n : Int) (h : v = .foreign (.integer n)) : NotNumber depth op v .tooLarge

theorem ends_operandNumber {P : Float → Store → Prop} {op : Builtin} {v : Value}
    (good : ∀ x, P x s) (bad : ∀ fault, NotNumber depth op v fault → E fault s) :
    (operandNumber depth op v).Ends s P E := by
  unfold operandNumber
  split
  · exact ends_pure (good _)
  · rename_i n
    split
    · exact ends_pure (good _)
    · exact ends_throw (bad _ (.tooLarge n rfl))
  · apply ends_bind
    refine ends_displayed (fun text _ => ?_) fun o ho => bad _ (.undisplayable o ho)
    exact ends_throw (bad _ (.shown text))

theorem ends_operandNumbers {I : Store → Prop} {op : Builtin} {operands : List Value}
    (step : ∀ e ∈ operands, ∀ s', I s' →
      (ev f e).Ends s' (fun v s'' => I s'' ∧ ∀ fault, NotNumber depth op v fault → E fault s'') E)
    (h : I s) : (operandNumbers depth ev op f operands).Ends s (fun _ => I) E := by
  unfold operandNumbers
  refine ends_mapM (P := fun _ => I) (fun e he _ s' hs' => ?_) h
  apply ends_bind
  refine (step e he s' hs').imp fun v s'' hv => ?_
  exact ends_operandNumber (fun _ => hv.1) hv.2

/-- The arithmetic operations, all three at once: a number or a marker of truth comes out. -/
theorem ends_arithmetic {I : Store → Prop} {op : Builtin}
    (hop : op = .product ∨ op = .difference ∨ op = .equality)
    (step : ∀ e ∈ form.tail, ∀ s', I s' →
      (ev f e).Ends s' (fun v s'' => I s'' ∧ ∀ fault, NotNumber depth op v fault → E fault s'') E)
    (number : ∀ x s', I s' → P (.number x) s') (marker : ∀ b s', I s' → P (.ofBool b) s')
    (h : I s) : (applyBuiltin depth ev f form op).Ends s P E := by
  have hops := ends_operandNumbers step h
  rcases hop with rfl | rfl | rfl
  · exact ends_bind (hops.imp fun xs s' hs' => number _ s' hs')
  · exact ends_bind (hops.imp fun xs s' hs' => number _ s' hs')
  · exact ends_bind (hops.imp fun xs s' hs' => marker _ s' hs')

end Operations

section Application

variable {depth : Nat} {ev : Evaluator} {f : FrameId} {s : Store} {E : Fault → Store → Prop}

/-- A new frame with formals bound in it: `I` holds of every store from the new frame on. -/
theorem ends_extend {P : FrameId → Store → Prop} {I : Store → Prop} {formals args : List Value}
    {outer : FrameId}
    (step : ∀ n v s', (.symbol n, v) ∈ formals.zip args → I s' → I (s'.define s.next n v))
    (bad : ∀ name ∈ formals, name.isSymbol = false → ∀ s', I s' →
      E (.undisplayable .tooDeep) s' ∧ ∀ shown, E (.misuse (.bindTarget shown)) s')
    (good : ∀ s', I s' → P s.next s') (h : I (s.push (some outer))) :
    (extend depth formals args outer).Ends s P E := by
  unfold extend
  apply ends_bind
  change Ends _ (s.push (some outer)) _ _
  apply ends_bind
  refine Ends.imp (ends_forM (I := I) (fun pair hpair s' hs' => ?_) h) fun _ s' hs' => good s' hs'
  obtain ⟨name, v⟩ := pair
  refine ends_map (ends_bindSymbol ?_ ?_ ?_)
  · rintro n rfl
    exact step n v s' hpair hs'
  · exact fun hname => (bad name (List.of_mem_zip hpair).1 hname s' hs').2
  · exact fun hname => (bad name (List.of_mem_zip hpair).1 hname s' hs').1

/-- The evaluation of an expression, by its form. -/
theorem ends_eval {P : Value → Store → Prop} {e : Value}
    (empty : e = .list [] → E .emptyApplication s)
    (application : ∀ n operands v, e = .list (.symbol n :: operands) → s.lookup? f n = some v →
      (apply depth (eval depth) f v (.symbol n :: operands)).Ends s P E)
    (invalid : ∀ head operands, e = .list (head :: operands) → head.isSymbol = false →
      (∀ shown, E (.invalidHead head shown) s) ∧
        ∀ o, head.display depth = .error o → E (.undisplayable o) s)
    (symbol : ∀ n v, e = .symbol n → s.lookup? f n = some v → P v s)
    (undefined : ∀ n, E (.undefined (.symbol n) n) s)
    (foreign : ∀ x, e = .foreign x → E (.notEvaluable x) s)
    (itself : e.isSymbol = false → (∀ items, e ≠ .list items) → P e s) :
    (eval (depth + 1) f e).Ends s P E := by
  cases e with
  | symbol n => exact ends_lookup (fun v hv => symbol n v rfl hv) (undefined n)
  | number x => exact ends_pure (itself rfl nofun)
  | builtin b => exact ends_pure (itself rfl nofun)
  | procedure formals body frame => exact ends_pure (itself rfl nofun)
  | foreign x =>
    cases x with
    | integer n => exact ends_pure (itself rfl nofun)
    | flag b => exact ends_pure (itself rfl nofun)
    | text t => exact ends_throw (foreign _ rfl)
    | nothing => exact ends_throw (foreign _ rfl)
  | list items =>
    cases items with
    | nil => exact ends_throw (empty rfl)
    | cons head operands =>
      cases head
      case symbol n =>
        exact ends_bind (ends_lookup (fun v hv => application n operands v rfl hv) (undefined n))
      all_goals
        obtain ⟨hshown, hdeep⟩ := invalid _ operands rfl rfl
        exact ends_bind (ends_displayed (fun text _ => ends_throw (hshown text)) hdeep)

end Application

end Lisplet.Eval
