import Lisplet.Proofs.Sessions
import Lisplet.Proofs.Termination

/-! Applications. A list can be wrong as an application before anything is evaluated: it is empty,
its head is no symbol, or the symbol is unbound, or it stands for what cannot be applied, or for a
special form that wants another shape. Each of these is a flaw, and the application of a flawed form
fails with the fault of its flaw, whatever would evaluate its operands, and leaves the store alone.
The application of any other form performs evaluations, of operands and of bodies, and gives a value
just if each of those gives one that the head accepts. -/

namespace Lisplet

/-- Whether a value can be applied. -/
def Value.isCallable : Value → Bool
  | .builtin _ | .procedure .. => true
  | _ => false

/-- Whether a whole form, head included, has the shape that an operation wants. -/
def Builtin.fits : Builtin → List Value → Bool
  | define, form => form.length == 3 && form[1]?.any Value.isSymbol
  | branch, form => form.length == 4
  | lambda, form => form.length == 3 && form[1]?.any fun
    | .list formals => formals.all Value.isSymbol
    | _ => false
  | quote, form => form.length == 2
  | _, _ => true

namespace Builtin

variable {form : List Value}

theorem fits_define (h : define.fits form = true) : ∃ head n e, form = [head, .symbol n, e] := by
  match form with
  | [head, .symbol n, e] => exact ⟨head, n, e, rfl⟩
  | [] | [_] | [_, _] | _ :: _ :: _ :: _ :: _ => simp [fits] at h
  | [_, .number _, _] | [_, .list _, _] | [_, .builtin _, _] | [_, .procedure .., _]
  | [_, .foreign _, _] => simp [fits, Value.isSymbol] at h

theorem fits_branch (h : branch.fits form = true) :
    ∃ head test conseq alt, form = [head, test, conseq, alt] := by
  match form with
  | [head, test, conseq, alt] => exact ⟨head, test, conseq, alt, rfl⟩
  | [] | [_] | [_, _] | [_, _, _] | _ :: _ :: _ :: _ :: _ :: _ => simp [fits] at h

theorem fits_lambda (h : lambda.fits form = true) :
    ∃ head formals body, form = [head, .list formals, body] ∧
      formals.all Value.isSymbol = true := by
  match form with
  | [head, .list formals, body] => exact ⟨head, formals, body, rfl, by simpa [fits] using h⟩
  | [] | [_] | [_, _] | _ :: _ :: _ :: _ :: _ => simp [fits] at h
  | [_, .number _, _] | [_, .symbol _, _] | [_, .builtin _, _] | [_, .procedure .., _]
  | [_, .foreign _, _] => simp [fits] at h

theorem fits_quote (h : quote.fits form = true) : ∃ head e, form = [head, e] := by
  match form with
  | [head, e] => exact ⟨head, e, rfl⟩
  | [] | [_] | _ :: _ :: _ :: _ => simp [fits] at h

end Builtin

/-- What can be wrong with a list as an application. -/
inductive Flaw where
  | empty
  | head (v : Value)
  | unbound (n : String)
  | uncallable (v : Value)
  | shape (b : Builtin)

/-- What is wrong with a list as an application in frame `f`. -/
inductive Flawed (s : Store) (f : FrameId) : List Value → Flaw → Prop where
  | empty : Flawed s f [] .empty
  | head {v : Value} {operands : List Value} (hv : v.isSymbol = false) :
      Flawed s f (v :: operands) (.head v)
  | unbound {n : String} {operands : List Value} (hn : s.lookup? f n = none) :
      Flawed s f (.symbol n :: operands) (.unbound n)
  | uncallable {n : String} {operands : List Value} {v : Value} (hn : s.lookup? f n = some v)
      (hv : v.isCallable = false) : Flawed s f (.symbol n :: operands) (.uncallable v)
  | shape {n : String} {operands : List Value} {b : Builtin}
      (hn : s.lookup? f n = some (.builtin b)) (hb : b.fits (.symbol n :: operands) = false) :
      Flawed s f (.symbol n :: operands) (.shape b)

/-- The fault that tells of a flaw. -/
inductive Flaw.Raises : Flaw → Fault → Prop where
  | empty : Raises .empty .emptyApplication
  | head (v : Value) : Raises (.head v) (.invalidHead v v.text)
  | unbound (n : String) : Raises (.unbound n) (.undefined (.symbol n) n)
  | uncallable (v : Value) : Raises (.uncallable v) (.notCallable v v.text)
  | shape (cause : Misuse) : Raises (.shape cause.form) (.misuse cause)

theorem Flaw.Raises.not_exhaustion {flaw : Flaw} {fault : Fault} (h : flaw.Raises fault) :
    fault.isExhaustion = false := by
  obtain _ | _ | _ | _ | _ := h <;> rfl

/-- A form without a flaw has a head that can be applied, and the shape for it. -/
theorem exists_head_of_not_flawed {s : Store} {f : FrameId} {form : List Value}
    (h : ∀ flaw, ¬ Flawed s f form flaw) :
    ∃ n operands head, form = .symbol n :: operands ∧ s.lookup? f n = some head ∧
      head.isCallable = true ∧ ∀ b, head = .builtin b → b.fits form = true := by
  match form with
  | [] => exact absurd .empty (h .empty)
  | v :: operands =>
    have hsymbol : v.isSymbol = true := by
      by_contra hv
      exact h _ (.head (Bool.eq_false_iff.2 hv))
    match v with
    | .symbol n =>
      obtain ⟨head, hn⟩ : ∃ head, s.lookup? f n = some head := by
        by_contra hnone
        exact h _ (.unbound (Option.eq_none_iff_forall_ne_some.2 (not_exists.1 hnone)))
      refine ⟨n, operands, head, rfl, hn, ?_, ?_⟩
      · by_contra hhead
        exact h _ (.uncallable hn (Bool.eq_false_iff.2 hhead))
      · rintro b rfl
        by_contra hb
        exact h _ (.shape hn (Bool.eq_false_iff.2 hb))

namespace Eval

/-- The application of a list, with an evaluator for what has to be evaluated for it. -/
def application (depth : Nat) (ev : Evaluator) (f : FrameId) : List Value → Eval Value
  | [] => throw .emptyApplication
  | .symbol n :: operands => do apply depth ev f (← lookup f n) (.symbol n :: operands)
  | head :: _ => do throw (.invalidHead head (← displayed depth head))

/-- A list is evaluated as an application. -/
theorem eval_list (depth : Nat) (f : FrameId) (form : List Value) :
    eval (depth + 1) f (.list form) = application depth (eval depth) f form := by
  rcases form with _ | ⟨head, operands⟩
  · rfl
  · cases head <;> rfl

theorem on_application_symbol {depth : Nat} {ev : Evaluator} {f : FrameId} {s : Store} {n : String}
    {operands : List Value} {head : Value} (hn : s.lookup? f n = some head) :
    (application depth ev f (.symbol n :: operands)).on s =
      (apply depth ev f head (.symbol n :: operands)).on s := by
  rw [application, on_bind, on_lookup, hn]

section Refused

variable {α : Type} {f : FrameId} {s : Store} {form : List Value}

/-- Run from `s`, a computation under a bound fails with one fault and leaves the store as it was.
It can fail for lack of depth instead, if the bound is below `size`. -/
def Fails (act : Nat → Eval α) (s : Store) (fault : Fault) (size : Nat) : Prop :=
  ∀ depth, (act depth).on s = (.error fault, s) ∨
    depth < size ∧ (act depth).on s = (.error (.undisplayable .tooDeep), s)

theorem fails_throw (fault : Fault) : Fails (fun _ => (throw fault : Eval α)) s fault 0 :=
  fun _ => .inl rfl

/-- A fault that displays a value without foreign data. -/
theorem fails_displayed {frames : FrameId} {v : Value} (hv : v.WellFormed frames)
    (fault : String → Fault) :
    Fails (fun depth => (do throw (fault (← displayed depth v)) : Eval α)) s (fault v.text)
      v.depth := by
  intro depth
  have hlarge := hv.obstacle?_ne_tooLarge depth
  have hdeep := Value.obstacle?_ne_tooDeep (v := v) (d := depth)
  simp only [displayed, Value.display]
  rcases hobstacle : v.obstacle? depth with _ | _ | _
  · exact .inl rfl
  · exact .inr ⟨Nat.lt_of_not_le fun hle => hdeep hle hobstacle, rfl⟩
  · exact absurd hobstacle hlarge

/-- A fault that shows the structure of a value. -/
theorem fails_inspected (v : Value) (fault : String → Fault) :
    Fails (fun depth => (do throw (fault (← inspected depth v)) : Eval α)) s (fault v.inspect)
      v.depth := by
  intro depth
  simp only [inspected]
  split
  · exact .inl rfl
  · rename_i hdeep
    exact .inr ⟨Nat.lt_of_not_le hdeep, rfl⟩

/-- A special form refuses a form of another shape before it evaluates anything. -/
theorem applyBuiltin_fails {b : Builtin} (hb : b.fits form = false) :
    ∃ cause : Misuse, cause.form = b ∧ ∃ size, ∀ ev,
      Fails (applyBuiltin · ev f form b) s (.misuse cause) size := by
  cases b with
  | define =>
    simp only [applyBuiltin]
    split
    · simp [Builtin.fits, Value.isSymbol] at hb
    · rename_i target _ _
      exact ⟨.defineTarget target.inspect, rfl, _,
        fun _ => fails_inspected target fun shown => .misuse (.defineTarget shown)⟩
    · exact ⟨.defineLength, rfl, 0, fun _ => fails_throw _⟩
  | branch =>
    simp only [applyBuiltin]
    split
    · simp [Builtin.fits] at hb
    · exact ⟨.branchLength, rfl, 0, fun _ => fails_throw _⟩
  | lambda =>
    simp only [applyBuiltin]
    split
    · rename_i formals _
      have hformals : formals.all Value.isSymbol = false := by simpa [Builtin.fits] using hb
      rw [hformals]
      exact ⟨.formalsNotSymbols, rfl, 0, fun _ => fails_throw _⟩
    · exact ⟨.formalsNotList, rfl, 0, fun _ => fails_throw _⟩
    · exact ⟨.lambdaLength, rfl, 0, fun _ => fails_throw _⟩
  | quote =>
    simp only [applyBuiltin]
    split
    · simp [Builtin.fits] at hb
    · exact ⟨.quoteLength, rfl, 0, fun _ => fails_throw _⟩
  | sequence | product | difference | equality => simp [Builtin.fits] at hb

/-- A flawed form fails with the fault of its flaw, whatever would evaluate its operands. -/
theorem application_fails (hs : s.WellFormed) (hform : (Value.list form).WellFormed s.next)
    {flaw : Flaw} (h : Flawed s f form flaw) :
    ∃ fault, flaw.Raises fault ∧ ∃ size, ∀ ev, Fails (application · ev f form) s fault size := by
  cases h with
  | empty => exact ⟨_, .empty, 0, fun _ => fails_throw _⟩
  | @head v operands hv =>
    have heq : ∀ depth ev, application depth ev f (v :: operands) =
        (do throw (.invalidHead v (← displayed depth v))) := by
      intro depth ev
      cases v with
      | symbol n => simp [Value.isSymbol] at hv
      | _ => rfl
    simp only [heq]
    exact ⟨_, .head v, _, fun _ => fails_displayed (hform.mem (by simp)) (.invalidHead v)⟩
  | @unbound n operands hn =>
    refine ⟨_, .unbound n, 0, fun ev depth => .inl ?_⟩
    simp only [application, on_bind, on_lookup, hn]
  | @uncallable n operands v hn hv =>
    have heq : ∀ depth ev, apply depth ev f v (.symbol n :: operands) =
        (do throw (.notCallable v (← displayed depth v))) := by
      intro depth ev
      cases v with
      | builtin | procedure => simp [Value.isCallable] at hv
      | _ => rfl
    refine ⟨_, .uncallable v, v.depth, fun ev depth => ?_⟩
    rw [on_application_symbol hn, heq]
    exact fails_displayed (hs.lookup? hn) (.notCallable v) depth
  | @shape n operands b hn hb =>
    obtain ⟨cause, rfl, size, hfails⟩ := applyBuiltin_fails hb
    refine ⟨_, .shape cause, size, fun ev depth => ?_⟩
    rw [on_application_symbol hn]
    exact hfails ev depth

end Refused

section Performed

variable {α β : Type} {depth : Nat} {ev : Evaluator} {f : FrameId} {s : Store}

/-- Run from `s`, a computation gives a value as in `P`. -/
def Returns (act : Eval α) (s : Store) (P : α → Prop) : Prop :=
  ∃ a s', act.on s = (.ok a, s') ∧ P a

theorem returns_pure {a : α} {P : α → Prop} : (pure a : Eval α).Returns s P ↔ P a := by
  simp [Returns]

theorem returns_bind {x : Eval α} {k : α → Eval β} {P : β → Prop} :
    (x >>= k).Returns s P ↔ ∃ a s', x.on s = (.ok a, s') ∧ (k a).Returns s' P := by
  unfold Returns
  rw [on_bind]
  rcases x.on s with ⟨_ | a, s'⟩ <;> simp

/-- Operands are evaluated from left to right in `f`, each after those before it have given values
as in `P`. They reach `e`, which is evaluated on `s'`. -/
inductive Reaches (ev : Evaluator) (f : FrameId) (P : Value → Prop) :
    List Value → Store → Value → Store → Prop where
  | first (e : Value) (es : List Value) (s : Store) : Reaches ev f P (e :: es) s e s
  | later {e e' v : Value} {es : List Value} {s s' s'' : Store} (h : (ev f e).on s = (.ok v, s'))
      (hv : P v) (hes : Reaches ev f P es s' e' s'') : Reaches ev f P (e :: es) s e' s''

/-- A loop over operands gives a value just if each operand that it reaches does. `I` holds of every
store on the way. -/
theorem returns_mapM {k : Value → Eval α} {P : Value → Prop} {I : Store → Prop} {es : List Value}
    (hk : ∀ e ∈ es, ∀ s', I s' → ∀ s'',
      (∃ a, (k e).on s' = (.ok a, s'')) ↔ ∃ v, (ev f e).on s' = (.ok v, s'') ∧ P v)
    (hI : ∀ e ∈ es, ∀ s', I s' → ∀ v s'', (ev f e).on s' = (.ok v, s'') → I s'') (hs : I s) :
    (es.mapM k).Returns s (fun _ => True) ↔
      ∀ e s', Reaches ev f P es s e s' → (ev f e).Returns s' P := by
  induction es generalizing s with
  | nil =>
    rw [List.mapM_nil, returns_pure]
    exact ⟨nofun, fun _ => trivial⟩
  | cons e es ih =>
    have ih' : ∀ s', I s' → _ := fun s' hs' =>
      ih (fun x hx => hk x (by simp [hx])) (fun x hx => hI x (by simp [hx])) hs'
    simp only [List.mapM_cons, returns_bind, returns_pure]
    constructor
    · rintro ⟨a, s', ha, as, s'', has, -⟩ e' t hreach
      obtain ⟨v, hv, hP⟩ := (hk e (by simp) s hs s').1 ⟨a, ha⟩
      cases hreach with
      | first => exact ⟨v, s', hv, hP⟩
      | later hv' _ hes =>
        -- the first operand has one outcome, so the others are reached from the same store
        rw [hv] at hv'
        cases hv'
        exact (ih' s' (hI e (by simp) s hs v s' hv)).1 ⟨as, s'', has, trivial⟩ e' t hes
    · intro h
      obtain ⟨v, s', hv, hP⟩ := h e s (.first e es s)
      obtain ⟨a, ha⟩ := (hk e (by simp) s hs s').2 ⟨v, hv, hP⟩
      obtain ⟨as, s'', has, -⟩ := (ih' s' (hI e (by simp) s hs v s' hv)).2
        fun e' t hes => h e' t (.later hv hP hes)
      exact ⟨a, s', ha, as, s'', has, trivial⟩

/-- A loop that keeps the last value gives one just if the loop that collects all of them does. -/
theorem returns_foldlM {last : Value} {es : List Value} :
    (es.foldlM (fun _ e => ev f e) last).Returns s (fun _ => True) ↔
      (es.mapM (ev f)).Returns s fun _ => True := by
  induction es generalizing s last with
  | nil => simp only [List.foldlM_nil, List.mapM_nil, returns_pure]
  | cons e es ih =>
    simp only [List.foldlM_cons, List.mapM_cons, returns_bind, returns_pure, ih]
    rfl

/-- An operand without foreign data is taken for a number just if it is one. -/
theorem operandNumber_ok_iff {op : Builtin} {v : Value} {frames : FrameId} {s' : Store}
    (hv : v.WellFormed frames) :
    (∃ x, (operandNumber depth op v).on s = (.ok x, s')) ↔ s = s' ∧ ∃ x, v = .number x := by
  have hnever : ∀ x : Float, (do throw (.notNumber op (← displayed depth v)) : Eval Float).on s ≠
      (.ok x, s') := by
    intro x
    rw [on_bind, displayed]
    split <;> simp
  cases v with
  | number x => simp [operandNumber]
  | foreign x => exact absurd rfl (hv.ne_foreign x)
  | _ => simpa [operandNumber] using hnever

end Performed

end Eval

def Builtin.isArithmetic : Builtin → Bool
  | product | difference | equality => true
  | _ => false

/-- Whether every operand is evaluated when a value is applied. -/
def Value.takesValues : Value → Bool
  | .procedure .. => true
  | .builtin b => b == .sequence || b.isArithmetic
  | _ => false

/-- Whether a value that is applied accepts a value that was evaluated for it: the arithmetic
operations accept numbers only. -/
def Value.Accepts (head v : Value) : Prop :=
  ∀ op, head = .builtin op → op.isArithmetic = true → ∃ x, v = .number x

theorem Value.accepts_procedure (formals : List Value) (body : Value) (outer : FrameId) :
    (Value.procedure formals body outer).Accepts = fun _ => True := by
  funext v
  simp [Accepts]

theorem Value.accepts_builtin {b : Builtin} (hb : b.isArithmetic = false) :
    (Value.builtin b).Accepts = fun _ => True := by
  funext v
  simp [Accepts, hb]

/-- The evaluations that are performed when `head` is applied to a whole form in frame `f` of `s`,
each with its frame, its expression and the store that it finds. -/
inductive Performs (depth : Nat) (ev : Evaluator) (f : FrameId) (s : Store) :
    Value → List Value → FrameId → Value → Store → Prop where
  | operand {head e : Value} {form : List Value} {s' : Store} (hhead : head.takesValues = true)
      (he : Eval.Reaches ev f head.Accepts form.tail s e s') :
      Performs depth ev f s head form f e s'
  | body {formals args form : List Value} {body : Value} {outer g : FrameId} {s' s'' : Store}
      (hargs : (form.tail.mapM (ev f)).on s = (.ok args, s'))
      (hframe : (Eval.extend depth formals args outer).on s' = (.ok g, s'')) :
      Performs depth ev f s (.procedure formals body outer) form g body s''
  | definition (head e : Value) (n : String) :
      Performs depth ev f s (.builtin .define) [head, .symbol n, e] f e s
  | test (head test conseq alt : Value) :
      Performs depth ev f s (.builtin .branch) [head, test, conseq, alt] f test s
  | choice (head : Value) {test v : Value} (conseq alt : Value) {s' : Store}
      (htest : (ev f test).on s = (.ok v, s')) :
      Performs depth ev f s (.builtin .branch) [head, test, conseq, alt] f
        (if v.isTrue then conseq else alt) s'

/-- Every evaluation that is performed gives a value, and the head accepts it. -/
def AllReturn (depth : Nat) (ev : Evaluator) (f : FrameId) (s : Store) (head : Value)
    (form : List Value) : Prop :=
  ∀ g e s', Performs depth ev f s head form g e s' → (ev g e).Returns s' head.Accepts

namespace Eval

section Returning

variable {depth : Nat} {ev : Evaluator} {f : FrameId} {s : Store} {form : List Value}

/-- Symbols can be bound to any arguments. -/
theorem extend_returns {formals : List Value} (hformals : ∀ v ∈ formals, v.isSymbol = true)
    (args : List Value) (outer : FrameId) :
    ∃ g s', (extend depth formals args outer).on s = (.ok g, s') := by
  have hends : (extend depth formals args outer).Ends s (fun _ _ => True) fun _ _ => False := by
    refine ends_extend (I := fun _ => True) (fun _ _ _ _ _ => trivial) ?_ (fun _ _ => trivial)
      trivial
    intro name hname hsym
    simp [hformals name hname] at hsym
  unfold Ends at hends
  rcases hrun : (extend depth formals args outer).on s with ⟨fault | g, s'⟩
  · simp [hrun] at hends
  · exact ⟨g, s', rfl⟩

theorem procedure_returns {formals : List Value} {body : Value} {outer : FrameId}
    (hformals : ∀ v ∈ formals, v.isSymbol = true) :
    (apply depth ev f (.procedure formals body outer) form).Returns s (fun _ => True) ↔
      AllReturn depth ev f s (.procedure formals body outer) form := by
  have haccepts := Value.accepts_procedure formals body outer
  have hloop : (form.tail.mapM (ev f)).Returns s (fun _ => True) ↔
      ∀ e s', Reaches ev f (fun _ => True) form.tail s e s' → (ev f e).Returns s' fun _ => True :=
    returns_mapM (I := fun _ => True) (by simp) (by simp) trivial
  simp only [AllReturn, haccepts, apply, returns_bind]
  constructor
  · rintro ⟨args, s', hargs, g, s'', hframe, hbody⟩ g' e t hperforms
    cases hperforms with
    | operand _ he => exact hloop.1 ⟨args, s', hargs, trivial⟩ e t (haccepts ▸ he)
    | body hargs' hframe' =>
      rw [hargs] at hargs'
      cases hargs'
      rw [hframe] at hframe'
      cases hframe'
      exact hbody
  · intro h
    obtain ⟨args, s', hargs, -⟩ := hloop.2 fun e t he =>
      h f e t (.operand rfl (haccepts.symm ▸ he))
    obtain ⟨g, s'', hframe⟩ : ∃ g s'', (extend depth formals args outer).on s' = (.ok g, s'') :=
      extend_returns hformals args outer
    exact ⟨args, s', hargs, g, s'', hframe, h g body s'' (.body hargs hframe)⟩

/-- Operations that have all operands evaluated perform nothing else. -/
theorem allReturn_operands {b : Builtin} (hb : (Value.builtin b).takesValues = true) :
    AllReturn depth ev f s (.builtin b) form ↔
      ∀ e s', Reaches ev f (Value.builtin b).Accepts form.tail s e s' →
        (ev f e).Returns s' (Value.builtin b).Accepts := by
  constructor
  · intro h e s' he
    exact h f e s' (.operand hb he)
  · intro h g e s' hperforms
    cases hperforms with
    | operand _ he => exact h e s' he
    | definition | test | choice => simp [Value.takesValues, Builtin.isArithmetic] at hb

theorem sequence_returns :
    (applyBuiltin depth ev f form .sequence).Returns s (fun _ => True) ↔
      AllReturn depth ev f s (.builtin .sequence) form := by
  rw [allReturn_operands rfl, applyBuiltin, returns_foldlM, Value.accepts_builtin rfl]
  exact returns_mapM (I := fun _ => True) (by simp) (by simp) trivial

/-- The arithmetic operations, all three at once. -/
theorem arithmetic_returns (hev : IsSafe ev) (hs : s.WellFormed) (hf : f < s.next)
    (hform : (Value.list form).WellFormed s.next) {op : Builtin} (hop : op.isArithmetic = true) :
    (applyBuiltin depth ev f form op).Returns s (fun _ => True) ↔
      AllReturn depth ev f s (.builtin op) form := by
  have hnumbers : (applyBuiltin depth ev f form op).Returns s (fun _ => True) ↔
      (operandNumbers depth ev op f form.tail).Returns s fun _ => True := by
    cases op with
    | product | difference | equality =>
      simp only [applyBuiltin, returns_bind, returns_pure]
      rfl
    | _ => simp [Builtin.isArithmetic] at hop
  rw [hnumbers, allReturn_operands (by simp [Value.takesValues, hop])]
  have hmember : ∀ e ∈ form.tail, ∀ s', s.Leads s' → _ := fun e he s' hs' =>
    hev.member hs' hf hform (List.mem_of_mem_tail he)
  refine returns_mapM (I := s.Leads) (fun e he s' hs' s'' => ?_) (fun e he s' hs' v s'' hv => ?_)
    (.refl hs)
  · rcases hrun : (ev f e).on s' with ⟨fault | v, t⟩
    · simp [on_bind, hrun]
    · have hv := ((hmember e he s' hs').of_ok hrun).2
      simp only [on_bind, hrun, operandNumber_ok_iff hv]
      simp [Value.Accepts, hop, and_comm]
  · exact ((hmember e he s' hs').of_ok hv).1

theorem define_returns {head e : Value} {n : String} :
    (applyBuiltin depth ev f [head, .symbol n, e] .define).Returns s (fun _ => True) ↔
      AllReturn depth ev f s (.builtin .define) [head, .symbol n, e] := by
  simp only [AllReturn, Value.accepts_builtin (b := .define) rfl, applyBuiltin, returns_bind]
  constructor
  · rintro ⟨v, s', hv, -⟩ g e' t hperforms
    cases hperforms with
    | operand hhead => simp [Value.takesValues, Builtin.isArithmetic] at hhead
    | definition => exact ⟨v, s', hv, trivial⟩
  · intro h
    obtain ⟨v, s', hv, -⟩ := h f e s (.definition head e n)
    exact ⟨v, s', hv, (), s'.define f n v, rfl, .unit, _, rfl, trivial⟩

theorem branch_returns {head test conseq alt : Value} :
    (applyBuiltin depth ev f [head, test, conseq, alt] .branch).Returns s (fun _ => True) ↔
      AllReturn depth ev f s (.builtin .branch) [head, test, conseq, alt] := by
  simp only [AllReturn, Value.accepts_builtin (b := .branch) rfl, applyBuiltin, returns_bind,
    ← apply_ite (ev f)]
  constructor
  · rintro ⟨v, s', hv, hchoice⟩ g e t hperforms
    cases hperforms with
    | operand hhead => simp [Value.takesValues, Builtin.isArithmetic] at hhead
    | test => exact ⟨v, s', hv, trivial⟩
    | choice _ _ _ htest =>
      rw [hv] at htest
      cases htest
      exact hchoice
  · intro h
    obtain ⟨v, s', hv, -⟩ := h f test s (.test head test conseq alt)
    exact ⟨v, s', hv, h f _ s' (.choice head conseq alt hv)⟩

/-- Nothing is evaluated for a procedure that is made, or for what is quoted. -/
theorem allReturn_of_none {b : Builtin} (hb : b = .lambda ∨ b = .quote) :
    AllReturn depth ev f s (.builtin b) form := by
  intro g e s' hperforms
  rcases hb with rfl | rfl <;> cases hperforms with
  | operand hhead => simp [Value.takesValues, Builtin.isArithmetic] at hhead

theorem applyBuiltin_returns (hev : IsSafe ev) (hs : s.WellFormed) (hf : f < s.next)
    (hform : (Value.list form).WellFormed s.next) {b : Builtin} (hb : b.fits form = true) :
    (applyBuiltin depth ev f form b).Returns s (fun _ => True) ↔
      AllReturn depth ev f s (.builtin b) form := by
  cases b with
  | sequence => exact sequence_returns
  | product | difference | equality => exact arithmetic_returns hev hs hf hform rfl
  | define =>
    obtain ⟨head, n, e, rfl⟩ := Builtin.fits_define hb
    exact define_returns
  | branch =>
    obtain ⟨head, test, conseq, alt, rfl⟩ := Builtin.fits_branch hb
    exact branch_returns
  | lambda =>
    obtain ⟨head, formals, body, rfl, hformals⟩ := Builtin.fits_lambda hb
    simp only [applyBuiltin, hformals, ↓reduceIte, returns_pure, true_iff]
    exact allReturn_of_none (.inl rfl)
  | quote =>
    obtain ⟨head, e, rfl⟩ := Builtin.fits_quote hb
    simp only [applyBuiltin, returns_pure, true_iff]
    exact allReturn_of_none (.inr rfl)

/-- What can be applied, to a form of the right shape, gives a value just if all that is evaluated
for it does. -/
theorem apply_returns (hev : IsSafe ev) (hs : s.WellFormed) (hf : f < s.next) {head : Value}
    (hhead : head.WellFormed s.next) (hform : (Value.list form).WellFormed s.next)
    (hcallable : head.isCallable = true) (hfits : ∀ b, head = .builtin b → b.fits form = true) :
    (apply depth ev f head form).Returns s (fun _ => True) ↔
      AllReturn depth ev f s head form := by
  cases hhead with
  | builtin b => exact applyBuiltin_returns hev hs hf hform (hfits b rfl)
  | procedure hformals _ _ => exact procedure_returns hformals
  | symbol | number | list => simp [Value.isCallable] at hcallable

end Returning

end Eval

open Eval

/-- Flawed applications fail before anything is evaluated, and all others give values if what they
evaluate does. In a store without foreign data, a form with a flaw fails with the fault of the flaw,
whatever would evaluate its operands, and leaves the store as it was; only a bound on depth that its
fault cannot be shown under can make another fault of it, with no more effect. A form without a flaw
has a head that can be applied, and gives a value under a bound on depth just if every evaluation of
an operand or of a body that is performed for it gives one, which is a number where the head is an
arithmetic operation. -/
theorem flawed_applications_fail_first {s : Store} (hs : s.WellFormed) {f : FrameId}
    (hf : f < s.next) {form : List Value} (hform : (Value.list form).WellFormed s.next) :
    (∀ flaw, Flawed s f form flaw → ∃ fault, flaw.Raises fault ∧
      (∀ depth ev, (application depth ev f form).on s = (.error fault, s) ∨
        (application depth ev f form).on s = (.error (.undisplayable .tooDeep), s)) ∧
      (∀ depth, ((eval depth f (.list form)).on s).2 = s) ∧
      Settles (eval · f (.list form)) s (.error fault, s)) ∧
    ((∀ flaw, ¬ Flawed s f form flaw) → ∃ n operands head, form = .symbol n :: operands ∧
      s.lookup? f n = some head ∧ ∀ depth,
        ((∃ v s', (eval (depth + 1) f (.list form)).on s = (.ok v, s')) ↔
          ∀ g e s', Performs depth (eval depth) f s head form g e s' →
            ∃ v s'', (eval depth g e).on s' = (.ok v, s'') ∧ head.Accepts v)) := by
  constructor
  · intro flaw hflaw
    obtain ⟨fault, hraises, size, hfails⟩ := application_fails hs hform hflaw
    refine ⟨fault, hraises, fun depth ev => (hfails ev depth).imp_right And.right, ?_, ?_⟩
    · intro depth
      cases depth with
      | zero => rfl
      | succ depth =>
        rw [eval_list]
        rcases hfails (eval depth) depth with h | ⟨-, h⟩ <;> rw [h]
    · refine ⟨finished_error.2 hraises.not_exhaustion, size + 1, ?_⟩
      simp only [eval_list]
      exact (hfails (eval size) size).resolve_right fun h => Nat.lt_irrefl _ h.1
  · intro hnone
    obtain ⟨n, operands, head, rfl, hn, hcallable, hfits⟩ := exists_head_of_not_flawed hnone
    refine ⟨n, operands, head, rfl, hn, fun depth => ?_⟩
    have hreturns : (apply depth (eval depth) f head (.symbol n :: operands)).Returns s _ ↔ _ :=
      apply_returns (eval_isSafe depth) hs hf (hs.lookup? hn) hform hcallable hfits
    rw [eval_list, on_application_symbol hn]
    simpa [Returns, AllReturn] using hreturns

/-- The form `(if (define x pi))`. -/
def shortBranch : List Value :=
  [.symbol "if", .list [.symbol "define", .symbol "x", .symbol "pi"]]

/-- The form `(* pi pi)`. -/
def sampleProduct : List Value :=
  [.symbol "*", .symbol "pi", .symbol "pi"]

theorem sampleProduct_not_flawed (flaw : Flaw) :
    ¬ Flawed Session.start Session.globalFrame sampleProduct flaw := by
  have hname := Session.start_lookup?_name .product
  intro h
  cases h with
  | head hv => simp [Value.isSymbol] at hv
  | unbound hn => cases hname.symm.trans hn
  | uncallable hn hv =>
    cases hname.symm.trans hn
    simp [Value.isCallable] at hv
  | shape hn hb =>
    cases hname.symm.trans hn
    simp [Builtin.fits] at hb

open Session in
/-- A branch that lacks its alternatives, with a test that would bind a name, and a product. -/
theorem shortBranch_fails_first :
    start.WellFormed ∧ globalFrame < start.next ∧
      Flawed start globalFrame shortBranch (.shape .branch) ∧
      (∃ fault, (Flaw.shape .branch).Raises fault ∧
        Settles (eval · globalFrame (.list shortBranch)) start (.error fault, start)) ∧
      (∀ flaw, ¬ Flawed start globalFrame sampleProduct flaw) ∧
      ∃ v s', (eval 2 globalFrame (.list sampleProduct)).on start = (.ok v, s') := by
  obtain ⟨hs, hf⟩ := start_sound
  have hbranch : (Value.list shortBranch).WellFormed start.next := by
    refine .list ?_
    simp only [shortBranch, List.forall_mem_cons]
    refine ⟨.symbol _, .list ?_, nofun⟩
    simp only [List.forall_mem_cons]
    exact ⟨.symbol _, .symbol _, .symbol _, nofun⟩
  have hproduct : (Value.list sampleProduct).WellFormed start.next := by
    refine .list ?_
    simp only [sampleProduct, List.forall_mem_cons]
    exact ⟨.symbol _, .symbol _, .symbol _, nofun⟩
  have hflawed : Flawed start globalFrame shortBranch (.shape .branch) :=
    .shape (start_lookup?_name .branch) rfl
  have hpi : (eval 1 globalFrame (.symbol "pi")).on start =
      (.ok (.number 3.141592653589793), start) := by
    rw [eval, on_lookup, Store.lookup?, Store.find?]
    rfl
  refine ⟨hs, hf, hflawed, ?_, sampleProduct_not_flawed, ?_⟩
  · obtain ⟨fault, hraises, -, -, hsettles⟩ :=
      (flawed_applications_fail_first hs hf hbranch).1 _ hflawed
    exact ⟨fault, hraises, hsettles⟩
  · obtain ⟨n, operands, head, hform, hn, hreturns⟩ :=
      (flawed_applications_fail_first hs hf hproduct).2 sampleProduct_not_flawed
    cases hform
    cases (start_lookup?_name .product).symm.trans hn
    refine (hreturns 1).2 fun g e s' hperforms => ?_
    have hvalue : (eval 1 globalFrame (.symbol "pi")).Returns start
        (Value.builtin .product).Accepts :=
      ⟨_, start, hpi, fun _ _ _ => ⟨_, rfl⟩⟩
    cases hperforms with
    | operand _ he =>
      cases he with
      | first => exact hvalue
      | later h _ hes =>
        cases hpi.symm.trans h
        cases hes with
        | first => exact hvalue
        | later _ _ hes => cases hes

end Lisplet
