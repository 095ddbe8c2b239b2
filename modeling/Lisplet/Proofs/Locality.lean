import Lisplet.Proofs.Computation
import Lisplet.Session

/-! What evaluation writes. Its effect on the store is a sequence of two things: it binds names in
the frame in which it runs, and it makes calls, each of which adds a frame and then has effects of
the same kind in that frame. The names that it binds in its own frame are the targets of the
expression, those that stand second in a list of three. So a frame that was there before keeps its
bindings and its outer link, and in the frame of the evaluation only targets are bound anew, also
when the evaluation fails. -/

namespace Lisplet

/-- A name that stands second in some list of three inside an expression. -/
inductive Value.Targets : Value → String → Prop where
  | here (head e : Value) (n : String) : Targets (.list [head, .symbol n, e]) n
  | inside {items : List Value} {v : Value} {n : String} (hv : v ∈ items) (h : v.Targets n) :
      Targets (.list items) n

/-- The effects on a store of a computation that runs in frame `f` and binds names in `N` there. A
call runs in the frame that it adds, and may bind any names `M` in it. -/
inductive Store.Effects : FrameId → (String → Prop) → Store → Store → Prop where
  | refl (f : FrameId) (N : String → Prop) (s : Store) : Effects f N s s
  | define {f : FrameId} {N : String → Prop} {s s' : Store} (h : Effects f N s s') (n : String)
      (hn : N n) (v : Value) : Effects f N s (s'.define f n v)
  | call {f : FrameId} {N M : String → Prop} {s s₁ s₂ : Store} (h : Effects f N s s₁)
      (outer : FrameId) (body : Effects s₁.next M (s₁.push (some outer)) s₂) : Effects f N s s₂

theorem Store.lt_next_push {s : Store} (outer : Option FrameId) {g : FrameId} (h : g < s.next) :
    g < (s.push outer).next := by
  rw [next_push]
  exact Nat.lt_succ_of_lt h

namespace Store.Effects

variable {f : FrameId} {N M : String → Prop} {s s₁ s₂ s' : Store}

theorem trans (h₁ : Effects f N s s₁) (h₂ : Effects f N s₁ s₂) : Effects f N s s₂ := by
  induction h₂ with
  | refl => exact h₁
  | define _ n hn v ih => exact (ih h₁).define n hn v
  | call _ outer body ih => exact (ih h₁).call outer body

theorem mono (h : Effects f N s s') (hNM : ∀ n, N n → M n) : Effects f M s s' := by
  induction h with
  | refl => exact refl _ _ _
  | define _ n hn v ih => exact (ih hNM).define n (hNM n hn) v
  | call _ outer body ih => exact (ih hNM).call outer body

theorem next_le (h : Effects f N s s') : s.next ≤ s'.next := by
  induction h with
  | refl => exact Nat.le_refl _
  | define _ n _ v ih => rw [next_define]; exact ih
  | call _ outer _ ih ihb =>
    rw [next_push] at ihb
    exact Nat.le_trans ih (Nat.le_of_succ_le ihb)

/-- Effects in one frame leave every other frame that was there as it was. -/
theorem get?_of_ne (h : Effects f N s s') {g : FrameId} (hg : g < s.next) (hne : g ≠ f) :
    s'.get? g = s.get? g := by
  induction h with
  | refl => rfl
  | define _ n _ v ih => rw [get?_define_of_ne _ n v hne.symm, ih hg hne]
  | @call f N M s s₁ s₂ h outer body ih ihb =>
    have hg₁ : g < s₁.next := Nat.lt_of_lt_of_le hg h.next_le
    -- the frame of the call is newer than `g`
    rw [ihb (lt_next_push _ hg₁) (Nat.ne_of_lt hg₁), get?_push_of_lt _ _ hg₁, ih hg hne]

end Store.Effects

/-- A frame grows within `N`: its outer link stays, the bound names stay in their order, and only
names in `N` get new values or are added. -/
structure Frame.Grows (N : String → Prop) (fr fr' : Frame) : Prop where
  outer : fr'.outer = fr.outer
  names : fr.bindings.names <+: fr'.bindings.names
  values : ∀ n, ¬ N n → fr'.bindings.get? n = fr.bindings.get? n

namespace Frame.Grows

theorem refl (N : String → Prop) (fr : Frame) : Grows N fr fr :=
  ⟨rfl, List.prefix_refl _, fun _ _ => rfl⟩

theorem insert {N : String → Prop} {fr fr' : Frame} (h : Grows N fr fr') {n : String} (hn : N n)
    (v : Value) : Grows N fr { fr' with bindings := fr'.bindings.insert n v } := by
  refine ⟨h.outer, ?_, ?_⟩
  · rw [Bindings.names_insert]
    split
    · exact h.names
    · exact h.names.trans (List.prefix_append _ _)
  · intro m hm
    have hne : n ≠ m := by rintro rfl; exact hm hn
    rw [Bindings.get?_insert_of_ne _ v hne, h.values m hm]

end Frame.Grows

/-- Effects in a frame make it grow. -/
theorem Store.Effects.grows {f : FrameId} {N : String → Prop} {s s' : Store} (h : Effects f N s s')
    {fr : Frame} (hf : s.get? f = some fr) : ∃ fr', s'.get? f = some fr' ∧ fr.Grows N fr' := by
  induction h with
  | refl => exact ⟨fr, hf, .refl _ fr⟩
  | @define f N s s' h n hn v ih =>
    obtain ⟨fr', hfr', hgrows⟩ := ih hf
    refine ⟨_, ?_, hgrows.insert hn v⟩
    rw [get?_define_self, hfr']; rfl
  | @call f N M s s₁ s₂ h outer body ih =>
    obtain ⟨fr', hfr', hgrows⟩ := ih hf
    have hlt : f < s₁.next := (Array.getElem?_eq_some_iff.1 hfr').1
    refine ⟨fr', ?_, hgrows⟩
    rw [body.get?_of_ne (lt_next_push _ hlt) (Nat.ne_of_lt hlt), get?_push_of_lt _ _ hlt, hfr']

namespace Eval

variable {depth : Nat} {ev : Evaluator}

/-- An evaluator whose effects are those of the expression in its frame. -/
def IsLocal (ev : Evaluator) : Prop :=
  ∀ f e s, (ev f e).Leaves s (s.Effects f e.Targets)

/-- After effects of a form, the evaluation of a member of the form adds effects of the form. -/
theorem IsLocal.member (hev : IsLocal ev) {f : FrameId} {form : List Value} {e : Value}
    (he : e ∈ form) {s s' : Store} (h : s.Effects f (Value.list form).Targets s') :
    (ev f e).Leaves s' (s.Effects f (Value.list form).Targets) := by
  have hext : ∀ s'', s'.Effects f e.Targets s'' → s.Effects f (Value.list form).Targets s'' :=
    fun s'' h' => h.trans (h'.mono fun n hn => .inside he hn)
  exact Ends.mono (hev f e s') (fun _ => hext) fun _ => hext

theorem applyBuiltin_effects (hev : IsLocal ev) (f : FrameId) (form : List Value) (b : Builtin)
    (s : Store) :
    (applyBuiltin depth ev f form b).Leaves s (s.Effects f (Value.list form).Targets) := by
  have hrefl := Store.Effects.refl f (Value.list form).Targets s
  have hoperand : ∀ op, ∀ e ∈ form.tail, ∀ s', s.Effects f (Value.list form).Targets s' →
      (ev f e).Ends s'
        (fun v s'' => s.Effects f (Value.list form).Targets s'' ∧
          ∀ fault, NotNumber depth op v fault → s.Effects f (Value.list form).Targets s'')
        fun _ => s.Effects f (Value.list form).Targets := by
    intro op e he s' hs'
    exact Ends.imp (hev.member (List.mem_of_mem_tail he) hs') fun v s'' h => ⟨h, fun _ _ => h⟩
  cases b with
  | sequence =>
    refine ends_sequence (fun e he v s' hs' => ?_) hrefl
    exact hev.member (List.mem_of_mem_tail he) hs'
  | define =>
    refine ends_define ?_ fun _ _ => hrefl
    rintro head n e rfl
    exact Ends.imp (hev.member (by simp) hrefl) fun v s' hs' => hs'.define n (.here head e n) v
  | branch =>
    refine ends_branch ?_ fun _ _ => hrefl
    rintro head test conseq alt rfl
    refine Ends.imp (hev.member (by simp) hrefl) fun v s' hs' => ?_
    exact hev.member (by split <;> simp) hs'
  | lambda => exact ends_lambda (fun _ _ _ _ _ => hrefl) fun _ _ => hrefl
  | quote => exact ends_quote (fun _ _ _ => hrefl) fun _ _ => hrefl
  | product =>
    exact ends_arithmetic (.inl rfl) (hoperand _) (fun _ _ h => h) (fun _ _ h => h) hrefl
  | difference =>
    exact ends_arithmetic (.inr (.inl rfl)) (hoperand _) (fun _ _ h => h) (fun _ _ h => h) hrefl
  | equality =>
    exact ends_arithmetic (.inr (.inr rfl)) (hoperand _) (fun _ _ h => h) (fun _ _ h => h) hrefl

/-- A call, once its operands are evaluated, has effects in the frame that it adds and in no
other. -/
theorem call_effects (depth : Nat) (hev : IsLocal ev) (formals args : List Value) (body : Value)
    (outer : FrameId) (s : Store) :
    (extend depth formals args outer >>= fun k => ev k body).Leaves s
      fun s' => ∃ M, (s.push (some outer)).Effects s.next M s' := by
  apply ends_bind
  refine ends_extend (I := (s.push (some outer)).Effects s.next fun _ => True) ?_ ?_ ?_
    (.refl _ _ _)
  · intro n v s' _ hs'
    exact hs'.define n trivial v
  · intro _ _ _ s' hs'
    exact ⟨⟨_, hs'⟩, fun _ => ⟨_, hs'⟩⟩
  · intro s' hs'
    have hbody : ∀ s'', s'.Effects s.next body.Targets s'' →
        ∃ M, (s.push (some outer)).Effects s.next M s'' :=
      fun s'' h => ⟨_, hs'.trans (h.mono fun _ _ => trivial)⟩
    exact Ends.mono (hev s.next body s') (fun _ => hbody) fun _ => hbody

theorem apply_effects (hev : IsLocal ev) (f : FrameId) (head : Value) (form : List Value)
    (s : Store) :
    (apply depth ev f head form).Leaves s (s.Effects f (Value.list form).Targets) := by
  have hrefl := Store.Effects.refl f (Value.list form).Targets s
  unfold apply
  split
  · exact applyBuiltin_effects hev f form _ s
  · rename_i formals body outer
    apply ends_bind
    refine Ends.imp (ends_mapM (P := fun _ => s.Effects f (Value.list form).Targets)
      (fun e he _ s' hs' => hev.member (List.mem_of_mem_tail he) hs') hrefl) fun args s' hs' => ?_
    have hcall : ∀ s'', (∃ M, (s'.push (some outer)).Effects s'.next M s'') →
        s.Effects f (Value.list form).Targets s'' :=
      fun s'' ⟨M, h⟩ => hs'.call outer h
    exact Ends.mono (call_effects depth hev formals args body outer s') (fun _ => hcall)
      fun _ => hcall
  · exact ends_bind (ends_displayed (fun _ _ => ends_throw hrefl) fun _ _ => hrefl)

/-- The effects of an evaluation are those of its expression, to any depth. -/
theorem eval_isLocal (depth : Nat) : IsLocal (eval depth) := by
  induction depth with
  | zero => exact fun f e s => ends_throw (.refl _ _ _)
  | succ depth ih =>
    intro f e s
    have hrefl := Store.Effects.refl f e.Targets s
    refine ends_eval (fun _ => hrefl) ?_ (fun _ _ _ _ => ⟨fun _ => hrefl, fun _ _ => hrefl⟩)
      (fun _ _ _ _ => hrefl) (fun _ => hrefl) (fun _ _ => hrefl) fun _ _ => hrefl
    rintro n operands v rfl -
    exact apply_effects ih f v _ s

end Eval

/-- Evaluation writes locally. A frame that was there before, other than the frame of the
evaluation, is left exactly as it was; the frame of the evaluation grows by targets of the
expression only; and a call, once its operands are evaluated, changes no frame at all that was
there before. -/
theorem eval_writes_locally (depth : Nat) (s : Store) (f : FrameId) (e : Value)
    (hf : f < s.next) :
    (∀ g < s.next, g ≠ f → ((eval depth f e).on s).2.get? g = s.get? g) ∧
    (∃ fr fr', s.get? f = some fr ∧ ((eval depth f e).on s).2.get? f = some fr' ∧
      fr.Grows e.Targets fr') ∧
    (∀ (formals args : List Value) (body : Value) (outer : FrameId), ∀ g < s.next,
      ((Eval.extend depth formals args outer >>= fun k => eval depth k body).on s).2.get? g =
        s.get? g) := by
  have heff := Eval.leaves_iff.1 (Eval.eval_isLocal depth f e s)
  refine ⟨fun g hg hne => heff.get?_of_ne hg hne, ?_, ?_⟩
  · have hfr : s.get? f = some (s.frames[f]) := Array.getElem?_eq_getElem hf
    obtain ⟨fr', hfr', hgrows⟩ := heff.grows hfr
    exact ⟨_, fr', hfr, hfr', hgrows⟩
  · intro formals args body outer g hg
    obtain ⟨M, hM⟩ := Eval.leaves_iff.1
      (Eval.call_effects depth (Eval.eval_isLocal depth) formals args body outer s)
    rw [hM.get?_of_ne (Store.lt_next_push _ hg) (Nat.ne_of_lt hg), Store.get?_push_of_lt _ _ hg]

/-- A fresh session with one frame inside its global one. -/
def Store.sample : Store :=
  Session.start.push (some 0)

/-- The expression `(begin (define f (lambda (x) (define y x))) (f pi))`. -/
def Value.sampleCall : Value :=
  .list [.symbol "begin",
    .list [.symbol "define", .symbol "f",
      .list [.symbol "lambda", .list [.symbol "x"],
        .list [.symbol "define", .symbol "y", .symbol "x"]]],
    .list [.symbol "f", .symbol "pi"]]

theorem sampleCall_writes_locally :
    1 < Store.sample.next ∧
      (((eval 9 1 Value.sampleCall).on Store.sample).2.own? 2 "y").isSome = true ∧
      ((eval 9 1 Value.sampleCall).on Store.sample).2.get? 0 = Store.sample.get? 0 := by
  have hnext : 1 < Store.sample.next := by decide +kernel
  have hlocal := eval_writes_locally 9 Store.sample 1 Value.sampleCall hnext
  exact ⟨hnext, by decide +kernel, hlocal.1 0 (by decide +kernel) (by decide)⟩

end Lisplet
