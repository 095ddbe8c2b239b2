import Lisplet.Proofs.Settling
import Lisplet.Proofs.Unused

/-! Evaluation without procedures. Take an expression as the reader makes it, none of whose names
stands for a procedure or for the operation that makes procedures. Its evaluation stays within the
expression: it calls nothing, its nesting is that of the expression, and it comes to an end. The
names keep what is said of them while the expression binds some of them anew, because every value on
the way is one that a name had before, or a part of the expression, or the result of an operation. -/

namespace Lisplet

namespace Value

/-- Neither a procedure nor the operation that makes procedures. -/
def isInert : Value → Bool
  | .procedure .. => false
  | .builtin .lambda => false
  | _ => true

theorem depth_lt_of_mem {items : List Value} {v : Value} (hv : v ∈ items) :
    v.depth < (Value.list items).depth := by
  rw [depth]
  exact Nat.lt_succ_of_le (depth_le_depths hv)

theorem IsSource.isInert {v : Value} (h : v.IsSource) : v.isInert = true := by
  obtain _ | _ | _ := h <;> rfl

/-- Nesting does not keep a value from being displayed under a bound as large as its depth. -/
theorem obstacle?_ne_tooDeep {v : Value} {d : Nat} (h : v.depth ≤ d) :
    v.obstacle? d ≠ some .tooDeep := by
  induction d generalizing v with
  | zero => exact absurd (Reader.depth_pos v) (Nat.not_lt_of_le h)
  | succ d ih =>
    cases v with
    | list items =>
      rw [depth, Nat.add_le_add_iff_right] at h
      rw [obstacle?]
      intro hsome
      obtain ⟨v, hv, hvsome⟩ := List.exists_of_findSome?_eq_some hsome
      exact ih (Nat.le_trans (depth_le_depths hv) h) hvsome
    | procedure formals body frame =>
      rw [depth, Nat.add_le_add_iff_right] at h
      simp [obstacle?, h]
    | foreign x =>
      cases x with
      | integer n => rw [obstacle?]; split <;> simp
      | flag _ | text _ | nothing => simp [obstacle?]
    | symbol _ | number _ | builtin _ => simp [obstacle?]

/-- An inert value that is nested at most `size` deep. -/
structure Tame (size : Nat) (v : Value) : Prop where
  inert : v.isInert = true
  depth_le : v.depth ≤ size

end Value

namespace Store

variable {s : Store} {f : FrameId} {N : String → Prop} {size : Nat}

/-- In frame `f` the names in `N` have tame values, or none. -/
def Tame (s : Store) (f : FrameId) (N : String → Prop) (size : Nat) : Prop :=
  ∀ n, N n → ∀ v, s.lookup? f n = some v → v.Tame size

/-- After a binding, a name has the new value or the one that it had before. -/
theorem lookup?_define_cases {n m : String} {v w : Value}
    (h : (s.define f n v).lookup? f m = some w) : w = v ∨ s.lookup? f m = some w := by
  by_cases hm : m = n
  · subst hm
    left
    by_cases hf : f < s.next
    · have hown : (s.define f m v).own? f m = some v := by
        rw [own?, bindings_define_self hf, Bindings.get?_insert_self]
      rw [lookup?, find?, hown] at h
      simpa [hown] using h.symm
    · have hnext : (s.define f m v).next ≤ f := by
        rw [next_define]
        exact Nat.le_of_not_lt hf
      have hnone : (s.define f m v).get? f = none := Array.getElem?_eq_none hnext
      rw [lookup?, find?] at h
      simp [own?, bindings, outer?, hnone, Bindings.get?] at h
  · right
    rwa [(sameBut_define s f n v).lookup? hm] at h

theorem Tame.define (hs : s.Tame f N size) (n : String) {v : Value} (hv : v.Tame size) :
    (s.define f n v).Tame f N size := by
  intro m hm w hw
  rcases lookup?_define_cases hw with rfl | hw
  · exact hv
  · exact hs m hm w hw

/-- The values of the names in an expression are nested within some bound. -/
theorem exists_size (s : Store) (f : FrameId) {e : Value} (he : e.IsSource) :
    ∃ size, ∀ n, e.Mentions n → ∀ v, s.lookup? f n = some v → v.depth ≤ size := by
  induction he with
  | symbol m =>
    refine ⟨((s.lookup? f m).map Value.depth).getD 0, fun n hn v hv => ?_⟩
    obtain rfl : m = n := Value.mentions_symbol.1 hn
    simp [hv]
  | number x => exact ⟨0, nofun⟩
  | @list items hitems ih =>
    clear hitems
    suffices h : ∃ size, ∀ e ∈ items, ∀ n, e.Mentions n → ∀ v, s.lookup? f n = some v →
        v.depth ≤ size by
      obtain ⟨size, hsize⟩ := h
      refine ⟨size, fun n hn => ?_⟩
      obtain ⟨e, he, hmentions⟩ := Value.mentions_list.1 hn
      exact hsize e he n hmentions
    induction items with
    | nil => exact ⟨0, by simp⟩
    | cons e es ihes =>
      obtain ⟨size, hsize⟩ := ih e (by simp)
      obtain ⟨size', hsize'⟩ := ihes fun e he => ih e (by simp [he])
      refine ⟨max size size', fun e' he' n hn v hv => ?_⟩
      rcases List.mem_cons.1 he' with rfl | he'
      · exact Nat.le_trans (hsize n hn v hv) (Nat.le_max_left _ _)
      · exact Nat.le_trans (hsize' e' he' n hn v hv) (Nat.le_max_right _ _)

theorem exists_tame {e : Value} (he : e.IsSource)
    (hnames : ∀ n, e.Mentions n → ∀ v, s.lookup? f n = some v → v.isInert = true) :
    ∃ size, e.depth ≤ size ∧ s.Tame f e.Mentions size := by
  obtain ⟨size, hsize⟩ := s.exists_size f he
  refine ⟨max e.depth size, Nat.le_max_left _ _, fun n hn v hv => ⟨hnames n hn v hv, ?_⟩⟩
  exact Nat.le_trans (hsize n hn v hv) (Nat.le_max_right _ _)

end Store

namespace Eval

variable {f : FrameId} {N : String → Prop} {size depth : Nat} {Allowed : Fault → Prop}
  {ev : Evaluator} {form : List Value} {s : Store}

/-- Run from `s`, a computation ends with a tame value or an allowed fault, and the names in `N` keep
tame values in `f`. -/
def EndsTame (f : FrameId) (N : String → Prop) (size : Nat) (Allowed : Fault → Prop)
    (act : Eval Value) (s : Store) : Prop :=
  act.Ends s (fun v s' => v.Tame size ∧ s'.Tame f N size) fun fault _ => Allowed fault

/-- The faults that are allowed when values nested at most `size` deep are shown under the bound
`depth`: all that tell of no bound, and that a value is too deep to be shown, if it can be. -/
structure Allows (Allowed : Fault → Prop) (depth size : Nat) : Prop where
  other : ∀ fault : Fault, fault.isExhaustion = false → Allowed fault
  shown : depth < size → Allowed (.undisplayable .tooDeep)

theorem Allows.undisplayable (h : Allows Allowed depth size) {v : Value} (hv : v.depth ≤ size)
    {o : Obstacle} (ho : v.display depth = .error o) : Allowed (.undisplayable o) := by
  cases o with
  | tooLarge => exact h.other _ rfl
  | tooDeep =>
    refine h.shown (Nat.lt_of_lt_of_le (Nat.lt_of_not_le fun hle => ?_) hv)
    unfold Value.display at ho
    split at ho
    · cases ho
    · rename_i o hobstacle
      obtain rfl : o = .tooDeep := by simpa using ho
      exact Value.obstacle?_ne_tooDeep hle hobstacle

theorem Allows.of_refusal (h : Allows Allowed depth size) {b : Builtin} {fault : Fault}
    (hfault : Refusal b fault) (hne : b = .define → fault ≠ .undisplayable .tooDeep) :
    Allowed fault := by
  cases hfault with
  | shape cause _ => exact h.other _ rfl
  | tooDeep => exact absurd rfl (hne rfl)

theorem Allows.of_notNumber (h : Allows Allowed depth size) {op : Builtin} {v : Value}
    (hv : v.depth ≤ size) {fault : Fault} (hfault : NotNumber depth op v fault) :
    Allowed fault := by
  cases hfault with
  | shown text => exact h.other _ rfl
  | undisplayable o ho => exact h.undisplayable hv ho
  | tooLarge n _ => exact h.other _ rfl

/-- All operations but the one that makes procedures stay tame on the parts of a form. -/
theorem applyBuiltin_tame (hallows : Allows Allowed depth size)
    (hform : ∀ e ∈ form, e.IsSource ∧ e.depth ≤ size)
    (hev : ∀ e ∈ form, ∀ s', s'.Tame f N size → EndsTame f N size Allowed (ev f e) s')
    (hs : s.Tame f N size) (hsize : 0 < size) {b : Builtin} (hb : b ≠ .lambda) :
    EndsTame f N size Allowed (applyBuiltin depth ev f form b) s := by
  have hnumber : ∀ x, (Value.number x).Tame size := fun x => ⟨rfl, hsize⟩
  have hmarker : ∀ c, (Value.ofBool c).Tame size := by
    intro c
    cases c
    · exact ⟨rfl, hsize⟩
    · exact ⟨rfl, hsize⟩
  have hoperand : ∀ op, ∀ e ∈ form.tail, ∀ s', s'.Tame f N size →
      (ev f e).Ends s' (fun v s'' => s''.Tame f N size ∧
        ∀ fault, NotNumber depth op v fault → Allowed fault) fun fault _ => Allowed fault := by
    intro op e he s' hs'
    refine Ends.imp (hev e (List.mem_of_mem_tail he) s' hs') fun v s'' h => ?_
    exact ⟨h.2, fun fault hfault => hallows.of_notNumber h.1.depth_le hfault⟩
  cases b with
  | sequence =>
    refine ends_sequence (fun e he _ s' h => ?_) ⟨hnumber _, hs⟩
    exact hev e (List.mem_of_mem_tail he) s' h.2
  | define =>
    refine ends_define_shown ?_ (fun _ h hne => hallows.of_refusal h fun _ => hne)
      fun e he hdeep => hallows.shown (Nat.lt_of_lt_of_le hdeep (hform e he).2)
    rintro head n e rfl
    refine Ends.imp (hev e (by simp) s hs) fun v s' h => ?_
    exact ⟨⟨rfl, hsize⟩, h.2.define n h.1⟩
  | branch =>
    refine ends_branch ?_ fun fault h => hallows.of_refusal h nofun
    rintro head test conseq alt rfl
    refine Ends.imp (hev test (by simp) s hs) fun v s' h => ?_
    exact hev _ (by split <;> simp) s' h.2
  | lambda => exact absurd rfl hb
  | quote =>
    refine ends_quote ?_ fun fault h => hallows.of_refusal h nofun
    rintro head e rfl
    obtain ⟨hsource, hdepth⟩ := hform e (by simp)
    exact ⟨⟨hsource.isInert, hdepth⟩, hs⟩
  | product =>
    exact ends_arithmetic (.inl rfl) (hoperand _) (fun x _ h => ⟨hnumber x, h⟩)
      (fun c _ h => ⟨hmarker c, h⟩) hs
  | difference =>
    exact ends_arithmetic (.inr (.inl rfl)) (hoperand _) (fun x _ h => ⟨hnumber x, h⟩)
      (fun c _ h => ⟨hmarker c, h⟩) hs
  | equality =>
    exact ends_arithmetic (.inr (.inr rfl)) (hoperand _) (fun x _ h => ⟨hnumber x, h⟩)
      (fun c _ h => ⟨hmarker c, h⟩) hs

/-- A tame value other than a procedure is applied, or refused. -/
theorem apply_tame (hallows : Allows Allowed depth size)
    (hform : ∀ e ∈ form, e.IsSource ∧ e.depth ≤ size)
    (hev : ∀ e ∈ form, ∀ s', s'.Tame f N size → EndsTame f N size Allowed (ev f e) s')
    (hs : s.Tame f N size) (hsize : 0 < size) {head : Value} (hhead : head.Tame size) :
    EndsTame f N size Allowed (apply depth ev f head form) s := by
  unfold apply
  split
  · rename_i b
    refine applyBuiltin_tame hallows hform hev hs hsize ?_
    rintro rfl
    exact absurd hhead.inert nofun
  · exact absurd hhead.inert nofun
  · apply ends_bind
    refine ends_displayed (fun _ _ => ends_throw (hallows.other _ rfl)) fun o ho => ?_
    exact hallows.undisplayable hhead.depth_le ho

/-- Evaluation of source without procedures needs no more depth than the source has. -/
theorem eval_tame {e : Value} (he : e.IsSource) (hN : ∀ n, e.Mentions n → N n)
    (hsize : e.depth ≤ size) (hdepth : e.depth ≤ depth)
    (hallows : Allows Allowed depth (e.depth + size)) (hs : s.Tame f N size) :
    EndsTame f N size Allowed (eval depth f e) s := by
  induction depth generalizing e s with
  | zero => exact absurd (Reader.depth_pos e) (Nat.not_lt_of_le hdepth)
  | succ depth ih =>
    have hpos := Reader.depth_pos e
    have hallows' : Allows Allowed depth size :=
      ⟨hallows.other, fun hlt => hallows.shown (by omega)⟩
    refine ends_eval (fun _ => hallows.other _ rfl) ?_ ?_ ?_ (fun _ => hallows.other _ rfl)
      (fun _ _ => hallows.other _ rfl) fun _ _ => ⟨⟨he.isInert, hsize⟩, hs⟩
    · rintro n operands v rfl hv
      refine apply_tame hallows' (fun e' he' => ?_) (fun e' he' s' hs' => ?_) hs (by omega)
        (hs n (hN n (.item (by simp) .symbol)) v hv)
      · have hlt := Value.depth_lt_of_mem he'
        exact ⟨he.mem he', by omega⟩
      · have hlt := Value.depth_lt_of_mem he'
        refine ih (he.mem he') (fun m hm => hN m (.item he' hm)) (by omega) (by omega) ?_ hs'
        exact ⟨hallows.other, fun hroom => hallows.shown (by omega)⟩
    · rintro head operands rfl -
      have hlt : head.depth < (Value.list (head :: operands)).depth :=
        Value.depth_lt_of_mem (by simp)
      exact ⟨fun _ => hallows.other _ rfl, fun o ho => hallows'.undisplayable (by omega) ho⟩
    · rintro n v rfl hv
      exact ⟨hs n (hN n .symbol) v hv, hs⟩

/-- From the depth of the source on, only a message can meet a bound, and none does where there is
room for every value that it may have to show. -/
theorem exhaustion_of_tame {e : Value} (he : e.IsSource) (hsize : e.depth ≤ size)
    (hs : s.Tame f e.Mentions size) (hdepth : e.depth ≤ depth) {fault : Fault}
    (hfault : ((eval depth f e).on s).1 = .error fault) :
    fault.isExhaustion = false ∨ depth < e.depth + size ∧ fault = .undisplayable .tooDeep := by
  have hallows : Allows (fun fault => fault.isExhaustion = false ∨
      depth < e.depth + size ∧ fault = .undisplayable .tooDeep) depth (e.depth + size) :=
    ⟨fun _ => .inl, fun hlt => .inr ⟨hlt, rfl⟩⟩
  exact (eval_tame he (fun _ hn => hn) hsize hdepth hallows hs).of_error hfault

end Eval

open Eval

/-- Only procedures can run away. If no name in an expression that was read stands for a procedure
or for the operation that makes procedures, then evaluation is nested no deeper than the expression,
so under a bound as large as its depth it is never too deep. It comes to an end, and from that bound
on it ends in the same way, unless a value is too deep to be shown in a message. -/
theorem eval_without_procedures_settles {ts : List Token} {e : Value} (he : Reader.Derives ts e)
    {s : Store} {f : FrameId}
    (hnames : ∀ n, e.Mentions n → ∀ v, s.lookup? f n = some v → v.isInert = true) :
    (∀ depth ≥ e.depth, ((eval depth f e).on s).1 ≠ .error .tooDeep) ∧
      ∃ r, Settles (eval · f e) s r ∧ ∀ depth ≥ e.depth, (eval depth f e).on s = r ∨
        ((eval depth f e).on s).1 = .error (.undisplayable .tooDeep) := by
  obtain ⟨size, hsize, hs⟩ := Store.exists_tame he.isSource hnames
  have hfaults : ∀ depth ≥ e.depth, ∀ fault, ((eval depth f e).on s).1 = .error fault →
      fault.isExhaustion = false ∨ depth < e.depth + size ∧ fault = .undisplayable .tooDeep :=
    fun depth hdepth fault hfault => exhaustion_of_tame he.isSource hsize hs hdepth hfault
  have hsettles : Settles (eval · f e) s ((eval (e.depth + size) f e).on s) := by
    refine ⟨fun fault hfault => ?_, _, rfl⟩
    exact (hfaults _ (Nat.le_add_right _ _) fault hfault).resolve_right fun h =>
      Nat.lt_irrefl _ h.1
  refine ⟨fun depth hdepth htoo => ?_, _, hsettles, fun depth hdepth => ?_⟩
  · obtain h | ⟨-, h⟩ := hfaults depth hdepth _ htoo
    · simp [Fault.isExhaustion] at h
    · simp at h
  · by_cases hfinished : Finished ((eval depth f e).on s).1
    · exact .inl (Settles.unique (eval_isMonotone f e) ⟨hfinished, depth, rfl⟩ hsettles)
    · right
      simp only [Finished, not_forall] at hfinished
      obtain ⟨fault, hfault, hdeep⟩ := hfinished
      rw [hfault, ((hfaults depth hdepth fault hfault).resolve_left hdeep).2]

/-- The expression `(begin (define d define) (d x '(y)) (x))`. -/
def Value.sampleAlias : Value :=
  .list [.symbol "begin", .list [.symbol "define", .symbol "d", .symbol "define"],
    .list [.symbol "d", .symbol "x", .list [.symbol "quote", .list [.symbol "y"]]],
    .list [.symbol "x"]]

/-- A name for an operation that is made on the way, and data that is called. -/
theorem sampleAlias_settles :
    parse 9 "(begin (define d define) (d x '(y)) (x))" = .ok .sampleAlias ∧
      Value.sampleAlias.depth = 5 ∧
      (∀ n, Value.sampleAlias.Mentions n →
        ∀ v, Session.start.lookup? 0 n = some v → v.isInert = true) ∧
      ((eval 5 0 .sampleAlias).on Session.start).1 ≠ .error .tooDeep ∧
      ∃ r, Settles (eval · 0 .sampleAlias) Session.start r := by
  have hparse : parse 9 "(begin (define d define) (d x '(y)) (x))" = .ok .sampleAlias := by
    rw [parse_eq, lex_eq_scan]
    rfl
  have hdepth : Value.sampleAlias.depth = 5 := by decide +kernel
  have hnames : ∀ n, Value.sampleAlias.Mentions n →
      ∀ v, Session.start.lookup? 0 n = some v → v.isInert = true := by
    intro n hn v hv
    have hinert : ((Session.start.lookup? 0 n).all Value.isInert) = true := by
      simp only [Value.sampleAlias, Value.mentions_list, List.mem_cons, List.not_mem_nil, or_false,
        exists_eq_or_imp, exists_eq_left, Value.mentions_symbol] at hn
      rcases hn with rfl | (rfl | rfl | rfl) | (rfl | rfl | rfl | rfl) | rfl <;> decide +kernel
    simpa [hv] using hinert
  obtain ⟨ts, -, -, hderives⟩ := (parse_ok_iff (by simp [hparse])).1 hparse
  obtain ⟨hnever, r, hr, -⟩ := eval_without_procedures_settles hderives hnames
  exact ⟨hparse, hdepth, hnames, hnever 5 (Nat.le_of_eq hdepth), r, hr⟩

end Lisplet
