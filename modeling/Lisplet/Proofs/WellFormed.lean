import Lisplet.Proofs.Computation

/-! Well-formed values and stores. A well-formed value is made of symbols, numbers, operations,
lists of such values, and procedures whose formals are symbols, whose body is well-formed and whose
frame exists. In a well-formed store every bound value is well-formed and every outer link goes to
an earlier frame. Evaluation keeps stores well-formed, also when it fails; from a well-formed store
a well-formed expression leads to a well-formed value or to an ordinary fault, never to one that
foreign data brings about. -/

namespace Lisplet

/-- A value without foreign data, in a store with the given number of frames. -/
inductive Value.WellFormed (frames : FrameId) : Value → Prop where
  | symbol (n : String) : WellFormed frames (.symbol n)
  | number (x : Float) : WellFormed frames (.number x)
  | builtin (b : Builtin) : WellFormed frames (.builtin b)
  | list {items : List Value} (h : ∀ v ∈ items, v.WellFormed frames) :
      WellFormed frames (.list items)
  | procedure {formals : List Value} {body : Value} {frame : FrameId}
      (hformals : ∀ v ∈ formals, v.isSymbol = true) (hbody : body.WellFormed frames)
      (hframe : frame < frames) : WellFormed frames (.procedure formals body frame)

namespace Value.WellFormed

variable {frames : FrameId} {v : Value}

theorem mono {frames' : FrameId} (h : v.WellFormed frames) (hle : frames ≤ frames') :
    v.WellFormed frames' := by
  induction h with
  | symbol n => exact .symbol n
  | number x => exact .number x
  | builtin b => exact .builtin b
  | list _ ih => exact .list fun v hv => ih v hv
  | procedure hformals _ hframe ih => exact .procedure hformals ih (Nat.lt_of_lt_of_le hframe hle)

theorem mem {items : List Value} (h : (Value.list items).WellFormed frames) (hv : v ∈ items) :
    v.WellFormed frames := by
  cases h with
  | list h => exact h v hv

theorem ofBool (b : Bool) : (Value.ofBool b).WellFormed frames := by
  cases b
  · exact .symbol _
  · exact .symbol _

theorem ne_foreign (h : v.WellFormed frames) (x : Foreign) : v ≠ .foreign x := by
  rintro rfl
  cases h

/-- Only nesting can keep a well-formed value from being displayed. -/
theorem obstacle?_ne_tooLarge (h : v.WellFormed frames) (d : Nat) :
    v.obstacle? d ≠ some .tooLarge := by
  induction h generalizing d with
  | list _ ih =>
    cases d with
    | zero => simp [obstacle?]
    | succ d =>
      rw [obstacle?]
      intro hsome
      obtain ⟨v, hv, hvsome⟩ := List.exists_of_findSome?_eq_some hsome
      exact ih v hv d hvsome
  | procedure =>
    cases d with
    | zero => simp [obstacle?]
    | succ d => rw [obstacle?]; split <;> simp
  | symbol => cases d <;> simp [obstacle?]
  | number => cases d <;> simp [obstacle?]
  | builtin => cases d <;> simp [obstacle?]

theorem display_ne_tooLarge (h : v.WellFormed frames) (d : Nat) :
    v.display d ≠ .error .tooLarge := by
  have hne := h.obstacle?_ne_tooLarge d
  unfold display
  split
  · nofun
  · rename_i o ho
    rintro ⟨⟩
    exact hne ho

end Value.WellFormed

/-- The faults that a session reports, without the refusal to bind what is no symbol. -/
structure Fault.Ordinary (fault : Fault) : Prop where
  reported : fault.isReported = true
  binds_symbols : ∀ shown, fault ≠ .misuse (.bindTarget shown)

namespace Fault.Ordinary

variable {frames : FrameId} {v : Value} {depth : Nat} {fault : Fault}

theorem unreadable (cause : ReadFault) : (Fault.unreadable cause).Ordinary :=
  ⟨rfl, by simp⟩

theorem undisplayable (hv : v.WellFormed frames) {o : Obstacle}
    (ho : v.display depth = .error o) : (Fault.undisplayable o).Ordinary := by
  cases o with
  | tooDeep => exact ⟨rfl, nofun⟩
  | tooLarge => exact absurd ho (hv.display_ne_tooLarge depth)

theorem of_refusal {b : Builtin} (h : Eval.Refusal b fault) : fault.Ordinary := by
  cases h with
  | shape cause hcause => exact ⟨rfl, fun shown heq => hcause shown (by cases heq; rfl)⟩
  | tooDeep => exact ⟨rfl, nofun⟩

theorem of_notNumber {op : Builtin} (hv : v.WellFormed frames)
    (h : Eval.NotNumber depth op v fault) : fault.Ordinary := by
  cases h with
  | shown text => exact ⟨rfl, nofun⟩
  | undisplayable o ho => exact .undisplayable hv ho
  | tooLarge n hn => exact absurd hn (hv.ne_foreign _)

end Fault.Ordinary

namespace Bindings

theorem mem_of_get? {bs : Bindings} {n : String} {v : Value} (h : bs.get? n = some v) :
    (n, v) ∈ bs := by
  induction bs with
  | nil => cases h
  | cons b bs ih =>
    obtain ⟨m, w⟩ := b
    by_cases hm : m = n
    · subst hm
      simp only [get?, ↓reduceIte, Option.some.injEq] at h
      simp [h]
    · simp only [get?, hm, ↓reduceIte] at h
      exact List.mem_cons_of_mem _ (ih h)

theorem mem_insert {bs : Bindings} {n : String} {v : Value} {p : String × Value}
    (h : p ∈ bs.insert n v) : p = (n, v) ∨ p ∈ bs := by
  induction bs with
  | nil => exact .inl (List.mem_singleton.1 h)
  | cons b bs ih =>
    obtain ⟨m, w⟩ := b
    by_cases hm : m = n
    · simp only [insert, hm, ↓reduceIte, List.mem_cons] at h
      exact h.imp_right (List.mem_cons_of_mem _)
    · simp only [insert, hm, ↓reduceIte, List.mem_cons] at h
      rcases h with rfl | h
      · exact .inr (List.mem_cons_self ..)
      · exact (ih h).imp_right (List.mem_cons_of_mem _)

end Bindings

/-- A store of well-formed values, with outer links that go to earlier frames. -/
structure Store.WellFormed (s : Store) : Prop where
  values : ∀ {f : FrameId} {fr : Frame}, s.get? f = some fr →
    ∀ p ∈ fr.bindings, p.2.WellFormed s.next
  links : ∀ {f : FrameId} {fr : Frame}, s.get? f = some fr → ∀ o, fr.outer = some o → o < f

namespace Store.WellFormed

variable {s : Store}

theorem own? (hs : s.WellFormed) {f : FrameId} {n : String} {v : Value}
    (h : s.own? f n = some v) : v.WellFormed s.next := by
  unfold Store.own? bindings at h
  split at h
  · rename_i fr hfr
    exact hs.values hfr _ (Bindings.mem_of_get? h)
  · cases h

theorem lookup? (hs : s.WellFormed) {f : FrameId} {n : String} {v : Value}
    (h : s.lookup? f n = some v) : v.WellFormed s.next := by
  obtain ⟨g, -, hg⟩ := Option.bind_eq_some_iff.1 h
  exact hs.own? hg

theorem define (hs : s.WellFormed) (f : FrameId) (n : String) {v : Value}
    (hv : v.WellFormed s.next) : (s.define f n v).WellFormed := by
  have hframe : ∀ {g : FrameId} {fr : Frame}, (s.define f n v).get? g = some fr →
      ∃ old, s.get? g = some old ∧ fr.outer = old.outer ∧
        ∀ p ∈ fr.bindings, p = (n, v) ∨ p ∈ old.bindings := by
    intro g fr hfr
    by_cases hgf : f = g
    · subst hgf
      rw [get?_define_self] at hfr
      obtain ⟨old, hold, rfl⟩ := Option.map_eq_some_iff.1 hfr
      exact ⟨old, hold, rfl, fun p hp => Bindings.mem_insert hp⟩
    · rw [get?_define_of_ne _ _ _ hgf] at hfr
      exact ⟨fr, hfr, rfl, fun p hp => .inr hp⟩
  refine ⟨fun hfr p hp => ?_, fun hfr o ho => ?_⟩
  · obtain ⟨old, hold, -, hmem⟩ := hframe hfr
    rw [next_define]
    rcases hmem p hp with rfl | hp
    · exact hv
    · exact hs.values hold p hp
  · obtain ⟨old, hold, houter, -⟩ := hframe hfr
    exact hs.links hold o (houter ▸ ho)

theorem push (hs : s.WellFormed) {outer : Option FrameId} (ho : ∀ o, outer = some o → o < s.next) :
    (s.push outer).WellFormed := by
  have hframe : ∀ {g : FrameId} {fr : Frame}, (s.push outer).get? g = some fr →
      s.get? g = some fr ∨ g = s.next ∧ fr = { outer := outer } := by
    intro g fr hfr
    have hlt : g < (s.push outer).next := (Array.getElem?_eq_some_iff.1 hfr).1
    rw [next_push] at hlt
    rcases Nat.lt_succ_iff_lt_or_eq.1 hlt with hg | rfl
    · rw [get?_push_of_lt _ _ hg] at hfr
      exact .inl hfr
    · rw [get?_push_next] at hfr
      cases hfr
      exact .inr ⟨rfl, rfl⟩
  refine ⟨fun hfr p hp => ?_, fun hfr o hlink => ?_⟩
  · rw [next_push]
    rcases hframe hfr with hold | ⟨-, rfl⟩
    · exact (hs.values hold p hp).mono (Nat.le_succ _)
    · cases hp
  · rcases hframe hfr with hold | ⟨rfl, rfl⟩
    · exact hs.links hold o hlink
    · exact ho o hlink

end Store.WellFormed

/-- What a computation on a well-formed store leads to: a well-formed store with no frame less. -/
structure Store.Leads (s s' : Store) : Prop where
  wellFormed : s'.WellFormed
  next_le : s.next ≤ s'.next

namespace Store.Leads

variable {s s' s'' : Store}

theorem refl (hs : s.WellFormed) : s.Leads s := ⟨hs, Nat.le_refl _⟩

theorem trans (h : s.Leads s') (h' : s'.Leads s'') : s.Leads s'' :=
  ⟨h'.wellFormed, Nat.le_trans h.next_le h'.next_le⟩

theorem define (h : s.Leads s') (f : FrameId) (n : String) {v : Value}
    (hv : v.WellFormed s'.next) : s.Leads (s'.define f n v) :=
  ⟨h.wellFormed.define f n hv, by rw [next_define]; exact h.next_le⟩

end Store.Leads

namespace Eval

variable {depth : Nat} {ev : Evaluator}

/-- Run from `s`, a computation leads to a well-formed store, and to a well-formed value or an
ordinary fault. -/
def Safe (act : Eval Value) (s : Store) : Prop :=
  act.Ends s (fun v s' => s.Leads s' ∧ v.WellFormed s'.next) fun fault s' =>
    s.Leads s' ∧ fault.Ordinary

/-- A safe computation is safe as a continuation of what led to its store. -/
theorem Safe.after {act : Eval Value} {s s' : Store} (h : act.Safe s') (hs : s.Leads s') :
    act.Ends s' (fun v s'' => s.Leads s'' ∧ v.WellFormed s''.next) fun fault s'' =>
      s.Leads s'' ∧ fault.Ordinary :=
  Ends.mono h (fun _ _ h' => ⟨hs.trans h'.1, h'.2⟩) fun _ _ h' => ⟨hs.trans h'.1, h'.2⟩

def IsSafe (ev : Evaluator) : Prop :=
  ∀ f e s, s.WellFormed → f < s.next → e.WellFormed s.next → (ev f e).Safe s

/-- In a frame of `s`, a safe evaluator evaluates a member of a well-formed form on any store that
`s` leads to. -/
theorem IsSafe.member (hev : IsSafe ev) {f : FrameId} {form : List Value} {s s' : Store}
    (hs : s.Leads s') (hf : f < s.next) (hform : (Value.list form).WellFormed s.next) {e : Value}
    (he : e ∈ form) :
    (ev f e).Ends s' (fun v s'' => s.Leads s'' ∧ v.WellFormed s''.next) fun fault s'' =>
      s.Leads s'' ∧ fault.Ordinary := by
  have hsafe := hev f e s' hs.wellFormed (Nat.lt_of_lt_of_le hf hs.next_le)
    ((hform.mem he).mono hs.next_le)
  exact hsafe.after hs

theorem applyBuiltin_safe (hev : IsSafe ev) {f : FrameId} {form : List Value} {s : Store}
    (hs : s.WellFormed) (hf : f < s.next) (hform : (Value.list form).WellFormed s.next)
    (b : Builtin) : (applyBuiltin depth ev f form b).Safe s := by
  have hrefl := Store.Leads.refl hs
  have hbad : ∀ b fault, Refusal b fault → s.Leads s ∧ fault.Ordinary :=
    fun b fault h => ⟨hrefl, .of_refusal h⟩
  have hoperand : ∀ op, ∀ e ∈ form.tail, ∀ s', s.Leads s' →
      (ev f e).Ends s'
        (fun v s'' => s.Leads s'' ∧ ∀ fault, NotNumber depth op v fault →
          s.Leads s'' ∧ fault.Ordinary)
        fun fault s'' => s.Leads s'' ∧ fault.Ordinary := by
    intro op e he s' hs'
    refine (hev.member hs' hf hform (List.mem_of_mem_tail he)).imp fun v s'' h => ?_
    exact ⟨h.1, fun fault hfault => ⟨h.1, .of_notNumber h.2 hfault⟩⟩
  cases b with
  | sequence =>
    refine ends_sequence (fun e he v s' h => ?_) ⟨hrefl, .number _⟩
    exact hev.member h.1 hf hform (List.mem_of_mem_tail he)
  | define =>
    refine ends_define ?_ (hbad _)
    rintro head n e rfl
    refine (hev.member hrefl hf hform (by simp)).imp fun v s' h => ?_
    exact ⟨h.1.define f n h.2, .symbol _⟩
  | branch =>
    refine ends_branch ?_ (hbad _)
    rintro head test conseq alt rfl
    refine (hev.member hrefl hf hform (by simp)).imp fun v s' h => ?_
    exact hev.member h.1 hf hform (by split <;> simp)
  | lambda =>
    refine ends_lambda ?_ (hbad _)
    rintro head formals body rfl hformals
    exact ⟨hrefl, .procedure hformals (hform.mem (by simp)) hf⟩
  | quote =>
    refine ends_quote ?_ (hbad _)
    rintro head e rfl
    exact ⟨hrefl, hform.mem (by simp)⟩
  | product =>
    exact ends_arithmetic (.inl rfl) (hoperand _) (fun x _ h => ⟨h, .number x⟩)
      (fun b _ h => ⟨h, .ofBool b⟩) hrefl
  | difference =>
    exact ends_arithmetic (.inr (.inl rfl)) (hoperand _) (fun x _ h => ⟨h, .number x⟩)
      (fun b _ h => ⟨h, .ofBool b⟩) hrefl
  | equality =>
    exact ends_arithmetic (.inr (.inr rfl)) (hoperand _) (fun x _ h => ⟨h, .number x⟩)
      (fun b _ h => ⟨h, .ofBool b⟩) hrefl

/-- Symbols can be bound to well-formed arguments, so a call gets as far as its body. -/
theorem extend_ends {formals args : List Value} {outer : FrameId} {s : Store} (hs : s.WellFormed)
    (hformals : ∀ v ∈ formals, v.isSymbol = true) (hargs : ∀ v ∈ args, v.WellFormed s.next)
    (houter : outer < s.next) :
    (extend depth formals args outer).Ends s
      (fun k s' => s.Leads s' ∧ k < s'.next) fun _ _ => False := by
  have hpush : (s.push (some outer)).WellFormed := hs.push fun o ho => by cases ho; exact houter
  have hle : ∀ s', (s.push (some outer)).Leads s' → s.next < s'.next := by
    intro s' hs'
    have h := hs'.next_le
    rw [Store.next_push] at h
    exact h
  refine ends_extend (I := (s.push (some outer)).Leads) ?_ ?_ ?_ (.refl hpush)
  · intro n v s' hmem hs'
    have hv := hargs v (List.of_mem_zip hmem).2
    exact hs'.define _ n (hv.mono (Nat.le_of_lt (hle s' hs')))
  · intro name hname hsym
    rw [hformals name hname] at hsym
    cases hsym
  · intro s' hs'
    exact ⟨⟨hs'.wellFormed, Nat.le_of_lt (hle s' hs')⟩, hle s' hs'⟩

theorem apply_safe (hev : IsSafe ev) {f : FrameId} {head : Value} {form : List Value} {s : Store}
    (hs : s.WellFormed) (hf : f < s.next) (hhead : head.WellFormed s.next)
    (hform : (Value.list form).WellFormed s.next) : (apply depth ev f head form).Safe s := by
  have hrefl := Store.Leads.refl hs
  unfold apply
  split
  · exact applyBuiltin_safe hev hs hf hform _
  · rename_i formals body outer
    cases hhead with
    | procedure hformals hbody houter =>
      apply ends_bind
      refine Ends.imp (ends_mapM (P := fun vs s' => s.Leads s' ∧ ∀ v ∈ vs, v.WellFormed s'.next)
        ?_ ⟨hrefl, nofun⟩) ?_
      · rintro e he vs s' ⟨hs', hvs⟩
        refine Ends.mono (hev f e s' hs'.wellFormed (Nat.lt_of_lt_of_le hf hs'.next_le)
          ((hform.mem (List.mem_of_mem_tail he)).mono hs'.next_le)) ?_ ?_
        · rintro v s'' ⟨hs'', hv⟩
          refine ⟨hs'.trans hs'', fun w hw => ?_⟩
          rcases List.mem_append.1 hw with hw | hw
          · exact (hvs w hw).mono hs''.next_le
          · rw [List.mem_singleton.1 hw]; exact hv
        · rintro fault s'' ⟨hs'', hfault⟩
          exact ⟨hs'.trans hs'', hfault⟩
      · rintro args s' ⟨hs', hargs⟩
        apply ends_bind
        refine (extend_ends hs'.wellFormed hformals hargs
          (Nat.lt_of_lt_of_le houter hs'.next_le)).mono ?_ fun _ _ => False.elim
        rintro k s'' ⟨hs'', hk⟩
        have hbody'' := hbody.mono (hs'.trans hs'').next_le
        exact (hev k body s'' hs''.wellFormed hk hbody'').after (hs'.trans hs'')
  · apply ends_bind
    refine ends_displayed (fun _ _ => ends_throw ⟨hrefl, rfl, nofun⟩) fun o ho => ?_
    exact ⟨hrefl, .undisplayable hhead ho⟩

/-- Evaluation to any depth is safe. -/
theorem eval_isSafe (depth : Nat) : IsSafe (eval depth) := by
  induction depth with
  | zero => exact fun f e s hs _ _ => ends_throw ⟨.refl hs, rfl, nofun⟩
  | succ depth ih =>
    intro f e s hs hf he
    have hrefl := Store.Leads.refl hs
    refine ends_eval (fun _ => ⟨hrefl, rfl, nofun⟩) ?_ ?_ ?_ (fun _ => ⟨hrefl, rfl, nofun⟩) ?_ ?_
    · rintro n operands v rfl hv
      exact apply_safe ih hs hf (hs.lookup? hv) he
    · rintro head operands rfl -
      exact ⟨fun _ => ⟨hrefl, rfl, nofun⟩,
        fun o ho => ⟨hrefl, .undisplayable (he.mem (List.mem_cons_self ..)) ho⟩⟩
    · rintro n v rfl hv
      exact ⟨hrefl, hs.lookup? hv⟩
    · exact fun x hx => absurd hx (he.ne_foreign x)
    · exact fun _ _ => ⟨hrefl, he⟩

end Eval

end Lisplet
