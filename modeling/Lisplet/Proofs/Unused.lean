import Lisplet.Proofs.Coupling
import Lisplet.Proofs.Renaming

/-! Names that are not used. A binding matters only to code that mentions its name. Take two stores
that differ in the binding of one name in one frame, which has two values or is missing in one of
them. If neither the expression nor any procedure in the stores mentions the name, then evaluation
goes the same way in both and leaves stores that differ as little. Procedures may have the name as a
formal, and what is bound to the name itself does not count. -/

namespace Lisplet

/-- A name that stands in code: in an expression, or in the body of a procedure in it. -/
inductive Value.Mentions (n : String) : Value → Prop where
  | symbol : Mentions n (.symbol n)
  | item {items : List Value} {v : Value} (hv : v ∈ items) (h : v.Mentions n) :
      Mentions n (.list items)
  | body (formals : List Value) {body : Value} (h : body.Mentions n) (f : FrameId) :
      Mentions n (.procedure formals body f)

@[simp] theorem Value.mentions_symbol {n m : String} :
    (Value.symbol m).Mentions n ↔ m = n := by
  constructor
  · intro h
    cases h
    rfl
  · rintro rfl
    exact .symbol

@[simp] theorem Value.mentions_list {n : String} {items : List Value} :
    (Value.list items).Mentions n ↔ ∃ v ∈ items, v.Mentions n := by
  constructor
  · intro h
    cases h with
    | item hv h => exact ⟨_, hv, h⟩
  · rintro ⟨v, hv, h⟩
    exact .item hv h

namespace Bindings

/-- The bindings of all names but one. -/
def without (bs : Bindings) (n : String) : Bindings :=
  bs.filter fun b => b.1 != n

theorem get?_without_of_ne (bs : Bindings) {n m : String} (h : m ≠ n) :
    (bs.without n).get? m = bs.get? m := by
  unfold without
  induction bs with
  | nil => rfl
  | cons b bs ih =>
    obtain ⟨k, w⟩ := b
    by_cases hk : k = n
    · subst hk
      simp [get?, ih, h.symm]
    · simp [get?, hk, ih]

theorem without_insert_self (bs : Bindings) (n : String) (v : Value) :
    (bs.insert n v).without n = bs.without n := by
  unfold without
  induction bs with
  | nil => simp [insert]
  | cons b bs ih =>
    obtain ⟨k, w⟩ := b
    by_cases hk : k = n <;> simp [insert, hk, ih]

theorem without_insert_of_ne (bs : Bindings) {n m : String} (v : Value) (h : m ≠ n) :
    (bs.insert m v).without n = (bs.without n).insert m v := by
  unfold without
  induction bs with
  | nil => simp [insert, h]
  | cons b bs ih =>
    obtain ⟨k, w⟩ := b
    by_cases hkm : k = m
    · simp [insert, hkm, h]
    · by_cases hk : k = n <;> simp [insert, hkm, hk, ih, h.symm]

/-- Bindings that differ in one name at most do so after the same name is bound in both. -/
theorem without_insert_congr {bs cs : Bindings} {n : String} (h : cs.without n = bs.without n)
    (m : String) (v : Value) : (cs.insert m v).without n = (bs.insert m v).without n := by
  by_cases hm : m = n
  · subst hm
    rw [without_insert_self, without_insert_self, h]
  · rw [without_insert_of_ne _ v hm, without_insert_of_ne _ v hm, h]

end Bindings

/-- Frames that differ in the binding of `n` at most. -/
structure Frame.SameBut (n : String) (fr fr' : Frame) : Prop where
  outer : fr'.outer = fr.outer
  bindings : fr'.bindings.without n = fr.bindings.without n

namespace Store

variable {s t : Store} {f : FrameId} {n : String}

/-- Stores that differ in the binding of `n` in frame `f` at most. -/
structure SameBut (f : FrameId) (n : String) (s t : Store) : Prop where
  others : ∀ g, g ≠ f → t.get? g = s.get? g
  there : Option.Rel (Frame.SameBut n) (s.get? f) (t.get? f)

theorem get?_push (s : Store) (outer : Option FrameId) (g : FrameId) :
    (s.push outer).get? g = if g = s.next then some { outer := outer } else s.get? g := by
  by_cases hg : g = s.frames.size <;> simp [push, get?, next, Array.getElem?_push, hg]

namespace SameBut

/-- In every frame, the two stores differ in the binding of `n` at most. -/
theorem frame (h : SameBut f n s t) (g : FrameId) :
    Option.Rel (Frame.SameBut n) (s.get? g) (t.get? g) := by
  by_cases hg : g = f
  · subst hg
    exact h.there
  · rw [h.others g hg]
    cases s.get? g with
    | none => exact .none
    | some fr => exact .some ⟨rfl, rfl⟩

/-- There are the same frames in both stores. -/
theorem next (h : SameBut f n s t) : t.next = s.next := by
  -- The next frame is the first that is missing, so it is settled by which frames are.
  have hnone : ∀ g, t.get? g = none ↔ s.get? g = none := by
    intro g
    have hg := h.frame g
    generalize s.get? g = fr at hg
    generalize t.get? g = fr' at hg
    cases hg <;> simp
  have hle : ∀ g, t.next ≤ g ↔ s.next ≤ g := by
    simpa [get?, Store.next] using hnone
  exact Nat.le_antisymm ((hle _).2 (Nat.le_refl _)) ((hle _).1 (Nat.le_refl _))

theorem outer? (h : SameBut f n s t) (g : FrameId) : t.outer? g = s.outer? g := by
  have hg := h.frame g
  unfold Store.outer?
  generalize s.get? g = fr at hg
  generalize t.get? g = fr' at hg
  cases hg with
  | none => rfl
  | @some fr fr' hframe =>
    obtain ⟨outer, bindings⟩ := fr
    obtain ⟨outer', bindings'⟩ := fr'
    obtain rfl : outer' = outer := hframe.outer
    cases outer' <;> rfl

theorem own? (h : SameBut f n s t) {m : String} (hm : m ≠ n) (g : FrameId) :
    t.own? g m = s.own? g m := by
  have hg := h.frame g
  unfold Store.own? Store.bindings
  generalize s.get? g = fr at hg
  generalize t.get? g = fr' at hg
  cases hg with
  | none => rfl
  | @some fr fr' hframe =>
    simp only
    rw [← Bindings.get?_without_of_ne fr'.bindings hm, hframe.bindings,
      Bindings.get?_without_of_ne fr.bindings hm]

/-- Other names are found in the same frames. -/
theorem find? (h : SameBut f n s t) {m : String} (hm : m ≠ n) (g : FrameId) :
    t.find? g m = s.find? g m := by
  induction g using Nat.strongRecOn with
  | ind g ih =>
    rw [Store.find?, Store.find?, h.own? hm, h.outer?]
    split
    · rfl
    · split
      · rename_i o _
        exact ih o.1 o.2
      · rfl

theorem lookup? (h : SameBut f n s t) {m : String} (hm : m ≠ n) (g : FrameId) :
    t.lookup? g m = s.lookup? g m := by
  simp only [Store.lookup?, h.find? hm, h.own? hm]

theorem define (h : SameBut f n s t) (k : FrameId) (m : String) (v : Value) :
    SameBut f n (s.define k m v) (t.define k m v) := by
  refine ⟨fun g hg => ?_, ?_⟩
  · by_cases hk : k = g
    · subst hk
      rw [get?_define_self, get?_define_self, h.others k hg]
    · rw [get?_define_of_ne _ m v hk, get?_define_of_ne _ m v hk, h.others g hg]
  · by_cases hk : k = f
    · subst hk
      rw [get?_define_self, get?_define_self]
      have hthere := h.there
      generalize s.get? k = fr at hthere
      generalize t.get? k = fr' at hthere
      cases hthere with
      | none => exact .none
      | some hframe =>
        exact .some ⟨hframe.outer, Bindings.without_insert_congr hframe.bindings m v⟩
    · rw [get?_define_of_ne _ m v hk, get?_define_of_ne _ m v hk]
      exact h.there

theorem push (h : SameBut f n s t) (outer : Option FrameId) :
    SameBut f n (s.push outer) (t.push outer) := by
  refine ⟨fun g hg => ?_, ?_⟩
  · rw [get?_push, get?_push, h.next, h.others g hg]
  · rw [get?_push, get?_push, h.next]
    split
    · exact .some ⟨rfl, rfl⟩
    · exact h.there

end SameBut

/-- Binding the name in the frame makes a store of this kind, whether it was bound there before or
not. -/
theorem sameBut_define (s : Store) (f : FrameId) (n : String) (v : Value) :
    SameBut f n s (s.define f n v) := by
  refine ⟨fun g hg => get?_define_of_ne _ n v hg.symm, ?_⟩
  rw [get?_define_self]
  cases s.get? f with
  | none => exact .none
  | some fr => exact .some ⟨rfl, Bindings.without_insert_self fr.bindings n v⟩

/-- No procedure that is bound to another name mentions `n`. -/
def Unused (s : Store) (n : String) : Prop :=
  ∀ f, ∀ p ∈ s.bindings f, p.1 ≠ n → p.2.RunsIn fun e => ¬ e.Mentions n

namespace Unused

theorem lookup? (hs : s.Unused n) {m : String} (hm : m ≠ n) {v : Value}
    (hv : s.lookup? f m = some v) : v.RunsIn fun e => ¬ e.Mentions n := by
  obtain ⟨g, -, hg⟩ := Option.bind_eq_some_iff.1 hv
  exact hs g (m, v) (Bindings.mem_of_get? hg) hm

theorem define (hs : s.Unused n) {v : Value} (hv : v.RunsIn fun e => ¬ e.Mentions n)
    (f : FrameId) (m : String) : (s.define f m v).Unused n := by
  intro g p hp hpn
  by_cases hfg : f = g
  · subst hfg
    have hlt : f < s.next := by
      by_contra hge
      have hnone : s.get? f = none := Array.getElem?_eq_none (Nat.le_of_not_lt hge)
      simp [bindings, get?_define_self, hnone] at hp
    rw [bindings_define_self hlt] at hp
    rcases Bindings.mem_insert hp with rfl | hp
    · exact hv
    · exact hs f p hp hpn
  · rw [bindings_define_of_ne hfg] at hp
    exact hs g p hp hpn

theorem push (hs : s.Unused n) (outer : Option FrameId) : (s.push outer).Unused n := by
  intro g p hp
  rw [bindings, get?_push] at hp
  split at hp
  · rename_i fr hfr
    split at hfr
    · obtain rfl : { outer := outer } = fr := Option.some.inj hfr
      simp at hp
    · exact hs g p (by simpa [bindings, hfr] using hp)
  · simp at hp

end Unused

end Store

/-- Evaluations of code that does not mention `n`, on stores that differ in one binding of `n`. -/
def Coupling.unused (f : FrameId) (n : String) : Coupling where
  Stores s t := s.SameBut f n t ∧ s.Unused n
  Code e := ¬ e.Mentions n
  Excused _ := False
  item h hv := fun hm => h (.item hv hm)
  body h := fun hm => h (.body _ hm _)
  lookup h hm g := h.1.lookup? (by simpa using hm) g
  value h hm _ _ hv := h.2.lookup? (by simpa using hm) hv
  define h hv g m := ⟨h.1.define g m _, h.2.define hv g m⟩
  next h := h.1.next
  push h o := ⟨h.1.push (some o), h.2.push (some o)⟩

/-- Unused bindings do not interfere. Let two stores differ in the binding of `n` in one frame at
most. If neither the expression nor a procedure bound to another name mentions `n`, then evaluation
in any frame has the same outcome in both, adds the same frames, and leaves stores that differ in
that binding at most. -/
theorem eval_ignores_unused (depth : Nat) {e : Value} {n : String} (he : ¬ e.Mentions n)
    {s t : Store} (hs : s.Unused n) {f : FrameId} (hst : s.SameBut f n t) (g : FrameId) :
    ((eval depth g e).on t).1 = ((eval depth g e).on s).1 ∧
      ((eval depth g e).on t).2.next = ((eval depth g e).on s).2.next ∧
      ((eval depth g e).on s).2.SameBut f n ((eval depth g e).on t).2 := by
  have hdeep : (Coupling.unused f n).Deepens depth depth :=
    ⟨Nat.le_refl _, fun hlt => absurd hlt (Nat.lt_irrefl _)⟩
  rcases Eval.eval_inStep hdeep g e he s t ⟨hst, hs⟩ with ⟨_, -, hnever⟩ | ⟨⟨hst', -⟩, hout, -⟩
  · exact hnever.elim
  · exact ⟨hout, hst'.next, hst'⟩

/-- A value from before there were frames is no procedure. -/
theorem Value.WellFormed.runsIn {v : Value} (h : v.WellFormed 0) (Code : Value → Prop) :
    v.RunsIn Code := by
  cases h with
  | procedure _ _ hframe => exact absurd hframe (Nat.not_lt_zero _)
  | _ => trivial

namespace Session

theorem start_unused (n : String) : start.Unused n := by
  intro f p hp _
  by_cases hf : f = globalFrame
  · subst hf
    exact (initialBindings_wellFormed p hp).runsIn _
  · have hnone : start.get? f = none :=
      Array.getElem?_eq_none (Nat.one_le_iff_ne_zero.2 hf)
    simp [Store.bindings, hnone] at hp

end Session

/-- A session with the procedure `(lambda (z) (define y pi))` bound to `f`. -/
def Store.sampleFormal : Store :=
  Session.start.define 0 "f"
    (.procedure [.symbol "z"] (.list [.symbol "define", .symbol "y", .symbol "pi"]) 0)

/-- The call `(f #t)` binds `z` as a formal. It goes the same way where `z` is bound to a procedure
that calls itself. -/
theorem formal_ignores_unused :
    ¬ (Value.list [.symbol "f", .symbol "#t"]).Mentions "z" ∧ Store.sampleFormal.Unused "z" ∧
      Store.sampleFormal.SameBut 0 "z" (Store.sampleFormal.define 0 "z"
        (.procedure [] (.list [.symbol "z"]) 0)) ∧
      (((eval 9 0 (.list [.symbol "f", .symbol "#t"])).on Store.sampleFormal).2.own? 1 "z").isSome =
        true ∧
      ((eval 9 0 (.list [.symbol "f", .symbol "#t"])).on (Store.sampleFormal.define 0 "z"
        (.procedure [] (.list [.symbol "z"]) 0))).1 =
        ((eval 9 0 (.list [.symbol "f", .symbol "#t"])).on Store.sampleFormal).1 := by
  have he : ¬ (Value.list [.symbol "f", .symbol "#t"]).Mentions "z" := by simp
  have hs : Store.sampleFormal.Unused "z" :=
    (Session.start_unused "z").define (by simp [Value.RunsIn]) 0 "f"
  have hst := Store.sameBut_define Store.sampleFormal 0 "z" (.procedure [] (.list [.symbol "z"]) 0)
  exact ⟨he, hs, hst, by decide +kernel, (eval_ignores_unused 9 he hs hst 0).1⟩

end Lisplet
