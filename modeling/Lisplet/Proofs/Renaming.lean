import Mathlib.Data.List.Forall2
import Mathlib.Logic.Relator
import Lisplet.Proofs.Chains

/-! Renaming of frames. The number of a frame is only a name for it: values, faults and bindings of
two stores are equal up to a matching of frames if they differ in the frames of procedures alone,
and there by matched ones. Nothing that is written of a value shows its frames. Stores are matched
if matched frames have matched frames around them and equal bindings up to the matching; binding
equal values in matched frames, and adding frames inside matched ones, keeps them so. Stores that
have all frames in common that one frame reaches are matched in these, whatever else they hold. -/

namespace Lisplet

/-- Which frames of one store stand for which frames of another. -/
abbrev Matching := FrameId → FrameId → Prop

/-- Values that are equal but for the frames of the procedures in them, which are matched. -/
inductive Value.Renamed (R : Matching) : Value → Value → Prop where
  | symbol (n : String) : Renamed R (.symbol n) (.symbol n)
  | number (x : Float) : Renamed R (.number x) (.number x)
  | builtin (b : Builtin) : Renamed R (.builtin b) (.builtin b)
  | foreign (x : Foreign) : Renamed R (.foreign x) (.foreign x)
  | list {vs ws : List Value} (h : List.Forall₂ (Renamed R) vs ws) : Renamed R (.list vs) (.list ws)
  | procedure {formals formals' : List Value} {body body' : Value} {f g : FrameId}
      (hformals : List.Forall₂ (Renamed R) formals formals') (hbody : Renamed R body body')
      (hframe : R f g) : Renamed R (.procedure formals body f) (.procedure formals' body' g)

/-- Values of which the same is written, in every way and under every bound. -/
structure Value.LooksLike (v w : Value) : Prop where
  depth : v.depth = w.depth
  ownText : v.ownText? = w.ownText?
  inspect : v.inspect = w.inspect
  text : v.text = w.text
  obstacle : ∀ d, v.obstacle? d = w.obstacle? d

namespace Value

variable {R R' : Matching} {v w : Value} {vs ws : List Value}

theorem depths_looksLike (h : List.Forall₂ LooksLike vs ws) : depths vs = depths ws := by
  induction h with
  | nil => rfl
  | cons hd _ ih => simp [depths, hd.depth, ih]

theorem inspectAll_looksLike (h : List.Forall₂ LooksLike vs ws) :
    inspectAll vs = inspectAll ws := by
  induction h with
  | nil => rfl
  | cons hd _ ih => simp [inspectAll, hd.inspect, ih]

theorem labels_looksLike (h : List.Forall₂ LooksLike vs ws) : labels vs = labels ws := by
  induction h with
  | nil => rfl
  | cons hd _ ih => simp [labels, hd.ownText, hd.inspect, ih]

theorem texts_looksLike (h : List.Forall₂ LooksLike vs ws) : texts vs = texts ws := by
  induction h with
  | nil => rfl
  | cons hd _ ih => simp [texts, hd.text, ih]

theorem findSome?_looksLike (h : List.Forall₂ LooksLike vs ws) (d : Nat) :
    vs.findSome? (obstacle? d) = ws.findSome? (obstacle? d) := by
  induction h with
  | nil => rfl
  | cons hd _ ih => simp [List.findSome?_cons, hd.obstacle d, ih]

theorem LooksLike.refl (v : Value) : v.LooksLike v :=
  ⟨rfl, rfl, rfl, rfl, fun _ => rfl⟩

theorem LooksLike.list (h : List.Forall₂ LooksLike vs ws) :
    (Value.list vs).LooksLike (.list ws) := by
  refine ⟨by simp [Value.depth, depths_looksLike h], rfl,
    by simp [Value.inspect, inspectAll_looksLike h], by simp [Value.text, texts_looksLike h],
    fun d => ?_⟩
  cases d with
  | zero => rfl
  | succ d => simp [obstacle?, findSome?_looksLike h]

theorem LooksLike.procedure (h : List.Forall₂ LooksLike vs ws) (body body' : Value)
    (f g : FrameId) : (Value.procedure vs body f).LooksLike (.procedure ws body' g) := by
  have hinspect : (Value.procedure vs body f).inspect = (Value.procedure ws body' g).inspect := by
    simp [Value.inspect, labels_looksLike h]
  refine ⟨by simp [Value.depth, depths_looksLike h], rfl, hinspect,
    by rw [Value.text, Value.text, hinspect], fun d => ?_⟩
  cases d with
  | zero => rfl
  | succ d => simp [obstacle?, depths_looksLike h]

theorem LooksLike.display (h : v.LooksLike w) (bound : Nat) :
    v.display bound = w.display bound := by
  rw [Value.display, Value.display, h.obstacle, h.text]

mutual

/-- The frames of procedures are never written. -/
theorem Renamed.looksLike {R : Matching} {v w : Value} (h : v.Renamed R w) : v.LooksLike w := by
  match h with
  | .symbol _ | .number _ | .builtin _ | .foreign _ => exact .refl _
  | .list hs => exact .list (looksLike_of_renamed hs)
  | .procedure hformals _ _ => exact .procedure (looksLike_of_renamed hformals) _ _ _ _

theorem looksLike_of_renamed {R : Matching} {vs ws : List Value}
    (h : List.Forall₂ (Renamed R) vs ws) :
    List.Forall₂ LooksLike vs ws := by
  match h with
  | .nil => exact .nil
  | .cons hd hs => exact .cons hd.looksLike (looksLike_of_renamed hs)

end

mutual

theorem Renamed.mono {R R' : Matching} {v w : Value} (h : v.Renamed R w)
    (hR : ∀ f g, R f g → R' f g) : v.Renamed R' w := by
  match h with
  | .symbol n => exact .symbol n
  | .number x => exact .number x
  | .builtin b => exact .builtin b
  | .foreign x => exact .foreign x
  | .list hs => exact .list (forall₂_renamed_mono hs hR)
  | .procedure hformals hbody hframe =>
    exact .procedure (forall₂_renamed_mono hformals hR) (hbody.mono hR) (hR _ _ hframe)

theorem forall₂_renamed_mono {R R' : Matching} {vs ws : List Value}
    (h : List.Forall₂ (Renamed R) vs ws) (hR : ∀ f g, R f g → R' f g) :
    List.Forall₂ (Renamed R') vs ws := by
  match h with
  | .nil => exact .nil
  | .cons hd hs => exact .cons (hd.mono hR) (forall₂_renamed_mono hs hR)

end

mutual

/-- A value is renamed to itself if every frame that it captures is matched with itself. -/
theorem renamed_self {R : Matching} (v : Value) (h : ∀ g, v.Captures g → R g g) :
    v.Renamed R v := by
  match v with
  | .symbol n => exact .symbol n
  | .number x => exact .number x
  | .builtin b => exact .builtin b
  | .foreign x => exact .foreign x
  | .list items => exact .list (forall₂_renamed_self items fun u hu g hg => h g (.item hu hg))
  | .procedure formals body f =>
    exact .procedure (forall₂_renamed_self formals fun u hu g hg => h g (.formal hu hg body f))
      (renamed_self body fun g hg => h g (.body hg formals f)) (h f (.procedure formals body f))

theorem forall₂_renamed_self {R : Matching} (vs : List Value)
    (h : ∀ v ∈ vs, ∀ g, v.Captures g → R g g) : List.Forall₂ (Renamed R) vs vs := by
  match vs with
  | [] => exact .nil
  | v :: vs =>
    exact .cons (renamed_self v (h v (by simp)))
      (forall₂_renamed_self vs fun u hu => h u (by simp [hu]))

end

theorem Renamed.isTrue_eq (h : v.Renamed R w) : v.isTrue = w.isTrue := by
  cases h <;> rfl

theorem Renamed.isSymbol_eq (h : v.Renamed R w) : v.isSymbol = w.isSymbol := by
  cases h <;> rfl

theorem all_isSymbol_eq (h : List.Forall₂ (Renamed R) vs ws) :
    vs.all isSymbol = ws.all isSymbol := by
  induction h with
  | nil => rfl
  | cons hd _ ih => simp [hd.isSymbol_eq, ih]

end Value

/-- Faults of the same kind with the same words, and with equal values up to a matching. -/
inductive Fault.Renamed (R : Matching) : Fault → Fault → Prop where
  | same (fault : Fault) : Renamed R fault fault
  | invalidHead {v w : Value} (h : v.Renamed R w) (shown : String) :
      Renamed R (.invalidHead v shown) (.invalidHead w shown)
  | notCallable {v w : Value} (h : v.Renamed R w) (shown : String) :
      Renamed R (.notCallable v shown) (.notCallable w shown)

theorem Fault.Renamed.message_eq {R : Matching} {a b : Fault} (h : a.Renamed R b) :
    a.message = b.message := by
  cases h <;> rfl

theorem Fault.Renamed.mono {R R' : Matching} {a b : Fault} (h : a.Renamed R b)
    (hR : ∀ f g, R f g → R' f g) : a.Renamed R' b := by
  cases h with
  | same => exact .same _
  | invalidHead h shown => exact .invalidHead (h.mono hR) shown
  | notCallable h shown => exact .notCallable (h.mono hR) shown

/-- Bindings of the same names, in the same order, to equal values up to a matching. -/
def Bindings.Renamed (R : Matching) (bs cs : Bindings) : Prop :=
  List.Forall₂ (fun p q => p.1 = q.1 ∧ p.2.Renamed R q.2) bs cs

namespace Bindings.Renamed

variable {R R' : Matching} {bs cs : Bindings}

theorem mono (h : bs.Renamed R cs) (hR : ∀ f g, R f g → R' f g) : bs.Renamed R' cs :=
  List.Forall₂.imp (fun _ _ hp => ⟨hp.1, hp.2.mono hR⟩) h

theorem get? (h : bs.Renamed R cs) (n : String) :
    Option.Rel (Value.Renamed R) (bs.get? n) (cs.get? n) := by
  induction h with
  | nil => exact .none
  | @cons p q bs cs hpq _ ih =>
    obtain ⟨hname, hvalue⟩ := hpq
    by_cases hn : q.1 = n
    · simpa [Bindings.get?, hname, hn] using Option.Rel.some hvalue
    · simpa [Bindings.get?, hname, hn] using ih

theorem insert (h : bs.Renamed R cs) (n : String) {v w : Value} (hv : v.Renamed R w) :
    (bs.insert n v).Renamed R (cs.insert n w) := by
  induction h with
  | nil => exact .cons ⟨rfl, hv⟩ .nil
  | @cons p q bs cs hpq htail ih =>
    by_cases hn : q.1 = n
    · simpa [Bindings.insert, hpq.1, hn] using .cons ⟨rfl, hv⟩ htail
    · simpa [Bindings.insert, hpq.1, hn] using .cons ⟨rfl, hpq.2⟩ ih

end Bindings.Renamed

namespace Store

variable {s t : Store} {R : Matching}

@[simp] theorem outer?_define (s : Store) (f g : FrameId) (n : String) (v : Value) :
    (s.define f n v).outer? g = s.outer? g := by
  unfold outer?
  by_cases hfg : f = g
  · subst hfg
    rw [get?_define_self]
    rcases s.get? f with _ | ⟨_ | o, bindings⟩ <;> rfl
  · rw [get?_define_of_ne _ n v hfg]

theorem bindings_define_self {f : FrameId} (hf : f < s.next) (n : String) (v : Value) :
    (s.define f n v).bindings f = (s.bindings f).insert n v := by
  have hfr : s.get? f = some s.frames[f] := Array.getElem?_eq_getElem hf
  simp [bindings, get?_define_self, hfr]

theorem bindings_define_of_ne {f g : FrameId} (hfg : f ≠ g) (n : String) (v : Value) :
    (s.define f n v).bindings g = s.bindings g := by
  rw [bindings, bindings, get?_define_of_ne _ n v hfg]

theorem outer?_push_of_lt (outer : Option FrameId) {f : FrameId} (hf : f < s.next) :
    (s.push outer).outer? f = s.outer? f := by
  rw [outer?, outer?, get?_push_of_lt _ _ hf]

theorem bindings_push_of_lt (outer : Option FrameId) {f : FrameId} (hf : f < s.next) :
    (s.push outer).bindings f = s.bindings f := by
  rw [bindings, bindings, get?_push_of_lt _ _ hf]

theorem outer?_push_next {o : FrameId} (ho : o < s.next) :
    (s.push (some o)).outer? s.next = some ⟨o, ho⟩ := by
  simp [outer?, ho]

@[simp] theorem bindings_push_next (s : Store) (outer : Option FrameId) :
    (s.push outer).bindings s.next = [] := by
  simp [bindings]

/-- Stores with frames that are matched one to one. Matched frames exist, stand inside matched
frames or are both outermost, and bind the same names in the same order to equal values up to the
matching. So the matched frames of either store are closed: what they refer to is matched too. -/
structure Matched (R : Matching) (s t : Store) : Prop where
  unique : Relator.BiUnique R
  existing : ∀ {f g}, R f g → f < s.next ∧ g < t.next
  outer : ∀ {f g}, R f g → Option.Rel (fun o p => R o.1 p.1) (s.outer? f) (t.outer? g)
  bindings : ∀ {f g}, R f g → (s.bindings f).Renamed R (t.bindings g)

namespace Matched

theorem own? (h : Matched R s t) {f g : FrameId} (hfg : R f g) (n : String) :
    Option.Rel (Value.Renamed R) (s.own? f n) (t.own? g n) :=
  (h.bindings hfg).get? n

/-- A name is found in matched frames, or in none. -/
theorem find? (h : Matched R s t) {f g : FrameId} (hfg : R f g) (n : String) :
    Option.Rel R (s.find? f n) (t.find? g n) := by
  -- links go to earlier frames in both stores, but the walks are led by the one in `s`
  induction f using Nat.strongRecOn generalizing g with
  | ind f ih =>
    have hown : (s.own? f n).isSome = (t.own? g n).isSome := by
      have hrel := h.own? hfg n
      generalize s.own? f n = v at hrel
      generalize t.own? g n = w at hrel
      cases hrel <;> rfl
    rw [Store.find?, Store.find?, hown]
    split
    · exact .some hfg
    · have houter := h.outer hfg
      generalize s.outer? f = o at houter
      generalize t.outer? g = p at houter
      cases houter with
      | none => exact .none
      | @some o p hop => exact ih o.1 o.2 hop

theorem lookup? (h : Matched R s t) {f g : FrameId} (hfg : R f g) (n : String) :
    Option.Rel (Value.Renamed R) (s.lookup? f n) (t.lookup? g n) := by
  have hfind := h.find? hfg n
  unfold Store.lookup?
  generalize s.find? f n = f' at hfind
  generalize t.find? g n = g' at hfind
  cases hfind with
  | none => exact .none
  | some hfg' => exact h.own? hfg' n

/-- Equal values can be bound in matched frames. -/
theorem define (h : Matched R s t) {f g : FrameId} (hfg : R f g) (n : String) {v w : Value}
    (hv : v.Renamed R w) : Matched R (s.define f n v) (t.define g n w) := by
  refine ⟨h.unique, ?_, ?_, ?_⟩
  · intro f' g' hfg'
    simpa using h.existing hfg'
  · intro f' g' hfg'
    simpa using h.outer hfg'
  · intro f' g' hfg'
    -- the matching is one to one, so either both frames are the changed ones or neither is
    by_cases hf : f = f'
    · subst hf
      obtain rfl : g = g' := h.unique.2 hfg hfg'
      rw [bindings_define_self (h.existing hfg).1, bindings_define_self (h.existing hfg).2]
      exact (h.bindings hfg).insert n hv
    · have hg : g ≠ g' := by
        intro hgg'
        subst hgg'
        exact hf (h.unique.1 hfg hfg')
      rw [bindings_define_of_ne hf, bindings_define_of_ne hg]
      exact h.bindings hfg'

theorem defineAll (h : Matched R s t) {f g : FrameId} (hfg : R f g) {bs cs : Bindings}
    (hbs : bs.Renamed R cs) : Matched R (s.defineAll f bs) (t.defineAll g cs) := by
  induction hbs generalizing s t with
  | nil => exact h
  | @cons p q bs cs hpq _ ih =>
    obtain ⟨n, v⟩ := p
    obtain ⟨m, w⟩ := q
    obtain ⟨rfl, hvw⟩ := hpq
    exact ih (h.define hfg n hvw)

end Matched

/-- New outermost frames are matched, whatever else there is in the two stores. -/
theorem matched_outermost (s t : Store) :
    Matched (fun f g => f = s.next ∧ g = t.next) (s.push none) (t.push none) := by
  refine ⟨⟨?_, ?_⟩, ?_, ?_, ?_⟩
  · intro f f' g hfg hfg'
    exact hfg.1.trans hfg'.1.symm
  · intro f g g' hfg hfg'
    exact hfg.2.trans hfg'.2.symm
  · intro f g hfg
    obtain ⟨rfl, rfl⟩ := hfg
    simp
  · intro f g hfg
    obtain ⟨rfl, rfl⟩ := hfg
    simp [outer?]
  · intro f g hfg
    obtain ⟨rfl, rfl⟩ := hfg
    simp [Bindings.Renamed]

/-- The matching `R`, and the next new frames of two stores matched with each other. -/
def extended (R : Matching) (s t : Store) : Matching :=
  fun f g => R f g ∨ f = s.next ∧ g = t.next

/-- Frames can be added inside matched frames. -/
theorem Matched.push (h : Matched R s t) {o p : FrameId} (hop : R o p) :
    Matched (extended R s t) (s.push (some o)) (t.push (some p)) := by
  have hlt : ∀ {f g}, R f g → f < s.next ∧ g < t.next := h.existing
  refine ⟨⟨?_, ?_⟩, ?_, ?_, ?_⟩
  · intro f f' g hfg hfg'
    rcases hfg with hfg | ⟨hf, hg⟩ <;> rcases hfg' with hfg' | ⟨hf', hg'⟩
    · exact h.unique.1 hfg hfg'
    · exact absurd hg' (Nat.ne_of_lt (hlt hfg).2)
    · exact absurd hg (Nat.ne_of_lt (hlt hfg').2)
    · exact hf.trans hf'.symm
  · intro f g g' hfg hfg'
    rcases hfg with hfg | ⟨hf, hg⟩ <;> rcases hfg' with hfg' | ⟨hf', hg'⟩
    · exact h.unique.2 hfg hfg'
    · exact absurd hf' (Nat.ne_of_lt (hlt hfg).1)
    · exact absurd hf (Nat.ne_of_lt (hlt hfg').1)
    · exact hg.trans hg'.symm
  · intro f g hfg
    rcases hfg with hfg | ⟨rfl, rfl⟩
    · exact ⟨lt_next_push _ (hlt hfg).1, lt_next_push _ (hlt hfg).2⟩
    · simp
  · intro f g hfg
    rcases hfg with hfg | ⟨rfl, rfl⟩
    · rw [outer?_push_of_lt _ (hlt hfg).1, outer?_push_of_lt _ (hlt hfg).2]
      have houter := h.outer hfg
      generalize s.outer? f = o' at houter
      generalize t.outer? g = p' at houter
      cases houter with
      | none => exact .none
      | some hop' => exact .some (.inl hop')
    · rw [outer?_push_next (hlt hop).1, outer?_push_next (hlt hop).2]
      exact .some (.inl hop)
  · intro f g hfg
    rcases hfg with hfg | ⟨rfl, rfl⟩
    · rw [bindings_push_of_lt _ (hlt hfg).1, bindings_push_of_lt _ (hlt hfg).2]
      exact (h.bindings hfg).mono fun _ _ => .inl
    · simp [Bindings.Renamed]

/-- Frame `f` refers to frame `g`: as the frame around it, or as a frame that a procedure bound in
it captures. -/
def Refers (s : Store) (f g : FrameId) : Prop :=
  s.Links f g ∨ ∃ p ∈ s.bindings f, p.2.Captures g

/-- Frame `g` can be reached from frame `f`. -/
abbrev Reaches (s : Store) : FrameId → FrameId → Prop :=
  Relation.ReflTransGen s.Refers

theorem links_of_outer? {f : FrameId} {o : { o : FrameId // o < f }} (h : s.outer? f = some o) :
    s.Links f o.1 := by
  unfold outer? at h
  split at h
  · rename_i o' bs hfr
    split at h
    · simp only [Option.some.injEq] at h
      subst h
      exact ⟨_, hfr, rfl⟩
    · simp at h
  · simp at h

/-- Stores that have the frames in common that can be reached from `f` are matched in these. -/
theorem matched_of_reaches {f : FrameId}
    (h : ∀ g, s.Reaches f g → ∃ fr, s.get? g = some fr ∧ t.get? g = some fr) :
    Matched (fun g g' => g = g' ∧ s.Reaches f g) s t := by
  refine ⟨⟨?_, ?_⟩, ?_, ?_, ?_⟩
  · intro g g' k hg hg'
    exact hg.1.trans hg'.1.symm
  · intro g k k' hg hg'
    exact hg.1.symm.trans hg'.1
  · intro g g' hgg'
    obtain ⟨rfl, hg⟩ := hgg'
    obtain ⟨fr, hs, ht⟩ := h g hg
    exact ⟨lt_next_of_get? hs, lt_next_of_get? ht⟩
  · intro g g' hgg'
    obtain ⟨rfl, hg⟩ := hgg'
    obtain ⟨fr, hs, ht⟩ := h g hg
    have hsame : t.outer? g = s.outer? g := by rw [outer?, outer?, hs, ht]
    rw [hsame]
    cases houter : s.outer? g with
    | none => exact .none
    | some o => exact .some ⟨rfl, hg.tail (.inl (links_of_outer? houter))⟩
  · intro g g' hgg'
    obtain ⟨rfl, hg⟩ := hgg'
    obtain ⟨fr, hs, ht⟩ := h g hg
    have hsame : t.bindings g = s.bindings g := by rw [bindings, bindings, hs, ht]
    rw [hsame]
    refine List.forall₂_same.2 fun p hp => ⟨rfl, Value.renamed_self p.2 fun k hk => ?_⟩
    exact ⟨rfl, hg.tail (.inr ⟨p, hp, hk⟩)⟩

end Store

end Lisplet
