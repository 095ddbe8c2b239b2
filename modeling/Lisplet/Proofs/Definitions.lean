import Mathlib.Data.List.TakeWhile
import Lisplet.Proofs.Arguments

/-! Frames as maps that keep an order. A frame is asked for single definitions and for the
definitions of a whole map, any number of times and in any order, and requests that fail are
survived. What it holds then is told by the definitions that were made: each name once, in the order
of the first definitions, with the value of the last. A map whose keys are not all symbols is
defined up to the first that is none. The initial bindings are such a map, so to define them again
changes nothing. -/

namespace Lisplet

namespace Bindings

variable {bs : Bindings} {ps : List (String × Value)} {n : String} {v : Value}

/-- The value that the last of some definitions gives a name. -/
def lastDefined (ps : List (String × Value)) (n : String) : Option Value :=
  ps.reverse.lookup n

/-- What a frame holds after the definitions `ps`. -/
structure IsMapOf (ps : List (String × Value)) (bs : Bindings) : Prop where
  nodup : bs.names.Nodup
  order : bs.names = (names ps).eraseDups
  value : ∀ n, bs.get? n = lastDefined ps n

theorem nodup_names_insert (h : bs.names.Nodup) (n : String) (v : Value) :
    (bs.insert n v).names.Nodup := by
  rw [names_insert]
  split
  · exact h
  · rename_i hn
    refine List.nodup_append.2 ⟨h, by simp, fun a ha b hb heq => hn ?_⟩
    rwa [← List.mem_singleton.1 hb, ← heq]

theorem nodup_names_insertAll (h : bs.names.Nodup) (ps : List (String × Value)) :
    (bs.insertAll ps).names.Nodup := by
  induction ps generalizing bs with
  | nil => exact h
  | cons p ps ih => exact ih (nodup_names_insert h p.1 p.2)

theorem get?_insert (bs : Bindings) (n m : String) (v : Value) :
    (bs.insert n v).get? m = if m = n then some v else bs.get? m := by
  split
  · rename_i h
    rw [h, get?_insert_self]
  · rename_i h
    exact get?_insert_of_ne bs v (Ne.symm h)

theorem lastDefined_append (ps qs : List (String × Value)) (m : String) :
    lastDefined (ps ++ qs) m = (lastDefined qs m).or (lastDefined ps m) := by
  rw [lastDefined, List.reverse_append, List.lookup_append, lastDefined, lastDefined]

theorem lastDefined_singleton (p : String × Value) (m : String) :
    lastDefined [p] m = if m = p.1 then some p.2 else none := by
  rw [lastDefined, List.reverse_singleton, List.lookup_cons]
  by_cases h : m = p.1
  · simp [h]
  · simp [beq_eq_false_iff_ne.2 h, h]

/-- The last definition of a name decides, and without one the name keeps the value that it has. -/
theorem get?_insertAll (bs : Bindings) (ps : List (String × Value)) (m : String) :
    (bs.insertAll ps).get? m = (lastDefined ps m).or (bs.get? m) := by
  induction ps generalizing bs with
  | nil => rfl
  | cons p ps ih =>
    have hfirst : bs.insertAll (p :: ps) = (bs.insert p.1 p.2).insertAll ps := rfl
    rw [hfirst, ih, get?_insert, ← List.singleton_append, lastDefined_append,
      lastDefined_singleton, Option.or_assoc]
    split <;> rfl

theorem isMapOf_nil : IsMapOf [] [] where
  nodup := List.nodup_nil
  order := rfl
  value _ := rfl

/-- Further definitions keep a map in order. -/
theorem IsMapOf.insertAll (h : IsMapOf ps bs) (qs : List (String × Value)) :
    IsMapOf (ps ++ qs) (bs.insertAll qs) where
  nodup := nodup_names_insertAll h.nodup qs
  order := by
    have hnames : names (ps ++ qs) = names ps ++ names qs := List.map_append
    -- what is new is told by membership, which the erased repetitions do not change
    have hnew : (names qs).removeAll bs.names = (names qs).removeAll (names ps) := by
      simp [h.order, List.removeAll]
    rw [names_insertAll, hnames, List.eraseDups_append, hnew, h.order]
  value n := by rw [get?_insertAll, h.value, lastDefined_append]

/-- To bind a name to the value that it has changes nothing. -/
theorem insert_of_get? (h : bs.get? n = some v) : bs.insert n v = bs := by
  induction bs with
  | nil => cases h
  | cons b bs ih =>
    obtain ⟨m, w⟩ := b
    rw [Bindings.get?] at h
    rw [insert]
    split at h
    · rename_i hm
      rw [if_pos hm, hm, Option.some.inj h]
    · rename_i hm
      rw [if_neg hm, ih h]

theorem insertAll_of_get? (h : ∀ p ∈ ps, bs.get? p.1 = some p.2) : bs.insertAll ps = bs := by
  induction ps with
  | nil => rfl
  | cons p ps ih =>
    obtain ⟨hp, hps⟩ := List.forall_mem_cons.1 h
    have hfirst : bs.insertAll (p :: ps) = (bs.insert p.1 p.2).insertAll ps := rfl
    rw [hfirst, insert_of_get? hp, ih hps]

/-- Where each name is defined once, to make the definitions again changes nothing. -/
theorem insertAll_insertAll (h : (names ps).Nodup) (bs : Bindings) :
    (bs.insertAll ps).insertAll ps = bs.insertAll ps := by
  refine insertAll_of_get? fun p hp => ?_
  obtain ⟨i, hi⟩ := List.mem_iff_getElem?.1 hp
  refine get?_insertAll_of_last hi fun j w hij hj => ?_
  obtain ⟨hilt, hi⟩ := List.getElem?_eq_some_iff.1 hi
  obtain ⟨hjlt, hj⟩ := List.getElem?_eq_some_iff.1 hj
  have hne := List.pairwise_iff_getElem.1 h i j (by simpa [names]) (by simpa [names]) hij
  simp [names, hi, hj] at hne

end Bindings

namespace Store

variable {s : Store} {f : FrameId}

theorem ext_get? {t : Store} (h : ∀ g, t.get? g = s.get? g) : t = s :=
  congrArg Store.mk (Array.ext_getElem? h)

theorem get?_defineAll (s : Store) (f : FrameId) (ps : Bindings) : (s.defineAll f ps).get? f =
    (s.get? f).map fun fr => { fr with bindings := fr.bindings.insertAll ps } := by
  rcases hfr : s.get? f with _ | fr
  · have hle : s.next ≤ f := Array.getElem?_eq_none_iff.1 hfr
    exact Array.getElem?_eq_none_iff.2 (Nat.le_trans (Nat.le_of_eq (next_defineAll s f ps)) hle)
  · exact get?_defineAll_self hfr ps

theorem bindings_defineAll (hf : f < s.next) (ps : Bindings) :
    (s.defineAll f ps).bindings f = (s.bindings f).insertAll ps := by
  obtain ⟨fr, hfr⟩ : ∃ fr, s.get? f = some fr := ⟨_, Array.getElem?_eq_getElem hf⟩
  rw [bindings, bindings, get?_defineAll, hfr]
  rfl

theorem defineAll_defineAll {ps : Bindings} (h : ps.names.Nodup) (s : Store) (f : FrameId) :
    (s.defineAll f ps).defineAll f ps = s.defineAll f ps := by
  refine ext_get? fun g => ?_
  by_cases hg : f = g
  · subst hg
    rw [get?_defineAll, get?_defineAll, Option.map_map]
    congr 1
    funext fr
    simp [Bindings.insertAll_insertAll h]
  · rw [get?_defineAll_of_ne _ _ hg]

theorem defineAll_append (s : Store) (f : FrameId) (ps qs : Bindings) :
    s.defineAll f (ps ++ qs) = (s.defineAll f ps).defineAll f qs :=
  List.foldl_append

end Store

namespace Environment

/-- What a frame can be asked for: one definition, or those of a map in its order. -/
inductive Request where
  | define (name v : Value)
  | update (pairs : List (Value × Value))

/-- Carries out a request. A definition gives the value that the name had in the frame before. -/
def Request.run (depth : Nat) (f : FrameId) : Request → Eval (Option Value)
  | .define name v => Eval.bindSymbol depth f name v
  | .update pairs => do
    bindAll depth f pairs
    return none

/-- The store after requests to one frame, whether they fail or not. -/
def after (depth : Nat) (f : FrameId) (s : Store) (requests : List Request) : Store :=
  requests.foldl (fun s r => ((r.run depth f).on s).2) s

/-- Whether a pair of a map can be defined: its key is a symbol. -/
def isDefinable (pair : Value × Value) : Bool :=
  pair.1.isSymbol

/-- The definitions that pairs stand for. Pairs that cannot be defined are left out. -/
def definitions (pairs : List (Value × Value)) : List (String × Value) :=
  pairs.filterMap fun p => p.1.name?.map (·, p.2)

/-- The definitions that a request makes: those of its pairs up to the first that cannot be
defined. -/
def Request.makes : Request → List (String × Value)
  | .define name v => definitions [(name, v)]
  | .update pairs => definitions (pairs.takeWhile isDefinable)

/-- The fault of a value that is to be bound and is no symbol. It shows the value, unless that is
nested deeper than the bound. -/
def refusal (depth : Nat) (name : Value) : Fault :=
  if name.depth ≤ depth then .misuse (.bindTarget name.inspect) else .undisplayable .tooDeep

variable {depth : Nat} {f : FrameId}

theorem map_definitions {pairs : List (Value × Value)} (h : ∀ p ∈ pairs, isDefinable p = true) :
    (definitions pairs).map (Prod.map .symbol id) = pairs := by
  induction pairs with
  | nil => rfl
  | cons p pairs ih =>
    obtain ⟨hp, hpairs⟩ := List.forall_mem_cons.1 h
    obtain ⟨name, v⟩ := p
    cases name with
    | symbol n => exact congrArg (_ :: ·) (ih hpairs)
    | _ => cases hp

theorem on_bindSymbol_of_not_isSymbol {name : Value} (h : name.isSymbol = false) (v : Value)
    (s : Store) : (Eval.bindSymbol depth f name v).on s = (.error (refusal depth name), s) := by
  have hrefused : (do throw (.misuse (.bindTarget (← Eval.inspected depth name))) :
      Eval (Option Value)).on s = (.error (refusal depth name), s) := by
    rw [Eval.on_bind, Eval.inspected, refusal]
    by_cases hdepth : name.depth ≤ depth
    · rw [if_pos hdepth, if_pos hdepth]
      rfl
    · rw [if_neg hdepth, if_neg hdepth]
      rfl
  cases name with
  | symbol n => cases h
  | _ => exact hrefused

/-- The symbols at the front of a map are bound in order. -/
theorem on_bindAll_append {pairs : List (Value × Value)} (h : ∀ p ∈ pairs, isDefinable p = true)
    (rest : List (Value × Value)) (s : Store) :
    (bindAll depth f (pairs ++ rest)).on s =
      (bindAll depth f rest).on (s.defineAll f (definitions pairs)) := by
  unfold bindAll
  rw [← Eval.on_forM_bindSymbol, map_definitions h]

/-- The first key that is no symbol ends an update. -/
theorem on_bindAll_cons {name : Value} (h : name.isSymbol = false) (v : Value)
    (rest : List (Value × Value)) (s : Store) :
    (bindAll depth f ((name, v) :: rest)).on s = (.error (refusal depth name), s) := by
  have hcons : bindAll depth f ((name, v) :: rest) =
      ((Eval.bindSymbol depth f name v >>= fun _ => pure ()) >>= fun _ => bindAll depth f rest) :=
    rfl
  rw [hcons, Eval.on_bind, Eval.on_bind, on_bindSymbol_of_not_isSymbol h]

theorem on_bindAll_snd (pairs : List (Value × Value)) (s : Store) :
    ((bindAll depth f pairs).on s).2 =
      s.defineAll f (definitions (pairs.takeWhile isDefinable)) := by
  have hfront : ∀ p ∈ pairs.takeWhile isDefinable, isDefinable p = true :=
    fun p hp => List.mem_takeWhile_imp hp
  have hhead := List.head?_dropWhile_not isDefinable pairs
  conv_lhs => rw [← List.takeWhile_append_dropWhile (p := isDefinable) (l := pairs),
    on_bindAll_append hfront]
  rcases hrest : pairs.dropWhile isDefinable with _ | ⟨p, rest⟩
  · rfl
  · rw [hrest] at hhead
    rw [on_bindAll_cons hhead]

/-- A request leaves the store with the definitions that it makes, whether it fails or not. -/
theorem on_run_snd (depth : Nat) (r : Request) (s : Store) :
    ((r.run depth f).on s).2 = s.defineAll f r.makes := by
  cases r with
  | define name v =>
    cases name with
    | symbol n => rfl
    | _ => rw [Request.run, on_bindSymbol_of_not_isSymbol rfl]; rfl
  | update pairs =>
    rw [Request.run, Eval.on_bind, Request.makes, ← on_bindAll_snd]
    rcases (bindAll depth f pairs).on s with ⟨_ | _, _⟩ <;> rfl

/-- All that requests do to a store are the definitions that they make, one after another. -/
theorem after_eq_defineAll (requests : List Request) (s : Store) :
    after depth f s requests = s.defineAll f (requests.flatMap Request.makes) := by
  induction requests generalizing s with
  | nil => rfl
  | cons r requests ih =>
    rw [List.flatMap_cons, Store.defineAll_append, ← on_run_snd depth, ← ih]
    rfl

/-- A frame that is a map in order stays one, with the definitions that requests make. -/
theorem isMapOf_after {s : Store} (hf : f < s.next) {ps : List (String × Value)}
    (h : Bindings.IsMapOf ps (s.bindings f)) (depth : Nat) (requests : List Request) :
    Bindings.IsMapOf (ps ++ requests.flatMap Request.makes)
      ((after depth f s requests).bindings f) := by
  rw [after_eq_defineAll, Store.bindings_defineAll hf]
  exact h.insertAll _

/-- An update is carried out up to the first pair that cannot be defined: the pairs before it are
all defined, in order, and nothing else is done. -/
theorem on_bindAll_of_getElem? {pairs : List (Value × Value)} {i : Nat} {key v : Value}
    (hi : pairs[i]? = some (key, v)) (hkey : key.isSymbol = false)
    (hfront : ∀ p ∈ pairs.take i, isDefinable p = true) (s : Store) :
    (bindAll depth f pairs).on s =
      (.error (refusal depth key), s.defineAll f (definitions (pairs.take i))) := by
  obtain ⟨hlt, hget⟩ := List.getElem?_eq_some_iff.1 hi
  have hsplit : pairs = pairs.take i ++ (key, v) :: pairs.drop (i + 1) := by
    rw [← hget, List.getElem_cons_drop, List.take_append_drop]
  conv_lhs => rw [hsplit]
  rw [on_bindAll_append hfront, on_bindAll_cons hkey]

/-- The names that every session starts with are distinct. -/
theorem initialBindings_nodup : initialBindings.names.Nodup := by decide

/-- What the initial bindings do to the frame `f`: they are an update of it that always succeeds.
No other frame changes, and in the frame itself no name changes that is not one of theirs; the names
that were there keep their places, and only theirs are added. -/
structure Registers (depth : Nat) (s : Store) (f : FrameId) : Prop where
  update : (bindAll depth f (initialBindings.map (Prod.map .symbol id))).on s =
    (.ok (), s.register f)
  again : (s.register f).register f = s.register f
  others : ∀ g, g ≠ f → (s.register f).get? g = s.get? g
  values : ∀ n, n ∉ initialBindings.names → (s.register f).own? f n = s.own? f n
  places : (s.bindings f).names <+: ((s.register f).bindings f).names
  added : ∀ n ∈ ((s.register f).bindings f).names, n ∈ (s.bindings f).names ∨
    n ∈ initialBindings.names

theorem registers (depth : Nat) {s : Store} {f : FrameId} (hf : f < s.next) :
    Registers depth s f where
  update := by
    unfold bindAll
    rw [← List.append_nil (List.map _ _), Eval.on_forM_bindSymbol]
    rfl
  again := Store.defineAll_defineAll initialBindings_nodup s f
  others g hg := Store.get?_defineAll_of_ne s initialBindings hg.symm
  values n hn := by
    rw [Store.own?, Store.register, Store.bindings_defineAll hf,
      Bindings.get?_insertAll_of_notMem hn, ← Store.own?]
  places := by
    rw [Store.register, Store.bindings_defineAll hf, Bindings.names_insertAll]
    exact List.prefix_append _ _
  added n hn := by
    rw [Store.register, Store.bindings_defineAll hf, Bindings.names_insertAll, List.mem_append,
      List.mem_eraseDups] at hn
    exact hn.imp_right fun h => (List.mem_filter.1 h).1

/-- Frame `f` of `s` is a map that keeps the order of the definitions `ps`, and answers further
requests by it. A definition gives the value that the name was last defined with, or nothing, and
what is no symbol is refused without effect. An update with a key that is no symbol makes just the
definitions before the first such key and is then refused; with symbols only it makes all of
them. -/
structure KeepsOrder (depth : Nat) (s : Store) (f : FrameId) (ps : List (String × Value)) :
    Prop where
  holds : Bindings.IsMapOf ps (s.bindings f)
  define : ∀ n v, (Eval.bindSymbol depth f (.symbol n) v).on s =
    (.ok (Bindings.lastDefined ps n), s.define f n v)
  refuse : ∀ key v, key.isSymbol = false →
    (Eval.bindSymbol depth f key v).on s = (.error (refusal depth key), s)
  updatePart : ∀ pairs i key v, pairs[i]? = some (key, v) → key.isSymbol = false →
    (∀ p ∈ pairs.take i, isDefinable p = true) →
    (definitions (pairs.take i)).map (Prod.map .symbol id) = pairs.take i ∧
      (bindAll depth f pairs).on s =
        (.error (refusal depth key), s.defineAll f (definitions (pairs.take i)))
  updateAll : ∀ pairs, (∀ p ∈ pairs, isDefinable p = true) →
    (definitions pairs).map (Prod.map .symbol id) = pairs ∧
      (bindAll depth f pairs).on s = (.ok (), s.defineAll f (definitions pairs))

theorem keepsOrder_of_isMapOf {s : Store} {ps : List (String × Value)}
    (h : Bindings.IsMapOf ps (s.bindings f)) : KeepsOrder depth s f ps where
  holds := h
  define n v := by rw [Eval.on_bindSymbol, Store.own?, h.value]
  refuse key v hkey := on_bindSymbol_of_not_isSymbol hkey v s
  updatePart pairs i key v hi hkey hfront :=
    ⟨map_definitions hfront, on_bindAll_of_getElem? hi hkey hfront s⟩
  updateAll pairs hpairs := by
    refine ⟨map_definitions hpairs, ?_⟩
    conv_lhs => rw [← List.append_nil pairs, on_bindAll_append hpairs]
    rfl

/-- Frames are maps that keep an order. After any requests to a new frame, whether they were refused
or not, its names are distinct and stand in the order in which they were first defined with success,
each has the value that it was last defined with, and further requests are answered by that. Any
frame that is such a map stays one under further requests. In every frame the initial bindings can
be defined again without effect, and change no other name. -/
theorem frame_lists_definitions_in_order (depth : Nat) (s : Store) (requests : List Request) :
    (∀ outer, KeepsOrder depth (after depth s.next (s.push outer) requests) s.next
      (requests.flatMap Request.makes)) ∧
    ∀ f < s.next, (∀ ps, Bindings.IsMapOf ps (s.bindings f) →
      KeepsOrder depth (after depth f s requests) f (ps ++ requests.flatMap Request.makes)) ∧
      Registers depth s f := by
  refine ⟨fun outer => ?_, fun f hf => ⟨fun ps hps => ?_, registers depth hf⟩⟩
  · have hlt : s.next < (s.push outer).next := by simp
    have hempty : Bindings.IsMapOf [] ((s.push outer).bindings s.next) := by
      rw [Store.bindings_push_next]
      exact Bindings.isMapOf_nil
    exact keepsOrder_of_isMapOf (isMapOf_after hlt hempty depth requests)
  · exact keepsOrder_of_isMapOf (isMapOf_after hf hps depth requests)

/-- A map with a number among its keys. -/
def samplePairs : List (Value × Value) :=
  [(.symbol "b", .yes), (.number 7, .no), (.symbol "c", .no)]

/-- A name is defined before and after an update that is refused half way. -/
def sampleRequests : List Request :=
  [.define (.symbol "a") .yes, .update samplePairs, .define (.symbol "a") .no]

open Session

theorem start_isMapOf : Bindings.IsMapOf initialBindings (start.bindings globalFrame) := by
  have hlt : globalFrame < (Store.push {} none).next := by decide
  rw [start, Store.register, Store.bindings_defineAll hlt]
  exact Bindings.isMapOf_nil.insertAll initialBindings

/-- The first name keeps its place when it is defined again, the key before the number is defined
and the one behind it is not, also when the update is tried once more. In the global frame the new
names stand behind the initial ones. -/
theorem refused_update_keeps_order :
    ∃ t, after 9 start.next (start.push (some globalFrame)) sampleRequests = t ∧
      (t.bindings start.next).names = ["a", "b"] ∧
      (t.bindings start.next).get? "a" = some .no ∧
      (t.bindings start.next).get? "c" = none ∧
      (Eval.bindSymbol 9 start.next (.symbol "b") .no).on t =
        (.ok (some .yes), t.define start.next "b" .no) ∧
      samplePairs[1]? = some (.number 7, .no) ∧ (Value.number 7).isSymbol = false ∧
      (∀ p ∈ samplePairs.take 1, isDefinable p = true) ∧
      (bindAll 9 start.next samplePairs).on t =
        (.error (.misuse (.bindTarget (Value.number 7).inspect)), t.define start.next "b" .yes) ∧
      globalFrame < start.next ∧
      Bindings.IsMapOf initialBindings (start.bindings globalFrame) ∧
      ((after 9 globalFrame start sampleRequests).bindings globalFrame).names =
        initialBindings.names ++ ["a", "b"] ∧
      Registers 9 start globalFrame := by
  obtain ⟨hnew, hold⟩ := frame_lists_definitions_in_order 9 start sampleRequests
  obtain ⟨hglobal, hregisters⟩ := hold globalFrame start_sound.globalFrame_lt
  have horder := hnew (some globalFrame)
  have hfront : ∀ p ∈ samplePairs.take 1, isDefinable p = true := by
    simp [samplePairs, isDefinable, Value.isSymbol]
  exact ⟨_, rfl, horder.holds.order, horder.holds.value "a", horder.holds.value "c",
    horder.define "b" .no, rfl, rfl, hfront, (horder.updatePart samplePairs 1 _ _ rfl rfl hfront).2,
    start_sound.globalFrame_lt, start_isMapOf, (hglobal _ start_isMapOf).holds.order, hregisters⟩

end Environment

end Lisplet
