import Lisplet.Environment
import Lisplet.Proofs.Unused

/-! Names and the chains they are looked for in. The walks outwards all go along one list, the chain
of a frame: the nearest frame that binds a name is the first of the chain that does, the value of
the name is the one that it has there, and the root is the last frame of the chain. A definition
changes neither the chains nor any frame but its own. So it is seen from just those frames whose
chain meets its frame before any other that binds the name, and from all others every name has the
value that it had before. -/

namespace Lisplet

namespace Store

variable {s : Store}

/-- Whether a frame itself binds a name. -/
def binds (s : Store) (f : FrameId) (n : String) : Bool :=
  (s.own? f n).isSome

/-- Frame `f` is the first in the chain of `g` that binds `n`. -/
def IsNearest (s : Store) (g : FrameId) (n : String) (f : FrameId) : Prop :=
  (s.chain g).find? (s.binds · n) = some f

/-- Frame `f` stands in the chain of `g`, and no frame before it binds `n`. -/
def Exposes (s : Store) (g : FrameId) (n : String) (f : FrameId) : Prop :=
  ∃ inner outer, s.chain g = inner ++ f :: outer ∧ ∀ h ∈ inner, s.binds h n = false

/-- Every outer link goes to an earlier frame, so that the links cannot go round. -/
def Grounded (s : Store) : Prop :=
  ∀ {f o : FrameId}, s.Links f o → o < f

theorem chain_eq_cons (s : Store) (g : FrameId) :
    s.chain g = g :: ((s.outer? g).elim [] fun o => s.chain o.1) := by
  rw [chain]
  cases s.outer? g <;> rfl

theorem find?_eq_find?_chain (s : Store) (g : FrameId) (n : String) :
    s.find? g n = (s.chain g).find? (s.binds · n) := by
  induction g using Nat.strongRecOn with
  | ind g ih =>
    rw [Store.find?, chain_eq_cons, List.find?_cons]
    by_cases hown : (s.own? g n).isSome = true
    · simp [binds, hown]
    · cases houter : s.outer? g with
      | none => simp [binds, hown]
      | some o => simpa [binds, hown] using ih o.1 o.2

theorem lookup?_eq_findSome?_chain (s : Store) (g : FrameId) (n : String) :
    s.lookup? g n = (s.chain g).findSome? (s.own? · n) := by
  rw [lookup?, find?_eq_find?_chain]
  induction s.chain g with
  | nil => rfl
  | cons h hs ih =>
    rw [List.find?_cons, List.findSome?_cons]
    cases hown : s.own? h n with
    | none => simpa [binds, hown] using ih
    | some v => simp [binds, hown]

/-- A name that a frame does not bind has the value that it has in the frame around. -/
theorem lookup?_eq_or (s : Store) (g : FrameId) (n : String) :
    s.lookup? g n = (s.own? g n).or ((s.outer? g).bind fun o => s.lookup? o.1 n) := by
  rw [lookup?_eq_findSome?_chain, chain_eq_cons, List.findSome?_cons]
  cases s.own? g n with
  | some v => rfl
  | none =>
    cases s.outer? g with
    | none => rfl
    | some o => simp [lookup?_eq_findSome?_chain]

theorem getLast?_chain (s : Store) (g : FrameId) : (s.chain g).getLast? = some (s.root g) := by
  induction g using Nat.strongRecOn with
  | ind g ih =>
    rw [chain_eq_cons, root]
    cases s.outer? g with
    | none => rfl
    | some o => simp [List.getLast?_cons, ih o.1 o.2]

theorem outer?_root (s : Store) (g : FrameId) : s.outer? (s.root g) = none := by
  induction g using Nat.strongRecOn with
  | ind g ih =>
    rw [root]
    cases houter : s.outer? g with
    | none => exact houter
    | some o => exact ih o.1 o.2

/-- A chain follows the links. -/
theorem isChain_chain (s : Store) (g : FrameId) : (s.chain g).IsChain s.Links := by
  induction g using Nat.strongRecOn with
  | ind g ih =>
    rw [chain_eq_cons]
    cases houter : s.outer? g with
    | none => exact .singleton g
    | some o =>
      have hrest := ih o.1 o.2
      rw [chain_eq_cons] at hrest
      simp only [Option.elim_some]
      rw [chain_eq_cons]
      exact .cons_cons (links_of_outer? houter) hrest

/-- Where links go to earlier frames, a chain goes on as long as there are any. -/
theorem Grounded.not_links_root (hs : s.Grounded) (g o : FrameId) : ¬ s.Links (s.root g) o := by
  intro hlink
  obtain ⟨⟨_, bs⟩, hfr, rfl⟩ := id hlink
  have hroot := s.outer?_root g
  simp [outer?, hfr, hs hlink] at hroot

@[simp] theorem chain_define (s : Store) (f g : FrameId) (n : String) (v : Value) :
    (s.define f n v).chain g = s.chain g := by
  induction g using Nat.strongRecOn with
  | ind g ih =>
    rw [chain_eq_cons, chain_eq_cons, outer?_define]
    cases s.outer? g with
    | none => rfl
    | some o => simp [ih o.1 o.2]

section Definition

variable {f : FrameId} {n : String} {v : Value}

theorem own?_define_self (hf : f < s.next) : (s.define f n v).own? f n = some v := by
  rw [own?, bindings_define_self hf, Bindings.get?_insert_self]

theorem own?_define_of_ne {h : FrameId} (hne : h ≠ f) (m : String) :
    (s.define f n v).own? h m = s.own? h m := by
  rw [own?, own?, bindings_define_of_ne hne.symm]

theorem binds_define_self (hf : f < s.next) : (s.define f n v).binds f n = true := by
  simp [binds, own?_define_self hf]

theorem binds_define_of_ne {h : FrameId} (hne : h ≠ f) (m : String) :
    (s.define f n v).binds h m = s.binds h m := by
  rw [binds, binds, own?_define_of_ne hne]

/-- After a definition its frame is the nearest that binds the name, for just the frames whose chain
meets it before another such frame. -/
theorem isNearest_define_iff (hf : f < s.next) {g : FrameId} :
    (s.define f n v).IsNearest g n f ↔ s.Exposes g n f := by
  unfold IsNearest Exposes
  rw [chain_define]
  constructor
  · intro hfind
    obtain ⟨-, inner, outer, hchain, hinner⟩ := List.find?_eq_some_iff_append.1 hfind
    refine ⟨inner, outer, hchain, fun h hh => ?_⟩
    have hnot : (s.define f n v).binds h n = false := by simpa using hinner h hh
    have hne : h ≠ f := by
      rintro rfl
      simp [binds_define_self hf] at hnot
    rwa [← binds_define_of_ne hne]
  · rintro ⟨inner, outer, hchain, hinner⟩
    rw [hchain]
    clear hchain
    induction inner with
    | nil => simp [binds_define_self hf]
    | cons h inner ih =>
      rw [List.cons_append, List.find?_cons]
      by_cases hne : h = f
      · simp [hne, binds_define_self hf]
      · rw [binds_define_of_ne hne, hinner h (by simp)]
        exact ih fun k hk => hinner k (by simp [hk])

theorem lookup?_define_of_isNearest (hf : f < s.next) {g : FrameId}
    (h : (s.define f n v).IsNearest g n f) : (s.define f n v).lookup? g n = some v := by
  rw [lookup?, find?_eq_find?_chain, h]
  exact own?_define_self hf

/-- Along a chain on which the definition is hidden or missing, all is as before. -/
theorem findSome?_own?_define (hf : f < s.next) {hs : List FrameId}
    (h : hs.find? ((s.define f n v).binds · n) ≠ some f) :
    hs.findSome? ((s.define f n v).own? · n) = hs.findSome? (s.own? · n) := by
  induction hs with
  | nil => rfl
  | cons k hs ih =>
    -- the frame of the definition binds the name now, so it would have been the first
    have hne : k ≠ f := by
      rintro rfl
      simp [binds_define_self hf] at h
    rw [List.findSome?_cons, List.findSome?_cons, own?_define_of_ne hne]
    cases hown : s.own? k n with
    | some w => rfl
    | none =>
      apply ih
      rwa [List.find?_cons, binds_define_of_ne hne, binds, hown] at h

theorem lookup?_define_of_not_isNearest (hf : f < s.next) {g : FrameId} {m : String}
    (h : ¬ (m = n ∧ (s.define f n v).IsNearest g n f)) :
    (s.define f n v).lookup? g m = s.lookup? g m := by
  by_cases hm : m = n
  · subst hm
    have hfar : ¬ (s.define f m v).IsNearest g m f := fun hnearest => h ⟨rfl, hnearest⟩
    unfold IsNearest at hfar
    rw [chain_define] at hfar
    rw [lookup?_eq_findSome?_chain, lookup?_eq_findSome?_chain, chain_define]
    exact findSome?_own?_define hf hfar
  · exact (sameBut_define s f n v).lookup? hm g

end Definition

end Store

namespace Environment

/-- The ways to ask for a name in frame `g` agree. The nearest frame is the first in the chain that
binds the name. If there is one, the value is the one that the name has there; else look-up fails,
and only then, and the default is given. The root is the last frame of the chain. -/
structure Agrees (s : Store) (g : FrameId) (m : String) : Prop where
  find : (find g (.symbol m)).on s = (.ok ((s.chain g).find? (s.binds · m)), s)
  contains : (contains g (.symbol m)).on s = (.ok ((s.chain g).find? (s.binds · m)).isSome, s)
  found : ∀ h, s.IsNearest g m h → ∃ v, s.own? h m = some v ∧
    (∀ depth, (lookup depth g (.symbol m)).on s = (.ok v, s)) ∧
    ∀ default, (getD g (.symbol m) default).on s = (.ok v, s)
  missed : (s.chain g).find? (s.binds · m) = none →
    (∀ depth, (lookup depth g (.symbol m)).on s = (.error (.undefined (.symbol m) m), s)) ∧
    ∀ default, (getD g (.symbol m) default).on s = (.ok default, s)
  root : (s.chain g).getLast? = some (s.root g)

theorem on_find (g : FrameId) (m : String) (s : Store) :
    (find g (.symbol m)).on s = (.ok (s.find? g m), s) := rfl

theorem on_getD (g : FrameId) (m : String) (default : Value) (s : Store) :
    (getD g (.symbol m) default).on s = (.ok ((s.lookup? g m).getD default), s) := rfl

theorem lookup_symbol (depth : Nat) (g : FrameId) (m : String) :
    lookup depth g (.symbol m) = Eval.lookup g m := rfl

theorem agrees (s : Store) (g : FrameId) (m : String) : Agrees s g m where
  find := by rw [on_find, Store.find?_eq_find?_chain]
  contains := by
    rw [← Store.find?_eq_find?_chain]
    rfl
  found := by
    intro h hnearest
    have hbinds : s.binds h m = true := (List.find?_eq_some_iff_append.1 hnearest).1
    obtain ⟨v, hv⟩ := Option.isSome_iff_exists.1 hbinds
    have hlookup : s.lookup? g m = some v := by
      rw [Store.lookup?, Store.find?_eq_find?_chain, hnearest]
      exact hv
    refine ⟨v, hv, fun depth => ?_, fun default => ?_⟩
    · rw [lookup_symbol, Eval.on_lookup, hlookup]
    · rw [on_getD, hlookup]
      rfl
  missed := by
    intro hnone
    have hlookup : s.lookup? g m = none := by
      rw [Store.lookup?, Store.find?_eq_find?_chain, hnone]
      rfl
    refine ⟨fun depth => ?_, fun default => ?_⟩
    · rw [lookup_symbol, Eval.on_lookup, hlookup]
    · rw [on_getD, hlookup]
      rfl
  root := s.getLast?_chain g

/-- Definitions are seen along chains. Where all links go to earlier frames, the chain of a frame
follows them from the frame to one that has none. After `n` is defined as `v` in frame `f`, the name
stands for `v` in the frames whose chain has `f` as the first frame that binds it now, which are
those that `f` was not hidden from; and otherwise a look-up ends as it did before. In every store
the ways to ask for a name agree. -/
theorem definitions_seen_along_chains (s : Store) :
    (s.Grounded → ∀ g, (s.chain g).IsChain s.Links ∧ (s.chain g).head? = some g ∧
      ∀ o, ¬ s.Links (s.root g) o) ∧
    (∀ f < s.next, ∀ (n : String) (v : Value) (depth : Nat),
      (Eval.bindSymbol depth f (.symbol n) v).on s = (.ok (s.own? f n), s.define f n v) ∧
      ∀ g, ((s.define f n v).IsNearest g n f ↔ s.Exposes g n f) ∧
        ∀ m, (m = n ∧ (s.define f n v).IsNearest g n f →
            (lookup depth g (.symbol m)).on (s.define f n v) = (.ok v, s.define f n v)) ∧
          (¬ (m = n ∧ (s.define f n v).IsNearest g n f) →
            ((lookup depth g (.symbol m)).on (s.define f n v)).1 =
              ((lookup depth g (.symbol m)).on s).1)) ∧
    ∀ g m, Agrees s g m := by
  refine ⟨fun hs g => ⟨s.isChain_chain g, ?_, hs.not_links_root g⟩, ?_, agrees s⟩
  · rw [Store.chain_eq_cons]
    rfl
  · intro f hf n v depth
    refine ⟨Eval.on_bindSymbol depth f n v s, fun g => ⟨Store.isNearest_define_iff hf, ?_⟩⟩
    intro m
    rw [lookup_symbol]
    constructor
    · rintro ⟨rfl, hnearest⟩
      rw [Eval.on_lookup, Store.lookup?_define_of_isNearest hf hnearest]
    · intro hnot
      rw [Eval.on_lookup, Eval.on_lookup, Store.lookup?_define_of_not_isNearest hf hnot]
      cases s.lookup? g m <;> rfl

/-- A session with two frames inside the global one, and a further one inside the first of these. -/
def sampleTree : Store :=
  (Store.sample.push (some 0)).push (some 1)

theorem sampleTree_grounded : sampleTree.Grounded := by
  have hpush : ∀ {t : Store} {o : FrameId}, t.WellFormed → o < t.next →
      (t.push (some o)).WellFormed := fun ht ho => ht.push (by simpa using ho)
  have hsample : Store.sample.WellFormed :=
    hpush Session.start_sound.wellFormed Session.start_sound.globalFrame_lt
  have htree : sampleTree.WellFormed :=
    hpush (hpush hsample (by decide +kernel)) (by decide +kernel)
  rintro f o ⟨fr, hfr, houter⟩
  exact htree.links hfr o houter

/-- A definition in the first inner frame is seen from the frame inside it, and not from the frame
beside it. -/
theorem sampleTree_definition_seen :
    sampleTree.Grounded ∧ 1 < sampleTree.next ∧
      (¬ ∃ o, sampleTree.Links (sampleTree.root 3) o) ∧
      sampleTree.Exposes 3 "x" 1 ∧ ¬ sampleTree.Exposes 2 "x" 1 ∧
      (lookup 9 3 (.symbol "x")).on (sampleTree.define 1 "x" .yes) =
        (.ok .yes, sampleTree.define 1 "x" .yes) ∧
      ((lookup 9 2 (.symbol "x")).on (sampleTree.define 1 "x" .yes)).1 =
        .error (.undefined (.symbol "x") "x") := by
  have hlt : 1 < sampleTree.next := by decide +kernel
  have hinner : sampleTree.chain 3 = [3, 1, 0] := by decide +kernel
  have hbeside : sampleTree.chain 2 = [2, 0] := by decide +kernel
  have hexposes : sampleTree.Exposes 3 "x" 1 := ⟨[3], [0], hinner, by decide +kernel⟩
  have hhidden : ¬ sampleTree.Exposes 2 "x" 1 := by
    rintro ⟨inner, outer, hchain, -⟩
    have hmem : 1 ∈ sampleTree.chain 2 := by simp [hchain]
    simp [hbeside] at hmem
  obtain ⟨hlinks, hdefine, hagrees⟩ := definitions_seen_along_chains sampleTree
  obtain ⟨-, hseen⟩ := hdefine 1 hlt "x" .yes 9
  have hnearest := (hseen 3).1.2 hexposes
  refine ⟨sampleTree_grounded, hlt, ?_, hexposes, hhidden, ((hseen 3).2 "x").1 ⟨rfl, hnearest⟩, ?_⟩
  · rintro ⟨o, ho⟩
    exact (hlinks sampleTree_grounded 3).2.2 o ho
  · rw [((hseen 2).2 "x").2 fun h => hhidden ((hseen 2).1.1 h.2)]
    rw [((hagrees 2 "x").missed (by rw [hbeside]; decide +kernel)).1 9]

end Environment

end Lisplet
