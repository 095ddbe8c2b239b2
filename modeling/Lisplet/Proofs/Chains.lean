import Mathlib.Logic.Relation
import Lisplet.Proofs.Locality
import Lisplet.Proofs.Sessions

/-! Chains of frames. All that a session does to its store is a sequence of changes of two kinds: a
name is bound in a frame, or a frame is added inside another. No change takes a frame or a name
away, or gives a frame another outer link. So in every session the links lead from any frame, by
earlier and earlier ones, to the global frame, and procedures were made in frames that exist. -/

namespace Lisplet

/-- The frames that the procedures inside a value were made in. -/
inductive Value.Captures : Value → FrameId → Prop where
  | procedure (formals : List Value) (body : Value) (g : FrameId) :
      Captures (.procedure formals body g) g
  | formal {formals : List Value} {v : Value} {g : FrameId} (hv : v ∈ formals) (h : v.Captures g)
      (body : Value) (frame : FrameId) : Captures (.procedure formals body frame) g
  | body {body : Value} {g : FrameId} (h : body.Captures g) (formals : List Value)
      (frame : FrameId) : Captures (.procedure formals body frame) g
  | item {items : List Value} {v : Value} {g : FrameId} (hv : v ∈ items) (h : v.Captures g) :
      Captures (.list items) g

@[simp] theorem Value.not_captures_symbol (n : String) (g : FrameId) :
    ¬ (Value.symbol n).Captures g := by
  intro h
  cases h

theorem Value.captures_list {items : List Value} {g : FrameId} :
    (Value.list items).Captures g ↔ ∃ v ∈ items, v.Captures g := by
  constructor
  · intro h
    cases h with
    | item hv h => exact ⟨_, hv, h⟩
  · intro h
    obtain ⟨v, hv, hg⟩ := h
    exact .item hv hg

/-- The procedures inside a well-formed value were made in frames that exist. -/
theorem Value.WellFormed.captures_lt {frames g : FrameId} {v : Value} (h : v.WellFormed frames)
    (hg : v.Captures g) : g < frames := by
  induction hg with
  | procedure formals body g =>
    cases h with
    | procedure _ _ hframe => exact hframe
  | formal hv hcaptures body frame ih =>
    cases h with
    | procedure hformals _ _ =>
      have hsymbol := hformals _ hv
      cases hcaptures <;> simp [Value.isSymbol] at hsymbol
  | body _ formals frame ih =>
    cases h with
    | procedure _ hbody _ => exact ih hbody
  | item hv _ ih => exact ih (h.mem hv)

namespace Store

variable {s s' s'' : Store}

/-- The outer link of frame `f`, as it is recorded, goes to `o`. -/
def Links (s : Store) (f o : FrameId) : Prop :=
  ∃ fr, s.get? f = some fr ∧ fr.outer = some o

/-- What can be done to the store of a session. -/
inductive Change : Store → Store → Prop where
  | define (s : Store) (f : FrameId) (n : String) (v : Value) : Change s (s.define f n v)
  | push (s : Store) (outer : FrameId) : Change s (s.push (some outer))

/-- One store turns into another by changes, one after the other. -/
abbrev Becomes : Store → Store → Prop :=
  Relation.ReflTransGen Change

/-- Every frame of `s` is still there in `s'`, with its outer link and with all names that were
bound in it, in their order. -/
def Keeps (s s' : Store) : Prop :=
  ∀ f fr, s.get? f = some fr → ∃ fr', s'.get? f = some fr' ∧ fr'.outer = fr.outer ∧
    fr.bindings.names <+: fr'.bindings.names

theorem lt_next_of_get? {f : FrameId} {fr : Frame} (h : s.get? f = some fr) : f < s.next :=
  (Array.getElem?_eq_some_iff.1 h).1

theorem Keeps.refl (s : Store) : s.Keeps s :=
  fun _ fr hf => ⟨fr, hf, rfl, List.prefix_refl _⟩

theorem Keeps.trans (h : s.Keeps s') (h' : s'.Keeps s'') : s.Keeps s'' := by
  intro f fr hf
  obtain ⟨fr', hf', houter', hnames'⟩ := h f fr hf
  obtain ⟨fr'', hf'', houter'', hnames''⟩ := h' f fr' hf'
  exact ⟨fr'', hf'', houter''.trans houter', hnames'.trans hnames''⟩

/-- No change takes anything away. -/
theorem Change.keeps (h : s.Change s') : s.Keeps s' := by
  intro f fr hf
  cases h with
  | define g n v =>
    by_cases hgf : g = f
    · subst hgf
      have hgrows := (Frame.Grows.refl (fun _ => True) fr).insert (n := n) trivial v
      exact ⟨_, by rw [get?_define_self, hf]; rfl, hgrows.outer, hgrows.names⟩
    · exact ⟨fr, by rw [get?_define_of_ne _ n v hgf, hf], rfl, List.prefix_refl _⟩
  | push outer =>
    exact ⟨fr, by rw [get?_push_of_lt _ _ (lt_next_of_get? hf), hf], rfl, List.prefix_refl _⟩

theorem Becomes.keeps (h : s.Becomes s') : s.Keeps s' := by
  induction h with
  | refl => exact .refl s
  | tail _ hchange ih => exact ih.trans hchange.keeps

/-- A frame after a change was there before, with the same outer link, or is the frame that the
change has added. -/
theorem Change.frame_cases (h : s.Change s') {f : FrameId} {fr' : Frame}
    (hf : s'.get? f = some fr') :
    (∃ fr, s.get? f = some fr ∧ fr'.outer = fr.outer) ∨
      ∃ o, f = s.next ∧ fr'.outer = some o ∧ s' = s.push (some o) := by
  cases h with
  | define g n v =>
    left
    by_cases hgf : g = f
    · subst hgf
      rw [get?_define_self] at hf
      obtain ⟨fr, hfr, rfl⟩ := Option.map_eq_some_iff.1 hf
      exact ⟨fr, hfr, rfl⟩
    · rw [get?_define_of_ne _ n v hgf] at hf
      exact ⟨fr', hf, rfl⟩
  | push outer =>
    have hlt := lt_next_of_get? hf
    rw [next_push] at hlt
    rcases Nat.lt_succ_iff_lt_or_eq.1 hlt with hold | rfl
    · rw [get?_push_of_lt _ _ hold] at hf
      exact .inl ⟨fr', hf, rfl⟩
    · rw [get?_push_next] at hf
      simp only [Option.some.injEq] at hf
      exact .inr ⟨outer, rfl, by rw [← hf], rfl⟩

theorem becomes_defineAll (s : Store) (f : FrameId) (bs : Bindings) :
    s.Becomes (s.defineAll f bs) := by
  induction bs generalizing s with
  | nil => exact .refl
  | cons p bs ih => exact .head (.define s f p.1 p.2) (ih _)

/-- The effects of an evaluation are changes. -/
theorem Effects.becomes {f : FrameId} {N : String → Prop} (h : s.Effects f N s') :
    s.Becomes s' := by
  induction h with
  | refl => exact .refl
  | define _ n _ v ih => exact ih.tail (.define _ _ n v)
  | call _ outer _ ih ihbody => exact (ih.tail (.push _ outer)).trans ihbody

end Store

namespace Session

section Commands

variable {bound : Nat} {L : Store → Store → Prop} (refl : ∀ s, L s s)
  (trans : ∀ s s' s'', L s s' → L s' s'' → L s s'')
  (step : ∀ e s, (eval bound globalFrame e).Leaves s (L s))

include refl trans step

theorem evalTokens_leaves (last : Value) (ps : List Reader.Pending) (ts : List Token) (s : Store) :
    (evalTokens bound none last ps ts).Leaves s (L s) := by
  induction ts generalizing last ps s with
  | nil =>
    cases ps with
    | nil => exact Eval.ends_pure (refl s)
    | cons p ps => exact Eval.ends_throw (refl s)
  | cons t ts ih =>
    unfold Eval.Leaves
    rw [evalTokens]
    split
    · exact Eval.ends_throw (refl s)
    · exact ih last _ s
    · rename_i e _
      apply Eval.ends_bind
      refine Eval.Ends.imp (step e s) fun v s' hs' => ?_
      have htrans : ∀ s'', L s' s'' → L s s'' := fun s'' => trans s s' s'' hs'
      exact Eval.Ends.mono (ih v [] s') (fun _ => htrans) fun _ => htrans

theorem runValues_leaves (line : String) (es : List Value) (s : Store) :
    L s (Transcript.runValues bound line es s).store := by
  induction es generalizing s with
  | nil => exact refl s
  | cons e es ih =>
    have hstep : L s ((Transcript.evalToText bound e).on s).2 := by
      refine Eval.leaves_iff.1 (Eval.ends_bind ?_)
      exact Eval.Ends.imp (step e s) fun v s' hs' =>
        Eval.ends_displayed (fun _ _ => hs') fun _ _ => hs'
    rw [Transcript.runValues]
    generalize (Transcript.evalToText bound e).on s = run at hstep ⊢
    obtain ⟨fault | text, s'⟩ := run
    · simp only
      split <;> exact hstep
    · exact trans s s' _ hstep (ih s')

theorem runLine_leaves (line : String) (s : Store) :
    L s (Transcript.runLine bound line s).store := by
  unfold Transcript.runLine
  split
  · exact refl s
  · exact runValues_leaves refl trans step line _ s

theorem feed_leaves (prompt : String) (lines : List String) (failures : Nat) (s : Store) :
    L s (Transcript.feed bound prompt lines failures s).store := by
  induction lines generalizing failures s with
  | nil => exact refl s
  | cons line lines ih =>
    rw [Transcript.feed]
    have hline : L s (if Text.isAllBlank line then ⟨[], .passed, s⟩
        else Transcript.runLine bound line s : LineRun).store := by
      split
      · exact refl s
      · exact runLine_leaves refl trans step line s
    generalize (if Text.isAllBlank line then ⟨[], .passed, s⟩
        else Transcript.runLine bound line s : LineRun) = r at hline
    cases hended : r.ended with
    | passed => simpa [hended] using trans s _ _ hline (ih failures r.store)
    | failed => simpa [hended] using trans s _ _ hline (ih (failures + 1) r.store)
    | broken fault => simpa [hended] using hline

/-- What evaluation in the global frame does to a store, step after step, is all that a command
does to it. -/
theorem Command.run_leaves (c : Command) (s : Store) : L s (c.run bound s) := by
  have htext : ∀ source, (evalText bound source).Leaves s (L s) := by
    intro source
    rw [evalText_eq]
    exact evalTokens_leaves refl trans step .unit [] (lex source) s
  cases c with
  | load source =>
    rw [Command.run, load_eq]
    exact Eval.leaves_iff.1 (Eval.ends_map (htext source))
  | text source => exact Eval.leaves_iff.1 (htext source)
  | line l => exact runLine_leaves refl trans step l s
  | lines prompt ls => exact feed_leaves refl trans step prompt ls 0 s

end Commands

theorem Command.run_becomes (bound : Nat) (c : Command) (s : Store) : s.Becomes (c.run bound s) :=
  c.run_leaves (fun _ => .refl) (fun _ _ _ h h' => h.trans h')
    (fun e s => Eval.leaves_iff.2
      (Eval.leaves_iff.1 (Eval.eval_isLocal bound globalFrame e s)).becomes) s

theorem foldl_becomes (bound : Nat) (commands : List Command) (s : Store) :
    s.Becomes (commands.foldl (Command.run bound) s) := by
  induction commands generalizing s with
  | nil => exact .refl
  | cons c commands ih => exact (c.run_becomes bound s).trans (ih _)

theorem start_becomes_after (bound : Nat) (commands : List Command) :
    start.Becomes (after bound commands) :=
  foldl_becomes bound commands start

theorem after_becomes_append (bound : Nat) (commands more : List Command) :
    (after bound commands).Becomes (after bound (commands ++ more)) := by
  unfold after
  rw [List.foldl_append]
  exact foldl_becomes bound more _

/-- The global frame is there, and is the only one without an outer link. -/
structure Rooted (s : Store) : Prop where
  globalFrame_lt : globalFrame < s.next
  outermost : ∀ {f : FrameId} {fr : Frame}, s.get? f = some fr →
    (fr.outer = none ↔ f = globalFrame)

theorem Rooted.change {s s' : Store} (hs : Rooted s) (h : s.Change s') : Rooted s' := by
  have hglobal : globalFrame < s'.next := by
    obtain ⟨fr, hfr, -⟩ := h.keeps globalFrame _ (Array.getElem?_eq_getElem hs.globalFrame_lt)
    exact Store.lt_next_of_get? hfr
  refine ⟨hglobal, fun hf => ?_⟩
  obtain ⟨fr, hfr, houter⟩ | ⟨o, rfl, houter, -⟩ := h.frame_cases hf
  · rw [houter]
    exact hs.outermost hfr
  · simp [houter, Nat.ne_of_gt hs.globalFrame_lt]

theorem Rooted.becomes {s s' : Store} (hs : Rooted s) (h : s.Becomes s') : Rooted s' := by
  induction h with
  | refl => exact hs
  | tail _ hchange ih => exact ih.change hchange

theorem start_rooted : Rooted start := by
  have hpush : Rooted (Store.push {} none) := by
    refine ⟨by simp [globalFrame], ?_⟩
    intro f fr hf
    have hlt := Store.lt_next_of_get? hf
    rw [Store.next_push] at hlt
    obtain rfl : f = globalFrame := by simpa [Store.next, globalFrame] using hlt
    have hnew := Store.get?_push_next {} none
    rw [show Store.next {} = globalFrame from rfl, hf, Option.some.injEq] at hnew
    simp [hnew]
  exact hpush.becomes (Store.becomes_defineAll _ _ _)

/-- A frame with an outer link was added inside that other frame in the course of the session. -/
theorem links_created {s : Store} (h : start.Becomes s) {f o : FrameId} (hlink : s.Links f o) :
    ∃ s₁, start.Becomes s₁ ∧ s₁.next = f ∧ (s₁.push (some o)).Becomes s := by
  induction h with
  | refl =>
    obtain ⟨fr, hfr, houter⟩ := hlink
    have hlt := Store.lt_next_of_get? hfr
    have hglobal : f = globalFrame := Nat.lt_one_iff.1 hlt
    rw [(start_rooted.outermost hfr).2 hglobal] at houter
    simp at houter
  | @tail s s' hpath hchange ih =>
    obtain ⟨fr', hfr', houter'⟩ := hlink
    obtain ⟨fr, hfr, houter⟩ | ⟨o', hf, houter, rfl⟩ := hchange.frame_cases hfr'
    · obtain ⟨s₁, hbefore, hnext, hafter⟩ := ih ⟨fr, hfr, houter.symm.trans houter'⟩
      exact ⟨s₁, hbefore, hnext, hafter.tail hchange⟩
    · obtain rfl : o' = o := by simpa [houter] using houter'
      exact ⟨s, hpath, hf.symm, .refl⟩

section Chain

variable {s : Store} (hs : Rooted s) (hlinks : ∀ {f o}, s.Links f o → o < f)

include hs hlinks

/-- A frame is the global one, or the store follows its link to an earlier frame. -/
theorem outer?_cases {f : FrameId} (hf : f < s.next) :
    f = globalFrame ∧ s.outer? f = none ∨
      ∃ o, ∃ h : o < f, s.outer? f = some ⟨o, h⟩ ∧ s.Links f o := by
  obtain ⟨fr, hfr⟩ : ∃ fr, s.get? f = some fr := ⟨_, Array.getElem?_eq_getElem hf⟩
  obtain ⟨outer, bindings⟩ := fr
  cases outer with
  | none => exact .inl ⟨(hs.outermost hfr).1 rfl, by simp [Store.outer?, hfr]⟩
  | some o =>
    have hlink : s.Links f o := ⟨_, hfr, rfl⟩
    exact .inr ⟨o, hlinks hlink, by simp [Store.outer?, hfr, hlinks hlink], hlink⟩

theorem root_eq {f : FrameId} (hf : f < s.next) : s.root f = globalFrame := by
  induction f using Nat.strongRecOn with
  | ind f ih =>
    rw [Store.root]
    obtain ⟨rfl, houter⟩ | ⟨o, ho, houter, -⟩ := outer?_cases hs hlinks hf
    · rw [houter]
    · rw [houter]
      exact ih o ho (Nat.lt_trans ho hf)

/-- The chain of a frame follows the links, from the frame to the global one. -/
theorem chain_spec {f : FrameId} (hf : f < s.next) :
    (s.chain f).IsChain s.Links ∧ (s.chain f).head? = some f ∧
      (s.chain f).getLast? = some globalFrame := by
  induction f using Nat.strongRecOn with
  | ind f ih =>
    rw [Store.chain]
    obtain ⟨rfl, houter⟩ | ⟨o, ho, houter, hlink⟩ := outer?_cases hs hlinks hf
    · simp [houter]
    · obtain ⟨hchain, hhead, hlast⟩ := ih o ho (Nat.lt_trans ho hf)
      obtain ⟨rest, hrest⟩ := List.head?_eq_some_iff.1 hhead
      rw [hrest] at hchain hlast
      rw [houter]
      exact ⟨by simpa [hrest] using ⟨hlink, hchain⟩, rfl, by simpa [hrest] using hlast⟩

end Chain

/-- A store in which all frames hang together. Links go to earlier frames, and procedures were made
in frames that exist; the global frame is outermost, and the links lead to it from every frame. -/
structure Chained (s : Store) : Prop where
  earlier : ∀ {f o : FrameId}, s.Links f o → o < f
  captured : ∀ {f : FrameId} {fr : Frame}, s.get? f = some fr → ∀ p ∈ fr.bindings,
    ∀ g, p.2.Captures g → g < s.next
  global : globalFrame < s.next ∧ ∀ o, ¬ s.Links globalFrame o
  chain : ∀ f < s.next, (s.chain f).IsChain s.Links ∧ (s.chain f).head? = some f ∧
    (s.chain f).getLast? = some globalFrame
  root : ∀ f < s.next, s.root f = globalFrame

/-- Whatever commands a fresh session was given, its frames hang together. The session came about
by changes, and no change takes a frame or a name away; every link is the one with which its frame
was added; and whatever commands follow, all frames stay, with their links and their names. -/
theorem after_chained (bound : Nat) (commands : List Command) :
    Chained (after bound commands) ∧
    (start.Becomes (after bound commands) ∧ ∀ s s' : Store, s.Change s' → s.Keeps s') ∧
    (∀ f o, (after bound commands).Links f o → ∃ s, start.Becomes s ∧ s.next = f ∧
      (s.push (some o)).Becomes (after bound commands)) ∧
    ∀ more, (after bound commands).Keeps (after bound (commands ++ more)) := by
  have hbecomes := start_becomes_after bound commands
  have hrooted := start_rooted.becomes hbecomes
  have hwell := (after_sound bound commands).wellFormed
  have hlinks : ∀ {f o}, (after bound commands).Links f o → o < f := by
    intro f o hlink
    obtain ⟨fr, hfr, houter⟩ := hlink
    exact hwell.links hfr o houter
  refine ⟨⟨hlinks, ?_, ⟨hrooted.globalFrame_lt, ?_⟩, fun f hf => chain_spec hrooted hlinks hf,
    fun f hf => root_eq hrooted hlinks hf⟩, ⟨hbecomes, fun s s' h => h.keeps⟩,
    fun f o hlink => links_created hbecomes hlink,
    fun more => (after_becomes_append bound commands more).keeps⟩
  · intro f fr hfr p hp g hg
    exact (hwell.values hfr p hp).captures_lt hg
  · intro o hlink
    obtain ⟨fr, hfr, houter⟩ := hlink
    rw [(hrooted.outermost hfr).2 rfl] at houter
    simp at houter

end Session

end Lisplet
