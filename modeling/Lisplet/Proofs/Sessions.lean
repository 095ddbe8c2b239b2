import Lisplet.Transcript
import Lisplet.Proofs.Grammar
import Lisplet.Proofs.Loading
import Lisplet.Proofs.WellFormed

/-! Safety of sessions. What a caller can do with a session is a sequence of commands: source texts
loaded or evaluated, single lines, and whole runs of lines, each going on from the store that the
one before left, also after a failure. Each command keeps the store well-formed, so after any
sequence of them every bound value is well-formed, evaluation gives well-formed values or ordinary
faults, and a run over lines comes to its end with a count of failed lines. -/

namespace Lisplet

/-- What the reader makes is well-formed and refers to no frame. -/
theorem Value.IsSource.wellFormed {v : Value} (h : v.IsSource) : v.WellFormed 0 := by
  induction h with
  | symbol n => exact .symbol n
  | number x => exact .number x
  | list _ ih => exact .list ih

theorem parseAll_wellFormed {bound : Nat} {source : String} {es : List Value}
    (h : parseAll bound source = .ok es) : ∀ e ∈ es, e.WellFormed 0 := by
  have hforms := forms_of_parseAll h
  exact fun e he => (hforms.isSource e he).wellFormed

namespace Session

/-- A well-formed store with a global frame. -/
structure Sound (s : Store) : Prop where
  wellFormed : s.WellFormed
  globalFrame_lt : globalFrame < s.next

theorem Sound.leads {s s' : Store} (hs : Sound s) (h : s.Leads s') : Sound s' :=
  ⟨h.wellFormed, Nat.lt_of_lt_of_le hs.globalFrame_lt h.next_le⟩

theorem eval_global {s : Store} (hs : Sound s) {e : Value} (he : e.WellFormed 0) (depth : Nat) :
    (eval depth globalFrame e).Safe s :=
  Eval.eval_isSafe depth globalFrame e s hs.wellFormed hs.globalFrame_lt (he.mono (Nat.zero_le _))

theorem defineAll_leads {s : Store} (hs : s.WellFormed) (f : FrameId) {bs : Bindings}
    (hbs : ∀ p ∈ bs, p.2.WellFormed 0) : s.Leads (s.defineAll f bs) := by
  induction bs generalizing s with
  | nil => exact .refl hs
  | cons p bs ih =>
    obtain ⟨n, v⟩ := p
    have hv : v.WellFormed s.next := (hbs (n, v) (by simp)).mono (Nat.zero_le _)
    have hdef := (Store.Leads.refl hs).define f n hv
    exact hdef.trans (ih hdef.wellFormed fun p hp => hbs p (by simp [hp]))

theorem initialBindings_wellFormed : ∀ p ∈ initialBindings, p.2.WellFormed 0 := by
  intro p hp
  rcases List.mem_append.1 hp with hp | hp
  · simp only [constants, List.mem_cons, List.not_mem_nil, or_false] at hp
    rcases hp with rfl | rfl | rfl
    · exact .number _
    · exact .symbol _
    · exact .symbol _
  · obtain ⟨b, -, rfl⟩ := List.mem_map.1 hp
    exact .builtin b

theorem start_sound : Sound start := by
  have hempty : ({} : Store).WellFormed := by
    constructor <;> intro f fr hfr <;> simp [Store.get?] at hfr
  have hpush : (Store.push {} none).WellFormed := hempty.push (by simp)
  have hleads := defineAll_leads hpush globalFrame initialBindings_wellFormed
  exact ⟨hleads.wellFormed, hleads.next_le⟩

/-- In a fresh session every operation is bound to its name. -/
theorem start_lookup?_name (b : Builtin) :
    start.lookup? globalFrame b.name = some (.builtin b) := by
  rw [Store.lookup?, Store.find?]
  cases b <;> rfl

/-- Reading and evaluating in turn is safe from any open forms on. -/
theorem evalTokens_safe (bound : Nat) {ts us : List Token} {ps : List Reader.Pending}
    (hps : Reader.Open us ps) {last : Value} {s : Store} (hs : Sound s)
    (hlast : last.WellFormed s.next) : (evalTokens bound none last ps ts).Safe s := by
  have hrefl := Store.Leads.refl hs.wellFormed
  induction ts generalizing us ps last s with
  | nil =>
    cases ps with
    | nil => exact Eval.ends_pure ⟨hrefl, hlast⟩
    | cons p ps => exact Eval.ends_throw ⟨hrefl, .unreadable _⟩
  | cons t ts ih =>
    rw [evalTokens]
    split
    · exact Eval.ends_throw ⟨hrefl, .unreadable _⟩
    · rename_i ps' hps'
      exact ih (hps.accept hps') hs hlast hrefl
    · rename_i e he
      have hd : Reader.Derives (us ++ [t]) e := hps.accept he
      apply Eval.ends_bind
      refine Eval.Ends.imp (eval_global hs hd.isSource.wellFormed bound) ?_
      rintro v s' ⟨hs', hv⟩
      exact (ih .nil (hs.leads hs') hv (.refl hs'.wellFormed)).after hs'

theorem evalText_safe (bound : Nat) (source : String) {s : Store} (hs : Sound s) :
    (evalText bound source).Safe s := by
  rw [evalText_eq]
  exact evalTokens_safe bound .nil hs (.symbol _)

theorem load_ends (bound : Nat) (source : String) {s : Store} (hs : Sound s) :
    (load bound source).Ends s (fun _ => s.Leads) fun fault s' => s.Leads s' ∧ fault.Ordinary := by
  rw [load_eq]
  exact Eval.ends_map ((evalText_safe bound source hs).imp fun _ _ h => h.1)

end Session

namespace Transcript

open Session

theorem evalToText_ends (bound : Nat) {e : Value} (he : e.WellFormed 0) {s : Store}
    (hs : Sound s) :
    (evalToText bound e).Ends s (fun _ => s.Leads) fun fault s' =>
      s.Leads s' ∧ fault.Ordinary := by
  apply Eval.ends_bind
  refine Eval.Ends.imp (eval_global hs he bound) ?_
  rintro v s' ⟨hs', hv⟩
  exact Eval.ends_displayed (fun _ _ => hs') fun o ho => ⟨hs', .undisplayable hv ho⟩

/-- A line that ends without breaking the run off, in a store that goes on from `s`. -/
structure LineRun.Sound (s : Store) (r : LineRun) : Prop where
  leads : s.Leads r.store
  ended : r.ended = .passed ∨ r.ended = .failed

theorem runValues_sound (bound : Nat) (line : String) {es : List Value}
    (hes : ∀ e ∈ es, e.WellFormed 0) {s : Store} (hs : Session.Sound s) :
    LineRun.Sound s (runValues bound line es s) := by
  induction es generalizing s with
  | nil => exact ⟨.refl hs.wellFormed, .inl rfl⟩
  | cons e es ih =>
    have hends := evalToText_ends bound (hes e (by simp)) hs
    rw [runValues]
    unfold Eval.Ends at hends
    split at hends
    · rename_i text s' heq
      have hrest := ih (fun e he => hes e (by simp [he])) (hs.leads hends)
      rw [heq]
      exact ⟨hends.trans hrest.leads, hrest.ended⟩
    · rename_i fault s' heq
      rw [heq]
      simp only [hends.2.reported, ↓reduceIte]
      exact ⟨hends.1, .inr rfl⟩

theorem runLine_sound (bound : Nat) (line : String) {s : Store} (hs : Session.Sound s) :
    LineRun.Sound s (runLine bound line s) := by
  unfold runLine
  split
  · exact ⟨.refl hs.wellFormed, .inr rfl⟩
  · rename_i es hes
    exact runValues_sound bound line (parseAll_wellFormed hes) hs

theorem feed_sound (bound : Nat) (prompt : String) (lines : List String) (failures : Nat)
    {s : Store} (hs : Session.Sound s) :
    s.Leads (feed bound prompt lines failures s).store ∧
      ∃ n, (feed bound prompt lines failures s).failures = .ok n := by
  induction lines generalizing failures s with
  | nil => exact ⟨.refl hs.wellFormed, failures, rfl⟩
  | cons line lines ih =>
    have hline : LineRun.Sound s
        (if Text.isAllBlank line then ⟨[], .passed, s⟩ else runLine bound line s) := by
      split
      · exact ⟨.refl hs.wellFormed, .inl rfl⟩
      · exact runLine_sound bound line hs
    rw [feed]
    generalize (if Text.isAllBlank line then ⟨[], .passed, s⟩ else runLine bound line s) = r
      at hline
    rcases hline.ended with hended | hended <;> simp only [hended]
    · obtain ⟨hleads, hn⟩ := ih failures (hs.leads hline.leads)
      exact ⟨hline.leads.trans hleads, hn⟩
    · obtain ⟨hleads, hn⟩ := ih (failures + 1) (hs.leads hline.leads)
      exact ⟨hline.leads.trans hleads, hn⟩

theorem runLines_sound (bound : Nat) (prompt : String) (lines : List String) {s : Store}
    (hs : Session.Sound s) :
    s.Leads (runLines bound prompt lines s).store ∧
      ∃ n, (runLines bound prompt lines s).failures = .ok n :=
  feed_sound bound prompt lines 0 hs

end Transcript

namespace Session

/-- What a caller may do with a session. -/
inductive Command where
  | load (source : String)
  | text (source : String)
  | line (line : String)
  | lines (prompt : String) (lines : List String)

/-- The store that a command leaves, whether it fails or not. -/
def Command.run (bound : Nat) (s : Store) : Command → Store
  | .load source => ((Session.load bound source).on s).2
  | .text source => ((evalText bound source).on s).2
  | .line l => (Transcript.runLine bound l s).store
  | .lines prompt ls => (Transcript.runLines bound prompt ls s).store

/-- The store after a sequence of commands to a fresh session. -/
def after (bound : Nat) (commands : List Command) : Store :=
  commands.foldl (Command.run bound) start

theorem Command.run_sound (bound : Nat) {s : Store} (hs : Sound s) (c : Command) :
    Sound (c.run bound s) := by
  refine hs.leads ?_
  cases c with
  | load source =>
    exact Eval.leaves_iff.1 ((load_ends bound source hs).mono (fun _ _ h => h) fun _ _ h => h.1)
  | text source =>
    exact Eval.leaves_iff.1 ((evalText_safe bound source hs).mono (fun _ _ h => h.1)
      fun _ _ h => h.1)
  | line l => exact (Transcript.runLine_sound bound l hs).leads
  | lines prompt ls => exact (Transcript.runLines_sound bound prompt ls hs).1

theorem after_sound (bound : Nat) (commands : List Command) : Sound (after bound commands) := by
  unfold after
  have hgen : ∀ s, Sound s → Sound (commands.foldl (Command.run bound) s) := by
    induction commands with
    | nil => exact fun s hs => hs
    | cons c commands ih => exact fun s hs => ih _ (c.run_sound bound hs)
  exact hgen start start_sound

/-- A store from which nothing goes wrong but in an ordinary way. Every value in it is well-formed;
what is evaluated in it, as an expression or as text, gives a well-formed value or an ordinary
fault and leaves a well-formed store; only nesting keeps a value from being displayed; no line
breaks a run off, and a run ends with the count of failed lines. -/
structure Safe (bound : Nat) (s : Store) : Prop where
  store : s.WellFormed
  expression : ∀ depth f e, f < s.next → e.WellFormed s.next → (eval depth f e).Safe s
  text : ∀ source, (evalText bound source).Safe s
  load : ∀ source, (load bound source).Ends s (fun _ s' => s'.WellFormed)
    fun fault s' => s'.WellFormed ∧ fault.Ordinary
  display : ∀ (depth : Nat) (v : Value) (o : Obstacle), v.WellFormed s.next →
    v.display depth = .error o → o = .tooDeep
  line : ∀ l, (Transcript.runLine bound l s).ended = .passed ∨
    (Transcript.runLine bound l s).ended = .failed
  lines : ∀ prompt ls, ∃ n, (Transcript.runLines bound prompt ls s).failures = .ok n

/-- Whatever commands a fresh session was given, it is safe. -/
theorem after_safe (bound : Nat) (commands : List Command) :
    Safe bound (after bound commands) := by
  have hs := after_sound bound commands
  refine ⟨hs.wellFormed, ?_, fun source => evalText_safe bound source hs, ?_, ?_, ?_, ?_⟩
  · exact fun depth f e hf he => Eval.eval_isSafe depth f e _ hs.wellFormed hf he
  · exact fun source => (load_ends bound source hs).mono (fun _ _ h => h.wellFormed)
      fun _ _ h => ⟨h.1.wellFormed, h.2⟩
  · intro depth v o hv ho
    cases o with
    | tooDeep => rfl
    | tooLarge => exact absurd ho (hv.display_ne_tooLarge depth)
  · exact fun line => (Transcript.runLine_sound bound line hs).ended
  · exact fun prompt lines => (Transcript.runLines_sound bound prompt lines hs).2

end Session

end Lisplet
