import Lisplet.Reader
import Lisplet.Proofs.Number.Numeral

/-! Which words are numbers. `IsNumeral` is the grammar of numerals, over basic digits and without
padding, and says nothing about how a numeral is parsed. A word is a number just if it has no
underscore and, stripped of white space at its ends and with the digits of every script read as
basic ones, is a numeral of that grammar; any other word is a symbol of just that name. -/

namespace Lisplet.Number

open Text

/-! ### The grammar -/

/-- The characters that Unicode calls white space, by the ranges of their codes. The four
information separators are not among them: they part words in source text, but are no padding of a
numeral. -/
def WhiteSpace (c : Char) : Prop :=
  ∃ range ∈ [(0x09, 0x0D), (0x20, 0x20), (0x85, 0x85), (0xA0, 0xA0), (0x1680, 0x1680),
    (0x2000, 0x200A), (0x2028, 0x2029), (0x202F, 0x202F), (0x205F, 0x205F), (0x3000, 0x3000)],
    range.1 ≤ c.toNat ∧ c.toNat ≤ range.2

/-- `core` is what is left of a text without the white space at its two ends. -/
structure Stripped (cs core : List Char) : Prop where
  surrounded : ∃ before after, cs = before ++ (core ++ after) ∧
    (∀ c ∈ before, WhiteSpace c) ∧ ∀ c ∈ after, WhiteSpace c
  first : ∀ c ∈ core.head?, ¬ WhiteSpace c
  last : ∀ c ∈ core.getLast?, ¬ WhiteSpace c

/-- A decimal digit of any script as the basic digit of its value, and any other character as it
is. -/
def basicDigit (c : Char) : Char :=
  match digit? c with
  | some d => d.digitChar
  | none => c

inductive OptionalSign : List Char → Prop where
  | absent : OptionalSign []
  | plus : OptionalSign ['+']
  | minus : OptionalSign ['-']

/-- Digits, with a point behind or among them or without, or a point and digits. -/
inductive Mantissa : List Char → Prop where
  | whole {ws : List Char} (hne : ws ≠ []) (hw : Digits ws) : Mantissa ws
  | withPoint {ws fs : List Char} (hne : ws ≠ []) (hw : Digits ws) (hf : Digits fs) :
      Mantissa (ws ++ '.' :: fs)
  | fromPoint {fs : List Char} (hne : fs ≠ []) (hf : Digits fs) : Mantissa ('.' :: fs)

/-- Nothing, or the letter `e` in either case, an optional sign and digits. -/
inductive OptionalPower : List Char → Prop where
  | absent : OptionalPower []
  | present {c : Char} {sign ds : List Char} (hc : c = 'e' ∨ c = 'E') (hs : OptionalSign sign)
      (hne : ds ≠ []) (hd : Digits ds) : OptionalPower (c :: (sign ++ ds))

/-- The words for what has no digits, in lower case. -/
def numeralWords : List (List Char) :=
  [['i', 'n', 'f'], ['i', 'n', 'f', 'i', 'n', 'i', 't', 'y'], ['n', 'a', 'n']]

/-- The numerals: an optional sign, and behind it one of the words in any case, or digits with an
optional power of ten. -/
inductive IsNumeral : List Char → Prop where
  | word {sign w : List Char} (hs : OptionalSign sign) (hw : w.map Char.toLower ∈ numeralWords) :
      IsNumeral (sign ++ w)
  | decimal {sign m p : List Char} (hs : OptionalSign sign) (hm : Mantissa m)
      (hp : OptionalPower p) : IsNumeral (sign ++ (m ++ p))

/-! ### Padding -/

theorem isPadding_iff (c : Char) : isPadding c = true ↔ WhiteSpace c := by
  simp only [isPadding, isBlank, WhiteSpace, Bool.and_eq_true, Bool.or_eq_true, Bool.not_eq_true',
    Bool.and_eq_false_iff, decide_eq_true_eq, decide_eq_false_iff_not, beq_iff_eq, List.mem_cons,
    List.not_mem_nil, or_false, exists_eq_or_imp, exists_eq_left]
  omega

/-- What is left of a text without white space at its ends is what trimming leaves. -/
theorem Stripped.eq_trimBy {cs core : List Char} (h : Stripped cs core) :
    core = trimBy isPadding cs := by
  have hkept (c : Char) (hc : ¬ WhiteSpace c) : isPadding c = false := by
    rwa [← isPadding_iff, Bool.not_eq_true] at hc
  obtain ⟨⟨before, after, rfl, hbefore, hafter⟩, hfirst, hlast⟩ := h
  rw [trimBy, List.dropWhile_append_of_pos fun c hc => (isPadding_iff c).2 (hbefore c hc)]
  by_cases hcore : core = []
  · have hnil : after.dropWhile isPadding = [] :=
      List.dropWhile_eq_nil_iff.2 fun c hc => (isPadding_iff c).2 (hafter c hc)
    simp [hcore, hnil]
  · have hfront : (core ++ after).dropWhile isPadding = core ++ after := by
      refine dropWhile_eq_self fun c hc => hkept c (hfirst c ?_)
      rwa [List.head?_append_of_ne_nil _ hcore] at hc
    have hback : core.reverse.dropWhile isPadding = core.reverse := by
      refine dropWhile_eq_self fun c hc => hkept c (hlast c ?_)
      rwa [List.head?_reverse] at hc
    rw [hfront, List.reverse_append, List.dropWhile_append_of_pos, hback, List.reverse_reverse]
    intro c hc
    exact (isPadding_iff c).2 (hafter c (List.mem_reverse.1 hc))

theorem not_whiteSpace_of_head?_dropWhile (cs : List Char) {c : Char}
    (h : (cs.dropWhile isPadding).head? = some c) : ¬ WhiteSpace c := by
  have hhead := List.head?_dropWhile_not isPadding cs
  rw [h] at hhead
  rw [← isPadding_iff, hhead]
  exact Bool.false_ne_true

theorem stripped_trimBy (cs : List Char) : Stripped cs (trimBy isPadding cs) := by
  have hpadding (ds : List Char) (c : Char) (hc : c ∈ ds.takeWhile isPadding) : WhiteSpace c :=
    (isPadding_iff c).1 (List.mem_takeWhile_imp hc)
  have hsplit : cs.dropWhile isPadding = trimBy isPadding cs ++
      ((cs.dropWhile isPadding).reverse.takeWhile isPadding).reverse := by
    rw [trimBy, ← List.reverse_append, List.takeWhile_append_dropWhile, List.reverse_reverse]
  refine ⟨⟨cs.takeWhile isPadding, ((cs.dropWhile isPadding).reverse.takeWhile isPadding).reverse,
    ?_, hpadding cs, fun c hc => hpadding _ c (List.mem_reverse.1 hc)⟩, fun c hc => ?_,
    fun c hc => ?_⟩
  · rw [← hsplit, List.takeWhile_append_dropWhile]
  · refine not_whiteSpace_of_head?_dropWhile cs ?_
    rw [hsplit, List.head?_append, hc]
    rfl
  · refine not_whiteSpace_of_head?_dropWhile (cs.dropWhile isPadding).reverse ?_
    rwa [trimBy, List.getLast?_reverse] at hc

/-! ### Digits of other scripts -/

theorem digit?_digitChar {d : Nat} (h : d < 10) : digit? d.digitChar = some d := by
  rw [digit?_of_isDigit (by simpa [Nat.isDigit_digitChar] using h),
    Nat.toNat_digitChar_of_lt_ten h, Nat.add_sub_cancel_left]

@[simp] theorem digit?_basicDigit (c : Char) : digit? (basicDigit c) = digit? c := by
  unfold basicDigit
  split
  · rename_i d hd
    rw [digit?_digitChar (digit?_lt hd), hd]
  · rfl

theorem isDigit_basicDigit {c : Char} {d : Nat} (h : digit? c = some d) :
    (basicDigit c).isDigit = true := by
  simpa [basicDigit, h, Nat.isDigit_digitChar] using digit?_lt h

theorem basicDigit_of_none {c : Char} (h : digit? c = none) : basicDigit c = c := by
  simp [basicDigit, h]

/-- A character that is no digit is what no other character becomes. -/
theorem basicDigit_eq_iff {c l : Char} (hl : digit? l = none) : basicDigit c = l ↔ c = l := by
  constructor
  · rintro rfl
    rw [digit?_basicDigit] at hl
    exact (basicDigit_of_none hl).symm
  · rintro rfl
    exact basicDigit_of_none hl

/-- No letter with another case is a digit. -/
theorem toLower_of_digit? {c : Char} {d : Nat} (h : digit? c = some d) : c.toLower = c := by
  obtain ⟨start, hmem, hstart⟩ := List.exists_of_findSome?_eq_some h
  have hzeros : ∀ start ∈ digitZeros, start = 48 ∨ 128 ≤ start := by decide
  have hle : start ≤ c.toNat ∧ c.toNat < start + 10 := by
    split at hstart
    · rename_i hb
      simpa using hb
    · cases hstart
  have hval : ¬ (65 ≤ c.val ∧ c.val ≤ 90) := by
    rintro ⟨hlow, hhigh⟩
    have hlow' : 65 ≤ c.toNat := hlow
    have hhigh' : c.toNat ≤ 90 := hhigh
    have := hzeros start hmem
    omega
  unfold Char.toLower
  exact dif_neg hval

theorem toLower_basicDigit_eq_iff {c l : Char} (hl : digit? l = none) :
    (basicDigit c).toLower = l ↔ c.toLower = l := by
  rcases hc : digit? c with _ | d
  · rw [basicDigit_of_none hc]
  · rw [toLower_of_isDigit (isDigit_basicDigit hc), toLower_of_digit? hc, basicDigit_eq_iff hl]

theorem map_toLower_basicDigit_eq_iff {cs w : List Char} (hw : ∀ l ∈ w, digit? l = none) :
    (cs.map basicDigit).map Char.toLower = w ↔ cs.map Char.toLower = w := by
  induction w generalizing cs with
  | nil => simp
  | cons l w ih =>
    obtain ⟨hl, hw⟩ := List.forall_mem_cons.1 hw
    rcases cs with _ | ⟨c, cs⟩
    · simp
    · simp only [List.map_cons, List.cons.injEq, toLower_basicDigit_eq_iff hl, ih hw]

theorem spanDigits_map (cs : List Char) :
    spanDigits (cs.map basicDigit) = ((spanDigits cs).1, (spanDigits cs).2.map basicDigit) := by
  induction cs with
  | nil => rfl
  | cons c cs ih =>
    rw [List.map_cons, spanDigits, spanDigits, digit?_basicDigit, ih]
    split <;> rfl

theorem splitSign_cons (c : Char) (cs : List Char) : splitSign (c :: cs) =
    if c = '-' then (true, cs) else if c = '+' then (false, cs) else (false, c :: cs) := by
  unfold splitSign
  split <;> simp_all

theorem splitSign_map (cs : List Char) :
    splitSign (cs.map basicDigit) = ((splitSign cs).1, (splitSign cs).2.map basicDigit) := by
  rcases cs with _ | ⟨c, cs⟩
  · rfl
  · rw [List.map_cons, splitSign_cons, splitSign_cons]
    simp only [basicDigit_eq_iff (show digit? '-' = none from rfl),
      basicDigit_eq_iff (show digit? '+' = none from rfl)]
    split_ifs <;> rfl

theorem fraction_cons (c : Char) (cs : List Char) :
    fraction (c :: cs) = if c = '.' then spanDigits cs else ([], c :: cs) := by
  unfold fraction
  split <;> simp_all

theorem fraction_map (cs : List Char) :
    fraction (cs.map basicDigit) = ((fraction cs).1, (fraction cs).2.map basicDigit) := by
  rcases cs with _ | ⟨c, cs⟩
  · rfl
  · rw [List.map_cons, fraction_cons, fraction_cons]
    simp only [basicDigit_eq_iff (show digit? '.' = none from rfl), spanDigits_map]
    split_ifs <;> rfl

theorem exponent?_map (cs : List Char) : exponent? (cs.map basicDigit) = exponent? cs := by
  rcases cs with _ | ⟨c, cs⟩
  · rfl
  · simp only [List.map_cons, exponent?, basicDigit_eq_iff (show digit? 'e' = none from rfl),
      basicDigit_eq_iff (show digit? 'E' = none from rfl), splitSign_map, spanDigits_map]
    rcases spanDigits (splitSign cs).2 with ⟨_ | ⟨d, ds⟩, _ | ⟨r, rs⟩⟩ <;> rfl

theorem decimal?_map (negative : Bool) (cs : List Char) :
    decimal? negative (cs.map basicDigit) = decimal? negative cs := by
  simp only [decimal?, spanDigits_map, fraction_map, exponent?_map]

/-- Parsing tries the words first, and then digits. -/
theorem unpadded?_eq_ite (cs : List Char) : unpadded? cs =
    if (splitSign cs).2.map Char.toLower = ['n', 'a', 'n'] then some (.nan (splitSign cs).1)
    else if (splitSign cs).2.map Char.toLower = ['i', 'n', 'f'] ∨
        (splitSign cs).2.map Char.toLower = ['i', 'n', 'f', 'i', 'n', 'i', 't', 'y'] then
      some (.infinity (splitSign cs).1)
    else decimal? (splitSign cs).1 (splitSign cs).2 := by
  unfold unpadded?
  simp only
  split <;> simp_all

/-- A numeral denotes the same number with its digits from whatever script. -/
theorem unpadded?_map (cs : List Char) : unpadded? (cs.map basicDigit) = unpadded? cs := by
  have hletters : (numeralWords.all fun w => w.all fun l => (digit? l).isNone) = true := by decide
  have hword (w : List Char) (hw : w ∈ numeralWords) :
      ((splitSign cs).2.map basicDigit).map Char.toLower = w ↔
        (splitSign cs).2.map Char.toLower = w := by
    refine map_toLower_basicDigit_eq_iff fun l hl => ?_
    simpa using List.all_eq_true.1 (List.all_eq_true.1 hletters w hw) l hl
  rw [unpadded?_eq_ite, unpadded?_eq_ite, splitSign_map]
  simp only [decimal?_map, hword ['n', 'a', 'n'] (by decide), hword ['i', 'n', 'f'] (by decide),
    hword ['i', 'n', 'f', 'i', 'n', 'i', 't', 'y'] (by decide)]

theorem isSome_unpadded? (cs : List Char) : (unpadded? cs).isSome = true ↔
    (splitSign cs).2.map Char.toLower ∈ numeralWords ∨
      (decimal? (splitSign cs).1 (splitSign cs).2).isSome = true := by
  rw [unpadded?_eq_ite]
  split_ifs <;> simp_all [numeralWords]

/-! ### What is parsed is what the grammar has -/

theorem exists_sign (cs : List Char) :
    ∃ sign, OptionalSign sign ∧ cs = sign ++ (splitSign cs).2 := by
  unfold splitSign
  split
  · exact ⟨['-'], .minus, rfl⟩
  · exact ⟨['+'], .plus, rfl⟩
  · exact ⟨[], .absent, rfl⟩

theorem OptionalSign.map_basicDigit {sign : List Char} (h : OptionalSign sign) :
    sign.map basicDigit = sign := by
  rcases h with _ | _ | _ <;> rfl

/-- The digits that a span takes from the front, as they are written. -/
theorem exists_digits (cs : List Char) : ∃ ds, cs = ds ++ (spanDigits cs).2 ∧
    Digits (ds.map basicDigit) ∧ (ds = [] ↔ (spanDigits cs).1 = []) := by
  induction cs with
  | nil => exact ⟨[], rfl, nofun, by simp [spanDigits]⟩
  | cons c cs ih =>
    obtain ⟨ds, hsplit, hds, -⟩ := ih
    rw [spanDigits]
    rcases hc : digit? c with _ | d
    · exact ⟨[], rfl, nofun, by simp⟩
    · refine ⟨c :: ds, congrArg (c :: ·) hsplit, ?_, by simp⟩
      exact List.forall_mem_cons.2 ⟨isDigit_basicDigit hc, hds⟩

theorem optionalPower_of_exponent? {cs : List Char} (h : (exponent? cs).isSome = true) :
    OptionalPower (cs.map basicDigit) := by
  rcases cs with _ | ⟨c, cs⟩
  · exact .absent
  · rw [exponent?] at h
    split at h
    · rename_i hc
      split at h
      · rename_i d ds hspan
        obtain ⟨sign, hsign, hcs⟩ := exists_sign cs
        obtain ⟨es, hsplit, hes, hnil⟩ := exists_digits (splitSign cs).2
        rw [hspan, List.append_nil] at hsplit
        rw [hspan] at hnil
        have hletter : c = 'e' ∨ c = 'E' := by simpa using hc
        have hbasic : basicDigit c = c := by rcases hletter with rfl | rfl <;> rfl
        rw [hcs, hsplit, List.map_cons, List.map_append, hsign.map_basicDigit, hbasic]
        refine .present hletter hsign ?_ hes
        simp [hnil]
      · simp at h
    · simp at h

theorem isSome_decimal? (negative : Bool) (cs : List Char) :
    (decimal? negative cs).isSome = true ↔
      (spanDigits cs).1 ++ (fraction (spanDigits cs).2).1 ≠ [] ∧
        (exponent? (fraction (spanDigits cs).2).2).isSome = true := by
  unfold decimal?
  simp only
  split <;> simp_all

theorem mantissa_of_decimal? {negative : Bool} {cs : List Char}
    (h : (decimal? negative cs).isSome = true) :
    ∃ m p, cs.map basicDigit = m ++ p ∧ Mantissa m ∧ OptionalPower p := by
  obtain ⟨hne, hpower⟩ := (isSome_decimal? negative cs).1 h
  have hp := optionalPower_of_exponent? hpower
  obtain ⟨ws, hcs, hws, hwnil⟩ := exists_digits cs
  generalize (spanDigits cs).2 = rest at *
  generalize (spanDigits cs).1 = whole at *
  by_cases hpoint : ∃ tail, rest = '.' :: tail
  · obtain ⟨tail, rfl⟩ := hpoint
    obtain ⟨fs, htail, hfs, hfnil⟩ := exists_digits tail
    have hfraction : fraction ('.' :: tail) = spanDigits tail := rfl
    rw [hfraction] at hne hp
    have htext : cs.map basicDigit = (ws.map basicDigit ++ '.' :: fs.map basicDigit) ++
        (spanDigits tail).2.map basicDigit := by
      conv_lhs => rw [hcs, htail]
      simp [show basicDigit '.' = '.' from rfl]
    by_cases hw : ws = []
    · -- without digits in front of the point there are some behind it
      have hf : fs ≠ [] := by
        rw [Ne, hfnil]
        simpa [hwnil.1 hw] using hne
      exact ⟨_, _, by rw [htext, hw]; rfl, .fromPoint (by simpa using hf) hfs, hp⟩
    · exact ⟨_, _, htext, .withPoint (by simpa using hw) hws hfs, hp⟩
  · have hfraction : fraction rest = ([], rest) := by
      unfold fraction
      split
      · exact absurd ⟨_, rfl⟩ hpoint
      · rfl
    rw [hfraction, List.append_nil] at hne
    rw [hfraction] at hp
    have hw : ws ≠ [] := mt hwnil.1 hne
    refine ⟨ws.map basicDigit, rest.map basicDigit, ?_, .whole (by simpa using hw) hws, hp⟩
    rw [hcs, List.map_append]

theorem isNumeral_of_unpadded? {cs : List Char} (h : (unpadded? cs).isSome = true) :
    IsNumeral (cs.map basicDigit) := by
  rw [← unpadded?_map, isSome_unpadded?, splitSign_map] at h
  obtain ⟨sign, hsign, hcs⟩ := exists_sign cs
  rw [hcs, List.map_append, hsign.map_basicDigit]
  rcases h with hword | hdecimal
  · exact .word hsign hword
  · rw [decimal?_map] at hdecimal
    obtain ⟨m, p, htext, hm, hp⟩ := mantissa_of_decimal? hdecimal
    rw [htext]
    exact .decimal hsign hm hp

/-! ### What the grammar has is parsed -/

theorem OptionalSign.splitSign_append {sign body : List Char} (h : OptionalSign sign)
    (hbody : ∀ c ∈ body.head?, c ≠ '-' ∧ c ≠ '+') : (splitSign (sign ++ body)).2 = body := by
  rcases h with _ | _ | _
  · rcases body with _ | ⟨c, body⟩
    · rfl
    · obtain ⟨hminus, hplus⟩ := hbody c rfl
      rw [List.nil_append, splitSign_cons, if_neg hminus, if_neg hplus]
  · rfl
  · rfl

theorem OptionalPower.spanDigits_eq {p : List Char} (h : OptionalPower p) :
    spanDigits p = ([], p) := by
  rcases h with _ | ⟨rfl | rfl, _, _, _⟩ <;> rfl

theorem OptionalPower.fraction_eq {p : List Char} (h : OptionalPower p) :
    fraction p = ([], p) := by
  rcases h with _ | ⟨rfl | rfl, _, _, _⟩ <;> rfl

theorem OptionalPower.isSome_exponent? {p : List Char} (h : OptionalPower p) :
    (exponent? p).isSome = true := by
  rcases h with _ | ⟨hc, hs, hne, hd⟩
  · rfl
  · rename_i c sign ds
    obtain ⟨d, ds, rfl⟩ := List.exists_cons_of_ne_nil hne
    have hdigit := hd d List.mem_cons_self
    have hsplit : (splitSign (sign ++ d :: ds)).2 = d :: ds := by
      refine hs.splitSign_append fun x hx => ?_
      cases hx
      exact ⟨ne_of_isDigit hdigit rfl, ne_of_isDigit hdigit rfl⟩
    rw [exponent?, if_pos (by simpa using hc), hsplit, hd.spanDigits_eq]
    rfl

theorem OptionalPower.fraction_point {fs p : List Char} (h : OptionalPower p) (hf : Digits fs) :
    fraction ('.' :: (fs ++ p)) = (values fs, p) :=
  hf.spanDigits_append h.spanDigits_eq

theorem Mantissa.head {m : List Char} (h : Mantissa m) :
    ∃ c tail, m = c :: tail ∧ (c.isDigit = true ∨ c = '.') := by
  rcases h with ⟨hne, hw⟩ | ⟨hne, hw, hf⟩ | ⟨hne, hf⟩
  · obtain ⟨w, ws, rfl⟩ := List.exists_cons_of_ne_nil hne
    exact ⟨w, ws, rfl, .inl (hw w List.mem_cons_self)⟩
  · rename_i ws fs
    obtain ⟨w, ws, rfl⟩ := List.exists_cons_of_ne_nil hne
    exact ⟨w, ws ++ '.' :: fs, rfl, .inl (hw w List.mem_cons_self)⟩
  · exact ⟨'.', _, rfl, .inr rfl⟩

theorem Mantissa.isSome_decimal? {m p : List Char} (hm : Mantissa m) (hp : OptionalPower p)
    (negative : Bool) : (decimal? negative (m ++ p)).isSome = true := by
  have hvalues {cs : List Char} (h : cs ≠ []) : values cs ≠ [] := by simpa [values] using h
  rw [Number.isSome_decimal?]
  rcases hm with ⟨hne, hw⟩ | ⟨hne, hw, hf⟩ | ⟨hne, hf⟩
  · rw [hw.spanDigits_append hp.spanDigits_eq]
    simp only [hp.fraction_eq, List.append_nil]
    exact ⟨hvalues hne, hp.isSome_exponent?⟩
  · rename_i ws fs
    have hspan : spanDigits (ws ++ '.' :: fs ++ p) = (values ws, '.' :: (fs ++ p)) := by
      rw [List.append_assoc]
      exact hw.spanDigits_append rfl
    rw [hspan]
    simp only [hp.fraction_point hf]
    exact ⟨List.append_ne_nil_of_left_ne_nil (hvalues hne) _, hp.isSome_exponent?⟩
  · rename_i fs
    have hspan : spanDigits ('.' :: fs ++ p) = ([], '.' :: (fs ++ p)) := rfl
    rw [hspan]
    simp only [hp.fraction_point hf]
    exact ⟨hvalues hne, hp.isSome_exponent?⟩

theorem IsNumeral.isSome_unpadded? {cs : List Char} (h : IsNumeral cs) :
    (unpadded? cs).isSome = true := by
  rw [Number.isSome_unpadded?]
  rcases h with ⟨hs, hw⟩ | ⟨hs, hm, hp⟩
  · rename_i sign w
    left
    rwa [hs.splitSign_append]
    -- no word starts with a sign, whatever the case of its letters
    intro c hc
    have hletters : (numeralWords.all fun w => w.all (·.isAlpha)) = true := by decide
    have hletter : c.toLower.isAlpha = true :=
      List.all_eq_true.1 (List.all_eq_true.1 hletters _ hw) _
        (List.mem_map_of_mem (List.mem_of_mem_head? hc))
    constructor <;> rintro rfl <;> exact absurd hletter (by decide)
  · right
    obtain ⟨c, tail, rfl, hc⟩ := hm.head
    rw [hs.splitSign_append]
    · exact hm.isSome_decimal? hp _
    · intro x hx
      cases hx
      rcases hc with hdigit | rfl
      · exact ⟨ne_of_isDigit hdigit rfl, ne_of_isDigit hdigit rfl⟩
      · exact ⟨by decide, by decide⟩

/-- A text without padding is parsed just if the grammar has it, once its digits are basic ones. -/
theorem isSome_unpadded?_iff (cs : List Char) :
    (unpadded? cs).isSome = true ↔ IsNumeral (cs.map basicDigit) := by
  refine ⟨isNumeral_of_unpadded?, fun h => ?_⟩
  rw [← unpadded?_map]
  exact h.isSome_unpadded?

/-- The texts that denote numbers, by the grammar. -/
def DenotesNumber (text : String) : Prop :=
  ∃ core, Stripped text.toList core ∧ IsNumeral (core.map basicDigit)

theorem isSome_read?_iff (text : String) : (read? text).isSome = true ↔ DenotesNumber text := by
  rw [read?, Option.isSome_map, Numeral.parse?, isSome_unpadded?_iff]
  constructor
  · intro h
    exact ⟨_, stripped_trimBy text.toList, h⟩
  · rintro ⟨core, hcore, h⟩
    rwa [← hcore.eq_trimBy]

end Lisplet.Number

namespace Lisplet

open Number

/-- Words are classified exactly. A word is a number if and only if it has no underscore and
denotes a number by the grammar of numerals; and if and only if that is not so, it is the symbol
whose name is the word itself. -/
theorem word_is_number_iff_numeral (word : String) :
    ((∃ x, atom word = .number x) ↔ '_' ∉ word.toList ∧ DenotesNumber word) ∧
      (atom word = .symbol word ↔ ¬ ('_' ∉ word.toList ∧ DenotesNumber word)) := by
  rw [← isSome_read?_iff]
  unfold atom
  by_cases hunderscore : '_' ∈ word.toList
  · simp [hunderscore]
  · rcases hread : read? word with _ | x <;> simp [hunderscore]

example : (["1.", ".5", "+.5e-3", "-Infinity", "\u0663E\u0662", "\u00a07\n"].all fun word =>
    (Numeral.parse? word).isSome) = true := by decide

example : (["", ".", "e5", "1e", "+", "--1", "1.2.3", "1 2", "\x1c5"].all fun word =>
    (Numeral.parse? word).isNone) = true := by decide

end Lisplet
