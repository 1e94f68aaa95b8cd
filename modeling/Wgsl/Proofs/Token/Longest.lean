import Mathlib
import Wgsl.Proofs.Token.Greedy

/-! # The longest literal

The literals are regular languages: digits with a letter, points between digits, exponents. The
recognizers are greedy and ordered, which costs nothing here: no letter that carries digits on begins
a suffix or an exponent, and only the first two forms of a float have a point.

* `floats`, `integers`, `numerals`: the languages.
* `longest_decimalFloat`, `longest_hexFloat`, `longest_hexInt`, `longest_decimalInt`: each recognizer
  finds the longest word of its language.
* `scanNumber_longest`: the scanned literal is the longest of all, and a float exactly when it is a
  word of the languages of floats.
-/

namespace Wgsl.Numeral
open scoped Computability
set_option autoImplicit false

variable {a : Recognizer} {rs : List Recognizer} {L M : Language Char} {p : Char → Bool}
  {cs : List Char} {c : Char}

/-! ## The languages of literals -/

/-- A letter of the class, maybe a sign, and decimal digits. -/
def scale (p : Char → Bool) : Language Char :=
  letter p * (maybe (letter fun c => c == '+' || c == '-') * run1 isDigit)

def exponents : Language Char := scale fun c => c == 'e' || c == 'E'

def hexExponents : Language Char := scale fun c => c == 'p' || c == 'P'

def floatSuffixes : Language Char := letter fun c => c == 'f' || c == 'h'

def intSuffixes : Language Char := letter fun c => c == 'i' || c == 'u'

def points : Language Char := letter (· == '.')

/-- `0x` or `0X`. -/
def hexMarks : Language Char := letter (· == '0') * letter fun c => c == 'x' || c == 'X'

/-- A point with digits behind it and maybe in front of it, then an ending. -/
def fractions (p : Char → Bool) (ending : Language Char) : Language Char :=
  (letter p)∗ * (points * (run1 p * ending))

/-- A point with digits in front of it and maybe behind it, then an ending. -/
def wholes (p : Char → Bool) (ending : Language Char) : Language Char :=
  run1 p * (points * ((letter p)∗ * ending))

def decimalEndings : Language Char := maybe exponents * maybe floatSuffixes

/-- An exponent, which alone a suffix may follow. -/
def scaled : Language Char := hexExponents * maybe floatSuffixes

/-- `.5 1.5e3f`, `1. 1.e3f`, `1e3f`, `1f`. -/
def decimalFloats : Language Char :=
  fractions isDigit decimalEndings + (wholes isDigit decimalEndings +
    (run1 isDigit * (exponents * maybe floatSuffixes) + run1 isDigit * floatSuffixes))

/-- `0x.8 0x1.8p3f`, `0x1. 0x1.p3f`, `0x1p3f`. -/
def hexFloats : Language Char :=
  hexMarks * fractions isHexDigit (maybe scaled) + (hexMarks * wholes isHexDigit (maybe scaled) +
    hexMarks * (run1 isHexDigit * scaled))

/-- `0x1 0x1u`. -/
def hexInts : Language Char := hexMarks * (run1 isHexDigit * maybe intSuffixes)

/-- `1 1u`. -/
def decimalInts : Language Char := run1 isDigit * maybe intSuffixes

def floats : Language Char := decimalFloats + hexFloats

def integers : Language Char := decimalInts + hexInts

def numerals : Language Char := integers + floats

/-! ## Letters of the parts -/

section Parts

variable {E : Language Char}

theorem apart_sign :
    Disjoint (follows (maybe (letter fun c => c == '+' || c == '-'))) (firsts (run1 isDigit)) := by
  refine Set.disjoint_left.2 fun c hc hc' => ?_
  have hdigit := firsts_run1 hc'
  have hsign := firsts_letter ((follows_maybe hc).resolve_right follows_letter)
  rw [Bool.or_eq_true, beq_iff_eq, beq_iff_eq] at hsign
  obtain rfl | rfl := hsign <;> cases hdigit

theorem firsts_scale (h : c ∈ firsts (scale p)) : p c = true :=
  firsts_letter ((firsts_mul h).resolve_right fun h => nil_notMem_letter h.1)

theorem follows_scale (h : c ∈ follows (scale p)) : isDigit c = true := by
  have h := (follows_mul apart_letter h).resolve_right fun h => follows_letter h.2
  exact follows_run1 ((follows_mul apart_sign h).resolve_right fun h => (mem_run1.1 h.1).1 rfl)

theorem firsts_points (h : c ∈ firsts (points * M)) : c ∈ ['.'] := by
  have h := firsts_letter ((firsts_mul h).resolve_right fun h => nil_notMem_letter h.1)
  exact List.mem_singleton.2 (beq_iff_eq.1 h)

theorem firsts_exponents (h : c ∈ firsts exponents) : c ∈ ['e', 'E'] := by
  simpa using firsts_scale h

theorem firsts_floatSuffixes (h : c ∈ firsts floatSuffixes) : c ∈ ['f', 'h'] := by
  simpa using firsts_letter h

theorem firsts_intSuffixes (h : c ∈ firsts intSuffixes) : c ∈ ['i', 'u'] := by
  simpa using firsts_letter h

theorem firsts_decimalEndings (h : c ∈ firsts decimalEndings) : c ∈ ['e', 'E', 'f', 'h'] := by
  obtain h | ⟨-, h⟩ := firsts_mul h
  · exact List.mem_append_left ['f', 'h'] (firsts_exponents (firsts_maybe h))
  · exact List.mem_append_right ['e', 'E'] (firsts_floatSuffixes (firsts_maybe h))

theorem nil_notMem_scale : [] ∉ scale p := by
  intro h
  obtain ⟨u, hu, v, -, huv⟩ := Language.mem_mul.1 h
  exact nil_notMem_letter ((List.append_eq_nil_iff.1 huv).1 ▸ hu)

theorem firsts_scaled (h : c ∈ firsts scaled) : c ∈ ['p', 'P'] := by
  simpa using firsts_scale ((firsts_mul h).resolve_right fun h => nil_notMem_scale h.1)

theorem apart_hexMarks : Disjoint (follows hexMarks) (firsts M) :=
  Set.disjoint_left.2 fun _ h => ((follows_mul apart_letter h).elim follows_letter fun h =>
    follows_letter h.2).elim

/-! ## Each recognizer finds the longest word of its language -/

theorem longest_scale (p : Char → Bool) :
    Longest (sequence [one p, optional sign, many1 isDigit]) (scale p) :=
  (Longest.one p).sequence_cons
    ((Longest.one _).optional.sequence_cons (Longest.many1 _).sequence_one apart_sign) apart_letter

theorem longest_optional_floatSuffix :
    Longest (sequence [optional floatSuffix]) (maybe floatSuffixes) :=
  (Longest.one _).optional.sequence_one

theorem apart_scale_floatSuffixes : Disjoint (follows (scale p)) (firsts (maybe floatSuffixes)) :=
  apart_of_firsts ['f', 'h'] (fun _ => follows_scale) (fun _ h => firsts_floatSuffixes (firsts_maybe h))
    (by decide)

theorem longest_scaled : Longest (sequence [hexExponent, optional floatSuffix]) scaled :=
  (longest_scale _).sequence_cons longest_optional_floatSuffix apart_scale_floatSuffixes

theorem longest_decimalEndings :
    Longest (sequence [optional exponent, optional floatSuffix]) decimalEndings := by
  refine (longest_scale _).optional.sequence_cons longest_optional_floatSuffix
    (apart_of_firsts (p := fun c => ['e', 'E'].contains c || isDigit c) ['f', 'h'] (fun c h => ?_)
      (fun c h => firsts_floatSuffixes (firsts_maybe h)) (by decide))
  obtain h | h := follows_maybe h
  · rw [List.contains_iff_mem.2 (firsts_exponents h), Bool.true_or]
  · rw [follows_scale h, Bool.or_true]

section Pointed

variable (hpoint : p '.' = false) (letters : List Char) (hE : ∀ c ∈ firsts E, c ∈ letters)
  (hletters : letters.any p = false)

theorem apart_points (hpoint : p '.' = false) (hL : ∀ c ∈ follows L, p c = true) : Disjoint (follows L) (firsts (points * M)) :=
  apart_of_firsts ['.'] hL (fun _ => firsts_points) (by simp [hpoint])

include hpoint hE hletters

theorem longest_fractions (h : Longest (sequence rs) E) :
    Longest (sequence (many p :: point :: many1 p :: rs)) (fractions p E) :=
  (Longest.many p).sequence_cons
    ((Longest.one _).sequence_cons
      ((Longest.many1 p).sequence_cons h (apart_of_firsts letters (fun _ => follows_run1) hE hletters))
      apart_letter)
    (apart_points hpoint fun _ => follows_star)

theorem longest_wholes (h : Longest (sequence rs) E) :
    Longest (sequence (many1 p :: point :: many p :: rs)) (wholes p E) :=
  (Longest.many1 p).sequence_cons
    ((Longest.one _).sequence_cons
      ((Longest.many p).sequence_cons h (apart_of_firsts letters (fun _ => follows_star) hE hletters))
      apart_letter)
    (apart_points hpoint fun _ => follows_run1)

end Pointed

/-! ## Words that are covered -/

theorem mem_point : ['.'] ∈ points := ⟨'.', rfl, rfl⟩

/-- The first points of two words in front of one text stand at the same place. -/
theorem split_point {s s' x y : List Char} (hs : '.' ∉ s) (hs' : '.' ∉ s')
    (h : s ++ '.' :: x <+: s' ++ '.' :: y) : s = s' ∧ x <+: y := by
  induction s generalizing s' with
  | nil =>
    cases s' with
    | nil => exact ⟨rfl, (List.cons_prefix_cons.1 h).2⟩
    | cons d s' => exact absurd (List.mem_cons.2 (.inl (List.cons_prefix_cons.1 h).1)) hs'
  | cons c s ih =>
    cases s' with
    | nil => exact absurd (List.mem_cons.2 (.inl (List.cons_prefix_cons.1 h).1.symm)) hs
    | cons d s' =>
      obtain ⟨rfl, htails⟩ := List.cons_prefix_cons.1 h
      obtain ⟨rfl, hxy⟩ := ih (fun hc => hs (List.mem_cons_of_mem c hc))
        (fun hc => hs' (List.mem_cons_of_mem c hc)) htails
      exact ⟨rfl, hxy⟩

theorem mem_fractions {w : List Char} : w ∈ fractions p E ↔ ∃ s d e, (∀ c ∈ s, p c = true) ∧ d ≠ [] ∧
    (∀ c ∈ d, p c = true) ∧ e ∈ E ∧ w = s ++ '.' :: (d ++ e) := by
  constructor
  · intro h
    obtain ⟨s, hs, _, hbehind, rfl⟩ := Language.mem_mul.1 h
    obtain ⟨_, ⟨c, hc, rfl⟩, _, hdigits, rfl⟩ := Language.mem_mul.1 hbehind
    obtain ⟨d, hd, e, he, rfl⟩ := Language.mem_mul.1 hdigits
    obtain rfl : c = '.' := beq_iff_eq.1 hc
    exact ⟨s, d, e, mem_star.1 hs, (mem_run1.1 hd).1, (mem_run1.1 hd).2, he, rfl⟩
  · rintro ⟨s, d, e, hs, hne, hd, he, rfl⟩
    exact Language.append_mem_mul (mem_star.2 hs) (Language.append_mem_mul mem_point
      (Language.append_mem_mul (mem_run1.2 ⟨hne, hd⟩) he))

theorem mem_wholes {w : List Char} : w ∈ wholes p E ↔ ∃ s d e, s ≠ [] ∧ (∀ c ∈ s, p c = true) ∧
    (∀ c ∈ d, p c = true) ∧ e ∈ E ∧ w = s ++ '.' :: (d ++ e) := by
  constructor
  · intro h
    obtain ⟨s, hs, _, hbehind, rfl⟩ := Language.mem_mul.1 h
    obtain ⟨_, ⟨c, hc, rfl⟩, _, hdigits, rfl⟩ := Language.mem_mul.1 hbehind
    obtain ⟨d, hd, e, he, rfl⟩ := Language.mem_mul.1 hdigits
    obtain rfl : c = '.' := beq_iff_eq.1 hc
    exact ⟨s, d, e, (mem_run1.1 hs).1, (mem_run1.1 hs).2, mem_star.1 hd, he, rfl⟩
  · rintro ⟨s, d, e, hne, hs, hd, he, rfl⟩
    exact Language.append_mem_mul (mem_run1.2 ⟨hne, hs⟩) (Language.append_mem_mul mem_point
      (Language.append_mem_mul (mem_star.2 hd) he))

/-- Digits that stand behind the point in front of the text stand there in every longer word. -/
theorem covers_wholes (hpoint : p '.' = false) (letters : List Char) (hE : ∀ c ∈ firsts E, c ∈ letters)
    (hletters : letters.any p = false) : Covers (fractions p E) (wholes p E) := by
  intro u hu w hw hpre
  obtain ⟨s, d, e, hs, hne, hd, -, rfl⟩ := mem_fractions.1 hu
  obtain ⟨s', d', e', -, hs', hd', he', rfl⟩ := mem_wholes.1 hw
  have hfree : ∀ s : List Char, (∀ c ∈ s, p c = true) → '.' ∉ s := fun s hs hc => by
    rw [hs '.' hc] at hpoint
    cases hpoint
  obtain ⟨rfl, hbehind⟩ := split_point (hfree s hs) (hfree s' hs') hpre
  refine mem_fractions.2 ⟨s, d', e', hs', ?_, hd', he', rfl⟩
  rintro rfl
  obtain ⟨c, d, rfl⟩ := List.exists_cons_of_ne_nil hne
  cases e' with
  | nil => cases List.prefix_nil.1 hbehind
  | cons c' e' =>
    obtain rfl : c = c' := (List.cons_prefix_cons.1 hbehind).1
    exact List.any_eq_false.1 hletters c (hE c ⟨e', he'⟩) (hd c List.mem_cons_self)

theorem lacks_scale {x : Char} (h : p x = false) (hsign : (x == '+' || x == '-') = false)
    (hdigit : isDigit x = false) : Lacks x (scale p) :=
  (lacks_letter h).mul ((lacks_letter hsign).maybe.mul (lacks_run1 hdigit))

theorem point_mem_fractions {w : List Char} (h : w ∈ fractions p E) : ∃ x ∈ ['.'], x ∈ w := by
  obtain ⟨s, d, e, -, -, -, -, rfl⟩ := mem_fractions.1 h
  exact ⟨'.', List.mem_singleton_self _, by simp⟩

theorem point_mem_wholes {w : List Char} (h : w ∈ wholes p E) : ∃ x ∈ ['.'], x ∈ w := by
  obtain ⟨s, d, e, -, -, -, -, rfl⟩ := mem_wholes.1 h
  exact ⟨'.', List.mem_singleton_self _, by simp⟩

/-! ## The four recognizers -/

theorem longest_optional_intSuffix : Longest (sequence [optional intSuffix]) (maybe intSuffixes) :=
  (Longest.one _).optional.sequence_one

theorem longest_decimalInt : Longest decimalInt decimalInts :=
  (Longest.many1 isDigit).sequence_cons longest_optional_intSuffix
    (apart_of_firsts ['i', 'u'] (fun _ => follows_run1)
      (fun _ h => firsts_intSuffixes (firsts_maybe h)) (by decide))

theorem longest_hexMark : Longest hexMark hexMarks :=
  (Longest.one _).sequence_cons (Longest.one _).sequence_one apart_letter

theorem length_hexMarks : ∀ w ∈ hexMarks, w.length = 2 := by
  intro w hw
  obtain ⟨_, ⟨c, -, rfl⟩, _, ⟨d, -, rfl⟩, rfl⟩ := Language.mem_mul.1 hw
  rfl

theorem longest_hexInt : Longest hexInt hexInts :=
  longest_hexMark.sequence_cons
    ((Longest.many1 isHexDigit).sequence_cons longest_optional_intSuffix
      (apart_of_firsts ['i', 'u'] (fun _ => follows_run1)
        (fun _ h => firsts_intSuffixes (firsts_maybe h)) (by decide)))
    apart_hexMarks

theorem longest_decimalFloat : Longest decimalFloat decimalFloats := by
  have power : Longest (sequence [many1 isDigit, exponent, optional floatSuffix])
      (run1 isDigit * (exponents * maybe floatSuffixes)) :=
    (Longest.many1 isDigit).sequence_cons
      ((longest_scale _).sequence_cons longest_optional_floatSuffix apart_scale_floatSuffixes)
      (apart_of_firsts ['e', 'E'] (fun _ => follows_run1)
        (fun _ h => firsts_exponents ((firsts_mul h).resolve_right fun h => nil_notMem_scale h.1))
        (by decide))
  have suffixed : Longest (sequence [many1 isDigit, floatSuffix]) (run1 isDigit * floatSuffixes) :=
    (Longest.many1 isDigit).sequence_cons (Longest.one _).sequence_one
      (apart_of_firsts ['f', 'h'] (fun _ => follows_run1) (fun _ => firsts_floatSuffixes) (by decide))
  -- only the first two forms have a point, and only the third has an `e`
  have lacksPower : Lacks '.' (run1 isDigit * (exponents * maybe floatSuffixes)) :=
    (lacks_run1 (by decide)).mul ((lacks_scale (by decide) (by decide) (by decide)).mul
      (lacks_letter (by decide)).maybe)
  have lacksSuffixed : ∀ x, isDigit x = false → (x == 'f' || x == 'h') = false →
      Lacks x (run1 isDigit * floatSuffixes) := fun x hdigit hsuffix =>
    (lacks_run1 hdigit).mul (lacks_letter hsuffix)
  have covers : ∀ {L : Language Char}, (∀ u ∈ L, ∃ x ∈ ['.'], x ∈ u) → Covers L
      (run1 isDigit * (exponents * maybe floatSuffixes) + run1 isDigit * floatSuffixes) := fun hL =>
    (Covers.of_lacks ['.'] hL (List.forall_mem_singleton.2 lacksPower)).add (Covers.of_lacks ['.'] hL
      (List.forall_mem_singleton.2 (lacksSuffixed '.' (by decide) (by decide))))
  have coversSuffixed : Covers (run1 isDigit * (exponents * maybe floatSuffixes))
      (run1 isDigit * floatSuffixes) := by
    refine Covers.of_lacks ['e', 'E'] (fun u hu => mem_mul_right (fun v hv => ?_) hu) ?_
    · obtain ⟨w, hw, t, -, rfl⟩ := Language.mem_mul.1 hv
      obtain ⟨_, ⟨c, hc, rfl⟩, x, -, rfl⟩ := Language.mem_mul.1 hw
      exact ⟨c, by simpa using hc, by simp⟩
    · simp only [List.mem_cons, List.not_mem_nil, or_false, forall_eq_or_imp, forall_eq]
      exact ⟨lacksSuffixed 'e' (by decide) (by decide), lacksSuffixed 'E' (by decide) (by decide)⟩
  have fraction := longest_fractions (p := isDigit) (by decide) _
    (fun _ => firsts_decimalEndings) (by decide) longest_decimalEndings
  have whole := longest_wholes (p := isDigit) (by decide) _
    (fun _ => firsts_decimalEndings) (by decide) longest_decimalEndings
  have coversWhole := covers_wholes (p := isDigit) (by decide) _
    (fun _ => firsts_decimalEndings) (by decide)
  exact fraction.firstOf_cons
    (whole.firstOf_cons (power.firstOf_cons suffixed.firstOf_one coversSuffixed)
      (covers fun _ => point_mem_wholes))
    (coversWhole.add (covers fun _ => point_mem_fractions))

theorem longest_hexFloat : Longest hexFloat hexFloats := by
  have ending : Longest (sequence [optional (sequence [hexExponent, optional floatSuffix])])
      (maybe scaled) := longest_scaled.optional.sequence_one
  have power : Longest (sequence [hexMark, many1 isHexDigit, sequence [hexExponent, optional floatSuffix]])
      (hexMarks * (run1 isHexDigit * scaled)) :=
    longest_hexMark.sequence_cons
      ((Longest.many1 isHexDigit).sequence_cons longest_scaled.sequence_one
        (apart_of_firsts ['p', 'P'] (fun _ => follows_run1) (fun _ => firsts_scaled) (by decide)))
      apart_hexMarks
  have firstsEnding : ∀ c ∈ firsts (maybe scaled), c ∈ ['p', 'P'] := fun _ h =>
    firsts_scaled (firsts_maybe h)
  have lacksPower : Lacks '.' (hexMarks * (run1 isHexDigit * scaled)) :=
    ((lacks_letter (by decide)).mul (lacks_letter (by decide))).mul ((lacks_run1 (by decide)).mul
      ((lacks_scale (by decide) (by decide) (by decide)).mul (lacks_letter (by decide)).maybe))
  have covers : ∀ {L : Language Char}, (∀ u ∈ L, ∃ x ∈ ['.'], x ∈ u) →
      Covers (hexMarks * L) (hexMarks * (run1 isHexDigit * scaled)) := fun hL =>
    Covers.of_lacks ['.'] (fun _ => mem_mul_right hL) (List.forall_mem_singleton.2 lacksPower)
  have fraction := longest_hexMark.sequence_cons (longest_fractions (p := isHexDigit) (by decide) _
    firstsEnding (by decide) ending) apart_hexMarks
  have whole := longest_hexMark.sequence_cons (longest_wholes (p := isHexDigit) (by decide) _
    firstsEnding (by decide) ending) apart_hexMarks
  have coversWhole := Covers.mul_left length_hexMarks (covers_wholes (p := isHexDigit) (by decide) _
    firstsEnding (by decide))
  exact fraction.firstOf_cons (whole.firstOf_cons power.firstOf_one (covers fun _ => point_mem_wholes))
    (coversWhole.add (covers fun _ => point_mem_fractions))

end Parts

/-! ## The longest of the four -/

/-- The literals that the recognizers find, in the order of the languages. -/
def candidates (cs : List Char) : List Match :=
  languages.filterMap fun l => (l.2 cs).map fun taken => ⟨l.1, taken.1, taken.2⟩

theorem scanNumber_eq (cs : List Char) : scanNumber cs = (candidates cs).foldl longer none := by
  rw [candidates, List.foldl_filterMap, scanNumber]
  congr 1
  funext best l
  obtain ⟨kind, r⟩ := l
  cases hr : r cs with
  | none => simp only [hr, Option.map_none]
  | some taken => simp only [hr, Option.map_some]

/-- The longest match is kept, the first of several. -/
theorem foldl_longer {ms : List Match} (hne : ms ≠ []) : ∃ before m after, ms = before ++ m :: after ∧
    ms.foldl longer none = some m ∧ (∀ x ∈ before, x.lexeme.length < m.lexeme.length) ∧
    ∀ x ∈ after, x.lexeme.length ≤ m.lexeme.length := by
  induction ms using List.reverseRecOn with
  | nil => exact absurd rfl hne
  | append_singleton ms x ih =>
    rw [List.foldl_concat]
    by_cases hms : ms = []
    · subst hms
      exact ⟨[], x, [], rfl, rfl, by simp, by simp⟩
    obtain ⟨before, m, after, rfl, hfold, hbefore, hafter⟩ := ih hms
    rw [hfold, longer]
    by_cases hlt : m.lexeme.length < x.lexeme.length
    · refine ⟨before ++ m :: after, x, [], rfl, if_pos hlt, fun y hy => ?_, by simp⟩
      obtain hy | hy := List.mem_append.1 hy
      · exact (hbefore y hy).trans hlt
      · obtain rfl | hy := List.mem_cons.1 hy
        · exact hlt
        · exact (hafter y hy).trans_lt hlt
    · refine ⟨before, m, after ++ [x], by simp, if_neg hlt, hbefore, fun y hy => ?_⟩
      obtain hy | hy := List.mem_append.1 hy
      · exact hafter y hy
      · rw [List.mem_singleton.1 hy]
        exact Nat.le_of_not_lt hlt

theorem mem_candidates {m : Match} (h : m ∈ candidates cs) :
    ∃ r, (m.kind, r) ∈ languages ∧ r cs = some (m.lexeme, m.rest) := by
  obtain ⟨⟨kind, r⟩, hl, hm⟩ := List.mem_filterMap.1 h
  obtain ⟨⟨lexeme, rest⟩, hr, rfl⟩ := Option.map_eq_some_iff.1 hm
  exact ⟨r, hl, hr⟩

/-- A word in front of the text is no longer than what the recognizer of its language finds. -/
theorem Longest.candidate (h : Longest a L) {kind : TokenKind} (hl : (kind, a) ∈ languages)
    {w : List Char} (hw : w ∈ L) (hpre : w <+: cs) :
    ∃ m ∈ candidates cs, m.kind = kind ∧ w.length ≤ m.lexeme.length := by
  cases hcs : a cs with
  | none => exact absurd hpre (h.missing hcs w hw)
  | some taken =>
    refine ⟨⟨kind, taken.1, taken.2⟩, List.mem_filterMap.2 ⟨(kind, a), hl, ?_⟩, rfl, ?_⟩
    · simp only [hcs, Option.map_some]
    · exact ((h.found hcs).2.2 w hw hpre).length_le

theorem candidate_of_float {w : List Char} (hw : w ∈ floats) (hpre : w <+: cs) :
    ∃ m ∈ candidates cs, m.kind = .floatLiteral ∧ w.length ≤ m.lexeme.length := by
  obtain hw | hw := hw
  · exact longest_decimalFloat.candidate (by simp [languages]) hw hpre
  · exact longest_hexFloat.candidate (by simp [languages]) hw hpre

theorem candidate_of_integer {w : List Char} (hw : w ∈ integers) (hpre : w <+: cs) :
    ∃ m ∈ candidates cs, m.kind = .intLiteral ∧ w.length ≤ m.lexeme.length := by
  obtain hw | hw := hw
  · exact longest_decimalInt.candidate (by simp [languages]) hw hpre
  · exact longest_hexInt.candidate (by simp [languages]) hw hpre

/-- A literal that is found belongs to the language of its kind and stands in front of the text. -/
theorem candidate_mem {m : Match} (h : m ∈ candidates cs) : m.lexeme ++ m.rest = cs ∧
    (m.kind = .floatLiteral ∧ m.lexeme ∈ floats ∨ m.kind = .intLiteral ∧ m.lexeme ∈ integers) := by
  obtain ⟨r, hl, hr⟩ := mem_candidates h
  simp only [languages, List.mem_cons, List.not_mem_nil, or_false, Prod.mk.injEq] at hl
  obtain ⟨hkind, rfl⟩ | ⟨hkind, rfl⟩ | ⟨hkind, rfl⟩ | ⟨hkind, rfl⟩ := hl
  · obtain ⟨hmem, happend, -⟩ := longest_hexFloat.found hr
    exact ⟨happend, .inl ⟨hkind, .inr hmem⟩⟩
  · obtain ⟨hmem, happend, -⟩ := longest_decimalFloat.found hr
    exact ⟨happend, .inl ⟨hkind, .inl hmem⟩⟩
  · obtain ⟨hmem, happend, -⟩ := longest_hexInt.found hr
    exact ⟨happend, .inr ⟨hkind, .inr hmem⟩⟩
  · obtain ⟨hmem, happend, -⟩ := longest_decimalInt.found hr
    exact ⟨happend, .inr ⟨hkind, .inl hmem⟩⟩

/-- Floats are found first. -/
theorem candidates_sorted (cs : List Char) : (candidates cs).Pairwise fun m x =>
    m.kind = .intLiteral → x.kind = .intLiteral := by
  have hkinds : languages.Pairwise fun l k => l.1 = .intLiteral → k.1 = .intLiteral := by
    simp [languages]
  refine hkinds.filterMap _ fun l k hlk m hm x hx hint => ?_
  obtain ⟨_, -, rfl⟩ := Option.map_eq_some_iff.1 hm
  obtain ⟨_, -, rfl⟩ := Option.map_eq_some_iff.1 hx
  exact hlk hint

theorem nil_mem_decimalEndings : [] ∈ decimalEndings :=
  Language.append_mem_mul (a := []) (b := []) nil_mem_maybe nil_mem_maybe

/-- A digit, or a point and a digit, is a literal. -/
theorem exists_numeral (h : starts cs = true) : ∃ w ∈ numerals, w <+: cs := by
  unfold starts at h
  split at h
  · rename_i d r
    refine ⟨['.', d], .inr (.inl (.inl (mem_fractions.2 ⟨[], [d], [], ?_⟩))), by simp⟩
    exact ⟨by simp, by simp, by simpa using h, nil_mem_decimalEndings, rfl⟩
  · rename_i c r _
    have hdigit : [c] ∈ run1 isDigit := mem_run1.2 ⟨by simp, by simpa using h⟩
    have hword : [c] ++ [] ∈ decimalInts := Language.append_mem_mul hdigit nil_mem_maybe
    exact ⟨[c], .inl (.inl hword), by simp⟩
  · cases h

/-- Where a literal starts, the longest one of all is scanned, and it is a float exactly when it is
one by its spelling. -/
theorem scanNumber_longest (h : starts cs = true) : ∃ m, scanNumber cs = some m ∧
    m.lexeme ++ m.rest = cs ∧ m.lexeme ∈ numerals ∧
    (∀ w ∈ numerals, w <+: cs → w.length ≤ m.lexeme.length) ∧
    (m.kind = .floatLiteral ↔ m.lexeme ∈ floats) ∧ (m.kind = .intLiteral ↔ m.lexeme ∉ floats) := by
  have hfound : ∀ w ∈ numerals, w <+: cs → ∃ x ∈ candidates cs, w.length ≤ x.lexeme.length := by
    rintro w (hw | hw) hpre
    · obtain ⟨x, hx, -, hlength⟩ := candidate_of_integer hw hpre
      exact ⟨x, hx, hlength⟩
    · obtain ⟨x, hx, -, hlength⟩ := candidate_of_float hw hpre
      exact ⟨x, hx, hlength⟩
  obtain ⟨w, hw, hpre⟩ := exists_numeral h
  obtain ⟨x, hx, -⟩ := hfound w hw hpre
  obtain ⟨before, m, after, hsplit, hfold, hbefore, hafter⟩ := foldl_longer (List.ne_nil_of_mem hx)
  have hm : m ∈ candidates cs := by rw [hsplit]; simp
  have hmost : ∀ x ∈ candidates cs, x.lexeme.length ≤ m.lexeme.length := by
    intro x hx
    rw [hsplit, List.mem_append, List.mem_cons] at hx
    obtain hx | rfl | hx := hx
    · exact (hbefore x hx).le
    · exact le_rfl
    · exact hafter x hx
  obtain ⟨happend, hkind⟩ := candidate_mem hm
  -- an integer is kept only when every float is shorter, since the floats come first
  have hfloat : m.lexeme ∈ floats → m.kind ≠ .intLiteral := by
    intro hmem hint
    obtain ⟨y, hy, hyfloat, hylength⟩ := candidate_of_float hmem ⟨m.rest, happend⟩
    have hsorted := hsplit ▸ candidates_sorted cs
    rw [hsplit, List.mem_append, List.mem_cons] at hy
    obtain hy | rfl | hy := hy
    · exact absurd (hbefore y hy) (Nat.not_lt.2 hylength)
    · rw [hint] at hyfloat
      cases hyfloat
    · have hyint := (List.pairwise_cons.1 (List.pairwise_append.1 hsorted).2.1).1 y hy hint
      rw [hyint] at hyfloat
      cases hyfloat
  refine ⟨m, (scanNumber_eq cs).trans hfold, happend, ?_, fun w hw hpre => ?_, ?_⟩
  · exact hkind.elim (fun h => .inr h.2) fun h => .inl h.2
  · obtain ⟨x, hx, hlength⟩ := hfound w hw hpre
    exact hlength.trans (hmost x hx)
  · obtain ⟨hk, hmem⟩ | ⟨hk, hmem⟩ := hkind
    · simp [hk, hmem]
    · have hnot : m.lexeme ∉ floats := fun h => hfloat h hk
      simp [hk, hnot]

/-- A suffix stands behind an exponent; before it, an `f` is one more digit. -/
theorem scanNumber_longest_hex : starts "0x1f.8p-3h-1".toList = true ∧
    ∃ m, scanNumber "0x1f.8p-3h-1".toList = some m ∧ m.lexeme ++ m.rest = "0x1f.8p-3h-1".toList ∧
    m.lexeme ∈ numerals ∧
    (∀ w ∈ numerals, w <+: "0x1f.8p-3h-1".toList → w.length ≤ m.lexeme.length) ∧
    (m.kind = .floatLiteral ↔ m.lexeme ∈ floats) ∧ (m.kind = .intLiteral ↔ m.lexeme ∉ floats) :=
  ⟨by decide, scanNumber_longest (by decide)⟩

end Wgsl.Numeral
