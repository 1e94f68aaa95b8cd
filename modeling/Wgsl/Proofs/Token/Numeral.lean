import Mathlib
import Wgsl.Parse.Literal
import Wgsl.Token.Scan
import Wgsl.Tree.Expr

/-! # Integers in decimal digits

A number printed in decimal digits is scanned as one integer token and read back, as long as what
follows it does not carry the numeral on.

* `Number.readInteger_toDigits`: the digits of a number have its value.
* `Numeral.scanNumber_digits`: digits and a type letter are the longest literal.
* `Numeral.readInt?_text`: the text of an integer literal has its value and letter.
-/

namespace Wgsl
set_option autoImplicit false

/-- Nothing stands here that a word or a number could go on with. -/
def Token.Ends (rest : List Char) : Prop := ∀ c ∈ rest.head?, isWordChar c = false ∧ c ≠ '.'

/-! ## The value of digits -/

namespace Number

theorem digitValue?_digitChar {d : Nat} (h : d < 10) : digitValue? d.digitChar = some d := by
  rw [digitValue?, if_pos (by rw [Nat.isDigit_digitChar, decide_eq_true h]),
    Nat.toNat_digitChar_of_lt_ten h]
  exact congrArg some (Nat.add_sub_cancel_left ..)

theorem appendDigit_ok {lo hi : Int} {n d : Nat} (hd : d < 10) (hlo : lo ≤ 0) (hhi : n * 10 + d ≤ hi) :
    appendDigit 10 lo hi false n d.digitChar = .ok (n * 10 + d : Nat) := by
  rw [appendDigit, digitValue?_digitChar hd]
  dsimp only
  rw [if_pos hd, if_neg Bool.false_ne_true, if_neg (by omega), if_neg (by omega)]
  push_cast
  rfl

theorem foldlM_toDigits {lo hi : Int} {n : Nat} (hlo : lo ≤ 0) (hn : n ≤ hi) :
    (Nat.toDigits 10 n).foldlM (appendDigit 10 lo hi false) 0 = .ok (n : Int) := by
  induction n using Nat.strong_induction_on with
  | _ n ih =>
    have hmod : n % 10 < 10 := Nat.mod_lt _ (by decide)
    have split : n / 10 * 10 + n % 10 = n := Nat.div_add_mod' n 10
    obtain hlt | hle := Nat.lt_or_ge n 10
    · have first := @appendDigit_ok lo hi 0 n hlt hlo (by omega)
      rw [Nat.zero_mul, Nat.zero_add] at first
      rw [Nat.toDigits_of_lt_base hlt, List.foldlM_cons]
      exact (congrArg (· >>= _) first).trans rfl
    · rw [Nat.toDigits_of_base_le (by decide) hle, List.foldlM_append, ih (n / 10) (by omega) (by omega)]
      have last := @appendDigit_ok lo hi (n / 10) _ hmod hlo (by omega)
      rw [split] at last
      change ([(n % 10).digitChar].foldlM (appendDigit 10 lo hi false) ((n / 10 : Nat) : Int)) = _
      rw [List.foldlM_cons, last]
      rfl

/-- The digits of a number have its value, where they fit. -/
theorem readInteger_toDigits {lo hi : Int} {n : Nat} (hlo : lo ≤ 0) (hn : n ≤ hi) :
    readInteger 10 lo hi (Nat.toDigits 10 n) = .ok (n : Int) := by
  have digits : ∀ c ∈ Nat.toDigits 10 n, c.isDigit = true := fun c hc =>
    Nat.isDigit_of_mem_toDigits (by decide) (by decide) hc
  rw [← foldlM_toDigits hlo hn]
  obtain ⟨d, ds, hd⟩ := List.exists_cons_of_ne_nil (Nat.toDigits_ne_nil (n := n) (b := 10))
  rw [hd] at digits ⊢
  have plus : d ≠ '+' := fun h => by cases digits '+' (h ▸ List.mem_cons_self)
  have minus : d ≠ '-' := fun h => by cases digits '-' (h ▸ List.mem_cons_self)
  rw [readInteger] <;> simp [plus, minus]

end Number

namespace Numeral

theorem isDigit_of_mem_toDigits {n : Nat} {c : Char} (h : c ∈ Nat.toDigits 10 n) :
    isDigit c = true := by
  have := Nat.isDigit_of_mem_toDigits (by decide) (by decide) h
  simpa [Char.isDigit, isDigit, Char.le_def] using this

/-! ## Recognizers -/

variable {p : Char → Bool} {a b : Recognizer} {cs rest : List Char}

theorem one_eq_none (h : ∀ c ∈ cs.head?, p c = false) : one p cs = none := by
  cases cs with
  | nil => rfl
  | cons c r => rw [one, h c rfl, if_neg Bool.false_ne_true]

theorem many_append {run : List Char} (hrun : ∀ c ∈ run, p c = true)
    (hrest : ∀ c ∈ rest.head?, p c = false) : many p (run ++ rest) = some (run, rest) := by
  have hstop : rest.takeWhile p = [] ∧ rest.dropWhile p = rest := by
    cases rest with
    | nil => exact ⟨rfl, rfl⟩
    | cons c r =>
      have hc : ¬p c = true := by rw [hrest c rfl]; decide
      exact ⟨List.takeWhile_cons_of_neg hc, List.dropWhile_cons_of_neg hc⟩
  rw [many, List.takeWhile_append_of_pos hrun, List.dropWhile_append_of_pos hrun, hstop.1, hstop.2,
    List.append_nil]

theorem many1_append {run : List Char} (hne : run ≠ []) (hrun : ∀ c ∈ run, p c = true)
    (hrest : ∀ c ∈ rest.head?, p c = false) : many1 p (run ++ rest) = some (run, rest) := by
  obtain ⟨c, r, rfl⟩ := List.exists_cons_of_ne_nil hne
  have hmany : many p (r ++ rest) = some (r, rest) := many_append (fun d hd => hrun d (List.mem_cons_of_mem c hd)) hrest
  simp [many1, followedBy, one, hrun c (List.mem_cons_self ..), hmany]

theorem sequence_cons_none {rs : List Recognizer} (h : a cs = none) :
    sequence (a :: rs) cs = none := by
  show followedBy a _ cs = none
  rw [followedBy, h]
  rfl

theorem sequence_cons_some {rs : List Recognizer} {first : List Char} (h : a cs = some (first, rest)) :
    sequence (a :: rs) cs = (sequence rs rest).map fun (second, r) => (first ++ second, r) := by
  show followedBy a _ cs = _
  rw [followedBy, h]
  rfl

/-! ## Digits with a type letter -/

/-- The characters that carry decimal digits on, to a longer run or to a float or hexadecimal
numeral. -/
def carriesOn (c : Char) : Bool := isDigit c || ['.', 'e', 'E', 'f', 'h', 'x', 'X'].contains c

section Digits

variable {digits behind : List Char} (hne : digits ≠ []) (hdigits : ∀ c ∈ digits, isDigit c = true)
  (hbehind : ∀ c ∈ behind.head?, carriesOn c = false)

include hbehind

theorem isDigit_behind : ∀ c ∈ behind.head?, isDigit c = false := by
  intro c hc
  have := hbehind c hc
  rw [carriesOn, Bool.or_eq_false_iff] at this
  exact this.1

/-- A class of the letters that carry on is not met behind the digits. -/
theorem one_behind {p : Char → Bool}
    (hp : ∀ c, p c = true → c ∈ ['.', 'e', 'E', 'f', 'h', 'x', 'X']) : one p behind = none := by
  refine one_eq_none fun c hc => ?_
  by_contra h
  have := hbehind c hc
  rw [carriesOn, List.contains_iff_mem.mpr (hp c (by simpa using h)), Bool.or_true] at this
  cases this

include hdigits

theorem many_digits : many isDigit (digits ++ behind) = some (digits, behind) :=
  many_append hdigits (isDigit_behind hbehind)

include hne

theorem many1_digits : many1 isDigit (digits ++ behind) = some (digits, behind) :=
  many1_append hne hdigits (isDigit_behind hbehind)

theorem hexMark_digits : hexMark (digits ++ behind) = none := by
  obtain ⟨d, ds, rfl⟩ := List.exists_cons_of_ne_nil hne
  have hsecond : one (fun c => c == 'x' || c == 'X') (ds ++ behind) = none := by
    cases ds with
    | nil => exact one_behind hbehind (by simp)
    | cons d' ds =>
      refine one_eq_none fun c hc => ?_
      obtain rfl : d' = c := by simpa using hc
      have hd' := hdigits d' (by simp)
      by_contra h
      rw [Bool.not_eq_false, Bool.or_eq_true, beq_iff_eq, beq_iff_eq] at h
      obtain rfl | rfl := h <;> cases hd'
  by_cases hd : d = '0'
  · subst hd
    have hzero : one (· == '0') ('0' :: (ds ++ behind)) = some (['0'], ds ++ behind) := rfl
    rw [hexMark, List.cons_append, sequence_cons_some hzero, sequence_cons_none hsecond]
    rfl
  · exact sequence_cons_none (one_eq_none fun c hc => by
      obtain rfl : d = c := by simpa using hc
      simpa using hd)

theorem decimalFloat_digits : decimalFloat (digits ++ behind) = none := by
  have hmany := many_digits hdigits hbehind
  have hmany1 := many1_digits hne hdigits hbehind
  have hpoint : point behind = none := one_behind hbehind (by simp)
  have hexponent : exponent behind = none := sequence_cons_none (one_behind hbehind (by simp))
  have hsuffix : floatSuffix behind = none := one_behind hbehind (by simp)
  have first : ∀ rs, sequence (many isDigit :: point :: rs) (digits ++ behind) = none := fun rs => by
    rw [sequence_cons_some hmany, sequence_cons_none hpoint]
    rfl
  have second : ∀ {a : Recognizer} (rs : List Recognizer), a behind = none →
      sequence (many1 isDigit :: a :: rs) (digits ++ behind) = none := fun rs ha => by
    rw [sequence_cons_some hmany1, sequence_cons_none ha]
    rfl
  simp only [decimalFloat, firstOf, List.findSome?_cons, List.findSome?_nil, first, second _ hpoint,
    second _ hexponent, second _ hsuffix]

end Digits

theorem carriesOn_of_ends {rest : List Char} (h : Token.Ends rest) {c : Char} (hc : c ∈ rest.head?) :
    carriesOn c = false := by
  obtain ⟨hword, hpoint⟩ := h c hc
  by_contra hcarries
  rw [Bool.not_eq_false, carriesOn, Bool.or_eq_true] at hcarries
  obtain hdigit | hletter := hcarries
  · rw [Token.isWordChar, hdigit, Bool.or_true, Bool.true_or] at hword
    cases hword
  · simp only [List.contains_iff_mem, List.mem_cons, List.not_mem_nil, or_false, hpoint,
      false_or] at hletter
    obtain rfl | rfl | rfl | rfl | rfl | rfl := hletter <;> cases hword

/-- Digits and a type letter are the longest literal where nothing carries them on. -/
theorem scanNumber_digits {digits suffix rest : List Char} (hne : digits ≠ [])
    (hdigits : ∀ c ∈ digits, isDigit c = true) (hsuffix : suffix ∈ [[], ['i'], ['u']])
    (hrest : Token.Ends rest) :
    scanNumber (digits ++ (suffix ++ rest)) = some ⟨.intLiteral, digits ++ suffix, rest⟩ := by
  have hend : ∀ c ∈ rest.head?, carriesOn c = false := fun c hc =>
    carriesOn_of_ends hrest hc
  have hbehind : ∀ c ∈ (suffix ++ rest).head?, carriesOn c = false := by
    simp only [List.mem_cons, List.not_mem_nil, or_false] at hsuffix
    obtain rfl | rfl | rfl := hsuffix
    · exact hend
    · rintro c ⟨⟩; rfl
    · rintro c ⟨⟩; rfl
  have hletter : optional intSuffix (suffix ++ rest) = some (suffix, rest) := by
    simp only [List.mem_cons, List.not_mem_nil, or_false] at hsuffix
    obtain rfl | rfl | rfl := hsuffix
    · have hnone : intSuffix rest = none := one_eq_none fun c hc => by
        by_contra h
        rw [Bool.not_eq_false, Bool.or_eq_true, beq_iff_eq, beq_iff_eq] at h
        obtain rfl | rfl := h <;> cases (hrest _ hc).1
      rw [optional, List.nil_append, hnone]
      rfl
    · rfl
    · rfl
  have hmark := hexMark_digits hne hdigits hbehind
  have hint : decimalInt (digits ++ (suffix ++ rest)) = some (digits ++ suffix, rest) := by
    rw [decimalInt, sequence_cons_some (many1_digits hne hdigits hbehind), sequence_cons_some hletter]
    simp [sequence, nothing]
  have hhexFloat : hexFloat (digits ++ (suffix ++ rest)) = none := by
    simp only [hexFloat, firstOf, List.findSome?_cons, List.findSome?_nil, sequence_cons_none hmark]
  have hhexInt : hexInt (digits ++ (suffix ++ rest)) = none := sequence_cons_none hmark
  simp only [scanNumber, languages, List.foldl_cons, List.foldl_nil, hhexFloat, hhexInt, hint,
    decimalFloat_digits hne hdigits hbehind, longer]

end Numeral

/-! ## The text of an integer literal -/

/-- The sign that is printed in front of a value. -/
def Literal.sign (value : Int64) : List Char := if value.toInt < 0 then ['-'] else []

/-- The digits that are printed of a value. -/
def Literal.digits (value : Int64) : List Char := Nat.toDigits 10 value.toInt.natAbs

namespace Literal

variable {value : Int64} {suffix : Option Char}

theorem digits_ne_nil (value : Int64) : digits value ≠ [] := Nat.toDigits_ne_nil

theorem isDigit_digits (value : Int64) : ∀ c ∈ digits value, Numeral.isDigit c = true :=
  fun _ => Numeral.isDigit_of_mem_toDigits

/-- Sign, digits and type letter. -/
theorem toList_text_int :
    (Literal.int value suffix).text.toList = sign value ++ (digits value ++ suffix.toList) := by
  have hnumber : (toString value.toInt).toList = sign value ++ digits value := by
    rw [sign, digits]
    show (Int.repr value.toInt).toList = _
    cases hv : value.toInt with
    | ofNat n =>
      rw [if_neg (show ¬Int.ofNat n < 0 from Int.not_lt.mpr (Int.natCast_nonneg n))]
      exact Nat.toList_repr
    | negSucc n =>
      rw [if_pos (Int.negSucc_lt_zero n)]
      show ("-" ++ Nat.repr (n + 1)).toList = _
      rw [String.toList_append, Nat.toList_repr]
      rfl
  have hsuffix : ((suffix.map Char.toString).getD "").toList = suffix.toList := by
    cases suffix with
    | none => rfl
    | some c => simp [Char.toString]
  rw [text, String.toList_append, hnumber, hsuffix, List.append_assoc]

end Literal

namespace Numeral

variable {value : Int64} {suffix : Option Char}

theorem splitSign_text (cs : List Char) (hcs : cs.head? ≠ some '-') :
    splitSign (Literal.sign value ++ cs) = (decide (value.toInt < 0), cs) := by
  rw [Literal.sign]
  split
  · rename_i h
    rw [decide_eq_true h]
    rfl
  · rename_i h
    rw [decide_eq_false h, List.nil_append]
    unfold splitSign
    split
    · exact absurd rfl hcs
    · rfl

theorem splitSuffix_digits {digits : List Char} (hne : digits ≠ [])
    (hdigits : ∀ c ∈ digits, isDigit c = true) (hs : suffix ∈ [none, some 'i', some 'u']) :
    splitSuffix ['i', 'u'] (digits ++ suffix.toList) = (digits, suffix) := by
  simp only [List.mem_cons, List.not_mem_nil, or_false] at hs
  rw [splitSuffix]
  obtain rfl | rfl | rfl := hs
  · have hlast := hdigits _ (List.getLast_mem hne)
    have hnot : ['i', 'u'].contains (digits.getLast hne) = false := by
      by_contra h
      simp only [Bool.not_eq_false, List.contains_iff_mem, List.mem_cons, List.not_mem_nil,
        or_false] at h
      obtain h | h := h <;> rw [h] at hlast <;> cases hlast
    rw [Option.toList_none, List.append_nil, List.getLast?_eq_some_getLast hne]
    show (if _ = true then _ else _) = _
    rw [hnot, if_neg Bool.false_ne_true]
  · simp
  · simp

theorem hexBody?_digits {digits : List Char} (hdigits : ∀ c ∈ digits, isDigit c = true) :
    hexBody? digits = none := by
  unfold hexBody?
  split
  · cases hdigits 'x' (by simp)
  · cases hdigits 'X' (by simp)
  · rfl

/-- The text of an integer literal is read as its value and letter. -/
theorem readInt?_text (hv : value.toInt.natAbs < 2 ^ 63) (hs : suffix ∈ [none, some 'i', some 'u']) :
    readInt? (Literal.int value suffix).text = some (value, suffix) := by
  have hdigits := Literal.isDigit_digits value
  have hhead : (Literal.digits value ++ suffix.toList).head? ≠ some '-' := by
    obtain ⟨d, ds, hd⟩ := List.exists_cons_of_ne_nil (Literal.digits_ne_nil value)
    rw [hd]
    rintro ⟨⟩
    cases hdigits '-' (by simp [hd])
  have hvalue : (if decide (value.toInt < 0) = true then -Int64.ofNat value.toInt.natAbs
      else Int64.ofNat value.toInt.natAbs) = value := by
    rw [← Int64.toInt_inj]
    split
    · rename_i h
      rw [Int64.toInt_neg_ofNat_of_le (Nat.le_of_lt hv)]
      have := of_decide_eq_true h
      omega
    · rename_i h
      rw [Int64.toInt_ofNat_of_lt hv]
      have : ¬value.toInt < 0 := fun h' => h (decide_eq_true h')
      omega
  rw [readInt?, Literal.toList_text_int, splitSign_text _ hhead]
  have hread : readInt64? 10 (Literal.digits value) = some (Int64.ofNat value.toInt.natAbs) := by
    have few : (value.toInt.natAbs : Int) ≤ Int64.maxValue.toInt := by
      have most : Int64.maxValue.toInt = 2 ^ 63 - 1 := rfl
      omega
    rw [readInt64?, Literal.digits, Number.readInteger_toDigits (by decide) few]
    exact congrArg some (Int64.ofInt_eq_ofNat)
  simp only [splitSuffix_digits (Literal.digits_ne_nil value) hdigits hs, hexBody?_digits hdigits, hread,
    Option.bind_eq_bind, Option.bind_some]
  rw [hvalue]
  rfl

end Numeral

end Wgsl
