import Mathlib
import Wgsl.Proofs.Token.Partition

/-! # Greedy recognizers

A recognizer takes as much as it can, takes the first alternative that accepts, and never gives back
what it has taken. It finds the longest word of a language in front of a text all the same where two
things hold.

* `Longest.followedBy`: greed costs nothing where no letter that carries a word of the first language
  on begins a word of the second (`firsts`, `follows`).
* `Longest.firstOf_cons`: order costs nothing where a longer word of a later alternative belongs to
  the earlier one as well (`Covers`).
-/

namespace Wgsl.Numeral
open scoped Computability
set_option autoImplicit false

variable {a b : Recognizer} {rs : List Recognizer} {L M N : Language Char} {p : Char → Bool}
  {cs first rest : List Char} {c : Char}

/-! ## Letters that begin a word and letters that carry one on -/

/-- The words of one letter of the class. -/
def letter (p : Char → Bool) : Language Char := {w | ∃ c, p c = true ∧ w = [c]}

/-- At least one letter of the class. -/
def run1 (p : Char → Bool) : Language Char := letter p * (letter p)∗

/-- A word or nothing. -/
def maybe (L : Language Char) : Language Char := 1 + L

/-- The letters that begin a word. -/
def firsts (L : Language Char) : Set Char := {c | ∃ w, c :: w ∈ L}

/-- The letters that carry a word on to a longer one. -/
def follows (L : Language Char) : Set Char := {c | ∃ v w, v ∈ L ∧ v ++ c :: w ∈ L}

theorem mem_letter {w : List Char} : w ∈ letter p ↔ ∃ c, p c = true ∧ w = [c] := Iff.rfl

theorem mem_star {w : List Char} : w ∈ (letter p)∗ ↔ ∀ c ∈ w, p c = true := by
  constructor
  · intro h c hc
    obtain ⟨parts, rfl, hparts⟩ := Language.mem_kstar.1 h
    obtain ⟨part, hpart, hcp⟩ := List.mem_flatten.1 hc
    obtain ⟨d, hd, rfl⟩ := hparts part hpart
    rwa [List.mem_singleton.1 hcp]
  · intro h
    refine Language.mem_kstar.2 ⟨w.map fun c => [c], ?_, fun part hpart => ?_⟩
    · induction w with
      | nil => rfl
      | cons c w ih => rw [List.map_cons, List.flatten_cons, ← ih fun d hd => h d (by simp [hd])]; rfl
    · obtain ⟨c, hc, rfl⟩ := List.mem_map.1 hpart
      exact ⟨c, h c hc, rfl⟩

theorem nil_notMem_letter : [] ∉ letter p := by
  rintro ⟨c, -, hc⟩
  cases hc

theorem mem_run1 {w : List Char} : w ∈ run1 p ↔ w ≠ [] ∧ ∀ c ∈ w, p c = true := by
  constructor
  · intro h
    obtain ⟨_, ⟨c, hc, rfl⟩, v, hv, rfl⟩ := Language.mem_mul.1 h
    refine ⟨List.cons_ne_nil c v, fun d hd => ?_⟩
    obtain rfl | hd := List.mem_cons.1 hd
    · exact hc
    · exact mem_star.1 hv d hd
  · rintro ⟨hne, hw⟩
    obtain ⟨c, v, rfl⟩ := List.exists_cons_of_ne_nil hne
    have hv : v ∈ (letter p)∗ := mem_star.2 fun d hd => hw d (List.mem_cons_of_mem c hd)
    exact Language.append_mem_mul (mem_letter.2 ⟨c, hw c List.mem_cons_self, rfl⟩) hv

theorem nil_mem_maybe : [] ∈ maybe L := .inl rfl

theorem firsts_letter (h : c ∈ firsts (letter p)) : p c = true := by
  obtain ⟨w, d, hd, hw⟩ := h
  cases hw
  exact hd

theorem firsts_add (h : c ∈ firsts (L + M)) : c ∈ firsts L ∨ c ∈ firsts M := by
  obtain ⟨w, hw | hw⟩ := h
  · exact .inl ⟨w, hw⟩
  · exact .inr ⟨w, hw⟩

theorem firsts_one : c ∉ firsts (1 : Language Char) := by
  rintro ⟨w, hw⟩
  cases hw

theorem firsts_maybe (h : c ∈ firsts (maybe L)) : c ∈ firsts L := (firsts_add h).resolve_left firsts_one

theorem firsts_mul (h : c ∈ firsts (L * M)) : c ∈ firsts L ∨ [] ∈ L ∧ c ∈ firsts M := by
  obtain ⟨w, hw⟩ := h
  obtain ⟨u, hu, v, hv, huv⟩ := Language.mem_mul.1 hw
  cases u with
  | nil =>
    rw [List.nil_append] at huv
    exact .inr ⟨hu, w, huv ▸ hv⟩
  | cons d u =>
    cases huv
    exact .inl ⟨u, hu⟩

theorem follows_letter : c ∉ follows (letter p) := by
  rintro ⟨v, w, ⟨d, -, rfl⟩, ⟨e, -, h⟩⟩
  cases h

theorem follows_star (h : c ∈ follows (letter p)∗) : p c = true := by
  obtain ⟨v, w, -, h⟩ := h
  exact mem_star.1 h c (by simp)

theorem follows_maybe (h : c ∈ follows (maybe L)) : c ∈ firsts L ∨ c ∈ follows L := by
  obtain ⟨v, w, hv, hw⟩ := h
  have hw : v ++ c :: w ∈ L := hw.resolve_left fun h => by simpa using (Language.mem_one _).1 h
  obtain hv | hv := hv
  · obtain rfl : v = [] := hv
    exact .inl ⟨w, hw⟩
  · exact .inr ⟨v, w, hv, hw⟩

/-- The second word of a product begins where a word of the first language could go on, so it has no
letter at all. -/
theorem nil_of_follows (h : Disjoint (follows L) (firsts M)) {u v t x : List Char} (hu : u ∈ L)
    (ht : u ++ c :: t ∈ L) (hv : v ∈ M) (hx : v <+: c :: x) : v = [] := by
  cases v with
  | nil => rfl
  | cons d v =>
    obtain rfl : d = c := (List.cons_prefix_cons.1 hx).1
    exact absurd ⟨v, hv⟩ (Set.disjoint_left.1 h ⟨u, t, hu, ht⟩)

theorem follows_mul (h : Disjoint (follows L) (firsts M)) (hc : c ∈ follows (L * M)) :
    c ∈ follows M ∨ [] ∈ M ∧ c ∈ follows L := by
  obtain ⟨_, w, hword, hlonger⟩ := hc
  obtain ⟨u, hu, v, hv, rfl⟩ := Language.mem_mul.1 hword
  obtain ⟨u', hu', v', hv', heq⟩ := Language.mem_mul.1 hlonger
  rw [List.append_assoc] at heq
  obtain ⟨t, rfl, hvt⟩ | ⟨t, rfl, hvt⟩ := List.append_eq_append_iff.1 heq
  · cases t with
    | nil => exact .inl ⟨v, w, hv, by rw [List.nil_append] at hvt; exact hvt ▸ hv'⟩
    | cons d t =>
      have hd : v' <+: d :: (t ++ (v ++ c :: w)) := ⟨[], by rw [List.append_nil]; exact hvt⟩
      obtain rfl : v' = [] := nil_of_follows h hu' hu hv' hd
      cases hvt
  · cases t with
    | nil => exact .inl ⟨v, w, hv, by rw [List.nil_append] at hvt; exact hvt ▸ hv'⟩
    | cons d t =>
      have hd : v <+: d :: (t ++ v') := ⟨c :: w, hvt⟩
      obtain rfl : v = [] := nil_of_follows h hu hu' hv hd
      cases hvt
      exact .inr ⟨hv, u, t, hu, hu'⟩

theorem apart_letter : Disjoint (follows (letter p)) (firsts M) :=
  Set.disjoint_left.2 fun _ h => absurd h follows_letter

theorem firsts_run1 (h : c ∈ firsts (run1 p)) : p c = true :=
  firsts_letter ((firsts_mul h).resolve_right fun h => nil_notMem_letter h.1)

theorem follows_run1 (h : c ∈ follows (run1 p)) : p c = true :=
  follows_star ((follows_mul apart_letter h).resolve_right fun h => follows_letter h.2)

/-- What begins in one of a few letters that do not carry the first language on. -/
theorem apart_of_firsts (letters : List Char) (hL : ∀ c ∈ follows L, p c = true)
    (hM : ∀ c ∈ firsts M, c ∈ letters) (h : letters.any p = false) :
    Disjoint (follows L) (firsts M) :=
  Set.disjoint_left.2 fun c hc hc' => List.any_eq_false.1 h c (hM c hc') (hL c hc)

/-! ## Recognizers that find the longest word -/

/-- The recognizer cuts off the longest word of the language in front of the text, and refuses where
no word of it stands there. -/
structure Longest (r : Recognizer) (L : Language Char) : Prop where
  found : ∀ {cs first rest}, r cs = some (first, rest) →
    first ∈ L ∧ first ++ rest = cs ∧ ∀ w ∈ L, w <+: cs → w <+: first
  missing : ∀ {cs}, r cs = none → ∀ w ∈ L, ¬w <+: cs

namespace Longest

theorem nothing : Longest nothing 1 where
  found := by
    rintro cs _ _ ⟨⟩
    exact ⟨rfl, rfl, fun w hw _ => by rw [(Language.mem_one w).1 hw]⟩
  missing := by
    intro _ hnone
    cases hnone

theorem one (p : Char → Bool) : Longest (one p) (letter p) where
  found := by
    intro cs first rest h
    cases cs with
    | nil => cases h
    | cons c r =>
      rw [Numeral.one] at h
      split at h
      · rename_i hc
        cases h
        refine ⟨⟨c, hc, rfl⟩, rfl, ?_⟩
        rintro w ⟨d, -, rfl⟩ hw
        exact List.cons_prefix_cons.2 ⟨(List.cons_prefix_cons.1 hw).1, List.nil_prefix⟩
      · cases h
  missing := by
    rintro cs h w ⟨d, hd, rfl⟩ hw
    cases cs with
    | nil => cases List.prefix_nil.1 hw
    | cons c r =>
      obtain rfl := (List.cons_prefix_cons.1 hw).1
      rw [Numeral.one, if_pos hd] at h
      cases h

theorem many (p : Char → Bool) : Longest (many p) (letter p)∗ where
  found := by
    rintro cs _ _ ⟨⟩
    refine ⟨mem_star.2 fun c hc => List.mem_takeWhile_imp hc, List.takeWhile_append_dropWhile, ?_⟩
    rintro w hw ⟨behind, rfl⟩
    rw [List.takeWhile_append_of_pos (mem_star.1 hw)]
    exact List.prefix_append ..
  missing := by
    intro _ hnone
    cases hnone

/-- A word of a product in front of a text: greed takes its first part whole, or its second part is
empty. -/
theorem cut_mul (ha : Longest a L) (h : Disjoint (follows L) (firsts M)) {w : List Char}
    (hcs : a cs = some (first, rest)) (hw : w ∈ L * M) (hpre : w <+: cs) :
    (∃ v ∈ M, w = first ++ v ∧ v <+: rest) ∨ [] ∈ M ∧ w <+: first := by
  obtain ⟨hfirst, rfl, hlongest⟩ := ha.found hcs
  obtain ⟨u, hu, v, hv, rfl⟩ := Language.mem_mul.1 hw
  obtain ⟨t, rfl⟩ := hlongest u hu ((List.prefix_append u v).trans hpre)
  rw [List.append_assoc, List.prefix_append_right_inj] at hpre
  cases t with
  | nil => exact .inl ⟨v, hv, by rw [List.append_nil], hpre⟩
  | cons c t =>
    obtain rfl : v = [] := nil_of_follows h hu hfirst hv hpre
    exact .inr ⟨hv, by rw [List.append_nil]; exact List.prefix_append ..⟩

theorem followedBy (ha : Longest a L) (hb : Longest b M) (h : Disjoint (follows L) (firsts M)) :
    Longest (followedBy a b) (L * M) where
  found := by
    intro cs first rest hab
    obtain ⟨one, behind, two, h₁, h₂, rfl⟩ := followedBy_some hab
    obtain ⟨hone, rfl, -⟩ := ha.found h₁
    obtain ⟨htwo, rfl, hlongest⟩ := hb.found h₂
    refine ⟨Language.append_mem_mul hone htwo, List.append_assoc .., fun w hw hpre => ?_⟩
    obtain ⟨v, hv, rfl, hv'⟩ | ⟨-, hw'⟩ := ha.cut_mul h h₁ hw hpre
    · exact (List.prefix_append_right_inj one).2 (hlongest v hv hv')
    · exact hw'.trans (List.prefix_append ..)
  missing := by
    intro cs hab w hw hpre
    cases h₁ : a cs with
    | none =>
      obtain ⟨u, hu, v, -, rfl⟩ := Language.mem_mul.1 hw
      exact ha.missing h₁ u hu ((List.prefix_append u v).trans hpre)
    | some taken =>
      obtain ⟨one, behind⟩ := taken
      have h₂ : b behind = none := by
        rw [Numeral.followedBy, h₁] at hab
        exact Option.map_eq_none_iff.1 hab
      obtain ⟨v, hv, -, hv'⟩ | ⟨hnil, -⟩ := ha.cut_mul h h₁ hw hpre
      · exact hb.missing h₂ v hv hv'
      · exact hb.missing h₂ [] hnil List.nil_prefix

theorem optional (ha : Longest a L) : Longest (optional a) (maybe L) where
  found := by
    intro cs first rest h
    have h := Option.some.inj h
    cases hcs : a cs with
    | none =>
      rw [hcs] at h
      cases h
      refine ⟨.inl rfl, rfl, ?_⟩
      rintro w (hw | hw) hpre
      · rw [(Language.mem_one w).1 hw]
      · exact absurd hpre (ha.missing hcs w hw)
    | some taken =>
      rw [hcs] at h
      cases h
      obtain ⟨hfirst, happend, hlongest⟩ := ha.found hcs
      refine ⟨.inr hfirst, happend, ?_⟩
      rintro w (hw | hw) hpre
      · rw [(Language.mem_one w).1 hw]
        exact List.nil_prefix
      · exact hlongest w hw hpre
  missing := by
    intro _ hnone
    cases hnone

theorem sequence_cons (ha : Longest a L) (hrs : Longest (sequence rs) M)
    (h : Disjoint (follows L) (firsts M)) : Longest (sequence (a :: rs)) (L * M) :=
  ha.followedBy hrs h

theorem sequence_one (ha : Longest a L) : Longest (sequence [a]) L := by
  have h : Longest (sequence [a]) (L * 1) :=
    ha.sequence_cons Longest.nothing (Set.disjoint_left.2 fun _ _ => firsts_one)
  rwa [mul_one] at h

theorem many1 (p : Char → Bool) : Longest (many1 p) (run1 p) :=
  (one p).followedBy (many p) (Set.disjoint_left.2 fun _ h => absurd h follows_letter)

end Longest

/-! ## Alternatives in order -/

/-- A word of the second language that begins with a word of the first is a word of the first. -/
def Covers (L M : Language Char) : Prop := ∀ u ∈ L, ∀ w ∈ M, u <+: w → w ∈ L

theorem Covers.add (h : Covers L M) (h' : Covers L N) : Covers L (M + N) := by
  rintro u hu w (hw | hw) hpre
  · exact h u hu w hw hpre
  · exact h' u hu w hw hpre

/-- Marks of one length in front of both. -/
theorem Covers.mul_left {n : Nat} (hN : ∀ w ∈ N, w.length = n) (h : Covers L M) :
    Covers (N * L) (N * M) := by
  intro u hu w hw hpre
  obtain ⟨m, hm, l, hl, rfl⟩ := Language.mem_mul.1 hu
  obtain ⟨m', hm', k, hk, rfl⟩ := Language.mem_mul.1 hw
  obtain rfl : m = m' := (List.prefix_of_prefix_length_le ((List.prefix_append m l).trans hpre)
    (List.prefix_append m' k) ((hN m hm).trans (hN m' hm').symm).le).eq_of_length
    ((hN m hm).trans (hN m' hm').symm)
  exact Language.append_mem_mul hm (h l hl k hk ((List.prefix_append_right_inj m).1 hpre))

/-- No word has the letter. -/
def Lacks (x : Char) (L : Language Char) : Prop := ∀ w ∈ L, x ∉ w

theorem lacks_letter {x : Char} (h : p x = false) : Lacks x (letter p) := by
  rintro w ⟨c, hc, rfl⟩ hx
  rw [← List.mem_singleton.1 hx, h] at hc
  cases hc

theorem lacks_run1 {x : Char} (h : p x = false) : Lacks x (run1 p) := by
  intro w hw hx
  rw [(mem_run1.1 hw).2 x hx] at h
  cases h

theorem Lacks.mul {x : Char} (h : Lacks x L) (h' : Lacks x M) : Lacks x (L * M) := by
  intro w hw hx
  obtain ⟨u, hu, v, hv, rfl⟩ := Language.mem_mul.1 hw
  exact (List.mem_append.1 hx).elim (h u hu) (h' v hv)

theorem Lacks.maybe {x : Char} (h : Lacks x L) : Lacks x (maybe L) := by
  rintro w (hw | hw) hx
  · rw [(Language.mem_one w).1 hw] at hx
    cases hx
  · exact h w hw hx

/-- Every word of the first language has one of a few letters that no word of the second has. -/
theorem Covers.of_lacks (letters : List Char) (hL : ∀ u ∈ L, ∃ x ∈ letters, x ∈ u)
    (hM : ∀ x ∈ letters, Lacks x M) : Covers L M := by
  intro u hu w hw hpre
  obtain ⟨x, hx, hxu⟩ := hL u hu
  exact absurd (hpre.subset hxu) (hM x hx w hw)

theorem mem_mul_right {letters w : List Char} (h : ∀ u ∈ M, ∃ x ∈ letters, x ∈ u) (hw : w ∈ L * M) :
    ∃ x ∈ letters, x ∈ w := by
  obtain ⟨u, -, v, hv, rfl⟩ := Language.mem_mul.1 hw
  obtain ⟨x, hx, hxv⟩ := h v hv
  exact ⟨x, hx, List.mem_append_right u hxv⟩

theorem Longest.firstOf_one (ha : Longest a L) : Longest (firstOf [a]) L := by
  have h : firstOf [a] = a := by
    funext cs
    rw [firstOf, List.findSome?_cons]
    cases a cs with
    | none => rfl
    | some taken => rfl
  rwa [h]

theorem Longest.firstOf_cons (ha : Longest a L) (hrs : Longest (firstOf rs) M) (h : Covers L M) :
    Longest (firstOf (a :: rs)) (L + M) where
  found := by
    intro cs first rest hfirst
    rw [firstOf, List.findSome?_cons] at hfirst
    split at hfirst
    · rename_i taken hcs
      cases hfirst
      obtain ⟨hmem, happend, hlongest⟩ := ha.found hcs
      refine ⟨.inl hmem, happend, ?_⟩
      rintro w (hw | hw) hpre
      · exact hlongest w hw hpre
      · -- the word of the later alternative is shorter, or the earlier one has it too
        obtain hshort | hlong := List.prefix_or_prefix_of_prefix hpre ⟨rest, happend⟩
        · exact hshort
        · exact hlongest w (h first hmem w hw hlong) hpre
    · rename_i hcs
      obtain ⟨hmem, happend, hlongest⟩ := hrs.found hfirst
      refine ⟨.inr hmem, happend, ?_⟩
      rintro w (hw | hw) hpre
      · exact absurd hpre (ha.missing hcs w hw)
      · exact hlongest w hw hpre
  missing := by
    intro cs hnone w hw hpre
    rw [firstOf, List.findSome?_cons] at hnone
    split at hnone
    · cases hnone
    · rename_i hcs
      obtain hw | hw := hw
      · exact ha.missing hcs w hw hpre
      · exact hrs.missing hnone w hw hpre

end Wgsl.Numeral
