import Wgsl.Proofs.Token.Scanning

/-! # Tokens and gaps make up the text

Scanning loses nothing: the text is the lexemes of the tokens in order, with gaps in front of them
and behind the last. A gap is made of blanks and comments. Every token stands on the line on which
its lexeme starts, and a failure on the line of what cannot be scanned.

* `Recognizer.Takes`: what a recognizer accepts stands in front of the rest, on one line.
* `Inside`, `BlockComment`: block comments, which nest.
* `closeComment_some`, `closeComment_inside`: looking for the end of a block comment.
* `piece_gap`, `piece_token`, `piece_error`: what stands at the beginning of a text.
* `Cut`: a text of which a part has been scanned; `scan_cut` goes on to the end.
* `tokenize_partitions`: the whole text.
-/

namespace Wgsl
set_option autoImplicit false

/-- How many line ends there are. -/
abbrev newlines (cs : List Char) : Nat := cs.count '\n'

theorem newlines_eq_zero {cs : List Char} (h : '\n' ∉ cs) : newlines cs = 0 := List.count_eq_zero.2 h

/-! ## Numerals -/

namespace Numeral

variable {cs first rest : List Char} {a b : Recognizer} {rs : List Recognizer}

/-- What is accepted stands in front of the rest and ends no line. -/
def Takes (r : Recognizer) : Prop :=
  ∀ cs first rest, r cs = some (first, rest) → cs = first ++ rest ∧ '\n' ∉ first

/-- Nothing but what has some character is accepted. -/
def Moves (r : Recognizer) : Prop := ∀ cs first rest, r cs = some (first, rest) → first ≠ []

theorem takes_nothing : Takes nothing := by
  rintro cs first rest ⟨⟩
  exact ⟨rfl, nofun⟩

theorem takes_one {p : Char → Bool} (h : p '\n' = false) : Takes (one p) := by
  intro cs first rest hone
  unfold one at hone
  split at hone
  · cases hone
  · rename_i c r
    split at hone
    · rename_i hc
      cases hone
      refine ⟨rfl, fun hmem => ?_⟩
      rw [← List.mem_singleton.1 hmem, h] at hc
      cases hc
    · cases hone

theorem moves_one (p : Char → Bool) : Moves (one p) := by
  intro cs first rest hone
  unfold one at hone
  split at hone
  · cases hone
  · split at hone
    · cases hone
      exact nofun
    · cases hone

theorem takes_many {p : Char → Bool} (h : p '\n' = false) : Takes (many p) := by
  rintro cs first rest ⟨⟩
  refine ⟨List.takeWhile_append_dropWhile.symm, fun hmem => ?_⟩
  rw [List.mem_takeWhile_imp hmem] at h
  cases h

theorem followedBy_some (h : followedBy a b cs = some (first, rest)) : ∃ one behind two,
    a cs = some (one, behind) ∧ b behind = some (two, rest) ∧ first = one ++ two := by
  obtain ⟨⟨one, behind⟩, ha, h⟩ := Option.bind_eq_some_iff.1 h
  obtain ⟨⟨two, rest'⟩, hb, h⟩ := Option.map_eq_some_iff.1 h
  cases h
  exact ⟨one, behind, two, ha, hb, rfl⟩

theorem Takes.followedBy (ha : Takes a) (hb : Takes b) : Takes (followedBy a b) := by
  intro cs first rest h
  obtain ⟨one, behind, two, h₁, h₂, rfl⟩ := followedBy_some h
  obtain ⟨rfl, free₁⟩ := ha _ _ _ h₁
  obtain ⟨rfl, free₂⟩ := hb _ _ _ h₂
  exact ⟨(List.append_assoc ..).symm, fun hmem => (List.mem_append.1 hmem).elim free₁ free₂⟩

theorem Moves.before (ha : Moves a) (b : Recognizer) : Moves (followedBy a b) := by
  intro cs first rest h
  obtain ⟨one, behind, two, h₁, -, rfl⟩ := followedBy_some h
  exact List.append_ne_nil_of_left_ne_nil (ha _ _ _ h₁) _

theorem Moves.behind (hb : Moves b) (a : Recognizer) : Moves (followedBy a b) := by
  intro cs first rest h
  obtain ⟨one, behind, two, -, h₂, rfl⟩ := followedBy_some h
  exact List.append_ne_nil_of_right_ne_nil _ (hb _ _ _ h₂)

theorem Takes.optional (ha : Takes a) : Takes (optional a) := by
  intro cs first rest h
  obtain h := Option.some.inj h
  cases hcs : a cs with
  | none =>
    rw [hcs] at h
    cases h
    exact ⟨rfl, nofun⟩
  | some r =>
    rw [hcs] at h
    cases h
    exact ha _ _ _ hcs

theorem takes_sequence (h : ∀ r ∈ rs, Takes r) : Takes (sequence rs) := by
  induction rs with
  | nil => exact takes_nothing
  | cons r rs ih =>
    exact (h r List.mem_cons_self).followedBy (ih fun r' hr => h r' (List.mem_cons_of_mem _ hr))

theorem moves_sequence {r : Recognizer} (hr : r ∈ rs) (h : Moves r) : Moves (sequence rs) := by
  induction rs with
  | nil => cases hr
  | cons r' rs ih =>
    obtain rfl | hr := List.mem_cons.1 hr
    · exact h.before _
    · exact (ih hr).behind _

theorem takes_firstOf (h : ∀ r ∈ rs, Takes r) : Takes (firstOf rs) := by
  intro cs first rest hfirst
  obtain ⟨r, hr, hcs⟩ := List.exists_of_findSome?_eq_some hfirst
  exact h r hr _ _ _ hcs

theorem moves_firstOf (h : ∀ r ∈ rs, Moves r) : Moves (firstOf rs) := by
  intro cs first rest hfirst
  obtain ⟨r, hr, hcs⟩ := List.exists_of_findSome?_eq_some hfirst
  exact h r hr _ _ _ hcs

theorem takes_many1 {p : Char → Bool} (h : p '\n' = false) : Takes (many1 p) :=
  (takes_one h).followedBy (takes_many h)

theorem moves_many1 (p : Char → Bool) : Moves (many1 p) := (moves_one p).before _

theorem takes_point : Takes point := takes_one (by decide)

theorem takes_floatSuffix : Takes floatSuffix := takes_one (by decide)

theorem takes_hexMark : Takes hexMark := by
  refine takes_sequence (List.forall_mem_cons.2 ⟨takes_one (by decide),
    List.forall_mem_singleton.2 (takes_one (by decide))⟩)

/-- Exponents, by the letter that begins them. -/
theorem takes_scale {letter : Char → Bool} (h : letter '\n' = false) :
    Takes (sequence [one letter, optional sign, many1 isDigit]) := by
  have parts : ∀ r ∈ [one letter, optional sign, many1 isDigit], Takes r := by
    simp only [List.mem_cons, List.not_mem_nil, or_false, forall_eq_or_imp, forall_eq]
    exact ⟨takes_one h, (takes_one (by decide)).optional, takes_many1 (by decide)⟩
  exact takes_sequence parts

theorem takes_exponent : Takes exponent := takes_scale (by decide)

theorem takes_hexExponent : Takes hexExponent := takes_scale (by decide)

/-- The four languages take numerals that are not empty off a text. -/
theorem sound_languages : ∀ l ∈ languages, Takes l.2 ∧ Moves l.2 := by
  have digits : Takes (many isDigit) ∧ Takes (many1 isDigit) :=
    ⟨takes_many (by decide), takes_many1 (by decide)⟩
  have hexDigits : Takes (many isHexDigit) ∧ Takes (many1 isHexDigit) :=
    ⟨takes_many (by decide), takes_many1 (by decide)⟩
  have suffix : Takes (optional floatSuffix) := takes_floatSuffix.optional
  have whole : Takes (optional intSuffix) := (takes_one (by decide)).optional
  have power : Takes (optional exponent) := takes_exponent.optional
  have scaled : Takes (sequence [hexExponent, optional floatSuffix]) :=
    takes_sequence (by simp [takes_hexExponent, suffix])
  have mark : Moves hexMark := (moves_one _).before _
  simp only [languages, List.mem_cons, List.not_mem_nil, or_false, forall_eq_or_imp, forall_eq]
  refine ⟨⟨takes_firstOf ?_, moves_firstOf ?_⟩, ⟨takes_firstOf ?_, moves_firstOf ?_⟩,
    ⟨takes_sequence ?_, mark.before _⟩, ⟨takes_sequence ?_, (moves_many1 _).before _⟩⟩
  · simp only [List.mem_cons, List.not_mem_nil, or_false, forall_eq_or_imp, forall_eq]
    refine ⟨takes_sequence ?_, takes_sequence ?_, takes_sequence ?_⟩ <;>
      simp [takes_hexMark, hexDigits, takes_point, scaled, scaled.optional]
  · simp only [List.mem_cons, List.not_mem_nil, or_false, forall_eq_or_imp, forall_eq]
    exact ⟨mark.before _, mark.before _, mark.before _⟩
  · simp only [List.mem_cons, List.not_mem_nil, or_false, forall_eq_or_imp, forall_eq]
    refine ⟨takes_sequence ?_, takes_sequence ?_, takes_sequence ?_, takes_sequence ?_⟩ <;>
      simp [digits, takes_point, takes_exponent, takes_floatSuffix, power, suffix]
  · simp only [List.mem_cons, List.not_mem_nil, or_false, forall_eq_or_imp, forall_eq]
    have pointed : Moves point := moves_one _
    exact ⟨moves_sequence (r := point) (by simp) pointed, (moves_many1 _).before _, (moves_many1 _).before _,
      (moves_many1 _).before _⟩
  · simp [takes_hexMark, hexDigits, whole]
  · simp [digits, whole]

/-- The longest numeral is one that some language takes. -/
theorem scanNumber_some {m : Match} (h : scanNumber cs = some m) :
    cs = m.lexeme ++ m.rest ∧ '\n' ∉ m.lexeme ∧ m.lexeme ≠ [] := by
  let Fine (best : Option Match) : Prop :=
    ∀ m, best = some m → cs = m.lexeme ++ m.rest ∧ '\n' ∉ m.lexeme ∧ m.lexeme ≠ []
  have fine : Fine (scanNumber cs) := by
    refine List.foldlRecOn (motive := Fine) languages _ (by exact nofun) fun best hbest l hl => ?_
    obtain ⟨takes, moves⟩ := sound_languages l hl
    obtain ⟨kind, r⟩ := l
    dsimp only at takes moves ⊢
    split
    · rename_i lexeme rest hr
      obtain ⟨hcs, free⟩ := takes _ _ _ hr
      have next : Fine (some ⟨kind, lexeme, rest⟩) := by
        rintro m ⟨⟩
        exact ⟨hcs, free, moves _ _ _ hr⟩
      unfold longer
      split
      · exact next
      · split
        · exact next
        · exact hbest
    · exact hbest
  exact fine m h

/-- A digit begins a numeral. -/
theorem scanNumber_digit {c : Char} {r : List Char} (hc : isDigit c = true) :
    (scanNumber (c :: r)).isSome = true := by
  have decimal : (decimalInt (c :: r)).isSome = true := by
    simp [decimalInt, sequence, followedBy, many1, one, many, optional, nothing, hc]
  have kept : ∀ (best : Option Match) (m : Match), (longer best m).isSome = true := by
    intro best m
    unfold longer
    split
    · rfl
    · split <;> rfl
  unfold scanNumber languages
  simp only [List.foldl_cons, List.foldl_nil]
  split
  · exact kept _ _
  · rename_i hnone
    rw [hnone] at decimal
    cases decimal

end Numeral

namespace Token

/-! ## Block comments -/

/-- One of the marks of block comments stands at the beginning. -/
def StartsMark (cs : List Char) : Prop := ['/', '*'] <+: cs ∨ ['*', '/'] <+: cs

/-- What stands between the marks of a block comment: other characters, and block comments. Marks are
read from the left, so no character may make one with what follows it. -/
inductive Inside : List Char → Prop
  | nil : Inside []
  | char {c : Char} {cs : List Char} : ¬StartsMark (c :: (cs ++ ['*', '/'])) → Inside cs →
    Inside (c :: cs)
  | comment {body cs : List Char} : Inside body → Inside cs →
    Inside ('/' :: '*' :: (body ++ '*' :: '/' :: cs))

/-- A block comment from its opening mark to the one that closes it. -/
inductive BlockComment : List Char → Prop
  | intro {body : List Char} : Inside body → BlockComment ('/' :: '*' :: (body ++ ['*', '/']))

/-- A text that closes as many block comments as given. -/
inductive Closing : Nat → List Char → Prop
  | zero : Closing 0 []
  | succ {depth : Nat} {body cs : List Char} : Inside body → Closing depth cs →
    Closing (depth + 1) (body ++ '*' :: '/' :: cs)

/-- Whether a mark begins shows in two characters. -/
theorem startsMark_append {c d : Char} {cs rest : List Char} (rest' : List Char) :
    StartsMark (c :: (cs ++ d :: rest)) ↔ StartsMark (c :: (cs ++ d :: rest')) := by
  cases cs <;> simp [StartsMark]

theorem startsMark_cons {c : Char} {r : List Char} : StartsMark (c :: r) ↔
    (c = '/' ∧ ∃ s, r = '*' :: s) ∨ (c = '*' ∧ ∃ s, r = '/' :: s) := by
  cases r <;> simp [StartsMark, eq_comm]

/-- Where the end of a comment is found, block comments have been closed. -/
theorem closeComment_some {depth n k : Nat} {cs rest : List Char} (hd : 0 < depth)
    (h : closeComment depth n cs = some (rest, k)) :
    ∃ text, Closing depth text ∧ cs = text ++ rest ∧ k = n + newlines text := by
  fun_induction closeComment depth n cs with
  | case1 depth n r ih =>
    -- the comment that opens here is a part of the one around it
    obtain ⟨text, closing, rfl, rfl⟩ := ih (Nat.succ_pos _) h
    obtain _ | ⟨inner, closing⟩ := closing
    obtain _ | ⟨outer, closing⟩ := closing
    · exact absurd hd (Nat.lt_irrefl 0)
    · exact ⟨_, .succ (.comment inner outer) closing, by simp, by simp [newlines]⟩
  | case2 depth n r hdepth =>
    obtain rfl : depth = 1 := by omega
    cases h
    exact ⟨_, .succ .nil .zero, rfl, by simp [newlines]⟩
  | case3 depth n r hdepth ih =>
    obtain ⟨text, closing, rfl, rfl⟩ := ih (by omega) h
    obtain ⟨outer, rfl⟩ : ∃ outer, depth = outer + 1 := ⟨depth - 1, by omega⟩
    exact ⟨_, .succ .nil closing, rfl, by simp [newlines]⟩
  | case4 depth n c r hopen hclose ih =>
    obtain ⟨text, closing, rfl, rfl⟩ := ih hd h
    have unmarked : ¬StartsMark (c :: (text ++ rest)) := by
      rw [startsMark_cons]
      rintro (⟨hc, s, hs⟩ | ⟨hc, s, hs⟩)
      · exact hopen s hc hs
      · exact hclose s hc hs
    obtain _ | ⟨inside, closing⟩ := closing
    · exact absurd hd (Nat.lt_irrefl 0)
    · refine ⟨_, .succ (.char ?_ inside) closing, rfl, ?_⟩
      · rwa [List.append_assoc, List.cons_append, startsMark_append ['/']] at unmarked
      · by_cases hc : c = '\n'
        · subst hc
          simp [newlines]
          omega
        · simp [newlines, hc]
  | case5 => cases h

/-- What stands inside a comment is passed over. -/
theorem closeComment_inside {body : List Char} (h : Inside body) {depth : Nat} (hd : 0 < depth)
    (n : Nat) (rest : List Char) : closeComment depth n (body ++ '*' :: '/' :: rest) =
      closeComment depth (n + newlines body) ('*' :: '/' :: rest) := by
  induction h generalizing depth n rest with
  | nil => rfl
  | @char c cs unmarked _ ih =>
    rw [startsMark_append ('/' :: rest), startsMark_cons, not_or] at unmarked
    obtain ⟨notOpen, notClose⟩ := unmarked
    rw [List.cons_append, closeComment.eq_3, ih hd]
    · congr 1
      by_cases hc : c = '\n'
      · subst hc
        simp [newlines]
        omega
      · simp [newlines, hc]
    · exact fun s hc hs => notOpen ⟨hc, s, hs⟩
    · exact fun s hc hs => notClose ⟨hc, s, hs⟩
  | @comment body cs _ _ ihBody ih =>
    have shape : '/' :: '*' :: (body ++ '*' :: '/' :: cs) ++ '*' :: '/' :: rest =
        '/' :: '*' :: (body ++ '*' :: '/' :: (cs ++ '*' :: '/' :: rest)) := by simp
    have inner := ihBody (Nat.succ_pos depth) n (cs ++ '*' :: '/' :: rest)
    rw [shape, closeComment, inner, closeComment, if_neg (by omega), Nat.succ_sub_one,
      ih hd]
    congr 1
    simp [newlines]
    omega

/-- A block comment is taken off a text whatever follows it. -/
theorem closeComment_blockComment {body : List Char} (h : Inside body) (n : Nat)
    (rest : List Char) : closeComment 1 n (body ++ '*' :: '/' :: rest) =
      some (rest, n + newlines body) := by
  rw [closeComment_inside h Nat.one_pos, closeComment, if_pos (Nat.le_refl _)]

/-! ## Gaps -/

/-- A blank or a comment in front of the rest of a text. A comment to the end of the line leaves the
line end where it is. -/
inductive Separator : List Char → List Char → Prop
  | blank {c : Char} {rest : List Char} : Text.isBlank c = true → Separator [c] rest
  | line {text rest : List Char} : '\n' ∉ text → (∀ c ∈ rest.head?, c = '\n') →
    Separator ('/' :: '/' :: text) rest
  | block {text rest : List Char} : BlockComment text → Separator text rest

/-- Blanks and comments in front of the rest of a text. -/
inductive Gap : List Char → List Char → Prop
  | nil {rest : List Char} : Gap [] rest
  | cons {first others rest : List Char} : Separator first (others ++ rest) → Gap others rest →
    Gap (first ++ others) rest

theorem Gap.snoc {gap last rest : List Char} (h : Gap gap (last ++ rest))
    (hlast : Separator last rest) : Gap (gap ++ last) rest := by
  generalize hbehind : last ++ rest = behind at h
  induction h with
  | nil =>
    have single : Gap (last ++ []) rest := .cons hlast .nil
    rwa [List.append_nil] at single
  | cons first _ ih =>
    subst hbehind
    rw [List.append_assoc]
    refine .cons ?_ (ih rfl)
    rwa [List.append_assoc]

/-! ## What stands at the beginning -/

/-- A token of some kind in front of the text, on one line. -/
def Piece.Fronts (cs : List Char) (p : Piece) : Prop :=
  ∃ kind lexeme rest, p = .token kind lexeme rest ∧ cs = lexeme ++ rest ∧ lexeme ≠ [] ∧
    '\n' ∉ lexeme ∧ kind ≠ .eof

section

variable {recent : List Token} {cs : List Char} {p : Piece}

theorem fronts_number (h : number? [] cs = some p) : p.Fronts cs := by
  unfold number? at h
  split at h
  · obtain ⟨m, hm, rfl⟩ := Option.map_eq_some_iff.1 h
    obtain ⟨hcs, free, hne⟩ := Numeral.scanNumber_some hm
    refine ⟨m.kind, m.lexeme, m.rest, rfl, hcs, hne, free, ?_⟩
    rcases kind_of_scanNumber hm with hk | hk <;> rw [hk] <;> exact nofun
  · cases h

theorem fronts_negative (h : negative? recent cs = some p) : p.Fronts cs := by
  unfold negative? at h
  split at h
  · split at h
    · cases h
    · unfold number? at h
      split at h
      · obtain ⟨m, hm, rfl⟩ := Option.map_eq_some_iff.1 h
        obtain ⟨hcs, free, -⟩ := Numeral.scanNumber_some hm
        refine ⟨m.kind, '-' :: m.lexeme, m.rest, rfl, congrArg _ hcs, List.cons_ne_nil _ _, ?_, ?_⟩
        · simp [free]
        · rcases kind_of_scanNumber hm with hk | hk <;> rw [hk] <;> exact nofun
      · cases h
  · cases h

theorem wordKind_ne_eof (word : String) : wordKind word ≠ .eof := by
  have reserved : ∀ k ∈ keywords, k.2 ≠ .eof := by decide
  unfold wordKind
  split
  · exact nofun
  · cases hk : keywords.lookup word with
    | none => exact nofun
    | some kind =>
      obtain ⟨before, behind, hsplit, -⟩ := List.lookup_eq_some_iff.1 hk
      exact reserved (word, kind) (hsplit ▸ List.mem_append_right _ List.mem_cons_self)

theorem fronts_word (h : word? cs = some p) : p.Fronts cs := by
  unfold word? at h
  split at h
  · rename_i c r
    split at h
    · rename_i hc
      cases h
      refine ⟨_, _, _, rfl, ?_, List.cons_ne_nil _ _, fun hmem => ?_, wordKind_ne_eof _⟩
      · rw [List.cons_append, List.takeWhile_append_dropWhile]
      · obtain rfl | hmem := List.mem_cons.1 hmem
        · cases hc
        · cases List.mem_takeWhile_imp hmem
    · cases h
  · cases h

theorem fronts_templateEnd (h : templateEnd? recent cs = some p) : p.Fronts cs := by
  unfold templateEnd? at h
  split at h
  · split at h
    · cases h
      exact ⟨_, _, _, rfl, rfl, List.cons_ne_nil _ _, by decide, nofun⟩
    · cases h
  · cases h

theorem fronts_operator (h : operator? cs = some p) : p.Fronts cs := by
  obtain ⟨o, hfound, rfl⟩ := Option.map_eq_some_iff.1 h
  have plain : ∀ o ∈ operators, o.1 ≠ [] ∧ '\n' ∉ o.1 ∧ o.2 ≠ .eof := by decide
  obtain ⟨hne, free, hkind⟩ := plain _ (List.mem_of_find?_eq_some hfound)
  have front := List.find?_some hfound
  refine ⟨o.2, o.1, cs.drop o.1.length, rfl, ?_, hne, free, hkind⟩
  exact (List.prefix_iff_eq_append.1 (List.isPrefixOf_iff_prefix.1 front)).symm

/-- What is taken off a text is a gap or a token. -/
theorem piece_cases (h : piece recent cs = .ok p) : gap? cs = .ok (some p) ∨ p.Fronts cs := by
  unfold piece at h
  split at h
  · cases h
  · cases h
    exact .inl ‹_›
  · split at h
    · rename_i hp
      cases h
      refine .inr ?_
      rcases (Option.orElse_eq_some _ _ _).1 hp with hp | ⟨-, hp⟩
      · exact fronts_number hp
      rcases (Option.orElse_eq_some _ _ _).1 hp with hp | ⟨-, hp⟩
      · exact fronts_negative hp
      rcases (Option.orElse_eq_some _ _ _).1 hp with hp | ⟨-, hp⟩
      · exact fronts_word hp
      rcases (Option.orElse_eq_some _ _ _).1 hp with hp | ⟨-, hp⟩
      · exact fronts_templateEnd hp
      · exact fronts_operator hp
    · cases h

/-- A token is what stands in front, on one line. -/
theorem piece_token {lexeme rest : List Char} {kind : TokenKind}
    (h : piece recent cs = .ok (.token kind lexeme rest)) :
    cs = lexeme ++ rest ∧ lexeme ≠ [] ∧ '\n' ∉ lexeme ∧ kind ≠ .eof := by
  obtain hgap | ⟨kind', lexeme', rest', heq, fronts⟩ := piece_cases h
  · obtain ⟨rest', n, heq⟩ := gap_of_gap? hgap
    cases heq
  · cases heq
    exact fronts

/-- A gap is a separator, and its line ends are counted. -/
theorem piece_gap {rest : List Char} {n : Nat} (h : piece recent cs = .ok (.gap rest n)) :
    ∃ gap, gap ≠ [] ∧ cs = gap ++ rest ∧ n = newlines gap ∧ Separator gap rest := by
  obtain hgap | ⟨_, _, _, heq, -⟩ := piece_cases h
  · unfold gap? at hgap
    split at hgap
    · rename_i r
      cases hgap
      have free : '\n' ∉ r.takeWhile (· != '\n') := fun hmem => by
        cases List.mem_takeWhile_imp hmem
      refine ⟨'/' :: '/' :: r.takeWhile (· != '\n'), List.cons_ne_nil _ _, ?_, ?_, .line free ?_⟩
      · simp [List.takeWhile_append_dropWhile]
      · simp [newlines, newlines_eq_zero free]
      · intro c hc
        have stops := List.head?_dropWhile_not (· != '\n') r
        rw [Option.mem_def.1 hc] at stops
        simpa using stops
    · rename_i r
      split at hgap
      · rename_i rest' n' hclose
        cases hgap
        obtain ⟨text, closing, rfl, rfl⟩ := closeComment_some Nat.one_pos hclose
        obtain _ | ⟨inside, closing⟩ := closing
        cases closing
        have comment := BlockComment.intro inside
        exact ⟨_, List.cons_ne_nil _ _, by simp, by simp [newlines], .block comment⟩
      · cases hgap
    · rename_i c r _ _
      split at hgap
      · rename_i hc
        cases hgap
        refine ⟨[c], List.cons_ne_nil _ _, rfl, ?_, .blank hc⟩
        by_cases hn : c = '\n' <;> simp [newlines, hn]
      · cases hgap
    · cases hgap
  · cases heq

/-- No blank and no token begins with the character. -/
def Unscannable (c : Char) : Prop :=
  Text.isBlank c = false ∧ isWordChar c = false ∧ ∀ o ∈ operators, o.1.head? ≠ some c

/-- What stands in front when nothing can be taken off: a character that begins nothing, or a block
comment that is not closed. -/
inductive Stuck : LexicalCause → List Char → Prop
  | character {c : Char} {r : List Char} : Unscannable c → Stuck (.unexpectedCharacter c) (c :: r)
  | comment {r : List Char} : (∀ text rest, '/' :: '*' :: r = text ++ rest → ¬BlockComment text) →
    Stuck .unterminatedComment ('/' :: '*' :: r)

/-- The first character of every operator is an operator by itself. -/
theorem operator?_isSome {c : Char} {r : List Char} {o : List Char × TokenKind} (ho : o ∈ operators)
    (hc : o.1.head? = some c) : (operator? (c :: r)).isSome = true := by
  have singles : ∀ o ∈ operators, o.1.take 1 ∈ operators.map Prod.fst := by decide
  obtain ⟨text, hhead⟩ := List.head?_eq_some_iff.1 hc
  obtain ⟨single, hmem, heq⟩ := List.mem_map.1 (singles o ho)
  rw [hhead, List.take_succ_cons, List.take_zero] at heq
  rw [operator?, Option.isSome_map, List.find?_isSome]
  exact ⟨single, hmem, by simp [heq]⟩

theorem unscannable_of_piece {c : Char} {r : List Char} (hgap : gap? (c :: r) = .ok none)
    (hnone : (number? [] (c :: r) <|> negative? recent (c :: r) <|> word? (c :: r) <|>
      templateEnd? recent (c :: r) <|> operator? (c :: r)) = none) : Unscannable c := by
  simp only [Option.orElse_eq_none] at hnone
  obtain ⟨hnumber, -, hword, -, hoperator⟩ := hnone
  refine ⟨?_, ?_, fun o ho hc => ?_⟩
  · by_contra hblank
    unfold gap? at hgap
    split at hgap
    · cases hgap
    · split at hgap <;> cases hgap
    · rename_i heq
      rw [← (List.cons.inj heq).1, if_pos (Bool.eq_true_of_not_eq_false hblank)] at hgap
      cases hgap
    · rename_i heq
      cases heq
  · by_contra hchar
    have hchar : (isLetter c || Numeral.isDigit c || c == '_') = true :=
      Bool.eq_true_of_not_eq_false hchar
    cases hdigit : Numeral.isDigit c with
    | true =>
      have starts : Numeral.starts (c :: r) = true := by
        unfold Numeral.starts
        split
        · rename_i heq
          rw [(List.cons.inj heq).1] at hdigit
          cases hdigit
        · rename_i heq
          rwa [← (List.cons.inj heq).1]
        · rename_i heq
          cases heq
      have found := Numeral.scanNumber_digit (r := r) hdigit
      rw [number?, if_pos starts, Option.map_eq_none_iff] at hnumber
      rw [hnumber] at found
      cases found
    | false =>
      rw [hdigit, Bool.or_false] at hchar
      rw [word?, if_pos hchar] at hword
      cases hword
  · have found := operator?_isSome (r := r) ho hc
    rw [hoperator] at found
    cases found

theorem piece_error {c : Char} {r : List Char} {cause : LexicalCause}
    (h : piece recent (c :: r) = .error cause) : Stuck cause (c :: r) := by
  unfold piece at h
  split at h
  · rename_i cause' hgap
    cases h
    unfold gap? at hgap
    split at hgap
    · cases hgap
    · rename_i r' heq
      rw [heq]
      split at hgap
      · cases hgap
      · rename_i hclose
        cases hgap
        refine .comment fun text rest hsplit hcomment => ?_
        obtain ⟨inside⟩ := hcomment
        rw [List.cons_append, List.cons_append, List.cons.injEq, List.cons.injEq] at hsplit
        rw [hsplit.2.2, List.append_assoc, List.cons_append, List.singleton_append,
          closeComment_blockComment inside] at hclose
        cases hclose
    · cases hgap
    · cases hgap
  · cases h
  · rename_i hgap
    split at h
    · cases h
    · rename_i hnone
      cases h
      exact .character (unscannable_of_piece hgap hnone)

end

/-! ## The whole text -/

/-- The text of gaps and tokens, each gap in front of its token. -/
def pieceText (pieces : List (List Char × Token)) : List Char :=
  pieces.flatMap fun p => p.1 ++ p.2.lexeme.toList

/-- A gap and the token behind it stand at their place in the text, the token on its line. -/
structure Stands (source before gap : List Char) (t : Token) : Prop where
  text : ∃ behind, source = before ++ gap ++ t.lexeme.toList ++ behind ∧
    Gap gap (t.lexeme.toList ++ behind)
  line : t.line = 1 + newlines (before ++ gap)
  lexeme : t.lexeme ≠ ""
  kind : t.kind ≠ .eof

/-- A text has been scanned up to a point: into pieces, a gap behind them, and what remains. -/
structure Cut (source : List Char) (pieces : List (List Char × Token)) (last rest : List Char) :
    Prop where
  text : source = pieceText pieces ++ last ++ rest
  gap : Gap last rest
  stands : ∀ before p behind, pieces = before ++ p :: behind →
    Stands source (pieceText before) p.1 p.2

/-- The line on which what remains begins. -/
def lineBehind (pieces : List (List Char × Token)) (last : List Char) : Nat :=
  1 + newlines (pieceText pieces ++ last)

namespace Cut

variable {source last rest : List Char} {pieces : List (List Char × Token)}

theorem start (source : List Char) : Cut source [] [] source where
  text := rfl
  gap := .nil
  stands before p behind h := by
    cases before <;> cases h

/-- A separator makes the last gap longer. -/
theorem separate {gap : List Char} (h : Cut source pieces last (gap ++ rest))
    (hgap : Separator gap rest) : Cut source pieces (last ++ gap) rest where
  text := by rw [h.text]; simp
  gap := h.gap.snoc hgap
  stands := h.stands

/-- A token takes the last gap. -/
theorem token {t : Token} (h : Cut source pieces last (t.lexeme.toList ++ rest))
    (hline : t.line = lineBehind pieces last) (hlexeme : t.lexeme ≠ "") (hkind : t.kind ≠ .eof) :
    Cut source (pieces ++ [(last, t)]) [] rest where
  text := by
    rw [h.text]
    simp [pieceText]
  gap := .nil
  stands before p behind hsplit := by
    obtain rfl | ⟨init, q, rfl⟩ := List.eq_nil_or_concat behind
    · obtain ⟨rfl, hp⟩ := List.append_inj' hsplit rfl
      cases hp
      exact ⟨⟨rest, by rw [h.text, List.append_assoc _ _ rest], h.gap⟩, hline, hlexeme, hkind⟩
    · rw [List.concat_eq_append, ← List.cons_append, ← List.append_assoc] at hsplit
      exact h.stands before p init (List.append_inj' hsplit rfl).1

/-- Scanning goes on to the end of the text, or to where nothing can be taken off. -/
theorem scan_cut {budget : Nat} (h : Cut source pieces last rest) (hb : rest.length ≤ budget) :
    match scan budget (lineBehind pieces last) (pieces.map Prod.snd).reverse rest with
    | .ok tokens => ∃ pieces' last', Cut source pieces' last' [] ∧
      tokens = pieces'.map Prod.snd ++ [⟨.eof, "", 1 + newlines source⟩]
    | .error f => ∃ cause pieces' last' rest', Cut source pieces' last' rest' ∧
      f = .lexical cause (lineBehind pieces' last') ∧ Stuck cause rest' := by
  induction budget generalizing pieces last rest with
  | zero =>
    obtain rfl := List.length_eq_zero_iff.1 (Nat.le_zero.1 hb)
    have hline : lineBehind pieces last = 1 + newlines source := by
      rw [lineBehind, h.text, List.append_nil]
    exact ⟨pieces, last, h, by rw [List.reverse_reverse, hline]⟩
  | succ budget ih =>
    cases rest with
    | nil =>
      have hline : lineBehind pieces last = 1 + newlines source := by
        rw [lineBehind, h.text, List.append_nil]
      exact ⟨pieces, last, h, by rw [List.reverse_reverse, hline]⟩
    | cons c r =>
      rw [scan]
      cases hpiece : piece (pieces.map Prod.snd).reverse (c :: r) with
      | error cause => exact ⟨cause, pieces, last, c :: r, h, rfl, piece_error hpiece⟩
      | ok p =>
        cases p with
        | gap rest n =>
          obtain ⟨gap, hne, hcs, rfl, hgap⟩ := piece_gap hpiece
          have shorter : rest.length ≤ budget := by
            have hlength := congrArg List.length hcs
            have hpos := List.length_pos_iff.2 hne
            simp only [List.length_cons, List.length_append] at hlength hb
            omega
          rw [hcs] at h
          have next := ih (h.separate hgap) shorter
          have hline : lineBehind pieces last + newlines gap = lineBehind pieces (last ++ gap) := by
            simp [lineBehind, newlines]
            omega
          rw [← hline] at next
          exact next
        | token kind lexeme rest =>
          obtain ⟨hcs, hne, free, hkind⟩ := piece_token hpiece
          have shorter : rest.length ≤ budget := by
            have hlength := congrArg List.length hcs
            have hpos := List.length_pos_iff.2 hne
            simp only [List.length_cons, List.length_append] at hlength hb
            omega
          let t : Token := ⟨kind, String.ofList lexeme, lineBehind pieces last⟩
          have hlexeme : t.lexeme.toList = lexeme := String.toList_ofList
          have filled : t.lexeme ≠ "" := fun hempty => hne (by rw [← hlexeme, hempty]; rfl)
          rw [hcs, ← hlexeme] at h
          have next := ih (h.token (t := t) rfl filled hkind) shorter
          have hline : lineBehind (pieces ++ [(last, t)]) [] = lineBehind pieces last := by
            have silent : newlines t.lexeme.toList = 0 := newlines_eq_zero (hlexeme ▸ free)
            simp [lineBehind, pieceText, newlines] at silent ⊢
            omega
          rw [hline, List.map_append, List.reverse_append] at next
          exact next

end Cut

/-- Scanning cuts a text into tokens with gaps in front of them and behind the last. No character is
lost, each token stands on its line, and one end mark follows on the line of the end. A failure names
the line of the first character that begins neither a gap nor a token, or of the comment that is not
closed; what stands in front of it is cut in the same way. -/
theorem tokenize_partitions (source : String) :
    match tokenize source with
    | .ok tokens => ∃ pieces last,
      source.toList = pieceText pieces ++ last ∧ Gap last [] ∧
      (∀ before p behind, pieces = before ++ p :: behind →
        Stands source.toList (pieceText before) p.1 p.2) ∧
      tokens = pieces.map Prod.snd ++ [⟨.eof, "", 1 + newlines source.toList⟩]
    | .error f => ∃ cause pieces last rest,
      source.toList = pieceText pieces ++ last ++ rest ∧ Gap last rest ∧
      (∀ before p behind, pieces = before ++ p :: behind →
        Stands source.toList (pieceText before) p.1 p.2) ∧
      Stuck cause rest ∧ f = .lexical cause (1 + newlines (pieceText pieces ++ last)) := by
  have scanned := (Cut.start source.toList).scan_cut (Nat.le_refl _)
  change match tokenize source with | .ok _ => _ | .error _ => _ at scanned
  cases h : tokenize source with
  | ok tokens =>
    rw [h] at scanned
    obtain ⟨pieces, last, cut, rfl⟩ := scanned
    exact ⟨pieces, last, by rw [cut.text, List.append_nil], cut.gap, cut.stands, rfl⟩
  | error f =>
    rw [h] at scanned
    obtain ⟨cause, pieces, last, rest, cut, rfl, stuck⟩ := scanned
    exact ⟨cause, pieces, last, rest, cut.text, cut.gap, cut.stands, stuck, rfl⟩

end Token

end Wgsl
