import Rexv6.Shell.Parser

/-!
Contract: the tokens of a command line, and that `peek` and `gettoken` read them.

Owns: the token sequence of a line, as the language of the shell defines it, and one
statement each for what `peek` and `gettoken` do to the sequence ahead of a pointer.

Does not own: the grammar over the tokens.
-/

namespace Rexv6.Shell

inductive Arrow where
  | input
  | output
  | append
deriving DecidableEq, Repr

inductive Token where
  | pipe
  | lpar
  | rpar
  | semi
  | amp
  | arrow (arrow : Arrow)
  | word (text : List Char)
deriving DecidableEq, Repr

/-- The token that a symbol stands for on its own. -/
def symbolToken (c : Char) : Option Token :=
  if c = '|' then some .pipe
  else if c = '(' then some .lpar
  else if c = ')' then some .rpar
  else if c = ';' then some .semi
  else if c = '&' then some .amp
  else if c = '<' then some (.arrow .input)
  else if c = '>' then some (.arrow .output)
  else none

/-- The tokens of a line: white space separates, `>>` is one operator, and a word is a
maximal run of characters that are neither white space nor symbols. -/
def tokens : List Char → List Token
  | [] => []
  | '>' :: '>' :: rest => .arrow .append :: tokens rest
  | c :: rest =>
    match symbolToken c with
    | some token => token :: tokens rest
    | none =>
      if wordChar c then
        .word (c :: rest.takeWhile wordChar) :: tokens (rest.dropWhile wordChar)
      else tokens rest
termination_by line => line.length
decreasing_by
  · simp only [List.length_cons]
    omega
  · simp only [List.length_cons]
    omega
  · have shorter := (List.dropWhile_sublist (l := rest) wordChar).length_le
    simp only [List.length_cons]
    omega
  · simp only [List.length_cons]
    omega

def Token.ret : Token → Char
  | pipe => '|'
  | lpar => '('
  | rpar => ')'
  | semi => ';'
  | amp => '&'
  | arrow .input => '<'
  | arrow .output => '>'
  | arrow .append => '+'
  | word _ => 'a'

def Token.lead : Token → Option Char
  | pipe => some '|'
  | lpar => some '('
  | rpar => some ')'
  | semi => some ';'
  | amp => some '&'
  | arrow .input => some '<'
  | arrow .output => some '>'
  | arrow .append => some '>'
  | word _ => none

def leads (toks : List Char) : List Token → Bool
  | [] => false
  | token :: _ => (token.lead.map toks.contains).getD false

/-! ## The tokens behind one character -/

@[simp] theorem tokens_nil : tokens [] = [] := by
  rw [tokens]

theorem tokens_append (rest : List Char) :
    tokens ('>' :: '>' :: rest) = .arrow .append :: tokens rest := by
  rw [tokens]

theorem tokens_cons {c : Char} {rest : List Char}
    (single : ¬ (c = '>' ∧ rest.head? = some '>')) :
    tokens (c :: rest) =
      match symbolToken c with
      | some token => token :: tokens rest
      | none =>
        if wordChar c then
          .word (c :: rest.takeWhile wordChar) :: tokens (rest.dropWhile wordChar)
        else tokens rest := by
  rw [tokens]
  rintro tail rfl rfl
  exact single ⟨rfl, rfl⟩

theorem symbolToken_none {c : Char} (plain : symbols.contains c = false) :
    symbolToken c = none := by
  simp only [symbols, List.contains_cons, List.contains_nil, Bool.or_eq_false_iff,
    beq_eq_false_iff_ne] at plain
  simp [symbolToken, plain]

theorem symbolToken_some {c : Char} (symbol : symbols.contains c = true) :
    ∃ token, symbolToken c = some token ∧ token.ret = c ∧ token.lead = some c ∧
      ∀ text, token ≠ .word text := by
  simp only [symbols, List.contains_cons, List.contains_nil, Bool.or_false, Bool.or_eq_true,
    beq_iff_eq] at symbol
  rcases symbol with rfl | rfl | rfl | rfl | rfl | rfl | rfl <;>
    exact ⟨_, rfl, rfl, rfl, nofun⟩

theorem symbols_of_whitespace {c : Char} (space : whitespace.contains c = true) :
    symbols.contains c = false := by
  simp only [whitespace, List.contains_cons, List.contains_nil, Bool.or_false, Bool.or_eq_true,
    beq_iff_eq] at space
  rcases space with rfl | rfl | rfl | rfl | rfl <;> decide

theorem tokens_whitespace {c : Char} (space : whitespace.contains c = true)
    (rest : List Char) : tokens (c :: rest) = tokens rest := by
  have plain := symbols_of_whitespace space
  have notArrow : c ≠ '>' := by
    rintro rfl
    cases plain
  rw [tokens_cons (fun both => notArrow both.1), symbolToken_none plain]
  simp only [wordChar, space, Bool.not_true, Bool.false_and, Bool.false_eq_true, ↓reduceIte]

@[simp] theorem tokens_skip (s : Pointer) : tokens (skip s) = tokens s := by
  induction s with
  | nil => rfl
  | cons c rest ih =>
    cases space : whitespace.contains c with
    | true =>
      rw [tokens_whitespace space, ← ih]
      simp only [skip, List.dropWhile_cons, space, ↓reduceIte]
    | false =>
      simp only [skip, List.dropWhile_cons, space, Bool.false_eq_true, ↓reduceIte]

/-! ## The next token -/

/-- Where a pointer stands once white space is skipped. -/
theorem skip_cases (s : Pointer) :
    skip s = [] ∨ ∃ c rest, skip s = c :: rest ∧ whitespace.contains c = false := by
  induction s with
  | nil => exact Or.inl rfl
  | cons c rest ih =>
    cases space : whitespace.contains c with
    | true =>
      simpa only [skip, List.dropWhile_cons, space, ↓reduceIte] using ih
    | false =>
      refine Or.inr ⟨c, rest, ?_, space⟩
      simp only [skip, List.dropWhile_cons, space, Bool.false_eq_true, ↓reduceIte]

theorem skip_suffix (s : Pointer) : skip s <:+ s := List.dropWhile_suffix _

/-- A string of the line that is the word `text` and no part of a longer one. -/
structure Span.Reads (span : Span) (text : List Char) : Prop where
  spelled : span.start = text ++ span.stop
  plain : ∀ c ∈ text, wordChar c = true
  maximal : ∀ c ∈ span.stop.head?, wordChar c = false

/-- What `scan` finds at a character that is not white space. -/
theorem scan_token {c : Char} {s : List Char} (solid : whitespace.contains c = false) :
    ∃ token, tokens (c :: s) = token :: tokens (scan (c :: s)).2 ∧
      (scan (c :: s)).1 = token.ret ∧ (scan (c :: s)).2 <:+ s ∧
      (symbols.contains c = true ∧ token.lead = some c ∨
        symbols.contains c = false ∧ token.lead = none) ∧
      ∀ text, token = .word text → Span.Reads ⟨c :: s, (scan (c :: s)).2⟩ text := by
  by_cases double : c = '>' ∧ s.head? = some '>'
  · obtain ⟨rfl, headed⟩ := double
    cases s with
    | nil => cases headed
    | cons d rest =>
      cases headed
      exact ⟨.arrow .append, tokens_append rest, rfl, List.suffix_cons _ _,
        Or.inl ⟨rfl, rfl⟩, nofun⟩
  · have scanned : scan (c :: s) =
        if symbols.contains c then (c, s) else ('a', (c :: s).dropWhile wordChar) := by
      rw [scan]
      rintro tail rfl rfl
      exact double ⟨rfl, rfl⟩
    rw [tokens_cons double, scanned]
    cases symbol : symbols.contains c with
    | true =>
      obtain ⟨token, isToken, ret, lead, notWord⟩ := symbolToken_some symbol
      rw [isToken]
      exact ⟨token, rfl, ret.symm, List.suffix_refl _, Or.inl ⟨rfl, lead⟩,
        fun text isWord => absurd isWord (notWord text)⟩
    | false =>
      have isWordChar : wordChar c = true := by
        simp only [wordChar, solid, symbol, Bool.not_false, Bool.and_self]
      rw [symbolToken_none symbol]
      simp only [isWordChar, Bool.false_eq_true, ↓reduceIte, List.dropWhile_cons]
      refine ⟨_, rfl, rfl, List.dropWhile_suffix _, Or.inr ⟨trivial, rfl⟩, ?_⟩
      rintro text ⟨⟩
      refine ⟨?_, ?_, ?_⟩
      · exact congrArg (c :: ·) (List.takeWhile_append_dropWhile).symm
      · intro d member
        rcases List.mem_cons.mp member with rfl | member
        · exact isWordChar
        · exact List.all_eq_true.mp List.all_takeWhile d member
      · intro d headed
        have stopped := List.head?_dropWhile_not wordChar s
        rw [Option.mem_def.mp headed] at stopped
        simpa using stopped

theorem gettoken_nil {s : Pointer} (ahead : tokens s = []) :
    (gettoken s).ret = nul ∧ (gettoken s).rest = [] := by
  rcases skip_cases s with atEnd | ⟨c, rest, atChar, solid⟩
  · simp only [gettoken, atEnd]
    exact ⟨rfl, rfl⟩
  · obtain ⟨token, isToken, -⟩ := scan_token (s := rest) solid
    rw [← tokens_skip, atChar, isToken] at ahead
    cases ahead

/-- What one call of `gettoken` does when there is a token ahead: it returns its code,
leaves the other tokens ahead, and `*q` and `*eq` enclose it if it is a word. -/
structure Fetches (s : Pointer) (token : Token) (ahead : List Token) : Prop where
  ret : (gettoken s).ret = token.ret
  ahead : tokens (gettoken s).rest = ahead
  shorter : (gettoken s).rest.length < s.length
  suffix : (gettoken s).rest <:+ s
  within : (gettoken s).q <:+ s
  word : ∀ text, token = .word text → (gettoken s).span.Reads text

theorem gettoken_cons {s : Pointer} {token : Token} {ahead : List Token}
    (isAhead : tokens s = token :: ahead) : Fetches s token ahead := by
  rcases skip_cases s with atEnd | ⟨c, rest, atChar, solid⟩
  · rw [← tokens_skip, atEnd, tokens] at isAhead
    cases isAhead
  · obtain ⟨found, isFound, ret, behind, -, word⟩ := scan_token (s := rest) solid
    rw [← tokens_skip, atChar, isFound] at isAhead
    obtain ⟨rfl, rfl⟩ := List.cons.inj isAhead
    have start := skip_suffix s
    rw [atChar] at start
    have restSuffix : (gettoken s).rest <:+ rest := by
      simp only [gettoken, atChar]
      exact (skip_suffix _).trans behind
    refine ⟨?_, ?_, ?_, ?_, ?_, ?_⟩
    · simp only [gettoken, atChar, ret]
    · simp only [gettoken, atChar, tokens_skip]
    · have restLe := restSuffix.length_le
      have startLe := start.length_le
      simp only [List.length_cons] at startLe
      omega
    · exact restSuffix.trans ((List.suffix_cons c rest).trans start)
    · simpa only [gettoken, atChar] using start
    · simpa only [gettoken, Fetched.span, atChar] using word

theorem peek_snd (s : Pointer) (toks : List Char) : (peek s toks).2 = skip s := rfl

/-- `peek` for symbols is true when the next token starts with one of them. -/
theorem peek_fst (s : Pointer) {toks : List Char} (areSymbols : toks ⊆ symbols) :
    (peek s toks).1 = leads toks (tokens s) := by
  rcases skip_cases s with atEnd | ⟨c, rest, atChar, solid⟩
  · rw [← tokens_skip, atEnd, tokens]
    simp [peek, atEnd, deref, leads]
  · obtain ⟨token, isToken, -, -, first, -⟩ := scan_token (s := rest) solid
    rw [← tokens_skip, atChar, isToken]
    rcases first with ⟨symbol, lead⟩ | ⟨plain, lead⟩
    · have notNul : c ≠ nul := by
        rintro rfl
        cases symbol
      simp [peek, atChar, deref, leads, lead, notNul]
    · have notMember : toks.contains c = false := by
        cases member : toks.contains c with
        | false => rfl
        | true =>
          have symbol := areSymbols (List.contains_iff_mem.mp member)
          rw [← List.contains_iff_mem, plain] at symbol
          cases symbol
      simp only [peek, atChar, deref, List.headD_cons, notMember, leads, lead, Bool.and_false,
        Option.map_none, Option.getD_none]

/-- `peek` for nothing at all only skips white space, so it reaches `es` at the end of the
tokens. -/
theorem skip_nil_iff (s : Pointer) : skip s = [] ↔ tokens s = [] := by
  constructor
  · intro atEnd
    rw [← tokens_skip, atEnd, tokens]
  · intro ahead
    rcases skip_cases s with atEnd | ⟨c, rest, atChar, solid⟩
    · exact atEnd
    · obtain ⟨token, isToken, -⟩ := scan_token (s := rest) solid
      rw [← tokens_skip, atChar, isToken] at ahead
      cases ahead

end Rexv6.Shell
