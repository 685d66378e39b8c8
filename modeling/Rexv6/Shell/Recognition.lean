import Rexv6.Shell.Strings

/-!
Contract: the parser accepts exactly the grammar of the shell.

Owns: the completeness of each parse function, for what may follow the part it parses,
and the equivalence of `parsecmd` with the grammar.

Does not own: what is done with the tree.
-/

namespace Rexv6.Shell

/-! ## What may follow -/

def Closed (toks : List Char) (ahead : List Token) : Prop :=
  ahead = [] ∨ leads toks ahead = true

theorem Closed.mono {toks more : List Char} {ahead : List Token} (closed : Closed toks ahead)
    (subset : toks ⊆ more) : Closed more ahead := by
  rcases closed with rfl | led
  · exact Or.inl rfl
  · cases ahead with
    | nil => exact Or.inl rfl
    | cons token rest =>
      refine Or.inr ?_
      cases lead : token.lead with
      | none => simp [leads, lead] at led
      | some c =>
        have member : c ∈ toks := by simpa [leads, lead] using led
        simpa [leads, lead] using subset member

theorem Closed.not_leads {toks others : List Char} {ahead : List Token}
    (closed : Closed toks ahead) (disjoint : toks.any (others.contains ·) = false) :
    leads others ahead = false := by
  rcases closed with rfl | led
  · rfl
  · cases ahead with
    | nil => rfl
    | cons token rest =>
      cases lead : token.lead with
      | none => simp [leads, lead]
      | some c =>
        have member : c ∈ toks := by simpa [leads, lead] using led
        have notOther := List.any_eq_false.mp disjoint c member
        simpa [leads, lead] using notOther

theorem peek_of_ahead {s : Pointer} {ahead : List Token} {toks : List Char}
    (isAhead : tokens s = ahead) (areSymbols : toks ⊆ symbols) {led : Bool}
    (isLed : leads toks ahead = led) : (peek s toks).1 = led := by
  rw [peek_fst s areSymbols, isAhead, isLed]

/-! ## Completeness of the loops -/

/-- A run from `s` that returns a tree and leaves given tokens ahead. -/
def Reaches (result : Except Stop (Cmd Span × Pointer)) (s : Pointer) (tree : Cmd (List Char))
    (ahead : List Token) : Prop :=
  ∃ cmd rest, result = .ok (cmd, rest) ∧ cmd.spelled = tree ∧ tokens rest = ahead ∧
    rest.length ≤ s.length

theorem Reaches.bind {result : Except Stop (Cmd Span × Pointer)} {s s' : Pointer}
    {next : Cmd Span × Pointer → Except Stop (Cmd Span × Pointer)}
    {tree tree' : Cmd (List Char)} {ahead ahead' : List Token}
    (reaches : Reaches result s tree ahead)
    (nextReaches : ∀ cmd rest, cmd.spelled = tree → tokens rest = ahead →
      rest.length ≤ s.length → Reaches (next (cmd, rest)) s' tree' ahead') :
    Reaches (result >>= next) s' tree' ahead' := by
  obtain ⟨cmd, rest, rfl, spelled, isAhead, shorter⟩ := reaches
  exact nextReaches cmd rest spelled isAhead shorter

theorem Reaches.of_le {result : Except Stop (Cmd Span × Pointer)} {s s' : Pointer}
    {tree : Cmd (List Char)} {ahead : List Token} (reaches : Reaches result s tree ahead)
    (shorter : s.length ≤ s'.length) : Reaches result s' tree ahead := by
  obtain ⟨cmd, rest, isResult, spelled, isAhead, restLe⟩ := reaches
  exact ⟨cmd, rest, isResult, spelled, isAhead, Nat.le_trans restLe shorter⟩

theorem reaches_peeked (cmd : Cmd Span) {s : Pointer} {ahead : List Token}
    (isAhead : tokens s = ahead) (toks : List Char) :
    Reaches (.ok (cmd, (peek s toks).2)) s cmd.spelled ahead :=
  ⟨cmd, skip s, rfl, rfl, (tokens_skip s).trans isAhead, (skip_suffix s).length_le⟩

theorem parseredirs_reaches (redirs : List Redir) {ahead : List Token}
    (ended : leads ['<', '>'] ahead = false) (fuel : Nat) (cmd : Cmd Span) (s : Pointer)
    (fuelled : s.length < fuel) (isAhead : tokens s = redirs.flatMap Redir.tokens ++ ahead) :
    Reaches (parseredirs fuel cmd s) s (wrap cmd.spelled redirs) ahead := by
  induction redirs generalizing fuel cmd s with
  | nil =>
    cases fuel with
    | zero => omega
    | succ fuel =>
      have stopped := peek_of_ahead isAhead (by decide) ended
      simp only [parseredirs, stopped, Bool.false_eq_true, ↓reduceIte]
      exact reaches_peeked _ isAhead _
  | cons redir redirs ih =>
    cases fuel with
    | zero => omega
    | succ fuel =>
      obtain ⟨arrow, file⟩ := redir
      have goesOn : (peek s ['<', '>']).1 = true :=
        peek_of_ahead isAhead (by decide) (by cases arrow <;> rfl)
      have operator := gettoken_cons ((tokens_skip s).trans isAhead)
      have target := gettoken_cons operator.ahead
      have closer := operator.shorter
      have closest := target.shorter
      have startLe := (skip_suffix s).length_le
      simp only [parseredirs, goesOn, peek_snd, target.ret, Token.ret, ne_eq,
        not_true_eq_false, ↓reduceIte]
      rw [operator.ret]
      have reaches := ih fuel
        (redircmd cmd (gettoken (gettoken (skip s)).rest).span (Token.arrow arrow).ret)
        (gettoken (gettoken (skip s)).rest).rest (by omega) target.ahead
      rw [redircmd_spelled, (target.word file rfl).text_eq] at reaches
      exact reaches.of_le (by omega)

theorem parsebacks_reaches (count : Nat) {ahead : List Token}
    (ended : leads ['&'] ahead = false) (fuel : Nat) (cmd : Cmd Span) (s : Pointer)
    (fuelled : s.length < fuel) (isAhead : tokens s = List.replicate count .amp ++ ahead) :
    Reaches (parsebacks fuel cmd s) s (backs count cmd.spelled) ahead := by
  induction count generalizing fuel cmd s with
  | zero =>
    cases fuel with
    | zero => omega
    | succ fuel =>
      have stopped := peek_of_ahead isAhead (by decide) ended
      simp only [parsebacks, stopped, Bool.false_eq_true, ↓reduceIte]
      exact reaches_peeked _ isAhead _
  | succ count ih =>
    cases fuel with
    | zero => omega
    | succ fuel =>
      have goesOn : (peek s ['&']).1 = true := peek_of_ahead isAhead (by decide) rfl
      have fetches := gettoken_cons ((tokens_skip s).trans isAhead)
      have closer := fetches.shorter
      have startLe := (skip_suffix s).length_le
      simp only [parsebacks, goesOn, peek_snd, ↓reduceIte]
      exact (ih fuel (.back cmd) _ (by omega) fetches.ahead).of_le (by omega)

theorem args_not_arrow (args : List Arg) {ahead : List Token}
    (ended : leads ['<', '>'] ahead = false) :
    leads ['<', '>'] (args.flatMap Arg.tokens ++ ahead) = false := by
  cases args with
  | nil => exact ended
  | cons arg args => rfl

theorem parseargs_reaches (args : List Arg) {ahead : List Token}
    (closed : Closed ['|', ')', '&', ';'] ahead) (fuel argc : Nat) (ret : Cmd Span) (s : Pointer)
    (few : argc + args.length ≤ 9) (fuelled : s.length < fuel)
    (isAhead : tokens s = args.flatMap Arg.tokens ++ ahead) :
    Reaches (parseargs fuel argc ret s) s (addArgs ret.spelled args) ahead := by
  induction args generalizing fuel argc ret s with
  | nil =>
    cases fuel with
    | zero => omega
    | succ fuel =>
      rw [parseargs]
      rcases closed with rfl | led
      · have stopped : (peek s ['|', ')', '&', ';']).1 = false :=
          peek_of_ahead isAhead (by decide) rfl
        obtain ⟨ended, final⟩ := gettoken_nil ((tokens_skip s).trans isAhead)
        simp only [stopped, peek_snd, ended, final, Bool.false_eq_true, ↓reduceIte]
        exact ⟨ret, [], rfl, rfl, tokens_nil, Nat.zero_le _⟩
      · have stopped := peek_of_ahead isAhead (by decide) led
        simp only [stopped, ↓reduceIte]
        exact reaches_peeked _ isAhead _
  | cons arg args ih =>
    cases fuel with
    | zero => omega
    | succ fuel =>
      obtain ⟨word, redirs⟩ := arg
      simp only [List.flatMap_cons, Arg.tokens, List.cons_append, List.append_assoc] at isAhead
      simp only [List.length_cons] at few
      have goesOn : (peek s ['|', ')', '&', ';']).1 = false :=
        peek_of_ahead isAhead (by decide) rfl
      have fetches := gettoken_cons ((tokens_skip s).trans isAhead)
      have closer := fetches.shorter
      have startLe := (skip_suffix s).length_le
      have notNul : ¬ 'a' = nul := by decide
      have room : ¬ maxArgs ≤ argc + 1 := by
        simp only [maxArgs]
        omega
      simp only [parseargs, goesOn, peek_snd, fetches.ret, Token.ret, notNul, room, ne_eq,
        not_true_eq_false, Bool.false_eq_true, ↓reduceIte]
      have arrowless : leads ['<', '>'] ahead = false := closed.not_leads (by decide)
      have notArrow := args_not_arrow args arrowless
      refine (parseredirs_reaches redirs notArrow _ _ _ (Nat.lt_succ_self _)
        fetches.ahead).bind ?_
      intro wrapped rest spelled restAhead restLe
      have reaches := ih fuel (argc + 1) wrapped rest (by omega) (by omega)
        restAhead
      rw [spelled, addArg_spelled, (fetches.word word rfl).text_eq] at reaches
      exact reaches.of_le (by omega)

/-! ## Completeness of the recursion -/

/-- What the four functions do with the same fuel, on the tokens of a derivation and what
may follow it. -/
structure Complete (fuel : Nat) : Prop where
  ofLine : ∀ {passed tree}, Line passed tree → ∀ {s ahead}, tokens s = passed ++ ahead →
    Closed [')'] ahead → 4 * s.length + 4 ≤ fuel → Reaches (parseline fuel s) s tree ahead
  ofPipe : ∀ {passed tree}, Pipe passed tree → ∀ {s ahead}, tokens s = passed ++ ahead →
    Closed [')', '&', ';'] ahead → 4 * s.length + 3 ≤ fuel →
      Reaches (parsepipe fuel s) s tree ahead
  ofExec : ∀ {passed tree}, Exec passed tree → ∀ {s ahead}, tokens s = passed ++ ahead →
    Closed ['|', ')', '&', ';'] ahead → 4 * s.length + 2 ≤ fuel →
      Reaches (parseexec fuel s) s tree ahead
  ofBlock : ∀ {inner cmd}, Line inner cmd → ∀ {redirs : List Redir} {s ahead},
    tokens s = .lpar :: (inner ++ .rpar :: redirs.flatMap Redir.tokens) ++ ahead →
      leads ['<', '>'] ahead = false → 4 * s.length + 1 ≤ fuel →
        Reaches (parseblock fuel s) s (wrap cmd redirs) ahead

theorem parseline_reaches {fuel : Nat} (complete : Complete fuel) {passed : List Token}
    {tree : Cmd (List Char)} (derived : Line passed tree) {s : Pointer} {ahead : List Token}
    (isAhead : tokens s = passed ++ ahead) (closed : Closed [')'] ahead)
    (fuelled : 4 * s.length + 4 ≤ fuel + 1) :
    Reaches (parseline (fuel + 1) s) s tree ahead := by
  cases derived with
  | @last front cmd count pipe =>
    rw [List.append_assoc] at isAhead
    have follows : Closed [')', '&', ';'] (List.replicate count .amp ++ ahead) := by
      cases count with
      | zero => exact closed.mono (by decide)
      | succ count => exact Or.inr rfl
    refine (complete.ofPipe pipe isAhead follows (by omega)).bind ?_
    intro piped behind pipeSpelled behindAhead behindLe
    refine (parsebacks_reaches count (closed.not_leads (by decide)) _ piped behind
      (Nat.lt_succ_self _) behindAhead).bind ?_
    intro backed rest spelled restAhead restLe
    have stopped : (peek rest [';']).1 = false :=
      peek_of_ahead restAhead (by decide) (closed.not_leads (by decide))
    simp only [stopped, Bool.false_eq_true, ↓reduceIte]
    have reaches := reaches_peeked backed restAhead [';']
    rw [spelled, pipeSpelled] at reaches
    exact reaches.of_le (by omega)
  | @list front back cmd right count pipe line =>
    simp only [List.append_assoc, List.cons_append] at isAhead
    have follows : Closed [')', '&', ';']
        (List.replicate count .amp ++ .semi :: (back ++ ahead)) := by
      cases count <;> exact Or.inr rfl
    refine (complete.ofPipe pipe isAhead follows (by omega)).bind ?_
    intro piped behind pipeSpelled behindAhead behindLe
    refine (parsebacks_reaches count rfl _ piped behind (Nat.lt_succ_self _) behindAhead).bind ?_
    intro backed semi spelled semiAhead semiLe
    have goesOn : (peek semi [';']).1 = true := peek_of_ahead semiAhead (by decide) rfl
    have passes := passes_gettoken semiAhead [';']
    have closer := passes.shorter
    simp only [goesOn, ↓reduceIte]
    refine (complete.ofLine line (List.cons.inj (passes.ahead.symm.trans semiAhead)).2 closed
      (by omega)).bind ?_
    intro rightCmd rest rightSpelled restAhead restLe
    refine ⟨.list backed rightCmd, rest, rfl, ?_, restAhead, by omega⟩
    rw [← rightSpelled, ← pipeSpelled, ← spelled]
    rfl

theorem parsepipe_reaches {fuel : Nat} (complete : Complete fuel) {passed : List Token}
    {tree : Cmd (List Char)} (derived : Pipe passed tree) {s : Pointer} {ahead : List Token}
    (isAhead : tokens s = passed ++ ahead) (closed : Closed [')', '&', ';'] ahead)
    (fuelled : 4 * s.length + 3 ≤ fuel + 1) :
    Reaches (parsepipe (fuel + 1) s) s tree ahead := by
  cases derived with
  | last exec =>
    refine (complete.ofExec exec isAhead (closed.mono (by decide)) (by omega)).bind ?_
    intro cmd rest spelled restAhead restLe
    have stopped : (peek rest ['|']).1 = false :=
      peek_of_ahead restAhead (by decide) (closed.not_leads (by decide))
    simp only [stopped, Bool.false_eq_true, ↓reduceIte]
    rw [← spelled]
    exact (reaches_peeked cmd restAhead ['|']).of_le restLe
  | @pipe front back cmd right exec pipe =>
    simp only [List.append_assoc, List.cons_append] at isAhead
    refine (complete.ofExec exec isAhead (Or.inr rfl) (by omega)).bind ?_
    intro left bar spelled barAhead barLe
    have goesOn : (peek bar ['|']).1 = true := peek_of_ahead barAhead (by decide) rfl
    have passes := passes_gettoken barAhead ['|']
    have closer := passes.shorter
    simp only [goesOn, ↓reduceIte]
    refine (complete.ofPipe pipe (List.cons.inj (passes.ahead.symm.trans barAhead)).2 closed
      (by omega)).bind ?_
    intro rightCmd rest rightSpelled restAhead restLe
    refine ⟨.pipe left rightCmd, rest, rfl, ?_, restAhead, by omega⟩
    rw [← rightSpelled, ← spelled]
    rfl

theorem parseexec_reaches {fuel : Nat} (complete : Complete fuel) {passed : List Token}
    {tree : Cmd (List Char)} (derived : Exec passed tree) {s : Pointer} {ahead : List Token}
    (isAhead : tokens s = passed ++ ahead) (closed : Closed ['|', ')', '&', ';'] ahead)
    (fuelled : 4 * s.length + 2 ≤ fuel + 1) :
    Reaches (parseexec (fuel + 1) s) s tree ahead := by
  have arrowless : leads ['<', '>'] ahead = false := closed.not_leads (by decide)
  have startLe := (skip_suffix s).length_le
  have skipped := (tokens_skip s).trans isAhead
  rw [parseexec]
  cases derived with
  | @block inner cmd redirs line =>
    have opened : (peek s ['(']).1 = true := peek_of_ahead isAhead (by decide) rfl
    simp only [opened, peek_snd, ↓reduceIte]
    exact (complete.ofBlock line skipped arrowless (by omega)).of_le startLe
  | simple redirs args few =>
    have notBlock : (peek s ['(']).1 = false := by
      refine peek_of_ahead isAhead (by decide) ?_
      cases redirs with
      | cons redir redirs =>
        obtain ⟨arrow, file⟩ := redir
        cases arrow <;> rfl
      | nil =>
        cases args with
        | nil => exact closed.not_leads (by decide)
        | cons arg args => rfl
    simp only [notBlock, peek_snd, Bool.false_eq_true, ↓reduceIte]
    rw [List.append_assoc] at skipped
    refine (parseredirs_reaches redirs (args_not_arrow args arrowless) _ (.exec []) (skip s)
      (Nat.lt_succ_self _) skipped).bind ?_
    intro ret behind spelled behindAhead behindLe
    have reaches := parseargs_reaches args closed _ 0 ret behind (by omega) (Nat.lt_succ_self _)
      behindAhead
    have tree : addArgs ret.spelled args =
        wrap (.exec (args.map Arg.word)) (redirs ++ args.flatMap Arg.redirs) := by
      rw [spelled]
      exact addArgs_exec [] redirs args
    rw [tree] at reaches
    exact reaches.of_le (by omega)

theorem parseblock_reaches {fuel : Nat} (complete : Complete fuel) {inner : List Token}
    {cmd : Cmd (List Char)} (derived : Line inner cmd) {redirs : List Redir} {s : Pointer}
    {ahead : List Token}
    (isAhead : tokens s = .lpar :: (inner ++ .rpar :: redirs.flatMap Redir.tokens) ++ ahead)
    (arrowless : leads ['<', '>'] ahead = false) (fuelled : 4 * s.length + 1 ≤ fuel + 1) :
    Reaches (parseblock (fuel + 1) s) s (wrap cmd redirs) ahead := by
  rw [List.cons_append, List.append_assoc, List.cons_append] at isAhead
  have opened : (peek s ['(']).1 = true := peek_of_ahead isAhead (by decide) rfl
  have passes := passes_gettoken isAhead ['(']
  have closer := passes.shorter
  have innerAhead := (List.cons.inj (passes.ahead.symm.trans isAhead)).2
  rw [parseblock]
  simp only [opened, ↓reduceIte]
  refine (complete.ofLine derived innerAhead (Or.inr rfl) (by omega)).bind ?_
  intro body behind spelled behindAhead behindLe
  have closing : (peek behind [')']).1 = true := peek_of_ahead behindAhead (by decide) rfl
  have closes := passes_gettoken behindAhead [')']
  have closest := closes.shorter
  simp only [closing, ↓reduceIte]
  have reaches := parseredirs_reaches redirs arrowless _ body _ (Nat.lt_succ_self _)
    (List.cons.inj (closes.ahead.symm.trans behindAhead)).2
  rw [spelled] at reaches
  exact reaches.of_le (by omega)

theorem parse_complete (fuel : Nat) : Complete fuel := by
  induction fuel with
  | zero =>
    constructor <;>
    · intros
      omega
  | succ fuel ih =>
    exact {
      ofLine := parseline_reaches ih
      ofPipe := parsepipe_reaches ih
      ofExec := parseexec_reaches ih
      ofBlock := parseblock_reaches ih }

/-! ## The parser and the grammar -/

theorem Cmd.map_congr {α β : Type} {f g : α → β} (cmd : Cmd α)
    (same : ∀ string ∈ cmd.strings, f string = g string) : cmd.map f = cmd.map g := by
  induction cmd with
  | exec argv => exact congrArg Cmd.exec (List.map_congr_left same)
  | redir cmd file mode fd ih =>
    rw [Cmd.map, Cmd.map, same file (List.mem_append_right _ List.mem_cons_self),
      ih fun string member => same string (List.mem_append_left _ member)]
  | pipe left right leftHypothesis rightHypothesis
  | list left right leftHypothesis rightHypothesis =>
    rw [Cmd.map, Cmd.map,
      leftHypothesis fun string member => same string (List.mem_append_left _ member),
      rightHypothesis fun string member => same string (List.mem_append_right _ member)]
  | back cmd ih => rw [Cmd.map, Cmd.map, ih same]

/-- The C strings of the tree are the words that the parser found. -/
theorem nulterminate_spelled {line : Pointer} {cmd : Cmd Span} (noNul : nul ∉ line)
    (within : cmd.Within line) :
    (cmd.map fun span =>
      (nulterminate cmd (Buffer.ofLine line)).cstr span.start.length) = cmd.spelled :=
  cmd.map_congr fun _ member => cstr_string noNul within member

theorem parsed_error {line : List Char} {stop : Stop}
    (result : parseline (enough (cut line)) (cut line) = .error stop) :
    parsed line = .error stop := by
  simp only [parsed, parsecmd, result]
  rfl

theorem parsed_ok {line : List Char} {cmd : Cmd Span} {rest : Pointer}
    (result : parseline (enough (cut line)) (cut line) = .ok (cmd, rest))
    (ended : tokens rest = []) : parsed line = .ok cmd.spelled := by
  have sound := parseline_sound line
  rw [result] at sound
  obtain ⟨passed, isPassed, derived, within, suffix⟩ := sound
  have atEnd : (peek rest []).2 = [] := (skip_nil_iff rest).mpr ended
  rw [← nulterminate_spelled (nul_not_mem_cut line) within]
  rw [parsed, parsecmd_ok result, if_neg (not_not.mpr atEnd)]
  rfl

theorem parsed_leftovers {line : List Char} {cmd : Cmd Span} {rest : Pointer}
    (result : parseline (enough (cut line)) (cut line) = .ok (cmd, rest))
    (left : tokens rest ≠ []) : ∃ printed, parsed line = .error (.panics printed) := by
  have notEnd : (peek rest []).2 ≠ [] := mt (skip_nil_iff rest).mp left
  refine ⟨["leftovers: " ++ String.ofList (peek rest []).2, "syntax"], ?_⟩
  rw [parsed, parsecmd_ok result, if_pos notEnd]
  rfl

theorem parsed_ends (line : List Char) : parsed line ≠ .error .runsOn := by
  have sound := parseline_sound line
  cases result : parseline (enough (cut line)) (cut line) with
  | error stop =>
    rw [parsed_error result]
    rintro ⟨⟩
    rw [result] at sound
    exact sound
  | ok value =>
    by_cases ended : tokens value.2 = []
    · rw [parsed_ok result ended]
      nofun
    · obtain ⟨printed, panics⟩ := parsed_leftovers result ended
      rw [panics]
      nofun

theorem parsed_derives {line : List Char} {tree : Cmd (List Char)}
    (isTree : parsed line = .ok tree) :
    Line (tokens (cut line)) tree := by
  have sound := parseline_sound line
  cases result : parseline (enough (cut line)) (cut line) with
  | error stop =>
    rw [parsed_error result] at isTree
    cases isTree
  | ok value =>
    by_cases ended : tokens value.2 = []
    · rw [parsed_ok result ended] at isTree
      cases isTree
      rw [result] at sound
      obtain ⟨passed, isPassed, derived, -⟩ := sound
      rwa [isPassed, ended, List.append_nil]
    · obtain ⟨printed, panics⟩ := parsed_leftovers result ended
      rw [panics] at isTree
      cases isTree

theorem derives_parsed {line : List Char} {tree : Cmd (List Char)}
    (derived : Line (tokens (cut line)) tree) : parsed line = .ok tree := by
  obtain ⟨cmd, rest, result, spelled, ended, -⟩ :=
    (parse_complete (enough (cut line))).ofLine derived (List.append_nil _).symm (Or.inl rfl)
      (Nat.le_refl _)
  rw [parsed_ok result ended, spelled]

/-- For every line `parsecmd` comes to an end, and it returns a tree exactly when the tokens
of the line derive it. -/
theorem parsecmd_recognizes (line : List Char) :
    parsed line ≠ .error .runsOn ∧
      ∀ tree, parsed line = .ok tree ↔ Line (tokens (cut line)) tree :=
  ⟨parsed_ends line, fun _ => ⟨parsed_derives, derives_parsed⟩⟩

example : (parsed "(a b>c&);d|e".toList).toOption = some
    (.list (.back (.redir (.exec ["a".toList, "b".toList]) "c".toList oWronlyCreate 1))
      (.pipe (.exec ["d".toList]) (.exec ["e".toList]))) := by decide +kernel

end Rexv6.Shell
