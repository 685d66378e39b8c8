import Mathlib.Order.Basic
import Mathlib.Tactic.SplitIfs
import Rexv6.Shell.Tokens

/-!
Contract: the grammar of the shell, and that the parser returns derivation trees only.

Owns: the grammar as a relation between token sequences and trees, and the soundness of
each parse function: with fuel for the characters ahead it does not run on, and a tree it
returns is derived by the tokens it has passed.

Does not own: that every derivation is found.
-/

namespace Rexv6.Shell

/-! ## The grammar -/

/-- `redir -> ('<' | '>' | '>>') word`. -/
structure Redir where
  arrow : Arrow
  file : List Char

def Redir.tokens (redir : Redir) : List Token := [.arrow redir.arrow, .word redir.file]

def Redir.wrap (cmd : Cmd (List Char)) (redir : Redir) : Cmd (List Char) :=
  match redir.arrow with
  | .input => .redir cmd redir.file oRdonly 0
  | .output => .redir cmd redir.file oWronlyCreate 1
  | .append => .redir cmd redir.file oWronlyCreate 1

/-- Redirections in order of appearance, the last one outermost. -/
def wrap (cmd : Cmd (List Char)) (redirs : List Redir) : Cmd (List Char) :=
  redirs.foldl Redir.wrap cmd

/-- `word redir*`. -/
structure Arg where
  word : List Char
  redirs : List Redir

def Arg.tokens (arg : Arg) : List Token := .word arg.word :: arg.redirs.flatMap Redir.tokens

def backs : Nat → Cmd (List Char) → Cmd (List Char)
  | 0, cmd => cmd
  | count + 1, cmd => backs count (.back cmd)

mutual

/-- `line -> pipe '&'* (';' line)?`. -/
inductive Line : List Token → Cmd (List Char) → Prop where
  | last {front : List Token} {cmd : Cmd (List Char)} (count : Nat) (pipe : Pipe front cmd) :
      Line (front ++ List.replicate count .amp) (backs count cmd)
  | list {front back : List Token} {cmd right : Cmd (List Char)} (count : Nat)
      (pipe : Pipe front cmd) (line : Line back right) :
      Line (front ++ List.replicate count .amp ++ .semi :: back) (.list (backs count cmd) right)

/-- `pipe -> exec ('|' pipe)?`. -/
inductive Pipe : List Token → Cmd (List Char) → Prop where
  | last {front : List Token} {cmd : Cmd (List Char)} (exec : Exec front cmd) : Pipe front cmd
  | pipe {front back : List Token} {cmd right : Cmd (List Char)} (exec : Exec front cmd)
      (pipe : Pipe back right) : Pipe (front ++ .pipe :: back) (.pipe cmd right)

/-- `exec -> '(' line ')' redir* | redir* (word redir*)*`, with at most nine words. -/
inductive Exec : List Token → Cmd (List Char) → Prop where
  | block {inner : List Token} {cmd : Cmd (List Char)} (redirs : List Redir)
      (line : Line inner cmd) :
      Exec (.lpar :: (inner ++ .rpar :: redirs.flatMap Redir.tokens)) (wrap cmd redirs)
  | simple (redirs : List Redir) (args : List Arg) (few : args.length ≤ 9) :
      Exec (redirs.flatMap Redir.tokens ++ args.flatMap Arg.tokens)
        (wrap (.exec (args.map Arg.word)) (redirs ++ args.flatMap Arg.redirs))

end

/-! ## Trees of pointers -/

def Span.text (span : Span) : List Char :=
  span.start.take (span.start.length - span.stop.length)

theorem Span.Reads.text_eq {span : Span} {text : List Char} (reads : span.Reads text) :
    span.text = text := by
  rw [Span.text, reads.spelled]
  simp

structure Span.Within (line : Pointer) (span : Span) : Prop where
  suffix : span.start <:+ line
  reads : span.Reads span.text

def Cmd.spelled (cmd : Cmd Span) : Cmd (List Char) := cmd.map Span.text

def Cmd.Within (line : Pointer) (cmd : Cmd Span) : Prop := ∀ span ∈ cmd.strings, span.Within line

/-- A run of a parse function that does not run on, and whose results are as said. -/
def Ends (result : Except Stop (Cmd Span × Pointer)) (post : Cmd Span → Pointer → Prop) : Prop :=
  match result with
  | .ok (cmd, s) => post cmd s
  | .error (.panics _) => True
  | .error .runsOn => False

theorem Ends.bind {result : Except Stop (Cmd Span × Pointer)}
    {next : Cmd Span × Pointer → Except Stop (Cmd Span × Pointer)}
    {middle post : Cmd Span → Pointer → Prop} (ends : Ends result middle)
    (nextEnds : ∀ cmd s, middle cmd s → Ends (next (cmd, s)) post) :
    Ends (result >>= next) post := by
  cases result with
  | ok value => exact nextEnds value.1 value.2 ends
  | error stop =>
    cases stop with
    | panics printed => exact trivial
    | runsOn => exact ends.elim

theorem Ends.imp {result : Except Stop (Cmd Span × Pointer)}
    {strong weak : Cmd Span → Pointer → Prop} (ends : Ends result strong)
    (weaken : ∀ cmd s, strong cmd s → weak cmd s) : Ends result weak := by
  cases result with
  | ok value => exact weaken value.1 value.2 ends
  | error stop =>
    cases stop with
    | panics printed => exact trivial
    | runsOn => exact ends.elim

/-- From `s` the parser has passed tokens that derive the command it returned. -/
def Derives (derivation : List Token → Cmd (List Char) → Prop) (line s : Pointer)
    (cmd : Cmd Span) (rest : Pointer) : Prop :=
  ∃ passed, tokens s = passed ++ tokens rest ∧ derivation passed cmd.spelled ∧
    cmd.Within line ∧ rest <:+ s

/-! ## Peeking and fetching -/

/-- What is left behind a symbol, seen from the pointer before `peek`. -/
structure Passes (s : Pointer) (token : Token) (rest : Pointer) : Prop where
  ahead : tokens s = token :: tokens rest
  shorter : rest.length < s.length
  suffix : rest <:+ s

theorem passes_gettoken {s : Pointer} {token : Token} {ahead : List Token}
    (isAhead : tokens s = token :: ahead) (toks : List Char) :
    Passes s token (gettoken (peek s toks).2).rest := by
  have skipped : tokens (skip s) = token :: ahead := (tokens_skip s).trans isAhead
  have fetches := gettoken_cons skipped
  have suffix := skip_suffix s
  refine ⟨?_, Nat.lt_of_lt_of_le fetches.shorter suffix.length_le, fetches.suffix.trans suffix⟩
  rw [isAhead, peek_snd, fetches.ahead]

theorem symbolToken_lead {token : Token} {c : Char} (single : c ≠ '>')
    (lead : token.lead = some c) : symbolToken c = some token := by
  cases token with
  | arrow arrow =>
    cases arrow with
    | input => cases lead; rfl
    | output => exact absurd (Option.some.inj lead).symm single
    | append => exact absurd (Option.some.inj lead).symm single
  | word text => cases lead
  | _ => cases lead; rfl

theorem leads_single {c : Char} {token : Token} {ahead : List Token}
    (isToken : symbolToken c = some token) (single : c ≠ '>') (led : leads [c] ahead = true) :
    ∃ rest, ahead = token :: rest := by
  cases ahead with
  | nil => cases led
  | cons first rest =>
    cases lead : first.lead with
    | none => simp [leads, lead] at led
    | some d =>
      obtain rfl : d = c := by simpa [leads, lead] using led
      have same := (symbolToken_lead single lead).symm.trans isToken
      exact ⟨rest, by rw [Option.some.inj same]⟩

/-- A symbol that `peek` has found and `gettoken` takes. -/
theorem passes_symbol {s : Pointer} {c : Char} (token : Token)
    (isToken : symbolToken c = some token) (single : c ≠ '>') (symbol : c ∈ symbols)
    (led : (peek s [c]).1 = true) : Passes s token (gettoken (peek s [c]).2).rest := by
  rw [peek_fst s (by simpa using symbol)] at led
  obtain ⟨rest, isAhead⟩ := leads_single isToken single led
  exact passes_gettoken isAhead [c]

theorem leads_arrow {ahead : List Token} (led : leads ['<', '>'] ahead = true) :
    ∃ arrow rest, ahead = .arrow arrow :: rest := by
  cases ahead with
  | nil => cases led
  | cons first rest =>
    cases first with
    | arrow arrow => exact ⟨arrow, rest, rfl⟩
    | _ => simp [leads, Token.lead] at led

/-! ## Soundness of the loops -/

theorem redircmd_spelled (cmd : Cmd Span) (file : Span) (arrow : Arrow) :
    (redircmd cmd file (Token.arrow arrow).ret).spelled =
      Redir.wrap cmd.spelled ⟨arrow, file.text⟩ := by
  cases arrow <;> rfl

theorem redircmd_within {line : Pointer} {cmd : Cmd Span} {file : Span} (tok : Char)
    (within : cmd.Within line) (fileWithin : file.Within line) :
    (redircmd cmd file tok).Within line := by
  have extended : ∀ span ∈ cmd.strings ++ [file], span.Within line := by
    intro span member
    rcases List.mem_append.mp member with member | member
    · exact within span member
    · rwa [List.mem_singleton.mp member]
  unfold redircmd
  split_ifs
  · exact extended
  · exact extended
  · exact extended
  · exact within

theorem ret_word {token : Token} (isWord : token.ret = 'a') : ∃ text, token = .word text := by
  cases token with
  | word text => exact ⟨text, rfl⟩
  | arrow arrow => cases arrow <;> simp [Token.ret] at isWord
  | _ => simp [Token.ret] at isWord

theorem gettoken_end {s : Pointer} (ended : (gettoken s).ret = nul) : tokens s = [] := by
  cases ahead : tokens s with
  | nil => rfl
  | cons token rest =>
    rw [(gettoken_cons ahead).ret] at ended
    cases token with
    | arrow arrow => cases arrow <;> cases ended
    | _ => cases ended

/-- A token with the code of a word is one, and `*q` and `*eq` enclose it. -/
theorem gettoken_word {line s : Pointer} (suffix : s <:+ line) (isWord : (gettoken s).ret = 'a') :
    (gettoken s).span.Within line ∧
      tokens s = .word (gettoken s).span.text ::
        tokens (gettoken s).rest ∧
      (gettoken s).rest.length < s.length ∧ (gettoken s).rest <:+ s := by
  cases ahead : tokens s with
  | nil =>
    rw [(gettoken_nil ahead).1] at isWord
    cases isWord
  | cons token rest =>
    have fetches := gettoken_cons ahead
    rw [fetches.ret] at isWord
    obtain ⟨text, rfl⟩ := ret_word isWord
    have reads := fetches.word text rfl
    rw [reads.text_eq, fetches.ahead]
    refine ⟨⟨fetches.within.trans suffix, ?_⟩, rfl, fetches.shorter, fetches.suffix⟩
    rwa [reads.text_eq]

theorem parseredirs_ends {line : Pointer} (fuel : Nat) (cmd : Cmd Span) (s : Pointer)
    (fuelled : s.length < fuel) (suffix : s <:+ line) (within : cmd.Within line) :
    Ends (parseredirs fuel cmd s) fun result rest => ∃ redirs : List Redir,
      tokens s = redirs.flatMap Redir.tokens ++ tokens rest ∧
        result.spelled = wrap cmd.spelled redirs ∧ result.Within line ∧ rest <:+ s := by
  induction fuel generalizing cmd s with
  | zero => omega
  | succ fuel ih =>
    simp only [parseredirs]
    split_ifs with led missing
    · exact trivial
    · rw [peek_fst s (by decide)] at led
      obtain ⟨arrow, ahead, isAhead⟩ := leads_arrow led
      have operator := passes_gettoken isAhead ['<', '>']
      obtain ⟨fileWithin, fileAhead, shorter, fileSuffix⟩ :=
        gettoken_word (operator.suffix.trans suffix) (not_not.mp missing)
      have code : (gettoken (peek s ['<', '>']).2).ret = (Token.arrow arrow).ret :=
        (gettoken_cons ((tokens_skip s).trans isAhead)).ret
      rw [code]
      have closer := operator.shorter
      refine (ih _ _ (by omega) (fileSuffix.trans (operator.suffix.trans suffix))
        (redircmd_within (Token.arrow arrow).ret within fileWithin)).imp ?_
      rintro result rest ⟨redirs, passed, spelled, resultWithin, restSuffix⟩
      refine ⟨⟨arrow, (gettoken (gettoken (peek s ['<', '>']).2).rest).span.text⟩ :: redirs,
        ?_, spelled.trans ?_, resultWithin,
        restSuffix.trans (fileSuffix.trans operator.suffix)⟩
      · rw [operator.ahead, fileAhead, passed]
        rfl
      · rw [redircmd_spelled]
        rfl
    · refine ⟨[], ?_, rfl, within, skip_suffix s⟩
      rw [peek_snd, tokens_skip]
      rfl

theorem parsebacks_ends {line : Pointer} (fuel : Nat) (cmd : Cmd Span) (s : Pointer)
    (fuelled : s.length < fuel) (within : cmd.Within line) :
    Ends (parsebacks fuel cmd s) fun result rest => ∃ count,
      tokens s = List.replicate count .amp ++ tokens rest ∧
        result.spelled = backs count cmd.spelled ∧ result.Within line ∧ rest <:+ s := by
  induction fuel generalizing cmd s with
  | zero => omega
  | succ fuel ih =>
    simp only [parsebacks]
    split_ifs with led
    · have amp := passes_symbol .amp rfl (by decide) (by decide) led
      have closer := amp.shorter
      refine (ih (.back cmd) _ (by omega) within).imp ?_
      rintro result rest ⟨count, passed, spelled, resultWithin, restSuffix⟩
      refine ⟨count + 1, ?_, spelled, resultWithin, restSuffix.trans amp.suffix⟩
      rw [amp.ahead, passed]
      rfl
    · refine ⟨0, ?_, rfl, within, skip_suffix s⟩
      rw [peek_snd, tokens_skip]
      rfl

/-- The slots of `argv` filled in the order of the arguments, with the redirections between
them wrapped around. -/
def addArgs (cmd : Cmd (List Char)) (args : List Arg) : Cmd (List Char) :=
  args.foldl (fun cmd arg => wrap (cmd.addArg arg.word) arg.redirs) cmd

theorem wrap_addArg (cmd : Cmd (List Char)) (word : List Char) (redirs : List Redir) :
    (wrap cmd redirs).addArg word = wrap (cmd.addArg word) redirs := by
  induction redirs generalizing cmd with
  | nil => rfl
  | cons redir redirs ih =>
    have step : (Redir.wrap cmd redir).addArg word = Redir.wrap (cmd.addArg word) redir := by
      unfold Redir.wrap
      cases redir.arrow <;> rfl
    simp only [wrap, List.foldl_cons] at ih ⊢
    rw [ih, step]

theorem wrap_append (cmd : Cmd (List Char)) (first second : List Redir) :
    wrap (wrap cmd first) second = wrap cmd (first ++ second) := List.foldl_append.symm

theorem addArgs_exec (words : List (List Char)) (redirs : List Redir) (args : List Arg) :
    addArgs (wrap (.exec words) redirs) args =
      wrap (.exec (words ++ args.map Arg.word)) (redirs ++ args.flatMap Arg.redirs) := by
  induction args generalizing words redirs with
  | nil => simp [addArgs]
  | cons arg args ih =>
    have step : addArgs (wrap (.exec words) redirs) (arg :: args) =
        addArgs (wrap (.exec (words ++ [arg.word])) (redirs ++ arg.redirs)) args := by
      simp only [addArgs, List.foldl_cons, wrap_addArg, wrap_append, Cmd.addArg]
    rw [step, ih]
    simp

theorem addArg_spelled (cmd : Cmd Span) (argument : Span) :
    (cmd.addArg argument).spelled = cmd.spelled.addArg argument.text := by
  induction cmd with
  | exec argv => simp [Cmd.addArg, Cmd.spelled, Cmd.map]
  | redir cmd file mode fd ih =>
    simpa only [Cmd.addArg, Cmd.spelled, Cmd.map, Cmd.redir.injEq, and_self, and_true]
      using ih
  | _ => rfl

theorem addArg_within {line : Pointer} {cmd : Cmd Span} {argument : Span}
    (within : cmd.Within line) (argumentWithin : argument.Within line) :
    (cmd.addArg argument).Within line := by
  induction cmd with
  | exec argv =>
    intro span member
    rcases List.mem_append.mp member with member | member
    · exact within span member
    · rwa [List.mem_singleton.mp member]
  | redir cmd file mode fd ih =>
    intro span member
    rcases List.mem_append.mp member with member | member
    · exact ih
        (fun inner isInner => within inner (List.mem_append_left _ isInner)) span member
    · exact within span (List.mem_append_right _ member)
  | _ => exact within

theorem parseargs_ends {line : Pointer} (fuel argc : Nat) (ret : Cmd Span) (s : Pointer)
    (fuelled : s.length < fuel) (few : argc ≤ 9) (suffix : s <:+ line)
    (within : ret.Within line) :
    Ends (parseargs fuel argc ret s) fun result rest => ∃ args : List Arg,
      argc + args.length ≤ 9 ∧ tokens s = args.flatMap Arg.tokens ++ tokens rest ∧
        result.spelled = addArgs ret.spelled args ∧ result.Within line ∧ rest <:+ s := by
  induction fuel generalizing argc ret s with
  | zero => omega
  | succ fuel ih =>
    simp only [parseargs]
    split_ifs with led ended other many
    · refine ⟨[], few, ?_, rfl, within, skip_suffix s⟩
      rw [peek_snd, tokens_skip]
      rfl
    · have noneLeft := gettoken_end ended
      have final := (gettoken_nil noneLeft).2
      rw [peek_snd, tokens_skip] at noneLeft
      refine ⟨[], few, ?_, rfl, within, ?_⟩
      · rw [noneLeft, final]
        simp
      · rw [final]
        exact List.nil_suffix
    · exact trivial
    · exact trivial
    · have start := (skip_suffix s)
      obtain ⟨wordWithin, wordAhead, shorter, wordSuffix⟩ :=
        gettoken_word (start.trans suffix) (not_not.mp other)
      have startLe := start.length_le
      refine (parseredirs_ends _ _ _ (Nat.lt_succ_self _)
        (wordSuffix.trans (start.trans suffix)) (addArg_within within wordWithin)).bind ?_
      rintro wrapped behind ⟨redirs, redirsPassed, wrappedSpelled, wrappedWithin, behindSuffix⟩
      have behindLe := behindSuffix.length_le
      refine (ih (argc + 1) wrapped behind (by omega)
        (by simp only [maxArgs] at many; omega)
        (behindSuffix.trans (wordSuffix.trans (start.trans suffix))) wrappedWithin).imp ?_
      rintro result rest ⟨args, fewer, argsPassed, spelled, resultWithin, restSuffix⟩
      refine ⟨⟨(gettoken (skip s)).span.text, redirs⟩ :: args, ?_, ?_, ?_, resultWithin,
        restSuffix.trans (behindSuffix.trans (wordSuffix.trans start))⟩
      · simp only [List.length_cons]
        omega
      · rw [← tokens_skip, wordAhead, redirsPassed, argsPassed]
        simp [Arg.tokens]
      · rw [spelled, wrappedSpelled, addArg_spelled]
        rfl

/-! ## Soundness of the recursion -/

/-- What the four functions do with the same fuel. A call that takes no character needs one
unit more than the function it calls. -/
structure Sound (line : Pointer) (fuel : Nat) : Prop where
  ofLine : ∀ s, s <:+ line → 4 * s.length + 4 ≤ fuel →
    Ends (parseline fuel s) (Derives Line line s)
  ofPipe : ∀ s, s <:+ line → 4 * s.length + 3 ≤ fuel →
    Ends (parsepipe fuel s) (Derives Pipe line s)
  ofExec : ∀ s, s <:+ line → 4 * s.length + 2 ≤ fuel →
    Ends (parseexec fuel s) (Derives Exec line s)
  ofBlock : ∀ s, s <:+ line → 4 * s.length + 1 ≤ fuel →
    Ends (parseblock fuel s) (Derives Exec line s)

theorem cmd_within_append {line : Pointer} {left right : Cmd Span}
    (leftWithin : left.Within line) (rightWithin : right.Within line) :
    ∀ span ∈ left.strings ++ right.strings, span.Within line := by
  intro span member
  rcases List.mem_append.mp member with member | member
  · exact leftWithin span member
  · exact rightWithin span member

theorem parseline_ends {line : Pointer} {fuel : Nat} (sound : Sound line fuel) {s : Pointer}
    (suffix : s <:+ line) (fuelled : 4 * s.length + 4 ≤ fuel + 1) :
    Ends (parseline (fuel + 1) s) (Derives Line line s) := by
  refine (sound.ofPipe s suffix (by omega)).bind ?_
  rintro cmd s' ⟨front, passed, pipe, within, suffix'⟩
  refine (parsebacks_ends _ cmd s' (Nat.lt_succ_self _) within).bind ?_
  rintro backed behind ⟨count, amps, spelled, backedWithin, behindSuffix⟩
  have front' : tokens s = front ++ List.replicate count .amp ++ tokens behind := by
    rw [passed, amps, List.append_assoc]
  dsimp only
  split_ifs with led
  · have semi := passes_symbol .semi rfl (by decide) (by decide) led
    have closer := semi.shorter
    have behindLe := (behindSuffix.trans suffix').length_le
    refine (sound.ofLine _ (semi.suffix.trans (behindSuffix.trans (suffix'.trans suffix)))
      (by omega)).bind ?_
    rintro right rest ⟨back, rightPassed, derived, rightWithin, restSuffix⟩
    refine ⟨front ++ List.replicate count .amp ++ .semi :: back, ?_, ?_,
      cmd_within_append backedWithin rightWithin,
      restSuffix.trans (semi.suffix.trans (behindSuffix.trans suffix'))⟩
    · rw [front', semi.ahead, rightPassed]
      simp
    · have tree : (Cmd.list backed right).spelled =
          .list (backs count cmd.spelled) right.spelled := by
        rw [← spelled]
        rfl
      rw [tree]
      exact .list count pipe derived
  · refine ⟨front ++ List.replicate count .amp, ?_, ?_, backedWithin,
      (skip_suffix _).trans (behindSuffix.trans suffix')⟩
    · rw [front', peek_snd, tokens_skip]
    · rw [spelled]
      exact .last count pipe

theorem parsepipe_ends {line : Pointer} {fuel : Nat} (sound : Sound line fuel) {s : Pointer}
    (suffix : s <:+ line) (fuelled : 4 * s.length + 3 ≤ fuel + 1) :
    Ends (parsepipe (fuel + 1) s) (Derives Pipe line s) := by
  refine (sound.ofExec s suffix (by omega)).bind ?_
  rintro cmd behind ⟨front, passed, exec, within, behindSuffix⟩
  dsimp only
  split_ifs with led
  · have bar := passes_symbol .pipe rfl (by decide) (by decide) led
    have closer := bar.shorter
    have behindLe := behindSuffix.length_le
    refine (sound.ofPipe _ (bar.suffix.trans (behindSuffix.trans suffix)) (by omega)).bind ?_
    rintro right rest ⟨back, rightPassed, derived, rightWithin, restSuffix⟩
    refine ⟨front ++ .pipe :: back, ?_, .pipe exec derived, cmd_within_append within rightWithin,
      restSuffix.trans (bar.suffix.trans behindSuffix)⟩
    rw [passed, bar.ahead, rightPassed]
    simp
  · refine ⟨front, ?_, .last exec, within, (skip_suffix _).trans behindSuffix⟩
    rw [passed, peek_snd, tokens_skip]

theorem parseexec_ends {line : Pointer} {fuel : Nat} (sound : Sound line fuel) {s : Pointer}
    (suffix : s <:+ line) (fuelled : 4 * s.length + 2 ≤ fuel + 1) :
    Ends (parseexec (fuel + 1) s) (Derives Exec line s) := by
  have start := skip_suffix s
  have startLe := start.length_le
  rw [parseexec]
  split_ifs with led
  · refine (sound.ofBlock (skip s) (start.trans suffix) (by omega)).imp ?_
    rintro cmd rest ⟨passed, isPassed, derived, within, restSuffix⟩
    refine ⟨passed, ?_, derived, within, restSuffix.trans start⟩
    rw [← tokens_skip, isPassed]
  · refine (parseredirs_ends _ (.exec []) (skip s) (Nat.lt_succ_self _) (start.trans suffix)
      (by rintro span ⟨⟩)).bind ?_
    rintro ret behind ⟨redirs, redirsPassed, redirected, retWithin, behindSuffix⟩
    refine (parseargs_ends _ 0 ret behind (Nat.lt_succ_self _) (Nat.zero_le 9)
      (behindSuffix.trans (start.trans suffix)) retWithin).imp ?_
    rintro result rest ⟨args, few, argsPassed, spelled, within, restSuffix⟩
    refine ⟨redirs.flatMap Redir.tokens ++ args.flatMap Arg.tokens, ?_, ?_, within,
      restSuffix.trans (behindSuffix.trans start)⟩
    · rw [← tokens_skip, redirsPassed, argsPassed, List.append_assoc]
    · have tree : result.spelled =
          wrap (.exec (args.map Arg.word)) (redirs ++ args.flatMap Arg.redirs) := by
        rw [spelled, redirected]
        exact addArgs_exec [] redirs args
      rw [tree]
      exact .simple redirs args (by omega)

theorem parseblock_ends {line : Pointer} {fuel : Nat} (sound : Sound line fuel) {s : Pointer}
    (suffix : s <:+ line) (fuelled : 4 * s.length + 1 ≤ fuel + 1) :
    Ends (parseblock (fuel + 1) s) (Derives Exec line s) := by
  rw [parseblock]
  dsimp only
  split_ifs with led
  · have opening := passes_symbol .lpar rfl (by decide) (by decide) led
    have closer := opening.shorter
    refine (sound.ofLine _ (opening.suffix.trans suffix) (by omega)).bind ?_
    rintro cmd behind ⟨inner, innerPassed, derived, within, behindSuffix⟩
    split_ifs with closed
    · have closing := passes_symbol .rpar rfl (by decide) (by decide) closed
      have reached := closing.suffix.trans (behindSuffix.trans opening.suffix)
      refine (parseredirs_ends _ cmd _ (Nat.lt_succ_self _) (reached.trans suffix) within).imp ?_
      rintro result rest ⟨redirs, redirsPassed, spelled, resultWithin, restSuffix⟩
      refine ⟨.lpar :: (inner ++ .rpar :: redirs.flatMap Redir.tokens), ?_, ?_, resultWithin,
        restSuffix.trans reached⟩
      · rw [opening.ahead, innerPassed, closing.ahead, redirsPassed]
        simp
      · rw [spelled]
        exact .block redirs derived
    · exact trivial
  · exact trivial

theorem parse_sound (line : Pointer) (fuel : Nat) : Sound line fuel := by
  induction fuel with
  | zero =>
    constructor <;>
    · intro s suffix fuelled
      omega
  | succ fuel ih =>
    exact {
      ofLine := fun s => parseline_ends ih
      ofPipe := fun s => parsepipe_ends ih
      ofExec := fun s => parseexec_ends ih
      ofBlock := fun s => parseblock_ends ih }

end Rexv6.Shell
