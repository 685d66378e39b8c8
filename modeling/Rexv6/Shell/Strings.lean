import Rexv6.Shell.Grammar

/-!
Contract: the strings that a parsed command points at.

Owns: that the zeros of `nulterminate` end each word of the tree where the parser ended it,
and that none of them falls on a character of a word.

Does not own: which trees the parser returns.
-/

namespace Rexv6.Shell

/-! ## The strings of the tree -/

theorem nulterminate_eq (cmd : Cmd Span) (buffer : Buffer) :
    nulterminate cmd buffer = cmd.strings.foldl Buffer.cut buffer := by
  induction cmd generalizing buffer with
  | exec argv => rfl
  | redir cmd file mode fd ih =>
    rw [nulterminate, ih, Cmd.strings, List.foldl_append]
    rfl
  | pipe left right leftHypothesis rightHypothesis
  | list left right leftHypothesis rightHypothesis =>
    rw [nulterminate, leftHypothesis, rightHypothesis, Cmd.strings, List.foldl_append]
  | back cmd ih => exact ih buffer

/-- The zeros are at the ends of the strings, and nothing else changes. -/
theorem cuts_apply (spans : List Span) (buffer : Buffer) (distance : Nat) :
    spans.foldl Buffer.cut buffer distance =
      if distance ∈ spans.map (·.stop.length) then nul else buffer distance := by
  induction spans generalizing buffer with
  | nil => rfl
  | cons span spans ih =>
    rw [List.foldl_cons, ih]
    by_cases here : distance = span.stop.length
    · simp [Buffer.cut, here]
    · simp [Buffer.cut, here]

theorem ofLine_suffix {line s : Pointer} (suffix : s <:+ line) :
    Buffer.ofLine line s.length = deref s := by
  rw [Buffer.ofLine, ← List.suffix_iff_eq_drop.mp suffix]

theorem Span.Within.stop_suffix {line : Pointer} {span : Span} (within : span.Within line) :
    span.stop <:+ line :=
  List.IsSuffix.trans ⟨_, within.reads.spelled.symm⟩ within.suffix

/-- No string ends at a character of a word: the character at the end of a string belongs
to no word. -/
theorem Span.Within.stop_ne_word {line rest : Pointer} {span : Span} {c : Char}
    (within : span.Within line) (suffix : c :: rest <:+ line) (plain : wordChar c = true) :
    span.stop.length ≠ (c :: rest).length := by
  intro sameLength
  have same : span.stop = c :: rest := by
    rw [List.suffix_iff_eq_drop.mp within.stop_suffix, List.suffix_iff_eq_drop.mp suffix,
      sameLength]
  have outside := within.reads.maximal c (by rw [same]; rfl)
  rw [plain] at outside
  cases outside

/-- No string ends inside another one. -/
theorem Span.Within.stop_outside {line : Pointer} {span other : Span}
    (within : span.Within line) (otherWithin : other.Within line) {distance : Nat}
    (after : span.stop.length < distance) (upTo : distance ≤ span.start.length) :
    other.stop.length ≠ distance := by
  have spelled := within.reads.spelled
  have sized : span.start.length = span.text.length + span.stop.length := by
    rw [← List.length_append, ← spelled]
  -- the character at the distance, and what is behind it
  obtain ⟨c, rest, split⟩ : ∃ c rest, span.text.drop (span.start.length - distance) =
      c :: rest := by
    refine List.exists_cons_of_length_pos ?_
    rw [List.length_drop]
    omega
  have member : c ∈ span.text := List.mem_of_mem_drop (split ▸ List.mem_cons_self)
  have lengths : (c :: (rest ++ span.stop)).length = distance := by
    have counted := congrArg List.length split
    simp only [List.length_drop, List.length_cons, List.length_append] at counted ⊢
    omega
  have suffix : c :: (rest ++ span.stop) <:+ line := by
    refine List.IsSuffix.trans ⟨span.text.take (span.start.length - distance), ?_⟩ within.suffix
    rw [← List.cons_append, ← split, ← List.append_assoc, List.take_append_drop]
    exact spelled.symm
  rw [← lengths]
  exact otherWithin.stop_ne_word suffix (within.reads.plain c member)

/-- A word of the tree is read back up to its end: no string of the tree ends inside it. -/
theorem cstr_word {line : Pointer} {cmd : Cmd Span} (noNul : nul ∉ line)
    (within : cmd.Within line) {span : Span} (member : span ∈ cmd.strings) (text : List Char)
    (suffix : text ++ span.stop <:+ line) (plain : ∀ c ∈ text, wordChar c = true) :
    (nulterminate cmd (Buffer.ofLine line)).cstr (text ++ span.stop).length = text := by
  rw [nulterminate_eq]
  induction text with
  | nil =>
    have zero : cmd.strings.foldl Buffer.cut (Buffer.ofLine line) span.stop.length = nul := by
      rw [cuts_apply, if_pos (List.mem_map.mpr ⟨span, member, rfl⟩)]
    rw [List.nil_append]
    cases isLength : span.stop.length with
    | zero => rfl
    | succ length =>
      rw [isLength] at zero
      rw [Buffer.cstr, if_pos zero]
  | cons c text ih =>
    have notCut : (c :: text ++ span.stop).length ∉ cmd.strings.map (·.stop.length) := by
      intro isCut
      obtain ⟨other, isOther, sameLength⟩ := List.mem_map.mp isCut
      exact (within other isOther).stop_ne_word suffix (plain c List.mem_cons_self) sameLength
    have here : cmd.strings.foldl Buffer.cut (Buffer.ofLine line)
        ((text ++ span.stop).length + 1) = c := by
      rw [← List.length_cons (a := c), ← List.cons_append, cuts_apply, if_neg notCut,
        ofLine_suffix suffix]
      rfl
    have notNul : c ≠ nul := by
      rintro rfl
      exact noNul (suffix.subset List.mem_cons_self)
    rw [List.cons_append, List.length_cons, Buffer.cstr, here, if_neg notNul,
      ih ((List.suffix_cons c _).trans suffix)
        (fun d isMember => plain d (List.mem_cons_of_mem c isMember))]

/-- Each string of the tree is read back as the word that the parser found. -/
theorem cstr_string {line : Pointer} {cmd : Cmd Span} (noNul : nul ∉ line)
    (within : cmd.Within line) {span : Span} (member : span ∈ cmd.strings) :
    (nulterminate cmd (Buffer.ofLine line)).cstr span.start.length = span.text := by
  have spanWithin := within span member
  have spelled := spanWithin.reads.spelled
  have reads := cstr_word noNul within member span.text (spelled ▸ spanWithin.suffix)
    spanWithin.reads.plain
  rwa [← spelled] at reads

/-! ## The line of the parser -/

theorem nul_not_mem_cut (line : List Char) : nul ∉ cut line := by
  intro member
  simpa using List.all_eq_true.mp List.all_takeWhile nul member

theorem parseline_sound (line : List Char) :
    Ends (parseline (enough (cut line)) (cut line)) (Derives Line (cut line) (cut line)) :=
  (parse_sound (cut line) (enough (cut line))).ofLine (cut line) (List.suffix_refl _)
    (Nat.le_refl _)

theorem parsecmd_ok {line : List Char} {cmd : Cmd Span} {rest : Pointer}
    (result : parseline (enough (cut line)) (cut line) = .ok (cmd, rest)) :
    parsecmd line =
      if (peek rest []).2 ≠ [] then
        .error (.panics ["leftovers: " ++ String.ofList (peek rest []).2, "syntax"])
      else .ok (cmd, nulterminate cmd (Buffer.ofLine (cut line))) := by
  simp only [parsecmd, result]
  rfl

/-- For every line that `parsecmd` accepts, each string of the tree is a word of the line
between the two pointers that the parser recorded, the buffer reads back as that word from
its first pointer on, and the zero that ends a string leaves every character of every word
as it was. -/
theorem nulterminate_yields_words {line : List Char} {cmd : Cmd Span} {buffer : Buffer}
    (accepted : parsecmd line = .ok (cmd, buffer)) :
    ∀ span ∈ cmd.strings,
      span.Within (cut line) ∧ buffer.cstr span.start.length = span.text ∧
        ∀ other ∈ cmd.strings, ∀ (written : Buffer) (distance : Nat),
          span.stop.length < distance → distance ≤ span.start.length →
            written.cut other distance = written distance := by
  cases result : parseline (enough (cut line)) (cut line) with
  | error stop =>
    simp only [parsecmd, result] at accepted
    cases accepted
  | ok value =>
    have sound := parseline_sound line
    rw [result] at sound
    obtain ⟨passed, -, -, within, -⟩ := sound
    rw [parsecmd_ok result] at accepted
    split at accepted
    · cases accepted
    · cases accepted
      intro span member
      refine ⟨within span member, cstr_string (nul_not_mem_cut line) within member, ?_⟩
      intro other isOther written distance after upTo
      have outside := (within span member).stop_outside (within other isOther) after upTo
      exact Function.update_of_ne outside.symm nul written

/-- The tree of `ab|cd>e`, where only operators are between the words. -/
def pipeline : Cmd Span :=
  .pipe (.exec [⟨"ab|cd>e".toList, "|cd>e".toList⟩])
    (.redir (.exec [⟨"cd>e".toList, ">e".toList⟩]) ⟨"e".toList, []⟩ oWronlyCreate 1)

theorem nulterminate_yields_words_pipeline :
    parsecmd "ab|cd>e".toList =
        .ok (pipeline, nulterminate pipeline (Buffer.ofLine "ab|cd>e".toList)) ∧
      (nulterminate pipeline (Buffer.ofLine "ab|cd>e".toList)).cstr "cd>e".toList.length =
        "cd".toList := by
  have accepted : parsecmd "ab|cd>e".toList =
      .ok (pipeline, nulterminate pipeline (Buffer.ofLine "ab|cd>e".toList)) := rfl
  have member : ⟨"cd>e".toList, ">e".toList⟩ ∈ pipeline.strings :=
    List.mem_cons_of_mem _ List.mem_cons_self
  exact ⟨accepted, (nulterminate_yields_words accepted _ member).2.1⟩

end Rexv6.Shell
