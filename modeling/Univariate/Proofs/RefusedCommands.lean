import Univariate.Session.Command

/-!
# What a refused command is blamed on

A line that is refused is shown again with one part of it underlined. Positions are counted in
characters of the line without the blanks around it, and the underlined part is found from the
words that the line was cut into. Each word is a part of what was left of the line when it was cut
off, so its place is known from how much was left. Blanks of any kind and number may stand between
the words, and they are skipped together with the word in front of them.

A part that is underlined is never empty. A missing argument is blamed on the command, which has a
name, and a point or a name is looked at only if it is there.

## Main definitions

* `Problem.culprit?`: the part of a line that a problem is blamed on.
* `Command.Answered`: what the reader of commands can answer.

## Main results

* `Command.marks_spanOf`: the place of a word marks the word.
* `Command.answered_parseAfterColon`: a command is refused with the culprit underlined.
* `Command.marks_culprit_of_parse_eq_error`: the same for a whole line.
-/

namespace Univariate

open Univariate.Text

/-- The part of a line that a problem with its command is blamed on. For an unknown command that is
the whole line. Other problems than those of commands are not blamed on a line. -/
def Problem.culprit? (line : List Char) : Problem → Option (List Char)
  | .unknownCommand _ => some line
  | .missingArgument command _ => some command.toList
  | .invalidPoint found | .invalidName found => some found.toList
  | .unexpectedEnd | .unexpectedInput _ _ | .errorReached _ => none

/-! ### Words and their places -/

/-- The first word of a text is in front. -/
theorem prefix_of_splitWord {cs word rest : List Char} (h : splitWord cs = (word, rest)) :
    word <+: cs := by
  obtain ⟨rfl, -⟩ := Prod.mk.inj h
  exact List.takeWhile_prefix _

/-- What follows the first word reaches to the end of the text. -/
theorem suffix_of_splitWord {cs word rest : List Char} (h : splitWord cs = (word, rest)) :
    rest <:+ cs := by
  obtain ⟨-, rfl⟩ := Prod.mk.inj h
  exact (List.dropWhile_suffix _).trans (List.dropWhile_suffix _)

namespace Command

/-- **The place of a word marks the word**, if the word is in front of an end of the line. -/
theorem marks_spanOf {line suffix word : List Char} (hsuffix : suffix <:+ line)
    (hword : word <+: suffix) (hne : word ≠ []) : (spanOf line suffix word).Marks line word := by
  obtain ⟨before, rfl⟩ := hsuffix
  obtain ⟨behind, rfl⟩ := hword
  have hpos : 0 < word.length := List.length_pos_iff.mpr hne
  have hspan : spanOf (before ++ (word ++ behind)) (word ++ behind) word =
      ⟨before.length, before.length + word.length⟩ := by
    rw [spanOf, List.length_append, Nat.add_sub_cancel, Nat.max_eq_right hpos]
  rw [hspan, ← List.append_assoc]
  exact Span.marks_append before behind hne

/-! ### Reading a command -/

/-- What the reader of commands can answer. It reads a command, or it refuses a line on account of a
part that stands in it at the given place. -/
inductive Answered (line : List Char) : Except Failure Command → Prop
  | command (c : Command) : Answered line (.ok c)
  | refused {suffix word : List Char} {problem : Problem} : suffix <:+ line → word <+: suffix →
      word ≠ [] → problem.culprit? line = some word →
      Answered line (refuse line suffix word problem)

/-- A missing argument is blamed on the word of the command. -/
theorem answered_missing {line rest word args : List Char} (hrest : rest <:+ line)
    (hword : splitWord rest = (word, args)) (hne : word ≠ []) (argument : Argument) :
    Answered line (refuse line rest word (.missingArgument (String.ofList word) argument)) :=
  .refused hrest (prefix_of_splitWord hword) hne (congrArg some String.toList_ofList)

theorem Answered.ite {line : List Char} {missing : Bool} {r r' : Except Failure Command}
    (h : Answered line r) (h' : Answered line r') : Answered line (if missing then r else r') := by
  cases missing with
  | false => exact h'
  | true => exact h

theorem ne_nil_of_ofList_eq {word : List Char} {name : String} (h : String.ofList word = name)
    (hname : name ≠ "") : word ≠ [] := by
  rintro rfl
  exact hname h.symm

/-- **A command is refused with the culprit underlined.** -/
theorem answered_parseAfterColon (rest : List Char) :
    Answered (':' :: rest) (parseAfterColon (':' :: rest) rest) := by
  have hrest : rest <:+ ':' :: rest := List.suffix_cons ':' rest
  unfold parseAfterColon
  generalize hword : splitWord rest = words
  obtain ⟨word, args⟩ := words
  have hargs : args <:+ ':' :: rest := (suffix_of_splitWord hword).trans hrest
  have hmissing : ∀ argument name, String.ofList word = name → name ≠ "" →
      Answered (':' :: rest)
        (refuse (':' :: rest) rest word (.missingArgument (String.ofList word) argument)) :=
    fun argument name h hname => answered_missing hrest hword (ne_nil_of_ofList_eq h hname) argument
  dsimp only
  split
  · next h =>
    split
    · exact hmissing _ _ h (by decide)
    · next hpoint =>
      split
      · refine .refused hargs (prefix_of_splitWord rfl) (by simpa using hpoint) ?_
        exact congrArg some String.toList_ofList
      · exact .ite (hmissing _ _ h (by decide)) (.command _)
  · next h => exact .ite (hmissing _ _ h (by decide)) (.command _)
  · next h => exact .ite (hmissing _ _ h (by decide)) (.command _)
  · next h => exact .ite (hmissing _ _ h (by decide)) (.command _)
  · next h =>
    split
    · exact hmissing _ _ h (by decide)
    · next hname =>
      split
      · exact .command _
      · refine .refused hargs List.prefix_rfl (by simpa using hname) ?_
        exact congrArg some String.toList_ofList
  · exact .command _
  · exact .refused List.suffix_rfl List.prefix_rfl (List.cons_ne_nil _ _) rfl

/-- **What is underlined in a line that is refused.** The failure is that of a command. It keeps the
line without the blanks around it, and it has one span, which marks the part of that line that the
problem is blamed on. -/
theorem marks_culprit_of_parse_eq_error {text : String} {f : Failure}
    (h : parse text = .error f) :
    ∃ span problem part, f = .command (String.ofList (trim text.toList)) ⟨[span], problem⟩ ∧
      problem.culprit? (trim text.toList) = some part ∧ span.Marks (trim text.toList) part := by
  rw [parse] at h
  split at h
  · next rest hline =>
    have hanswered := answered_parseAfterColon rest
    rw [h] at hanswered
    generalize hr : Except.error f = r at hanswered
    cases hanswered with
    | command c => contradiction
    | @refused suffix word problem hsuffix hprefix hne hculprit =>
      rw [hline]
      exact ⟨_, problem, word, Except.error.inj hr, hculprit, marks_spanOf hsuffix hprefix hne⟩
  · contradiction

/-- A point that is not a number, behind a blank that takes up three bytes. -/
theorem marks_culprit_of_parse_eq_error_point :
    ∃ f, parse "\u3000:eval\u2003zwei x" = .error f ∧
      f.diagnostics = [⟨[⟨6, 10⟩], .invalidPoint "zwei"⟩] ∧
      Span.Marks ⟨6, 10⟩ (trim "\u3000:eval\u2003zwei x".toList) "zwei".toList := by
  have hparse : parse "\u3000:eval\u2003zwei x" = .error (.command ":eval\u2003zwei x"
      ⟨[⟨6, 10⟩], .invalidPoint "zwei"⟩) := rfl
  obtain ⟨span, problem, part, hf, hculprit, hmarks⟩ := marks_culprit_of_parse_eq_error hparse
  obtain ⟨-, ⟨rfl, -⟩, rfl⟩ := by simpa using hf
  obtain rfl := Option.some.inj hculprit
  exact ⟨_, hparse, rfl, hmarks⟩

end Command

end Univariate
