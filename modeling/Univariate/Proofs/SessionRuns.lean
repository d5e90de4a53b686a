import Mathlib
import Univariate.Proofs.ErrorReports
import Univariate.Proofs.VariableNames
import Univariate.Session.Basic

/-!
# Runs of a session

A session remembers the name of its variable and nothing else. So what a line does in a run of a
session depends on the lines before it through that name only, and the name is that of the latest
line that has set it. Every other line leaves the session as it was, and above all a line that
fails does.

A line can fail in three ways according to `Failure`, but only two of them occur. A tree that is
computed with has been read without an error, and without an error leaf no computation fails. What
is left are commands that are malformed, and expressions that cannot be read. Such an expression is
reported with one diagnostic, because reading it stops at the first error.

## Main definitions

* `SetsVariable`: the lines that set the variable.
* `Session.Outcome`: what a line can do.
* `Session.behind`: the session behind some lines.
* `LatestName`: the name that was set last.

## Main results

* `Command.parse_eq_setVariable_iff`: the lines that are read as a command to set the variable.
* `Session.outcome_step`: what one line does.
* `Session.latestName_behind`: the name behind any number of lines.
* `Session.outcome_of_start`: what every line of a run does.
-/

namespace Univariate

open Univariate.Text

/-! ### Lines that set the variable -/

/-- A line that sets the variable. It consists of the word `:var`, of blanks, and of a name that a
variable can have, and there may be blanks around it. -/
structure SetsVariable (line name : String) : Prop where
  /-- The name is one that a variable can have. -/
  isVariable : IsVariable name
  /-- The line has this form. -/
  exists_blanks : ∃ blanks : List Char, blanks ≠ [] ∧ (∀ c ∈ blanks, isBlank c = true) ∧
    trim line.toList = ":var".toList ++ (blanks ++ name.toList)

/-- The first word of a text ends at the blanks behind it. -/
theorem splitWord_append {word blanks rest : List Char} (hword : ∀ c ∈ word, isBlank c = false)
    (hne : blanks ≠ []) (hblanks : ∀ c ∈ blanks, isBlank c = true)
    (hrest : ∀ c ∈ rest.head?, isBlank c = false) :
    splitWord (word ++ (blanks ++ rest)) = (word, rest) := by
  obtain ⟨b, blanks, rfl⟩ := List.exists_cons_of_ne_nil hne
  have hb : isBlank b = true := hblanks b (List.mem_cons_self ..)
  have hword' : ∀ c ∈ word, (!isBlank c) = true := fun c hc => by rw [hword c hc]; rfl
  have hdrop : trimStart rest = rest := by
    cases rest with
    | nil => rfl
    | cons c rest => rw [trimStart, List.dropWhile_cons_of_neg (by simp [hrest c rfl])]
  rw [splitWord, List.takeWhile_append_of_pos hword', List.dropWhile_append_of_pos hword',
    List.cons_append, List.takeWhile_cons_of_neg (by simp [hb]),
    List.dropWhile_cons_of_neg (by simp [hb]), List.append_nil, trimStart,
    ← List.cons_append, List.dropWhile_append_of_pos hblanks]
  exact congrArg (word, ·) hdrop

/-- If something follows the first word of a text, there are blanks between the two. -/
theorem exists_blanks_of_splitWord {cs word rest : List Char} (h : splitWord cs = (word, rest))
    (hne : rest ≠ []) : ∃ blanks : List Char, blanks ≠ [] ∧ (∀ c ∈ blanks, isBlank c = true) ∧
      cs = word ++ (blanks ++ rest) := by
  obtain ⟨rfl, hrest⟩ := Prod.mk.inj h
  refine ⟨(cs.dropWhile fun c => !isBlank c).takeWhile isBlank, ?_, ?_, ?_⟩
  · -- what is behind the word starts with a blank, or the word would go on
    have hbehind : cs.dropWhile (fun c => !isBlank c) ≠ [] := by
      intro hnil
      rw [hnil] at hrest
      exact hne hrest.symm
    have hhead := List.head_dropWhile_not (fun c => !isBlank c) hbehind
    rw [← List.cons_head_tail hbehind, List.takeWhile_cons_of_pos (by simpa using hhead)]
    exact List.cons_ne_nil _ _
  · intro c hc
    exact List.all_eq_true.mp List.all_takeWhile c hc
  · rw [← hrest, trimStart, List.takeWhile_append_dropWhile, List.takeWhile_append_dropWhile]

namespace Command

/-- What a line that starts with a colon can be read as. It is refused, or it is a command, which
sets the variable only if its word is `var` and its argument is a name that a variable can have. -/
inductive Parsed (line rest : List Char) : Except Failure Command → Prop
  | refused {suffix word : List Char} {problem : Problem} :
      Parsed line rest (refuse line suffix word problem)
  | command {c : Command} :
      (∀ name, c = .setVariable name →
        splitWord rest = ("var".toList, name.toList) ∧ isVariableName name = true) →
      Parsed line rest (.ok c)

theorem Parsed.unless {line rest suffix word : List Char} {problem : Problem} {missing : Bool}
    {r : Except Failure Command} (h : Parsed line rest r) :
    Parsed line rest (if missing then refuse line suffix word problem else r) := by
  cases missing with
  | false => exact h
  | true => exact .refused

theorem parsed_parseAfterColon (line rest : List Char) :
    Parsed line rest (parseAfterColon line rest) := by
  unfold parseAfterColon
  dsimp only
  split
  · refine .unless ?_
    split
    · exact .refused
    · exact .unless (.command nofun)
  · exact .unless (.command nofun)
  · exact .unless (.command nofun)
  · exact .unless (.command nofun)
  · next hword =>
    refine .unless ?_
    split
    · next hname =>
      refine .command ?_
      rintro _ ⟨rfl⟩
      refine ⟨?_, hname⟩
      rw [← hword, String.toList_ofList, String.toList_ofList]
    · exact .refused
  · exact .command nofun
  · exact .refused

/-- A line that is refused is a malformed command. -/
theorem exists_command_of_parse_eq_error {line : String} {f : Failure}
    (h : parse line = .error f) : ∃ l d, f = .command l d := by
  rw [parse] at h
  split at h
  · next rest _ =>
    have hparsed := parsed_parseAfterColon (':' :: rest) rest
    rw [h] at hparsed
    generalize hr : Except.error f = r at hparsed
    cases hparsed with
    | refused =>
      obtain ⟨rfl⟩ := hr
      exact ⟨_, _, rfl⟩
    | command => contradiction
  · contradiction

theorem parseAfterColon_eq_setVariable_iff {line rest : List Char} {name : String} :
    parseAfterColon line rest = .ok (.setVariable name) ↔
      splitWord rest = ("var".toList, name.toList) ∧ isVariableName name = true := by
  constructor
  · intro h
    have hparsed := parsed_parseAfterColon line rest
    generalize hr : parseAfterColon line rest = r at hparsed
    cases hparsed with
    | refused => cases hr.symm.trans h
    | command hc => exact hc name (Except.ok.inj (hr.symm.trans h))
  · rintro ⟨hsplit, hname⟩
    have hne : name.toList.isEmpty = false := by
      have hvariable := isVariableName_iff.mp hname
      simpa using hvariable.isNameText.ne_nil
    simp only [parseAfterColon, hsplit, String.ofList_toList, hne, hname]
    rfl

/-- **The lines that are read as a command to set the variable.** -/
theorem parse_eq_setVariable_iff {line name : String} :
    parse line = .ok (.setVariable name) ↔ SetsVariable line name := by
  constructor
  · intro h
    unfold parse at h
    split at h
    · next rest hline =>
      obtain ⟨hsplit, hname⟩ := parseAfterColon_eq_setVariable_iff.mp h
      have hvariable := isVariableName_iff.mp hname
      obtain ⟨blanks, hne, hblanks, hrest⟩ :=
        exists_blanks_of_splitWord hsplit hvariable.isNameText.ne_nil
      refine ⟨hvariable, blanks, hne, hblanks, ?_⟩
      rw [hline, hrest]
      rfl
    · cases h
  · rintro ⟨hvariable, blanks, hne, hblanks, hline⟩
    have hword : IsNameText "var".toList := by decide
    have hsplit : splitWord ("var".toList ++ (blanks ++ name.toList)) =
        ("var".toList, name.toList) := by
      refine splitWord_append hword.not_blank hne hblanks ?_
      intro c hc
      exact hvariable.not_blank c (List.mem_of_mem_head? hc)
    rw [parse, hline]
    exact parseAfterColon_eq_setVariable_iff.mpr ⟨hsplit, isVariableName_iff.mpr hvariable⟩

end Command

/-! ### One line -/

namespace Session

/-- What a line can do. It sets the variable, or it leaves the session as it was and is answered by
a text, or it fails, because the command is malformed or because there is one thing wrong with the
expression. -/
inductive Outcome (s : Session) (line : String) : Except Failure String × Session → Prop
  | sets {name : String} : SetsVariable line name →
      Outcome s line (.ok ("the variable is now `" ++ name ++ "`"), ⟨name⟩)
  | shows {text : String} : (∀ name, ¬ SetsVariable line name) → Outcome s line (.ok text, s)
  | malformed {l : String} {d : Diagnostic} : (∀ name, ¬ SetsVariable line name) →
      Outcome s line (.error (.command l d), s)
  | unreadable {text : String} {d : Diagnostic} : (∀ name, ¬ SetsVariable line name) →
      Outcome s line (.error (.expression text [d]), s)

/-- An expression is read without an error, or there is one thing wrong with it. -/
theorem read_cases (s : Session) (expr : String) :
    (∃ tree, s.read expr = .ok tree ∧ tree.errorOffsets = []) ∨
      ∃ text d, s.read expr = .error (.expression text [d]) := by
  obtain ⟨d, hd⟩ | ⟨p, ys, -, -, herror⟩ := Expr.parse_cases (R := Double) s.name expr
  · have hnil : (Expr.parse s.name expr : Expr Double).errorOffsets = [] := by
      rw [hd, d.errorFree_denote]
    refine .inl ⟨Expr.parse s.name expr, ?_, hnil⟩
    exact if_neg (by rw [Bool.not_eq_true, Expr.hasError_eq_false_iff, hnil])
  · have hfailed : (Expr.parse s.name expr : Expr Double).hasError = true := by
      rw [← Bool.not_eq_false, Expr.hasError_eq_false_iff, herror]
      exact List.cons_ne_nil _ _
    have hds : (Expr.parse s.name expr : Expr Double).diagnostics s.name (strip expr) = [_] :=
      congrArg (List.map _) herror
    exact .inr ⟨_, _, (if_pos hfailed).trans (by rw [hds])⟩

/-- A computation that does not meet an error has a result. -/
theorem exists_computed {α : Type} {good : α → Prop} {r : Except Diagnostic α}
    (h : StopsAt [] good r) (expr : String) : ∃ a, computed expr r = .ok a := by
  obtain ⟨a, rfl⟩ := h.exists_ok
  exact ⟨a, rfl⟩

/-- What is computed from an expression and shown, given that the computation does not fail where
there are no errors. -/
theorem answer_of_read {s : Session} {expr : String} {f : Expr Double → Except Failure String}
    (hf : ∀ tree, tree.errorOffsets = [] → ∃ text, f tree = .ok text) :
    (∃ text, (s.read expr).bind f = .ok text) ∨
      ∃ text d, (s.read expr).bind f = .error (.expression text [d]) := by
  obtain ⟨tree, hread, hnil⟩ | ⟨text, d, hread⟩ := s.read_cases expr
  · obtain ⟨text, htext⟩ := hf tree hnil
    exact .inl ⟨text, by rw [hread]; exact htext⟩
  · exact .inr ⟨text, d, by rw [hread]; rfl⟩

/-- A command is answered by a text, or there is one thing wrong with its expression. -/
theorem answer_cases (s : Session) (c : Command) :
    (∃ text, s.answer c = .ok text) ∨ ∃ text d, s.answer c = .error (.expression text [d]) := by
  cases c with
  | display expr => exact answer_of_read fun tree _ => ⟨_, rfl⟩
  | poly expr => exact answer_of_read fun tree _ => ⟨_, rfl⟩
  | latex expr => exact answer_of_read fun tree _ => ⟨_, rfl⟩
  | eval x expr =>
    refine answer_of_read fun tree hnil => ?_
    have hvalue := Expr.stopsAt_eval tree x
    rw [hnil] at hvalue
    obtain ⟨y, hy⟩ := exists_computed hvalue expr
    exact ⟨_, by rw [hy]; rfl⟩
  | diff expr =>
    refine answer_of_read fun tree hnil => ?_
    have hderivative := Expr.stopsAt_derivative tree
    rw [hnil] at hderivative
    obtain ⟨d, hd⟩ := exists_computed hderivative expr
    exact ⟨_, by rw [hd]; rfl⟩
  | setVariable name => exact .inl ⟨_, rfl⟩
  | help => exact .inl ⟨_, rfl⟩

/-- A command other than the one that sets the variable leaves the session as it was. -/
theorem after_eq_self {s : Session} {c : Command} (hc : ¬ ∃ name, c = .setVariable name) :
    s.after c = s := by
  cases c with
  | setVariable name => exact absurd ⟨name, rfl⟩ hc
  | _ => rfl

/-- **What one line does.** -/
theorem outcome_step (s : Session) (line : String) : Outcome s line (s.step line) := by
  have hsets : ∀ name, SetsVariable line name → Command.parse line = .ok (.setVariable name) :=
    fun _ => Command.parse_eq_setVariable_iff.mpr
  rw [step]
  generalize hparse : Command.parse line = parsed at hsets
  cases parsed with
  | error f =>
    obtain ⟨l, d, rfl⟩ := Command.exists_command_of_parse_eq_error hparse
    exact .malformed fun name hname => nomatch hsets name hname
  | ok c =>
    by_cases hc : ∃ name, c = .setVariable name
    · obtain ⟨name, rfl⟩ := hc
      exact .sets (Command.parse_eq_setVariable_iff.mp hparse)
    · have hnone : ∀ name, ¬ SetsVariable line name :=
        fun name hname => hc ⟨name, Except.ok.inj (hsets name hname)⟩
      have hexecute : (Except.ok c : Except Failure Command).bind s.execute =
          (s.answer c).map fun text => (text, s.after c) := rfl
      rw [hexecute, after_eq_self hc]
      obtain ⟨text, hanswer⟩ | ⟨text, d, hanswer⟩ := s.answer_cases c
      · rw [hanswer]
        exact .shows hnone
      · rw [hanswer]
        exact .unreadable hnone

/-! ### Any number of lines -/

/-- The session behind some lines. -/
def behind (s : Session) (lines : List String) : Session :=
  lines.foldl (fun s line => (s.step line).2) s

theorem behind_concat (s : Session) (lines : List String) (line : String) :
    s.behind (lines ++ [line]) = ((s.behind lines).step line).2 :=
  List.foldl_append

end Session

/-- The name that some lines leave behind: the one that the latest line has set that has set any, or
the initial one, if no line has. -/
inductive LatestName (initial : String) (lines : List String) : String → Prop
  | initial : (∀ line ∈ lines, ∀ name, ¬ SetsVariable line name) → LatestName initial lines initial
  | latest {earlier later : List String} {line name : String} :
      lines = earlier ++ line :: later → SetsVariable line name →
      (∀ line' ∈ later, ∀ name', ¬ SetsVariable line' name') → LatestName initial lines name

/-- A line that does not set the variable is not the latest one that does. -/
theorem LatestName.concat {initial name line : String} {lines : List String}
    (h : LatestName initial lines name) (hline : ∀ name', ¬ SetsVariable line name') :
    LatestName initial (lines ++ [line]) name := by
  have hlast : ∀ line' ∈ [line], ∀ name', ¬ SetsVariable line' name' := by
    intro line' hline'
    rw [List.mem_singleton.mp hline']
    exact hline
  cases h with
  | initial hnone =>
    exact .initial fun line' hline' => (List.mem_append.mp hline').elim (hnone _) (hlast _)
  | @latest earlier later line' _ hlines hsets hnone =>
    have hlines' : lines ++ [line] = earlier ++ line' :: (later ++ [line]) := by
      rw [hlines, List.append_assoc, List.cons_append]
    refine .latest hlines' hsets ?_
    exact fun line' hline' => (List.mem_append.mp hline').elim (hnone _) (hlast _)

/-- Only names that a variable can have are ever set. -/
theorem LatestName.isVariable {initial name : String} {lines : List String}
    (h : LatestName initial lines name) (hinitial : IsVariable initial) : IsVariable name := by
  cases h with
  | initial _ => exact hinitial
  | latest _ hsets _ => exact hsets.isVariable

namespace Session

/-- **The name behind any number of lines.** -/
theorem latestName_behind (s : Session) (lines : List String) :
    LatestName s.name lines (s.behind lines).name := by
  induction lines using List.reverseRecOn with
  | nil => exact .initial fun line hline => absurd hline List.not_mem_nil
  | append_singleton lines line ih =>
    rw [behind_concat]
    have hline := outcome_step (s.behind lines) line
    generalize (s.behind lines).step line = r at hline
    cases hline with
    | sets hname => exact .latest rfl hname fun line' hline' => absurd hline' List.not_mem_nil
    | shows hnone => exact ih.concat hnone
    | malformed hnone => exact ih.concat hnone
    | unreadable hnone => exact ih.concat hnone

theorem checkName_eq_ok_iff {name : String} : checkName name = .ok () ↔ IsVariable name := by
  rw [checkName, ← isVariableName_iff]
  split
  · next h => simp [h]
  · next h => simp [h]

/-- A session is started with the name that it was given, and only if a variable can have it. -/
theorem start_eq_ok_iff {name : String} {s : Session} :
    start name = .ok s ↔ checkName name = .ok () ∧ s = ⟨name⟩ := by
  rw [start]
  split
  · next h => simp [h, eq_comm]
  · next h => simp [h]

/-- **What every line of a run does.** In a session that was started, the variable has a name that a
variable can have, whatever lines have been read, and it is the latest one that was set. The next
line has one of the outcomes that a line can have. -/
theorem outcome_of_start {name : String} {s : Session} (h : start name = .ok s)
    (lines : List String) :
    checkName (s.behind lines).name = .ok () ∧ LatestName name lines (s.behind lines).name ∧
      ∀ line, Outcome (s.behind lines) line ((s.behind lines).step line) := by
  obtain ⟨hname, rfl⟩ := start_eq_ok_iff.mp h
  have hlatest := latestName_behind ⟨name⟩ lines
  have hvariable := hlatest.isVariable (checkName_eq_ok_iff.mp hname)
  exact ⟨checkName_eq_ok_iff.mpr hvariable, hlatest, outcome_step _⟩

/-- A name that a variable cannot have is refused, and the one that was set before it stays. -/
theorem outcome_of_start_refused :
    start "x" = .ok ⟨"x"⟩ ∧ (⟨"x"⟩ : Session).behind [":var t", ":var 2"] = ⟨"t"⟩ ∧
      checkName "t" = .ok () ∧ LatestName "x" [":var t", ":var 2"] "t" ∧
      ∀ line, Outcome ⟨"t"⟩ line ((⟨"t"⟩ : Session).step line) := by
  have hstart : start "x" = .ok ⟨"x"⟩ := by cbv
  have hbehind : (⟨"x"⟩ : Session).behind [":var t", ":var 2"] = ⟨"t"⟩ := by cbv
  have hrun := outcome_of_start hstart [":var t", ":var 2"]
  rw [hbehind] at hrun
  exact ⟨hstart, hbehind, hrun⟩

end Session

end Univariate
