import Mathlib.Data.List.Chain
import Mathlib.Data.List.Infix
import Univariate.Proofs.Lexing
import Univariate.Proofs.Pinpointing

/-!
# Each token is the longest match

A text is cut into tokens from its front. Each kind of token has a pattern, which describes the
texts that a token of that kind can have, and the first token is the longest text in front that any
pattern describes. Where several patterns describe it, the one that describes any character gives
way. Where none does, the first character becomes a token all the same, so nothing is skipped.

The function that cuts off the first token knows nothing of this rule. It looks at one character and
decides what to take. That it follows the rule is the one place where the characters matter
(`chosen_splitToken`). Everything else follows from the rule and from the fact that the lexemes make
up the text: where tokens start and end, which of them are single characters, and which are not
described by any pattern. These are the line feeds.

A point needs care. It belongs to a number only if a digit follows it, so the longest number in
front of `1..2` is `1`.

## Main definitions

* `TokenKind.Describes`: the pattern of a kind.
* `Chosen`: the rule for the first token.
* `Token.IsCutFrom`: what is true of a token.

## Main results

* `chosen_splitToken`: the first token follows the rule.
* `tokensFrom_add`: it only matters for the places where a text starts.
* `tokenize_lossless`: the tokens of a text.
-/

namespace Univariate

open Univariate.Decimal Univariate.Text

/-! ### The rule -/

/-- The pattern of a kind: the texts that it describes. -/
inductive TokenKind.Describes : TokenKind → List Char → Prop
  | plus : Describes .plus ['+']
  | minus : Describes .minus ['-']
  | asterisk : Describes .times ['*']
  | cross : Describes .times ['×']
  | slash : Describes .slash ['/']
  | obelus : Describes .slash ['÷']
  | caret : Describes .caret ['^']
  | openParen : Describes .openParen ['(']
  | closeParen : Describes .closeParen [')']
  | bar : Describes .bar ['|']
  | name {c cs} : isNameStart c = true → (∀ d ∈ cs, isNameRest d = true) → Describes .name (c :: cs)
  | number {cs} : IsLiteralText cs → Describes .number cs
  | symbol {c} : c ≠ '\n' → Describes .symbol [c]

/-- A part in front of a text that the pattern of a kind describes. -/
def IsMatch (cs : List Char) (k : TokenKind) (q : List Char) : Prop :=
  q <+: cs ∧ k.Describes q

/-- The rule for the first token of a text: the longest match, or one character if there is none. A
match of any other kind goes before a match as a symbol. -/
inductive Chosen (cs : List Char) : TokenKind → List Char → Prop
  | matched {k lexeme} : IsMatch cs k lexeme →
      (∀ k' q, IsMatch cs k' q → q.length ≤ lexeme.length) →
      (∀ k', IsMatch cs k' lexeme → k' = k ∨ k' = .symbol) → Chosen cs k lexeme
  | unmatched {c rest} : cs = c :: rest → (∀ k q, ¬ IsMatch cs k q) → Chosen cs .symbol [c]

/-! ### Literals -/

/-- Characters in front of a text that have a property are among all those in front that have it. -/
theorem length_le_takeWhile {p : Char → Bool} {q cs : List Char} (hq : ∀ c ∈ q, p c = true)
    (h : q <+: cs) : q.length ≤ (cs.takeWhile p).length := by
  obtain ⟨rest, rfl⟩ := h
  rw [List.takeWhile_append_of_pos hq, List.length_append]
  exact Nat.le_add_right ..

theorem isDigits_takeWhile {cs : List Char} (h : cs.takeWhile Char.isDigit ≠ []) :
    IsDigits (cs.takeWhile Char.isDigit) :=
  ⟨h, List.all_eq_true.mp List.all_takeWhile⟩

/-- What is cut off in front of a text that starts with a digit is a literal. -/
theorem isLiteralText_splitLiteral {c : Char} (hc : c.isDigit = true) (cs : List Char) :
    IsLiteralText (splitLiteral (c :: cs)).1 := by
  have hwhole : IsDigits ((c :: cs).takeWhile Char.isDigit) := isDigits_takeWhile (by simp [hc])
  rw [splitLiteral]
  split
  · next d rest hrest =>
    split
    · next hd =>
      refine .places hwhole ⟨by simp, ?_⟩
      intro e he
      rcases List.mem_cons.mp he with rfl | he
      · exact hd
      · exact List.all_eq_true.mp List.all_takeWhile e he
    · exact .whole hwhole
  · exact .whole hwhole

/-- **No longer literal.** A literal in front of a text is no longer than the one cut off. -/
theorem length_le_splitLiteral {q cs : List Char} (h : IsLiteralText q) (hq : q <+: cs) :
    q.length ≤ (splitLiteral cs).1.length := by
  cases h with
  | whole hdigits =>
    have hle := length_le_takeWhile hdigits.2 hq
    rw [splitLiteral]
    split
    · split
      · rw [List.length_append]
        omega
      · exact hle
    · exact hle
  | @places as bs has hbs =>
    -- the digits in front of the point are all the digits that the text starts with
    obtain ⟨rest, rfl⟩ := hq
    have hpoint : ('.' :: (bs ++ rest)).takeWhile Char.isDigit = [] := rfl
    obtain ⟨htake, hdrop⟩ := span_isDigit has.2 hpoint
    obtain ⟨b, bs, rfl⟩ := List.exists_cons_of_ne_nil hbs.1
    have hb : b.isDigit = true := hbs.2 b (List.mem_cons_self ..)
    have hle : bs.length ≤ ((bs ++ rest).takeWhile Char.isDigit).length :=
      length_le_takeWhile (fun c hc => hbs.2 c (List.mem_cons_of_mem _ hc)) (List.prefix_append ..)
    rw [List.append_assoc, List.cons_append, splitLiteral, htake, hdrop]
    simp only [List.cons_append, hb, if_true, List.length_append, List.length_cons]
    omega

/-! ### The first token follows the rule -/

theorem isNameStart_of_isDigit {c : Char} (h : c.isDigit = true) : isNameStart c = false := by
  have hc : 48 ≤ c.toNat ∧ c.toNat ≤ 57 := Char.isDigit_iff_toNat.mp h
  have hletter : c.isAlpha = false := by
    rw [← Bool.not_eq_true]
    intro hletter
    have := le_toNat_of_isAlpha hletter
    omega
  have hunderscore : (c == '_') = false := by
    refine beq_false_of_ne ?_
    rintro rfl
    contradiction
  rw [isNameStart, hunderscore, isAlphabetic, if_pos (by omega), hletter]
  rfl

theorem symbolKind_describes {c : Char} (hc : c ≠ '\n') : (symbolKind c).Describes [c] := by
  unfold symbolKind
  split <;> constructor
  exact hc

/-- What a pattern describes is told by its first character: it is a number, a name, or a single
character that is a sign or anything. -/
theorem TokenKind.Describes.cases_cons {k : TokenKind} {c : Char} {q : List Char}
    (h : k.Describes (c :: q)) :
    (k = .number ∧ c.isDigit = true ∧ IsLiteralText (c :: q)) ∨
      (k = .name ∧ isNameStart c = true ∧ ∀ d ∈ q, isNameRest d = true) ∨
      (q = [] ∧ c ≠ '\n' ∧ (k = .symbol ∨ k = symbolKind c ∧ isNameRest c = false)) := by
  generalize hcs : c :: q = cs at h
  cases h with
  | number hliteral =>
    obtain ⟨d, ds, rfl, hd⟩ := hliteral.exists_cons
    obtain ⟨rfl, rfl⟩ := List.cons.inj hcs
    exact .inl ⟨rfl, hd, hliteral⟩
  | name hstart hrest =>
    obtain ⟨rfl, rfl⟩ := List.cons.inj hcs
    exact .inr (.inl ⟨rfl, hstart, hrest⟩)
  | symbol hc =>
    obtain ⟨rfl, rfl⟩ := List.cons.inj hcs
    exact .inr (.inr ⟨rfl, hc, .inl rfl⟩)
  | _ =>
    obtain ⟨rfl, rfl⟩ := List.cons.inj hcs
    exact .inr (.inr ⟨rfl, by decide, .inr ⟨rfl, by decide +kernel⟩⟩)

/-- A match in a text that is not empty starts with the first character. -/
theorem IsMatch.exists_cons {c : Char} {cs q : List Char} {k : TokenKind}
    (h : IsMatch (c :: cs) k q) : ∃ ds, q = c :: ds ∧ ds <+: cs ∧ k.Describes (c :: ds) := by
  obtain ⟨hfront, hq⟩ := h
  cases q with
  | nil => cases hq with
    | number hliteral =>
      obtain ⟨_, _, hnil, -⟩ := hliteral.exists_cons
      contradiction
  | cons d ds =>
    obtain ⟨rfl, hds⟩ := List.cons_prefix_cons.mp hfront
    exact ⟨ds, rfl, hds, hq⟩

/-- A text that starts with a digit starts with a number. -/
theorem chosen_number {c : Char} (hc : c.isDigit = true) (cs : List Char) :
    Chosen (c :: cs) .number (splitLiteral (c :: cs)).1 := by
  have hliteral := isLiteralText_splitLiteral hc cs
  have hstart : isNameStart c = false := isNameStart_of_isDigit hc
  have hrest : isNameRest c = true := by simp [isNameRest, hc]
  refine .matched ⟨⟨_, splitLiteral_append _⟩, .number hliteral⟩ ?longest ?priority
  case longest =>
    intro k q hq
    obtain ⟨ds, rfl, -, hdescribes⟩ := hq.exists_cons
    obtain ⟨-, -, hq'⟩ | ⟨-, hname, -⟩ | ⟨rfl, -, -⟩ := hdescribes.cases_cons
    · exact length_le_splitLiteral hq' hq.1
    · rw [hstart] at hname
      contradiction
    · obtain ⟨d, ds, heq, -⟩ := hliteral.exists_cons
      rw [heq]
      simp
  case priority =>
    intro k hk
    obtain ⟨ds, -, -, hdescribes⟩ := hk.exists_cons
    obtain ⟨rfl, -⟩ | ⟨-, hname, -⟩ | ⟨-, -, rfl | ⟨-, hsign⟩⟩ := hdescribes.cases_cons
    · exact .inl rfl
    · rw [hstart] at hname
      contradiction
    · exact .inr rfl
    · rw [hrest] at hsign
      contradiction

/-- A text that starts with a letter starts with a name. -/
theorem chosen_name {c : Char} (hdigit : c.isDigit = false) (hstart : isNameStart c = true)
    (cs : List Char) : Chosen (c :: cs) .name (c :: cs.takeWhile isNameRest) := by
  have hrest : isNameRest c = true := by simp [isNameRest, hstart]
  have hname : TokenKind.name.Describes (c :: cs.takeWhile isNameRest) :=
    .name hstart (List.all_eq_true.mp List.all_takeWhile)
  refine .matched ⟨List.cons_prefix_cons.mpr ⟨rfl, List.takeWhile_prefix _⟩, hname⟩ ?longest
    ?priority
  case longest =>
    intro k q hq
    obtain ⟨ds, rfl, hfront, hdescribes⟩ := hq.exists_cons
    obtain ⟨-, hnumber, -⟩ | ⟨-, -, hds⟩ | ⟨rfl, -, -⟩ := hdescribes.cases_cons
    · rw [hdigit] at hnumber
      contradiction
    · exact Nat.succ_le_succ (length_le_takeWhile hds hfront)
    · simp
  case priority =>
    intro k hk
    obtain ⟨ds, -, -, hdescribes⟩ := hk.exists_cons
    obtain ⟨-, hnumber, -⟩ | ⟨rfl, -⟩ | ⟨-, -, rfl | ⟨-, hsign⟩⟩ := hdescribes.cases_cons
    · rw [hdigit] at hnumber
      contradiction
    · exact .inl rfl
    · exact .inr rfl
    · rw [hrest] at hsign
      contradiction

/-- Any other character is a token of its own, and a line feed is one that matches nothing. -/
theorem chosen_single {c : Char} (hdigit : c.isDigit = false) (hstart : isNameStart c = false)
    (cs : List Char) : Chosen (c :: cs) (symbolKind c) [c] := by
  have hmatch : ∀ k q, IsMatch (c :: cs) k q →
      q = [c] ∧ c ≠ '\n' ∧ (k = symbolKind c ∨ k = .symbol) := by
    intro k q hq
    obtain ⟨ds, rfl, -, hdescribes⟩ := hq.exists_cons
    obtain ⟨-, hnumber, -⟩ | ⟨-, hname, -⟩ | ⟨rfl, hc, hk⟩ := hdescribes.cases_cons
    · rw [hdigit] at hnumber
      contradiction
    · rw [hstart] at hname
      contradiction
    · exact ⟨rfl, hc, hk.symm.imp_left And.left⟩
  by_cases hc : c = '\n'
  · subst hc
    exact .unmatched rfl fun k q hq => (hmatch k q hq).2.1 rfl
  · refine .matched ⟨List.prefix_append [c] cs, symbolKind_describes hc⟩ ?longest ?priority
    case longest =>
      intro k q hq
      rw [(hmatch k q hq).1]
    case priority => exact fun k hk => (hmatch k _ hk).2.2

/-- **The first token follows the rule.** -/
theorem chosen_splitToken (c : Char) (cs : List Char) :
    Chosen (c :: cs) (splitToken c cs).1 (splitToken c cs).2.1 := by
  unfold splitToken
  split
  · next hdigit => exact chosen_number hdigit cs
  · next hdigit =>
    rw [Bool.not_eq_true] at hdigit
    split
    · next hstart => exact chosen_name hdigit hstart cs
    · next hstart => exact chosen_single hdigit (by simpa using hstart) cs

/-! ### What follows from the rule -/

/-- No pattern describes a line feed. -/
theorem not_describes_lineFeed (k : TokenKind) : ¬ k.Describes ['\n'] := by
  intro hk
  obtain ⟨-, hdigit, -⟩ | ⟨-, hname, -⟩ | ⟨-, hne, -⟩ := hk.cases_cons
  · contradiction
  · exact absurd hname (by decide)
  · exact hne rfl

section Rule

variable {cs lexeme : List Char} {k : TokenKind} (h : Chosen cs k lexeme)

include h

/-- Only a symbol can be something that its pattern does not describe. -/
theorem Chosen.describes (hk : k ≠ .symbol) : k.Describes lexeme := by
  cases h with
  | matched hmatch => exact hmatch.2
  | unmatched => contradiction

/-- A name or a number is the longest match of its own pattern. -/
theorem Chosen.longest (hk : k = .name ∨ k = .number) :
    IsMatch cs k lexeme ∧ ∀ q, IsMatch cs k q → q.length ≤ lexeme.length := by
  cases h with
  | matched hmatch hlongest => exact ⟨hmatch, hlongest k⟩
  | unmatched => simp at hk

/-- Any other token is a single character. -/
theorem Chosen.length_eq_one (hname : k ≠ .name) (hnumber : k ≠ .number) : lexeme.length = 1 := by
  cases h with
  | matched hmatch => obtain ⟨-, hk⟩ := hmatch; cases hk <;> simp_all
  | unmatched => rfl

/-- Nothing matches exactly where the token is a line feed. -/
theorem Chosen.not_isMatch_iff : (∀ k' q, ¬ IsMatch cs k' q) ↔ lexeme = ['\n'] := by
  cases h with
  | matched hmatch =>
    refine iff_of_false (fun hnone => hnone _ _ hmatch) ?_
    rintro rfl
    exact not_describes_lineFeed _ hmatch.2
  | @unmatched c rest hcs hnone =>
    refine iff_of_true hnone ?_
    by_contra hne
    have hc : c ≠ '\n' := by
      rintro rfl
      exact hne rfl
    exact hnone .symbol [c] ⟨hcs ▸ List.prefix_append [c] rest, .symbol hc⟩

/-- A line feed is a symbol. -/
theorem Chosen.eq_symbol (hlexeme : lexeme = ['\n']) : k = .symbol := by
  cases h with
  | matched hmatch => exact absurd (hlexeme ▸ hmatch.2) (not_describes_lineFeed k)
  | unmatched => rfl

/-- A line feed stands in no other token. -/
theorem Chosen.eq_lineFeed_of_mem (hmem : '\n' ∈ lexeme) : lexeme = ['\n'] := by
  cases h with
  | matched hmatch =>
    obtain ⟨-, hk⟩ := hmatch
    cases hk with
    | @name c ds hstart hrest =>
      rcases List.mem_cons.mp hmem with rfl | hmem
      · exact absurd hstart (by decide)
      · exact absurd (hrest _ hmem) (by decide)
    | number hliteral => exact absurd (hliteral.isDigit_or_eq_point hmem) (by decide)
    | _ => rw [List.mem_singleton.mp hmem]
  | unmatched => rw [List.mem_singleton.mp hmem]

end Rule

/-! ### The tokens of a text -/

/-- Only a symbol among the tokens can be something that its pattern does not describe. -/
theorem describes_of_mem_tokensFrom {start : Nat} {cs : List Char} {t : Token}
    (ht : t ∈ tokensFrom start cs) (hk : t.kind ≠ .symbol) : t.kind.Describes t.lexeme := by
  fun_induction tokensFrom start cs with
  | case1 => contradiction
  | case2 start c cs first ih =>
    rcases List.mem_cons.mp ht with rfl | ht
    · exact (chosen_splitToken c cs).describes hk
    · exact ih ht

/-- The same token in a text that has `k` more bytes in front. -/
def Token.shift (k : Nat) (t : Token) : Token :=
  { t with start := k + t.start }

/-- It only matters for the places of the tokens where a text starts. -/
theorem tokensFrom_add (k start : Nat) (cs : List Char) :
    tokensFrom (k + start) cs = (tokensFrom start cs).map (Token.shift k) := by
  fun_induction tokensFrom start cs with
  | case1 => rw [tokensFrom, List.map_nil]
  | case2 start c cs first ih =>
    rw [tokensFrom, List.map_cons, ← ih, Nat.add_assoc]
    rfl

/-- Each token starts where the one in front of it stops. -/
theorem isChain_tokensFrom (start : Nat) (cs : List Char) :
    (tokensFrom start cs).IsChain fun t t' => t'.start = t.stop := by
  fun_induction tokensFrom start cs with
  | case1 => exact .nil
  | case2 start c cs first ih =>
    refine List.isChain_cons.mpr ⟨fun t ht => ?_, ih⟩
    obtain ⟨ts, hts⟩ := List.head?_eq_some_iff.mp ht
    exact start_of_tokensFrom_eq_cons hts

/-- The tokens of a text stop where the text does. -/
theorem stop_of_mem_getLast? {start : Nat} {cs : List Char} {t : Token}
    (ht : t ∈ (tokensFrom start cs).getLast?) : t.stop = start + byteLength cs := by
  obtain ⟨p, hp⟩ := List.getLast?_eq_some_iff.mp ht
  obtain ⟨rest, hcs, hrest⟩ := exists_rest_of_tokensFrom_eq_append hp
  have hlexeme := flatMap_lexeme_tokensFrom (start + byteLength (p.flatMap Token.lexeme)) rest
  rw [hrest, List.flatMap_cons, List.flatMap_nil, List.append_nil] at hlexeme
  rw [Token.stop, start_of_tokensFrom_eq_cons hrest, hlexeme, hcs, byteLength_append, Nat.add_assoc]

/-- A line feed anywhere in a text is a token of its own. -/
theorem lineFeed_mem_tokensFrom (start : Nat) (before after : List Char) :
    ⟨.symbol, start + byteLength before, ['\n']⟩ ∈ tokensFrom start (before ++ '\n' :: after) := by
  generalize h : before ++ '\n' :: after = cs
  fun_induction tokensFrom start cs generalizing before with
  | case1 => simp at h
  | case2 start c cs first ih =>
    have hchosen : Chosen (c :: cs) first.1 first.2.1 := chosen_splitToken c cs
    have happend : before ++ '\n' :: after = first.2.1 ++ first.2.2 :=
      h.trans (splitToken_append c cs).symm
    obtain ⟨as, hlexeme, hafter⟩ | ⟨as, hbefore, hrest⟩ := List.append_eq_append_iff.mp happend
    · cases as with
      | nil =>
        rw [List.append_nil] at hlexeme
        rw [← hlexeme]
        exact List.mem_cons_of_mem _ (ih [] hafter)
      | cons a as =>
        -- it stands in the first token, which is then nothing else
        obtain rfl : '\n' = a := (List.cons.inj hafter).1
        have hfirst : first.2.1 = ['\n'] := hchosen.eq_lineFeed_of_mem (by rw [hlexeme]; simp)
        have hbefore : before = [] := by
          have := congrArg List.length (hlexeme.symm.trans hfirst)
          simp only [List.length_append, List.length_cons, List.length_nil] at this
          exact List.eq_nil_of_length_eq_zero (by omega)
        rw [hbefore, hfirst, hchosen.eq_symbol hfirst]
        exact List.mem_cons_self ..
    · -- it stands behind the first token
      rw [hbefore, byteLength_append, ← Nat.add_assoc]
      exact List.mem_cons_of_mem _ (ih as hrest.symm)

/-- What is true of a token, where `rest` is the text from the start of the token on. -/
structure Token.IsCutFrom (t : Token) (rest : List Char) : Prop where
  /-- Its span is not empty. -/
  start_lt_stop : t.start < t.stop
  /-- It follows the rule. -/
  chosen : Chosen rest t.kind t.lexeme
  /-- A name or a number is the longest match of its own pattern. -/
  longest : t.kind = .name ∨ t.kind = .number →
    IsMatch rest t.kind t.lexeme ∧ ∀ q, IsMatch rest t.kind q → q.length ≤ t.lexeme.length
  /-- Any other token is a single character. -/
  length_eq_one : t.kind ≠ .name → t.kind ≠ .number → t.lexeme.length = 1
  /-- It counts as unmatched if there is no match, and then it is a line feed, as a symbol. -/
  isUnmatched_iff : t.isUnmatched = true ↔ ∀ k q, ¬ IsMatch rest k q
  lineFeed_of_isUnmatched : t.isUnmatched = true → t.kind = .symbol ∧ t.lexeme = ['\n']

/-- The rule for the first token is all that has to be known of a token. -/
theorem Token.isCutFrom_of_tokensFrom {start : Nat} {rest : List Char} {t : Token} {ys : List Token}
    (h : tokensFrom start rest = t :: ys) : t.IsCutFrom rest := by
  cases rest with
  | nil =>
    rw [tokensFrom] at h
    contradiction
  | cons c cs =>
    rw [tokensFrom, List.cons.injEq] at h
    obtain ⟨rfl, -⟩ := h
    have hchosen := chosen_splitToken c cs
    have hunmatched : ∀ lexeme, (lexeme == ['\n']) = true ↔ lexeme = ['\n'] := fun _ => beq_iff_eq
    exact {
      start_lt_stop := Nat.lt_add_of_pos_right (byteLength_pos (splitToken_lexeme_ne_nil c cs))
      chosen := hchosen
      longest := hchosen.longest
      length_eq_one := hchosen.length_eq_one
      isUnmatched_iff := (hunmatched _).trans hchosen.not_isMatch_iff.symm
      lineFeed_of_isUnmatched := fun h =>
        ⟨hchosen.eq_symbol ((hunmatched _).mp h), (hunmatched _).mp h⟩ }

/-- **The tokens of a text.** Nothing is lost: the lexemes make up the text, and the tokens start at
its front, one where the other stops, and stop at its end. The span of a token lies between
characters, and its lexeme is what stands there. It is chosen as the longest match, or is a line
feed, and each line feed is a token of its own. Cutting can be taken up at the start of any token:
the rest of the text, cut by itself, gives the other tokens, except for their places. -/
theorem tokenize_lossless (text : String) :
    (tokenize text).flatMap Token.lexeme = text.toList ∧
      (∀ t ∈ (tokenize text).head?, t.start = 0) ∧
      ((tokenize text).IsChain fun t t' => t'.start = t.stop) ∧
      (∀ t ∈ (tokenize text).getLast?, t.stop = byteLength text.toList) ∧
      (∀ p t ys, tokenize text = p ++ t :: ys → ∃ rest after : List Char,
        suffixAt? t.start text.toList = some rest ∧ suffixAt? t.stop text.toList = some after ∧
          rest = t.lexeme ++ after ∧ t.IsCutFrom rest ∧
          (tokenize (String.ofList rest)).map (Token.shift t.start) = t :: ys) ∧
      ∀ before after, text.toList = before ++ '\n' :: after →
        ⟨.symbol, byteLength before, ['\n']⟩ ∈ tokenize text := by
  refine ⟨flatMap_lexeme_tokensFrom 0 text.toList, ?head, isChain_tokensFrom 0 text.toList, ?last,
    ?each, ?lineFeed⟩
  case head =>
    intro t ht
    obtain ⟨ts, hts⟩ := List.head?_eq_some_iff.mp ht
    exact start_of_tokensFrom_eq_cons hts
  case last =>
    intro t ht
    rw [stop_of_mem_getLast? ht, Nat.zero_add]
  case each =>
    intro p t ys h
    obtain ⟨rest, htext, hbefore, hlexeme, hrest⟩ := exists_rest_of_tokenize_eq_append h
    refine ⟨rest, ys.flatMap Token.lexeme, ?_, ?_, hlexeme, t.isCutFrom_of_tokensFrom hrest, ?_⟩
    · rw [htext, ← hbefore, suffixAt?_append]
    · rw [Token.stop, htext, ← hbefore, hlexeme, ← List.append_assoc, ← byteLength_append,
        suffixAt?_append]
    · rw [tokenize, String.toList_ofList, ← tokensFrom_add, Nat.add_zero, hrest]
  case lineFeed =>
    intro before after h
    have hmem := lineFeed_mem_tokensFrom 0 before after
    rwa [← h, Nat.zero_add] at hmem

/-- A point belongs to a number only in front of a digit. -/
example : (tokenize "1..2").map Token.lexeme = [['1'], ['.'], ['.'], ['2']] := by cbv

end Univariate
