import Univariate.Text.Blank
import Univariate.Token

/-!
# Cutting a text into known pieces

When a tree is written as a text, the tokens of that text should be the ones that the writer meant.
A piece is a token without its place. Signs and delimiters are cut off wherever they stand. A name
or a literal is cut off as a whole if it is not prolonged by what stands behind it, which `IsBreak`
makes sure of: there stands the end of the text, or a character with which neither a name nor a
literal goes on.

Blanks are removed from a text before it is cut. A name and a literal are left as they are, because
no blank occurs in them. For a name this is a fact about Unicode, which has no blank among the
alphabetic characters.

## Main definitions

* `Piece`, `Token.piece`, `pieces`: tokens without their places.
* `IsNameText`, `IsLiteralText`: what a name and a literal look like.
* `IsBreak`: what prolongs neither of them.

## Main results

* `IsNameText.not_blank`, `IsLiteralText.not_blank`: no blank occurs in a name or in a literal.
* `pieces_symbol`, `pieces_name`, `pieces_literal`: how the first piece is cut off.
* `isNameText_of_mem_tokensFrom`: the lexeme of a name looks like one.
-/

namespace Univariate

open Univariate.Decimal Univariate.Text

/-! ### Pieces -/

/-- A part of a text that is a token, wherever it stands. -/
abbrev Piece := TokenKind × List Char

/-- A token without its place. -/
def Token.piece (t : Token) : Piece :=
  (t.kind, t.lexeme)

/-- The tokens of a text without their places. -/
def pieces (cs : List Char) : List Piece :=
  (tokensFrom 0 cs).map Token.piece

/-- It does not matter for the pieces where a text starts. -/
theorem map_piece_tokensFrom (start : Nat) (cs : List Char) :
    (tokensFrom start cs).map Token.piece = pieces cs := by
  rw [pieces]
  generalize 0 = start'
  fun_induction tokensFrom start cs generalizing start' with
  | case1 => rw [tokensFrom]
  | case2 start c cs first ih =>
    rw [tokensFrom, List.map_cons, List.map_cons, ih]
    rfl

@[simp] theorem pieces_nil : pieces [] = [] := by
  rw [pieces, tokensFrom]
  rfl

theorem pieces_cons (c : Char) (cs : List Char) :
    pieces (c :: cs) =
      ((splitToken c cs).1, (splitToken c cs).2.1) :: pieces (splitToken c cs).2.2 := by
  rw [pieces, tokensFrom, List.map_cons, map_piece_tokensFrom]
  rfl

/-! ### What names and literals look like -/

/-- A text that is a name: a character that starts one, and characters with which it goes on. -/
inductive IsNameText : List Char → Prop
  | intro {c cs} : c.isDigit = false → isNameStart c = true → (∀ d ∈ cs, isNameRest d = true) →
      IsNameText (c :: cs)

/-- Whether a text consists of digits, of one at least. -/
def IsDigits (cs : List Char) : Prop :=
  cs ≠ [] ∧ ∀ c ∈ cs, c.isDigit = true

/-- A text that is a literal: digits, and perhaps a point and more digits. -/
inductive IsLiteralText : List Char → Prop
  | whole {cs} : IsDigits cs → IsLiteralText cs
  | places {cs ds} : IsDigits cs → IsDigits ds → IsLiteralText (cs ++ '.' :: ds)

instance (cs : List Char) : Decidable (IsNameText cs) :=
  match cs with
  | [] => isFalse nofun
  | c :: cs => decidable_of_iff
      ((c.isDigit = false ∧ isNameStart c = true) ∧ cs.all Univariate.isNameRest = true)
      ⟨fun h => .intro h.1.1 h.1.2 (List.all_eq_true.mp h.2), fun
        | .intro hdigit hstart hrest => ⟨⟨hdigit, hstart⟩, List.all_eq_true.mpr hrest⟩⟩

theorem IsNameText.ne_nil {cs : List Char} (h : IsNameText cs) : cs ≠ [] := by
  cases h
  simp

theorem IsNameText.exists_cons {cs : List Char} (h : IsNameText cs) :
    ∃ c cs', cs = c :: cs' ∧ c.isDigit = false ∧ isNameStart c = true := by
  cases h with
  | intro hdigit hstart _ => exact ⟨_, _, rfl, hdigit, hstart⟩

/-- A name consists of characters with which a name can go on. -/
theorem IsNameText.isNameRest {cs : List Char} (h : IsNameText cs) :
    ∀ c ∈ cs, isNameRest c = true := by
  cases h with
  | intro _ hstart hrest => simpa [Univariate.isNameRest, hstart] using hrest

theorem IsDigits.exists_cons {cs : List Char} (h : IsDigits cs) (rest : List Char) :
    ∃ c cs', cs ++ rest = c :: cs' ∧ c.isDigit = true := by
  obtain ⟨c, cs, rfl⟩ := List.exists_cons_of_ne_nil h.1
  exact ⟨c, cs ++ rest, rfl, h.2 c (List.mem_cons_self ..)⟩

theorem IsLiteralText.exists_cons {cs : List Char} (h : IsLiteralText cs) :
    ∃ c cs', cs = c :: cs' ∧ c.isDigit = true := by
  cases h with
  | whole hcs => simpa using hcs.exists_cons []
  | places hcs => exact hcs.exists_cons _

/-- A text that prolongs neither a name nor a literal in front of it. -/
def IsBreak (rest : List Char) : Prop :=
  ∀ c ∈ rest.head?, isNameRest c = false ∧ c ≠ '.'

@[simp] theorem isBreak_nil : IsBreak [] := by
  simp [IsBreak]

@[simp] theorem isBreak_cons {c : Char} {cs : List Char} :
    IsBreak (c :: cs) ↔ isNameRest c = false ∧ c ≠ '.' := by
  simp [IsBreak]

theorem IsBreak.takeWhile_eq_nil {rest : List Char} (h : IsBreak rest) {p : Char → Bool}
    (hp : ∀ c, isNameRest c = false → p c = false) : rest.takeWhile p = [] := by
  cases rest with
  | nil => rfl
  | cons c cs => simp [hp c (isBreak_cons.mp h).1]

theorem IsBreak.dropWhile_eq_self {rest : List Char} (h : IsBreak rest) {p : Char → Bool}
    (hp : ∀ c, isNameRest c = false → p c = false) : rest.dropWhile p = rest := by
  have happend := List.takeWhile_append_dropWhile (p := p) (l := rest)
  rwa [h.takeWhile_eq_nil hp] at happend

/-- A literal consists of digits and points. -/
theorem IsLiteralText.isDigit_or_eq_point {cs : List Char} (h : IsLiteralText cs) {c : Char}
    (hc : c ∈ cs) : c.isDigit = true ∨ c = '.' := by
  cases h with
  | whole hcs => exact .inl (hcs.2 c hc)
  | places hcs hds =>
    rcases List.mem_append.mp hc with hc | hc
    · exact .inl (hcs.2 c hc)
    · rcases List.mem_cons.mp hc with rfl | hc
      · exact .inr rfl
      · exact .inl (hds.2 c hc)

theorem isDigit_of_isNameRest_eq_false {c : Char} (h : isNameRest c = false) :
    c.isDigit = false := by
  simp_all [isNameRest]

/-! ### Blanks -/

/-- A digit is not blank. -/
theorem isBlank_of_isDigit {c : Char} (h : c.isDigit = true) : isBlank c = false := by
  have hc : 48 ≤ c.toNat ∧ c.toNat ≤ 57 := Char.isDigit_iff_toNat.mp h
  simp only [isBlank, Bool.or_eq_false_iff, Bool.and_eq_false_imp, beq_eq_false_iff_ne,
    decide_eq_true_eq, decide_eq_false_iff_not]
  omega

/-- A literal contains no blanks. -/
theorem IsLiteralText.not_blank {cs : List Char} (h : IsLiteralText cs) :
    ∀ c ∈ cs, isBlank c = false := by
  intro c hc
  obtain hdigit | rfl := h.isDigit_or_eq_point hc
  · exact isBlank_of_isDigit hdigit
  · decide

/-- The blank characters beyond ASCII, as ranges of code points with both ends included. -/
def blankRanges : List (Nat × Nat) :=
  [(0x85, 0x85), (0xA0, 0xA0), (0x1680, 0x1680), (0x2000, 0x200A), (0x2028, 0x2029),
    (0x202F, 0x202F), (0x205F, 0x205F), (0x3000, 0x3000)]

/-- No range of alphabetic characters meets one of blank characters. -/
theorem alphabeticRanges_disjoint :
    ∀ a ∈ alphabeticRanges, ∀ b ∈ blankRanges, a.2 < b.1 ∨ b.2 < a.1 := by
  decide +kernel

/-- A blank is among the first ASCII characters, or it is in one of the ranges. -/
theorem exists_blankRange {c : Char} (h : isBlank c = true) :
    c.toNat ≤ 0x20 ∨ ∃ b ∈ blankRanges, b.1 ≤ c.toNat ∧ c.toNat ≤ b.2 := by
  simp only [isBlank, Bool.or_eq_true, Bool.and_eq_true, decide_eq_true_eq, beq_iff_eq] at h
  simp only [blankRanges, List.mem_cons, List.not_mem_nil, or_false, exists_eq_or_imp,
    exists_eq_left]
  omega

/-- Letters come after the ASCII blanks. -/
theorem le_toNat_of_isAlpha {c : Char} (h : c.isAlpha = true) : 0x41 ≤ c.toNat := by
  have hletter : (c.isUpper || c.isLower) = true := h
  obtain hupper | hlower := Bool.or_eq_true_iff.mp hletter
  · have hval : 65 ≤ c.val ∧ c.val ≤ 90 := of_decide_eq_true hupper
    exact hval.1
  · have hval : (decide (97 ≤ c.val) && decide (c.val ≤ 122)) = true := hlower
    have hle : 97 ≤ c.val := of_decide_eq_true (Bool.and_eq_true_iff.mp hval).1
    exact Nat.le_trans (by decide) (UInt32.le_iff_toNat_le.mp hle)

/-- A blank is not alphabetic. -/
theorem isAlphabetic_eq_false_of_isBlank {c : Char} (h : isBlank c = true) :
    isAlphabetic c = false := by
  obtain hascii | ⟨b, hb, hfirst, hlast⟩ := exists_blankRange h
  · rw [isAlphabetic, if_pos (by omega), ← Bool.not_eq_true]
    intro hletter
    have := le_toNat_of_isAlpha hletter
    omega
  · have hbeyond : 0x80 ≤ b.1 := by
      have : ∀ b ∈ blankRanges, 0x80 ≤ b.1 := by decide
      exact this b hb
    rw [isAlphabetic, if_neg (by omega), List.any_eq_false]
    intro a ha
    have hdisjoint := alphabeticRanges_disjoint a ha b hb
    simp only [Bool.and_eq_true, decide_eq_true_eq]
    omega

/-- **A blank does not occur in a name.** -/
theorem isNameRest_eq_false_of_isBlank {c : Char} (h : isBlank c = true) :
    isNameRest c = false := by
  have hdigit : c.isDigit = false := by
    rw [← Bool.not_eq_true]
    intro hdigit
    rw [isBlank_of_isDigit hdigit] at h
    contradiction
  have hunderscore : (c == '_') = false := by
    refine beq_false_of_ne ?_
    rintro rfl
    contradiction
  rw [isNameRest, isNameStart, hdigit, hunderscore, isAlphabetic_eq_false_of_isBlank h]
  rfl

/-- A name has no blanks. -/
theorem IsNameText.not_blank {cs : List Char} (h : IsNameText cs) :
    ∀ c ∈ cs, isBlank c = false := by
  intro c hc
  rw [← Bool.not_eq_true]
  intro hblank
  have hrest := h.isNameRest c hc
  rw [isNameRest_eq_false_of_isBlank hblank] at hrest
  contradiction

/-! ### The first piece -/

/-- A character with which neither a name nor a literal goes on is a piece of its own. -/
theorem pieces_symbol {c : Char} (h : isNameRest c = false) (cs : List Char) :
    pieces (c :: cs) = (symbolKind c, [c]) :: pieces cs := by
  obtain ⟨hdigit, hstart⟩ : c.isDigit = false ∧ isNameStart c = false := by
    simpa [isNameRest] using h
  rw [pieces_cons]
  simp [splitToken, hdigit, hstart]

/-- A name is cut off as a whole. -/
theorem pieces_name {cs rest : List Char} (h : IsNameText cs) (hrest : IsBreak rest) :
    pieces (cs ++ rest) = (.name, cs) :: pieces rest := by
  obtain @⟨c, cs, hdigit, hstart, hcs⟩ := h
  have htake : (cs ++ rest).takeWhile isNameRest = cs := by
    rw [List.takeWhile_append_of_pos hcs, hrest.takeWhile_eq_nil fun _ => id, List.append_nil]
  have hdrop : (cs ++ rest).dropWhile isNameRest = rest := by
    rw [List.dropWhile_append_of_pos hcs, hrest.dropWhile_eq_self fun _ => id]
  rw [List.cons_append, pieces_cons]
  simp [splitToken, hdigit, hstart, htake, hdrop]

/-- Digits are cut off as a whole. -/
theorem span_isDigit {cs rest : List Char} (h : ∀ c ∈ cs, c.isDigit = true)
    (hrest : rest.takeWhile Char.isDigit = []) :
    (cs ++ rest).takeWhile Char.isDigit = cs ∧ (cs ++ rest).dropWhile Char.isDigit = rest := by
  have happend := List.takeWhile_append_dropWhile (p := Char.isDigit) (l := rest)
  rw [hrest, List.nil_append] at happend
  rw [List.takeWhile_append_of_pos h, List.dropWhile_append_of_pos h, hrest, happend]
  exact ⟨List.append_nil cs, rfl⟩

/-- A literal is cut off as a whole. -/
theorem splitLiteral_append_of_isLiteralText {cs rest : List Char} (h : IsLiteralText cs)
    (hrest : IsBreak rest) : splitLiteral (cs ++ rest) = (cs, rest) := by
  have hnone := hrest.takeWhile_eq_nil fun _ => isDigit_of_isNameRest_eq_false
  cases h with
  | whole hcs =>
    obtain ⟨htake, hdrop⟩ := span_isDigit hcs.2 hnone
    rw [splitLiteral, htake, hdrop]
    -- no point stands behind the digits
    cases rest with
    | nil => rfl
    | cons c rest =>
      split
      · next heq => simp_all
      · rfl
  | @places cs ds hcs hds =>
    have hpoint : ('.' :: (ds ++ rest)).takeWhile Char.isDigit = [] := rfl
    obtain ⟨htake, hdrop⟩ := span_isDigit hcs.2 hpoint
    obtain ⟨htake', hdrop'⟩ := span_isDigit hds.2 hnone
    obtain ⟨d, ds, rfl⟩ := List.exists_cons_of_ne_nil hds.1
    have hd : d.isDigit = true := hds.2 d (List.mem_cons_self ..)
    rw [List.append_assoc, List.cons_append, splitLiteral, htake, hdrop]
    simp_all

/-- A literal is a piece as a whole. -/
theorem pieces_literal {cs rest : List Char} (h : IsLiteralText cs) (hrest : IsBreak rest) :
    pieces (cs ++ rest) = (.number, cs) :: pieces rest := by
  have hsplit := splitLiteral_append_of_isLiteralText h hrest
  obtain ⟨c, cs, rfl, hc⟩ := h.exists_cons
  rw [List.cons_append] at hsplit ⊢
  rw [pieces_cons]
  simp [splitToken, hc, hsplit]

/-! ### Names among the tokens of a text -/

theorem symbolKind_ne_name (c : Char) : symbolKind c ≠ .name := by
  unfold symbolKind
  split <;> decide

theorem isNameText_splitToken {c : Char} {cs : List Char} (hk : (splitToken c cs).1 = .name) :
    IsNameText (splitToken c cs).2.1 := by
  unfold splitToken at hk ⊢
  split at hk
  · contradiction
  · next hdigit =>
    rw [if_neg hdigit]
    split at hk
    · next hstart =>
      rw [if_pos hstart]
      refine .intro (by simpa using hdigit) hstart ?_
      intro d hd
      exact List.all_eq_true.mp List.all_takeWhile d hd
    · exact absurd hk (symbolKind_ne_name c)

/-- The lexeme of a name looks like a name. -/
theorem isNameText_of_mem_tokensFrom {start : Nat} {cs : List Char} {t : Token}
    (ht : t ∈ tokensFrom start cs) (hk : t.kind = .name) : IsNameText t.lexeme := by
  fun_induction tokensFrom start cs with
  | case1 => contradiction
  | case2 start c cs first ih =>
    rcases List.mem_cons.mp ht with rfl | ht
    · exact isNameText_splitToken hk
    · exact ih ht

end Univariate
