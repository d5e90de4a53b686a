import Mathlib
import Univariate.Double.Text
import Univariate.Proofs.Reading

/-!
# Errors stand where a text stops making sense

The offset of an error tells the tokens of a text apart: those that start in front of it, and those
that do not. The ones in front are the beginning of a text of the language. With the token at the
offset added they are not, and where no token is left, they are not a text of the language
themselves. So the offset is neither too late nor too early.

The readers leave such a place behind as a list of tokens that are still to be read. What is left to
do here is arithmetic: the tokens of a text start one behind the other, so the tokens in front of
the place are those that start before it.

## Main results

* `pairwise_start_tokensFrom`: tokens start one behind the other.
* `Expr.offset_of_mem_errorOffsets`: the offset of an error is exact.
-/

namespace Univariate

open Univariate.Text Univariate.Grammar

/-! ### Where tokens start -/

/-- The tokens of a text start inside of it. -/
theorem start_of_mem_tokensFrom {start : Nat} {cs : List Char} {t : Token}
    (ht : t ∈ tokensFrom start cs) : start ≤ t.start ∧ t.start < start + byteLength cs := by
  fun_induction tokensFrom start cs with
  | case1 => contradiction
  | case2 start c cs first ih =>
    have hpos : 0 < byteLength first.2.1 := byteLength_pos (splitToken_lexeme_ne_nil c cs)
    have hlength : byteLength (first.2.1 ++ first.2.2) = byteLength (c :: cs) :=
      congrArg byteLength (splitToken_append c cs)
    rw [byteLength_append] at hlength
    rcases List.mem_cons.mp ht with rfl | ht
    · exact ⟨Nat.le_refl _, by dsimp only; omega⟩
    · have := ih ht
      omega

/-- Each token starts behind the one in front of it. -/
theorem pairwise_start_tokensFrom (start : Nat) (cs : List Char) :
    (tokensFrom start cs).Pairwise fun t t' => t.start < t'.start := by
  fun_induction tokensFrom start cs with
  | case1 => exact .nil
  | case2 start c cs first ih =>
    refine .cons (fun t ht => ?_) ih
    have hpos : 0 < byteLength first.2.1 := byteLength_pos (splitToken_lexeme_ne_nil c cs)
    have := (start_of_mem_tokensFrom ht).1
    dsimp only
    omega

/-- The tokens in front of a place are those that start before it. -/
theorem countP_start_lt {text : String} {p ys : List Token} (h : tokenize text = p ++ ys)
    (scope : Parser.Scope) (hsize : scope.size = byteLength text.toList) :
    (tokenize text).countP (fun t => t.start < Parser.State.offset scope ⟨ys, false⟩) =
      p.length := by
  have hpairwise := pairwise_start_tokensFrom 0 text.toList
  have hinside : ∀ t ∈ tokenize text, t.start < byteLength text.toList := by
    intro t ht
    have := (start_of_mem_tokensFrom ht).2
    omega
  change (tokenize text).Pairwise _ at hpairwise
  rw [h] at hpairwise hinside ⊢
  obtain ⟨-, hpairwise, hbefore⟩ := List.pairwise_append.mp hpairwise
  rw [List.countP_append, List.countP_eq_length.mpr, List.countP_eq_zero.mpr, Nat.add_zero]
  · intro t ht
    cases ys with
    | nil => contradiction
    | cons t' ys =>
      rcases List.mem_cons.mp ht with rfl | ht
      · simp [Parser.State.offset]
      · have hafter := List.rel_of_pairwise_cons hpairwise ht
        exact fun h => Nat.lt_asymm hafter (of_decide_eq_true h)
  · intro t ht
    cases ys with
    | nil => simpa [Parser.State.offset, hsize] using hinside t (by simp [ht])
    | cons t' ys => exact decide_eq_true (hbefore t ht t' (List.mem_cons_self ..))

/-! ### Errors -/

variable {R : Type} [Zero R] [BEq R] [One R] [Numeral R] [OfScientific R]

/-- A text that is refused has its only error where it is refused. -/
theorem Expr.errorOffsets_of_refused {v text : String} {p ys : List Token}
    (htokens : tokenize (strip text) = p ++ ys) (h : Refused v p ys) :
    (parse v text : Expr R).errorOffsets =
      [Parser.State.offset (Parser.Scope.ofText v (strip text)) ⟨ys, false⟩] := by
  obtain ⟨d, -⟩ | ⟨p', ys', htokens', h', herror⟩ := parse_cases (R := R) v text
  · rw [htokens] at d
    exact absurd ⟨d⟩ (h.append_not_mem rfl)
  · obtain ⟨-, rfl⟩ := h'.unique h (htokens'.symm.trans htokens)
    exact herror

/-- **The offset of an error is exact.** The tokens that start before an error can be completed. And
either they are all tokens of the text, which then ends at the error and is not in the language; or
the next token starts at the error, and with that token they cannot be completed any more. -/
theorem Expr.offset_of_mem_errorOffsets (v text : String) (o : Nat)
    (ho : o ∈ (parse v text : Expr R).errorOffsets) :
    let tokens := tokenize (strip text)
    let k := tokens.countP fun t => t.start < o
    (∃ more, tokens.take k ++ more ∈ language v) ∧
      (o = byteLength (strip text).toList ∧ tokens ∉ language v ∨
        ∃ t, tokens[k]? = some t ∧ t.start = o ∧
          ∀ more, tokens.take (k + 1) ++ more ∉ language v) := by
  intro tokens k
  obtain ⟨d, hd⟩ | ⟨p, ys, htokens, hrefused, herror⟩ := parse_cases (R := R) v text
  · rw [hd, d.errorFree_denote] at ho
    contradiction
  · rw [herror, List.mem_singleton] at ho
    have hk : k = p.length := by
      dsimp only [k, tokens]
      rw [ho]
      exact countP_start_lt htokens _ rfl
    rw [hk]
    change tokens = p ++ ys at htokens
    rw [htokens, List.take_left]
    refine ⟨hrefused.exists_append_mem, ?_⟩
    cases ys with
    | nil => exact .inl ⟨ho, hrefused.append_not_mem rfl⟩
    | cons t ys =>
      refine .inr ⟨t, by simp, ho.symm, ?_⟩
      intro more
      have htake : (p ++ t :: ys).take (p.length + 1) = p ++ [t] := by
        rw [List.take_append, List.take_of_length_le (Nat.le_succ _), Nat.add_sub_cancel_left]
        rfl
      rw [htake, List.append_assoc]
      exact hrefused.append_not_mem rfl

/-- A sign in the place of an operand: everything in front of it can be completed. -/
theorem Expr.offset_of_mem_errorOffsets_operand :
    2 ∈ (parse "x" "1 + * 2" : Expr Double).errorOffsets ∧
      ∃ more, (tokenize "1+*2").take 2 ++ more ∈ language "x" := by
  have hstrip : strip "1 + * 2" = "1+*2" := by cbv
  have htokens : tokenize "1+*2" = [⟨.number, 0, ['1']⟩, ⟨.plus, 1, ['+']⟩] ++
      [⟨.times, 2, ['*']⟩, ⟨.number, 3, ['2']⟩] := by cbv
  have hrefused : Refused "x" [⟨.number, 0, ['1']⟩, ⟨.plus, 1, ['+']⟩]
      [⟨.times, 2, ['*']⟩, ⟨.number, 3, ['2']⟩] := by
    refine .inside (.expressionMore (p := [⟨.number, 0, ['1']⟩]) ?_ (.sumsOperand .plus ?_))
    · exact .term (.base (.number rfl)) .productsNil
    · exact .termFirst (.nothing (by simp [CanStart]))
  have ho : 2 ∈ (parse "x" "1 + * 2" : Expr Double).errorOffsets := by
    rw [errorOffsets_of_refused (hstrip ▸ htokens) hrefused]
    exact List.mem_singleton.mpr rfl
  have hoffset := offset_of_mem_errorOffsets "x" "1 + * 2" 2 ho
  rw [hstrip] at hoffset
  refine ⟨ho, ?_⟩
  have hk : (tokenize "1+*2").countP (fun t => t.start < 2) = 2 := by
    rw [htokens]
    rfl
  exact hk ▸ hoffset.1

end Univariate
