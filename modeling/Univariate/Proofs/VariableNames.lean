import Univariate.Proofs.Writable
import Univariate.Session.Command

/-!
# Names that a variable can have

A name is checked by cutting it into tokens, and it passes if it is a single one that is a name and
is not reserved. A reader of expressions, and a writer of trees, need to know something else: what
the characters of the name are. Above all, blanks are removed from an expression before it is read,
and so no blank may occur in a name. The check does not look for blanks, and it does not have to,
because no blank is among the characters of a name.

## Main results

* `isVariableName_iff`: the names that pass the check are those that can be read.
-/

namespace Univariate

open Univariate.Text

theorem isReserved_iff {name : String} : isReserved name = true ↔ IsReserved name := by
  rw [isReserved, Bool.or_eq_true, Bool.or_eq_true, Option.isSome_iff_exists, beq_iff_eq,
    beq_iff_eq, IsReserved]
  simp only [Func.ofName?_eq_some_iff]
  rw [or_assoc, or_comm, or_assoc]

/-- The only token of a text makes up the text. -/
theorem lexeme_of_tokenize_eq_singleton {text : String} {t : Token} (h : tokenize text = [t]) :
    t.lexeme = text.toList := by
  have hall := flatMap_lexeme_tokensFrom 0 text.toList
  rw [show tokensFrom 0 text.toList = [t] from h, List.flatMap_cons, List.flatMap_nil,
    List.append_nil] at hall
  exact hall

/-- **The names that pass the check are those that can be read.** -/
theorem isVariableName_iff {name : String} : isVariableName name = true ↔ IsVariable name := by
  constructor
  · intro h
    rw [isVariableName] at h
    split at h
    · next t htokens =>
      rw [Bool.and_eq_true, beq_iff_eq, Bool.not_eq_true', ← Bool.not_eq_true, isReserved_iff] at h
      obtain ⟨hkind, hreserved⟩ := h
      have hname : IsNameText name.toList := by
        rw [← lexeme_of_tokenize_eq_singleton htokens]
        exact isNameText_of_mem_tokensFrom (htokens ▸ List.mem_singleton.mpr rfl) hkind
      exact ⟨hreserved, hname, hname.not_blank⟩
    · contradiction
  · intro h
    have hpieces := pieces_name h.isNameText isBreak_nil
    rw [List.append_nil, pieces_nil, ← map_piece_tokensFrom 0] at hpieces
    obtain ⟨t, htokens, ht⟩ := List.map_eq_singleton_iff.mp hpieces
    have hreserved : isReserved name = false := by
      rw [← Bool.not_eq_true, isReserved_iff]
      exact h.not_reserved
    rw [isVariableName, show tokenize name = [t] from htokens]
    simp [hreserved, (Prod.mk.inj ht).1]

end Univariate
