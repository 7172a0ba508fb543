import StochasticSat.Proofs.Text.TokenRows
import StochasticSat.Text.Solution

/-!
# The text of a solution

A solution says what its tokens say, whatever blank characters stand between them
(`solutionTokens`): it has the values of all of them, one after the other (`readSolution_ofText`).
What is written of signed literals has their tokens, so they are read back
(`readSolution_solutionText`).
-/

namespace StochasticSat

open Text

/-! ### Tokens -/

/-- **The tokens of a solution**: all those of the text, with their lines. -/
def solutionTokens (text : String) : List LineToken := (lineRows text).flatten

theorem map_chars_flatten_numbered (n : Nat) (rows : List (List (List Char))) :
    (numbered n rows).flatten.map (·.chars) = rows.flatten := by
  induction rows generalizing n with
  | nil => rfl
  | cons ts rows ih =>
    rw [numbered_cons, List.flatten_cons, List.flatten_cons, List.map_append, map_chars_map_mk, ih]

/-- **The lines do not matter for what the tokens are**: they are what is left of the text between
its blank characters. -/
theorem map_chars_solutionTokens (text : String) :
    (solutionTokens text).map (·.chars) = tokens text.toList := by
  have hfeed : isBlank '\n' = true := by decide
  rw [solutionTokens, lineRows, map_chars_flatten_numbered, tokenRows, ← List.flatMap_def,
    ← tokens_intercalate_eq hfeed, List.intercalate_splitOn]

/-! ### Reading -/

theorem solutionOnto_map_some (ls : List (List Char)) (done : Array SignedLiteral) (n : Nat) :
    solutionOnto done n (ls.map some) = (fun vs => done ++ vs.toArray) <$>
      (numbered n (ls.map tokens)).flatten.mapM LineToken.read := by
  induction ls generalizing done n with
  | nil => simp [solutionOnto, numbered, pure, Except.pure, Functor.map, Except.map]
  | cons line ls ih =>
    rw [List.map_cons, List.map_cons, numbered_cons, List.flatten_cons, List.mapM_append,
      mapM_read_map, solutionOnto, foldlM_eq_map_mapM, bind_map_left, map_bind]
    refine congrArg _ (funext fun vs => ?_)
    rw [ih, map_bind]
    simp

/-- **The literals of a solution** are the values of all its tokens. -/
theorem readSolution_ofText (text : String) :
    readSolution (.ofText text) = (solutionTokens text).mapM LineToken.read := by
  have hrows : solutionTokens text =
      (numbered 1 ((lines text.toList).map tokens)).flatten := by
    obtain ⟨last, rfl | rfl, hlast⟩ := exists_tokenRows_eq text
    · rw [solutionTokens, lineRows, hlast, List.append_nil]
    · rw [solutionTokens, lineRows, hlast, numbered_append, List.flatten_append]
      exact List.append_nil _
  rw [readSolution, Source.ofText, solutionOnto_map_some, hrows]
  simp

section Text
variable {text : String}

theorem readSolution_eq_ok_iff {ls : List SignedLiteral} :
    readSolution (.ofText text) = .ok ls ↔ Values (solutionTokens text) ls := by
  rw [readSolution_ofText, LineToken.mapM_read_eq_ok_iff]

theorem readSolution_eq_error_iff {e : Error} : readSolution (.ofText text) = .error e ↔
    ∃ before t after, solutionTokens text = before ++ t :: after ∧
      (∀ u ∈ before, LineToken.IsLiteral u) ∧ ¬ t.IsLiteral ∧
      e = .badToken t.line (String.ofList t.chars) := by
  rw [readSolution_ofText, mapM_eq_error_iff]
  simp only [LineToken.isLiteral_iff, LineToken.read_eq_error_iff]

theorem exists_readSolution_iff :
    (∃ ls, readSolution (.ofText text) = .ok ls) ↔ ∀ t ∈ solutionTokens text, t.IsLiteral := by
  simp only [readSolution_eq_ok_iff, LineToken.exists_values_iff]

end Text

/-! ### Writing -/

theorem tokens_solutionText (ls : List SignedLiteral) :
    tokens (solutionText ls).toList = ls.map SignedLiteral.token := by
  rw [solutionText, toList_signedText]
  refine tokens_intercalate (by decide) fun t ht => ?_
  obtain ⟨l, -, rfl⟩ := List.mem_map.mp ht
  exact l.isToken_token

/-- **A solution that was written is read back.** -/
theorem readSolution_solutionText (ls : List SignedLiteral) :
    readSolution (.ofText (solutionText ls)) = .ok ls := by
  rw [readSolution_eq_ok_iff, values_iff_chars, map_chars_solutionTokens, tokens_solutionText,
    List.forall₂_map_left_iff, List.forall₂_same]
  exact fun l _ => SignedLiteral.ofToken?_eq_some_iff.mp l.ofToken?_token

end StochasticSat
