import StochasticSat.Proofs.Text.ByteLines
import StochasticSat.Proofs.Text.Detection
import StochasticSat.Proofs.Text.SolutionTexts

/-!
# How lines end

A line may end with a line feed or with a carriage return and a line feed.  `withReturns` puts a
carriage return before every line feed of a text, whatever carriage returns are in it already.  The
end of a line takes one carriage return with it, and any other stands at the end of a line, where it
is blank, so the tokens of the lines stay the same (`map_tokens_lines_addReturns`).  Since no reader
looks at anything else, it does not matter to any of them (`line_ends_do_not_matter`).
-/

namespace StochasticSat

open Text

/-! ### Carriage returns -/

/-- A row of characters with a carriage return before each of its line feeds. -/
def addReturns (cs : List Char) : List Char :=
  cs.flatMap fun c => if c = '\n' then ['\r', '\n'] else [c]

/-- A text with a carriage return before each of its line feeds. -/
def withReturns (text : String) : String := .ofList (addReturns text.toList)

theorem addReturns_of_notMem {l : List Char} (h : '\n' ∉ l) : addReturns l = l := by
  have hkeep : l.flatMap (fun c => if c = '\n' then ['\r', '\n'] else [c]) = l.flatMap ([·]) :=
    List.flatMap_congr fun c hc => if_neg (ne_of_mem_of_not_mem hc h)
  rw [addReturns, hkeep]
  simp

theorem addReturns_append_feed {l : List Char} (h : '\n' ∉ l) (rest : List Char) :
    addReturns (l ++ '\n' :: rest) = (l ++ ['\r']) ++ '\n' :: addReturns rest := by
  rw [addReturns, List.flatMap_append, List.flatMap_cons, if_pos rfl, ← addReturns, ← addReturns,
    addReturns_of_notMem h, List.append_assoc]
  rfl

/-- **Lines have the same tokens** whether or not carriage returns stand before the line feeds. -/
theorem map_tokens_lines_addReturns (cs : List Char) :
    (lines (addReturns cs)).map tokens = (lines cs).map tokens := by
  induction cs using line_induction '\n' with
  | last l h => rw [addReturns_of_notMem h]
  | line l rest h ih =>
    have h' : '\n' ∉ l ++ ['\r'] := by simpa using h
    rw [addReturns_append_feed h, lines_append_feed h', lines_append_feed h, List.map_cons,
      List.map_cons, ih, tokens_dropReturn, tokens_dropReturn, List.reverse_reverse,
      List.reverse_reverse, tokens_concat_blank (by decide)]

/-- A carriage return that is there already stays at the end of its line. -/
example : lines (addReturns ['1', '\r', '\n', '2', '\r']) = [['1', '\r'], ['2', '\r']] := by
  decide

theorem map_tokens_lines_withReturns (text : String) :
    (lines (withReturns text).toList).map tokens = (lines text.toList).map tokens := by
  rw [withReturns, String.toList_ofList, map_tokens_lines_addReturns]

/-! ### Readers -/

section Readers
variable {text text' : String}
  (h : (lines text.toList).map tokens = (lines text'.toList).map tokens)
include h

/-- The dialect of a text is that of any text whose lines have the same tokens. -/
theorem detect_congr : Dialect.detect text = Dialect.detect text' := by
  rw [Dialect.detect, Dialect.detect, detectLines_eq, detectLines_eq, h]

/-- So are its clauses, and the first token that is no literal. -/
theorem readClauses_congr (dialect : Dialect) :
    readClauses dialect (.ofText text) = readClauses dialect (.ofText text') := by
  cases dialect with
  | plain =>
    rw [readClauses, readClauses, Source.ofText, Source.ofText, plainOnto_map_some,
      plainOnto_map_some, h]
  | dimacs => rw [readClauses_dimacs, readClauses_dimacs, dataTokens_eq, dataTokens_eq, h]

theorem readSolution_congr : readSolution (.ofText text) = readSolution (.ofText text') := by
  rw [readSolution, readSolution, Source.ofText, Source.ofText, solutionOnto_map_some,
    solutionOnto_map_some, h]

theorem instanceOfText_congr (dialect? : Option Dialect) :
    instanceOfText dialect? text = instanceOfText dialect? text' := by
  rw [instanceOfText, instanceOfText, detect_congr h, readInstance, readInstance,
    readClauses_congr h]

end Readers

/-- **It does not matter how lines end.**  With a carriage return before each of its line feeds, and
whatever carriage returns are in it already, a text has the same dialect, the same clauses or the
same error in both dialects, the same literals as a solution, and the same instance as a file or
without one.  Detection cuts a text into lines and the readers cut its bytes; both get the same
lines of every text, and the same tokens on them with and without carriage returns. -/
theorem line_ends_do_not_matter (text : String) :
    Dialect.detect (withReturns text) = Dialect.detect text ∧
    (∀ dialect, readClauses dialect (.ofByteLines (withReturns text).toUTF8) =
      readClauses dialect (.ofByteLines text.toUTF8)) ∧
    readSolution (.ofByteLines (withReturns text).toUTF8) =
      readSolution (.ofByteLines text.toUTF8) ∧
    (∀ dialect?, instanceOfText dialect? (withReturns text) = instanceOfText dialect? text ∧
      instanceOfBytes dialect? (withReturns text).toUTF8 =
        instanceOfBytes dialect? text.toUTF8) ∧
    (∀ bytes, Source.ofBytes bytes = .ofByteLines bytes) ∧
    Source.ofByteLines text.toUTF8 = (lines text.toList).map some ∧
    (Source.ofByteLines (withReturns text).toUTF8).map (·.map tokens) =
      (lines text.toList).map fun line => some (tokens line) := by
  have h := map_tokens_lines_withReturns text
  simp only [Source.ofByteLines_toUTF8, instanceOfBytes_toUTF8]
  refine ⟨detect_congr h, readClauses_congr h, readSolution_congr h,
    fun dialect? => ⟨instanceOfText_congr h dialect?, instanceOfText_congr h dialect?⟩,
    Source.ofBytes_eq, rfl, ?_⟩
  calc (Source.ofText (withReturns text)).map (·.map tokens)
    _ = ((lines (withReturns text).toList).map tokens).map some := by
      rw [Source.ofText, List.map_map, List.map_map]
      rfl
    _ = (lines text.toList).map fun line => some (tokens line) := by
      rw [h, List.map_map]
      rfl

end StochasticSat
