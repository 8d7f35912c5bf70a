import PageTokens.Proofs.Trace
import PageTokens.Scanner.Run

/-!
# What comes of a read

A read is a gap and then a lexeme. Either the gap meets a failed read, or it ends, and the read
concludes with whatever the lexeme comes to. The two lemmas below lead from the traces of the two
machines to the reading. Everything that is said of scanners goes through them; none of it looks
into a cursor again.
-/

namespace PageTokens.Scanner

variable {s : Scanner} {gap lexeme : List Byte} {mid rest : List Item}

/-- Behind its gap a read concludes with what the lexeme comes to. -/
theorem read_of_traces {e : Ending Lexeme Lexeme.Missing}
    (hg : Gap.machine.trace .space s.cursor.items = ⟨.done (), gap, mid⟩)
    (hl : Lexeme.machine.trace .fresh mid = ⟨e, lexeme, rest⟩) :
    ∃ c, s.read = conclude e c (s.location.advanceAll gap) s.failed ∧ c.items = rest ∧
      c.location = s.location.advanceAll (gap ++ lexeme) := by
  obtain ⟨c, hskip, hi, hc⟩ := Machine.run_of_trace hg
  subst hi
  obtain ⟨c', hrun, hi', hc'⟩ := Machine.run_of_trace hl
  refine ⟨c', ?_, hi', ?_⟩
  · rw [read, Gap.skip, hskip]
    simp only [readLexeme, Lexeme.read, hrun, hc]
    rfl
  · rw [hc', hc, Location.advanceAll_append]
    rfl

/-- A failed read in the gap is the answer, and no token is begun. -/
theorem read_of_gap_failure {f : Failure}
    (hg : Gap.machine.trace .space s.cursor.items = ⟨.failed f, gap, rest⟩) :
    ∃ c, s.read = failing (.read f) c s.tokenStart ∧ c.items = rest ∧
      c.location = s.location.advanceAll gap := by
  obtain ⟨c, hc, hi, hl⟩ := Machine.run_of_trace hg
  exact ⟨c, by rw [read, Gap.skip, hc], hi, hl⟩

/-- A gap ends, unless it meets a failed read. -/
theorem gap_trace_cases (items : List Item) :
    (∃ gap rest, Gap.machine.trace .space items = ⟨.done (), gap, rest⟩) ∨
      ∃ f gap rest, Gap.machine.trace .space items = ⟨.failed f, gap, rest⟩ := by
  rcases e : Gap.machine.trace .space items with ⟨⟨⟨⟩⟩ | ⟨⟨⟩⟩ | f, gap, rest⟩
  · exact .inl ⟨gap, rest, rfl⟩
  · exact .inr ⟨f, gap, rest, rfl⟩

end PageTokens.Scanner
