import PageTokens.ScanError

/-!
# Errors of a run

Whatever keeps a run from its goal is one of five things. Each says in front what it is, and keeps
what caused it, so that a reader can follow the causes down.
-/

namespace PageTokens

/-- Why a run, or a part of it, failed. -/
inductive Error where
  /-- the configuration is missing or malformed -/
  | configuration (reason : String)
  /-- the input of this name could not be scanned -/
  | scan (name : String) (cause : ScanError)
  /-- the command ran, but not to success -/
  | command (reason : String)
  /-- something could not be opened, read or written -/
  | io (reason : String)
  /-- JSON could not be written -/
  | json (reason : String)
  deriving DecidableEq, Repr

namespace Error

/-- The error in words. -/
def message : Error → String
  | .configuration reason => s!"Configuration error: {reason}"
  | .scan name cause => s!"{name}: {cause.message}"
  | .command reason => s!"Command execution failed: {reason}"
  | .io reason => s!"IO error: {reason}"
  | .json reason => s!"JSON error: {reason}"

/-- What caused the error, what caused that, and so on, in words. -/
def causes : Error → List String
  | .configuration _ | .command _ => []
  | .scan _ cause => cause.message :: (cause.failure?.map Failure.message).toList
  | .io reason | .json reason => [reason]

/-- Following the causes down, what is said gets shorter from the front: every message ends in those
of the causes below. -/
theorem pairwise_causes (e : Error) :
    (e.message :: e.causes).Pairwise fun m cause => ∃ front : String, m = front ++ cause := by
  cases e with
  | configuration reason => simp [causes]
  | command reason => simp [causes]
  | io reason => simpa [causes] using ⟨"IO error: ", rfl⟩
  | json reason => simpa [causes] using ⟨"JSON error: ", rfl⟩
  | scan name cause =>
    have hcause : ∃ front, message (.scan name cause) = front ++ cause.message := ⟨_, rfl⟩
    cases cause with
    | unterminated start => simpa [causes, ScanError.failure?] using hcause
    | read f =>
      have hfailure : (ScanError.read f).message = "failed to read input: " ++ f.message := rfl
      obtain ⟨front, hfront⟩ := hcause
      have hwhole : message (.scan name (.read f)) =
          front ++ "failed to read input: " ++ f.message := by
        rw [hfront, hfailure, String.append_assoc]
      simpa [causes, ScanError.failure?] using ⟨⟨⟨_, hfront⟩, _, hwhole⟩, _, hfailure⟩

end Error

end PageTokens
