import PageTokens.Event
import PageTokens.Sink

/-!
# What is told beside the output

Two kinds of things come to the standard error of a run. There are lines of the run's own, which say
what went wrong. And there is a log, for whoever wants to follow the run or to find out about it: each
record of it says how much it matters and where it comes from.

Which records are written is decided by a filter. The environment may ask for one; if it does not,
those for information are written, and those for debugging too if the run is to be verbose. How a
filter is put in words, and how a record is laid out, with the time and perhaps in colours, is up to
whoever keeps the log. Nothing of the log comes to the standard output.
-/

namespace PageTokens

/-- A line as bytes. -/
def line (s : String) : List Byte :=
  Text.utf8 (s.toList ++ ['\n'])

/-- A record of a log. -/
structure LogRecord where
  /-- how much it matters -/
  severity : Severity
  /-- where it comes from -/
  origin : Origin
  /-- what it says -/
  text : String
  deriving DecidableEq, Repr

/-- An event as a record. -/
def Event.record (e : Event) : LogRecord := ⟨e.severity, e.origin, e.message⟩

/-- Something that comes to the standard error. -/
inductive Notice where
  /-- a line of the run's own -/
  | line (text : String)
  /-- a record of the log -/
  | record (r : LogRecord)
  deriving DecidableEq, Repr

/-- What a run is asked about its log. -/
structure Diagnostics where
  /-- whether it is to tell more -/
  verbose : Bool
  /-- whether it is to tell it without colours -/
  noColor : Bool
  deriving DecidableEq, Repr

/-- Whoever keeps a log. -/
structure Logger where
  /-- the filter that the environment asks for, if it asks for one -/
  filter? : Option (LogRecord → Bool)
  /-- a record as it is written, with colours or without them; the moment at which it comes is told by
  what was told before -/
  layout : Bool → Nat → LogRecord → List Byte

namespace Logger

/-- Whether a record is written. -/
def admits (logger : Logger) (d : Diagnostics) (r : LogRecord) : Bool :=
  match logger.filter? with
  | some filter => filter r
  | none => r.severity = .info || d.verbose && r.severity = .debug

/-- What is written of a notice. -/
def bytes (logger : Logger) (d : Diagnostics) (moment : Nat) : Notice → List Byte
  | .line s => PageTokens.line s
  | .record r => if logger.admits d r then logger.layout (!d.noColor) moment r else []

/-- What is written of notices, from some moment on. -/
def written (logger : Logger) (d : Diagnostics) (moment : Nat) : List Notice → List Byte
  | [] => []
  | n :: ns => logger.bytes d moment n ++ logger.written d (moment + 1) ns

end Logger

/-- What is written of notices if nothing is written of the log. -/
def Notice.unlogged : List Notice → List Byte
  | [] => []
  | .line s :: ns => PageTokens.line s ++ unlogged ns
  | .record _ :: ns => unlogged ns

/-! ## Notices in a row -/

namespace Logger

variable {logger : Logger} {d : Diagnostics}

/-- Where no record is written, nothing but the lines is. -/
theorem written_of_refused {ns : List Notice}
    (h : ∀ r, .record r ∈ ns → logger.admits d r = false) (moment : Nat) :
    logger.written d moment ns = Notice.unlogged ns := by
  induction ns generalizing moment with
  | nil => rfl
  | cons n ns ih =>
    have hothers := ih (fun r hr => h r (List.mem_cons_of_mem _ hr)) (moment + 1)
    cases n with
    | line s => rw [written, hothers, bytes, Notice.unlogged]
    | record r =>
      have hr : logger.bytes d moment (.record r) = [] := by
        rw [bytes, h r List.mem_cons_self, if_neg Bool.false_ne_true]
      rw [written, hothers, hr, Notice.unlogged, List.nil_append]

/-- Whatever is written of the log, the lines stand in order in what is written. -/
theorem unlogged_sublist_written (moment : Nat) (ns : List Notice) :
    (Notice.unlogged ns).Sublist (logger.written d moment ns) := by
  induction ns generalizing moment with
  | nil => exact .slnil
  | cons n ns ih =>
    cases n with
    | line s => exact (ih (moment + 1)).append_left _
    | record r => exact (ih (moment + 1)).trans (List.sublist_append_right ..)

/-- Whoever keeps the log writes no record but those for information. -/
def Quiet (logger : Logger) (d : Diagnostics) : Prop :=
  ∀ r, logger.admits d r = true → r.severity = .info

end Logger

namespace Notice

/-- None of the records among notices is for information. -/
def Minor (ns : List Notice) : Prop := ∀ r, .record r ∈ ns → r.severity ≠ .info

end Notice

/-- Without debugging, the lines are all that is written of minor notices. -/
theorem Logger.Quiet.written {logger : Logger} {d : Diagnostics} {ns : List Notice}
    (h : logger.Quiet d) (hns : Notice.Minor ns) (moment : Nat) :
    logger.written d moment ns = Notice.unlogged ns := by
  refine written_of_refused ?_ moment
  intro r hr
  exact Bool.eq_false_iff.mpr fun hadmits => hns r hr (h r hadmits)

end PageTokens
