import PageTokens.Scanner

/-!
# Whole scans

Two ways to the end of an input. `Scanner.readings` lists the reads up to and including the first
that gives no token; it shows all there is to see. `Scanner.collect` asks for one token after
another until there are no more and answers with all of them, or with the first error. Both end
since every token uses up input.
-/

namespace PageTokens

/-- What collecting comes to: all tokens or the first error, the events on the way, and the scanner
behind it. -/
structure Collection where
  /-- the tokens, or the error that kept them back -/
  tokens : Except ScanError (List Token)
  /-- what happened -/
  events : List Event
  /-- the scanner behind it -/
  after : Scanner

namespace Scanner

/-- The reads up to and including the first that gives no token. -/
def readings (s : Scanner) : List Reading :=
  let r := s.read
  match _h : r.answer with
  | .token _ => r :: r.after.readings
  | _ => [r]
termination_by s.cursor.items.length
decreasing_by exact length_read_lt _h

/-- All tokens that are left, or the first error. After an earlier error none are left. -/
def collect (s : Scanner) : Collection :=
  let r := s.next
  match _h : r.answer with
  | .token t =>
    let others := r.after.collect
    ⟨others.tokens.map (t :: ·), r.events ++ others.events, others.after⟩
  | .ended => ⟨.ok [], r.events, r.after⟩
  | .error e => ⟨.error e, r.events, r.after⟩
termination_by s.cursor.items.length
decreasing_by exact length_next_lt _h

/-! ## The two of them step by step -/

variable {s : Scanner}

theorem readings_of_token {t : Token} (h : s.read.answer = .token t) :
    s.readings = s.read :: s.read.after.readings := by
  rw [readings]
  split <;> simp_all

theorem readings_of_ended (h : s.read.answer = .ended) : s.readings = [s.read] := by
  rw [readings]
  split <;> simp_all

theorem readings_of_error {e : ScanError} (h : s.read.answer = .error e) :
    s.readings = [s.read] := by
  rw [readings]
  split <;> simp_all

theorem collect_of_token {t : Token} (h : s.next.answer = .token t) :
    s.collect = ⟨s.next.after.collect.tokens.map (t :: ·),
      s.next.events ++ s.next.after.collect.events, s.next.after.collect.after⟩ := by
  rw [collect]
  split <;> simp_all

theorem collect_of_ended (h : s.next.answer = .ended) :
    s.collect = ⟨.ok [], s.next.events, s.next.after⟩ := by
  rw [collect]
  split <;> simp_all

theorem collect_of_error {e : ScanError} (h : s.next.answer = .error e) :
    s.collect = ⟨.error e, s.next.events, s.next.after⟩ := by
  rw [collect]
  split <;> simp_all

end Scanner

/-- All tokens of an input, or the first error. -/
def tokenize (input : Input) : Except ScanError (List Token) :=
  (Scanner.start input).collect.tokens

end PageTokens
