import PageTokens.Event
import PageTokens.Gap

/-!
# The scanner

A scanner reads one token after another. A read passes the gap before it, notes where it stands, and
reads one lexeme there. It answers with the token, with the end of the input, or with an error.

An error does not stop a scanner from being asked again: it has no memory of it but the cursor, and
reads on from where the failed read ended. Only `Scanner.next`, for those who want the tokens up to
the first error, stops for good.
-/

namespace PageTokens

/-- A scanner in the middle of its work. -/
structure Scanner where
  /-- where it stands in the input -/
  cursor : Cursor
  /-- where its latest token begins -/
  tokenStart : Location
  /-- whether any read has ended in an error -/
  failed : Bool
  deriving DecidableEq, Repr

/-- What a read answers. -/
inductive Answer where
  /-- a token -/
  | token (t : Token)
  /-- there are no more tokens -/
  | ended
  /-- no answer can be given -/
  | error (e : ScanError)
  deriving DecidableEq, Repr

/-- A read: its answer, the events it reports in order, and the scanner behind it. -/
structure Reading where
  /-- the answer -/
  answer : Answer
  /-- what happened -/
  events : List Event
  /-- the scanner for the next read -/
  after : Scanner
  deriving DecidableEq, Repr

namespace Scanner

/-- A scanner before its first read. -/
def start (input : Input) : Scanner := ⟨.start input, .unset, false⟩

/-- The place of the next byte. -/
def location (s : Scanner) : Location := s.cursor.location

/-! ## One read -/

/-- A read that ends in an error. -/
def failing (e : ScanError) (cursor : Cursor) (tokenStart : Location) : Reading :=
  ⟨.error e, [.failed e], ⟨cursor, tokenStart, true⟩⟩

/-- A read that finds a lexeme. -/
def finding (l : Lexeme) (cursor : Cursor) (tokenStart : Location) (failed : Bool) : Reading :=
  ⟨.token l.token,
    (l.remark.map fun r => .remarked r tokenStart).toList ++ [.scanned l.token tokenStart],
    ⟨cursor, tokenStart, failed⟩⟩

/-- A read whose lexeme, begun at a place, ended in some way. -/
def conclude (e : Ending Lexeme Lexeme.Missing) (cursor : Cursor) (tokenStart : Location)
    (failed : Bool) : Reading :=
  match e with
  | .done l => finding l cursor tokenStart failed
  | .rejected .lexeme => ⟨.ended, [.ended cursor.location], ⟨cursor, tokenStart, failed⟩⟩
  | .rejected .parenthesis => failing (.unterminated tokenStart) cursor tokenStart
  | .failed f => failing (.read f) cursor tokenStart

/-- A read that stands behind its gap. -/
def readLexeme (c : Cursor) (failed : Bool) : Reading :=
  match Lexeme.read c with
  | (e, next) => conclude e next c.location failed

/-- Reads the next token. -/
def read (s : Scanner) : Reading :=
  match Gap.skip s.cursor with
  | (.ok (), c) => readLexeme c s.failed
  | (.error f, c) => failing (.read f) c s.tokenStart

/-- Reads the next token, unless a read has ever failed: then there are no more, nothing happens and
nothing is reported. -/
def next (s : Scanner) : Reading :=
  if s.failed then ⟨.ended, [], s⟩ else s.read

/-! ## A token uses up input -/

theorem length_skip_le (c : Cursor) : (Gap.skip c).2.items.length ≤ c.items.length := by
  have h := Gap.machine.length_run_le .space c
  unfold Gap.skip
  split <;> simp_all

theorem length_readLexeme_lt {c : Cursor} {failed : Bool} {t : Token}
    (h : (readLexeme c failed).answer = .token t) :
    (readLexeme c failed).after.cursor.items.length < c.items.length := by
  rcases e : Lexeme.read c with ⟨ending, next⟩
  rw [readLexeme, e] at h ⊢
  rcases ending with l | ⟨_ | _⟩ | f
  · have used := Lexeme.length_read_lt (congrArg Prod.fst e)
    rw [e] at used
    exact used
  · cases h
  · cases h
  · cases h

theorem length_read_lt {s : Scanner} {t : Token} (h : s.read.answer = .token t) :
    s.read.after.cursor.items.length < s.cursor.items.length := by
  have kept := length_skip_le s.cursor
  unfold read at *
  split at h
  · simp_all only
    exact Nat.lt_of_lt_of_le (length_readLexeme_lt h) kept
  · simp [failing] at h

theorem length_next_lt {s : Scanner} {t : Token} (h : s.next.answer = .token t) :
    s.next.after.cursor.items.length < s.cursor.items.length := by
  unfold next at *
  split at h
  · simp at h
  · simp_all only
    exact length_read_lt h

/-! ## An error points to the token -/

theorem location?_readLexeme {c : Cursor} {failed : Bool} {e : ScanError}
    (h : (readLexeme c failed).answer = .error e) :
    ∀ place ∈ e.location?, place = (readLexeme c failed).after.tokenStart := by
  rcases hc : Lexeme.read c with ⟨ending, next⟩
  rw [readLexeme, hc] at h ⊢
  rcases ending with l | ⟨_ | _⟩ | f
  · cases h
  · cases h
  · cases h
    rintro _ ⟨⟩
    rfl
  · cases h
    rintro _ ⟨⟩

/-- If an error points to a place, it is the one where the latest token begins. -/
theorem location?_read {s : Scanner} {e : ScanError} (h : s.read.answer = .error e) :
    ∀ place ∈ e.location?, place = s.read.after.tokenStart := by
  unfold read at *
  split at h
  · exact location?_readLexeme h
  · cases h
    rintro _ ⟨⟩

end Scanner

end PageTokens
