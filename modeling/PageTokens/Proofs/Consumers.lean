import PageTokens.Proofs.Output
import PageTokens.Proofs.Resumption
import PageTokens.Program

/-!
# One scan, whoever asks for it

The reads of a scanner up to the first that gives no token come to some tokens with their places,
and to an end or an error behind them. `Scanner.Yields` says which, by the answers of the reads
alone, and every scanner yields something (`Scanner.exists_yields`).

There are several ways to have a scan: token by token, all at once, as a dump, as a count. Each goes
through the input by a recursion of its own, and each is shown here to come to what the scanner
yields, by induction on that. What a dump is made of is spelled out for this (`Scan.dumped`), token
by token and without a record.
-/

namespace PageTokens

/-! ## What a scanner yields -/

/-- What a scan comes to. -/
structure Scan where
  /-- the tokens in order, each with the place where it begins -/
  found : List (Token × Location)
  /-- the error behind them, or none if they go to the end -/
  error : Option ScanError
  deriving DecidableEq, Repr

namespace Scan

/-- The tokens. -/
def tokens (scan : Scan) : List Token := scan.found.map Prod.fst

/-- The tokens one by one, and the error behind them if there is one. -/
def answers (scan : Scan) : List Answer :=
  scan.tokens.map .token ++ (scan.error.map .error).toList

/-- The answer to a request for the next token, by the number of those before it. Behind the last
answer there is only the end. -/
def answerAt (scan : Scan) (n : Nat) : Answer := scan.answers[n]?.getD .ended

/-- All tokens, or the error that keeps them back. -/
def result (scan : Scan) : Except ScanError (List Token) :=
  match scan.error with
  | none => .ok scan.tokens
  | some e => .error e

/-- A record for each token. -/
def records (scan : Scan) (showLocation : Bool) : List Record :=
  scan.found.map fun (t, start) => .ofToken t start showLocation

/-- A token in a dump as text: one line with its kind and the token as it would stand in a program,
behind the line and column where it starts if these are to be shown. -/
def textLine (showLocation : Bool) (t : Token) (start : Location) : Text :=
  (if showLocation then
    Nat.toDigits 10 start.line ++ [':'] ++ Nat.toDigits 10 start.column ++ ['\t'] else []) ++
    t.kind.label.toList ++ [' '] ++ t.render ++ ['\n']

/-- A line of an object in JSON, without its end. -/
def jsonLine (key : String) (value : Text) : Text :=
  [' ', ' ', ' ', ' ', '"'] ++ key.toList ++ ['"', ':', ' '] ++ value

/-- A token in a dump as JSON, line by line: its kind, its form if it is a string, its bare value, and
the line and column where it starts if these are to be shown. -/
def jsonLines (showLocation : Bool) (t : Token) (start : Location) : List Text :=
  [jsonLine "kind" (Json.quote t.kind.label.toList)] ++
    (t.kind.stringForm?.map (jsonLine "syntax" <| Json.quote ·.label.toList)).toList ++
    [jsonLine "value" (Json.quote t.value)] ++
    if showLocation then
      [jsonLine "line" (Nat.toDigits 10 start.line),
        jsonLine "column" (Nat.toDigits 10 start.column)] else []

/-- These lines in braces. -/
def jsonObject (showLocation : Bool) (t : Token) (start : Location) : Text :=
  [' ', ' ', '{', '\n'] ++ [',', '\n'].intercalate (jsonLines showLocation t start) ++
    ['\n', ' ', ' ', '}']

/-- A dump of the tokens, in which each of them stands once and in order. -/
def dumped (scan : Scan) (settings : Settings) : List Byte :=
  match settings.format with
  | .text => Text.utf8 (scan.found.flatMap fun (t, start) => textLine settings.showLocation t start)
  | .json =>
    let objects := scan.found.map fun (t, start) => jsonObject settings.showLocation t start
    Text.utf8 (if objects = [] then ['[', ']', '\n']
      else ['[', '\n'] ++ [',', '\n'].intercalate objects ++ ['\n', ']', '\n'])

/-- The number of tokens of an input with a name, or the error. -/
def verdict (scan : Scan) (name : String) : Program.Verdict :=
  match scan.error with
  | none => .ok (name, scan.found.length)
  | some e => .error (.scan name e)

/-- A scan with one more token in front. -/
def cons (t : Token) (start : Location) (scan : Scan) : Scan :=
  ⟨(t, start) :: scan.found, scan.error⟩

@[simp] theorem answerAt_cons_zero (t : Token) (start : Location) (scan : Scan) :
    (scan.cons t start).answerAt 0 = .token t := rfl

@[simp] theorem answerAt_cons_succ (t : Token) (start : Location) (scan : Scan) (n : Nat) :
    (scan.cons t start).answerAt (n + 1) = scan.answerAt n := rfl

theorem result_eq_ok {scan : Scan} {ts : List Token} :
    scan.result = .ok ts ↔ scan.error = none ∧ scan.tokens = ts := by
  obtain ⟨found, error⟩ := scan
  cases error <;> simp [result, tokens]

theorem result_eq_error {scan : Scan} {e : ScanError} :
    scan.result = .error e ↔ scan.error = some e := by
  obtain ⟨found, error⟩ := scan
  cases error <;> simp [result]

theorem result_cons (t : Token) (start : Location) (scan : Scan) :
    (scan.cons t start).result = scan.result.map (t :: ·) := by
  obtain ⟨found, error⟩ := scan
  cases error <;> rfl

end Scan

namespace Scanner

/-- What the reads of a scanner yield, up to and including the first that gives no token. -/
inductive Yields : Scanner → Scan → Prop
  /-- the end at once -/
  | ended {s : Scanner} : s.read.answer = .ended → Yields s ⟨[], none⟩
  /-- an error at once -/
  | error {s : Scanner} {e : ScanError} : s.read.answer = .error e → Yields s ⟨[], some e⟩
  /-- a token, and what is yielded behind it -/
  | token {s : Scanner} {t : Token} {scan : Scan} :
      s.read.answer = .token t → Yields s.read.after scan →
      Yields s (scan.cons t s.read.after.tokenStart)

/-- Every scanner yields something, since every token uses up input. -/
theorem exists_yields (s : Scanner) : ∃ scan, s.Yields scan := by
  induction hn : s.cursor.items.length using Nat.strongRecOn generalizing s with
  | ind n ih =>
    cases ha : s.read.answer with
    | token t =>
      have hlt := length_read_lt ha
      rw [hn] at hlt
      obtain ⟨scan, hscan⟩ := ih _ hlt s.read.after rfl
      exact ⟨_, .token ha hscan⟩
    | ended => exact ⟨_, .ended ha⟩
    | error e => exact ⟨_, .error ha⟩

end Scanner

/-! ## Token by token -/

/-- Whether an answer is an error. -/
def Answer.isError : Answer → Bool
  | .error _ => true
  | .token _ | .ended => false

namespace Scanner

open Session

variable {s : Scanner} {scan : Scan}

theorem failed_conclude (e : Ending Lexeme Lexeme.Missing) (c : Cursor) (start : Location)
    (failed : Bool) : (conclude e c start failed).after.failed =
      (failed || (conclude e c start failed).answer.isError) := by
  rcases e with l | ⟨_ | _⟩ | f <;> simp [conclude, finding, failing, Answer.isError]

/-- A scanner has failed if it had, or if it answers with an error. -/
theorem failed_read (s : Scanner) : s.read.after.failed = (s.failed || s.read.answer.isError) := by
  rcases gap_trace_cases s.cursor.items with ⟨gap, mid, hg⟩ | ⟨f, gap, rest, hg⟩
  · rcases hl : Lexeme.machine.trace .fresh mid with ⟨e, lexeme, rest⟩
    obtain ⟨c, hr, -⟩ := read_of_traces hg hl
    rw [hr, failed_conclude]
  · obtain ⟨c, hr, -⟩ := read_of_gap_failure hg
    rw [hr]
    simp [failing, Answer.isError]

theorem next_of_not_failed (h : s.failed = false) : s.next = s.read := by
  simp [next, h]

theorem failed_of_token {t : Token} (h : s.read.answer = .token t) (hf : s.failed = false) :
    s.read.after.failed = false := by
  rw [failed_read, h, hf]
  rfl

/-- A scanner has nothing more to give: a read has failed, or nothing is left to be read. -/
def Exhausted (s : Scanner) : Prop := s.failed = true ∨ s.cursor.items = []

theorem exhausted_of_ended (h : s.read.answer = .ended) : s.read.after.Exhausted :=
  .inr (items_of_seesEnd (.inl (congrArg Response.one h)))

theorem exhausted_of_error {e : ScanError} (h : s.read.answer = .error e) :
    s.read.after.Exhausted := by
  refine .inl ?_
  rw [failed_read, h]
  exact Bool.or_true _

/-- An exhausted scanner answers with the end, and stays so. -/
theorem Exhausted.next (h : s.Exhausted) : s.next.answer = .ended ∧ s.next.after.Exhausted := by
  by_cases hf : s.failed = true
  · rw [Scanner.next, if_pos hf]
    exact ⟨rfl, h⟩
  · have hi : s.cursor.items = Item.ofBytes [] := h.resolve_left hf
    have hg : Gap.Fills (Byte.text []) [] := .nil
    have ha := read_of_gap hg hi
    rw [Scanner.next, if_neg hf]
    exact ⟨ha, exhausted_of_ended ha⟩

theorem Exhausted.nexts (h : s.Exhausted) (k : Nat) :
    (run s (.replicate k .next)).map Step.response = .replicate k (.one .ended) := by
  induction k generalizing s with
  | zero => rfl
  | succ k ih =>
    obtain ⟨ha, hafter⟩ := h.next
    exact congrArg₂ List.cons (congrArg Response.one ha) (ih hafter)

/-- A request for one token more. -/
theorem responses_succ (s : Scanner) (k : Nat) :
    (run s (.replicate (k + 1) .next)).map Step.response =
      .one s.next.answer :: (run s.next.after (.replicate k .next)).map Step.response := rfl

/-- Behind an answer that is no token, nothing but the end is answered. -/
theorem nexts_of_last (hf : s.failed = false) (hlast : s.read.after.Exhausted)
    (hfirst : scan.answerAt 0 = s.read.answer) (hothers : ∀ i, scan.answerAt (i + 1) = .ended)
    (k : Nat) :
    (run s (.replicate k .next)).map Step.response =
      (List.range k).map fun i => .one (scan.answerAt i) := by
  cases k with
  | zero => rfl
  | succ k =>
    rw [responses_succ, next_of_not_failed hf, hlast.nexts, List.range_succ_eq_map, List.map_cons,
      hfirst]
    simp [Function.comp_def, hothers, List.map_const']

/-- Asked for one token after another, a scanner gives what it yields. -/
theorem Yields.nexts (h : s.Yields scan) (hf : s.failed = false) (k : Nat) :
    (run s (.replicate k .next)).map Step.response =
      (List.range k).map fun i => .one (scan.answerAt i) := by
  induction h generalizing k with
  | @ended s ha =>
    have hfirst : (Scan.mk [] none).answerAt 0 = s.read.answer := by
      rw [ha]
      rfl
    exact nexts_of_last hf (exhausted_of_ended ha) hfirst (fun _ => rfl) k
  | @error s e ha =>
    have hfirst : (Scan.mk [] (some e)).answerAt 0 = s.read.answer := by
      rw [ha]
      rfl
    exact nexts_of_last hf (exhausted_of_error ha) hfirst (fun _ => rfl) k
  | @token s t scan ha _ ih =>
    cases k with
    | zero => rfl
    | succ k =>
      rw [responses_succ, next_of_not_failed hf, ha, ih (failed_of_token ha hf),
        List.range_succ_eq_map]
      simp [Function.comp_def]

/-- To read until there is no token takes one read more than there are tokens. -/
theorem Yields.readThrough (h : s.Yields scan) :
    Session.readThrough s = run s (.replicate (scan.found.length + 1) .read) := by
  induction h with
  | ended ha => exact congrArg (List.map stepOfReading) (readings_of_ended ha)
  | error ha => exact congrArg (List.map stepOfReading) (readings_of_error ha)
  | token ha _ ih =>
    rw [Session.readThrough] at ih ⊢
    rw [readings_of_token ha, List.map_cons, ih]
    rfl

/-! ## All at once -/

/-- Asked for all tokens, a scanner gives what it yields. -/
theorem Yields.collect (h : s.Yields scan) (hf : s.failed = false) :
    s.collect.tokens = scan.result := by
  induction h with
  | @ended s ha =>
    have hn : s.next.answer = .ended := by rw [next_of_not_failed hf, ha]
    rw [collect_of_ended hn]
    rfl
  | @error s e ha =>
    have hn : s.next.answer = .error e := by rw [next_of_not_failed hf, ha]
    rw [collect_of_error hn]
    rfl
  | @token s t scan ha _ ih =>
    have hn : s.next.answer = .token t := by rw [next_of_not_failed hf, ha]
    rw [collect_of_token hn, next_of_not_failed hf, ih (failed_of_token ha hf), Scan.result_cons]

/-! ## As a dump -/

/-- The records of the reads are those of the tokens that are yielded. -/
theorem Yields.records (h : s.Yields scan) (showLocation : Bool) :
    Dump.records showLocation s.readings = scan.records showLocation := by
  induction h with
  | ended ha =>
    rw [readings_of_ended ha]
    simp [Dump.records, Dump.recordOf, ha, Scan.records]
  | error ha =>
    rw [readings_of_error ha]
    simp [Dump.records, Dump.recordOf, ha, Scan.records]
  | @token s t scan ha _ ih =>
    rw [Dump.records] at ih
    rw [readings_of_token ha, Dump.records, List.filterMap_cons, ih]
    simp [Dump.recordOf, ha, Scan.records, Scan.cons]

/-- The error of the reads is the one that is yielded. -/
theorem Yields.scanError? (h : s.Yields scan) : Dump.scanError? s.readings = scan.error := by
  induction h with
  | ended ha =>
    rw [readings_of_ended ha]
    simp [Dump.scanError?, Dump.errorOf, ha]
  | error ha =>
    rw [readings_of_error ha]
    simp [Dump.scanError?, Dump.errorOf, ha]
  | @token s t scan ha _ ih =>
    rw [Dump.scanError?] at ih
    rw [readings_of_token ha, Dump.scanError?, List.findSome?_cons, ih]
    simp [Dump.errorOf, ha, Scan.cons]

end Scanner

namespace Sink

/-- A sink has room for a number of bytes. -/
def HasRoom (s : Sink) (n : Nat) : Prop := ∀ room ∈ s.room, n ≤ room

theorem unlimited_hasRoom (n : Nat) : unlimited.HasRoom n := by
  rintro room ⟨⟩

/-- A piece for which there is room is taken as a whole, and room is left for what else there was
room for. -/
theorem HasRoom.put {s : Sink} {piece : List Byte} {n : Nat} (h : s.HasRoom (piece.length + n)) :
    ∃ rest, s.put piece = ⟨piece, some rest⟩ ∧ rest.HasRoom n := by
  obtain ⟨_ | room⟩ := s
  · exact ⟨_, rfl, unlimited_hasRoom n⟩
  · have hroom := h room rfl
    refine ⟨⟨some (room - piece.length)⟩, if_pos (by omega), ?_⟩
    rintro _ ⟨⟩
    omega

theorem HasRoom.putAll {s : Sink} {pieces : List (List Byte)}
    (h : s.HasRoom pieces.flatten.length) :
    ∃ rest, s.putAll pieces = ⟨pieces.flatten, some rest⟩ := by
  obtain ⟨rest, hput, -⟩ := HasRoom.put (n := 0) h
  exact ⟨rest, by rw [putAll_eq_put, hput]⟩

end Sink

namespace Dump

/-- A dump as a whole. -/
def full : Format → List Record → List Byte
  | .text, records => (lines records).flatten
  | .json, records => Text.utf8 (Json.pretty (records.map Record.fields) ++ ['\n'])

/-- A sink that has room for a dump takes it. -/
theorem put_of_hasRoom {sink : Sink} {format : Format} {records : List Record}
    (h : sink.HasRoom (full format records).length) :
    put sink format records = (full format records, none) := by
  cases format with
  | text =>
    obtain ⟨rest, hall⟩ := h.putAll
    rw [put, putText, hall]
    rfl
  | json =>
    rw [full, Text.utf8_append, List.length_append] at h
    obtain ⟨rest, hput, hroom⟩ := h.put
    have hroom : rest.HasRoom ((Text.utf8 ['\n']).length + 0) := hroom
    obtain ⟨last, hend, -⟩ := hroom.put
    rw [put, putJson, hput]
    simp only [hend, full, Text.utf8_append]

end Dump

/-- Separated pieces are the library's, with the separator between any two. -/
theorem Json.separated_eq (separator : Text) (pieces : List Text) :
    separated separator pieces = separator.intercalate pieces := by
  induction pieces with
  | nil => rfl
  | cons piece pieces ih =>
    cases pieces with
    | nil => simp [separated, List.intercalate]
    | cons next pieces =>
      rw [separated, ih, List.intercalate_cons_of_ne_nil (List.cons_ne_nil next pieces)]
      exact List.cons_ne_nil next pieces

namespace Scan

/-- The line of a record is that of its token. -/
theorem line_ofToken (t : Token) (start : Location) (showLocation : Bool) :
    (Record.ofToken t start showLocation).line ++ ['\n'] = textLine showLocation t start := by
  cases showLocation <;> simp [Record.ofToken, Record.line, Record.placeText, textLine]

/-- The line of a field with a plain key. -/
theorem pretty_eq (key : String) (hkey : Json.quote key.toList = '"' :: key.toList ++ ['"'])
    (v : Json.Value) : Json.Field.pretty ⟨key.toList, v⟩ = jsonLine key v.write := by
  have hindent : Json.indent 2 = [' ', ' ', ' ', ' '] := rfl
  simp only [Json.Field.pretty, jsonLine, hkey, hindent, List.append_assoc, List.cons_append,
    List.nil_append]

/-- The fields of a record are those of its token. -/
theorem fields_ofToken (t : Token) (start : Location) (showLocation : Bool) :
    (Record.ofToken t start showLocation).fields.map Json.Field.pretty =
      jsonLines showLocation t start := by
  have hkind := pretty_eq "kind" (by decide)
  have hvalue := pretty_eq "value" (by decide)
  have hform : (Record.formFields t.kind).map Json.Field.pretty =
      (t.kind.stringForm?.map (jsonLine "syntax" <| Json.quote ·.label.toList)).toList := by
    rw [Record.formFields]
    cases t.kind.stringForm? with
    | none => rfl
    | some form => exact congrArg ([·]) (pretty_eq "syntax" (by decide) _)
  have hplace : (Record.placeFields (if showLocation then some start else none)).map
      Json.Field.pretty = if showLocation then
        [jsonLine "line" (Nat.toDigits 10 start.line),
          jsonLine "column" (Nat.toDigits 10 start.column)] else [] := by
    cases showLocation with
    | false => rfl
    | true =>
      exact congrArg₂ ([·, ·]) (pretty_eq "line" (by decide) _)
        (pretty_eq "column" (by decide) _)
  simp only [Record.fields, Record.ofToken, jsonLines, List.map_append, List.map_cons, hkind,
    hvalue, hform, hplace, Json.Value.write, List.cons_append, List.nil_append, List.append_assoc]

theorem prettyObject_ofToken (t : Token) (start : Location) (showLocation : Bool) :
    Json.prettyObject (Record.ofToken t start showLocation).fields =
      jsonObject showLocation t start := by
  have hindent : Json.indent 1 = [' ', ' '] := rfl
  simp only [Json.prettyObject, Json.separated_eq, fields_ofToken, jsonObject, hindent,
    List.append_assoc, List.cons_append, List.nil_append]

/-- The records of a scan make a dump of its tokens. -/
theorem full_records (scan : Scan) (settings : Settings) :
    Dump.full settings.format (scan.records settings.showLocation) = scan.dumped settings := by
  rw [dumped]
  cases settings.format with
  | text =>
    simp only [Dump.full, Dump.lines, records, List.map_map, Function.comp_def, line_ofToken,
      Text.utf8, List.flatMap_def, List.map_flatten, List.flatten_flatten]
  | json =>
    have hobjects : (scan.records settings.showLocation).map (Json.prettyObject ·.fields) =
        scan.found.map fun (t, start) => jsonObject settings.showLocation t start := by
      simp only [records, List.map_map, Function.comp_def, prettyObject_ofToken]
    rw [← hobjects, Dump.full]
    cases scan.records settings.showLocation with
    | nil => rfl
    | cons r rs =>
      simp only [List.map_cons, Json.pretty, Json.separated_eq, reduceCtorEq, if_false,
        List.map_map, Function.comp_def, List.append_assoc, List.cons_append, List.nil_append]

end Scan

open Scanner

/-- A dump has a record for each token that the scanner yields, and its error. -/
theorem dump_of_yields {input : Input} {scan : Scan} (h : (start input).Yields scan) (name : String)
    (settings : Settings) {sink : Sink}
    (hroom : sink.HasRoom
      (Dump.full settings.format (scan.records settings.showLocation)).length) :
    dump input name settings sink =
      ⟨Dump.full settings.format (scan.records settings.showLocation),
        scan.error.map (.scan name)⟩ := by
  rw [dump]
  simp only [h.records, h.scanError?, Dump.put_of_hasRoom hroom]

/-! ## As a count -/

/-- A check counts what the scanner yields. -/
theorem examine_of_yields {s : Program.Source} {scan : Scan} (h : (start s.input).Yields scan) :
    (Program.examine s).verdict = scan.verdict s.name := by
  have ht : (start s.input).collect.tokens = scan.result := h.collect rfl
  obtain ⟨found, error⟩ := scan
  rw [Program.examine, ht]
  cases error with
  | none => simp [Scan.result, Scan.verdict, Scan.tokens, Program.verdictOn]
  | some e => rfl

end PageTokens
