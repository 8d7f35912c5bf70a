import PageTokens.Error
import PageTokens.Notice
import PageTokens.Record
import PageTokens.Scanner.Run
import PageTokens.Settings
import PageTokens.Sink

/-!
# Dumps

A dump tells of every token of an input, in order. If the scan ends in an error, the tokens before
it are told all the same, and the error is given afterwards. A sink that does not take the whole
dump is an error of its own, and hides that of the scan.

The log has the events of the scan, and behind them the number of tokens, before anything is written.
-/

namespace PageTokens

namespace Dump

/-- The record of a read, if it found a token. -/
def recordOf (showLocation : Bool) (r : Reading) : Option Record :=
  match r.answer with
  | .token t => some (.ofToken t r.after.tokenStart showLocation)
  | .ended | .error _ => none

/-- The error of a read, if it ended in one. -/
def errorOf (r : Reading) : Option ScanError :=
  match r.answer with
  | .error e => some e
  | .token _ | .ended => none

/-- The records of the tokens among some reads. -/
def records (showLocation : Bool) (readings : List Reading) : List Record :=
  readings.filterMap (recordOf showLocation)

/-- The error in which some reads end, if they do. -/
def scanError? (readings : List Reading) : Option ScanError :=
  readings.findSome? errorOf

/-- The message of a sink that is full. -/
def sinkFull : String := "sink full"

/-- What a dump comes to. -/
structure Result where
  /-- what the sink took -/
  written : List Byte
  /-- what went wrong -/
  error : Option Error
  deriving DecidableEq, Repr

/-- The pieces of a dump as text: a line for each record. -/
def lines (records : List Record) : List (List Byte) :=
  records.map fun r => Text.utf8 (r.line ++ ['\n'])

/-- Writes records as text. -/
def putText (sink : Sink) (records : List Record) : List Byte × Option Error :=
  match sink.putAll (lines records) with
  | ⟨taken, some _⟩ => (taken, none)
  | ⟨taken, none⟩ => (taken, some (.io sinkFull))

/-- Writes records as JSON, and ends the line behind the list. Only the list itself counts as
JSON if the sink is full. -/
def putJson (sink : Sink) (records : List Record) : List Byte × Option Error :=
  match sink.put (Text.utf8 (Json.pretty (records.map Record.fields))) with
  | ⟨taken, none⟩ => (taken, some (.json sinkFull))
  | ⟨taken, some rest⟩ =>
    match rest.put (Text.utf8 ['\n']) with
    | ⟨lineEnd, none⟩ => (taken ++ lineEnd, some (.io sinkFull))
    | ⟨lineEnd, some _⟩ => (taken ++ lineEnd, none)

/-- Writes records in a format. -/
def put (sink : Sink) : Format → List Record → List Byte × Option Error
  | .text, records => putText sink records
  | .json, records => putJson sink records

end Dump

/-- Dumps an input that has a name for messages. -/
def dump (input : Input) (name : String) (settings : Settings) (sink : Sink) : Dump.Result :=
  let readings := (Scanner.start input).readings
  match Dump.put sink settings.format (Dump.records settings.showLocation readings) with
  | (written, some e) => ⟨written, some e⟩
  | (written, none) => ⟨written, (Dump.scanError? readings).map (.scan name)⟩

/-- What a dump reports to the log. -/
def dumpLog (input : Input) (name : String) (showLocation : Bool) : List LogRecord :=
  let readings := (Scanner.start input).readings
  let count := (Dump.records showLocation readings).length
  readings.flatMap (·.events.map Event.record) ++
    [⟨.debug, .tokens, s!"scanned {count} tokens from {name}"⟩]

end PageTokens
