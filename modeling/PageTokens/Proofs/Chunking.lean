import Mathlib.Data.List.Forall2
import Mathlib.Data.List.TakeWhile
import PageTokens.Dump
import PageTokens.Proofs.Reading
import PageTokens.Session

/-!
# How a source cuts up its data

Two sources are the same to a scanner if they deliver the same bytes and fail at the same places.
The reads of such sources have one normal form: nothing behind the first end, no interrupted reads,
no two deliveries in a row. The main statement is `steps_eq_of_normal`: sources of one normal form
give the same sessions, step by step, whatever is asked, and the same tokens and dumps.

The normal form is a matter of reads and says nothing of items or cursors. It meets the scanner in
two steps. Reads of one normal form come to the same items (`ofReads_normal`). And scanners that
stand at the same place before the same items are `Alike`: every request takes them, with one
answer, to scanners that are alike again, whatever their readers hold in their buffers and whether
or not they have looked ahead.
-/

namespace PageTokens

/-! ## The normal form of reads -/

namespace Read

/-- What a source answers before it first says that it has ended. -/
def untilEnd (reads : List Read) : List Read :=
  reads.takeWhile fun r => r ≠ .data []

/-- Whether a read was interrupted. -/
def isInterrupted : Read → Bool
  | .failure f => f.kind = .interrupted
  | .data _ => false

/-- The reads that were not interrupted. -/
def steady (reads : List Read) : List Read :=
  reads.filter fun r => !r.isInterrupted

/-- Deliveries in a row as one delivery. -/
def merge : List Read → List Read
  | [] => []
  | .failure f :: reads => .failure f :: merge reads
  | .data bytes :: reads =>
    match merge reads with
    | .data more :: rest => .data (bytes ++ more) :: rest
    | rest => .data bytes :: rest

/-- Reads as a source could give them that is never interrupted and cuts up nothing. -/
def normal (reads : List Read) : List Read :=
  merge (steady (untilEnd reads))

end Read

namespace Item

open Read

/-- A delivery of something is its bytes. -/
theorem ofReads_data {bytes : List Byte} (h : bytes ≠ []) (reads : List Read) :
    ofReads (.data bytes :: reads) = ofBytes bytes ++ ofReads reads := by
  cases bytes with
  | nil => exact absurd rfl h
  | cons b bytes => rfl

theorem ofReads_untilEnd (reads : List Read) : ofReads (untilEnd reads) = ofReads reads := by
  induction reads with
  | nil => rfl
  | cons r reads ih =>
    rcases r with ⟨_ | ⟨b, bytes⟩⟩ | f
    · rfl
    · have hu : untilEnd (.data (b :: bytes) :: reads) = .data (b :: bytes) :: untilEnd reads :=
        List.takeWhile_cons_of_pos (by simp)
      rw [hu, ofReads, ofReads, ih]
    · have hu : untilEnd (.failure f :: reads) = .failure f :: untilEnd reads :=
        List.takeWhile_cons_of_pos (by simp)
      rw [hu, ofReads, ofReads, ih]

theorem ofReads_steady (reads : List Read) : ofReads (steady reads) = ofReads reads := by
  induction reads with
  | nil => rfl
  | cons r reads ih =>
    rcases r with ⟨_ | ⟨b, bytes⟩⟩ | f
    · rfl
    · have hs : steady (.data (b :: bytes) :: reads) = .data (b :: bytes) :: steady reads := rfl
      rw [hs, ofReads, ofReads, ih]
    · by_cases hf : f.kind = .interrupted
      · have hs : steady (.failure f :: reads) = steady reads :=
          List.filter_cons_of_neg (by simp [isInterrupted, hf])
        rw [hs, ofReads, if_pos hf, ih]
      · have hs : steady (.failure f :: reads) = .failure f :: steady reads :=
          List.filter_cons_of_pos (by simp [isInterrupted, hf])
        rw [hs, ofReads, ofReads, ih]

/-- Merging makes no empty delivery. -/
theorem merge_ne_nil {reads : List Read} (h : ∀ r ∈ reads, r ≠ .data []) :
    ∀ r ∈ merge reads, r ≠ .data [] := by
  induction reads with
  | nil => exact h
  | cons r reads ih =>
    obtain ⟨hr, hrest⟩ := List.forall_mem_cons.mp h
    have ih := ih hrest
    cases r with
    | failure f => exact List.forall_mem_cons.mpr ⟨hr, ih⟩
    | data bytes =>
      have hb : bytes ≠ [] := fun e => hr (by rw [e])
      rw [merge]
      split
      -- the delivery is merged with the next
      · next more rest e =>
        rw [e] at ih
        exact List.forall_mem_cons.mpr ⟨by simp [hb], (List.forall_mem_cons.mp ih).2⟩
      · exact List.forall_mem_cons.mpr ⟨hr, ih⟩

/-- Merging keeps the items where every delivery delivers something. -/
theorem ofReads_merge {reads : List Read} (h : ∀ r ∈ reads, r ≠ .data []) :
    ofReads (merge reads) = ofReads reads := by
  induction reads with
  | nil => rfl
  | cons r reads ih =>
    obtain ⟨hr, hrest⟩ := List.forall_mem_cons.mp h
    have ih := ih hrest
    cases r with
    | failure f => simp only [merge, ofReads, ih]
    | data bytes =>
      have hb : bytes ≠ [] := fun e => hr (by rw [e])
      -- whatever the rest is merged to, it comes to the same items behind these bytes
      rw [ofReads_data hb, ← ih, merge]
      split
      · next more rest e =>
        have hm : more ≠ [] := fun e' => merge_ne_nil hrest (.data more) (by simp [e]) (by rw [e'])
        rw [e, ofReads_data (by simp [hb]), ofReads_data hm, ofBytes_append, List.append_assoc]
      · rw [ofReads_data hb]

/-- Reads come to the same items as their normal form. -/
theorem ofReads_normal (reads : List Read) : ofReads (normal reads) = ofReads reads := by
  have h : ∀ r ∈ steady (untilEnd reads), r ≠ .data [] := by
    intro r hr
    have hr := (List.mem_filter.mp hr).1
    simpa using List.mem_takeWhile_imp hr
  rw [normal, ofReads_merge h, ofReads_steady, ofReads_untilEnd]

end Item

/-! ## Scanners that no request tells apart -/

namespace Scanner

/-- Scanners are alike if they stand at one place before the same items, with the same token begun
last, and have both failed or both not. -/
structure Alike (s s' : Scanner) : Prop where
  /-- what stands before them -/
  items : s.cursor.items = s'.cursor.items
  /-- where they stand -/
  location : s.location = s'.location
  /-- where their latest tokens begin -/
  tokenStart : s.tokenStart = s'.tokenStart
  /-- whether they have failed -/
  failed : s.failed = s'.failed

/-- Readings are alike if they answer and report the same, and leave scanners that are alike. -/
structure AlikeReadings (r r' : Reading) : Prop where
  /-- what they answer -/
  answer : r.answer = r'.answer
  /-- what they report -/
  events : r.events = r'.events
  /-- the scanners that they leave -/
  after : Alike r.after r'.after

theorem alike_failing (e : ScanError) {c c' : Cursor} (hi : c.items = c'.items)
    (hl : c.location = c'.location) (start : Location) :
    AlikeReadings (failing e c start) (failing e c' start) :=
  ⟨rfl, rfl, hi, hl, rfl, rfl⟩

/-- A read concludes alike on cursors that stand at one place before the same items. -/
theorem alike_conclude (e : Ending Lexeme Lexeme.Missing) {c c' : Cursor} (hi : c.items = c'.items)
    (hl : c.location = c'.location) (start : Location) (failed : Bool) :
    AlikeReadings (conclude e c start failed) (conclude e c' start failed) := by
  rcases e with l | ⟨_ | _⟩ | f
  · exact ⟨rfl, rfl, hi, hl, rfl, rfl⟩
  · exact ⟨rfl, by simp [conclude, hl], hi, hl, rfl, rfl⟩
  · exact alike_failing _ hi hl start
  · exact alike_failing _ hi hl start

namespace Alike

variable {s s' : Scanner}

/-- Scanners are alike at the start if their sources come to the same items. -/
theorem of_items {input input' : Input} (h : input.items = input'.items) :
    Alike (start input) (start input') :=
  ⟨h, rfl, rfl, rfl⟩

theorem read (h : Alike s s') : AlikeReadings s.read s'.read := by
  -- the traces are those of the items, and these are the same
  rcases gap_trace_cases s.cursor.items with ⟨gap, mid, hg⟩ | ⟨f, gap, rest, hg⟩
  · rcases hl : Lexeme.machine.trace .fresh mid with ⟨e, lexeme, rest⟩
    obtain ⟨c, hr, hi, hc⟩ := read_of_traces hg hl
    obtain ⟨c', hr', hi', hc'⟩ := read_of_traces (h.items ▸ hg) hl
    rw [hr, hr', ← h.location, ← h.failed]
    exact alike_conclude e (hi.trans hi'.symm) (by rw [hc, hc', h.location]) _ _
  · obtain ⟨c, hr, hi, hc⟩ := read_of_gap_failure hg
    obtain ⟨c', hr', hi', hc'⟩ := read_of_gap_failure (h.items ▸ hg)
    rw [hr, hr', ← h.tokenStart]
    exact alike_failing _ (hi.trans hi'.symm) (by rw [hc, hc', h.location]) _

theorem next (h : Alike s s') : AlikeReadings s.next s'.next := by
  rw [Scanner.next, Scanner.next, ← h.failed]
  split
  · exact ⟨rfl, rfl, h⟩
  · exact h.read

/-- Collecting comes to the same tokens and events, and leaves scanners that are alike. The
induction is on the number of items, of which every token uses up some. -/
theorem collect (h : Alike s s') :
    s.collect.tokens = s'.collect.tokens ∧ s.collect.events = s'.collect.events ∧
      Alike s.collect.after s'.collect.after := by
  induction hn : s.cursor.items.length using Nat.strongRecOn generalizing s s' with
  | ind n ih =>
    obtain ⟨ha, he, hafter⟩ := h.next
    cases e : s.next.answer with
    | token t =>
      have e' : s'.next.answer = .token t := ha ▸ e
      have hlt := length_next_lt e
      obtain ⟨ht, hev, hal⟩ := ih _ (hn ▸ hlt) hafter rfl
      rw [collect_of_token e, collect_of_token e']
      exact ⟨by rw [ht], by rw [he, hev], hal⟩
    | ended =>
      rw [collect_of_ended e, collect_of_ended (ha ▸ e)]
      exact ⟨rfl, he, hafter⟩
    | error err =>
      rw [collect_of_error e, collect_of_error (ha ▸ e)]
      exact ⟨rfl, he, hafter⟩

theorem readings (h : Alike s s') : List.Forall₂ AlikeReadings s.readings s'.readings := by
  induction hn : s.cursor.items.length using Nat.strongRecOn generalizing s s' with
  | ind n ih =>
    have hread := h.read
    cases e : s.read.answer with
    | token t =>
      have e' : s'.read.answer = .token t := hread.answer ▸ e
      have hlt := length_read_lt e
      rw [readings_of_token e, readings_of_token e']
      exact .cons hread (ih _ (hn ▸ hlt) hread.after rfl)
    | ended =>
      rw [readings_of_ended e, readings_of_ended (hread.answer ▸ e)]
      exact .cons hread .nil
    | error err =>
      rw [readings_of_error e, readings_of_error (hread.answer ▸ e)]
      exact .cons hread .nil

end Alike

end Scanner

/-! ## What alike scanners lead to -/

namespace Session

open Scanner

theorem stepOfReading_eq {r r' : Reading} (h : AlikeReadings r r') :
    stepOfReading r = stepOfReading r' := by
  simp only [stepOfReading, stepOf, h.answer, h.events, h.after.tokenStart, h.after.location]

/-- A request to alike scanners makes one step of them, and leaves them alike. -/
theorem respond_alike {s s' : Scanner} (h : Alike s s') (request : Request) :
    (respond s request).1 = (respond s' request).1 ∧
      Alike (respond s request).2 (respond s' request).2 := by
  cases request with
  | read => exact ⟨stepOfReading_eq h.read, h.read.after⟩
  | next => exact ⟨stepOfReading_eq h.next, h.next.after⟩
  | collect =>
    obtain ⟨ht, he, hafter⟩ := h.collect
    refine ⟨?_, hafter⟩
    simp only [respond, stepOf, ht, he, hafter.tokenStart, hafter.location]
  | state =>
    refine ⟨?_, h⟩
    simp only [respond, stepOf, h.tokenStart, h.location]

/-- Sessions with alike scanners go the same way. -/
theorem run_alike {s s' : Scanner} (h : Alike s s') (requests : List Request) :
    run s requests = run s' requests := by
  induction requests generalizing s s' with
  | nil => rfl
  | cons request requests ih =>
    obtain ⟨hstep, hafter⟩ := respond_alike h request
    simp only [run, hstep, ih hafter]

end Session

namespace Dump

open Scanner

theorem recordOf_eq {r r' : Reading} (h : AlikeReadings r r') (showLocation : Bool) :
    recordOf showLocation r = recordOf showLocation r' := by
  simp only [recordOf, h.answer, h.after.tokenStart]

theorem records_eq {rs rs' : List Reading} (h : List.Forall₂ AlikeReadings rs rs')
    (showLocation : Bool) : records showLocation rs = records showLocation rs' := by
  induction h with
  | nil => rfl
  | cons h _ ih =>
    simp only [records, List.filterMap_cons, recordOf_eq h] at ih ⊢
    rw [ih]

theorem scanError?_eq {rs rs' : List Reading} (h : List.Forall₂ AlikeReadings rs rs') :
    scanError? rs = scanError? rs' := by
  induction h with
  | nil => rfl
  | cons h _ ih =>
    simp only [scanError?, List.findSome?_cons, errorOf, h.answer] at ih ⊢
    rw [ih]

end Dump

/-- **Chunking is invisible**: sources whose reads have one normal form give the same sessions, the
same tokens and the same dumps. -/
theorem steps_eq_of_normal {input input' : Input}
    (h : Read.normal input.reads = Read.normal input'.reads) :
    (∀ requests, Session.run (.start input) requests = Session.run (.start input') requests) ∧
      tokenize input = tokenize input' ∧
      ∀ name settings sink, dump input name settings sink = dump input' name settings sink := by
  have hi : input.items = input'.items := by
    rw [Input.items, ← Item.ofReads_normal, h, Item.ofReads_normal]
    rfl
  have hs := Scanner.Alike.of_items hi
  refine ⟨Session.run_alike hs, hs.collect.1, ?_⟩
  intro name settings sink
  simp only [dump, Dump.records_eq hs.readings, Dump.scanError?_eq hs.readings]

/-- `<~a~>`, divided at its delimiters, with an interruption, with a failure before its last
character and with something behind the end. -/
def dividedBase85 : Input :=
  ⟨[.data [0x3c], .failure ⟨.interrupted, ""⟩, .data [0x7e, 0x61], .data [0x7e],
    .failure ⟨.timedOut, ""⟩, .data [0x3e], .data [], .data [0x78]]⟩

/-- The same in its normal form. -/
def undividedBase85 : Input :=
  ⟨[.data [0x3c, 0x7e, 0x61, 0x7e], .failure ⟨.timedOut, ""⟩, .data [0x3e]]⟩

theorem run_dividedBase85 :
    Read.normal dividedBase85.reads = Read.normal undividedBase85.reads ∧
      Session.run (.start dividedBase85) [.read, .state, .read] =
        Session.run (.start undividedBase85) [.read, .state, .read] := by
  have hnormal : Read.normal dividedBase85.reads = Read.normal undividedBase85.reads := by decide
  exact ⟨hnormal, (steps_eq_of_normal hnormal).1 _⟩

end PageTokens
