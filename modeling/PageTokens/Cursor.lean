import PageTokens.Location
import PageTokens.Reader

/-!
# The cursor

A cursor stands at a place of the input and looks one byte ahead. It can show the next byte, take
it, take it only if it is the expected one, and say whether there is none. It keeps what it looked
at until that is taken; an end it keeps for good, so that nothing is ever read behind one.

Each of these may come upon a failed read. The failure is then reported instead of an answer, is
gone from the input, and nothing else changes: the cursor stays where it is, and asking again goes
on behind the failure.
-/

namespace PageTokens

/-- A place in the input, and what follows it. -/
structure Cursor where
  /-- where further bytes come from -/
  reader : Reader
  /-- what was looked at and not taken: the next byte, or that there is none -/
  ahead : Option (Option Byte)
  /-- where the next byte stands -/
  location : Location
  deriving DecidableEq, Repr

namespace Cursor

/-- The cursor before everything. -/
def start (input : Input) : Cursor := ⟨.start input, none, .start⟩

/-- The next byte, or `none` at the end of the input; the cursor stays before it. -/
def peek (c : Cursor) : Except Failure (Option Byte) × Cursor :=
  match c.ahead with
  | some next => (.ok next, c)
  | none =>
    match c.reader.next with
    | (.ok next, reader) => (.ok next, ⟨reader, some next, c.location⟩)
    | (.error f, reader) => (.error f, ⟨reader, none, c.location⟩)

/-- Moves past a byte that was looked at. -/
def pass (c : Cursor) (b : Byte) : Cursor :=
  ⟨c.reader, none, c.location.advance b⟩

/-- The next byte, or `none` at the end of the input; the cursor moves past it. -/
def bump (c : Cursor) : Except Failure (Option Byte) × Cursor :=
  match c.peek with
  | (.ok (some b), c) => (.ok (some b), c.pass b)
  | (answer, c) => (answer, c)

/-- Moves past the next byte if it is the expected one, and says whether it was. -/
def eat (c : Cursor) (expected : Byte) : Except Failure Bool × Cursor :=
  match c.peek with
  | (.ok (some b), c) => if b = expected then (.ok true, c.pass b) else (.ok false, c)
  | (.ok none, c) => (.ok false, c)
  | (.error f, c) => (.error f, c)

/-- Whether no byte is left. -/
def atEnd (c : Cursor) : Except Failure Bool × Cursor :=
  match c.peek with
  | (.ok next, c) => (.ok next.isNone, c)
  | (.error f, c) => (.error f, c)

/-! ## What is left to read -/

/-- The items that stand before a cursor. None do once the end has been looked at. -/
def items (c : Cursor) : List Item :=
  match c.ahead with
  | some (some b) => .byte b :: c.reader.items
  | some none => []
  | none => c.reader.items

@[simp] theorem items_start (input : Input) : (start input).items = input.items := rfl

@[simp] theorem location_start (input : Input) : (start input).location = .start := rfl

@[simp] theorem location_pass (c : Cursor) (b : Byte) :
    (c.pass b).location = c.location.advance b := rfl

/-- Where no item is left, a cursor sees the end, and goes on to see it. -/
theorem peek_of_nil {c : Cursor} (h : c.items = []) :
    ∃ c', c.peek = (.ok none, c') ∧ c'.items = [] ∧ c'.location = c.location := by
  obtain ⟨reader, _ | _ | b, location⟩ := c
  · obtain ⟨reader', hn⟩ := Reader.next_of_nil h
    exact ⟨⟨reader', some none, location⟩, by simp [peek, hn], rfl, rfl⟩
  · exact ⟨_, rfl, rfl, rfl⟩
  · simp [items] at h

/-- A cursor sees the byte that stands next, and can pass it. -/
theorem peek_of_byte {c : Cursor} {b : Byte} {rest : List Item} (h : c.items = .byte b :: rest) :
    ∃ c', c.peek = (.ok (some b), c') ∧ c'.items = .byte b :: rest ∧ (c'.pass b).items = rest ∧
      c'.location = c.location := by
  obtain ⟨reader, _ | _ | b', location⟩ := c
  · obtain ⟨reader', hn, hr⟩ := Reader.next_of_byte h
    exact ⟨⟨reader', some (some b), location⟩, by simp [peek, hn], by simp [items, hr], hr, rfl⟩
  · simp [items] at h
  · obtain ⟨hb, hr⟩ := List.cons.inj h
    obtain rfl := Item.byte.inj hb
    exact ⟨_, rfl, h, hr, rfl⟩

/-- A cursor reports the failure that stands next, and is past it then. -/
theorem peek_of_failure {c : Cursor} {f : Failure} {rest : List Item}
    (h : c.items = .failure f :: rest) :
    ∃ c', c.peek = (.error f, c') ∧ c'.items = rest ∧ c'.location = c.location := by
  obtain ⟨reader, _ | _ | b, location⟩ := c
  · obtain ⟨reader', hn, hr⟩ := Reader.next_of_failure h
    exact ⟨⟨reader', none, location⟩, by simp [peek, hn], hr, rfl⟩
  · simp [items] at h
  · simp [items] at h

/-- What a cursor sees as the next byte is the next item. -/
theorem items_of_peek {c c' : Cursor} {b : Byte} (h : c.peek = (.ok (some b), c')) :
    c.items = .byte b :: (c'.pass b).items := by
  rcases e : c.items with _ | ⟨b' | f, rest⟩
  · obtain ⟨c₀, he, -⟩ := peek_of_nil e
    simp [h] at he
  · obtain ⟨c₀, hb, -, hp, -⟩ := peek_of_byte e
    rw [h] at hb
    obtain ⟨rfl, rfl⟩ : b = b' ∧ c' = c₀ := by simpa using hb
    rw [hp]
  · obtain ⟨c₀, hf, -⟩ := peek_of_failure e
    simp [h] at hf

/-! ## Sequences of calls -/

/-- Something that a cursor can be asked. -/
inductive Call where
  /-- show the next byte -/
  | peek
  /-- take the next byte -/
  | bump
  /-- take the next byte if it is this one -/
  | eat (expected : Byte)
  /-- say whether the input has ended -/
  | atEnd
  deriving DecidableEq, Repr

/-- What a cursor answers when no read fails. -/
inductive Reply where
  /-- the next byte, or none at the end -/
  | byte (b : Option Byte)
  /-- yes or no -/
  | flag (yes : Bool)
  deriving DecidableEq, Repr

/-- One call. -/
def answer (c : Cursor) : Call → Except Failure Reply × Cursor
  | .peek => (c.peek.1.map .byte, c.peek.2)
  | .bump => (c.bump.1.map .byte, c.bump.2)
  | .eat expected => ((c.eat expected).1.map .flag, (c.eat expected).2)
  | .atEnd => (c.atEnd.1.map .flag, c.atEnd.2)

/-- The answers to a sequence of calls, each with the place where it left the cursor. -/
def answers (c : Cursor) : List Call → List (Except Failure Reply × Location)
  | [] => []
  | call :: calls =>
    let (reply, next) := c.answer call
    (reply, next.location) :: next.answers calls

end Cursor

end PageTokens
