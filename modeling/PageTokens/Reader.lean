import PageTokens.Input

/-!
# The reader

A reader asks a source for more only when it has handed on everything that it was given, and hands
on one byte at a time. An interrupted read it repeats at once. Any other failure it reports once.

A reader does not remember that it has seen the end. Asked again, it asks the source again, and may
find more. That the end is final is the business of the cursor.
-/

namespace PageTokens

/-- A reader in the middle of its work. -/
structure Reader where
  /-- what was delivered and not yet handed on -/
  buffer : List Byte
  /-- what the source has still to answer -/
  pending : List Read
  deriving DecidableEq, Repr

namespace Reader

/-- The reader of a source. -/
def start (input : Input) : Reader := ⟨[], input.reads⟩

/-- Reads once more, and again if it is interrupted: the first byte of what is delivered, or `none`
if nothing is. -/
def fetch : List Read → Except Failure (Option Byte) × Reader
  | [] => (.ok none, ⟨[], []⟩)
  | .data [] :: reads => (.ok none, ⟨[], reads⟩)
  | .data (b :: bytes) :: reads => (.ok (some b), ⟨bytes, reads⟩)
  | .failure f :: reads => if f.kind = .interrupted then fetch reads else (.error f, ⟨[], reads⟩)

/-- The next byte, or `none` at an end. -/
def next (r : Reader) : Except Failure (Option Byte) × Reader :=
  match r.buffer with
  | b :: bytes => (.ok (some b), ⟨bytes, r.pending⟩)
  | [] => fetch r.pending

/-! ## What is left to read -/

/-- The items that a reader has still to hand on. -/
def items (r : Reader) : List Item :=
  Item.ofBytes r.buffer ++ Item.ofReads r.pending

@[simp] theorem items_start (input : Input) : (start input).items = input.items := rfl

theorem fetch_of_nil {reads : List Read} (h : Item.ofReads reads = []) :
    ∃ r, fetch reads = (.ok none, r) := by
  induction reads using Item.ofReads.induct <;> simp_all [fetch, Item.ofReads]

theorem fetch_of_byte {reads : List Read} {b : Byte} {rest : List Item}
    (h : Item.ofReads reads = .byte b :: rest) :
    ∃ r, fetch reads = (.ok (some b), r) ∧ r.items = rest := by
  induction reads using Item.ofReads.induct <;> simp_all [fetch, Item.ofReads, items]

theorem fetch_of_failure {reads : List Read} {f : Failure} {rest : List Item}
    (h : Item.ofReads reads = .failure f :: rest) :
    ∃ r, fetch reads = (.error f, r) ∧ r.items = rest := by
  induction reads using Item.ofReads.induct <;> simp_all [fetch, Item.ofReads, items]

/-- Where no item is left, a reader is at an end. -/
theorem next_of_nil {r : Reader} (h : r.items = []) : ∃ r', r.next = (.ok none, r') := by
  obtain ⟨_ | ⟨b, bytes⟩, pending⟩ := r
  · exact fetch_of_nil h
  · simp [items] at h

/-- A reader hands on the byte that stands next. -/
theorem next_of_byte {r : Reader} {b : Byte} {rest : List Item} (h : r.items = .byte b :: rest) :
    ∃ r', r.next = (.ok (some b), r') ∧ r'.items = rest := by
  obtain ⟨_ | ⟨b', bytes⟩, pending⟩ := r
  · exact fetch_of_byte h
  · obtain ⟨hb, hr⟩ := List.cons.inj h
    obtain rfl := Item.byte.inj hb
    exact ⟨⟨bytes, pending⟩, rfl, hr⟩

/-- A reader reports the failure that stands next, and is past it then. -/
theorem next_of_failure {r : Reader} {f : Failure} {rest : List Item}
    (h : r.items = .failure f :: rest) : ∃ r', r.next = (.error f, r') ∧ r'.items = rest := by
  obtain ⟨_ | ⟨b, bytes⟩, pending⟩ := r
  · exact fetch_of_failure h
  · simp [items] at h

end Reader

end PageTokens
