import PageTokens.Alphabet

/-!
# Input

A source of bytes answers a sequence of reads. Each read delivers bytes, or delivers none, which
says that the input has ended, or fails. An `Input` is the sequence of these answers.

How the bytes are spread over the reads is nobody's concern. What a source comes to is a sequence of
items (`Input.items`): the bytes one by one, with the failures standing between them at the places
where they come up. Two things are settled on the way from reads to items:

* an end, once seen, is final: whatever a source would answer later is not asked for;
* an interrupted read is simply repeated, so it leaves no trace.

Items are a view for statements about a source. What runs are readers and cursors, which take the
reads as they come; each of their operations says beside its definition what it does to the items.
-/

namespace PageTokens

/-! ## Failures -/

/-- The kinds of failure that a source may report. -/
inductive FailureKind where
  /-- a signal came in; the read is to be repeated -/
  | interrupted
  /-- the other side gave up the connection -/
  | connectionReset
  /-- there is no other side any more -/
  | brokenPipe
  /-- the source ended too early -/
  | unexpectedEof
  /-- the source took too long -/
  | timedOut
  /-- nothing can be read just now -/
  | wouldBlock
  /-- the source itself found its data malformed -/
  | invalidData
  /-- a directory was read as if it were a file -/
  | isADirectory
  /-- anything else -/
  | other
  deriving DecidableEq, Repr

/-- The name of a kind of failure. -/
def FailureKind.label : FailureKind → String
  | .interrupted => "Interrupted"
  | .connectionReset => "ConnectionReset"
  | .brokenPipe => "BrokenPipe"
  | .unexpectedEof => "UnexpectedEof"
  | .timedOut => "TimedOut"
  | .wouldBlock => "WouldBlock"
  | .invalidData => "InvalidData"
  | .isADirectory => "IsADirectory"
  | .other => "Other"

/-- A read that failed, with the source's own words. -/
structure Failure where
  /-- what kind of failure it is -/
  kind : FailureKind
  /-- how the source describes it -/
  message : String
  deriving DecidableEq, Repr

/-! ## Reads and items -/

/-- What a source answers when it is read once. -/
inductive Read where
  /-- bytes; none of them means that the input has ended -/
  | data (bytes : List Byte)
  /-- a failure; the next read may succeed again -/
  | failure (f : Failure)
  deriving DecidableEq, Repr

/-- A source, given by its answers. Behind the last of them it answers that the input has ended. -/
structure Input where
  /-- The source with these answers. -/
  ofReads ::
  /-- what it answers, read by read -/
  reads : List Read
  deriving DecidableEq, Repr

/-- What stands next in an input: a byte, or a failure that comes up where a byte was wanted. -/
inductive Item where
  /-- a byte -/
  | byte (b : Byte)
  /-- a failed read; it is met once -/
  | failure (f : Failure)
  deriving DecidableEq, Repr

/-- Items without a failure among them. -/
def Item.ofBytes (bytes : List Byte) : List Item :=
  bytes.map .byte

/-- The items that reads come to. -/
def Item.ofReads : List Read → List Item
  | [] => []
  | .data [] :: _ => []
  | .data (b :: bytes) :: reads => .byte b :: ofBytes bytes ++ ofReads reads
  | .failure f :: reads =>
    if f.kind = .interrupted then ofReads reads else .failure f :: ofReads reads

namespace Item

@[simp] theorem ofBytes_nil : ofBytes [] = [] := rfl

@[simp] theorem ofBytes_cons (b : Byte) (bytes : List Byte) :
    ofBytes (b :: bytes) = .byte b :: ofBytes bytes := rfl

@[simp] theorem ofBytes_append (xs ys : List Byte) :
    ofBytes (xs ++ ys) = ofBytes xs ++ ofBytes ys :=
  List.map_append

/-- The bytes among some items. -/
def bytes (items : List Item) : List Byte :=
  items.filterMap fun
    | .byte b => some b
    | .failure _ => none

theorem bytes_ofBytes_append (bytes : List Byte) (items : List Item) :
    Item.bytes (ofBytes bytes ++ items) = bytes ++ Item.bytes items := by
  induction bytes with
  | nil => rfl
  | cons b bytes ih => exact congrArg (b :: ·) ih

end Item

namespace Input

/-- A source that delivers all its bytes at once. -/
def ofBytes (bytes : List Byte) : Input := ⟨[.data bytes]⟩

/-- The items that a source comes to. -/
def items (input : Input) : List Item := Item.ofReads input.reads

/-- The bytes that a source delivers, whatever failures stand between them. -/
def bytes (input : Input) : List Byte := Item.bytes input.items

/-- A source delivers some bytes if it comes to just these, over any reads and without a failure. -/
def Delivers (input : Input) (bytes : List Byte) : Prop :=
  input.items = Item.ofBytes bytes

theorem delivers_ofBytes (bytes : List Byte) : (ofBytes bytes).Delivers bytes := by
  cases bytes <;> simp [Delivers, items, ofBytes, Item.ofReads]

theorem Delivers.bytes_eq {input : Input} {bytes : List Byte} (h : input.Delivers bytes) :
    input.bytes = bytes := by
  have hitems : input.items = Item.ofBytes bytes ++ [] := h.trans (List.append_nil _).symm
  rw [Input.bytes, hitems, Item.bytes_ofBytes_append]
  exact List.append_nil bytes

end Input

end PageTokens
