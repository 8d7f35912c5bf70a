import PageTokens.Toml.Sign

/-!
# TOML documents

A document is a tree of tables whose leaves are values. Here it is kept as the list of its nodes,
each with the keys that lead to it from the top; a table stands in front of what is in it.

A table comes about in one of four ways, and from then on this decides what may still be put into
it: an inline table is complete, a table of dotted keys grows by dotted keys, a table with a header
is never opened a second time, and a table that only the header of another one has named may still
get its own. So a node is never defined twice, and no value turns into a table.

Lists have no members, since no setting is made of several values.
-/

namespace PageTokens.Toml

/-- The keys that lead to a node from the top. -/
abbrev Path := List Text

/-- How a table came about. -/
inductive Origin where
  /-- it has a header of its own -/
  | header
  /-- a header names it on the way to another table -/
  | implied
  /-- a dotted key goes through it -/
  | dotted
  /-- it was written in braces -/
  | inline
  deriving DecidableEq, Repr

/-- What is at a node. -/
inductive Content where
  /-- a string -/
  | text (t : Text)
  /-- a boolean -/
  | flag (b : Bool)
  /-- the list without members -/
  | list
  /-- a table; what is in it stands at nodes of its own -/
  | table (origin : Origin)
  deriving DecidableEq, Repr

/-- A node of a document. -/
structure Node where
  /-- where it is -/
  path : Path
  /-- what it is -/
  content : Content
  deriving DecidableEq, Repr

/-- A document, as the list of its nodes. The table at the top is not among them. -/
abbrev Document := List Node

namespace Document

/-! ## Looking -/

/-- What is at a path. -/
def content? (d : Document) (p : Path) : Option Content :=
  (d.find? fun n => n.path = p).map Node.content

/-- The keys in the table at a path, in the order of their first use. -/
def keys (d : Document) (p : Path) : List Text :=
  d.filterMap fun n => if n.path.dropLast = p then n.path.getLast? else none

/-- Whether there is a list or a table at a path, and nothing in it. -/
def isEmptyAt (d : Document) (p : Path) : Bool :=
  match d.content? p with
  | some .list => true
  | some (.table _) => (d.keys p).isEmpty
  | some (.text _) | some (.flag _) | none => false

/-! ## Building -/

/-- A document with one more node. -/
def add (d : Document) (p : Path) (c : Content) : Document := d ++ [⟨p, c⟩]

/-- A document with other content at a path. -/
def replace (d : Document) (p : Path) (c : Content) : Document :=
  d.map fun n => if n.path = p then { n with content := c } else n

/-- Defines what is at the end of a key, which starts in the table at `base`. The tables that the
key goes through are its own: they are new, or come from other dotted keys. -/
def define (d : Document) (base : Path) (c : Content) : Path → Except Fault Document
  | [] => .error .badLine
  | [k] =>
    match d.content? (base ++ [k]) with
    | none => .ok (d.add (base ++ [k]) c)
    | some _ => .error (.duplicate k)
  | k :: rest =>
    match d.content? (base ++ [k]) with
    | none => define (d.add (base ++ [k]) (.table .dotted)) (base ++ [k]) c rest
    | some (.table .dotted) => define d (base ++ [k]) c rest
    | some _ => .error (.duplicate k)

/-- Opens the table that a header names; the key starts in the table at `base`. It may go through
any table that is not yet complete. -/
def openTable (d : Document) (base : Path) : Path → Except Fault Document
  | [] => .error .badLine
  | [k] =>
    match d.content? (base ++ [k]) with
    | none => .ok (d.add (base ++ [k]) (.table .header))
    | some (.table .implied) => .ok (d.replace (base ++ [k]) (.table .header))
    | some _ => .error (.duplicate k)
  | k :: rest =>
    match d.content? (base ++ [k]) with
    | none => openTable (d.add (base ++ [k]) (.table .implied)) (base ++ [k]) rest
    | some (.table .header) | some (.table .implied) | some (.table .dotted) =>
      openTable d (base ++ [k]) rest
    | some _ => .error (.duplicate k)

end Document

end PageTokens.Toml
