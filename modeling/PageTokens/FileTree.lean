import PageTokens.System

/-!
# Trees of files

A file tree says what there is at which path, by the list of names that lead there from the root.
Paths are followed as an operating system does: name after name, where `.` stays, `..` goes up,
and an empty name, as between two slashes or behind the last, stays too. Only a directory can be
gone on from, even by staying, so `file/` and `file/.` lead nowhere.
-/

namespace PageTokens

/-- A file or a directory. -/
inductive Node where
  /-- a file with this content -/
  | file (content : List Byte)
  /-- a directory -/
  | directory
  deriving DecidableEq, Repr

/-- What a node is found to be. -/
def Node.found : Node → Found
  | .file content => .file content
  | .directory => .directory

/-- Files and directories by their places, latest first. The root is a directory in any case. -/
structure FileTree where
  /-- the nodes, each with the names that lead to it -/
  nodes : List (List String × Node)
  deriving DecidableEq, Repr

namespace FileTree

/-- A tree of nothing but the root. -/
def empty : FileTree := ⟨[]⟩

/-- The node at a place. -/
def node? (t : FileTree) (place : List String) : Option Node :=
  if place.isEmpty then some .directory else t.nodes.lookup place

/-- Follows names from a place. -/
def follow (t : FileTree) (place : List String) : List String → Found
  | [] => (t.node? place).elim (.nothing .notFound) Node.found
  | name :: names =>
    match t.node? place with
    | none => .nothing .notFound
    | some (.file _) => .nothing .notADirectory
    | some .directory =>
      if name = "" || name = "." then t.follow place names
      else if name = ".." then t.follow place.dropLast names
      else t.follow (place ++ [name]) names

/-- The names of a path. -/
def names (path : String) : List String :=
  path.splitOn "/"

/-- What there is at a path, seen from a directory. The empty path leads nowhere. -/
def look (t : FileTree) (directory : List String) (path : String) : Found :=
  if path.isEmpty then .nothing .notFound
  else if path.toList.head? = some '/' then t.follow [] (names path)
  else t.follow directory (names path)

/-- The tree with a node at a place, and directories on the way there. -/
def insert (t : FileTree) (place : List String) (n : Node) : FileTree :=
  let way := (List.range place.length).map fun k => (place.take k, Node.directory)
  ⟨(place, n) :: t.nodes ++ way⟩

/-! ## What is inserted is found -/

/-- Nothing but directories is on the way to a place, and its names lead there. -/
structure Leads (t : FileTree) (place : List String) : Prop where
  /-- the place is not the root -/
  below : place ≠ []
  /-- none of its names stays or goes up -/
  plain : ∀ name ∈ place, name ≠ "" ∧ name ≠ "." ∧ name ≠ ".."
  /-- no file is on the way -/
  way : ∀ k < place.length, ∀ content, t.node? (place.take k) ≠ some (.file content)

variable {t : FileTree} {place : List String} {n : Node}

theorem node?_insert_self (h : place ≠ []) : (t.insert place n).node? place = some n := by
  simp [node?, insert, h]

/-- Whoever looks up a place among directories finds one. -/
theorem lookup_directories {places : List (List String)} (h : place ∈ places) :
    (places.map (·, Node.directory)).lookup place = some .directory := by
  induction places with
  | nil => cases h
  | cons other places ih =>
    rw [List.map_cons, List.lookup_cons]
    cases he : place == other with
    | true => rfl
    | false => exact ih ((List.mem_cons.mp h).resolve_left (beq_eq_false_iff_ne.mp he))

theorem node?_insert_way (h : t.Leads place) {k : Nat} (hk : k < place.length) :
    (t.insert place n).node? (place.take k) = some .directory := by
  by_cases hroot : place.take k = []
  · simp [node?, hroot]
  · have hne : (place.take k == place) = false := by
      refine beq_eq_false_iff_ne.mpr fun he => ?_
      have hlength := congrArg List.length he
      rw [List.length_take] at hlength
      omega
    have hmem : place.take k ∈ (List.range place.length).map place.take :=
      List.mem_map_of_mem (List.mem_range.mpr hk)
    have hdirectories := lookup_directories hmem
    have hway := h.way k hk
    simp only [node?, insert, List.isEmpty_iff, hroot, if_false] at hway ⊢
    rw [List.map_map] at hdirectories
    rw [List.cons_append, List.lookup_cons, hne, List.lookup_append]
    cases hold : t.nodes.lookup (place.take k) with
    | none => exact hdirectories
    | some old =>
      cases old with
      | file content => exact absurd hold (hway content)
      | directory => rfl

/-- **What is inserted is found** by the names that lead to it. -/
theorem follow_insert (h : t.Leads place) : (t.insert place n).follow [] place = n.found := by
  have hfollow : ∀ rest front, place = front ++ rest →
      (t.insert place n).follow front rest = n.found := by
    intro rest
    induction rest with
    | nil =>
      intro front hfront
      rw [List.append_nil] at hfront
      rw [follow, ← hfront, node?_insert_self h.below]
      rfl
    | cons name rest ih =>
      intro front hfront
      have hlength : front.length < place.length := by
        rw [hfront, List.length_append, List.length_cons]
        omega
      have hdirectory := node?_insert_way (n := n) h hlength
      have htake : place.take front.length = front := by rw [hfront, List.take_left]
      obtain ⟨hempty, hdot, hdots⟩ := h.plain name (by rw [hfront]; simp)
      rw [htake] at hdirectory
      rw [follow, hdirectory]
      simp only [hempty, hdot, hdots, decide_false, Bool.or_self, Bool.false_eq_true, if_false]
      exact ih (front ++ [name]) (by rw [hfront, List.append_assoc]; rfl)
  exact hfollow place [] rfl

/-- A file tree as the surroundings of a run in one of its directories. -/
def system (t : FileTree) (directory : List String) (named : List (String × String))
    (stdin : List Byte) : System Id where
  look := t.look directory
  env name := named.lookup name
  stdin := stdin

end FileTree

end PageTokens
