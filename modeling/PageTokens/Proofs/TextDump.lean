import Mathlib.Data.List.Forall2
import PageTokens.Proofs.Repertoire

/-!
# What a dump tells as text

As text, a token is its kind's name and what it is rendered as, on a line of its own. Nothing of it
is lost but the form of some strings: a hex string may have a tilde at either end of its value, and
is then shown as the base-85 string between them is (`Token.LooksLike`). The main statement is
`dump_text`.

That a value can be told from what it is shown as needs no thought about escapes here. They are
escapes of parenthesized strings, and whatever stands in one denotes one text
(`Literal.Body.unique`), so values shown alike are the same (`escape_injective`).
-/

namespace PageTokens

/-! ## What is told of scans -/

/-- Whether two places are told alike: they are on one line and in one column, if places are told at
all. -/
def Location.ToldAlike (showLocation : Bool) (a b : Location) : Prop :=
  showLocation = true → a.line = b.line ∧ a.column = b.column

namespace Scan

/-- Whether two scans found the same, as far as it is told: as many tokens, of which any two in the
same place of their order are the same in some sense and begin in places that are told alike. Errors
are not told. -/
def Matches (same : Token → Token → Prop) (showLocation : Bool) (a b : Scan) : Prop :=
  List.Forall₂ (fun x y => same x.1 y.1 ∧ x.2.ToldAlike showLocation y.2) a.found b.found

/-- Scans whose records come to the same are those that match, if it is so for any two records. -/
theorem map_records_eq_iff {α : Type} {tell : Record → α} {same : Token → Token → Prop}
    {showLocation : Bool} {a b : Scan}
    (h : ∀ x ∈ a.found, ∀ y ∈ b.found,
      tell (.ofToken x.1 x.2 showLocation) = tell (.ofToken y.1 y.2 showLocation) ↔
        same x.1 y.1 ∧ x.2.ToldAlike showLocation y.2) :
    (a.records showLocation).map tell = (b.records showLocation).map tell ↔
      a.Matches same showLocation b := by
  rw [records, records, List.map_map, List.map_map, ← List.forall₂_eq_eq_eq,
    List.forall₂_map_left_iff, List.forall₂_map_right_iff, Matches, List.forall₂_iff_zip,
    List.forall₂_iff_zip]
  refine and_congr_right fun _ => forall₂_congr fun x y => ?_
  refine forall_congr' fun hmem => ?_
  obtain ⟨hx, hy⟩ := List.of_mem_zip hmem
  exact h x hx y hy

end Scan

/-! ## Values -/

/-- A value can be told from what stands between the parentheses. -/
theorem guardParens_escape_injective {v w : Text} (hv : ∀ c ∈ v, c.toNat < 512)
    (hw : ∀ c ∈ w, c.toNat < 512) (h : guardParens (escape v) = guardParens (escape w)) :
    v = w := by
  have hbody := Literal.body_guardParens hv
  rw [h] at hbody
  exact hbody.unique (Literal.body_guardParens hw)

/-- So can it from what is shown elsewhere. -/
theorem escape_injective {v w : Text} (hv : ∀ c ∈ v, c.toNat < 512)
    (hw : ∀ c ∈ w, c.toNat < 512) (h : escape v = escape w) : v = w :=
  guardParens_escape_injective hv hw (congrArg guardParens h)

/-! ## Tokens -/

/-- Tokens that are shown alike: the same one twice, or a hex string with a tilde at either end of
its value, and the base-85 string of what is between them. -/
inductive Token.LooksLike : Token → Token → Prop
  /-- the same -/
  | refl (t : Token) : LooksLike t t
  /-- a hex string that looks like a base-85 string -/
  | hex (v : Text) : LooksLike ⟨.string .hex, '~' :: v ++ ['~']⟩ ⟨.string .base85, v⟩
  /-- a base-85 string that looks like a hex string -/
  | base85 (v : Text) : LooksLike ⟨.string .base85, v⟩ ⟨.string .hex, '~' :: v ++ ['~']⟩

namespace Token

variable {t u : Token}

/-- Among tokens of one kind, each can be told from what it is rendered as. -/
theorem eq_of_render (hk : t.kind = u.kind) (ht : ∀ c ∈ t.value, c.toNat < 512)
    (hu : ∀ c ∈ u.value, c.toNat < 512) (h : t.render = u.render) : t = u := by
  obtain ⟨k, v⟩ := t
  obtain ⟨_, w⟩ := u
  obtain rfl := hk
  suffices hvw : v = w by rw [hvw]
  rcases k with _ | _ | ⟨_ | _ | _⟩ | _ | _ | _
  case string.literal =>
    exact guardParens_escape_injective ht hu (List.append_cancel_right (List.cons.inj h).2)
  all_goals refine escape_injective ht hu ?_
  case string.hex => exact List.append_cancel_right (List.cons.inj h).2
  case string.base85 =>
    exact List.append_cancel_right (List.cons.inj (List.cons.inj h).2).2
  case literalName => exact (List.cons.inj h).2
  case immediateName => exact (List.cons.inj (List.cons.inj h).2).2
  all_goals exact h

/-- A base-85 string is rendered as the hex string is that has its tildes in the value. -/
theorem render_tildes (v : Text) :
    render ⟨.string .hex, '~' :: v ++ ['~']⟩ = render ⟨.string .base85, v⟩ := by
  have hescape : escape ('~' :: v ++ ['~']) = '~' :: escape v ++ ['~'] := by
    rw [List.cons_append, ← List.singleton_append, escape_append, escape_append]
    rfl
  rw [render, render, hescape]
  simp

/-- A hex string and a base-85 string that are rendered alike. -/
theorem eq_of_render_hex {v w : Text} (hv : ∀ c ∈ v, c.toNat < 512) (hw : ∀ c ∈ w, c.toNat < 512)
    (h : render ⟨.string .hex, v⟩ = render ⟨.string .base85, w⟩) : v = '~' :: w ++ ['~'] := by
  rw [← render_tildes] at h
  have htildes : ∀ c ∈ '~' :: w ++ ['~'], c.toNat < 512 := by
    simpa [or_imp, forall_and] using hw
  exact congrArg value
    (eq_of_render (t := ⟨_, v⟩) (u := ⟨_, '~' :: w ++ ['~']⟩) rfl hv htildes h)

/-- Tokens that are rendered alike, with names of their kinds that are the same, look alike. -/
theorem looksLike_of_render (hk : t.kind.label = u.kind.label) (ht : ∀ c ∈ t.value, c.toNat < 512)
    (hu : ∀ c ∈ u.value, c.toNat < 512) (h : t.render = u.render) : t.LooksLike u := by
  by_cases hsame : t.kind = u.kind
  · rw [eq_of_render hsame ht hu h]
    exact .refl u
  obtain ⟨form, form', hf, hf'⟩ := (Kind.eq_of_label hk).resolve_left hsame
  obtain ⟨_, v⟩ := t
  obtain ⟨_, w⟩ := u
  obtain rfl := hf
  obtain rfl := hf'
  cases form <;> cases form'
  case hex.base85 =>
    obtain rfl := eq_of_render_hex ht hu h
    exact .hex w
  case base85.hex =>
    obtain rfl := eq_of_render_hex hu ht h.symm
    exact .base85 v
  case literal.literal | hex.hex | base85.base85 => exact absurd rfl hsame
  -- a parenthesis is not taken for an angle bracket
  all_goals exact absurd (List.cons.inj h).1 (by decide)

/-- Tokens that look alike are told alike. -/
theorem LooksLike.told (h : t.LooksLike u) :
    t.kind.label.toList = u.kind.label.toList ∧ t.render = u.render := by
  cases h with
  | refl => exact ⟨rfl, rfl⟩
  | hex v => exact ⟨rfl, render_tildes v⟩
  | base85 v => exact ⟨rfl, (render_tildes v).symm⟩

end Token

/-! ## Lines -/

/-- The name of a kind has no blank in it. -/
theorem Kind.blank_not_mem_label (k : Kind) : ' ' ∉ k.label.toList := by
  rcases k with _ | ⟨_ | _ | _⟩ | ⟨_ | _ | _⟩ | _ | _ | ⟨_ | _ | _ | _ | _ | _⟩
  all_goals decide

namespace Record

/-- What is told of tokens is the same if they look alike. -/
theorem told_eq_iff {t u : Token} (ht : ∀ c ∈ t.value, c.toNat < 512)
    (hu : ∀ c ∈ u.value, c.toNat < 512) :
    t.kind.label.toList ++ ' ' :: t.render = u.kind.label.toList ++ ' ' :: u.render ↔
      t.LooksLike u := by
  constructor
  · intro h
    obtain ⟨hlabel, hrender⟩ :=
      append_sep_inj t.kind.blank_not_mem_label u.kind.blank_not_mem_label h
    exact Token.looksLike_of_render (String.toList_inj.mp hlabel) ht hu hrender
  · intro h
    obtain ⟨hlabel, hrender⟩ := h.told
    rw [hlabel, hrender]

theorem line_none (t : Token) :
    line ⟨t, none⟩ = t.kind.label.toList ++ ' ' :: t.render := rfl

theorem line_some (t : Token) (l : Location) :
    line ⟨t, some l⟩ = Nat.toDigits 10 l.line ++ ':' :: (Nat.toDigits 10 l.column ++
      '\t' :: (t.kind.label.toList ++ ' ' :: t.render)) := by
  simp [line, placeText]

/-- Lines are the same if the tokens look alike and begin in the same place, as far as it is
shown. -/
theorem line_eq_iff {t u : Token} (ht : ∀ c ∈ t.value, c.toNat < 512)
    (hu : ∀ c ∈ u.value, c.toNat < 512) (l l' : Location) (showLocation : Bool) :
    (ofToken t l showLocation).line = (ofToken u l' showLocation).line ↔
      t.LooksLike u ∧ l.ToldAlike showLocation l' := by
  rw [← told_eq_iff ht hu]
  cases showLocation with
  | false => simp [ofToken, line_none, Location.ToldAlike]
  | true =>
    simp only [ofToken, if_true, line_some, Location.ToldAlike, true_implies]
    constructor
    · intro h
      obtain ⟨hline, -, hbehind⟩ := toDigits_append_inj rfl rfl h
      obtain ⟨hcolumn, -, htold⟩ := toDigits_append_inj rfl rfl hbehind
      exact ⟨htold, hline, hcolumn⟩
    · rintro ⟨htold, hline, hcolumn⟩
      rw [htold, hline, hcolumn]

/-- A line as it is in a dump: fit to print, but for the tab behind the place if there is one. -/
def IsLine (place : Option Location) (line : Text) : Prop :=
  match place with
  | none => Plain line
  | some l => ∃ front back, line = front ++ '\t' :: back ∧
      front = Nat.toDigits 10 l.line ++ ':' :: Nat.toDigits 10 l.column ∧ Plain front ∧ Plain back

theorem isLine_line (r : Record) : IsLine r.place r.line := by
  obtain ⟨t, place⟩ := r
  have htold : Plain (t.kind.label.toList ++ ' ' :: t.render) :=
    t.kind.plain_label.append (.append (t := [' ']) (plain_of_all rfl) t.plain_render)
  cases place with
  | none => exact htold
  | some l =>
    have hdigits : ∀ n, Plain (Nat.toDigits 10 n) := plain_toDigits (by decide) (by decide)
    have hplace : Plain (Nat.toDigits 10 l.line ++ ':' :: Nat.toDigits 10 l.column) :=
      (hdigits _).append (.append (t := [':']) (plain_of_all rfl) (hdigits _))
    exact ⟨_, _, by simp [line_some], rfl, hplace, htold⟩

end Record

/-! ## Dumps -/

open Scanner

/-- **A dump as text has a safe line for each token, and tells all but the form of some strings**:
the lines of a source are fit to print, and those of two sources are the same just when their tokens
look alike in order, and begin in the same places if these are shown. -/
theorem dump_text {input input' : Input} {scan scan' : Scan} (h : (start input).Yields scan)
    (h' : (start input').Yields scan') (name name' : String) (showLocation : Bool) :
    (∃ lines, (dump input name ⟨.text, showLocation⟩ .unlimited).written =
        Text.utf8 (unlines lines) ∧
      List.Forall₂ (fun x line => Record.IsLine (if showLocation then some x.2 else none) line)
        scan.found lines) ∧
      ((dump input name ⟨.text, showLocation⟩ .unlimited).written =
          (dump input' name' ⟨.text, showLocation⟩ .unlimited).written ↔
        scan.Matches Token.LooksLike showLocation scan') := by
  have hroom := Sink.unlimited_hasRoom
  rw [dump_of_yields h name _ (hroom _), dump_of_yields h' name' _ (hroom _)]
  simp only [Dump.full, Dump.flatten_lines]
  constructor
  · refine ⟨_, rfl, ?_⟩
    rw [Scan.records, List.map_map, List.forall₂_map_right_iff, List.forall₂_same]
    intro x _
    exact (Record.ofToken x.1 x.2 showLocation).isLine_line
  · have hlines : ∀ records : List Record, ∀ t ∈ records.map Record.line, '\n' ∉ t := by
      intro records
      exact List.forall_mem_map.mpr fun r _ => r.lineFeed_not_mem_line
    rw [← Scan.map_records_eq_iff fun x hx y hy =>
      Record.line_eq_iff (h.lt x hx) (h'.lt y hy) x.2 y.2 showLocation]
    constructor
    · intro heq
      exact unlines_injective (hlines _) (hlines _) (Text.utf8_injective heq)
    · intro heq
      rw [heq]

/-- `< ~ab~>`, where the blank keeps the tilde from opening a base-85 string. -/
def hexTildes : Input := .ofBytes [0x3c, 0x20, 0x7e, 0x61, 0x62, 0x7e, 0x3e]

/-- `<~ab~>`. -/
def base85Tildes : Input := .ofBytes [0x3c, 0x7e, 0x61, 0x62, 0x7e, 0x3e]

theorem yields_hexTildes :
    (start hexTildes).Yields ⟨[(⟨.string .hex, ['~', 'a', 'b', '~']⟩, .start)], none⟩ := by
  have hplace : (start hexTildes).read.after.tokenStart = .start := by decide +kernel
  have hscan := Yields.token (s := start hexTildes)
    (t := ⟨.string .hex, ['~', 'a', 'b', '~']⟩) (by decide +kernel) (.ended (by decide +kernel))
  rwa [hplace] at hscan

theorem yields_base85Tildes :
    (start base85Tildes).Yields ⟨[(⟨.string .base85, ['a', 'b']⟩, .start)], none⟩ := by
  have hplace : (start base85Tildes).read.after.tokenStart = .start := by decide +kernel
  have hscan := Yields.token (s := start base85Tildes)
    (t := ⟨.string .base85, ['a', 'b']⟩) (by decide +kernel) (.ended (by decide +kernel))
  rwa [hplace] at hscan

/-- Two tokens with one line. -/
theorem dump_text_tildes :
    (start hexTildes).Yields ⟨[(⟨.string .hex, ['~', 'a', 'b', '~']⟩, .start)], none⟩ ∧
      (start base85Tildes).Yields ⟨[(⟨.string .base85, ['a', 'b']⟩, .start)], none⟩ ∧
      (dump hexTildes "p" ⟨.text, true⟩ .unlimited).written =
        (dump base85Tildes "p" ⟨.text, true⟩ .unlimited).written :=
  ⟨yields_hexTildes, yields_base85Tildes,
    (dump_text yields_hexTildes yields_base85Tildes "p" "p" true).2.mpr
      (.cons ⟨.hex ['a', 'b'], fun _ => ⟨rfl, rfl⟩⟩ .nil)⟩

end PageTokens
