import EnumNames.Proofs.Disk.Directories
import Mathlib
import EnumNames.Run.Configuration

/-!
What a validated configuration promises. Main statement: the input is a file still and all targets have
their directories, but the output becomes a directory itself when the backup is to be made below it.
-/

namespace EnumNames

namespace Path

/-- This is where a path names something: the parent, or the working directory for a bare name. -/
def directory? (path : String) : Option String :=
  (parent? path).map fun parent => if parent = "" then "." else parent

/-- These are the texts of all directories above what the path names. -/
def above (path : String) : List String := ((parent? path).map ancestors).getD []

theorem mem_above {path text : String} :
    text ∈ above path ↔ ∃ parent, parent? path = some parent ∧ text ∈ ancestors parent := by
  unfold above
  cases parent? path <;> simp

/-- Nothing is above the root, and nothing is above a path without text. -/
theorem ne_of_mem_ancestors {parent text : String} (member : text ∈ ancestors parent) :
    parent ≠ "" ∧ parent ≠ "/" := by
  have bare : ancestors "" = [] := by cbv
  have root : ancestors "/" = [] := by cbv
  constructor
  · rintro rfl
    rw [bare] at member
    cases member
  · rintro rfl
    rw [root] at member
    cases member

end Path

namespace FileTree

variable {tree : FileTree}

/-- A path without names leads to the directory where it starts. -/
theorem kind_of_dots {text : String} (short : text.utf8ByteSize < pathLimit)
    (noZero : hasZero text = false) (somewhere : text ≠ "")
    (dots : names text = [] ∨ names text = ["."]) : tree.kind text = .ok .directory := by
  have leads : tree.Leads .followed (Path.endsWithSlash text) linkLimit
      (origin tree.workingDirectory text) (names text)
      ⟨origin tree.workingDirectory text, some .directory, Path.endsWithSlash text⟩ := by
    rcases dots with none | one
    · rw [none]
      exact .here
    · rw [one]
      exact .stay .here
  have followed := follow_eq_directory.mpr ⟨short, noZero, somewhere, _, leads⟩
  exact kind_eq_directory.mpr ⟨_, followed⟩

theorem kind_here (tree : FileTree) : tree.kind "." = .ok .directory :=
  kind_of_dots (by decide) (by decide) (by decide) (.inr (by cbv))

theorem kind_root (tree : FileTree) : tree.kind "/" = .ok .directory :=
  kind_of_dots (by decide) (by decide) (by decide) (.inl (by cbv))

end FileTree

namespace Configuration

open FileTree

variable {tree next after : FileTree} {path : String} {targets : List String}

/-- Operations on a disk that may fail. -/
abbrev Check (α : Type) := ExceptT Failure (StateM FileTree) α

theorem run_bind_eq_ok {α β : Type} {first : Check α} {second : α → Check β} {value : β} :
    (first >>= second).run tree = (.ok value, next) ↔ ∃ middle between,
      first.run tree = (.ok middle, between) ∧ (second middle).run between = (.ok value, next) := by
  change (ExceptT.bindCont second (first.run tree).1 : StateM FileTree (Except Failure β))
    (first.run tree).2 = _ ↔ _
  rcases first.run tree with ⟨_ | middle, between⟩
  · constructor
    · intro done
      cases done
    · rintro ⟨_, _, same, _⟩
      cases same
  · constructor
    · intro done
      exact ⟨middle, between, rfl, done⟩
    · rintro ⟨_, _, same, done⟩
      cases same
      exact done

theorem run_liftM {α : Type} (operation : StateM FileTree α) (tree : FileTree) :
    (liftM operation : Check α).run tree = (.ok (operation tree).1, (operation tree).2) := rfl

/-- All directories above the path are there, and nothing else has been made. -/
theorem makes_of_prepareParent (done : (prepareParent path : Check Unit).run tree = (.ok (), next)) :
    Makes (Path.above path) tree next ∧
      ∀ directory, Path.directory? path = some directory → next.kind directory = .ok .directory := by
  unfold prepareParent at done
  unfold Path.above Path.directory?
  split at done
  · rename_i none
    cases done
    rw [none]
    exact ⟨.nothing _ tree, nofun⟩
  · rename_i bare
    cases done
    rw [bare]
    refine ⟨.nothing _ tree, ?_⟩
    rintro _ ⟨⟩
    exact kind_here tree
  · rename_i parent named isParent
    have directory (there : next.kind parent = .ok .directory) (found : String)
        (same : (some parent).map (fun parent => if parent = "" then "." else parent) = some found) :
        next.kind found = .ok .directory := by
      rw [Option.map_some, if_neg named, Option.some.injEq] at same
      rw [← same]
      exact there
    rw [isParent]
    obtain ⟨found, between, looked, done⟩ := run_bind_eq_ok.mp done
    rw [run_liftM, isDirectory_eq] at looked
    cases looked
    split at done
    · rename_i there
      cases done
      exact ⟨.nothing _ tree, directory (of_decide_eq_true there)⟩
    · rename_i missing
      obtain ⟨made, between, upwards, done⟩ := run_bind_eq_ok.mp done
      rw [run_liftM] at upwards
      cases made with
      | error cause => cases done
      | ok _ =>
        cases done
        obtain ⟨result, same⟩ := Prod.mk.inj upwards
        have made : (Disk.makeUpwards (Path.ancestors parent) :
            StateM FileTree (Except OsError Unit)) tree = (.ok (), next) :=
          Prod.ext (Except.ok.inj result) same
        have notRoot : parent ≠ "/" := by
          rintro rfl
          exact missing (decide_eq_true (kind_root tree))
        obtain ⟨makes, first⟩ := Makes.makeUpwards made
        obtain ⟨above, ancestors⟩ := Path.ancestors_parent isParent named notRoot
        refine ⟨makes, directory (first parent ?_)⟩
        rw [ancestors]
        rfl

theorem prepareTarget_eq_ok : (prepareTarget path : Check Unit).run tree = (.ok (), next) ↔
    tree.kind path ≠ .ok .directory ∧ (prepareParent path : Check Unit).run tree = (.ok (), next) := by
  unfold prepareTarget
  rw [run_bind_eq_ok]
  constructor
  · rintro ⟨found, between, looked, done⟩
    rw [run_liftM, isDirectory_eq] at looked
    cases looked
    split at done
    · cases done
    · rename_i missing
      exact ⟨fun there => missing (decide_eq_true there), done⟩
  · rintro ⟨missing, done⟩
    refine ⟨false, tree, ?_, done⟩
    rw [run_liftM, isDirectory_eq, decide_eq_false missing]

theorem makes_of_prepareTarget (done : (prepareTarget path : Check Unit).run tree = (.ok (), next)) :
    Makes (Path.above path) tree next := by
  obtain ⟨_, prepared⟩ := prepareTarget_eq_ok.mp done
  exact (makes_of_prepareParent prepared).1

/-- What follows when all targets are prepared one after the other. -/
structure Prepares (targets : List String) (tree after : FileTree) : Prop where
  makes : Makes (targets.flatMap Path.above) tree after
  noDirectory : ∀ target ∈ targets, tree.kind target ≠ .ok .directory
  directories : ∀ target ∈ targets, ∀ directory, Path.directory? target = some directory →
    after.kind directory = .ok .directory

theorem prepares_of_prepareTargets
    (done : (prepareTargets targets : Check Unit).run tree = (.ok (), after)) :
    Prepares targets tree after := by
  induction targets generalizing tree with
  | nil =>
    cases done
    exact ⟨.nothing _ _, nofun, nofun⟩
  | cons target rest inductionHypothesis =>
    obtain ⟨⟨⟩, between, first, later⟩ := run_bind_eq_ok.mp done
    obtain ⟨missing, parent⟩ := prepareTarget_eq_ok.mp first
    obtain ⟨makes, directories⟩ := makes_of_prepareParent parent
    have onward := inductionHypothesis later
    constructor
    · rw [List.flatMap_cons]
      exact (makes.mono (List.subset_append_left _ _)).trans
        (onward.makes.mono (List.subset_append_right _ _))
    · rw [List.forall_mem_cons]
      exact ⟨missing, fun other member there =>
        onward.noDirectory other member (makes.gains.kind there)⟩
    · rw [List.forall_mem_cons]
      exact ⟨fun directory found => onward.makes.gains.kind (directories directory found),
        onward.directories⟩

/-- Everything lies in a directory, and neither a target nor a link goes up anywhere but at its start. -/
structure AllGoStraight (targets : List String) (tree : FileTree) : Prop where
  rooted : tree.IsRooted
  links : tree.LinksGoStraight
  names : ∀ target ∈ targets, GoesStraight (names target)

namespace AllGoStraight

theorem subset {others : List String} (straight : AllGoStraight targets tree)
    (inside : others ⊆ targets) : AllGoStraight others tree where
  rooted := straight.rooted
  links := straight.links
  names target member := straight.names target (inside member)

theorem afterwards {paths : List String} (straight : AllGoStraight targets tree)
    (makes : Makes paths tree next) : AllGoStraight targets next where
  rooted := makes.rooted straight.rooted
  links := makes.gains.linksGoStraight straight.links
  names := straight.names

end AllGoStraight

/-- A parent with something above it is a directory after the target is prepared. -/
theorem Prepares.follow_parent (prepares : Prepares targets tree after) {parent text : String}
    (member : path ∈ targets) (isParent : Path.parent? path = some parent)
    (ancestor : text ∈ Path.ancestors parent) :
    ∃ location, after.follow parent = .ok (location, .directory) := by
  obtain ⟨named, _⟩ := Path.ne_of_mem_ancestors ancestor
  apply kind_eq_directory.mp
  apply prepares.directories path member
  rw [Path.directory?, isParent, Option.map_some, if_neg named]

/-- A parent goes up where its path does. -/
theorem goesStraight_parent {parent text : String} (straight : GoesStraight (names path))
    (isParent : Path.parent? path = some parent) (ancestor : text ∈ Path.ancestors parent) :
    GoesStraight (names parent) := by
  obtain ⟨named, notRoot⟩ := Path.ne_of_mem_ancestors ancestor
  obtain ⟨above, ancestors⟩ := Path.ancestors_parent isParent named notRoot
  have itself : parent ∈ Path.ancestors parent := by
    rw [ancestors]
    exact List.mem_cons_self
  obtain ⟨_, rest, isAbove, _⟩ := Path.isAbove_of_mem_ancestors isParent itself
  rw [isAbove.names] at straight
  exact straight.of_append

/-- Where a target leads to a directory now and has not before, a directory was made above some target. -/
theorem exists_above (straight : AllGoStraight [path] tree) (makes : Makes targets tree next)
    {location : Location} (before : tree.kind path ≠ .ok .directory)
    (leads : next.follow path = .ok (location, .directory)) :
    tree.node? location = none ∧
      ∃ text ∈ targets, next.follow text = .ok (location, .directory) := by
  have straightPath := straight.names path (List.mem_singleton_self path)
  have missing :=
    missing_of_follow straight.rooted straight.links makes.gains straightPath before leads
  have there := (makes.rooted straight.rooted).follow leads
  exact ⟨missing, makes.places location missing there⟩

/-- The directories that are made above a target are not made at its own place. -/
theorem noDirectory_of_prepareTarget (straight : AllGoStraight [path] tree)
    (done : (prepareTarget path : Check Unit).run tree = (.ok (), next)) :
    next.kind path ≠ .ok .directory := by
  obtain ⟨before, _⟩ := prepareTarget_eq_ok.mp done
  have makes := makes_of_prepareTarget done
  intro there
  obtain ⟨location, leads⟩ := kind_eq_directory.mp there
  obtain ⟨missing, text, member, textLeads⟩ := exists_above straight makes before leads
  obtain ⟨parent, isParent, inside⟩ := Path.mem_above.mp member
  obtain ⟨_, rest, isAbove, name, nameInside, named⟩ := Path.isAbove_of_mem_ancestors isParent inside
  have down := follow_goesDown straight.rooted makes.gains isAbove
    (straight.names path (List.mem_singleton_self path)) textLeads missing leads
  have nothing : rest.filter (· ≠ ".") = [] :=
    List.reverse_eq_nil_iff.mp (List.self_eq_append_left.mp down)
  have kept : name ∈ rest.filter (· ≠ ".") := List.mem_filter.mpr ⟨nameInside, by simpa using named⟩
  rw [nothing] at kept
  cases kept

/-- The path lies in the directory where the other one leads, or further below. -/
def LiesInside (tree : FileTree) (path directory : String) : Prop :=
  ∃ parent location deeper, Path.parent? path = some parent ∧
    tree.follow directory = .ok (location, .directory) ∧
    tree.follow parent = .ok (deeper, .directory) ∧ location <:+ deeper

/-- Where the later targets make a directory of a path, one of them lies inside of it. -/
theorem Prepares.exists_inside {right : List String} (prepares : Prepares right tree after)
    (straight : AllGoStraight (path :: right) tree) (before : tree.kind path ≠ .ok .directory)
    {location : Location} (leads : after.follow path = .ok (location, .directory)) :
    ∃ other ∈ right, LiesInside after other path := by
  have single : [path] ⊆ path :: right := List.cons_subset_cons path (List.nil_subset right)
  obtain ⟨missing, text, inside, textLeads⟩ :=
    exists_above (straight.subset single) prepares.makes before leads
  obtain ⟨other, member, isAboveOther⟩ := List.mem_flatMap.mp inside
  obtain ⟨parent, isParent, ancestor⟩ := Path.mem_above.mp isAboveOther
  obtain ⟨deeper, parentLeads⟩ := prepares.follow_parent member isParent ancestor
  -- The text leads to the new place, and the parent goes on from there.
  obtain ⟨⟨rest, isAbove⟩, _⟩ := Path.isAbove_of_mem_ancestors isParent ancestor
  have straightOther := straight.names other (List.mem_cons_of_mem _ member)
  have straightParent := goesStraight_parent straightOther isParent ancestor
  have down := follow_goesDown straight.rooted prepares.makes.gains isAbove straightParent textLeads
    missing parentLeads
  exact ⟨other, member, parent, location, deeper, isParent, leads, parentLeads, _, down.symm⟩

/-- A target that has become a directory has a later target inside of it. The induction is on the
targets in front of it, which leave it as straight as it was. -/
theorem exists_later {left right : List String}
    (done : (prepareTargets (left ++ path :: right) : Check Unit).run tree = (.ok (), after))
    (straight : AllGoStraight (left ++ path :: right) tree)
    (directory : after.kind path = .ok .directory) :
    ∃ other ∈ right, LiesInside after other path := by
  induction left generalizing tree with
  | nil =>
    obtain ⟨⟨⟩, between, first, later⟩ := run_bind_eq_ok.mp done
    have single : [path] ⊆ path :: right := List.cons_subset_cons path (List.nil_subset right)
    have before := noDirectory_of_prepareTarget (straight.subset single) first
    have makes := makes_of_prepareTarget first
    have prepares := prepares_of_prepareTargets later
    obtain ⟨location, leads⟩ := kind_eq_directory.mp directory
    exact prepares.exists_inside (straight.afterwards makes) before leads
  | cons target rest inductionHypothesis =>
    obtain ⟨⟨⟩, between, first, later⟩ := run_bind_eq_ok.mp done
    have makes := makes_of_prepareTarget first
    have onward := straight.afterwards makes
    exact inductionHypothesis later (onward.subset (List.subset_cons_self _ _))

/-- These are the paths that are checked: an input that is replaced needs no check of its own. -/
def destinations (configuration : Configuration) : List String :=
  configuration.output.toList ++ configuration.backup.toList

theorem validate_eq_ok {configuration : Configuration} {settings : Settings}
    (done : (configuration.validate : Check Settings).run tree = (.ok settings, after)) :
    settings = configuration.settings ∧ tree.kind configuration.input = .ok .file ∧
      (prepareTargets configuration.destinations : Check Unit).run tree = (.ok (), after) := by
  unfold validate at done
  split at done
  · cases done
  · obtain ⟨found, between, looked, done⟩ := run_bind_eq_ok.mp done
    have same : (found, between) = (tree.kind configuration.input, tree) := by
      cases looked
      rfl
    cases same
    dsimp only at done
    split at done
    · rename_i file
      obtain ⟨⟨⟩, between, prepared, same⟩ := run_bind_eq_ok.mp done
      cases same
      exact ⟨rfl, file, prepared⟩
    · cases done

/-- What holds when a configuration has been accepted. -/
structure Accepted (configuration : Configuration) (tree : FileTree) (settings : Settings)
    (after : FileTree) : Prop where
  defaults : settings = configuration.settings
  input : after.kind settings.input = .ok .file
  makes : Makes (configuration.destinations.flatMap Path.above) tree after
  directories : ∀ path ∈ configuration.destinations, ∀ directory,
    Path.directory? path = some directory → after.kind directory = .ok .directory
  noDirectory : ∀ path ∈ configuration.destinations, tree.kind path ≠ .ok .directory
  backup : AllGoStraight configuration.destinations tree →
    ∀ backup, settings.backup = some backup → after.kind backup ≠ .ok .directory
  output : AllGoStraight configuration.destinations tree →
    after.kind settings.output = .ok .directory →
    ∃ backup, settings.backup = some backup ∧ LiesInside after backup settings.output

/-- An accepted configuration is what it was checked to be, unless its backup lies inside its output or
its paths go up behind a name. -/
theorem accepted_of_validate {configuration : Configuration} {settings : Settings}
    (done : (configuration.validate : Check Settings).run tree = (.ok settings, after)) :
    Accepted configuration tree settings after := by
  obtain ⟨rfl, file, prepared⟩ := validate_eq_ok done
  obtain ⟨makes, noDirectory, directories⟩ := prepares_of_prepareTargets prepared
  have input : after.kind configuration.input = .ok .file := makes.gains.kind file
  constructor
  case defaults => rfl
  case input => exact input
  case makes => exact makes
  case directories => exact directories
  case noDirectory => exact noDirectory
  case backup =>
    intro straight backup isBackup there
    have last : configuration.destinations = configuration.output.toList ++ backup :: [] := by
      rw [destinations, show configuration.backup = some backup from isBackup]
      rfl
    rw [last] at prepared straight
    obtain ⟨_, later, _⟩ := exists_later prepared straight there
    cases later
  case output =>
    intro straight there
    cases isOutput : configuration.output with
    | none =>
      have replaced : configuration.settings.output = configuration.input := by
        rw [settings, isOutput]
        rfl
      rw [replaced, input] at there
      cases there
    | some output =>
      have given : configuration.settings.output = output := by
        rw [settings, isOutput]
        rfl
      have first : configuration.destinations = [] ++ output :: configuration.backup.toList := by
        rw [destinations, isOutput]
        rfl
      rw [given] at there ⊢
      rw [first] at prepared straight
      obtain ⟨backup, isBackup, inside⟩ := exists_later prepared straight there
      exact ⟨backup, Option.mem_toList.mp isBackup, inside⟩

/-- This working directory holds only the input. -/
def inputAlone : FileTree := ⟨[(["in"], .file ⟨#[0]⟩)], []⟩

theorem node?_inputAlone {location : Location} {node : Node}
    (there : inputAlone.node? location = some node) :
    location = [] ∧ node = .directory ∨ location = ["in"] ∧ node = .file ⟨#[0]⟩ := by
  unfold node? inputAlone at there
  split at there
  · rename_i root
    cases there
    exact .inl ⟨root, rfl⟩
  · rw [List.lookup_cons] at there
    split at there
    · rename_i same
      cases there
      exact .inr ⟨eq_of_beq same, rfl⟩
    · cases there

theorem allGoStraight_inputAlone (down : ∀ path ∈ targets, ".." ∉ names path) :
    AllGoStraight targets inputAlone where
  rooted := by
    constructor
    · intro name location node there
      rcases node?_inputAlone there with ⟨root, _⟩ | ⟨same, _⟩
      · cases root
      · cases same
        rfl
    · rfl
  links location target there := by
    rcases node?_inputAlone there with ⟨_, same⟩ | ⟨_, same⟩ <;> cases same
  names path member := .down (down path member)

theorem accepted_of_validate_example :
    let configuration : Configuration := ⟨"in", some "n/o", some "b/i", 3⟩
    ∃ after, (configuration.validate : Check Settings).run inputAlone =
        (.ok configuration.settings, after) ∧
      AllGoStraight configuration.destinations inputAlone ∧
      Accepted configuration inputAlone configuration.settings after := by
  intro configuration
  have accepted : (configuration.validate : Check Settings).run inputAlone =
      (.ok configuration.settings, ((configuration.validate : Check Settings).run inputAlone).2) := by
    cbv
  have straight : AllGoStraight configuration.destinations inputAlone :=
    allGoStraight_inputAlone (by decide +kernel)
  exact ⟨_, accepted, straight, accepted_of_validate accepted⟩

/-- The output is no directory when it is checked, but it is made one for the backup inside of it. -/
theorem validated_output_becomes_directory :
    let configuration : Configuration := ⟨"in", some "o", some "o/b", 3⟩
    ∃ after, (configuration.validate : Check Settings).run inputAlone =
        (.ok configuration.settings, after) ∧
      after.kind configuration.settings.output = .ok .directory := by
  intro configuration
  have accepted : (configuration.validate : Check Settings).run inputAlone =
      (.ok configuration.settings, ((configuration.validate : Check Settings).run inputAlone).2) := by
    cbv
  exact ⟨_, accepted, by cbv⟩

end Configuration

end EnumNames
