import EnumNames.Disk.FileTree
import Mathlib.Data.List.Basic

/-!
Where a path leads after one place of the disk has changed. A walk only looks at directories and
links on its way, so a file that is made, replaced or removed matters only to the paths that end
there.
-/

namespace EnumNames.FileTree

variable {tree other : FileTree} {last : LastName} {hasSlash : Bool} {links : Nat} {here : Location}
  {path rest : List String} {name : String} {place : Place}

/-- The name is looked up in the directory where the walk stands. -/
structure LooksUp (last : LastName) (hasSlash : Bool) (name : String) (rest : List String) :
    Prop where
  notHere : name ≠ "."
  notUp : name ≠ ".."
  allowed : ¬ (rest = [] ∧ last = .written ∧ hasSlash = true)
  short : ¬ nameLimit < name.utf8ByteSize

/-- The path leads to the place. There is one case for everything that a name may stand for. -/
inductive Leads (tree : FileTree) (last : LastName) :
    Bool → Nat → Location → List String → Place → Prop
  | here {hasSlash : Bool} {links : Nat} {here : Location} :
      Leads tree last hasSlash links here [] ⟨here, some .directory, hasSlash⟩
  | stay {hasSlash : Bool} {links : Nat} {here : Location} {rest : List String} {place : Place}
      (onward : Leads tree last hasSlash links here rest place) :
      Leads tree last hasSlash links here ("." :: rest) place
  | up {hasSlash : Bool} {links : Nat} {here : Location} {rest : List String} {place : Place}
      (onward : Leads tree last hasSlash links here.tail rest place) :
      Leads tree last hasSlash links here (".." :: rest) place
  | free {hasSlash : Bool} {links : Nat} {here : Location} {name : String}
      (looksUp : LooksUp last hasSlash name []) (nothing : tree.node? (name :: here) = none) :
      Leads tree last hasSlash links here [name] ⟨name :: here, none, hasSlash⟩
  | file {hasSlash : Bool} {links : Nat} {here : Location} {name : String} {bytes : ByteArray}
      (looksUp : LooksUp last hasSlash name [])
      (file : tree.node? (name :: here) = some (.file bytes)) :
      Leads tree last hasSlash links here [name] ⟨name :: here, some (.file bytes), hasSlash⟩
  | enter {hasSlash : Bool} {links : Nat} {here : Location} {name : String} {rest : List String}
      {place : Place} (looksUp : LooksUp last hasSlash name rest)
      (directory : tree.node? (name :: here) = some .directory)
      (onward : Leads tree last hasSlash links (name :: here) rest place) :
      Leads tree last hasSlash links here (name :: rest) place
  | link {hasSlash : Bool} {links : Nat} {here : Location} {name target : String}
      (looksUp : LooksUp last hasSlash name []) (itself : last = .itself)
      (link : tree.node? (name :: here) = some (.link target)) :
      Leads tree last hasSlash links here [name] ⟨name :: here, some (.link target), hasSlash⟩
  | follow {hasSlash : Bool} {links : Nat} {here : Location} {name target : String}
      {rest : List String} {place : Place} (looksUp : LooksUp last hasSlash name rest)
      (followed : ¬ (rest = [] ∧ last = .itself))
      (link : tree.node? (name :: here) = some (.link target)) (somewhere : target ≠ "")
      (onward : Leads tree last (hasSlash || (rest = [] && Path.endsWithSlash target)) links
        (origin here target) (names target ++ rest) place) :
      Leads tree last hasSlash (links + 1) here (name :: rest) place

theorem leads_of_walk (done : tree.walk last hasSlash links here path = .ok place) :
    tree.Leads last hasSlash links here path place := by
  fun_induction walk tree last hasSlash links here path with
  | case1 hasSlash links here =>
    cases done
    exact .here
  | case2 hasSlash links here rest inductionHypothesis => exact .stay (inductionHypothesis done)
  | case3 hasSlash links here rest _ inductionHypothesis => exact .up (inductionHypothesis done)
  | case4 => cases done
  | case5 => cases done
  | case6 hasSlash links here name notHere notUp short nothing allowed =>
    cases done
    exact .free ⟨notHere, notUp, allowed, short⟩ nothing
  | case7 => cases done
  | case8 hasSlash links here name rest notHere notUp allowed short directory inductionHypothesis =>
    exact .enter ⟨notHere, notUp, allowed, short⟩ directory (inductionHypothesis done)
  | case9 hasSlash links here name notHere notUp short bytes file allowed =>
    cases done
    exact .file ⟨notHere, notUp, allowed, short⟩ file
  | case10 => cases done
  | case11 hasSlash links here name rest notHere notUp allowed short target link itself =>
    obtain ⟨rfl, itself⟩ := itself
    cases done
    exact .link ⟨notHere, notUp, allowed, short⟩ itself link
  | case12 => cases done
  | case13 => cases done
  | case14 hasSlash here name rest notHere notUp allowed short target link followed links somewhere
      inductionHypothesis =>
    exact .follow ⟨notHere, notUp, allowed, short⟩ followed link somewhere (inductionHypothesis done)

theorem walk_of_leads (leads : tree.Leads last hasSlash links here path place) :
    tree.walk last hasSlash links here path = .ok place := by
  induction leads with
  | here => rw [walk]
  | stay onward inductionHypothesis =>
    rw [walk, if_pos rfl]
    exact inductionHypothesis
  | up onward inductionHypothesis =>
    rw [walk, if_neg (by decide), if_pos rfl]
    exact inductionHypothesis
  | free looksUp nothing =>
    rw [walk, if_neg looksUp.notHere, if_neg looksUp.notUp, if_neg looksUp.allowed,
      if_neg looksUp.short]
    simp [nothing]
  | file looksUp file =>
    rw [walk, if_neg looksUp.notHere, if_neg looksUp.notUp, if_neg looksUp.allowed,
      if_neg looksUp.short]
    simp [file]
  | enter looksUp directory onward inductionHypothesis =>
    rw [walk, if_neg looksUp.notHere, if_neg looksUp.notUp, if_neg looksUp.allowed,
      if_neg looksUp.short]
    simp [directory, inductionHypothesis]
  | link looksUp itself link =>
    rw [walk, if_neg looksUp.notHere, if_neg looksUp.notUp, if_neg looksUp.allowed,
      if_neg looksUp.short]
    simp [link, itself]
  | follow looksUp followed link somewhere onward inductionHypothesis =>
    rw [walk, if_neg looksUp.notHere, if_neg looksUp.notUp, if_neg looksUp.allowed,
      if_neg looksUp.short]
    simp only [link, if_neg followed, if_neg somewhere]
    exact inductionHypothesis

theorem walk_eq_ok : tree.walk last hasSlash links here path = .ok place ↔
    tree.Leads last hasSlash links here path place :=
  ⟨leads_of_walk, walk_of_leads⟩

/-- What is there in one tree is there in the other tree too. -/
structure Within (tree other : FileTree) : Prop where
  workingDirectory : tree.workingDirectory = other.workingDirectory
  node? : ∀ location node, tree.node? location = some node → other.node? location = some node

theorem Leads.within (within : tree.Within other)
    (leads : tree.Leads last hasSlash links here path place) (there : place.node.isSome = true) :
    other.Leads last hasSlash links here path place := by
  induction leads with
  | here => exact .here
  | stay onward inductionHypothesis => exact .stay (inductionHypothesis there)
  | up onward inductionHypothesis => exact .up (inductionHypothesis there)
  | free looksUp nothing => cases there
  | file looksUp file => exact .file looksUp (within.node? _ _ file)
  | enter looksUp directory onward inductionHypothesis =>
    exact .enter looksUp (within.node? _ _ directory) (inductionHypothesis there)
  | link looksUp itself link => exact .link looksUp itself (within.node? _ _ link)
  | follow looksUp followed link somewhere onward inductionHypothesis =>
    exact .follow looksUp followed (within.node? _ _ link) somewhere (inductionHypothesis there)

/-- The trees differ at most at one place, where there is nothing or a file in the first tree and a
file in the second. -/
structure FileAt (tree : FileTree) (location : Location) (bytes : ByteArray) (other : FileTree) :
    Prop where
  workingDirectory : tree.workingDirectory = other.workingDirectory
  elsewhere : ∀ place, place ≠ location → other.node? place = tree.node? place
  before : ∀ node, tree.node? location = some node → ∃ old, node = .file old
  after : other.node? location = some (.file bytes)

/-- On its way a walk does not notice the file. -/
theorem FileAt.passes {location there : Location} {bytes : ByteArray} {node : Node}
    (fileAt : tree.FileAt location bytes other) (found : tree.node? there = some node)
    (noFile : ∀ old, node ≠ .file old) : other.node? there = some node := by
  rw [fileAt.elsewhere there ?_]
  · exact found
  · rintro rfl
    obtain ⟨old, rfl⟩ := fileAt.before node found
    exact noFile old rfl

/-- A path that leads elsewhere still leads there. -/
theorem Leads.elsewhere {location : Location} {bytes : ByteArray}
    (fileAt : tree.FileAt location bytes other)
    (leads : tree.Leads last hasSlash links here path place) (different : place.location ≠ location) :
    other.Leads last hasSlash links here path place := by
  induction leads with
  | here => exact .here
  | stay onward inductionHypothesis => exact .stay (inductionHypothesis different)
  | up onward inductionHypothesis => exact .up (inductionHypothesis different)
  | free looksUp nothing => exact .free looksUp ((fileAt.elsewhere _ different).trans nothing)
  | file looksUp file => exact .file looksUp ((fileAt.elsewhere _ different).trans file)
  | enter looksUp directory onward inductionHypothesis =>
    exact .enter looksUp (fileAt.passes directory nofun) (inductionHypothesis different)
  | link looksUp itself link => exact .link looksUp itself ((fileAt.elsewhere _ different).trans link)
  | follow looksUp followed link somewhere onward inductionHypothesis =>
    exact .follow looksUp followed (fileAt.passes link nofun) somewhere (inductionHypothesis different)

/-- A path that leads to the place leads to the file there now. -/
theorem Leads.here_of_fileAt {bytes : ByteArray}
    (leads : tree.Leads last hasSlash links here path place)
    (fileAt : tree.FileAt place.location bytes other) (noDirectory : place.node ≠ some .directory) :
    other.Leads last hasSlash links here path ⟨place.location, some (.file bytes), place.hasSlash⟩ := by
  induction leads with
  | here => exact absurd rfl noDirectory
  | stay onward inductionHypothesis => exact .stay (inductionHypothesis fileAt noDirectory)
  | up onward inductionHypothesis => exact .up (inductionHypothesis fileAt noDirectory)
  | free looksUp nothing => exact .file looksUp fileAt.after
  | file looksUp file => exact .file looksUp fileAt.after
  | enter looksUp directory onward inductionHypothesis =>
    exact .enter looksUp (fileAt.passes directory nofun) (inductionHypothesis fileAt noDirectory)
  | link looksUp itself link =>
    obtain ⟨old, same⟩ := fileAt.before _ link
    cases same
  | follow looksUp followed link somewhere onward inductionHypothesis =>
    exact .follow looksUp followed (fileAt.passes link nofun) somewhere
      (inductionHypothesis fileAt noDirectory)

/-- Where a file can be written, a path that is only followed leads as well. -/
theorem Leads.followed (leads : tree.Leads .written hasSlash links here path place) :
    tree.Leads .followed hasSlash links here path place := by
  have relaxed {hasSlash : Bool} {name : String} {rest : List String}
      (looksUp : LooksUp .written hasSlash name rest) : LooksUp .followed hasSlash name rest :=
    ⟨looksUp.notHere, looksUp.notUp, (fun bad => nomatch bad.2.1), looksUp.short⟩
  induction leads with
  | here => exact .here
  | stay onward inductionHypothesis => exact .stay inductionHypothesis
  | up onward inductionHypothesis => exact .up inductionHypothesis
  | free looksUp nothing => exact .free (relaxed looksUp) nothing
  | file looksUp file => exact .file (relaxed looksUp) file
  | enter looksUp directory onward inductionHypothesis =>
    exact .enter (relaxed looksUp) directory inductionHypothesis
  | link looksUp itself link => cases itself
  | follow looksUp followed link somewhere onward inductionHypothesis =>
    exact .follow (relaxed looksUp) (fun bad => nomatch bad.2) link somewhere inductionHypothesis

theorem lookup_filter_ne (location there : Location) (nodes : List (Location × Node)) :
    (nodes.filter (·.1 ≠ location)).lookup there =
      if there = location then none else nodes.lookup there := by
  induction nodes with
  | nil => simp
  | cons head rest inductionHypothesis =>
    obtain ⟨place, node⟩ := head
    by_cases same : place = location
    · rw [List.filter_cons_of_neg (by simp [same]), inductionHypothesis]
      by_cases found : there = location
      · rw [if_pos found, if_pos found]
      · have differs : (there == place) = false := beq_false_of_ne (same ▸ found)
        rw [if_neg found, if_neg found, List.lookup_cons, differs]
    · rw [List.filter_cons_of_pos (by simp [same]), List.lookup_cons, List.lookup_cons,
        inductionHypothesis]
      by_cases found : there = place
      · subst found
        simp [same]
      · rw [beq_false_of_ne found]

theorem node?_erase (tree : FileTree) (location there : Location) : (tree.erase location).node? there =
    if there ≠ [] ∧ there = location then none else tree.node? there := by
  unfold node? erase
  by_cases root : there = []
  · simp [root]
  · simp only [root, if_false, ne_eq, not_false_eq_true, true_and]
    exact lookup_filter_ne location there tree.nodes

theorem node?_insert {location there : Location} {node : Node} (notRoot : location ≠ []) :
    (tree.insert location node).node? there =
      if there = location then some node else tree.node? there := by
  by_cases same : there = location
  · subst same
    simp [node?, insert, notRoot]
  · have erased := node?_erase tree location there
    rw [if_neg fun both => same both.2] at erased
    rw [if_neg same, ← erased]
    by_cases root : there = []
    · simp [node?, root]
    · have differs : (there == location) = false := beq_false_of_ne same
      simp [node?, insert, List.lookup_cons, root, differs]

theorem within_erase (tree : FileTree) (location : Location) : (tree.erase location).Within tree where
  workingDirectory := rfl
  node? there node found := by
    rw [node?_erase] at found
    split at found
    · cases found
    · exact found

theorem fileAt_insert {location : Location} (notRoot : location ≠ [])
    (before : ∀ node, tree.node? location = some node → ∃ old, node = .file old)
    (bytes : ByteArray) : tree.FileAt location bytes (tree.insert location (.file bytes)) where
  workingDirectory := rfl
  elsewhere there different := by rw [node?_insert notRoot, if_neg different]
  before := before
  after := by rw [node?_insert notRoot, if_pos rfl]

/-- The text names a walk, wherever this walk leads. -/
theorem resolve_eq_ok {text : String} : tree.resolve last text = .ok place ↔
    hasZero text = false ∧ text ≠ "" ∧
    tree.Leads last (Path.endsWithSlash text) linkLimit (origin tree.workingDirectory text)
      (names text) place := by
  unfold resolve
  split
  · rename_i zero
    simp [zero]
  · rename_i noZero
    split
    · rename_i empty
      simp [empty]
    · rename_i somewhere
      rw [walk_eq_ok]
      simp [noZero, somewhere]

/-- The text leads to the file, however long it is. -/
def LeadsToFile (tree : FileTree) (text : String) (location : Location) (bytes : ByteArray) : Prop :=
  ∃ place, tree.resolve .followed text = .ok place ∧ place.location = location ∧
    place.node = some (.file bytes) ∧ place.hasSlash = false

theorem find_eq_ok {text : String} : tree.find last text = .ok place ↔
    text.utf8ByteSize < pathLimit ∧ tree.resolve last text = .ok place := by
  unfold find checkLength
  by_cases zero : hasZero text = true
  · have refused : tree.resolve last text = .error .zeroInPath := by
      rw [resolve, if_pos zero]
    simp [zero, refused]
  · by_cases short : pathLimit ≤ text.utf8ByteSize
    · simp [zero, short, bind, Except.bind, Nat.not_lt_of_le short]
    · simp [zero, short, bind, Except.bind, Nat.lt_of_not_le short]

theorem existing_eq_file {location : Location} {bytes : ByteArray} :
    place.existing = .ok (location, .file bytes) ↔
      place.location = location ∧ place.node = some (.file bytes) ∧ place.hasSlash = false := by
  obtain ⟨found, node, hasSlash⟩ := place
  unfold Place.existing
  rcases node with _ | bytes | _ | target
  · simp
  · cases hasSlash <;> simp
  · simp
  · simp

theorem follow_eq_file {text : String} {location : Location} {bytes : ByteArray} :
    tree.follow text = .ok (location, .file bytes) ↔
      text.utf8ByteSize < pathLimit ∧ tree.LeadsToFile text location bytes := by
  unfold follow LeadsToFile
  cases found : tree.find .followed text with
  | error cause =>
    constructor
    · intro done
      cases done
    · rintro ⟨short, place, resolved, _⟩
      cases found.symm.trans (find_eq_ok.mpr ⟨short, resolved⟩)
  | ok place =>
    obtain ⟨short, resolved⟩ := find_eq_ok.mp found
    change place.existing = _ ↔ _
    rw [existing_eq_file, resolved]
    constructor
    · exact fun holds => ⟨short, place, rfl, holds⟩
    · rintro ⟨_, _, same, holds⟩
      cases same
      exact holds

theorem read_eq_ok {text : String} {bytes : ByteArray} : tree.read text = .ok bytes ↔
    text.utf8ByteSize < pathLimit ∧ ∃ location, tree.LeadsToFile text location bytes := by
  rw [← exists_and_left]
  simp only [← follow_eq_file]
  unfold read
  rcases tree.follow text with cause | ⟨location, bytes | _ | target⟩
  · simp [bind, Except.bind]
  · simp [bind, Except.bind, pure, Except.pure]
  · simp [bind, Except.bind]
  · simp [bind, Except.bind]

theorem place_of_remove {text : String} {next : FileTree} (done : tree.remove text = .ok next) :
    ∃ place, tree.find .itself text = .ok place ∧ place.node.isSome = true ∧
      place.node ≠ some .directory ∧ next = tree.erase place.location := by
  unfold remove at done
  cases found : tree.find .itself text with
  | error cause =>
    rw [found] at done
    cases done
  | ok place =>
    obtain ⟨location, node, hasSlash⟩ := place
    rw [found] at done
    rcases node with _ | bytes | _ | target
    · cases done
    · cases hasSlash
      · cases done
        exact ⟨_, rfl, rfl, nofun, rfl⟩
      · cases done
    · cases done
    · cases hasSlash
      · cases done
        exact ⟨_, rfl, rfl, nofun, rfl⟩
      · cases done

theorem place_of_write {text : String} {bytes : ByteArray} {next : FileTree}
    (done : tree.write text bytes = .ok next) : ∃ place, tree.find .written text = .ok place ∧
      place.node ≠ some .directory ∧ next = tree.insert place.location (.file bytes) := by
  unfold write at done
  cases found : tree.find .written text with
  | error cause =>
    rw [found] at done
    cases done
  | ok place =>
    obtain ⟨location, node, hasSlash⟩ := place
    rw [found] at done
    rcases node with _ | old | _ | target
    · cases done
      exact ⟨_, rfl, nofun, rfl⟩
    · cases done
      exact ⟨_, rfl, nofun, rfl⟩
    · cases done
    · cases done
      exact ⟨_, rfl, nofun, rfl⟩

/-- A file that is still found after something has been removed was there before. -/
theorem read_of_erase {text : String} {location : Location} {bytes : ByteArray}
    (read : (tree.erase location).read text = .ok bytes) : tree.read text = .ok bytes := by
  obtain ⟨short, found, place, resolved, same, file, noSlash⟩ := read_eq_ok.mp read
  obtain ⟨noZero, somewhere, leads⟩ := resolve_eq_ok.mp resolved
  refine read_eq_ok.mpr ⟨short, found, place, resolve_eq_ok.mpr ⟨noZero, somewhere, ?_⟩, same, file,
    noSlash⟩
  exact leads.within (within_erase tree location) (by rw [file]; rfl)

theorem bind_apply {α β : Type} (first : StateM FileTree α) (second : α → StateM FileTree β)
    (tree : FileTree) : (first >>= second) tree = second (first tree).1 (first tree).2 := rfl

theorem change_ok {tree next : FileTree} {operation : FileTree → Except OsError FileTree}
    (done : operation tree = .ok next) : change operation tree = (.ok (), next) := by
  rw [change, done]

theorem change_error {tree : FileTree} {operation : FileTree → Except OsError FileTree}
    {cause : OsError} (failed : operation tree = .error cause) :
    change operation tree = (.error cause, tree) := by
  rw [change, failed]

end EnumNames.FileTree
