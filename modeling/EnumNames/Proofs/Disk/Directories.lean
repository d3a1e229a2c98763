import EnumNames.Proofs.Disk.PathText
import EnumNames.Proofs.Disk.Removal
import EnumNames.Proofs.Outcome

/-!
What is found after directories have been made. Main statements: everything that was found before is
found as before, a directory is made only where the path leads or on the way there, and a path that goes
up only at its start never comes back from a directory that was made.
-/

namespace EnumNames.FileTree

variable {tree between next : FileTree} {last : LastName} {hasSlash slash : Bool} {links fewer : Nat}
  {here location : Location} {path rest paths : List String} {place found : Place}
  {name text : String}

/-- Everything stays as it is, and whatever is new is a directory. -/
structure GainsDirectories (tree next : FileTree) : Prop where
  workingDirectory : next.workingDirectory = tree.workingDirectory
  node? : ∀ location, next.node? location = tree.node? location ∨
    tree.node? location = none ∧ next.node? location = some .directory

namespace GainsDirectories

theorem refl (tree : FileTree) : tree.GainsDirectories tree := ⟨rfl, fun _ => .inl rfl⟩

theorem trans (first : tree.GainsDirectories between) (second : between.GainsDirectories next) :
    tree.GainsDirectories next where
  workingDirectory := second.workingDirectory.trans first.workingDirectory
  node? location := by
    rcases first.node? location with same | ⟨missing, made⟩
    · rw [← same]
      exact second.node? location
    · rcases second.node? location with kept | ⟨_, made⟩
      · exact .inr ⟨missing, kept.trans made⟩
      · exact .inr ⟨missing, made⟩

theorem within (gains : tree.GainsDirectories next) : tree.Within next where
  workingDirectory := gains.workingDirectory.symm
  node? location node there := by
    rcases gains.node? location with same | ⟨missing, _⟩
    · exact same.trans there
    · cases missing.symm.trans there

/-- What is no directory was there before. -/
theorem node?_before (gains : tree.GainsDirectories next) {node : Node}
    (there : next.node? location = some node) (noDirectory : node ≠ .directory) :
    tree.node? location = some node := by
  rcases gains.node? location with same | ⟨_, made⟩
  · exact same.symm.trans there
  · exact absurd (Option.some.inj (there.symm.trans made)) noDirectory

theorem follow (gains : tree.GainsDirectories next) {there : Location × Node}
    (found : tree.follow text = .ok there) : next.follow text = .ok there := by
  obtain ⟨place, walked, existing⟩ := bind_eq_ok.mp found
  obtain ⟨short, resolved⟩ := find_eq_ok.mp walked
  obtain ⟨noZero, somewhere, leads⟩ := resolve_eq_ok.mp resolved
  have present : place.node.isSome = true := by
    rw [(existing_eq_ok existing).2]
    rfl
  have leadsAgain := leads.within gains.within present
  rw [← gains.workingDirectory] at leadsAgain
  have resolvedAgain := resolve_eq_ok.mpr ⟨noZero, somewhere, leadsAgain⟩
  exact bind_eq_ok.mpr ⟨place, find_eq_ok.mpr ⟨short, resolvedAgain⟩, existing⟩

/-- What is there keeps its kind. -/
theorem kind (gains : tree.GainsDirectories next) {kind : FileKind} (found : tree.kind text = .ok kind) :
    next.kind text = .ok kind := by
  obtain ⟨there, followed, same⟩ := bind_eq_ok.mp found
  exact bind_eq_ok.mpr ⟨there, gains.follow followed, same⟩

end GainsDirectories

theorem kind_eq_directory : tree.kind text = .ok .directory ↔
    ∃ location, tree.follow text = .ok (location, .directory) := by
  constructor
  · intro found
    obtain ⟨⟨location, node⟩, followed, same⟩ := bind_eq_ok.mp found
    cases node with
    | directory => exact ⟨location, followed⟩
    | file bytes => cases same
    | link target => cases same
  · rintro ⟨location, followed⟩
    exact bind_eq_ok.mpr ⟨_, followed, rfl⟩

theorem follow_eq_directory : tree.follow text = .ok (location, .directory) ↔
    text.utf8ByteSize < pathLimit ∧ hasZero text = false ∧ text ≠ "" ∧ ∃ slash,
      tree.Leads .followed (Path.endsWithSlash text) linkLimit (origin tree.workingDirectory text)
        (names text) ⟨location, some .directory, slash⟩ := by
  constructor
  · intro followed
    obtain ⟨⟨location, node, slash⟩, walked, existing⟩ := bind_eq_ok.mp followed
    obtain ⟨short, resolved⟩ := find_eq_ok.mp walked
    obtain ⟨noZero, somewhere, leads⟩ := resolve_eq_ok.mp resolved
    obtain ⟨rfl, rfl⟩ := existing_eq_ok existing
    exact ⟨short, noZero, somewhere, slash, leads⟩
  · rintro ⟨short, noZero, somewhere, slash, leads⟩
    have resolved := resolve_eq_ok.mpr ⟨noZero, somewhere, leads⟩
    exact bind_eq_ok.mpr ⟨_, find_eq_ok.mpr ⟨short, resolved⟩, rfl⟩

theorem gainsDirectories_insert (notRoot : location ≠ []) (missing : tree.node? location = none) :
    tree.GainsDirectories (tree.insert location .directory) where
  workingDirectory := rfl
  node? there := by
    rw [node?_insert notRoot]
    by_cases same : there = location
    · subst same
      exact .inr ⟨missing, if_pos rfl⟩
    · exact .inl (if_neg same)

/-- A path that leads to nothing leads to the directory that is made there. -/
theorem Leads.made (leads : tree.Leads .itself hasSlash links here path place)
    (nothing : place.node = none) : ∃ slash, (tree.insert place.location .directory).Leads .followed
      hasSlash links here path ⟨place.location, some .directory, slash⟩ := by
  obtain ⟨notRoot, missing⟩ := leads.looksAt (by simp [nothing])
  rw [nothing] at missing
  have within := (gainsDirectories_insert notRoot missing).within
  have made : (tree.insert place.location .directory).node? place.location = some .directory := by
    rw [node?_insert notRoot, if_pos rfl]
  have relaxed {hasSlash : Bool} {name : String} {rest : List String}
      (looksUp : LooksUp .itself hasSlash name rest) : LooksUp .followed hasSlash name rest :=
    ⟨looksUp.notHere, looksUp.notUp, (fun bad => nomatch bad.2.1), looksUp.short⟩
  clear missing notRoot
  induction leads with
  | here => cases nothing
  | stay onward inductionHypothesis =>
    obtain ⟨slash, next⟩ := inductionHypothesis nothing within made
    exact ⟨slash, .stay next⟩
  | up onward inductionHypothesis =>
    obtain ⟨slash, next⟩ := inductionHypothesis nothing within made
    exact ⟨slash, .up next⟩
  | free looksUp missing => exact ⟨_, .enter (relaxed looksUp) made .here⟩
  | file looksUp file => cases nothing
  | enter looksUp directory onward inductionHypothesis =>
    obtain ⟨slash, next⟩ := inductionHypothesis nothing within made
    exact ⟨slash, .enter (relaxed looksUp) (within.node? _ _ directory) next⟩
  | link looksUp itself link => cases nothing
  | follow looksUp followed link somewhere onward inductionHypothesis =>
    obtain ⟨slash, next⟩ := inductionHypothesis nothing within made
    exact ⟨slash, .follow (relaxed looksUp) (fun bad => nomatch bad.2) (within.node? _ _ link)
      somewhere next⟩

theorem makeDirectory_eq_ok (done : tree.makeDirectory text = .ok next) :
    ∃ place, tree.find .itself text = .ok place ∧ place.node = none ∧
      next = tree.insert place.location .directory := by
  obtain ⟨⟨location, node, slash⟩, walked, done⟩ := bind_eq_ok.mp done
  cases node with
  | some node => cases done
  | none =>
    cases done
    exact ⟨_, walked, rfl, rfl⟩

/-- A directory that was made is found under its path. -/
theorem follow_of_makeDirectory (done : tree.makeDirectory text = .ok next) :
    ∃ location, tree.node? location = none ∧ location ≠ [] ∧
      next = tree.insert location .directory ∧ next.follow text = .ok (location, .directory) := by
  obtain ⟨place, walked, nothing, rfl⟩ := makeDirectory_eq_ok done
  obtain ⟨short, resolved⟩ := find_eq_ok.mp walked
  obtain ⟨noZero, somewhere, leads⟩ := resolve_eq_ok.mp resolved
  obtain ⟨notRoot, missing⟩ := leads.looksAt (by simp [nothing])
  obtain ⟨slash, leadsNow⟩ := leads.made nothing
  refine ⟨place.location, missing.trans nothing, notRoot, rfl, ?_⟩
  exact follow_eq_directory.mpr ⟨short, noZero, somewhere, slash, leadsNow⟩

/-- Every place but the root lies in a directory, and the working directory exists. -/
structure IsRooted (tree : FileTree) : Prop where
  above : ∀ name location node, tree.node? (name :: location) = some node →
    tree.node? location = some .directory
  workingDirectory : tree.node? tree.workingDirectory = some .directory

namespace IsRooted

theorem tail (rooted : tree.IsRooted) (directory : tree.node? here = some .directory) :
    tree.node? here.tail = some .directory := by
  cases here with
  | nil => rfl
  | cons name above => exact rooted.above name above _ directory

theorem origin (directory : tree.node? here = some .directory) (text : String) :
    tree.node? (origin here text) = some .directory := by
  unfold FileTree.origin
  split
  · rfl
  · exact directory

/-- Everything above a directory is one as well. -/
theorem suffix (rooted : tree.IsRooted) (directory : tree.node? here = some .directory)
    (above : location <:+ here) : tree.node? location = some .directory := by
  induction here with
  | nil => exact List.suffix_nil.mp above ▸ directory
  | cons name rest inductionHypothesis =>
    rcases List.suffix_cons_iff.mp above with rfl | above
    · exact directory
    · exact inductionHypothesis (rooted.above name rest _ directory) above

/-- Where a path leads to a directory, there is one. -/
theorem follow (rooted : tree.IsRooted) (leads : tree.follow text = .ok (location, .directory)) :
    tree.node? location = some .directory := by
  obtain ⟨_, _, _, _, walked⟩ := follow_eq_directory.mp leads
  have start := origin rooted.workingDirectory text
  exact walked.node? fun _ => rooted.suffix start

/-- Nothing lies below a place where nothing is. -/
theorem missing (rooted : tree.IsRooted) (missing : tree.node? here = none)
    (below : here <:+ location) : tree.node? location = none := by
  obtain ⟨names, rfl⟩ := below
  induction names with
  | nil => exact missing
  | cons name rest inductionHypothesis =>
    cases there : tree.node? (name :: (rest ++ here)) with
    | none => exact there
    | some node =>
      have directory := rooted.above _ _ _ there
      cases inductionHypothesis.symm.trans directory

end IsRooted

/-- A walk stands in directories only. -/
theorem Leads.above (rooted : tree.IsRooted)
    (leads : tree.Leads last hasSlash links here path place)
    (start : tree.node? here = some .directory) (same : name :: location = place.location) :
    tree.node? location = some .directory := by
  induction leads with
  | here =>
    subst same
    exact rooted.above _ _ _ start
  | stay _ inductionHypothesis => exact inductionHypothesis start same
  | up _ inductionHypothesis => exact inductionHypothesis (rooted.tail start) same
  | free =>
    cases same
    exact start
  | file =>
    cases same
    exact start
  | link =>
    cases same
    exact start
  | enter _ directory _ inductionHypothesis => exact inductionHypothesis directory same
  | follow _ _ _ _ _ inductionHypothesis =>
    exact inductionHypothesis (IsRooted.origin start _) same

theorem IsRooted.makeDirectory (rooted : tree.IsRooted) (done : tree.makeDirectory text = .ok next) :
    next.IsRooted := by
  obtain ⟨place, walked, nothing, rfl⟩ := makeDirectory_eq_ok done
  obtain ⟨_, _, leads⟩ := resolve_eq_ok.mp (find_eq_ok.mp walked).2
  obtain ⟨notRoot, missing⟩ := leads.looksAt (by simp [nothing])
  rw [nothing] at missing
  have within := (gainsDirectories_insert notRoot missing).within
  constructor
  · intro name location node there
    apply within.node?
    rw [node?_insert notRoot] at there
    split at there
    · rename_i same
      exact leads.above rooted (IsRooted.origin rooted.workingDirectory text) same
    · exact rooted.above name location node there
  · exact within.node? _ _ rooted.workingDirectory

/-- A path may go up at its start, but nowhere else. -/
inductive GoesStraight : List String → Prop
  | down {path : List String} (noUp : ".." ∉ path) : GoesStraight path
  | stay {rest : List String} (onward : GoesStraight rest) : GoesStraight ("." :: rest)
  | up {rest : List String} (onward : GoesStraight rest) : GoesStraight (".." :: rest)

namespace GoesStraight

theorem onward (straight : GoesStraight (name :: rest)) : GoesStraight rest := by
  cases straight with
  | down noUp => exact .down fun member => noUp (List.mem_cons_of_mem _ member)
  | stay onward => exact onward
  | up onward => exact onward

theorem behind (straight : GoesStraight (name :: rest)) (notHere : name ≠ ".") (notUp : name ≠ "..") :
    ".." ∉ rest := by
  cases straight with
  | down noUp => exact fun up => noUp (List.mem_cons_of_mem _ up)
  | stay => exact absurd rfl notHere
  | up => exact absurd rfl notUp

/-- Behind a proper name a path does not go up. -/
theorem noUp (straight : GoesStraight (path ++ rest))
    (named : ∃ name ∈ path, name ≠ "." ∧ name ≠ "..") : ".." ∉ rest := by
  obtain ⟨name, member, notHere, notUp⟩ := named
  induction path with
  | nil => cases member
  | cons first others inductionHypothesis =>
    rcases List.mem_cons.mp member with rfl | later
    · exact fun up => straight.behind notHere notUp (List.mem_append_right _ up)
    · exact inductionHypothesis straight.onward later

theorem append (straight : GoesStraight path) (noUp : ".." ∉ rest) : GoesStraight (path ++ rest) := by
  induction straight with
  | down noUpBefore =>
    apply down
    rw [List.mem_append, not_or]
    exact ⟨noUpBefore, noUp⟩
  | stay _ inductionHypothesis => exact .stay inductionHypothesis
  | up _ inductionHypothesis => exact .up inductionHypothesis

theorem of_append (straight : GoesStraight (path ++ rest)) : GoesStraight path := by
  induction path with
  | nil => exact .down List.not_mem_nil
  | cons name others inductionHypothesis =>
    have onward := inductionHypothesis straight.onward
    cases straight with
    | down noUp => exact .down fun member => noUp (List.mem_append_left rest member)
    | stay => exact .stay onward
    | up => exact .up onward

end GoesStraight

/-- No link goes up anywhere but at its start. -/
def LinksGoStraight (tree : FileTree) : Prop :=
  ∀ location target, tree.node? location = some (.link target) → GoesStraight (names target)

theorem GainsDirectories.linksGoStraight (gains : tree.GainsDirectories next)
    (straight : tree.LinksGoStraight) : next.LinksGoStraight :=
  fun location target link => straight location target (gains.node?_before link nofun)

/-- From a new directory a path goes straight down, for there is nothing but new directories. -/
theorem Leads.goesDown (rooted : tree.IsRooted) (gains : tree.GainsDirectories next)
    (leads : next.Leads last hasSlash links here path place) (missing : tree.node? here = none)
    (noUp : ".." ∉ path) : place.location = (path.filter (· ≠ ".")).reverse ++ here := by
  have onlyDirectories {name : String} {here : Location} {node : Node}
      (missing : tree.node? here = none) (there : next.node? (name :: here) = some node) :
      node = .directory := by
    by_contra noDirectory
    have before := gains.node?_before there noDirectory
    cases missing.symm.trans (rooted.above _ _ _ before)
  induction leads with
  | here => rfl
  | stay _ inductionHypothesis =>
    have onward := inductionHypothesis missing fun up => noUp (List.mem_cons_of_mem _ up)
    simpa using onward
  | up => exact absurd List.mem_cons_self noUp
  | free looksUp => simp [looksUp.notHere]
  | file _ file => cases onlyDirectories missing file
  | enter looksUp _ _ inductionHypothesis =>
    have onward := inductionHypothesis (rooted.missing missing (List.suffix_cons _ _))
      fun up => noUp (List.mem_cons_of_mem _ up)
    simpa [looksUp.notHere] using onward
  | link _ _ link => cases onlyDirectories missing link
  | follow _ _ link => cases onlyDirectories missing link

/-- A straight path leads where it led before, or to a place where nothing was. -/
theorem Leads.before_or_missing (rooted : tree.IsRooted) (straightLinks : tree.LinksGoStraight)
    (gains : tree.GainsDirectories next) (leads : next.Leads last hasSlash links here path place)
    (start : tree.node? here = some .directory) (straight : GoesStraight path) :
    tree.Leads last hasSlash links here path place ∨ tree.node? place.location = none := by
  induction leads with
  | here => exact .inl .here
  | stay _ inductionHypothesis =>
    exact (inductionHypothesis start straight.onward).imp_left .stay
  | up _ inductionHypothesis =>
    exact (inductionHypothesis (rooted.tail start) straight.onward).imp_left .up
  | @free _ _ here name looksUp nothing =>
    rcases gains.node? (name :: here) with same | ⟨missing, _⟩
    · exact .inr (same.symm.trans nothing)
    · exact .inr missing
  | file looksUp file => exact .inl (.file looksUp (gains.node?_before file nofun))
  | @enter _ _ here name rest place looksUp directory onward inductionHypothesis =>
    rcases gains.node? (name :: here) with same | ⟨missing, _⟩
    · have known := same.symm.trans directory
      exact (inductionHypothesis known straight.onward).imp_left (.enter looksUp known)
    · have noUp := straight.behind looksUp.notHere looksUp.notUp
      apply Or.inr
      apply rooted.missing missing
      exact ⟨_, (onward.goesDown rooted gains missing noUp).symm⟩
  | link looksUp itself link => exact .inl (.link looksUp itself (gains.node?_before link nofun))
  | @follow _ _ here name target rest place looksUp followed link somewhere onward
      inductionHypothesis =>
    have linkBefore := gains.node?_before link nofun
    have noUp := straight.behind looksUp.notHere looksUp.notUp
    have straightOn := (straightLinks _ _ linkBefore).append noUp
    have inside := IsRooted.origin start target
    exact (inductionHypothesis inside straightOn).imp_left
      (.follow looksUp followed linkBefore somewhere)

/-- A longer path goes on from the directory where a shorter one leads. -/
theorem Leads.next_rest (leads : tree.Leads .followed hasSlash links here path place)
    (directory : place.node = some .directory)
    (longer : tree.Leads .followed slash fewer here (path ++ rest) found) :
    ∃ slash fewer, tree.Leads .followed slash fewer place.location rest found := by
  induction leads generalizing slash fewer with
  | here => exact ⟨_, _, longer⟩
  | stay _ inductionHypothesis => exact inductionHypothesis directory longer.next_stay
  | up _ inductionHypothesis => exact inductionHypothesis directory longer.next_up
  | free => cases directory
  | file => cases directory
  | enter looksUp there _ inductionHypothesis =>
    have next := longer.next_name looksUp.notHere looksUp.notUp
    rw [there] at next
    exact inductionHypothesis directory next
  | link looksUp itself => cases itself
  | follow looksUp _ link _ _ inductionHypothesis =>
    have next := longer.next_name looksUp.notHere looksUp.notUp
    rw [link] at next
    obtain ⟨_, _, onward⟩ := next
    exact inductionHypothesis directory (List.append_assoc _ _ _ ▸ onward)

/-- A path that only goes up leads to a directory that was there. -/
theorem Leads.onlyUp (rooted : tree.IsRooted)
    (leads : next.Leads last hasSlash links here path place)
    (start : tree.node? here = some .directory)
    (dots : ¬ ∃ name ∈ path, name ≠ "." ∧ name ≠ "..") :
    tree.node? place.location = some .directory := by
  have later {name : String} {rest : List String}
      (dots : ¬ ∃ other ∈ name :: rest, other ≠ "." ∧ other ≠ "..") :
      ¬ ∃ other ∈ rest, other ≠ "." ∧ other ≠ ".." := by
    rintro ⟨other, member, named⟩
    exact dots ⟨other, List.mem_cons_of_mem _ member, named⟩
  have refuted {name : String} {rest : List String} {slash : Bool}
      (dots : ¬ ∃ other ∈ name :: rest, other ≠ "." ∧ other ≠ "..")
      (looksUp : LooksUp last slash name rest) : False :=
    dots ⟨name, List.mem_cons_self, looksUp.notHere, looksUp.notUp⟩
  induction leads with
  | here => exact start
  | stay _ inductionHypothesis => exact inductionHypothesis start (later dots)
  | up _ inductionHypothesis => exact inductionHypothesis (rooted.tail start) (later dots)
  | free looksUp => exact (refuted dots looksUp).elim
  | file looksUp => exact (refuted dots looksUp).elim
  | enter looksUp => exact (refuted dots looksUp).elim
  | link looksUp => exact (refuted dots looksUp).elim
  | follow looksUp => exact (refuted dots looksUp).elim

/-- A straight path that leads to a directory now has led there before, or the directory is new. -/
theorem missing_of_follow (rooted : tree.IsRooted) (straightLinks : tree.LinksGoStraight)
    (gains : tree.GainsDirectories next) (straight : GoesStraight (names text))
    (before : tree.kind text ≠ .ok .directory) (leads : next.follow text = .ok (location, .directory)) :
    tree.node? location = none := by
  obtain ⟨short, noZero, somewhere, slash, walked⟩ := follow_eq_directory.mp leads
  rw [gains.workingDirectory] at walked
  have start := IsRooted.origin rooted.workingDirectory text
  rcases walked.before_or_missing rooted straightLinks gains start straight with already | missing
  · have followed := follow_eq_directory.mpr ⟨short, noZero, somewhere, slash, already⟩
    exact absurd (kind_eq_directory.mpr ⟨location, followed⟩) before
  · exact missing

/-- Behind a new directory a straight path goes down by its remaining names. -/
theorem follow_goesDown {longer : String} {deeper : Location} (rooted : tree.IsRooted)
    (gains : tree.GainsDirectories next) (isAbove : Path.IsAbove text rest longer)
    (straight : GoesStraight (names longer))
    (leads : next.follow text = .ok (location, .directory)) (missing : tree.node? location = none)
    (leadsOn : next.follow longer = .ok (deeper, .directory)) :
    deeper = (rest.filter (· ≠ ".")).reverse ++ location := by
  obtain ⟨_, _, _, _, walked⟩ := follow_eq_directory.mp leads
  obtain ⟨_, _, _, _, walkedOn⟩ := follow_eq_directory.mp leadsOn
  have sameOrigin : origin next.workingDirectory longer = origin next.workingDirectory text := by
    rw [origin, origin, isAbove.isAbsolute]
  rw [isAbove.names] at straight walkedOn
  rw [sameOrigin] at walkedOn
  obtain ⟨_, _, onward⟩ := walked.next_rest rfl walkedOn
  have noUp : ".." ∉ rest := by
    apply straight.noUp
    by_contra dots
    rw [gains.workingDirectory] at walked
    have start := IsRooted.origin rooted.workingDirectory text
    cases missing.symm.trans (walked.onlyUp rooted start dots)
  exact onward.goesDown rooted gains missing noUp

theorem isDirectory_eq (tree : FileTree) (text : String) :
    (Disk.isDirectory text : StateM FileTree Bool) tree =
      (decide (tree.kind text = .ok .directory), tree) := by
  have start : (Disk.kind text : StateM FileTree (Except OsError FileKind)) tree =
      (tree.kind text, tree) := rfl
  rw [Disk.isDirectory, bind_apply, start]
  rcases tree.kind text with _ | _ | _ <;> rfl

/-- A directory that cannot be made is accepted only when it is there. -/
theorem acceptDirectory_eq (tree : FileTree) (text : String) (cause : OsError) :
    (Disk.acceptDirectory text (.error cause) : StateM FileTree (Except OsError Unit)) tree =
      (if tree.kind text = .ok .directory then .ok () else .error cause, tree) := by
  rw [Disk.acceptDirectory, bind_apply, isDirectory_eq]
  by_cases directory : tree.kind text = .ok .directory
  · rw [if_pos directory, decide_eq_true directory]
    rfl
  · rw [if_neg directory, decide_eq_false directory]
    rfl

/-- Directories are made at places where one of the paths leads. -/
structure Makes (paths : List String) (tree next : FileTree) : Prop where
  gains : tree.GainsDirectories next
  rooted : tree.IsRooted → next.IsRooted
  places : ∀ location, tree.node? location = none → next.node? location = some .directory →
    ∃ path ∈ paths, next.follow path = .ok (location, .directory)

namespace Makes

theorem nothing (paths : List String) (tree : FileTree) : Makes paths tree tree where
  gains := .refl tree
  rooted := id
  places _ missing made := by cases missing.symm.trans made

theorem mono {more : List String} (makes : Makes paths tree next) (inside : paths ⊆ more) :
    Makes more tree next where
  gains := makes.gains
  rooted := makes.rooted
  places location missing made := by
    obtain ⟨path, member, leads⟩ := makes.places location missing made
    exact ⟨path, inside member, leads⟩

theorem trans (first : Makes paths tree between) (second : Makes paths between next) :
    Makes paths tree next where
  gains := first.gains.trans second.gains
  rooted := second.rooted ∘ first.rooted
  places location missing made := by
    rcases first.gains.node? location with same | ⟨_, early⟩
    · exact second.places location (same.trans missing) made
    · obtain ⟨path, member, leads⟩ := first.places location missing early
      exact ⟨path, member, second.gains.follow leads⟩

theorem makeDirectory (done : tree.makeDirectory text = .ok next) :
    Makes [text] tree next ∧ next.kind text = .ok .directory := by
  obtain ⟨place, missing, notRoot, same, leads⟩ := follow_of_makeDirectory done
  refine ⟨⟨?_, fun rooted => rooted.makeDirectory done, ?_⟩, kind_eq_directory.mpr ⟨place, leads⟩⟩
  · rw [same]
    exact gainsDirectories_insert notRoot missing
  · intro location missing made
    rw [same, node?_insert notRoot] at made
    split at made
    · rename_i here
      exact ⟨text, List.mem_singleton_self text, here ▸ leads⟩
    · cases missing.symm.trans made

theorem acceptDirectory {cause : OsError} (done : (Disk.acceptDirectory text (.error cause) :
      StateM FileTree (Except OsError Unit)) tree = (.ok (), next)) :
    Makes [text] tree next ∧ next.kind text = .ok .directory := by
  rw [acceptDirectory_eq] at done
  split at done
  · rename_i directory
    cases done
    exact ⟨nothing _ tree, directory⟩
  · cases done

theorem makeOrAccept (done : (Disk.makeDirectory text >>= Disk.acceptDirectory text :
      StateM FileTree (Except OsError Unit)) tree = (.ok (), next)) :
    Makes [text] tree next ∧ next.kind text = .ok .directory := by
  have start : (Disk.makeDirectory text : StateM FileTree (Except OsError Unit)) tree =
      change (·.makeDirectory text) tree := rfl
  rw [bind_apply, start] at done
  cases made : tree.makeDirectory text with
  | ok between =>
    rw [change_ok made] at done
    cases done
    exact makeDirectory made
  | error cause =>
    rw [change_error made] at done
    exact acceptDirectory done

/-- The induction is on the paths: a directory is made behind those above it if it has to be. -/
theorem makeUpwards (done : (Disk.makeUpwards paths : StateM FileTree (Except OsError Unit)) tree =
      (.ok (), next)) :
    Makes paths tree next ∧ ∀ text, paths.head? = some text → next.kind text = .ok .directory := by
  induction paths generalizing tree next with
  | nil =>
    cases done
    exact ⟨nothing [] tree, nofun⟩
  | cons text above inductionHypothesis =>
    have single : [text] ⊆ text :: above := List.cons_subset_cons text (List.nil_subset above)
    have first (makes : Makes (text :: above) tree next) (directory : next.kind text = .ok .directory) :
        Makes (text :: above) tree next ∧
          ∀ other, (text :: above).head? = some other → next.kind other = .ok .directory := by
      refine ⟨makes, ?_⟩
      rintro _ ⟨⟩
      exact directory
    have start : (Disk.makeDirectory text : StateM FileTree (Except OsError Unit)) tree =
        change (·.makeDirectory text) tree := rfl
    rw [Disk.makeUpwards, bind_apply, start] at done
    cases made : tree.makeDirectory text with
    | ok between =>
      rw [change_ok made] at done
      cases done
      obtain ⟨makes, directory⟩ := makeDirectory made
      exact first (makes.mono single) directory
    | error cause =>
      rw [change_error made] at done
      dsimp only at done
      split at done
      · rw [bind_apply] at done
        cases upwards : (Disk.makeUpwards above : StateM FileTree (Except OsError Unit)) tree with
        | mk result between =>
          rw [upwards] at done
          cases result with
          | error cause => cases done
          | ok _ =>
            obtain ⟨makesAbove, _⟩ := inductionHypothesis upwards
            obtain ⟨makes, directory⟩ := makeOrAccept done
            have more : above ⊆ text :: above := List.subset_cons_self text above
            exact first ((makesAbove.mono more).trans (makes.mono single)) directory
      · obtain ⟨makes, directory⟩ := acceptDirectory done
        exact first (makes.mono single) directory

end Makes

end EnumNames.FileTree
