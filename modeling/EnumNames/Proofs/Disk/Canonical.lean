import EnumNames.Proofs.Disk.Walk

/-!
Paths without links. Main statement: two paths with one canonical path lead to one place, so they
lead to the same file.
-/

namespace EnumNames

/-- A name is not empty and has no slash in it. -/
def IsName (name : String) : Prop := name ≠ "" ∧ '/' ∉ name.toList

namespace Path

theorem slash_notMem_splitAtSlashes (chars : List Char) :
    ∀ segment ∈ splitAtSlashes chars, '/' ∉ segment := by
  induction chars with
  | nil => simp [splitAtSlashes]
  | cons char rest inductionHypothesis =>
    unfold splitAtSlashes
    split
    · simpa using inductionHypothesis
    · rename_i other
      cases same : splitAtSlashes rest with
      | nil => simpa using Ne.symm other
      | cons first others =>
        rw [same] at inductionHypothesis
        intro segment member
        rcases List.mem_cons.mp member with rfl | member
        · rw [List.mem_cons, not_or]
          exact ⟨Ne.symm other, inductionHypothesis first List.mem_cons_self⟩
        · exact inductionHypothesis segment (List.mem_cons_of_mem _ member)

end Path

namespace FileTree

variable {tree : FileTree} {last : LastName} {hasSlash : Bool} {links : Nat} {here : Location}
  {path : List String} {place : Place}

theorem isName_of_names {text name : String} (member : name ∈ names text) : IsName name := by
  obtain ⟨member, filled⟩ := List.mem_filter.mp member
  obtain ⟨segment, there, rfl⟩ := List.mem_map.mp member
  refine ⟨by simpa using filled, ?_⟩
  rw [String.toList_ofList]
  exact Path.slash_notMem_splitAtSlashes _ segment there

/-- The working directory has a path of names, and all directories on it exist. -/
structure IsGrounded (tree : FileTree) : Prop where
  names : ∀ name ∈ tree.workingDirectory, IsName name
  directories : ∀ above, above <:+ tree.workingDirectory → tree.node? above = some .directory

/-- A walk along names leads to a place with a path of names. -/
theorem Leads.isName (leads : tree.Leads last hasSlash links here path place)
    (start : ∀ name ∈ here, IsName name) (onward : ∀ name ∈ path, IsName name) :
    ∀ name ∈ place.location, IsName name := by
  have single {name : String} {here : Location} (first : ∀ other ∈ [name], IsName other)
      (others : ∀ other ∈ here, IsName other) : ∀ other ∈ name :: here, IsName other :=
    List.forall_mem_cons.mpr ⟨first name List.mem_cons_self, others⟩
  induction leads with
  | here => exact start
  | stay _ inductionHypothesis =>
    exact inductionHypothesis start (List.forall_mem_cons.mp onward).2
  | up _ inductionHypothesis =>
    exact inductionHypothesis (fun name member => start name (List.mem_of_mem_tail member))
      (List.forall_mem_cons.mp onward).2
  | free => exact single onward start
  | file => exact single onward start
  | link => exact single onward start
  | enter _ _ _ inductionHypothesis =>
    obtain ⟨first, rest⟩ := List.forall_mem_cons.mp onward
    exact inductionHypothesis (List.forall_mem_cons.mpr ⟨first, start⟩) rest
  | follow _ _ _ _ _ inductionHypothesis =>
    refine inductionHypothesis (fun name member => ?_) fun name member => ?_
    · unfold origin at member
      split at member
      · cases member
      · exact start name member
    · rcases List.mem_append.mp member with member | member
      · exact isName_of_names member
      · exact onward name (List.mem_cons_of_mem _ member)

/-- A walk that starts in a directory tells what there is where it leads. -/
theorem Leads.node? (leads : tree.Leads last hasSlash links here path place)
    (start : ∀ above, above <:+ here → tree.node? above = some .directory) :
    tree.node? place.location = place.node := by
  induction leads with
  | here => exact start _ List.suffix_rfl
  | stay _ inductionHypothesis => exact inductionHypothesis start
  | up _ inductionHypothesis =>
    exact inductionHypothesis fun above suffix => start above (suffix.trans (List.tail_suffix _))
  | free _ nothing => exact nothing
  | file _ file => exact file
  | link _ _ link => exact link
  | enter _ directory _ inductionHypothesis =>
    refine inductionHypothesis fun above suffix => ?_
    rcases List.suffix_cons_iff.mp suffix with rfl | suffix
    · exact directory
    · exact start above suffix
  | follow _ _ _ _ _ inductionHypothesis =>
    refine inductionHypothesis fun above suffix => start above ?_
    unfold origin at suffix
    split at suffix
    · exact List.suffix_nil.mp suffix ▸ List.nil_suffix
    · exact suffix

theorem IsGrounded.origin (grounded : tree.IsGrounded) (text : String) :
    (∀ name ∈ origin tree.workingDirectory text, IsName name) ∧
    ∀ above, above <:+ origin tree.workingDirectory text → tree.node? above = some .directory := by
  unfold FileTree.origin
  split
  · refine ⟨by simp, fun above suffix => ?_⟩
    rw [List.suffix_nil.mp suffix]
    rfl
  · exact ⟨grounded.names, grounded.directories⟩

/-- The place that a path leads to has a path of names as well, and the tree knows what is there. -/
theorem IsGrounded.resolve (grounded : tree.IsGrounded) {text : String}
    (resolved : tree.resolve last text = .ok place) :
    (∀ name ∈ place.location, IsName name) ∧ tree.node? place.location = place.node := by
  obtain ⟨_, _, leads⟩ := resolve_eq_ok.mp resolved
  obtain ⟨start, directories⟩ := grounded.origin text
  exact ⟨leads.isName start fun name => isName_of_names, leads.node? directories⟩

/-- The text of a path from the root. -/
def text (location : Location) : String := "/" ++ "/".intercalate location.reverse

/-- Names that are divided by slashes are found again. -/
theorem splitOn_intercalate {names : List String} (areNames : ∀ name ∈ names, IsName name)
    (filled : names ≠ []) :
    ("/".intercalate names).toList.splitOn '/' = names.map String.toList := by
  rw [String.toList_intercalate]
  refine List.splitOn_intercalate '/' (fun chars member => ?_) (by simpa using filled)
  obtain ⟨name, there, rfl⟩ := List.mem_map.mp member
  exact (areNames name there).2

theorem intercalate_injective {first second : List String}
    (firstNames : ∀ name ∈ first, IsName name) (secondNames : ∀ name ∈ second, IsName name)
    (same : "/".intercalate first = "/".intercalate second) : first = second := by
  have nothing {names : List String} (areNames : ∀ name ∈ names, IsName name)
      (empty : "/".intercalate names = "") : names = [] := by
    by_contra filled
    have found := splitOn_intercalate areNames filled
    rw [empty] at found
    obtain ⟨name, rfl⟩ : ∃ name, names = [name] :=
      List.length_eq_one_iff.mp (by simpa using congrArg List.length found.symm)
    exact (areNames name List.mem_cons_self).1 (by simpa using found)
  by_cases firstFilled : first = []
  · subst firstFilled
    exact (nothing secondNames same.symm).symm
  · have secondFilled : second ≠ [] := by
      rintro rfl
      exact firstFilled (nothing firstNames same)
    have found := splitOn_intercalate firstNames firstFilled
    rw [same, splitOn_intercalate secondNames secondFilled] at found
    exact (List.map_injective_iff.mpr (fun _ _ => String.toList_injective) found).symm

theorem text_injective {first second : Location} (firstNames : ∀ name ∈ first, IsName name)
    (secondNames : ∀ name ∈ second, IsName name) (same : text first = text second) :
    first = second := by
  have rest : "/".intercalate first.reverse = "/".intercalate second.reverse := by
    simpa [text] using same
  refine List.reverse_injective (intercalate_injective ?_ ?_ rest)
  · simpa using firstNames
  · simpa using secondNames

theorem existing_eq_ok {location : Location} {node : Node}
    (existing : place.existing = .ok (location, node)) :
    location = place.location ∧ place.node = some node := by
  obtain ⟨found, node?, hasSlash⟩ := place
  rcases node? with _ | bytes | _ | target
  · cases existing
  · cases hasSlash
    · cases existing
      exact ⟨rfl, rfl⟩
    · cases existing
  · cases existing
    exact ⟨rfl, rfl⟩
  · cases existing
    exact ⟨rfl, rfl⟩

/-- A canonical path names the place where its path leads, and there is something. -/
theorem place_of_canonical {path text : String} (found : tree.canonical path = .ok text) :
    ∃ place node, tree.resolve .followed path = .ok place ∧
      place.existing = .ok (place.location, node) ∧ text = FileTree.text place.location := by
  unfold canonical at found
  cases resolved : tree.resolve .followed path with
  | error cause =>
    rw [resolved] at found
    cases found
  | ok place =>
    rw [resolved] at found
    change (place.existing >>= fun there => do
      checkLength (FileTree.text there.1)
      return FileTree.text there.1) = _ at found
    cases existing : place.existing with
    | error cause =>
      rw [existing] at found
      cases found
    | ok there =>
      obtain ⟨location, node⟩ := there
      rw [existing] at found
      obtain rfl := (existing_eq_ok existing).1
      refine ⟨place, node, rfl, existing, ?_⟩
      change (do
        checkLength (FileTree.text place.location)
        return FileTree.text place.location) = _ at found
      cases checked : checkLength (FileTree.text place.location) with
      | error cause =>
        rw [checked] at found
        cases found
      | ok _ =>
        rw [checked] at found
        cases found
        rfl

/-- Paths with one canonical path lead to the same file. -/
theorem leadsToFile_of_canonical (grounded : tree.IsGrounded) {first second text : String}
    {location : Location} {bytes : ByteArray} (leads : tree.LeadsToFile first location bytes)
    (firstText : tree.canonical first = .ok text) (secondText : tree.canonical second = .ok text) :
    tree.LeadsToFile second location bytes := by
  obtain ⟨place, resolved, rfl, file, noSlash⟩ := leads
  obtain ⟨_, _, again, _, rfl⟩ := place_of_canonical firstText
  cases resolved.symm.trans again
  obtain ⟨other, node, otherResolved, existing, same⟩ := place_of_canonical secondText
  obtain ⟨firstNames, firstNode⟩ := grounded.resolve resolved
  obtain ⟨otherNames, otherNode⟩ := grounded.resolve otherResolved
  have location := text_injective firstNames otherNames same
  obtain rfl : Node.file bytes = node := by
    have there := (existing_eq_ok existing).2
    rw [← otherNode, ← location, firstNode, file] at there
    exact Option.some.inj there
  obtain ⟨_, otherFile, otherNoSlash⟩ := existing_eq_file.mp existing
  exact ⟨other, otherResolved, location.symm, otherFile, otherNoSlash⟩

end FileTree

end EnumNames
