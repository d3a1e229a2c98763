import EnumNames.Proofs.Disk.Arrival

/-!
Paths that have nothing to do with each other. Main statement: when a path is removed, written or
replaced, a path that stands apart from it finds what it found before.
-/

namespace EnumNames.FileTree

variable {tree next : FileTree} {last : LastName} {location goal : Location} {place : Place}
  {text changed : String} {bytes : ByteArray}

/-- The text leads to the place, and it does not matter how many links there are on the way. -/
def Arrives (tree : FileTree) (text : String) (place : Place) : Prop :=
  hasZero text = false ∧ text ≠ "" ∧ ∃ links, tree.Leads .followed (Path.endsWithSlash text) links
    (origin tree.workingDirectory text) (names text) place

/-- The changed path leads neither to the place where the other one leads nor to a directory on the
way there. -/
def Apart (tree : FileTree) (changed text : String) : Prop :=
  ∀ place, tree.Arrives changed place →
    ¬ tree.Reaches place.location (origin tree.workingDirectory text) (names text)

/-- The text leads to the same place in both trees, or to no place in both. -/
def Keeps (tree next : FileTree) (text : String) : Prop :=
  ∀ last, (next.find last text).toOption = (tree.find last text).toOption

theorem Keeps.refl (tree : FileTree) (text : String) : tree.Keeps tree text := fun _ => rfl

theorem Keeps.trans {between : FileTree} (first : tree.Keeps between text)
    (second : between.Keeps next text) : tree.Keeps next text :=
  fun last => (second last).trans (first last)

theorem toOption_bind {α β γ : Type} {first second : Except γ α} (onward : α → Except γ β)
    (same : first.toOption = second.toOption) :
    (first >>= onward).toOption = (second >>= onward).toOption := by
  cases first <;> cases second <;> cases same <;> rfl

/-- A path that is kept leads to the same file or directory as before, if to any. -/
theorem Keeps.follow (keeps : tree.Keeps next text) :
    (next.follow text).toOption = (tree.follow text).toOption :=
  toOption_bind Place.existing (keeps .followed)

theorem arrives_of_resolve (resolved : tree.resolve .followed text = .ok place) :
    tree.Arrives text place := by
  obtain ⟨noZero, somewhere, leads⟩ := resolve_eq_ok.mp resolved
  exact ⟨noZero, somewhere, _, leads⟩

/-- A change at what stands for the goal is not noticed by a path that does not come to the goal. -/
theorem keeps_of_differsAt (stands : tree.StandsFor goal location)
    (differs : tree.DiffersAt location next)
    (apart : ¬ tree.Reaches goal (origin tree.workingDirectory text) (names text)) :
    tree.Keeps next text := by
  intro last
  have resolved : (next.resolve last text).toOption = (tree.resolve last text).toOption := by
    unfold resolve
    split
    · rfl
    split
    · rfl
    rw [differs.workingDirectory]
    exact walk_of_differsAt stands differs apart
  unfold find
  split
  · cases checkLength text with
    | error cause => rfl
    | ok _ => exact resolved
  · exact resolved

/-- A file stands for itself once it is written. -/
theorem keeps_of_write (apart : tree.Apart changed text) (done : tree.write changed bytes = .ok next) :
    tree.Keeps next text := by
  obtain ⟨place, found, noDirectory, rfl⟩ := place_of_write done
  obtain ⟨noZero, somewhere, leads⟩ := resolve_eq_ok.mp (find_eq_ok.mp found).2
  obtain ⟨notRoot, node⟩ := leads.looksAt noDirectory
  have isEnd : tree.IsEnd place.location := by
    intro old there
    rw [node] at there
    cases old with
    | file bytes => exact ⟨bytes, rfl⟩
    | directory => exact absurd there noDirectory
    | link target => exact absurd there ((leads.written noDirectory).1 target)
  refine keeps_of_differsAt (.itself isEnd) ⟨rfl, fun there different => ?_, fun old there => ?_⟩
    (apart place ⟨noZero, somewhere, _, leads.followed⟩)
  · rw [node?_insert notRoot, if_neg different]
  · rw [node?_insert notRoot, if_pos rfl] at there
    exact ⟨bytes, (Option.some.inj there).symm⟩

/-- A path that can be removed and followed ends at what stands for the place where it leads. -/
theorem standsFor_of_remove (grounded : tree.IsGrounded)
    (present : (tree.kind changed).isOk = true) (done : tree.remove changed = .ok next) :
    ∃ last place, tree.Leads .itself (Path.endsWithSlash changed) linkLimit
        (origin tree.workingDirectory changed) (names changed) last ∧
      last.node ≠ some .directory ∧ next = tree.erase last.location ∧
      tree.Arrives changed place ∧ tree.StandsFor place.location last.location := by
  obtain ⟨last, found, _, noDirectory, rfl⟩ := place_of_remove done
  obtain ⟨_, _, itself⟩ := resolve_eq_ok.mp (find_eq_ok.mp found).2
  cases followed : tree.find .followed changed with
  | error cause =>
    rw [kind, follow, followed] at present
    cases present
  | ok place =>
    have resolved := (find_eq_ok.mp followed).2
    obtain ⟨_, _, leads⟩ := resolve_eq_ok.mp resolved
    exact ⟨last, place, itself, noDirectory, rfl, arrives_of_resolve resolved,
      itself.standsFor leads noDirectory (grounded.resolve resolved).2⟩

theorem node?_erase_self (notRoot : location ≠ []) : (tree.erase location).node? location = none := by
  rw [node?_erase, if_pos ⟨notRoot, rfl⟩]

theorem node?_erase_of_ne {there : Location} (different : there ≠ location) :
    (tree.erase location).node? there = tree.node? there := by
  rw [node?_erase, if_neg fun both => different both.2]

theorem differsAt_erase (tree : FileTree) (notRoot : location ≠ []) :
    tree.DiffersAt location (tree.erase location) where
  workingDirectory := rfl
  elsewhere _ different := node?_erase_of_ne different
  isEnd _ there := nomatch (node?_erase_self notRoot).symm.trans there

theorem keeps_of_remove (grounded : tree.IsGrounded) (apart : tree.Apart changed text)
    (present : (tree.kind changed).isOk = true) (done : tree.remove changed = .ok next) :
    tree.Keeps next text := by
  obtain ⟨last, place, itself, noDirectory, rfl, arrives, stands⟩ :=
    standsFor_of_remove grounded present done
  exact keeps_of_differsAt stands (differsAt_erase tree (itself.looksAt noDirectory).1)
    (apart place arrives)

theorem Leads.ends_of_gone {hasSlash : Bool} {links : Nat} {here : Location} {name : String}
    {rest : List String} (leads : tree.Leads .followed hasSlash links here (name :: rest) place)
    (notHere : name ≠ ".") (notUp : name ≠ "..") (gone : tree.node? (name :: here) = none) :
    place.location = name :: here := by
  have next := leads.next_name notHere notUp
  rw [gone] at next
  rw [next.2]

/-- When its last place is gone, a path leads there or nowhere. -/
theorem Leads.place_of_gone {hasSlash slash : Bool} {links fewer : Nat} {here : Location}
    {path : List String} {found : Place} (leads : tree.Leads .itself hasSlash links here path place)
    (known : tree.node? place.location = place.node) (noDirectory : place.node ≠ some .directory)
    (elsewhere : ∀ there, there ≠ place.location → next.node? there = tree.node? there)
    (gone : next.node? place.location = none)
    (again : next.Leads .followed slash fewer here path found) :
    found.location = place.location := by
  induction leads generalizing slash fewer with
  | here => exact absurd rfl noDirectory
  | stay _ inductionHypothesis =>
    exact inductionHypothesis known noDirectory elsewhere gone again.next_stay
  | up _ inductionHypothesis => exact inductionHypothesis known noDirectory elsewhere gone again.next_up
  | free looksUp _ => exact again.ends_of_gone looksUp.notHere looksUp.notUp gone
  | file looksUp _ => exact again.ends_of_gone looksUp.notHere looksUp.notUp gone
  | link looksUp _ _ => exact again.ends_of_gone looksUp.notHere looksUp.notUp gone
  | @enter _ _ here name _ place looksUp directory _ inductionHypothesis =>
    have different : name :: here ≠ place.location := by
      intro same
      rw [← same, directory] at known
      exact noDirectory known.symm
    have next := again.next_name looksUp.notHere looksUp.notUp
    rw [elsewhere _ different, directory] at next
    exact inductionHypothesis known noDirectory elsewhere gone next
  | @follow _ _ here name _ _ place looksUp _ link _ _ inductionHypothesis =>
    by_cases same : name :: here = place.location
    · rw [← same] at gone ⊢
      exact again.ends_of_gone looksUp.notHere looksUp.notUp gone
    · have next := again.next_name looksUp.notHere looksUp.notUp
      rw [elsewhere _ same, link] at next
      obtain ⟨_, _, next⟩ := next
      exact inductionHypothesis known noDirectory elsewhere gone next

/-- What comes to an erased place has come to what the place stood for. -/
theorem Reaches.of_erase {here : Location} {path : List String} (stands : tree.StandsFor goal location)
    (notRoot : location ≠ []) (reaches : (tree.erase location).Reaches location here path) :
    tree.Reaches goal here path := by
  have gone : (tree.erase location).node? location = none := node?_erase_self notRoot
  have before {there : Location} {node : Node} (found : (tree.erase location).node? there = some node) :
      tree.node? there = some node := (within_erase tree location).node? there node found
  induction reaches with
  | stands directory => cases gone.symm.trans directory
  | stay _ inductionHypothesis => exact .stay (inductionHypothesis)
  | up _ inductionHypothesis => exact .up inductionHypothesis
  | enter notHere notUp directory _ inductionHypothesis =>
    exact .enter notHere notUp (before directory) inductionHypothesis
  | follow notHere notUp link _ inductionHypothesis =>
    exact .follow notHere notUp (before link) inductionHypothesis
  | ends notHere notUp _ same =>
    cases stands with
    | itself isEnd => exact .ends notHere notUp isEnd same
    | link link onward known toGoal =>
      cases same
      subst toGoal
      exact .follow notHere notUp link (onward.reaches known (.inl rfl))

/-- A path that is removed and written again keeps what others find. -/
theorem keeps_of_replace {cleared : FileTree} (grounded : tree.IsGrounded)
    (apart : tree.Apart changed text) (present : (tree.kind changed).isOk = true)
    (removed : tree.remove changed = .ok cleared) (done : cleared.write changed bytes = .ok next) :
    tree.Keeps next text := by
  refine (keeps_of_remove grounded apart present removed).trans (keeps_of_write ?_ done)
  obtain ⟨last, place, itself, noDirectory, rfl, arrives, stands⟩ :=
    standsFor_of_remove grounded present removed
  obtain ⟨notRoot, known⟩ := itself.looksAt noDirectory
  rintro found ⟨_, _, _, again⟩ reaches
  rw [itself.place_of_gone known noDirectory (fun _ => node?_erase_of_ne) (node?_erase_self notRoot)
    again] at reaches
  exact apart place arrives (reaches.of_erase stands notRoot)

end EnumNames.FileTree
