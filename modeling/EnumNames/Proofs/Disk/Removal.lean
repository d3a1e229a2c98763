import EnumNames.Proofs.Disk.Write

/-!
What is found after something has been removed. Main statement: a path that leads to a file still does
after the last place of another path has been removed, unless both lead to one file.
-/

namespace EnumNames.FileTree

variable {tree : FileTree} {hasSlash otherSlash : Bool} {links otherLinks : Nat} {here : Location}
  {path rest : List String} {name target : String} {place other : Place} {bytes : ByteArray}

theorem Leads.next_stay (leads : tree.Leads .followed hasSlash links here ("." :: rest) place) :
    tree.Leads .followed hasSlash links here rest place := by
  rw [← walk_eq_ok, walk, if_pos rfl] at leads
  exact walk_eq_ok.mp leads

theorem Leads.next_up (leads : tree.Leads .followed hasSlash links here (".." :: rest) place) :
    tree.Leads .followed hasSlash links here.tail rest place := by
  rw [← walk_eq_ok, walk, if_neg (by decide), if_pos rfl] at leads
  exact walk_eq_ok.mp leads

/-- Where a walk goes on depends on what stands under the name. -/
theorem Leads.next_name (leads : tree.Leads .followed hasSlash links here (name :: rest) place)
    (notHere : name ≠ ".") (notUp : name ≠ "..") :
    match tree.node? (name :: here) with
    | none | some (.file _) =>
      rest = [] ∧ place = ⟨name :: here, tree.node? (name :: here), hasSlash⟩
    | some .directory => tree.Leads .followed hasSlash links (name :: here) rest place
    | some (.link target) => ∃ slash fewer,
      tree.Leads .followed slash fewer (origin here target) (names target ++ rest) place := by
  cases leads with
  | stay => exact absurd rfl notHere
  | up => exact absurd rfl notUp
  | free looksUp nothing =>
    rw [nothing]
    exact ⟨rfl, rfl⟩
  | file looksUp file =>
    rw [file]
    exact ⟨rfl, rfl⟩
  | enter looksUp directory onward =>
    rw [directory]
    exact onward
  | link looksUp itself => cases itself
  | follow looksUp followed link somewhere onward =>
    rw [link]
    exact ⟨_, _, onward⟩

/-- A walk ends at a file, so a longer walk along the same names cannot go on from there. -/
theorem Leads.same_place (leads : tree.Leads .followed hasSlash links here path place)
    (file : place.node = some (.file bytes))
    (longer : tree.Leads .followed otherSlash otherLinks here (path ++ rest) other) :
    rest = [] ∧ other.location = place.location := by
  induction leads generalizing otherSlash otherLinks with
  | here => cases file
  | stay onward inductionHypothesis => exact inductionHypothesis file longer.next_stay
  | up onward inductionHypothesis => exact inductionHypothesis file longer.next_up
  | free looksUp nothing => cases file
  | file looksUp there =>
    have next := longer.next_name looksUp.notHere looksUp.notUp
    rw [there] at next
    obtain ⟨nothing, rfl⟩ := next
    exact ⟨nothing, rfl⟩
  | enter looksUp directory onward inductionHypothesis =>
    have next := longer.next_name looksUp.notHere looksUp.notUp
    rw [directory] at next
    exact inductionHypothesis file next
  | link looksUp itself link => cases itself
  | follow looksUp followed link somewhere onward inductionHypothesis =>
    have next := longer.next_name looksUp.notHere looksUp.notUp
    rw [link] at next
    obtain ⟨_, _, next⟩ := next
    exact inductionHypothesis file (List.append_assoc _ _ _ ▸ next)

/-- Whoever comes to the place, ends at the file: the file is there, or a link to it. -/
inductive EndsAt (tree : FileTree) (file : Location) : Location → Prop
  | itself {bytes : ByteArray} (there : tree.node? file = some (.file bytes)) : EndsAt tree file file
  | link {name target : String} {above : Location} {hasSlash : Bool} {links : Nat} {place : Place}
      {bytes : ByteArray} (link : tree.node? (name :: above) = some (.link target))
      (onward : tree.Leads .followed hasSlash links (origin above target) (names target) place)
      (same : place.location = file) (found : place.node = some (.file bytes)) :
      EndsAt tree file (name :: above)

/-- The last place of a path ends at the file that the path leads to. -/
theorem Leads.endsAt (itself : tree.Leads .itself hasSlash links here path place)
    (leads : tree.Leads .followed otherSlash otherLinks here path other)
    (file : other.node = some (.file bytes)) : tree.EndsAt other.location place.location := by
  induction itself generalizing otherSlash otherLinks with
  | here =>
    cases leads
    cases file
  | stay onward inductionHypothesis => exact inductionHypothesis leads.next_stay
  | up onward inductionHypothesis => exact inductionHypothesis leads.next_up
  | free looksUp nothing =>
    have next := leads.next_name looksUp.notHere looksUp.notUp
    rw [nothing] at next
    cases next.2
    cases file
  | file looksUp there =>
    have next := leads.next_name looksUp.notHere looksUp.notUp
    rw [there] at next
    obtain ⟨_, rfl⟩ := next
    exact .itself there
  | enter looksUp directory onward inductionHypothesis =>
    have next := leads.next_name looksUp.notHere looksUp.notUp
    rw [directory] at next
    exact inductionHypothesis next
  | link looksUp itself link =>
    have next := leads.next_name looksUp.notHere looksUp.notUp
    rw [link] at next
    obtain ⟨_, _, onward⟩ := next
    rw [List.append_nil] at onward
    exact .link link onward rfl file
  | follow looksUp followed link somewhere onward inductionHypothesis =>
    have next := leads.next_name looksUp.notHere looksUp.notUp
    rw [link] at next
    obtain ⟨_, _, next⟩ := next
    exact inductionHypothesis next

/-- A walk to some other file does not come to the place, so it does not miss it. -/
theorem Leads.erase {file location : Location} (ends : tree.EndsAt file location)
    (leads : tree.Leads .followed hasSlash links here path place)
    (found : place.node = some (.file bytes)) (different : place.location ≠ file) :
    (tree.erase location).Leads .followed hasSlash links here path place := by
  have kept {there : Location} {node : Node} (known : tree.node? there = some node)
      (elsewhere : there ≠ location) : (tree.erase location).node? there = some node := by
    rw [node?_erase, if_neg fun both => elsewhere both.2]
    exact known
  induction leads with
  | here => exact .here
  | stay onward inductionHypothesis => exact .stay (inductionHypothesis found different)
  | up onward inductionHypothesis => exact .up (inductionHypothesis found different)
  | free looksUp nothing => cases found
  | file looksUp there =>
    refine .file looksUp (kept there ?_)
    rintro rfl
    cases ends with
    | itself => exact different rfl
    | link link => cases there.symm.trans link
  | enter looksUp directory onward inductionHypothesis =>
    refine .enter looksUp (kept directory ?_) (inductionHypothesis found different)
    rintro rfl
    cases ends with
    | itself there => cases directory.symm.trans there
    | link link => cases directory.symm.trans link
  | link looksUp itself link => cases itself
  | follow looksUp followed link somewhere onward inductionHypothesis =>
    refine .follow looksUp followed (kept link ?_) somewhere (inductionHypothesis found different)
    rintro rfl
    cases ends with
    | itself there => cases link.symm.trans there
    | link again shorter same foundToo =>
      cases link.symm.trans again
      exact different ((shorter.same_place foundToo onward).2.trans same)

/-- A path that leads to a file does not lead to a link. -/
theorem Leads.noLink (leads : tree.Leads .followed hasSlash links here path place) (target : String) :
    place.node ≠ some (.link target) := by
  induction leads with
  | here => exact nofun
  | stay _ inductionHypothesis => exact inductionHypothesis
  | up _ inductionHypothesis => exact inductionHypothesis
  | free => exact nofun
  | file => exact nofun
  | enter _ _ _ inductionHypothesis => exact inductionHypothesis
  | link _ itself => cases itself
  | follow _ _ _ _ _ inductionHypothesis => exact inductionHypothesis

/-- A file is still found after some other path has been removed that led to another file. -/
theorem LeadsToFile.remove {next : FileTree} {text gone : String} {location file : Location}
    {old : ByteArray} (leads : tree.LeadsToFile text location bytes)
    (goneLeads : tree.LeadsToFile gone file old) (different : location ≠ file)
    (done : tree.remove gone = .ok next) : next.LeadsToFile text location bytes := by
  obtain ⟨last, found, _, _, rfl⟩ := place_of_remove done
  obtain ⟨_, _, itself⟩ := resolve_eq_ok.mp (find_eq_ok.mp found).2
  obtain ⟨goal, goneResolved, rfl, goneFile, _⟩ := goneLeads
  obtain ⟨_, _, goneWalk⟩ := resolve_eq_ok.mp goneResolved
  obtain ⟨place, resolved, rfl, isFile, noSlash⟩ := leads
  obtain ⟨noZero, somewhere, walk⟩ := resolve_eq_ok.mp resolved
  refine ⟨place, resolve_eq_ok.mpr ⟨noZero, somewhere, ?_⟩, rfl, isFile, noSlash⟩
  exact walk.erase (itself.endsAt goneWalk goneFile) isFile different

/-- What is present but no directory is a file. -/
theorem leadsToFile_of_kind {text : String} (present : (tree.kind text).isOk = true)
    (noDirectory : tree.kind text ≠ .ok .directory) :
    ∃ location bytes, tree.LeadsToFile text location bytes := by
  unfold kind at present noDirectory
  cases followed : tree.follow text with
  | error cause =>
    rw [followed] at present
    cases present
  | ok there =>
    obtain ⟨location, node⟩ := there
    rw [followed] at noDirectory
    cases node with
    | file bytes => exact ⟨location, bytes, (follow_eq_file.mp followed).2⟩
    | directory => exact absurd rfl noDirectory
    | link target =>
      cases found : tree.find .followed text with
      | error cause =>
        rw [follow, found] at followed
        cases followed
      | ok place =>
        rw [follow, found] at followed
        have isLink := (existing_eq_ok (show place.existing = _ from followed)).2
        obtain ⟨_, _, leads⟩ := resolve_eq_ok.mp (find_eq_ok.mp found).2
        exact absurd isLink (leads.noLink target)

/-- The canonical path to a file is the path of its place. -/
theorem canonical_of_leadsToFile {path : String} {location : Location}
    (leads : tree.LeadsToFile path location bytes) :
    tree.canonical path = checkLength (text location) >>= fun _ => .ok (text location) := by
  obtain ⟨place, resolved, rfl, file, noSlash⟩ := leads
  have existing : place.existing = .ok (place.location, .file bytes) :=
    existing_eq_file.mpr ⟨rfl, file, noSlash⟩
  have found : tree.canonical path = (place.existing >>= fun there =>
      checkLength (text there.1) >>= fun _ => .ok (text there.1)) := by
    rw [canonical, resolved]
    rfl
  rw [found, existing]
  rfl

end EnumNames.FileTree
