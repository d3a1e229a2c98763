import EnumNames.Proofs.Disk.Canonical

/-!
What is found after a file has been written. Main statement: the path of the file leads to the new
bytes, and every path that led to a file either still does or leads to the new file as well.
-/

namespace EnumNames.FileTree

variable {tree next : FileTree} {last : LastName} {hasSlash : Bool} {links : Nat} {here : Location}
  {path : List String} {place : Place}

/-- A walk that ends at no directory has looked at the place where it ends. -/
theorem Leads.looksAt (leads : tree.Leads last hasSlash links here path place)
    (noDirectory : place.node ≠ some .directory) :
    place.location ≠ [] ∧ tree.node? place.location = place.node := by
  induction leads with
  | here => exact absurd rfl noDirectory
  | stay _ inductionHypothesis => exact inductionHypothesis noDirectory
  | up _ inductionHypothesis => exact inductionHypothesis noDirectory
  | free _ nothing => exact ⟨List.cons_ne_nil _ _, nothing⟩
  | file _ file => exact ⟨List.cons_ne_nil _ _, file⟩
  | link _ _ link => exact ⟨List.cons_ne_nil _ _, link⟩
  | enter _ _ _ inductionHypothesis => exact inductionHypothesis noDirectory
  | follow _ _ _ _ _ inductionHypothesis => exact inductionHypothesis noDirectory

/-- A walk for writing ends at no link, and a slash is left only behind a directory. -/
theorem Leads.written (leads : tree.Leads .written hasSlash links here path place)
    (noDirectory : place.node ≠ some .directory) :
    (∀ target, place.node ≠ some (.link target)) ∧ place.hasSlash = false := by
  have plain {hasSlash : Bool} {name : String} (looksUp : LooksUp .written hasSlash name []) :
      hasSlash = false := by
    simpa using fun slash => looksUp.allowed ⟨rfl, rfl, slash⟩
  induction leads with
  | here => exact absurd rfl noDirectory
  | stay _ inductionHypothesis => exact inductionHypothesis noDirectory
  | up _ inductionHypothesis => exact inductionHypothesis noDirectory
  | free looksUp _ => exact ⟨nofun, plain looksUp⟩
  | file looksUp _ => exact ⟨nofun, plain looksUp⟩
  | link _ itself _ => cases itself
  | enter _ _ _ inductionHypothesis => exact inductionHypothesis noDirectory
  | follow _ _ _ _ _ inductionHypothesis => exact inductionHypothesis noDirectory

/-- A written file is found under its path, and nothing else has changed. -/
theorem leadsToFile_of_write {text : String} {bytes : ByteArray}
    (done : tree.write text bytes = .ok next) :
    ∃ location, next.LeadsToFile text location bytes ∧ tree.FileAt location bytes next := by
  obtain ⟨place, found, noDirectory, rfl⟩ := place_of_write done
  obtain ⟨noZero, somewhere, leads⟩ := resolve_eq_ok.mp (find_eq_ok.mp found).2
  obtain ⟨notRoot, node⟩ := leads.looksAt noDirectory
  obtain ⟨noLink, noSlash⟩ := leads.written noDirectory
  have before (old : Node) (there : tree.node? place.location = some old) :
      ∃ bytes, old = .file bytes := by
    rw [node] at there
    cases old with
    | file bytes => exact ⟨bytes, rfl⟩
    | directory => exact absurd there noDirectory
    | link target => exact absurd there (noLink target)
  have fileAt := fileAt_insert notRoot before bytes
  refine ⟨place.location, ?_, fileAt⟩
  refine ⟨⟨place.location, some (.file bytes), place.hasSlash⟩,
    resolve_eq_ok.mpr ⟨noZero, somewhere, ?_⟩, rfl, rfl, noSlash⟩
  exact (leads.here_of_fileAt fileAt noDirectory).followed

theorem read_of_write {text : String} {bytes : ByteArray} (done : tree.write text bytes = .ok next) :
    next.read text = .ok bytes := by
  obtain ⟨place, found, _, _⟩ := place_of_write done
  obtain ⟨location, leads, _⟩ := leadsToFile_of_write done
  exact read_eq_ok.mpr ⟨(find_eq_ok.mp found).1, location, leads⟩

/-- A slash that has been noticed is never forgotten. -/
theorem Leads.noSlash (leads : tree.Leads last hasSlash links here path place)
    (noSlash : place.hasSlash = false) : hasSlash = false := by
  induction leads with
  | here | free | file | link => exact noSlash
  | stay _ inductionHypothesis | up _ inductionHypothesis | enter _ _ _ inductionHypothesis =>
    exact inductionHypothesis noSlash
  | follow _ _ _ _ _ inductionHypothesis => exact (Bool.or_eq_false_iff.mp (inductionHypothesis noSlash)).1

/-- Without a slash behind its name, a place that is found can be written as well. -/
theorem Leads.writable (leads : tree.Leads .followed hasSlash links here path place)
    (noSlash : place.hasSlash = false) : tree.Leads .written hasSlash links here path place := by
  have strict {hasSlash : Bool} {name : String} {rest : List String} (plain : hasSlash = false)
      (looksUp : LooksUp .followed hasSlash name rest) : LooksUp .written hasSlash name rest :=
    ⟨looksUp.notHere, looksUp.notUp, fun bad => by simp [plain] at bad, looksUp.short⟩
  induction leads with
  | here => exact .here
  | stay onward inductionHypothesis => exact .stay (inductionHypothesis noSlash)
  | up onward inductionHypothesis => exact .up (inductionHypothesis noSlash)
  | free looksUp nothing => exact .free (strict noSlash looksUp) nothing
  | file looksUp file => exact .file (strict noSlash looksUp) file
  | enter looksUp directory onward inductionHypothesis =>
    exact .enter (strict (onward.noSlash noSlash) looksUp) directory (inductionHypothesis noSlash)
  | link looksUp itself link => cases itself
  | follow looksUp followed link somewhere onward inductionHypothesis =>
    have plain := (Bool.or_eq_false_iff.mp (onward.noSlash noSlash)).1
    exact .follow (strict plain looksUp) (fun bad => nomatch bad.2) link somewhere
      (inductionHypothesis noSlash)

/-- A file that can be read can be replaced. -/
theorem write_of_read {text : String} {old : ByteArray} (read : tree.read text = .ok old)
    (bytes : ByteArray) : ∃ next, tree.write text bytes = .ok next := by
  obtain ⟨short, location, place, resolved, rfl, file, noSlash⟩ := read_eq_ok.mp read
  obtain ⟨noZero, somewhere, leads⟩ := resolve_eq_ok.mp resolved
  have found : tree.find .written text = .ok place :=
    find_eq_ok.mpr ⟨short, resolve_eq_ok.mpr ⟨noZero, somewhere, leads.writable noSlash⟩⟩
  refine ⟨tree.insert place.location (.file bytes), ?_⟩
  simp only [write, found, file, bind, Except.bind, pure, Except.pure]

/-- A file is still found after some other path has been written, unless both lead to what has been
written. -/
theorem LeadsToFile.write {text other : String} {location : Location} {bytes content : ByteArray}
    (leads : tree.LeadsToFile text location bytes) (done : tree.write other content = .ok next) :
    next.LeadsToFile text location bytes ∨
      next.LeadsToFile text location content ∧ next.LeadsToFile other location content := by
  obtain ⟨there, otherLeads, fileAt⟩ := leadsToFile_of_write done
  obtain ⟨place, resolved, rfl, file, noSlash⟩ := leads
  obtain ⟨noZero, somewhere, walk⟩ := resolve_eq_ok.mp resolved
  by_cases same : place.location = there
  · subst same
    refine .inr ⟨?_, otherLeads⟩
    refine ⟨⟨place.location, some (.file content), place.hasSlash⟩,
      resolve_eq_ok.mpr ⟨noZero, somewhere, ?_⟩, rfl, rfl, noSlash⟩
    rw [← fileAt.workingDirectory]
    exact walk.here_of_fileAt fileAt (by simp [file])
  · refine .inl ⟨place, resolve_eq_ok.mpr ⟨noZero, somewhere, ?_⟩, rfl, file, noSlash⟩
    rw [← fileAt.workingDirectory]
    exact walk.elsewhere fileAt same

/-- A file that is copied is found as before, wherever the copy goes. -/
theorem LeadsToFile.copied {text other : String} {location : Location} {bytes : ByteArray}
    (leads : tree.LeadsToFile text location bytes) (done : tree.write other bytes = .ok next) :
    next.LeadsToFile text location bytes :=
  (leads.write done).elim id And.left

end EnumNames.FileTree
