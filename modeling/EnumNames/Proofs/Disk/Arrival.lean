import EnumNames.Proofs.Disk.Removal

/-!
Which places a path comes to, however many links there are to follow. Main statement: what a path
finds stays as it is when another path is removed or written, unless the first path comes to the
place where the other one leads.
-/

namespace EnumNames.FileTree

variable {tree next : FileTree} {last other : LastName} {hasSlash slash : Bool} {links fewer : Nat}
  {here location goal : Location} {path rest : List String} {place found : Place} {text : String}

/-- Nothing or a file is there, so a walk goes no further. -/
def IsEnd (tree : FileTree) (location : Location) : Prop :=
  ∀ node, tree.node? location = some node → ∃ bytes, node = .file bytes

/-- A walk comes to a place when it ends there, or when the place is a directory on its way. -/
inductive Reaches (tree : FileTree) (goal : Location) : Location → List String → Prop
  | stands {path : List String} (directory : tree.node? goal = some .directory) :
      Reaches tree goal goal path
  | ends {here : Location} {name : String} (notHere : name ≠ ".") (notUp : name ≠ "..")
      (isEnd : tree.IsEnd goal) (same : name :: here = goal) : Reaches tree goal here [name]
  | stay {here : Location} {rest : List String} (onward : Reaches tree goal here rest) :
      Reaches tree goal here ("." :: rest)
  | up {here : Location} {rest : List String} (onward : Reaches tree goal here.tail rest) :
      Reaches tree goal here (".." :: rest)
  | enter {here : Location} {name : String} {rest : List String} (notHere : name ≠ ".")
      (notUp : name ≠ "..") (directory : tree.node? (name :: here) = some .directory)
      (onward : Reaches tree goal (name :: here) rest) : Reaches tree goal here (name :: rest)
  | follow {here : Location} {name target : String} {rest : List String} (notHere : name ≠ ".")
      (notUp : name ≠ "..") (link : tree.node? (name :: here) = some (.link target))
      (onward : Reaches tree goal (origin here target) (names target ++ rest)) :
      Reaches tree goal here (name :: rest)

/-- A path comes to the place where it leads, and so does a longer one when a directory is there. -/
theorem Leads.reaches (leads : tree.Leads .followed hasSlash links here path place)
    (known : tree.node? place.location = place.node)
    (onward : rest = [] ∨ place.node = some .directory) :
    tree.Reaches place.location here (path ++ rest) := by
  induction leads with
  | here => exact .stands known
  | stay _ inductionHypothesis => exact .stay (inductionHypothesis known onward)
  | up _ inductionHypothesis => exact .up (inductionHypothesis known onward)
  | free looksUp nothing =>
    obtain rfl := onward.resolve_right nofun
    exact .ends looksUp.notHere looksUp.notUp (fun node there => nomatch nothing.symm.trans there) rfl
  | file looksUp file =>
    obtain rfl := onward.resolve_right nofun
    refine .ends looksUp.notHere looksUp.notUp (fun node there => ?_) rfl
    exact ⟨_, (Option.some.inj (file.symm.trans there)).symm⟩
  | enter looksUp directory _ inductionHypothesis =>
    exact .enter looksUp.notHere looksUp.notUp directory (inductionHypothesis known onward)
  | link looksUp itself => cases itself
  | follow looksUp followed link somewhere _ inductionHypothesis =>
    have next := inductionHypothesis known onward
    rw [List.append_assoc] at next
    exact .follow looksUp.notHere looksUp.notUp link next

/-- Behind a place that is no directory no path goes on. -/
theorem Leads.stops (leads : tree.Leads .followed hasSlash links here path place)
    (noDirectory : place.node ≠ some .directory) (more : rest ≠ []) (last : LastName) (slash : Bool)
    (fewer : Nat) : (tree.walk last slash fewer here (path ++ rest)).toOption = none := by
  induction leads generalizing slash fewer with
  | here => exact absurd rfl noDirectory
  | stay _ inductionHypothesis =>
    rw [List.cons_append, walk, if_pos rfl]
    exact inductionHypothesis noDirectory slash fewer
  | up _ inductionHypothesis =>
    rw [List.cons_append, walk, if_neg (by decide), if_pos rfl]
    exact inductionHypothesis noDirectory slash fewer
  | free looksUp nothing =>
    rw [List.cons_append, walk, if_neg looksUp.notHere, if_neg looksUp.notUp, if_neg looksUp.short]
    simp [nothing, more, Except.toOption]
  | file looksUp file =>
    rw [List.cons_append, walk, if_neg looksUp.notHere, if_neg looksUp.notUp, if_neg looksUp.short]
    simp [file, more, Except.toOption]
  | enter looksUp directory _ inductionHypothesis =>
    rw [List.cons_append, walk, if_neg looksUp.notHere, if_neg looksUp.notUp, if_neg looksUp.short]
    simpa [directory, more] using inductionHypothesis noDirectory slash fewer
  | link looksUp itself => cases itself
  | follow looksUp followed link somewhere _ inductionHypothesis =>
    rw [List.cons_append, walk, if_neg looksUp.notHere, if_neg looksUp.notUp, if_neg looksUp.short]
    cases fewer with
    | zero => simp [link, more, Except.toOption]
    | succ fewer =>
      have onward := inductionHypothesis noDirectory slash fewer
      rw [List.append_assoc] at onward
      simpa [link, more, somewhere] using onward

/-- Whoever comes to this location comes to the goal: the location is the goal, or there is a link
that leads there. -/
inductive StandsFor (tree : FileTree) (goal : Location) : Location → Prop
  | itself (isEnd : tree.IsEnd goal) : StandsFor tree goal goal
  | link {name target : String} {above : Location} {hasSlash : Bool} {links : Nat} {place : Place}
      (link : tree.node? (name :: above) = some (.link target))
      (onward : tree.Leads .followed hasSlash links (origin above target) (names target) place)
      (known : tree.node? place.location = place.node) (same : place.location = goal) :
      StandsFor tree goal (name :: above)

/-- The trees differ at most at one location, where a walk ends in the second tree. -/
structure DiffersAt (tree : FileTree) (location : Location) (next : FileTree) : Prop where
  workingDirectory : next.workingDirectory = tree.workingDirectory
  elsewhere : ∀ there, there ≠ location → next.node? there = tree.node? there
  isEnd : next.IsEnd location

/-- The last place of a path stands for the place where the path leads. -/
theorem Leads.standsFor (itself : tree.Leads .itself hasSlash links here path place)
    (leads : tree.Leads .followed slash fewer here path found)
    (noDirectory : place.node ≠ some .directory)
    (known : tree.node? found.location = found.node) : tree.StandsFor found.location place.location := by
  induction itself generalizing slash fewer with
  | here => exact absurd rfl noDirectory
  | stay _ inductionHypothesis => exact inductionHypothesis leads.next_stay noDirectory
  | up _ inductionHypothesis => exact inductionHypothesis leads.next_up noDirectory
  | free looksUp nothing =>
    have next := leads.next_name looksUp.notHere looksUp.notUp
    rw [nothing] at next
    obtain ⟨_, rfl⟩ := next
    exact .itself fun node there => nomatch nothing.symm.trans there
  | file looksUp file =>
    have next := leads.next_name looksUp.notHere looksUp.notUp
    rw [file] at next
    obtain ⟨_, rfl⟩ := next
    exact .itself fun node there => ⟨_, (Option.some.inj (file.symm.trans there)).symm⟩
  | enter looksUp directory _ inductionHypothesis =>
    have next := leads.next_name looksUp.notHere looksUp.notUp
    rw [directory] at next
    exact inductionHypothesis next noDirectory
  | link looksUp _ link =>
    have next := leads.next_name looksUp.notHere looksUp.notUp
    rw [link] at next
    obtain ⟨_, _, onward⟩ := next
    rw [List.append_nil] at onward
    exact .link link onward known rfl
  | follow looksUp followed link somewhere _ inductionHypothesis =>
    have next := leads.next_name looksUp.notHere looksUp.notUp
    rw [link] at next
    obtain ⟨_, _, onward⟩ := next
    exact inductionHypothesis onward noDirectory

theorem walk_name (tree : FileTree) {name : String} (notHere : name ≠ ".") (notUp : name ≠ "..") :
    tree.walk last hasSlash links here (name :: rest) =
      if rest = [] ∧ last = .written ∧ hasSlash then .error .isDirectory
      else if nameLimit < name.utf8ByteSize then .error .nameTooLong
      else
        match tree.node? (name :: here) with
        | none => if rest = [] then .ok ⟨name :: here, none, hasSlash⟩ else .error .noEntry
        | some .directory => tree.walk last hasSlash links (name :: here) rest
        | some (.file bytes) =>
          if rest = [] then .ok ⟨name :: here, some (.file bytes), hasSlash⟩
          else .error .notDirectory
        | some (.link target) =>
          if rest = [] ∧ last = .itself then .ok ⟨name :: here, some (.link target), hasSlash⟩
          else
            match links with
            | 0 => .error .linkLoop
            | links + 1 =>
              if target = "" then .error .noEntry
              else
                tree.walk last (hasSlash || (rest = [] && Path.endsWithSlash target)) links
                  (origin here target) (names target ++ rest) := by
  rw [walk, if_neg notHere]
  exact if_neg notUp

/-- No walk goes on behind its end. -/
theorem IsEnd.stops {name : String} (isEnd : tree.IsEnd (name :: here)) (notHere : name ≠ ".")
    (notUp : name ≠ "..") (more : rest ≠ []) :
    (tree.walk last hasSlash links here (name :: rest)).toOption = none := by
  rw [walk_name tree notHere notUp, if_neg fun both => more both.1]
  split
  · rfl
  · cases there : tree.node? (name :: here) with
    | none => rfl
    | some node =>
      obtain ⟨bytes, rfl⟩ := isEnd node there
      rfl

/-- What stands for the goal is only looked up in vain by a walk that does not come to the goal. -/
theorem StandsFor.vain {name : String} (stands : tree.StandsFor goal (name :: here))
    (notHere : name ≠ ".") (notUp : name ≠ "..") (apart : ¬ tree.Reaches goal here (name :: rest)) :
    rest ≠ [] ∧ (tree.walk last hasSlash links here (name :: rest)).toOption = none := by
  generalize looked : name :: here = location at stands
  cases stands with
  | itself isEnd =>
    have more : rest ≠ [] := by
      rintro rfl
      exact apart (.ends notHere notUp isEnd looked)
    exact ⟨more, IsEnd.stops (looked ▸ isEnd) notHere notUp more⟩
  | @link _ target _ _ _ place link onward known same =>
    obtain ⟨rfl, rfl⟩ := List.cons.inj looked
    subst same
    have comes (onwardToo : rest = [] ∨ place.node = some .directory) :
        tree.Reaches place.location here (name :: rest) :=
      .follow notHere notUp link (onward.reaches known onwardToo)
    have more : rest ≠ [] := fun nothing => apart (comes (.inl nothing))
    refine ⟨more, ?_⟩
    rw [walk_name tree notHere notUp, if_neg fun both => more both.1, link]
    split
    · rfl
    · dsimp only
      rw [if_neg fun both => more both.1]
      cases links with
      | zero => rfl
      | succ links =>
        dsimp only
        split
        · rfl
        · exact onward.stops (fun directory => apart (comes (.inr directory))) more _ _ _

/-- A walk that does not come to the goal does not notice a change at what stands for the goal. -/
theorem walk_of_differsAt (stands : tree.StandsFor goal location)
    (differs : tree.DiffersAt location next) {hasSlash : Bool} {links : Nat} {here : Location}
    {path : List String} (apart : ¬ tree.Reaches goal here path) :
    (next.walk last hasSlash links here path).toOption =
      (tree.walk last hasSlash links here path).toOption := by
  match path, apart with
  | [], _ => rw [walk, walk]
  | name :: rest, apart =>
    by_cases stays : name = "."
    · subst stays
      rw [walk, walk, if_pos rfl, if_pos rfl]
      exact walk_of_differsAt stands differs fun reaches => apart (.stay reaches)
    by_cases goesUp : name = ".."
    · subst goesUp
      rw [walk, walk, if_neg stays, if_neg stays, if_pos rfl, if_pos rfl]
      exact walk_of_differsAt stands differs fun reaches => apart (.up reaches)
    by_cases same : name :: here = location
    · subst same
      obtain ⟨more, vain⟩ := stands.vain stays goesUp apart
      rw [vain, IsEnd.stops differs.isEnd stays goesUp more]
    · rw [walk_name tree stays goesUp, walk_name next stays goesUp, differs.elsewhere _ same]
      split
      · rfl
      split
      · rfl
      cases there : tree.node? (name :: here) with
      | none => rfl
      | some node =>
        cases node with
        | file bytes => rfl
        | directory =>
          exact walk_of_differsAt stands differs fun reaches => apart (.enter stays goesUp there reaches)
        | link target =>
          dsimp only
          split
          · rfl
          cases links with
          | zero => rfl
          | succ links =>
            dsimp only
            split
            · rfl
            · exact walk_of_differsAt stands differs fun reaches =>
                apart (.follow stays goesUp there reaches)
termination_by (links, path.length)

end EnumNames.FileTree
