import EnumNames.Proofs.Run.Gathering

/-!
The first failure of a run that reads, backs up and repairs one thing after another. It is the one
that the jobs of the run name, and without a failure every entry has the content made from its own
bytes.
-/

namespace EnumNames

variable {α β : Type}

theorem failure?_eq_none {result : Except Failure α} :
    failure? result = none ↔ ∃ value, result = .ok value := by
  cases result <;> simp [failure?]

theorem failure?_eq_some {result : Except Failure α} {cause : Failure} :
    failure? result = some cause ↔ result = .error cause := by
  cases result <;> simp [failure?]

theorem failure?_mapError (result : Except Failure α) (wrap : Failure → Failure) :
    failure? (result.mapError wrap) = (failure? result).map wrap := by
  cases result <;> rfl

/-- An operation on every item fails with the first failure among the items. -/
theorem failure?_mapM (operation : α → Except Failure β) (items : List α) :
    failure? (items.mapM operation) = items.findSome? fun item => failure? (operation item) := by
  induction items with
  | nil => rfl
  | cons item rest inductionHypothesis =>
    rw [List.mapM_cons, List.findSome?_cons]
    cases operation item with
    | error cause => rfl
    | ok value =>
      change _ = rest.findSome? _
      rw [← inductionHypothesis]
      cases rest.mapM operation <;> rfl

theorem failure?_andThen (first : Except Failure α) (second : Except Failure β) :
    failure? (first >>= fun _ => second) = (failure? first <|> failure? second) := by
  cases first <;> rfl

theorem Outcome.awaited_eq_ok {outcome : Outcome α} {origin : String} {value : α} :
    outcome.awaited origin = .ok value ↔ outcome = .finished value := by
  cases outcome <;> simp [Outcome.awaited]

namespace Archive

theorem failure?_readEntry (settings : Settings) (archive : Archive) (entry : Entry) :
    failure? (archive.readEntry entry) = settings.jobs.readFailure? archive entry :=
  failure?_mapError _ _

theorem finished_of_readEntry {archive : Archive} {entry : Entry} {data : ByteArray}
    (read : archive.readEntry entry = .ok data) : archive.read entry.index = .finished data := by
  unfold readEntry at read
  cases same : archive.read entry.index with
  | finished found =>
    rw [same] at read
    cases read
    rfl
  | failed cause =>
    rw [same] at read
    cases read
  | panicked payload =>
    rw [same] at read
    cases read

/-- When no class fails to be read, the first entry that does is no class. -/
theorem findSome?_others {find : Entry → Option Failure} {entries : List Entry}
    (passes : (entries.filter (·.isUnit)).findSome? find = none) :
    entries.findSome? find = (entries.filter (!·.isUnit)).findSome? find := by
  induction entries with
  | nil => rfl
  | cons entry rest inductionHypothesis =>
    cases unit : entry.isUnit with
    | true =>
      rw [List.filter_cons_of_pos unit, List.findSome?_cons] at passes
      cases fails : find entry with
      | some cause => simp [fails] at passes
      | none =>
        rw [fails] at passes
        simp [fails, unit, inductionHypothesis passes]
    | false =>
      rw [List.filter_cons_of_neg (by simp [unit])] at passes
      simp [List.findSome?_cons, unit, inductionHypothesis passes]

/-- Reading everything fails with the first failure of a class, or else with the first failure of
another entry. -/
theorem failure?_readAll (settings : Settings) (archive : Archive) : failure? archive.readAll =
    ((archive.entries.filter (·.isUnit)).findSome? (settings.jobs.readFailure? archive) <|>
      (archive.entries.filter (!·.isUnit)).findSome? (settings.jobs.readFailure? archive)) := by
  let reads := archive.entries.map fun entry => (entry, archive.readEntry entry)
  have classes : failure? ((reads.filter (·.1.isUnit)).mapM Prod.snd) =
      (archive.entries.filter (·.isUnit)).findSome? (settings.jobs.readFailure? archive) := by
    rw [failure?_mapM, List.filter_map, List.findSome?_map]
    exact congrArg (fun find => List.findSome? find _)
      (funext (failure?_readEntry settings archive))
  have all : failure? (reads.mapM fun read => return (read.1, ← read.2)) =
      archive.entries.findSome? (settings.jobs.readFailure? archive) := by
    rw [failure?_mapM, List.findSome?_map]
    refine congrArg (fun find => List.findSome? find _) (funext fun entry => ?_)
    rw [← failure?_readEntry settings archive entry]
    change failure? (archive.readEntry entry >>= fun data => pure (entry, data)) = _
    cases archive.readEntry entry <;> rfl
  change failure? ((reads.filter (·.1.isUnit)).mapM Prod.snd >>= fun _ =>
    reads.mapM fun read => return (read.1, ← read.2)) = _
  rw [failure?_andThen, classes, all]
  cases found : (archive.entries.filter (·.isUnit)).findSome? (settings.jobs.readFailure? archive) with
  | some cause => rfl
  | none => exact findSome?_others found

/-- The content of an entry is what its own read has come to. -/
def IsContent (archive : Archive) (entry : Entry) (content : Entry × ByteArray) : Prop :=
  entry = content.1 ∧ archive.read entry.index = .finished content.2

theorem contents_of_readAll {archive : Archive} {contents : List (Entry × ByteArray)}
    (read : archive.readAll = .ok contents) :
    List.Forall₂ archive.IsContent archive.entries contents := by
  obtain ⟨_, _, read⟩ := bind_eq_ok.mp read
  refine (List.forall₂_map_left_iff.mp (mapM_eq_ok.mp read)).imp fun entry content done => ?_
  obtain ⟨data, found, same⟩ := bind_eq_ok.mp done
  cases same
  exact ⟨rfl, finished_of_readEntry found⟩

end Archive

/-- Two relations in a row relate the ends of three lists. -/
theorem forall₂_through {γ : Type} {first : α → β → Prop} {second : β → γ → Prop}
    {both : α → γ → Prop} {left : List α} {middle : List β} {right : List γ}
    (opening : List.Forall₂ first left middle) (closing : List.Forall₂ second middle right)
    (each : ∀ one two three, first one two → second two three → both one three) :
    List.Forall₂ both left right := by
  induction opening generalizing right with
  | nil =>
    cases closing
    exact .nil
  | cons head tail inductionHypothesis =>
    cases closing with
    | cons next rest => exact .cons (each _ _ _ head next) (inductionHypothesis rest)

/-- What is related to the middle of three lists is related to the pairs of their ends. -/
theorem forall₂_zip_through {γ : Type} {first : α → β → Prop} {second : β → γ → Prop}
    {left : List α} {middle : List β} {right : List γ} (opening : List.Forall₂ first left middle)
    (closing : List.Forall₂ second middle right) :
    List.Forall₂ (fun pair item => first pair.1 item ∧ second item pair.2) (left.zip right) middle := by
  induction opening generalizing right with
  | nil =>
    cases closing
    exact .nil
  | cons head tail inductionHypothesis =>
    cases closing with
    | cons next rest => exact .cons ⟨head, next⟩ (inductionHypothesis rest)

namespace Settings

variable {settings : Settings} {archive : Archive} {backup : Except Failure Unit}
  {contents : List (Entry × ByteArray)}

/-- An entry that has been read fails when its repair does. -/
theorem failure?_ofEntry (settings : Settings) {entry : Entry} {content : Entry × ByteArray}
    (isContent : archive.IsContent entry content) :
    failure? (Processed.ofEntry content.1 content.2) =
      if entry.isUnit then settings.jobs.repairFailure? archive entry else none := by
  obtain ⟨found, data⟩ := content
  obtain ⟨same, read⟩ := isContent
  obtain rfl : entry = found := same
  have repaired : settings.jobs.repairFailure? archive entry =
      failure? ((Outcome.ofExcept (Processed.ofEntry entry data)).awaited entry.name) := by
    simp [Jobs.repairFailure?, jobs, show archive.read entry.index = .finished data from read]
  rw [repaired]
  cases unit : entry.isUnit with
  | true => cases Processed.ofEntry entry data <;> rfl
  | false => simp [Processed.ofEntry, unit, failure?]

theorem failure?_repairs (settings : Settings) {entries : List Entry}
    (contained : List.Forall₂ archive.IsContent entries contents) :
    failure? (contents.mapM fun (entry, data) => Processed.ofEntry entry data) =
      (entries.filter (·.isUnit)).findSome? (settings.jobs.repairFailure? archive) := by
  rw [failure?_mapM, RunPlan.findSome?_filter]
  induction contained with
  | nil => rfl
  | cons head tail inductionHypothesis =>
    rw [List.findSome?_cons, List.findSome?_cons, failure?_ofEntry settings head,
      inductionHypothesis]

theorem failure?_processed (settings : Settings) (archive : Archive) (backup : Except Failure Unit) :
    failure? (processed (.ok archive) backup) = settings.jobs.firstFailure? archive backup := by
  have reads := Archive.failure?_readAll settings archive
  have order : settings.jobs.firstFailure? archive backup = (failure? archive.readAll <|>
      failure? backup <|>
      (archive.entries.filter (·.isUnit)).findSome? (settings.jobs.repairFailure? archive)) := by
    rw [reads, Jobs.firstFailure?]
    cases (archive.entries.filter (·.isUnit)).findSome? (settings.jobs.readFailure? archive) <;> rfl
  rw [order]
  change failure? (archive.readAll >>= fun contents => backup >>= fun _ => _) = _
  cases read : archive.readAll with
  | error cause => rfl
  | ok contents =>
    change failure? (backup >>= fun _ => _) = _
    rw [failure?_andThen, failure?_repairs settings (Archive.contents_of_readAll read)]
    rfl

/-- Without a failure every entry has the item that its own bytes make. -/
theorem makes_of_processed {items : List Processed}
    (done : processed (.ok archive) backup = .ok items) :
    List.Forall₂ (settings.jobs.Makes archive) archive.entries items := by
  obtain ⟨_, opened, done⟩ := bind_eq_ok.mp done
  cases opened
  obtain ⟨contents, read, done⟩ := bind_eq_ok.mp done
  obtain ⟨_, _, done⟩ := bind_eq_ok.mp done
  refine forall₂_through (Archive.contents_of_readAll read) (mapM_eq_ok.mp done) ?_
  rintro entry ⟨found, data⟩ item ⟨same, read⟩ made
  obtain rfl : entry = found := same
  change Processed.ofEntry entry data = .ok item at made
  refine ⟨data, read, ?_⟩
  cases unit : entry.isUnit with
  | true =>
    change Outcome.ofExcept (Processed.ofEntry entry data) = .finished item
    rw [made]
    rfl
  | false =>
    simp only [Processed.ofEntry, unit] at made
    cases made
    rfl

/-- One thing after another, a run comes to what its jobs come to. -/
theorem comes_processed (settings : Settings) (opened : Except Failure Archive)
    (backup : Except Failure Unit) :
    settings.jobs.Comes opened backup (processed opened backup) := by
  cases opened with
  | error cause => rfl
  | ok archive =>
    have first := failure?_processed settings archive backup
    unfold Jobs.Comes
    dsimp only
    rw [← first]
    cases done : processed (.ok archive) backup with
    | error cause => rfl
    | ok items => exact ⟨items, rfl, makes_of_processed done⟩

theorem makes_unique (settings : Settings) (archive : Archive) :
    Relator.RightUnique (settings.jobs.Makes archive) := by
  rintro entry first second ⟨data, read, made⟩ ⟨other, readAgain, madeAgain⟩
  obtain rfl := Outcome.finished.inj (read.symm.trans readAgain)
  cases unit : entry.isUnit with
  | true =>
    rw [unit] at made madeAgain
    exact Outcome.finished.inj (made.symm.trans madeAgain)
  | false =>
    rw [unit] at made madeAgain
    exact made.trans madeAgain.symm

theorem eq_processed_of_comes {opened : Except Failure Archive}
    {result : Except Failure (List Processed)} (comes : settings.jobs.Comes opened backup result) :
    result = processed opened backup := by
  have reference := comes_processed settings opened backup
  cases opened with
  | error cause => exact comes.trans reference.symm
  | ok archive =>
    unfold Jobs.Comes at comes reference
    dsimp only at comes reference
    cases first : settings.jobs.firstFailure? archive backup with
    | some cause =>
      rw [first] at comes reference
      exact comes.trans reference.symm
    | none =>
      rw [first] at comes reference
      obtain ⟨items, rfl, makes⟩ := comes
      obtain ⟨others, same, alsoMakes⟩ := reference
      rw [same, List.right_unique_forall₂' (makes_unique settings archive) makes alsoMakes]

end Settings

end EnumNames
