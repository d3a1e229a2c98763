import EnumNames.Proofs.Run.FirstFailure
import EnumNames.Proofs.Run.Undisturbed
import Mathlib

/-!
A run under any schedule. Main statement: whichever order the owner and the workers take their steps
in, a run ends, and it ends like the run that does one thing after another.
-/

namespace EnumNames.Settings

variable {settings : Settings} {tree seen : FileTree} {archive : Archive} {entry : Entry}
  {cause : Failure}

/-- The archive is the same whenever it is opened. -/
theorem read_of_mayFind (undisturbed : (settings.backUp tree).2.read settings.input =
    tree.read settings.input) (found : settings.jobs.MayFind tree seen) :
    seen.read settings.input = tree.read settings.input := by
  unfold Jobs.MayFind jobs at found
  unfold backUp at undisturbed
  cases wanted : settings.backup with
  | none =>
    rw [wanted] at found
    exact congrArg (·.read settings.input) found
  | some path =>
    rw [wanted] at found undisturbed
    refine Backup.read_of_visits ?_ undisturbed
    rcases Process.visits_bind.mp found with visits | last
    · exact visits
    · rw [show seen = _ from last]
      exact Process.visits_run _ _

theorem runOn_eq (staffed : settings.workers ≠ 0) (tree : FileTree) : settings.runOn tree =
    settings.conclude (processed (Archive.ofRead settings.input (tree.read settings.input))
      (settings.backUp tree).1) (settings.backUp tree).2 := by
  unfold runOn run
  rw [if_neg staffed]
  change (ExceptT.bindCont (fun items => settings.write items)
    (processed (Archive.ofRead settings.input (tree.read settings.input))
      (settings.backUp tree).1) : StateM FileTree (Except Failure Report))
    (settings.backUp tree).2 = _
  cases processed (Archive.ofRead settings.input (tree.read settings.input))
    (settings.backUp tree).1 <;> rfl

/-- The entry can be read. -/
def IsReadable (archive : Archive) (entry : Entry) : Prop :=
  ∃ data, archive.read entry.index = .finished data

/-- The item is made from the bytes of this entry alone. -/
def Yields (archive : Archive) (entry : Entry) (item : Processed) : Prop :=
  item.entry = entry ∧ ∃ data, archive.read entry.index = .finished data ∧
    Processed.ofEntry entry data = .ok item

/-- The classes are read before the other entries. -/
def readingOrder (archive : Archive) : List Entry :=
  archive.entries.filter (·.isUnit) ++ archive.entries.filter (!·.isUnit)

/-- One thing after another: the archive is opened, the classes are read, the other entries are read,
the backup is made, and the classes are repaired. The first failure ends it, and without a failure
the items are written. A failure of an entry is wrapped once, in the name of this entry. -/
inductive InOrder (settings : Settings) (tree : FileTree) : Except Failure Report × FileTree → Prop
  | unopened {cause : Failure}
      (opened : Archive.ofRead settings.input (tree.read settings.input) = .error cause) :
      InOrder settings tree (.error cause, (settings.backUp tree).2)
  | unread {archive : Archive} {before after : List Entry} {entry : Entry} {cause : Failure}
      (opened : Archive.ofRead settings.input (tree.read settings.input) = .ok archive)
      (order : readingOrder archive = before ++ entry :: after)
      (earlier : ∀ other ∈ before, IsReadable archive other)
      (failed : (archive.read entry.index).awaited entry.name = .error cause) :
      InOrder settings tree (.error (.entry entry.name cause), (settings.backUp tree).2)
  | unsaved {archive : Archive} {cause : Failure}
      (opened : Archive.ofRead settings.input (tree.read settings.input) = .ok archive)
      (readable : ∀ entry ∈ archive.entries, IsReadable archive entry)
      (failed : (settings.backUp tree).1 = .error cause) :
      InOrder settings tree (.error cause, (settings.backUp tree).2)
  | unrepaired {archive : Archive} {before after : List Entry} {entry : Entry} {data : ByteArray}
      {cause : Failure}
      (opened : Archive.ofRead settings.input (tree.read settings.input) = .ok archive)
      (readable : ∀ entry ∈ archive.entries, IsReadable archive entry)
      (saved : (settings.backUp tree).1 = .ok ())
      (order : archive.entries.filter (·.isUnit) = before ++ entry :: after)
      (earlier : ∀ other ∈ before, ∃ item, Yields archive other item)
      (read : archive.read entry.index = .finished data)
      (failed : Processed.ofClass entry data = .error cause) :
      InOrder settings tree (.error (.entry entry.name cause), (settings.backUp tree).2)
  | written {archive : Archive} {items : List Processed}
      (opened : Archive.ofRead settings.input (tree.read settings.input) = .ok archive)
      (readable : ∀ entry ∈ archive.entries, IsReadable archive entry)
      (saved : (settings.backUp tree).1 = .ok ())
      (yields : List.Forall₂ (Yields archive) archive.entries items) :
      InOrder settings tree (settings.conclude (.ok items) (settings.backUp tree).2)

theorem entry_of_ofEntry {data : ByteArray} {item : Processed}
    (made : Processed.ofEntry entry data = .ok item) : item.entry = entry := by
  unfold Processed.ofEntry at made
  split at made
  · cases done : Processed.ofClass entry data with
    | error cause =>
      rw [done] at made
      cases made
    | ok found =>
      rw [done] at made
      cases made
      obtain ⟨unit?, _, done⟩ := bind_eq_ok.mp done
      cases unit? with
      | none =>
        cases done
        rfl
      | some unit =>
        obtain ⟨repaired, _, done⟩ := bind_eq_ok.mp done
        cases done
        rfl
  · cases made
    rfl

theorem isReadable_of_readFailure? (passes : settings.jobs.readFailure? archive entry = none) :
    IsReadable archive entry := by
  obtain ⟨data, awaited⟩ := failure?_eq_none.mp (Option.map_eq_none_iff.mp passes)
  exact ⟨data, Outcome.awaited_eq_ok.mp awaited⟩

/-- A failed read is wrapped once, in the name of its own entry. -/
theorem entry_of_readFailure? (failed : settings.jobs.readFailure? archive entry = some cause) :
    ∃ inner, cause = .entry entry.name inner ∧
      (archive.read entry.index).awaited entry.name = .error inner := by
  obtain ⟨inner, same, rfl⟩ := Option.map_eq_some_iff.mp failed
  exact ⟨inner, rfl, failure?_eq_some.mp same⟩

theorem repairFailure?_eq (settings : Settings) {data : ByteArray}
    (read : archive.read entry.index = .finished data) :
    settings.jobs.repairFailure? archive entry = failure? (Processed.ofEntry entry data) := by
  have found : settings.jobs.read archive entry = .finished data := read
  rw [Jobs.repairFailure?, found]
  change failure? ((Outcome.ofExcept (Processed.ofEntry entry data)).awaited entry.name) = _
  cases Processed.ofEntry entry data <;> rfl

/-- A failed repair is wrapped once, in the name of its own entry. -/
theorem entry_of_ofEntry_error {data : ByteArray} (unit : entry.isUnit = true)
    (failed : Processed.ofEntry entry data = .error cause) :
    ∃ inner, cause = .entry entry.name inner ∧ Processed.ofClass entry data = .error inner := by
  rw [Processed.ofEntry, if_pos unit] at failed
  cases made : Processed.ofClass entry data with
  | ok item =>
    rw [made] at failed
    cases failed
  | error inner =>
    rw [made] at failed
    cases failed
    exact ⟨inner, rfl, rfl⟩

theorem yields_of_repairFailure? (readable : IsReadable archive entry)
    (passes : settings.jobs.repairFailure? archive entry = none) :
    ∃ item, Yields archive entry item := by
  obtain ⟨data, read⟩ := readable
  rw [repairFailure?_eq settings read] at passes
  obtain ⟨item, made⟩ := failure?_eq_none.mp passes
  exact ⟨item, entry_of_ofEntry made, data, read, made⟩

theorem yields_of_makes {item : Processed} (makes : settings.jobs.Makes archive entry item) :
    Yields archive entry item := by
  obtain ⟨data, read, made⟩ := makes
  have done : Processed.ofEntry entry data = .ok item := by
    split at made
    · change Outcome.ofExcept (Processed.ofEntry entry data) = .finished item at made
      cases found : Processed.ofEntry entry data with
      | ok other =>
        rw [found] at made
        cases made
        rfl
      | error cause =>
        rw [found] at made
        cases made
    · rename_i other
      rw [Processed.ofEntry, if_neg other, made]
  exact ⟨entry_of_ofEntry done, data, read, done⟩

theorem firstFailure?_eq (settings : Settings) (archive : Archive) (backup : Except Failure Unit) :
    settings.jobs.firstFailure? archive backup =
      ((readingOrder archive).findSome? (settings.jobs.readFailure? archive) <|> failure? backup <|>
        (archive.entries.filter (·.isUnit)).findSome? (settings.jobs.repairFailure? archive)) := by
  rw [Jobs.firstFailure?, readingOrder, List.findSome?_append]
  cases (archive.entries.filter (·.isUnit)).findSome? (settings.jobs.readFailure? archive) <;> rfl

theorem mem_readingOrder : entry ∈ readingOrder archive ↔ entry ∈ archive.entries := by
  cases unit : entry.isUnit <;> simp [readingOrder, unit]

/-- When no read fails, every entry can be read. -/
theorem isReadable_of_findSome?
    (passes : (readingOrder archive).findSome? (settings.jobs.readFailure? archive) = none)
    (member : entry ∈ archive.entries) : IsReadable archive entry :=
  isReadable_of_readFailure? (List.findSome?_eq_none_iff.mp passes entry (mem_readingOrder.mpr member))

/-- The first read that fails ends the run. -/
theorem inOrder_of_readFailure?
    (opened : Archive.ofRead settings.input (tree.read settings.input) = .ok archive)
    (reads : (readingOrder archive).findSome? (settings.jobs.readFailure? archive) = some cause) :
    InOrder settings tree (.error cause, (settings.backUp tree).2) := by
  obtain ⟨before, entry, after, order, fails, earlier⟩ := List.findSome?_eq_some_iff.mp reads
  obtain ⟨inner, rfl, failed⟩ := entry_of_readFailure? fails
  exact .unread opened order
    (fun other member => isReadable_of_readFailure? (earlier other member)) failed

/-- When all entries are read and the backup is made, the first repair that fails ends the run. -/
theorem inOrder_of_repairFailure?
    (opened : Archive.ofRead settings.input (tree.read settings.input) = .ok archive)
    (readable : ∀ entry ∈ archive.entries, IsReadable archive entry)
    (saved : (settings.backUp tree).1 = .ok ())
    (repairs : (archive.entries.filter (·.isUnit)).findSome?
      (settings.jobs.repairFailure? archive) = some cause) :
    InOrder settings tree (.error cause, (settings.backUp tree).2) := by
  obtain ⟨before, entry, after, order, fails, earlier⟩ := List.findSome?_eq_some_iff.mp repairs
  have among (other : Entry) (member : other ∈ before ++ entry :: after) :
      other ∈ archive.entries ∧ other.isUnit = true :=
    List.mem_filter.mp (order ▸ member)
  obtain ⟨inside, unit⟩ := among entry (by simp)
  obtain ⟨data, read⟩ := readable entry inside
  rw [repairFailure?_eq settings read] at fails
  obtain ⟨inner, rfl, failed⟩ := entry_of_ofEntry_error unit (failure?_eq_some.mp fails)
  refine .unrepaired opened readable saved order (fun other member => ?_) read failed
  exact yields_of_repairFailure? (readable other (among other (by simp [member])).1)
    (earlier other member)

theorem inOrder_runOn (staffed : settings.workers ≠ 0) (tree : FileTree) :
    InOrder settings tree (settings.runOn tree) := by
  rw [runOn_eq staffed]
  have comes := comes_processed settings (Archive.ofRead settings.input (tree.read settings.input))
    (settings.backUp tree).1
  generalize processed (Archive.ofRead settings.input (tree.read settings.input))
    (settings.backUp tree).1 = gathered at comes ⊢
  cases opened : Archive.ofRead settings.input (tree.read settings.input) with
  | error cause =>
    rw [opened] at comes
    rw [show gathered = _ from comes]
    exact .unopened opened
  | ok archive =>
    rw [opened] at comes
    unfold Jobs.Comes at comes
    dsimp only at comes
    rw [firstFailure?_eq] at comes
    cases reads : (readingOrder archive).findSome? (settings.jobs.readFailure? archive) with
    | some cause =>
      rw [reads] at comes
      rw [show gathered = _ from comes]
      exact inOrder_of_readFailure? opened reads
    | none =>
      rw [reads] at comes
      have readable : ∀ entry ∈ archive.entries, IsReadable archive entry :=
        fun _ => isReadable_of_findSome? reads
      cases saved : (settings.backUp tree).1 with
      | error cause =>
        rw [saved] at comes
        rw [show gathered = _ from comes]
        exact .unsaved opened readable saved
      | ok _ =>
        rw [saved] at comes
        cases repairs : (archive.entries.filter (·.isUnit)).findSome?
            (settings.jobs.repairFailure? archive) with
        | some cause =>
          rw [repairs] at comes
          rw [show gathered = _ from comes]
          exact inOrder_of_repairFailure? opened readable saved repairs
        | none =>
          rw [repairs] at comes
          obtain ⟨items, done, makes⟩ := comes
          rw [done]
          exact .written opened readable saved (makes.imp fun _ _ => yields_of_makes)

/-- As long as the backup leaves the input as it was, every schedule ends like the run that does one
thing after another. -/
theorem inevitable_runOn (settings : Settings) (tree : FileTree)
    (undisturbed : (settings.backUp tree).2.read settings.input = tree.read settings.input) :
    Inevitable Situation.Step (·.Ends (settings.runOn tree).1 (settings.runOn tree).2)
      (settings.situation settings.jobs tree) := by
  by_cases staffed : settings.workers = 0
  · have alone : settings.runOn tree = (.error (.invalidConcurrency 0), tree) := by
      unfold runOn run
      rw [if_pos staffed]
      rfl
    rw [alone]
    exact .reached (RunPlan.ends_of_unstaffed staffed settings.jobs tree)
  · refine (RunPlan.inevitable_ofJobs staffed settings.jobs tree).imp fun situation => ?_
    rintro ⟨seen, gathered, found, comes, ends⟩
    rw [backedUp_jobs, read_of_mayFind undisturbed found] at comes
    rw [backedUp_jobs, eq_processed_of_comes comes, ← runOn_eq staffed] at ends
    exact ends

/-- An archive without entries is nothing but the end of its directory. -/
def emptyArchive : ByteArray :=
  ⟨#[0x50, 0x4B, 5, 6, 0, 0, 0, 0, 0, 0, 0, 0, 0, 0, 0, 0, 0, 0, 0, 0, 0, 0]⟩

end EnumNames.Settings
