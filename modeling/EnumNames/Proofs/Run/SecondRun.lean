import EnumNames.Proofs.Run.Reproduction

/-!
A run on the output of another run. Main statement: it succeeds, it renames nothing, and its output
lists the entries of the first output.
-/

namespace EnumNames

/-- The second report counts the same, but nothing has been renamed. -/
structure Report.Repeats (first second : Report) : Prop where
  entries : second.entries = first.entries
  classes : second.classes = first.classes
  enums : second.enums = first.enums
  renamed : second.renamed = 0
  substitutions : second.substitutions = 0

/-- The entries agree in everything that is written. -/
structure SameEntry (archive written : Archive) (entry found : Entry) : Prop where
  name : found.name = entry.name
  isDirectory : found.isDirectory = entry.isDirectory
  compression : found.compression = entry.compression
  modified : found.modified = entry.modified
  mode : found.mode = entry.mode
  content : ∃ data, archive.read entry.index = .finished data ∧
    written.read found.index = .finished data

/-- A chain of relations can be completed in the middle of three lists. -/
theorem exists_forall₂ {α β γ : Type} {related : α → β → Prop} {first : β → γ → Prop}
    {second : α → γ → Prop} {items : List α} {values : List β} (all : List.Forall₂ related items values)
    (each : ∀ item value, related item value → ∃ next, first value next ∧ second item next) :
    ∃ nexts, List.Forall₂ first values nexts ∧ List.Forall₂ second items nexts := by
  induction all with
  | nil => exact ⟨[], .nil, .nil⟩
  | cons head tail inductionHypothesis =>
    obtain ⟨next, one, two⟩ := each _ _ head
    obtain ⟨nexts, ones, twos⟩ := inductionHypothesis
    exact ⟨next :: nexts, .cons one ones, .cons two twos⟩

/-- The next item is made of what has been found where the item was written. -/
structure Processed.Repeats (archive : Archive) (item next : Processed) : Prop where
  named : item.entry.isDirectory = Entry.namesDirectory item.entry.name
  nextNamed : next.entry.isDirectory = Entry.namesDirectory next.entry.name
  restores : archive.RestoresAll (item.entry, item.content) next.entry
  again : next = item.again next.entry

namespace Processed.Repeats

variable {archive : Archive} {item next : Processed}

theorem writtenAgain (repeats : Repeats archive item next) :
    archive.WrittenAgain (item.entry, item.content) (next.entry, next.content) where
  named := repeats.named
  nextNamed := repeats.nextNamed
  restores := repeats.restores
  content := congrArg Processed.content repeats.again

theorem isUnit (repeats : Repeats archive item next) : next.entry.isUnit = item.entry.isUnit := by
  have isDirectory := repeats.writtenAgain.isDirectory
  have name := repeats.restores.name.trans (Entry.writtenName_eq repeats.named)
  dsimp only at isDirectory name
  rw [Entry.isUnit, Entry.isUnit, isDirectory, name]

theorem isSome (repeats : Repeats archive item next) :
    next.constants.isSome = item.constants.isSome := by
  rw [repeats.again]
  exact Option.isSome_map

theorem changed (repeats : Repeats archive item next) : next.changed = 0 := by
  rw [repeats.again, Processed.changed, Processed.again]
  cases item.constants <;> rfl

theorem isRenamed (repeats : Repeats archive item next) : next.isRenamed = false := by
  rw [repeats.again, Processed.isRenamed, Processed.again]
  cases item.constants <;> rfl

end Processed.Repeats

/-- The report of the next items repeats the one of the items. -/
theorem Report.repeats_ofProcessed {archive : Archive} {items nexts : List Processed}
    (repeats : List.Forall₂ (Processed.Repeats archive) items nexts) (output nextOutput : String) :
    (Report.ofProcessed output items).Repeats (.ofProcessed nextOutput nexts) where
  entries := repeats.length_eq.symm
  classes := countP_eq_of_forall₂ (repeats.imp fun _ _ => Processed.Repeats.isUnit)
  enums := countP_eq_of_forall₂ (repeats.imp fun _ _ => Processed.Repeats.isSome)
  renamed := List.countP_eq_zero.mpr
    (forall_mem_of_forall₂ repeats fun _ _ each => Bool.eq_false_iff.mp each.isRenamed)
  substitutions := by
    rw [substitutions_ofProcessed, List.sum_eq_zero_iff_forall_eq_nat, List.forall_mem_map]
    exact forall_mem_of_forall₂ repeats fun _ _ each => each.changed

namespace Settings

variable {settings again : Settings} {tree after : FileTree} {items : List Processed} {report : Report}

/-- The classes in the input have fewer than 2^31 bytes. -/
def HasSmallClasses (settings : Settings) (tree : FileTree) : Prop :=
  ∀ archive, Archive.ofRead settings.input (tree.read settings.input) = .ok archive →
    ∀ entry ∈ archive.entries, entry.isUnit = true → ∀ data,
      archive.read entry.index = .finished data → data.size < 0x80000000

/-- What is gathered from the output of a run repeats what the run has gathered from its input. -/
theorem gathered_again (readsBack : Archive.ReadsBack Archive.RestoresAll (parts items))
    (small : settings.HasSmallClasses tree) (follows : again.input = settings.output)
    (writes : settings.Writes tree items report after) :
    ∃ written nexts, Archive.ofRead again.input (after.read again.input) = .ok written ∧
      List.Forall₂ (Yields written) written.entries nexts ∧
      List.Forall₂ (Processed.Repeats written) items nexts := by
  obtain ⟨gathers, _, read⟩ := writes
  obtain ⟨archive, opened, yields⟩ := gathered_eq_ok.mp gathers
  obtain ⟨written, reopened, restored⟩ := readsBack
  have loaded : Archive.ofRead again.input (after.read again.input) = .ok written := by
    rw [follows, read, Archive.ofRead, reopened]
    rfl
  have source : ∀ item ∈ items, ∃ entry ∈ archive.entries, Yields archive entry item :=
    forall_mem_of_forall₂ (forall₂_mem yields) fun entry item both => ⟨entry, both.1, both.2.2⟩
  have chain : ∃ nexts, List.Forall₂ (Yields written) written.entries nexts ∧
      List.Forall₂ (Processed.Repeats written) items nexts := by
    refine exists_forall₂ (forall₂_mem (List.forall₂_map_left_iff.mp restored)) ?_
    rintro item found ⟨inside, foundInside, restores⟩
    obtain ⟨entry, entryInside, rfl, data, read, made⟩ := source item inside
    have repeats : Processed.Repeats written item (item.again found) :=
      ⟨Archive.isDirectory_of_mem entryInside, Archive.isDirectory_of_mem foundInside, restores, rfl⟩
    have smallData (isUnit : item.entry.isUnit = true) : data.size < 0x80000000 :=
      small archive opened item.entry entryInside isUnit data read
    have madeAgain := Processed.ofEntry_again smallData made repeats.isUnit
    exact ⟨item.again found, ⟨rfl, _, restores.content, madeAgain⟩, repeats⟩
  obtain ⟨nexts, yieldAgain, repeats⟩ := chain
  exact ⟨written, nexts, loaded, yieldAgain, repeats⟩

theorem hasSmallClasses_exampleClass :
    exampleSettings.HasSmallClasses (exampleTree (exampleClass 14 [] 11)) := by
  intro archive opened entry member _ data read
  obtain ⟨written, reopened, holds⟩ := Archive.open_assemble fits_exampleClass
  change Archive.ofRead "in" ((exampleTree (exampleClass 14 [] 11)).read "in") = _ at opened
  rw [exampleTree, read_exampleTree, Archive.ofRead, reopened] at opened
  obtain rfl := Except.ok.inj opened
  rw [holds.entries] at member
  obtain ⟨⟨part, index⟩, inside, rfl⟩ := List.mem_map.mp member
  have found := List.mk_mem_zipIdx_iff_getElem?.mp inside
  obtain rfl := Outcome.finished.inj ((holds.read part index found).symm.trans read)
  have all : ∀ part ∈ exampleParts (exampleClass 14 [] 11),
      (part.1.writtenBytes part.2).size < 0x80000000 := by decide +kernel
  exact all part (List.mem_of_getElem? found)

end Settings

end EnumNames
