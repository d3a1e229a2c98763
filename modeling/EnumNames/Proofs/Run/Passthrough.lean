import EnumNames.Proofs.Archive.WrittenArchive
import EnumNames.Proofs.EnumUnit.RepairedNames
import EnumNames.Proofs.Run.Conclusion
import EnumNames.Proofs.Run.Processing

/-!
What the output of a run lists. Main statement: the entries of the output have the names of the input
in the same order, and each has its own bytes or those of its own repair.
-/

namespace EnumNames

/-- An entry of the output has the name of the one in the input, and its content is made from the
content there. -/
structure PassesThrough (archive written : Archive) (entry found : Entry) : Prop where
  name : found.name = entry.name
  content : Entry.namesDirectory entry.name = false → ∃ data bytes,
    archive.read entry.index = .finished data ∧ written.read found.index = .finished bytes ∧
      Entry.Becomes entry.name data bytes

namespace Settings

variable {settings : Settings} {tree after : FileTree} {items : List Processed} {report : Report}

/-- The entries of the input before a run and those of the output behind it are related one by one. -/
def Relates (settings : Settings) (related : Archive → Archive → Entry → Entry → Prop)
    (tree after : FileTree) : Prop :=
  ∃ archive written, Archive.ofRead settings.input (tree.read settings.input) = .ok archive ∧
    Archive.ofRead settings.output (after.read settings.output) = .ok written ∧
    List.Forall₂ (related archive written) archive.entries written.entries

theorem relates_iff {related : Archive → Archive → Entry → Entry → Prop} {archive written : Archive}
    (opened : Archive.ofRead settings.input (tree.read settings.input) = .ok archive)
    (reopened : Archive.ofRead settings.output (after.read settings.output) = .ok written) :
    settings.Relates related tree after ↔
      List.Forall₂ (related archive written) archive.entries written.entries := by
  constructor
  · rintro ⟨first, second, firstOpened, secondOpened, all⟩
    cases opened.symm.trans firstOpened
    cases reopened.symm.trans secondOpened
    exact all
  · exact fun all => ⟨archive, written, opened, reopened, all⟩

/-- Entries of the input and of the output are related when each item between them relates them. -/
theorem relates_of_writes {restores : Archive → Entry × Content → Entry → Prop}
    {related : Archive → Archive → Entry → Entry → Prop}
    (readsBack : Archive.ReadsBack restores (parts items))
    (writes : settings.Writes tree items report after)
    (each : ∀ archive written, ∀ entry ∈ archive.entries, ∀ item ∈ items,
      ∀ found ∈ written.entries, Yields archive entry item →
        restores written (entry, item.content) found → related archive written entry found) :
    settings.Relates related tree after := by
  obtain ⟨gathers, _, read⟩ := writes
  obtain ⟨archive, opened, yields⟩ := gathered_eq_ok.mp gathers
  obtain ⟨written, reopened, restored⟩ := readsBack
  refine ⟨archive, written, opened, ?_, ?_⟩
  · rw [read, Archive.ofRead, reopened]
    rfl
  · refine forall₂_through (forall₂_mem yields)
      (forall₂_mem (List.forall₂_map_left_iff.mp restored)) ?_
    rintro entry item found ⟨first, second, yield⟩ ⟨_, third, restored⟩
    refine each archive written entry first item second found third yield ?_
    rw [← yield.1]
    exact restored

end Settings

def exampleFolder : Entry := ⟨0, "a/", true, .stored, ⟨33, 0⟩, some 0o40755, 0⟩

def exampleNote : Entry := ⟨1, "a/note", false, .stored, ⟨33, 0⟩, some 0o100600, 2⟩

def exampleNoteBytes : ByteArray := ⟨#[104, 105]⟩

def exampleClassEntry (data : ByteArray) : Entry :=
  ⟨2, "E.class", false, .stored, ⟨33, 0⟩, some 0o100644, data.size⟩

def exampleParts (data : ByteArray) : List (Entry × Content) :=
  [(exampleFolder, .kept .empty), (exampleNote, .kept exampleNoteBytes),
   (exampleClassEntry data, .kept data)]

def exampleTree (data : ByteArray) : FileTree :=
  ⟨[(["in"], .file (Archive.assemble (exampleParts data)))], []⟩

def exampleItems (data : ByteArray) (repaired : Repaired) : List Processed :=
  [.ofKept exampleFolder .empty, .ofKept exampleNote exampleNoteBytes,
   .ofRepaired (exampleClassEntry data) data repaired]

theorem read_exampleTree (bytes : ByteArray) :
    FileTree.read ⟨[(["in"], .file bytes)], []⟩ "in" = .ok bytes := by cbv

namespace Settings

def exampleSettings : Settings := ⟨"in", "out", none, 2⟩

theorem gathered_exampleTree {data : ByteArray} {repaired : Repaired}
    (fits : Archive.Fits (exampleParts data))
    (classified : EnumUnit.classify data = .ok (some exampleUnit))
    (done : exampleUnit.repair data = .ok repaired) :
    exampleSettings.gathered (exampleTree data) = .ok (exampleItems data repaired) := by
  obtain ⟨archive, opened, holds⟩ := Archive.open_assemble fits
  have entries : archive.entries = [exampleFolder, exampleNote, exampleClassEntry data] := by
    rw [holds.entries]
    cbv
  refine gathered_eq_ok.mpr ⟨archive, ?_, ?_⟩
  · change Archive.ofRead "in" ((exampleTree data).read "in") = _
    rw [exampleTree, read_exampleTree, Archive.ofRead, opened]
    rfl
  · rw [entries]
    refine .cons ⟨rfl, _, holds.read _ 0 rfl, ?_⟩ (.cons ⟨rfl, _, holds.read _ 1 rfl, ?_⟩
      (.cons ⟨rfl, _, holds.read _ 2 rfl, ?_⟩ .nil))
    · exact Processed.ofEntry_eq_ok.mpr (.inl ⟨rfl, rfl⟩)
    · exact Processed.ofEntry_eq_ok.mpr (.inl ⟨by cbv, rfl⟩)
    · exact Processed.ofEntry_eq_ok.mpr (.inr (.inr ⟨by cbv, _, _, classified, done, rfl⟩))

theorem fits_exampleClass : Archive.Fits (exampleParts (exampleClass 14 [] 11)) :=
  ⟨by decide +kernel, by decide +kernel, by decide +kernel⟩

/-- The literal in this class does not match yet. -/
theorem gathered_exampleClass : exampleSettings.gathered (exampleTree (exampleClass 14 [] 11)) =
    .ok (exampleItems (exampleClass 14 [] 11) ⟨exampleClass 15 [8, 0, 5] 14, 1, 1⟩) :=
  gathered_exampleTree fits_exampleClass (by decide +kernel) repair_exampleClass

theorem readsBack_exampleClass (items : List Processed)
    (gathers : exampleSettings.gathered (exampleTree (exampleClass 14 [] 11)) = .ok items) :
    Archive.ReadsBack Archive.RestoresAll (parts items) := by
  obtain rfl := Except.ok.inj (gathered_exampleClass.symm.trans gathers)
  exact Archive.readsBack ⟨by decide +kernel, by decide +kernel, by decide +kernel⟩

end Settings

end EnumNames
