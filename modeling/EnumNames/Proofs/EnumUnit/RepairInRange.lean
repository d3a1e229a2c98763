import EnumNames.Proofs.Bytecode.InsideCode
import EnumNames.Proofs.ClassFile.InsideClass
import EnumNames.Proofs.EnumUnit.Acceptance
import EnumNames.Proofs.EnumUnit.RepairedNames

/-!
No class file and no enum makes a repair overrun. Whatever the bytes are, every position that is
looked up lies inside the bytes it is looked up in, and no difference falls below zero, so a repair
ends in a reported failure or in repaired bytes.
-/

namespace EnumNames

namespace Step

variable {pool : ConstantPool} {code : ByteArray} {instruction : Instruction}

theorem inRange_ofLoad (index : UInt16) : InRange (ofLoad pool index) := by
  apply (pool.inRange_stringValue index).bind
  intro value _
  split
  · exact inRange_ok _
  · exact (pool.inRange_get index).bind fun constant _ => inRange_ok _

theorem inRange_ofInstruction (inside : instruction.Inside code) :
    InRange (ofInstruction pool code instruction) := by
  apply InRange.ite
  · intro new
    have index : Opcode.hasIndex instruction.opcode = true := by
      rw [new]
      decide
    apply (inside.index index).bind
    intro found _
    exact (pool.inRange_className found).bind fun name _ => inRange_ok _
  · intro _
    apply InRange.ite
    · intro load
      exact (inside.loadIndex load).bind fun found _ => inRange_ofLoad found
    · intro _
      apply InRange.ite
      · intro putStatic
        have index : Opcode.hasIndex instruction.opcode = true := by
          rw [putStatic]
          decide
        apply (inside.index index).bind
        intro found _
        exact (pool.inRange_memberRef found).bind fun field _ => inRange_ok _
      · intro _
        exact inRange_ok _

end Step

namespace Construction

variable {unit : EnumUnit} {machine : Construction}

theorem inRange_observe (machine : Construction) (step : Step) : InRange (machine.observe step) := by
  intro failure failed
  rcases observe_eq_error.mp failed with ⟨_, _, _, _, rfl⟩ | ⟨_, _, _, rfl⟩
  · rfl
  · rfl

theorem inRange_finish (machine : Construction) : InRange machine.finish := by
  apply InRange.ite
  · intro _
    exact inRange_error rfl
  · intro _
    apply InRange.ite
    · intro _
      exact inRange_error rfl
    · intro _
      exact inRange_ok _

/-- The name that a machine waits with stands at the position that it counts, before the literal and
behind it. -/
structure Located (unit : EnumUnit) (machine : Construction) : Prop where
  literal : ∀ name, machine.phase = .awaitingLiteral name →
    unit.constants[machine.consumed]? = some name
  store : ∀ name, machine.phase = .awaitingStore name →
    0 < machine.consumed ∧ unit.constants[machine.consumed - 1]? = some name

theorem located_of_run {steps : List Step} {actions : List Action}
    (done : (start unit).run steps = .ok (machine, actions)) : machine.Located unit := by
  cases run_eq_ok_iff.mp done with
  | pause =>
    constructor
    · intro name same
      cases same
    · intro name same
      cases same
  | literal className before declared =>
    constructor
    · intro name same
      cases same
      simp [declared]
    · intro name same
      cases same
  | store className value after declared =>
    constructor
    · intro name same
      cases same
    · intro name same
      cases same
      simp [declared]

end Construction

namespace Progress

variable {source pool : ConstantPool} {code : ByteArray} {instruction : Instruction}

theorem inRange_chooseIndex (current : UInt16) (name : String) :
    InRange (chooseIndex source pool current name) := by
  apply (source.inRange_stringValue current).bind
  intro value _
  apply InRange.ite
  · intro _
    exact inRange_ok _
  · intro _
    split
    · exact inRange_ok _
    · rename_i failure next failed
      exact inRange_error (ConstantPool.inRange_intern _ _ _ _ failed)

theorem inRange_observe (progress : Progress) (inside : instruction.Inside code) :
    InRange (observe source code progress instruction) := by
  apply (Step.inRange_ofInstruction inside).bind
  intro step taken
  apply (progress.machine.inRange_observe step).bind
  rintro ⟨machine, action⟩ observed
  cases action with
  | forward => exact inRange_ok _
  | substitute name =>
    obtain ⟨_, ⟨value, rfl⟩, _⟩ := Construction.observe_substitute observed
    have load := (Step.ofInstruction_eq_string taken).1
    apply (inside.loadIndex load).bind
    intro current _
    exact (inRange_chooseIndex current name).bind fun chosen _ => inRange_ok _

theorem inRange_observeAll (unit : EnumUnit) {instructions : List Instruction}
    (inside : ∀ instruction ∈ instructions, instruction.Inside code) :
    InRange (observeAll source code unit instructions) :=
  InRange.foldlM (motive := fun _ => True) trivial fun progress _ instruction member =>
    ⟨progress.inRange_observe (inside instruction member), fun _ _ => trivial⟩

/-- A site is kept for every instruction, and only loads get an index. -/
theorem sites_of_observeAll {unit : EnumUnit} {instructions : List Instruction}
    {progress : Progress} (fits : source.count < 65536)
    (done : observeAll source code unit instructions = .ok progress) :
    progress.sites.reverse.map (·.instruction) = instructions ∧
      ∀ site ∈ progress.sites.reverse, site.index.isSome →
        Opcode.isLoad site.instruction.opcode = true := by
  obtain ⟨_, sites, _, _, _, held, same, run⟩ := observeAll_run done (.refl source) fits
  have reversed : progress.sites.reverse = sites := by
    rw [held, List.append_nil, List.reverse_reverse]
  rw [reversed]
  exact ⟨same, run.isLoad⟩

end Progress

namespace Site

/-- Whatever is patched, it is a load inside the code. -/
theorem inRange_patchAll {code : ByteArray} {sites : List Site} (tile : Tile code 0 sites)
    (loads : ∀ site ∈ sites, site.index.isSome → Opcode.isLoad site.instruction.opcode = true) :
    InRange (patchAll sites code) := by
  have decoded (site : Site) (member : site ∈ sites) :
      Instruction.decode code site.instruction.offset = .ok site.instruction :=
    (tile_iff.mp tile).decoded _ (List.mem_map_of_mem member)
  obtain ⟨out, done⟩ := exists_patchAll decoded loads rfl
  rw [done]
  exact inRange_ok out

end Site

namespace CodeAttribute

variable {data : ByteArray} {pool : ConstantPool} {relocation : Option Relocation}

theorem inRange_encodeAttribute {item : Attribute} {first : Nat} (inside : item.Inside first data.size)
    (increasing : ∀ found, relocation = some found → found.Increasing) :
    InRange (encodeAttribute data pool relocation item) := by
  have header := inside.header
  have body := inside.body
  have stop := inside.stop
  have ordered : item.range.start ≤ item.range.stop := by omega
  have range : InRange (Access.slice data item.range) :=
    Access.inRange_slice ordered inside.within
  have payload : InRange (Access.slice data item.body) := by
    apply Access.inRange_slice body
    rw [stop]
    exact inside.within
  unfold encodeAttribute
  split
  · exact range
  · rename_i found
    apply (pool.inRange_utf8 item.name).bind
    intro name _
    apply payload.bind
    intro text _
    exact (Relocation.inRange_attributeBody (increasing found rfl) name text).bind
      fun moved _ => inRange_ok _

theorem inRange_encodeException (row : ExceptionRow) :
    InRange (encodeException relocation row) := by
  unfold encodeException
  split
  · exact inRange_ok _
  · rename_i found
    exact (found.inRange_exceptionRow row).bind fun moved _ => inRange_ok _

theorem inRange_encode {source : CodeAttribute} {name : UInt16} {code : ByteArray} {first : Nat}
    (inside : ∀ item ∈ source.attributes, item.Inside first data.size)
    (increasing : ∀ found, relocation = some found → found.Increasing) :
    InRange (source.encode data name pool code relocation) := by
  apply (InRange.mapM fun row _ => inRange_encodeException row).bind
  intro exceptions _
  apply (InRange.mapM fun item member => inRange_encodeAttribute (inside item member) increasing).bind
  intro attributes _
  exact inRange_ok _

end CodeAttribute

namespace ClassLayout

variable {data : ByteArray} {layout : ClassLayout}

theorem count_of_parse (parsed : parse data .full = .ok layout) : layout.pool.count < 65536 := by
  obtain ⟨written, rfl, rfl⟩ := (parse_full_eq_ok _ _).mp parsed
  exact written.fewConstants

theorem inRange_splice (inside : layout.Inside data) {item : Attribute}
    (itemInside : item.Inside layout.poolEnd data.size) (pool : ConstantPool)
    (replacement : ByteArray) : InRange (layout.splice data pool item.range replacement) := by
  have header := inside.header
  have poolEnd := inside.pool
  have start := itemInside.start
  have itemHeader := itemInside.header
  have body := itemInside.body
  have stop := itemInside.stop
  have within := itemInside.within
  apply InRange.ite
  · intro _
    exact inRange_error rfl
  · intro _
    apply (Access.inRange_slice (by omega) (by omega)).bind
    intro first _
    apply (Access.inRange_slice header poolEnd).bind
    intro entries _
    apply (Access.inRange_slice start (by omega)).bind
    intro before _
    exact (Access.inRange_slice within (Nat.le_refl _)).bind fun behind _ => inRange_ok _

theorem inRange_name (layout : ClassLayout) : InRange layout.name :=
  layout.pool.inRange_className layout.thisClass

theorem inRange_superName (layout : ClassLayout) : InRange layout.superName := by
  apply InRange.ite
  · intro _
    exact inRange_ok _
  · intro _
    exact (layout.pool.inRange_className layout.superClass).bind fun name _ => inRange_ok _

theorem inRange_matchesMethod (layout : ClassLayout) (name descriptor : String) (method : Member) :
    InRange (layout.matchesMethod name descriptor method) := by
  apply (layout.pool.inRange_utf8 method.name).bind
  intro found _
  apply InRange.ite
  · intro _
    exact (layout.pool.inRange_utf8 method.descriptor).bind fun text _ => inRange_ok _
  · intro _
    exact inRange_ok _

theorem inRange_findMethod (layout : ClassLayout) (name descriptor : String) :
    InRange (layout.findMethod name descriptor) :=
  InRange.findM? fun numbered _ => layout.inRange_matchesMethod name descriptor numbered.1

theorem inRange_findAttribute (layout : ClassLayout) (member : Member) (name : String) :
    InRange (layout.findAttribute member name) :=
  InRange.findM? fun candidate _ =>
    (layout.pool.inRange_utf8 candidate.name).bind fun _ _ => inRange_ok _

end ClassLayout

namespace EnumUnit

variable {unit : EnumUnit} {data : ByteArray}

theorem inRange_classify (data : ByteArray) : InRange (classify data) := by
  apply (ClassLayout.inRange_parse data .fields).bind
  intro layout _
  apply layout.inRange_superName.bind
  intro superName _
  apply InRange.ite
  · intro _
    exact inRange_ok _
  · intro _
    apply layout.inRange_name.bind
    intro name _
    apply (InRange.mapM fun field _ => layout.pool.inRange_utf8 field.name).bind
    intro constants _
    apply InRange.ite
    · intro _
      exact inRange_ok _
    · intro _
      exact inRange_ok _

theorem inRange_repairCode {code : ByteArray} {sites : List Site} (tile : Site.Tile code 0 sites)
    (loads : ∀ site ∈ sites, site.index.isSome → Opcode.isLoad site.instruction.opcode = true) :
    InRange (unit.repairCode code sites) := by
  apply InRange.ite
  · intro _
    exact (Relocation.inRange_relocate tile).bind fun moved _ => inRange_ok _
  · intro _
    exact (Site.inRange_patchAll tile loads).bind fun patched _ => inRange_ok _

theorem increasing_of_repairCode {code out : ByteArray} {sites : List Site}
    {relocation : Option Relocation} (tile : Site.Tile code 0 sites)
    (loads : ∀ site ∈ sites, site.index.isSome → Opcode.isLoad site.instruction.opcode = true)
    (done : unit.repairCode code sites = .ok (out, relocation)) :
    ∀ found, relocation = some found → found.Increasing := by
  intro found same
  unfold repairCode at done
  split at done
  · obtain ⟨⟨bytes, table⟩, relocated, closed⟩ := bind_eq_ok.mp done
    cases closed
    cases same
    obtain ⟨rfl, _⟩ := Relocation.relocate_eq_ok tile loads relocated
    exact Relocation.increasing_ofSites tile
  · obtain ⟨bytes, _, closed⟩ := bind_eq_ok.mp done
    cases closed
    cases same

theorem inRange_repairInitializer {layout : ClassLayout} {location : Attribute}
    (parsed : ClassLayout.parse data .full = .ok layout)
    (inside : location.Inside layout.poolEnd data.size) :
    InRange (unit.repairInitializer data layout location) := by
  have body := inside.body
  have within : location.body.stop ≤ data.size := inside.stop ▸ inside.within
  apply (CodeAttribute.inRange_parse data location.body).bind
  intro source sourceParsed
  have sourceInside := CodeAttribute.inside_of_parse body within sourceParsed
  have codeWithin := Nat.le_trans sourceInside.within within
  apply (Access.inRange_slice (Nat.le_of_lt sourceInside.filled) codeWithin).bind
  intro code _
  apply (Instruction.inRange_decodeAll code).bind
  intro instructions decoded
  have tiles := Instruction.decodeAll_eq_ok.mp decoded
  have each (instruction : Instruction) (member : instruction ∈ instructions) :
      instruction.Inside code := Instruction.inside_of_decode (tiles.decoded instruction member)
  apply (Progress.inRange_observeAll unit each).bind
  intro progress observed
  apply progress.machine.inRange_finish.bind
  intro substitutions _
  obtain ⟨same, loads⟩ := Progress.sites_of_observeAll (ClassLayout.count_of_parse parsed) observed
  have tile : Site.Tile code 0 progress.sites.reverse := Site.tile_iff.mpr (same ▸ tiles)
  apply InRange.ite
  · intro _
    exact inRange_ok _
  · intro _
    apply (inRange_repairCode tile loads).bind
    rintro ⟨out, relocation⟩ repaired
    have items (item : Attribute) (member : item ∈ source.attributes) :=
      (sourceInside.attributes item member).mono within
    have increasing := increasing_of_repairCode tile loads repaired
    apply (CodeAttribute.inRange_encode items increasing).bind
    intro replacement _
    have layoutInside := ClassLayout.inside_of_parse parsed
    exact (ClassLayout.inRange_splice layoutInside inside _ replacement).bind
      fun bytes _ => inRange_ok _

theorem inRange_repair (unit : EnumUnit) (data : ByteArray) : InRange (unit.repair data) := by
  apply (ClassLayout.inRange_parse data .full).bind
  intro layout parsed
  apply (layout.inRange_findMethod initializerName initializerDescriptor).bind
  intro method found
  cases method with
  | none =>
    exact (Construction.inRange_finish _).bind fun substitutions _ => inRange_ok _
  | some numbered =>
    apply (layout.inRange_findAttribute numbered.1 "Code").bind
    intro location located
    cases location with
    | none => exact inRange_error rfl
    | some location =>
      obtain ⟨left, right, methods, _⟩ := ClassLayout.findMethod_eq_some.mp found
      obtain ⟨before, after, attributes, _⟩ := findM?_eq_some.mp located
      have member : numbered.1 ∈ layout.fields ++ layout.methods := by simp [methods]
      have mine : location ∈ numbered.1.attributes := by simp [attributes]
      have among := List.mem_flatMap.mpr ⟨_, member, mine⟩
      exact inRange_repairInitializer parsed
        ((ClassLayout.inside_of_parse parsed).attributes location among)

end EnumUnit

/-- Every attribute of a class is read as the body of a method and is replaced in range; what is left
of the class without it is no negative number of bytes. -/
structure ClassLayout.Usable (layout : ClassLayout) (data : ByteArray) : Prop where
  inside : layout.Inside data
  read : ∀ item ∈ layout.attributes, InRange (CodeAttribute.parse data item.body) ∧
    ∀ source, CodeAttribute.parse data item.body = .ok source → source.Inside item.body
  replaced : ∀ item ∈ layout.attributes, item.range.length ≤ data.size ∧
    ∀ pool replacement, InRange (layout.splice data pool item.range replacement)

theorem ClassLayout.usable_of_parse {data : ByteArray} {depth : Depth} {layout : ClassLayout}
    (parsed : parse data depth = .ok layout) : layout.Usable data := by
  have inside := inside_of_parse parsed
  refine ⟨inside, fun item member => ⟨CodeAttribute.inRange_parse data item.body, ?_⟩,
    fun item member => ⟨?_, inRange_splice inside (inside.attributes item member)⟩⟩
  · have found := inside.attributes item member
    exact fun source => CodeAttribute.inside_of_parse found.body (found.stop ▸ found.within)
  · have within := (inside.attributes item member).within
    unfold Span.length
    omega

/-- A relocation moves exception rows and attributes of all kinds in range. -/
structure Relocation.Usable (relocation : Relocation) : Prop where
  increasing : relocation.Increasing
  rows : ∀ row, InRange (relocation.exceptionRow row)
  bodies : ∀ name body, InRange (relocation.attributeBody name body)

/-- Sites are put into their code in range, whether it is patched or relocated. Every site has a new
start, and the relocated code has the length that was foreseen. -/
structure Site.Usable (unit : String) (code : ByteArray) (sites : List Site) : Prop where
  placed : (Site.place sites).1.map (·.site) = sites
  patched : InRange (Site.patchAll sites code)
  relocated : InRange (Relocation.relocate unit code sites)
  moved : ∀ out relocation, Relocation.relocate unit code sites = .ok (out, relocation) →
    out.size = relocation.newLength ∧ relocation.Usable

theorem Site.usable_of_tile {unit : String} {code : ByteArray} {sites : List Site}
    (tile : Tile code 0 sites)
    (loads : ∀ site ∈ sites, site.index.isSome → Opcode.isLoad site.instruction.opcode = true) :
    Usable unit code sites := by
  refine ⟨map_site_place sites, inRange_patchAll tile loads, Relocation.inRange_relocate tile, ?_⟩
  intro out relocation relocated
  obtain ⟨rfl, _, size, _⟩ := Relocation.relocate_eq_ok tile loads relocated
  have increasing : (Relocation.ofSites unit sites).Increasing := Relocation.increasing_ofSites tile
  exact ⟨size, increasing, Relocation.inRange_exceptionRow _,
    Relocation.inRange_attributeBody increasing⟩

theorem Step.countP_forwarded (steps : List Step) :
    (forwarded steps).countP (· != .forward) = 0 := by
  simp [forwarded]

/-- Every group has one substitution. -/
theorem Completed.countP_substitutes {unit : EnumUnit} {names : List String} {steps : List Step}
    {actions : List Action} (completed : Completed unit names steps actions) :
    actions.countP (· != .forward) = names.length := by
  induction completed with
  | none => rfl
  | next earlier quiet group inductionHypothesis =>
    simp [inductionHypothesis, Step.countP_forwarded, Group.actions]

theorem EnumUnit.countP_substitutes {unit : EnumUnit} {steps : List Step} {count : Nat}
    {actions : List Action} (done : unit.construct steps = .ok (count, actions)) :
    actions.countP (· != .forward) = count := by
  obtain ⟨accepts, rfl⟩ := construct_eq_ok_iff.mp done
  cases accepts with
  | intro completed closed =>
    rw [List.countP_append, completed.countP_substitutes, Step.countP_forwarded, Nat.add_zero]

/-- Whatever the bytes, the enum, the code and the attributes are, nothing is looked up outside the
bytes it is looked up in, and no difference falls below zero. -/
theorem EnumUnit.never_overruns (unit : EnumUnit) (data : ByteArray) :
    InRange (classify data) ∧ InRange (unit.repair data) ∧
    (∀ depth, InRange (ClassLayout.parse data depth) ∧
      ∀ layout, ClassLayout.parse data depth = .ok layout → layout.Usable data) ∧
    (∀ code, InRange (Instruction.decodeAll code) ∧
      ∀ instructions, Instruction.decodeAll code = .ok instructions →
        (∀ instruction ∈ instructions, instruction.Inside code) ∧
        ∀ sites : List Site, sites.map (·.instruction) = instructions →
          (∀ site ∈ sites, site.index.isSome →
            Opcode.isLoad site.instruction.opcode = true) → Site.Usable unit.name code sites) ∧
    (∀ steps machine actions, (Construction.start unit).run steps = .ok (machine, actions) →
      machine.Located unit) ∧
    (∀ steps count actions, unit.construct steps = .ok (count, actions) →
      actions.countP (· != .forward) = count) ∧
    ∀ distance frame, Frame.read.Gives (distance, frame) → frame.FitsTag := by
  refine ⟨inRange_classify data, inRange_repair unit data, fun depth => ?_, fun code => ?_, ?_, ?_, ?_⟩
  · exact ⟨ClassLayout.inRange_parse data depth, fun layout => ClassLayout.usable_of_parse⟩
  · refine ⟨Instruction.inRange_decodeAll code, fun instructions decoded => ?_⟩
    have tiles := Instruction.decodeAll_eq_ok.mp decoded
    refine ⟨fun instruction member => ?_, fun sites same loads => ?_⟩
    · exact Instruction.inside_of_decode (tiles.decoded instruction member)
    · exact Site.usable_of_tile (Site.tile_iff.mpr (same ▸ tiles)) loads
  · intro steps machine actions
    exact Construction.located_of_run
  · intro steps count actions
    exact countP_substitutes
  · intro distance frame
    exact Frame.fitsTag_of_gives

/-- The method of the class is read as it stands. In some other code a load is widened, a machine
waits for its literal, another one has seen a whole group, and a frame drops one local. -/
theorem EnumUnit.never_overruns_example :
    let data := exampleClass 14 [] 11
    let item : Attribute := ⟨9, ⟨116, 143⟩, ⟨122, 143⟩⟩
    let source : CodeAttribute := ⟨2, 0, ⟨130, 139⟩, [], []⟩
    let code : ByteArray := ⟨#[0x12, 5, 0xB1]⟩
    let sites : List Site := [⟨⟨0, 0x12, 2, by decide⟩, some 300⟩, ⟨⟨2, 0xB1, 1, by decide⟩, none⟩]
    let steps : List Step := [.allocate "E", .load (.string "X"), exampleUnit.storeOf "A"]
    let actions : List Action := [.forward, .substitute "A", .forward]
    (∃ layout, ClassLayout.parse data .full = .ok layout ∧ item ∈ layout.attributes ∧
      CodeAttribute.parse data item.body = .ok source ∧ source.Inside item.body) ∧
    Instruction.decodeAll code = .ok (sites.map (·.instruction)) ∧
    (∃ out relocation, Relocation.relocate exampleUnit.name code sites = .ok (out, relocation) ∧
      relocation.Usable) ∧
    (∃ machine, (Construction.start exampleUnit).run [.allocate "E"] = .ok (machine, [.forward]) ∧
      machine.phase = .awaitingLiteral "A" ∧ machine.Located exampleUnit) ∧
    exampleUnit.construct steps = .ok (1, actions) ∧ actions.countP (· != .forward) = 1 ∧
    Frame.read.Gives (0, .chop 1) ∧ (Frame.chop 1).FitsTag := by
  intro data item source code sites steps actions
  obtain ⟨_, _, classes, codes, runs, constructs, frames⟩ := never_overruns exampleUnit data
  have searched : (ClassLayout.parse data .full).map (·.attributes) = .ok [item] := by
    decide +kernel
  have read : CodeAttribute.parse data item.body = .ok source := by decide +kernel
  have decoded : Instruction.decodeAll code = .ok (sites.map (·.instruction)) :=
    Instruction.decodeAll_eq_ok.mpr (.step rfl (.step rfl .done))
  have widened : (Relocation.relocate exampleUnit.name code sites).isOk = true := by decide +kernel
  have constructed : exampleUnit.construct steps = .ok (1, actions) := by decide +kernel
  have chopped : Frame.read.Gives (0, .chop 1) := ⟨.start ⟨#[250, 0, 0]⟩, _, rfl⟩
  refine ⟨?_, decoded, ?_, ?_, constructed, constructs _ _ _ constructed, chopped,
    frames _ _ chopped⟩
  · cases parsed : ClassLayout.parse data .full with
    | error failure =>
      rw [parsed] at searched
      cases searched
    | ok layout =>
      rw [parsed] at searched
      have attributes : layout.attributes = [item] := Except.ok.inj searched
      have member : item ∈ layout.attributes := by simp [attributes]
      have usable := (classes .full).2 layout parsed
      exact ⟨layout, rfl, member, read, (usable.read item member).2 source read⟩
  · cases relocated : Relocation.relocate exampleUnit.name code sites with
    | error failure =>
      rw [relocated] at widened
      cases widened
    | ok result =>
      obtain ⟨out, relocation⟩ := result
      have usable := ((codes code).2 _ decoded).2 sites rfl (by decide)
      exact ⟨out, relocation, rfl, (usable.moved out relocation relocated).2⟩
  · have waiting : (Construction.start exampleUnit).run [.allocate "E"] =
        .ok (⟨exampleUnit, 0, ["A"], .awaitingLiteral "A"⟩, [.forward]) := rfl
    exact ⟨_, waiting, rfl, runs _ _ _ waiting⟩

end EnumNames
