import EnumNames.Proofs.ClassFile.InternedStrings
import EnumNames.Proofs.EnumUnit.MatchingLiterals

/-!
What a repair adds to the pool of a class. The names of the constants are texts of the pool already,
so only strings are appended: one for each name that a changed literal needs and that no string of
the pool resolves to. Unless a load grows, the class grows by these strings alone.
-/

namespace EnumNames

namespace Progress

variable {source pool next : ConstantPool} {code : ByteArray}

theorem chooseIndex_interned {current : UInt16} {value name : String} {index : Option UInt16}
    (present : source.stringValue current = .ok (some value))
    (done : chooseIndex source pool current name = .ok (next, index)) :
    value = name ∧ next = pool ∨
      value ≠ name ∧ ∃ target, ConstantPool.intern name pool = .ok target next := by
  obtain ⟨found, read, done⟩ := bind_eq_ok.mp done
  cases present.symm.trans read
  split at done
  · rename_i same
    cases done
    exact .inl ⟨Option.some.inj same, rfl⟩
  · rename_i different
    split at done
    · rename_i target grown interned
      cases done
      exact .inr ⟨fun same => different (congrArg some same), target, interned⟩
    · cases done

/-- The names that are interned are those of the substitutions that change a literal. -/
def changedNames (source : ConstantPool) (code : ByteArray) (found : List Substitution) :
    List String :=
  (found.filter (·.differs source code)).map (·.name)

theorem mem_changedNames {found : List Substitution} {name : String} :
    name ∈ changedNames source code found ↔
      ∃ load ∈ found, load.name = name ∧ load.differs source code = true := by
  simp only [changedNames, List.mem_map, List.mem_filter]
  constructor
  · rintro ⟨load, ⟨member, differs⟩, same⟩
    exact ⟨load, member, same, differs⟩
  · rintro ⟨load, member, same, differs⟩
    exact ⟨load, ⟨member, differs⟩, same⟩

theorem changedNames_eq_nil {found : List Substitution}
    (none : found.countP (·.differs source code) = 0) : changedNames source code found = [] := by
  rw [changedNames, List.map_eq_nil_iff, List.filter_eq_nil_iff]
  exact List.countP_eq_zero.mp none

/-- The induction is on the instructions; the pool of the rest is the one behind the first. -/
theorem observeAll_interned {progress final : Progress} {instructions : List Instruction}
    (done : instructions.foldlM (observe source code) progress = .ok final) :
    ∃ found, progress.machine.observeAll source code instructions = .ok (final.machine, found) ∧
      progress.pool.Interned (changedNames source code found) final.pool := by
  induction instructions generalizing progress with
  | nil =>
    cases done
    exact ⟨[], rfl, .none _⟩
  | cons instruction rest inductionHypothesis =>
    obtain ⟨middle, first, later⟩ := bind_eq_ok.mp done
    obtain ⟨found, run, interned⟩ := inductionHypothesis later
    obtain ⟨step, taken, first⟩ := bind_eq_ok.mp first
    obtain ⟨⟨machine, action⟩, observed, first⟩ := bind_eq_ok.mp first
    cases action with
    | forward =>
      cases first
      exact ⟨found, bind_eq_ok.mpr ⟨_, taken, bind_eq_ok.mpr ⟨_, observed,
        bind_eq_ok.mpr ⟨_, run, rfl⟩⟩⟩, interned⟩
    | substitute name =>
      obtain ⟨current, read, first⟩ := bind_eq_ok.mp first
      obtain ⟨⟨pool, index⟩, choice, same⟩ := bind_eq_ok.mp first
      cases same
      obtain ⟨_, ⟨value, rfl⟩, _⟩ := Construction.observe_substitute observed
      obtain ⟨_, other, otherRead, present⟩ := Step.ofInstruction_eq_string taken
      cases otherRead.symm.trans read
      have literal : (Substitution.mk instruction name).literal source code = .ok (some value) :=
        bind_eq_ok.mpr ⟨current, read, present⟩
      have differs : (Substitution.mk instruction name).differs source code = (value != name) := by
        rw [Substitution.differs, literal]
      refine ⟨⟨instruction, name⟩ :: found, bind_eq_ok.mpr ⟨_, taken, bind_eq_ok.mpr ⟨_, observed,
        bind_eq_ok.mpr ⟨_, run, rfl⟩⟩⟩, ?_⟩
      rw [changedNames, List.filter_cons, differs]
      rcases chooseIndex_interned present choice with ⟨rfl, rfl⟩ | ⟨different, target, head⟩
      · rw [bne_self_eq_false, if_neg Bool.false_ne_true]
        exact interned
      · rw [if_pos (bne_iff_ne.mpr different), List.map_cons]
        exact .next head interned

/-- A run that changes no literal leaves the pool alone. -/
theorem pool_of_unchanged {unit : EnumUnit} {progress : Progress} {instructions : List Instruction}
    (observed : observeAll source code unit instructions = .ok progress)
    (fits : source.count < 65536) (unchanged : progress.sites.countP (·.index.isSome) = 0) :
    progress.pool = source := by
  obtain ⟨_, sites, wanted, _, _, held, same, run⟩ := observeAll_run observed (.refl _) fits
  obtain ⟨found, observedAll, interned⟩ := observeAll_interned observed
  have sameRun := run.observeAll
  rw [same] at sameRun
  cases sameRun.symm.trans observedAll
  rw [held, List.append_nil, List.countP_reverse, run.countP_isSome] at unchanged
  rw [changedNames_eq_nil unchanged] at interned
  exact interned.eq_of_nil

end Progress

namespace EnumUnit

/-- An enum has constants, and each of them has its name among the texts of the pool. -/
theorem constants_of_ofLayout? {layout : ClassLayout} {unit : EnumUnit}
    (done : ofLayout? layout = .ok (some unit)) : unit.constants ≠ [] ∧
      ∀ name ∈ unit.constants, ∃ text, layout.pool.utf8 text = .ok name := by
  obtain ⟨parent, _, done⟩ := bind_eq_ok.mp done
  split at done
  · cases done
  · obtain ⟨name, _, done⟩ := bind_eq_ok.mp done
    obtain ⟨constants, read, done⟩ := bind_eq_ok.mp done
    split at done
    · cases done
    · rename_i filled
      cases done
      refine ⟨fun empty => filled (List.isEmpty_iff.mpr empty), ?_⟩
      exact forall_mem_of_forall₂ (mapM_eq_ok.mp read) fun field _ found => ⟨field.name, found⟩

/-- A name that a changed literal needs is the name of a constant, and so a text of the pool. -/
theorem exists_text_of_changed {layout : ClassLayout} {unit : EnumUnit} {source : ConstantPool}
    {code : ByteArray} {instructions : List Instruction} {wanted : List Substitution} {name : String}
    (found : ofLayout? layout = .ok (some unit))
    (accepted : unit.substitutions source code instructions = .ok wanted)
    (changed : name ∈ Progress.changedNames source code wanted) :
    ∃ text, layout.pool.utf8 text = .ok name := by
  obtain ⟨load, member, rfl, _⟩ := Progress.mem_changedNames.mp changed
  refine (constants_of_ofLayout? found).2 _ ?_
  rw [← substitutions_names accepted]
  exact List.mem_map_of_mem member

/-- A class with enum constants is repaired in its static initializer. -/
theorem exists_initializer {unit : EnumUnit} {data : ByteArray} {repaired : Repaired}
    (classified : classify data = .ok (some unit)) (done : unit.repair data = .ok repaired) :
    Nonempty (StaticInitializer data) := by
  obtain ⟨_, _, _, bare⟩ | initializer := repair_cases done
  · obtain ⟨count, finished, _⟩ := bind_eq_ok.mp bare
    obtain ⟨layout, _, classified⟩ := bind_eq_ok.mp classified
    have none : 0 = unit.constants.length := (Construction.finish_eq_ok finished).1
    exact absurd (List.length_eq_zero_iff.mp none.symm) (constants_of_ofLayout? classified).1
  · exact initializer

end EnumUnit

/-- A pool is read behind the header of a class from its count and its constants. -/
theorem ConstantPool.read_behind {header : ByteArray} {constants : List WrittenConstant}
    (rest : ByteArray) (size : header.size = 8)
    (fits : (ofConstants constants).count < 65536) :
    let data := header ++ (BigEndian.encodeCount (ofConstants constants).count ++
      (WrittenConstant.encode constants ++ rest))
    read ⟨data, 8⟩ = .ok (ofConstants constants)
      ⟨data, 10 + (WrittenConstant.encode constants).size⟩ := by
  intro data
  have start : (⟨data, 8⟩ : Cursor) =
      .between header (BigEndian.encodeCount (ofConstants constants).count ++
        (WrittenConstant.encode constants ++ rest)) := by
    rw [Cursor.between, size]
  rw [start]
  refine (takes_read _ _ _ _).mpr
    ⟨_, rest, (ByteArray.append_assoc ..).symm, ?_, constants, rfl, fits, rfl⟩
  simp only [data, Cursor.between, ByteArray.append_assoc, ByteArray.size_append, size,
    BigEndian.size_encodeCount]
  rw [← Nat.add_assoc]

namespace StaticInitializer

variable {unit : EnumUnit} {data : ByteArray} {repaired : Repaired}

/-- The pool of a class grows by strings over some texts. In front of the `Code` attribute of the
static initializer only the count and these strings are written anew, and behind it nothing is. -/
structure GrowsBy (before : StaticInitializer data) (texts : List UInt16) (out new : ByteArray) :
    Prop where
  fits : before.layout.pool.count + texts.length < 65536
  read : ConstantPool.read ⟨data, 8⟩ = .ok before.layout.pool ⟨data, before.layout.poolEnd⟩
  grown : ConstantPool.read ⟨out, 8⟩ = .ok
    ⟨before.layout.pool.slots ++ (texts.map fun text => some (.string text)).toArray, .empty⟩
    ⟨out, before.layout.poolEnd + 3 * texts.length⟩
  pieces : ∃ header entries opening old closing : ByteArray,
    header.size = 8 ∧ before.layout.poolEnd = 10 + entries.size ∧
    before.location.range.start = before.layout.poolEnd + opening.size ∧
    Access.slice data before.location.range = .ok old ∧
    data = header ++ (BigEndian.encodeCount before.layout.pool.count ++
      (entries ++ (opening ++ (old ++ closing)))) ∧
    out = header ++ (BigEndian.encodeCount (before.layout.pool.count + texts.length) ++
      (entries ++ (ConstantPool.encodeStrings texts ++ (opening ++ (new ++ closing)))))

theorem GrowsBy.size_eq {before : StaticInitializer data} {texts : List UInt16}
    {out new old : ByteArray} (growth : before.GrowsBy texts out new)
    (sliced : Access.slice data before.location.range = .ok old) (same : new.size = old.size) :
    out.size = data.size + 3 * texts.length := by
  obtain ⟨header, entries, opening, found, closing, _, _, _, foundSliced, whole, grown⟩ :=
    growth.pieces
  cases sliced.symm.trans foundSliced
  have size := congrArg ByteArray.size whole
  have outSize := congrArg ByteArray.size grown
  simp only [ByteArray.size_append, BigEndian.size_encodeCount, ConstantPool.size_encodeStrings]
    at size outSize
  omega

/-- The new pool is read from the old constants and the strings behind them. -/
theorem growsBy_of_withStrings {form : InitializerForm}
    {initializer : StaticInitializer form.toClass.encode} {pool : ConstantPool}
    {added : List WrittenConstant} {fresh : List String} {texts : List UInt16} {new : ByteArray}
    (layout : initializer.layout = form.toClass.layout)
    (location : initializer.location = form.item.place form.itemStart)
    (appended : ConstantPool.Appended form.front.pool pool added) (fits : pool.count < 65536)
    (grown : ConstantPool.WithStrings form.front.pool pool fresh texts) :
    initializer.GrowsBy texts (form.front.encodeHeader ++ (BigEndian.encodeCount pool.count ++
      (WrittenConstant.encode form.front.constants ++ (pool.appended ++
        (form.opening ++ (new ++ form.closing)))))) new := by
  have header := form.front.size_encodeHeader
  have slots : pool.slots = (ConstantPool.ofConstants (form.front.constants ++ added)).slots :=
    appended.slots
  have count : pool.count = (ConstantPool.ofConstants (form.front.constants ++ added)).count :=
    congrArg Array.size slots
  have strings : pool.appended = ConstantPool.encodeStrings texts := by
    rw [grown.appended]
    exact ByteArray.empty_append
  have tail : WrittenConstant.encode added = ConstantPool.encodeStrings texts := by
    rw [← strings, appended.2]
    exact ByteArray.empty_append.symm
  have longer : pool.count = form.front.pool.count + texts.length := by
    have length := congrArg List.length grown.slots
    rwa [List.length_append, List.length_map, Array.length_toList, Array.length_toList] at length
  have pieces : form.toClass.encode = form.front.encodeHeader ++
      (BigEndian.encodeCount form.front.pool.count ++ (WrittenConstant.encode form.front.constants ++
        (form.opening ++ (form.item.encode ++ form.closing)))) := by
    rw [form.encode_toClass, ClassFront.encodePool, ByteArray.append_assoc]
  refine ⟨?_, ?_, ?_, ?_⟩
  · rw [longer] at fits
    rw [layout]
    exact fits
  · have read := ConstantPool.read_behind (form.opening ++ (form.item.encode ++ form.closing)) header
      form.front.fewConstants
    rw [layout, pieces]
    exact read
  · have read := ConstantPool.read_behind (form.opening ++ (new ++ form.closing)) header
      (count ▸ fits)
    have found : (⟨initializer.layout.pool.slots ++
        (texts.map fun text => some (.string text)).toArray, .empty⟩ : ConstantPool) =
          .ofConstants (form.front.constants ++ added) := by
      have all : initializer.layout.pool.slots ++
          (texts.map fun text => some (.string text)).toArray = pool.slots := by
        rw [layout]
        apply Array.toList_inj.mp
        rw [grown.slots, Array.toList_append]
        rfl
      rw [all, slots]
      rfl
    have stop : initializer.layout.poolEnd + 3 * texts.length =
        10 + (WrittenConstant.encode (form.front.constants ++ added)).size := by
      rw [layout, WrittenConstant.encode_append, tail, ByteArray.size_append,
        ConstantPool.size_encodeStrings, ← Nat.add_assoc]
      rfl
    rw [found, stop, count, strings, ← tail]
    rw [WrittenConstant.encode_append, ByteArray.append_assoc] at read
    rw [WrittenConstant.encode_append]
    exact read
  · refine ⟨_, WrittenConstant.encode form.front.constants, form.opening, form.item.encode,
      form.closing, header, ?_, ?_, ?_, ?_, ?_⟩
    · rw [layout]
      rfl
    · rw [layout, location]
      rfl
    · rw [location]
      exact form.slice_item
    · rw [layout]
      exact pieces
    · rw [longer, strings, layout]
      rfl

/-- A repair puts the class together around the pool at the end of its run. -/
theorem exists_replacement {form : InitializerForm}
    {initializer : StaticInitializer form.toClass.encode} {progress : Progress}
    (layout : initializer.layout = form.toClass.layout)
    (location : initializer.location = form.item.place form.itemStart)
    (source : initializer.source = form.body.place (form.itemStart + 6))
    (code : initializer.code = form.body.code)
    (observed : Progress.observeAll initializer.layout.pool initializer.code unit
      initializer.instructions = .ok progress)
    (unchanged : progress.sites.countP (·.index.isSome) = 0 → progress.pool = form.front.pool)
    (done : initializer.repair unit = .ok repaired) :
    ∃ new, repaired.bytes = form.front.encodeHeader ++
        (BigEndian.encodeCount progress.pool.count ++
          (WrittenConstant.encode form.front.constants ++ (progress.pool.appended ++
            (form.opening ++ (new ++ form.closing))))) ∧
      (progress.sites.any Site.isWidened = false → new.size = form.item.encode.size) := by
  obtain ⟨other, same, done⟩ := bind_eq_ok.mp done
  cases observed.symm.trans same
  obtain ⟨substitutions, finished, done⟩ := bind_eq_ok.mp done
  dsimp only at done
  rw [List.countP_reverse] at done
  split at done
  · rename_i zero
    cases done
    refine ⟨form.item.encode, ?_, fun _ => rfl⟩
    rw [unchanged zero]
    change form.toClass.encode = form.front.encodeHeader ++ (_ ++ (_ ++ (.empty ++ _)))
    rw [form.encode_toClass, ByteArray.empty_append, ClassFront.encodePool, ByteArray.append_assoc]
  · obtain ⟨⟨out, relocation⟩, coded, done⟩ := bind_eq_ok.mp done
    obtain ⟨replacement, encoded, done⟩ := bind_eq_ok.mp done
    obtain ⟨bytes, spliced, made⟩ := bind_eq_ok.mp done
    cases made
    rw [layout, location] at spliced
    refine ⟨replacement, (InitializerFrame.splice_eq_append spliced).2, fun narrow => ?_⟩
    obtain ⟨rfl, size⟩ := EnumUnit.repairCode_inPlace (List.any_reverse.trans narrow) coded
    rw [code] at size
    rw [source] at encoded
    rw [CodeAttribute.size_encode_none form.stands_body size encoded, WrittenAttribute.size_encode,
      form.written]

end StaticInitializer

namespace EnumUnit

/-- A repair of an enum adds nothing but strings to its pool: one for each name that a changed
literal needs and that no string resolves to, over the first text that equals the name. Unless a load
grows, the class grows by three bytes for each of them. -/
theorem repair_grows_by_strings {unit : EnumUnit} {data : ByteArray} {repaired : Repaired}
    (classified : classify data = .ok (some unit)) (done : unit.repair data = .ok repaired) :
    ∃ (before : StaticInitializer data) (wanted : List Substitution) (fresh : List String)
      (texts : List UInt16) (new : ByteArray),
      unit.substitutions before.layout.pool before.code before.instructions = .ok wanted ∧
      fresh.Nodup ∧
      (∀ name, name ∈ fresh ↔
        (∃ load ∈ wanted, load.name = name ∧ load.differs before.layout.pool before.code) ∧
          ∀ index, before.layout.pool.stringValue index ≠ .ok (some name)) ∧
      List.Forall₂ before.layout.pool.FirstText fresh texts ∧
      before.GrowsBy texts repaired.bytes new ∧
      ∀ progress, Progress.observeAll before.layout.pool before.code unit before.instructions =
        .ok progress → progress.sites.any Site.isWidened = false →
          repaired.bytes.size = data.size + 3 * fresh.length := by
  obtain ⟨initializer⟩ := exists_initializer classified done
  rw [repair_eq unit initializer] at done
  obtain ⟨form, rfl, layout, location, source, code⟩ := InitializerForm.exists_form initializer
  obtain ⟨progress, observed, rest⟩ := bind_eq_ok.mp done
  obtain ⟨substitutions, finished, _⟩ := bind_eq_ok.mp rest
  have fits : initializer.layout.pool.count < 65536 := by
    rw [layout]
    exact form.front.fewConstants
  obtain ⟨added, _, _, appended, room, _⟩ := Progress.observeAll_run observed (.refl _) fits
  obtain ⟨wanted, observedAll, interned⟩ := Progress.observeAll_interned observed
  have accepted : unit.substitutions initializer.layout.pool initializer.code
      initializer.instructions = .ok wanted :=
    bind_eq_ok.mpr ⟨_, observedAll, bind_eq_ok.mpr ⟨_, finished, rfl⟩⟩
  have present : ∀ name ∈ Progress.changedNames initializer.layout.pool initializer.code wanted,
      ∃ text, initializer.layout.pool.utf8 text = .ok name := by
    rw [classify_toClass] at classified
    intro name changed
    rw [layout]
    exact exists_text_of_changed classified accepted changed
  obtain ⟨fresh, texts, grown, _, needed⟩ := interned.withStrings (.refl _) fits present
  rw [List.nil_append, List.nil_append] at grown
  have unchanged (zero : progress.sites.countP (·.index.isSome) = 0) :
      progress.pool = form.front.pool := by
    rw [Progress.pool_of_unchanged observed fits zero, layout]
    rfl
  obtain ⟨new, bytes, size⟩ :=
    StaticInitializer.exists_replacement layout location source code observed unchanged done
  have growth : initializer.GrowsBy texts repaired.bytes new := by
    rw [layout] at appended grown
    rw [bytes]
    exact StaticInitializer.growsBy_of_withStrings layout location appended room grown
  refine ⟨initializer, wanted, fresh, texts, new, accepted, grown.nodup, ?_, grown.first, growth, ?_⟩
  · intro name
    rw [← Progress.mem_changedNames, ← not_exists]
    have needed := needed name
    rwa [List.nil_append, or_iff_right List.not_mem_nil] at needed
  · intro other same narrow
    cases observed.symm.trans same
    rw [grown.first.length_eq]
    refine growth.size_eq ?_ (size narrow)
    rw [location]
    exact form.slice_item

theorem repair_grows_by_strings_example :
    let data := exampleClass 14 [] 11
    let repaired : Repaired := ⟨exampleClass 15 [8, 0, 5] 14, 1, 1⟩
    classify data = .ok (some exampleUnit) ∧ exampleUnit.repair data = .ok repaired ∧
      ∃ (before : StaticInitializer data) (wanted : List Substitution) (fresh : List String)
        (texts : List UInt16) (new : ByteArray),
        exampleUnit.substitutions before.layout.pool before.code before.instructions =
          .ok wanted ∧
        fresh.Nodup ∧
        (∀ name, name ∈ fresh ↔
          (∃ load ∈ wanted, load.name = name ∧ load.differs before.layout.pool before.code) ∧
            ∀ index, before.layout.pool.stringValue index ≠ .ok (some name)) ∧
        List.Forall₂ before.layout.pool.FirstText fresh texts ∧
        before.GrowsBy texts repaired.bytes new ∧
        ∀ progress, Progress.observeAll before.layout.pool before.code exampleUnit
          before.instructions = .ok progress → progress.sites.any Site.isWidened = false →
            repaired.bytes.size = data.size + 3 * fresh.length := by
  intro data repaired
  have classified : classify data = .ok (some exampleUnit) := by decide +kernel
  exact ⟨classified, repair_exampleClass, repair_grows_by_strings classified repair_exampleClass⟩

end EnumUnit

end EnumNames
