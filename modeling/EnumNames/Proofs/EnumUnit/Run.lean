import EnumNames.Proofs.EnumUnit.Observation

/-!
The run of a repair over the instructions of a static initializer. The run chooses an index for
every load whose literal differs from its name, and a second run has nothing left to choose.
-/

namespace EnumNames

namespace Progress

/-- A load that yields its name keeps its index; the index of any other load yields the name. -/
def Chosen (pool : ConstantPool) (value name : String) : Option UInt16 → Prop
  | none => value = name
  | some index => value ≠ name ∧ pool.stringValue index = .ok (some name)

/-- The machine runs over the sites. The pool is the one at the end of the run, in which all the
chosen indices are found. -/
inductive Run (source pool : ConstantPool) (code : ByteArray) :
    Construction → List Site → List Substitution → Construction → Prop where
  | done (machine : Construction) : Run source pool code machine [] [] machine
  | forward {machine next last : Construction} {instruction : Instruction} {step : Step}
      {sites : List Site} {found : List Substitution}
      (taken : Step.ofInstruction source code instruction = .ok step)
      (observed : machine.observe step = .ok (next, .forward))
      (rest : Run source pool code next sites found last) :
      Run source pool code machine (⟨instruction, none⟩ :: sites) found last
  | substitute {machine next last : Construction} {instruction : Instruction}
      {value name : String} {index : Option UInt16} {sites : List Site}
      {found : List Substitution}
      (taken : Step.ofInstruction source code instruction = .ok (.load (.string value)))
      (observed : machine.observe (.load (.string value)) = .ok (next, .substitute name))
      (chosen : Chosen pool value name index)
      (rest : Run source pool code next sites found last) :
      Run source pool code machine (⟨instruction, index⟩ :: sites) (⟨instruction, name⟩ :: found)
        last

variable {source pool : ConstantPool} {code out : ByteArray}

theorem Chosen.mono {later : ConstantPool} {value name : String} {index : Option UInt16}
    (extension : later.Extends pool) (chosen : Chosen pool value name index) :
    Chosen later value name index := by
  cases index with
  | none => exact chosen
  | some index => exact ⟨chosen.1, extension.stringValue chosen.2⟩

/-- The present index is never chosen again, since it keeps its value. -/
theorem chooseIndex_eq_ok {next : ConstantPool} {current : UInt16} {value name : String}
    {index : Option UInt16} (extension : pool.Extends source) (fits : pool.count < 65536)
    (present : source.stringValue current = .ok (some value))
    (done : chooseIndex source pool current name = .ok (next, index)) :
    ∃ constants, ConstantPool.Appended pool next constants ∧ next.count < 65536 ∧
      Chosen next value name index := by
  obtain ⟨found, read, done⟩ := bind_eq_ok.mp done
  cases present.symm.trans read
  split at done
  · rename_i same
    cases done
    exact ⟨[], .none _, fits, Option.some.inj same⟩
  · rename_i different
    split at done
    · rename_i target grown interned
      cases done
      obtain ⟨constants, appended, room, yields⟩ := ConstantPool.intern_eq_ok fits interned
      have other : value ≠ name := fun same => different (congrArg some same)
      have moved : target ≠ current := by
        rintro rfl
        have kept := (appended.extension.trans extension).stringValue present
        rw [yields] at kept
        exact other (Option.some.inj (Except.ok.inj kept)).symm
      rw [if_neg moved]
      exact ⟨constants, appended, room, other, yields⟩
    · cases done

/-- The induction is on the instructions; the pool grows with every step and stays below its
limit. -/
theorem observeAll_run {progress final : Progress} {instructions : List Instruction}
    (done : instructions.foldlM (observe source code) progress = .ok final)
    (extension : progress.pool.Extends source) (fits : progress.pool.count < 65536) :
    ∃ constants sites found, ConstantPool.Appended progress.pool final.pool constants ∧
      final.pool.count < 65536 ∧ final.sites = sites.reverse ++ progress.sites ∧
      sites.map (·.instruction) = instructions ∧
      Run source final.pool code progress.machine sites found final.machine := by
  induction instructions generalizing progress with
  | nil =>
    cases done
    exact ⟨[], [], [], .none _, fits, rfl, rfl, .done _⟩
  | cons instruction rest inductionHypothesis =>
    obtain ⟨middle, first, later⟩ := bind_eq_ok.mp done
    obtain ⟨step, taken, first⟩ := bind_eq_ok.mp first
    obtain ⟨⟨machine, action⟩, observed, first⟩ := bind_eq_ok.mp first
    cases action with
    | forward =>
      cases first
      obtain ⟨constants, sites, found, appended, room, held, instructions, run⟩ :=
        inductionHypothesis later extension fits
      refine ⟨constants, ⟨instruction, none⟩ :: sites, found, appended, room, ?_, ?_, ?_⟩
      · rw [held, List.reverse_cons, List.append_assoc]
        rfl
      · rw [List.map_cons, instructions]
      · exact .forward taken observed run
    | substitute name =>
      obtain ⟨current, read, first⟩ := bind_eq_ok.mp first
      obtain ⟨⟨pool, index⟩, choice, same⟩ := bind_eq_ok.mp first
      cases same
      obtain ⟨_, ⟨value, rfl⟩, _⟩ := Construction.observe_substitute observed
      obtain ⟨load, other, otherRead, present⟩ := Step.ofInstruction_eq_string taken
      cases otherRead.symm.trans read
      obtain ⟨added, grown, room, chosen⟩ := chooseIndex_eq_ok extension fits present choice
      obtain ⟨constants, sites, found, appended, room, held, instructions, run⟩ :=
        inductionHypothesis later (grown.extension.trans extension) room
      refine ⟨added ++ constants, ⟨instruction, index⟩ :: sites, ⟨instruction, name⟩ :: found,
        grown.trans appended, room, ?_, ?_, ?_⟩
      · rw [held, List.reverse_cons, List.append_assoc]
        rfl
      · rw [List.map_cons, instructions]
      · exact .substitute taken observed (chosen.mono appended.extension) run

namespace Run

variable {machine last : Construction} {sites : List Site} {found : List Substitution}

/-- The chosen indices are found in any larger pool as well. -/
theorem mono {later : ConstantPool} (extension : later.Extends pool)
    (run : Run source pool code machine sites found last) :
    Run source later code machine sites found last := by
  induction run with
  | done machine => exact .done machine
  | forward taken observed rest inductionHypothesis =>
    exact .forward taken observed inductionHypothesis
  | substitute taken observed chosen rest inductionHypothesis =>
    exact .substitute taken observed (chosen.mono extension) inductionHypothesis

/-- Without a chosen index the pool at the end does not matter. -/
theorem unpatched {other : ConstantPool} (run : Run source pool code machine sites found last)
    (none : ∀ site ∈ sites, site.index = .none) :
    Run source other code machine sites found last := by
  induction run with
  | done machine => exact .done machine
  | forward taken observed rest inductionHypothesis =>
    exact .forward taken observed (inductionHypothesis (List.forall_mem_cons.mp none).2)
  | substitute taken observed chosen rest inductionHypothesis =>
    obtain ⟨rfl, later⟩ := List.forall_mem_cons.mp none
    exact .substitute taken observed chosen (inductionHypothesis later)

theorem observeAll (run : Run source pool code machine sites found last) :
    machine.observeAll source code (sites.map (·.instruction)) = .ok (last, found) := by
  induction run with
  | done => rfl
  | forward taken observed rest inductionHypothesis =>
    exact bind_eq_ok.mpr ⟨_, taken, bind_eq_ok.mpr ⟨_, observed,
      bind_eq_ok.mpr ⟨_, inductionHypothesis, rfl⟩⟩⟩
  | substitute taken observed chosen rest inductionHypothesis =>
    exact bind_eq_ok.mpr ⟨_, taken, bind_eq_ok.mpr ⟨_, observed,
      bind_eq_ok.mpr ⟨_, inductionHypothesis, rfl⟩⟩⟩

/-- Only loads get an index. -/
theorem isLoad (run : Run source pool code machine sites found last) :
    ∀ site ∈ sites, site.index.isSome → Opcode.isLoad site.instruction.opcode = true := by
  induction run with
  | done => simp
  | forward taken observed rest inductionHypothesis =>
    exact List.forall_mem_cons.mpr ⟨by simp, inductionHypothesis⟩
  | substitute taken observed chosen rest inductionHypothesis =>
    exact List.forall_mem_cons.mpr
      ⟨fun _ => (Step.ofInstruction_eq_string taken).1, inductionHypothesis⟩

/-- The sites with an index are the substitutions whose literals differ from their names. -/
theorem countP_isSome (run : Run source pool code machine sites found last) :
    sites.countP (·.index.isSome) = found.countP (·.differs source code) := by
  induction run with
  | done => rfl
  | forward taken observed rest inductionHypothesis => simpa using inductionHypothesis
  | @substitute _ _ _ instruction value name index _ _ taken observed chosen rest
      inductionHypothesis =>
    obtain ⟨_, current, read, present⟩ := Step.ofInstruction_eq_string taken
    have literal : (Substitution.mk instruction name).literal source code = .ok (some value) :=
      bind_eq_ok.mpr ⟨current, read, present⟩
    have same : index.isSome = (Substitution.mk instruction name).differs source code := by
      rw [Substitution.differs, literal]
      cases index with
      | none => simp [show value = name from chosen]
      | some index => simp [chosen.1]
    rw [List.countP_cons, List.countP_cons, inductionHypothesis, same]

/-- The machine takes the same way through the repaired code, where every substituted load yields
its name. -/
theorem reloaded (run : Run source pool code machine sites found last)
    (extension : pool.Extends source) {moved : List Instruction}
    (decoded : ∀ site ∈ sites,
      Instruction.decode code site.instruction.offset = .ok site.instruction)
    (reloads : List.Forall₂ (Site.Reloads code out) sites moved) :
    ∃ new, machine.observeAll pool out moved = .ok (last, new) ∧
      new.map (·.name) = found.map (·.name) ∧
      ∀ substitution ∈ new, substitution.Matches pool out := by
  induction run generalizing moved with
  | done =>
    cases reloads
    exact ⟨[], rfl, rfl, by simp⟩
  | forward taken observed rest inductionHypothesis =>
    cases reloads with
    | cons head tail =>
      rw [List.forall_mem_cons] at decoded
      obtain ⟨new, later, names, yield⟩ := inductionHypothesis decoded.2 tail
      refine ⟨new, bind_eq_ok.mpr ⟨_, ?_, bind_eq_ok.mpr ⟨_, observed,
        bind_eq_ok.mpr ⟨_, later, rfl⟩⟩⟩, names, yield⟩
      exact Step.ofInstruction_reloads extension decoded.1 head rfl taken
  | @substitute _ _ _ instruction value name index _ _ taken observed chosen rest
      inductionHypothesis =>
    cases reloads with
    | @cons _ reloaded _ _ head tail =>
      rw [List.forall_mem_cons] at decoded
      obtain ⟨new, later, names, yield⟩ := inductionHypothesis decoded.2 tail
      obtain ⟨load, current, read, present⟩ := Step.ofInstruction_eq_string taken
      obtain ⟨newLoad, newIndex, newRead, yields⟩ : Opcode.isLoad reloaded.opcode = true ∧
          ∃ newIndex, reloaded.loadIndex out = .ok newIndex ∧
            pool.stringValue newIndex = .ok (some name) := by
        cases index with
        | none =>
          have same : value = name := chosen
          refine ⟨(head.opcode rfl).symm ▸ load, current, head.loadIndex decoded.1 rfl load read, ?_⟩
          exact same ▸ extension.stringValue present
        | some index =>
          obtain ⟨newLoad, newRead⟩ := head.load index rfl
          exact ⟨newLoad, index, newRead, chosen.2⟩
      have newTaken : Step.ofInstruction pool out reloaded = .ok (.load (.string name)) := by
        rw [Step.ofInstruction_load newLoad]
        exact bind_eq_ok.mpr ⟨newIndex, newRead, Step.ofLoad_eq_string.mpr yields⟩
      rw [Construction.observe_string _ value name] at observed
      refine ⟨⟨reloaded, name⟩ :: new, bind_eq_ok.mpr ⟨_, newTaken, bind_eq_ok.mpr ⟨_, observed,
        bind_eq_ok.mpr ⟨_, later, rfl⟩⟩⟩, ?_, List.forall_mem_cons.mpr ⟨?_, yield⟩⟩
      · rw [List.map_cons, List.map_cons, names]
      · exact bind_eq_ok.mpr ⟨newIndex, newRead, yields⟩

end Run

/-- When every substituted load yields its name, a repair chooses nothing. -/
theorem observeAll_of_matches {machine last : Construction} {instructions : List Instruction}
    {found : List Substitution} (sites : List Site)
    (run : machine.observeAll source code instructions = .ok (last, found))
    (matching : ∀ substitution ∈ found, substitution.Matches source code) :
    instructions.foldlM (observe source code) ⟨machine, pool, sites⟩ =
      .ok ⟨last, pool, (instructions.map fun instruction => ⟨instruction, none⟩).reverse ++ sites⟩ := by
  induction instructions generalizing machine sites found with
  | nil =>
    cases run
    rfl
  | cons instruction rest inductionHypothesis =>
    obtain ⟨step, taken, run⟩ := bind_eq_ok.mp run
    obtain ⟨⟨next, action⟩, observed, run⟩ := bind_eq_ok.mp run
    obtain ⟨⟨final, later⟩, further, run⟩ := bind_eq_ok.mp run
    have first : observe source code ⟨machine, pool, sites⟩ instruction =
        .ok ⟨next, pool, ⟨instruction, none⟩ :: sites⟩ := by
      refine bind_eq_ok.mpr ⟨step, taken, bind_eq_ok.mpr ⟨_, observed, ?_⟩⟩
      cases action with
      | forward => rfl
      | substitute name =>
        cases run
        obtain ⟨current, read, present⟩ := bind_eq_ok.mp (matching _ List.mem_cons_self)
        refine bind_eq_ok.mpr ⟨current, read, bind_eq_ok.mpr ⟨(pool, none), ?_, rfl⟩⟩
        exact bind_eq_ok.mpr ⟨_, present, if_pos rfl⟩
    have same : final = last ∧ ∀ substitution ∈ later, substitution.Matches source code := by
      cases action with
      | forward =>
        cases run
        exact ⟨rfl, matching⟩
      | substitute name =>
        cases run
        exact ⟨rfl, fun other member => matching other (List.mem_cons_of_mem _ member)⟩
    rw [same.1] at further
    rw [List.foldlM_cons]
    refine bind_eq_ok.mpr ⟨_, first, ?_⟩
    rw [inductionHypothesis (⟨instruction, none⟩ :: sites) further same.2, List.map_cons,
      List.reverse_cons, List.append_assoc]
    rfl

end Progress

end EnumNames
