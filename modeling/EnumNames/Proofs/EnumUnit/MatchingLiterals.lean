import EnumNames.Proofs.EnumUnit.RepairAgain

/-!
What a repair counts, and what it does to its own result. Main statements: nothing is counted as
changed when all literals match already, and behind a repair all literals match.
-/

namespace EnumNames

variable {unit : EnumUnit} {data : ByteArray} {repaired : Repaired}

/-- Exactly the loads that do not yield their names are counted as changed. -/
theorem StaticInitializer.changed_eq (initializer : StaticInitializer data)
    (done : initializer.repair unit = .ok repaired) :
    ∃ loads, unit.substitutions initializer.layout.pool initializer.code initializer.instructions =
      .ok loads ∧
      repaired.changed = loads.countP (·.differs initializer.layout.pool initializer.code) := by
  obtain ⟨form, _, layout, _⟩ := InitializerForm.exists_form initializer
  have fits : initializer.layout.pool.count < 65536 := by
    rw [layout]
    exact form.front.fewConstants
  obtain ⟨progress, observed, done⟩ := bind_eq_ok.mp done
  obtain ⟨substitutions, finished, done⟩ := bind_eq_ok.mp done
  obtain ⟨_, sites, loads, _, _, held, instructions, run⟩ :=
    Progress.observeAll_run observed (.refl _) fits
  have observedAll := run.observeAll
  rw [instructions] at observedAll
  have counted : progress.sites.reverse.countP (·.index.isSome) =
      loads.countP (·.differs initializer.layout.pool initializer.code) := by
    rw [held, List.append_nil, List.reverse_reverse]
    exact run.countP_isSome
  refine ⟨loads, bind_eq_ok.mpr ⟨_, observedAll, bind_eq_ok.mpr ⟨_, finished, rfl⟩⟩, ?_⟩
  dsimp only at done
  rw [counted] at done
  split at done
  · cases done
    rfl
  · obtain ⟨_, _, done⟩ := bind_eq_ok.mp done
    obtain ⟨_, _, done⟩ := bind_eq_ok.mp done
    obtain ⟨_, _, done⟩ := bind_eq_ok.mp done
    cases done
    rfl

/-- A repaired static initializer is left alone by the next repair. -/
theorem InitializerRepair.repair_new {old new : InitializerForm}
    (repair : InitializerRepair unit old new repaired) :
    unit.repair new.toClass.encode = .ok ⟨new.toClass.encode, repaired.substitutions, 0⟩ := by
  obtain ⟨loads, run, yield⟩ := repair.observeAll_new
  rw [EnumUnit.repair_eq unit (new.initializer repair.code.decoded)]
  exact StaticInitializer.repair_of_matches _ run repair.finished yield

namespace EnumUnit

/-- A class is counted as unchanged exactly when its literals match. -/
theorem changed_eq_zero_iff (done : unit.repair data = .ok repaired) :
    repaired.changed = 0 ↔ unit.LiteralsMatch data := by
  obtain ⟨layout, parsed, missing, bare⟩ | ⟨⟨initializer⟩⟩ := repair_cases done
  · obtain ⟨substitutions, _, same⟩ := bind_eq_ok.mp bare
    cases same
    refine ⟨fun _ initializer => ?_, fun _ => rfl⟩
    have found := initializer.found
    cases parsed.symm.trans initializer.parsed
    cases missing.symm.trans found
  · rw [repair_eq unit initializer] at done
    obtain ⟨loads, accepted, changed⟩ := initializer.changed_eq done
    rw [changed, List.countP_eq_zero]
    constructor
    · intro none other found otherAccepted load member
      obtain rfl := Subsingleton.elim initializer other
      cases accepted.symm.trans otherAccepted
      exact Substitution.differs_eq_false_iff.mp (Bool.eq_false_iff.mpr (none load member))
    · intro matching load member
      have yields := matching initializer loads accepted load member
      exact Bool.eq_false_iff.mp (Substitution.differs_eq_false_iff.mpr yields)

/-- The result of a repair is left alone by the next one, and it is the same enum as before. -/
theorem repair_repaired (small : data.size < 0x80000000) (done : unit.repair data = .ok repaired) :
    unit.repair repaired.bytes = .ok ⟨repaired.bytes, repaired.substitutions, 0⟩ ∧
      (classify data = .ok (some unit) → classify repaired.bytes = .ok (some unit)) := by
  obtain ⟨layout, parsed, missing, bare⟩ | ⟨⟨initializer⟩⟩ := repair_cases done
  · obtain ⟨substitutions, _, same⟩ := bind_eq_ok.mp bare
    cases same
    exact ⟨done, id⟩
  · rw [repair_eq unit initializer] at done
    obtain ⟨old, new, rfl, bytes, _, ⟨repair⟩⟩ := initializer.exists_repair small done
    rw [bytes]
    refine ⟨repair.repair_new, fun classified => ?_⟩
    rw [classify_toClass] at classified ⊢
    rw [repair.frame]
    exact ofLayout?_grow repair.few classified

end EnumUnit

end EnumNames
