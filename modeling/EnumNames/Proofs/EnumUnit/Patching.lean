import EnumNames.EnumUnit.Repair
import EnumNames.Proofs.Bytecode.Placement

/-!
Overwriting the operands of loads where they stand. No instruction changes its place, its opcode or
its length, and no byte outside the overwritten operands changes.
-/

namespace EnumNames

/-- A piece outside the replaced bytes stands where it stood. -/
theorem Stands.replaced {before old replacement after piece : ByteArray} {index : Nat}
    (stands : Stands (before ++ (old ++ after)) index piece) (size : old.size = replacement.size)
    (outside : index + piece.size ≤ before.size ∨ before.size + old.size ≤ index) :
    Stands (before ++ (replacement ++ after)) index piece := by
  have whole := Stands.self (before ++ (old ++ after))
  have wholeNew := Stands.self (before ++ (replacement ++ after))
  simp only [stands_append, Nat.zero_add] at whole wholeNew
  rcases outside with front | back
  · have inner := whole.1.restrict index (by simpa using stands) front
    simpa using wholeNew.1.inside index inner
  · obtain ⟨distance, rfl⟩ := Nat.exists_eq_add_of_le back
    have room := stands.within
    simp only [ByteArray.size_append] at room
    have inner := whole.2.2.restrict distance stands (by omega)
    rw [size]
    exact wholeNew.2.2.inside distance inner

/-- The pieces that stand in a region of some bytes stand in other bytes as well. -/
def Agrees (bytes other : ByteArray) (region : Nat → Nat → Prop) : Prop :=
  ∀ index piece, region index (index + piece.size) → Stands bytes index piece →
    Stands other index piece

theorem Agrees.refl (bytes : ByteArray) (region : Nat → Nat → Prop) : Agrees bytes bytes region :=
  fun _ _ _ stands => stands

theorem Agrees.trans {first second third : ByteArray} {region : Nat → Nat → Prop}
    (early : Agrees first second region) (late : Agrees second third region) :
    Agrees first third region :=
  fun index piece inside stands => late index piece inside (early index piece inside stands)

theorem Agrees.mono {bytes other : ByteArray} {region part : Nat → Nat → Prop}
    (agrees : Agrees bytes other region) (smaller : ∀ first last, part first last → region first last) :
    Agrees bytes other part :=
  fun index piece inside => agrees index piece (smaller _ _ inside)

/-- What stands around replaced bytes stands there still, and so does what both bytes have alike. -/
theorem Agrees.around {head code out tail piece : ByteArray} {region : Nat → Nat → Prop} {index : Nat}
    (agrees : Agrees code out region) (size : code.size = out.size)
    (stands : Stands (head ++ (code ++ tail)) index piece)
    (within : index + piece.size ≤ head.size ∨ head.size + code.size ≤ index ∨
      (head.size ≤ index ∧ index + piece.size ≤ head.size + code.size ∧
        region (index - head.size) (index - head.size + piece.size))) :
    Stands (head ++ (out ++ tail)) index piece := by
  rcases within with front | back | ⟨start, stop, allowed⟩
  · exact stands.replaced size (.inl front)
  · exact stands.replaced size (.inr back)
  · obtain ⟨offset, rfl⟩ := Nat.exists_eq_add_of_le start
    rw [Nat.add_sub_cancel_left] at allowed
    have inner : Stands code offset piece :=
      (Stands.between head code tail).restrict offset stands (by omega)
    exact (Stands.between head out tail).inside offset (agrees offset piece allowed inner)

theorem overwrite_agrees {bytes replacement result : ByteArray} {index : Nat}
    (done : Access.overwrite bytes index replacement = .ok result) :
    result.size = bytes.size ∧ Stands result index replacement ∧
      Agrees bytes result (fun first last => last ≤ index ∨ index + replacement.size ≤ first) := by
  obtain ⟨before, old, after, rfl, rfl, size, rfl⟩ := Access.overwrite_eq_ok.mp done
  refine ⟨by simp [size], .between _ _ _, fun index piece outside stands => ?_⟩
  exact stands.replaced size (by rwa [size])

namespace Site

variable {code out : ByteArray} {site : Site}

/-- Only the bytes behind the opcode of a patched instruction change. -/
theorem patch_eq_ok
    (decoded : Instruction.decode code site.instruction.offset = .ok site.instruction)
    (load : site.index.isSome → Opcode.isLoad site.instruction.opcode = true)
    (small : site.isWidened = false) (done : site.patch code = .ok out) :
    out.size = code.size ∧
      Agrees code out (fun first last =>
        last ≤ site.instruction.offset + 1 ∨ site.instruction.stop ≤ first) ∧
      (∀ index, site.index = some index → site.instruction.loadIndex out = .ok index) ∧
      (site.index = none → out = code) := by
  unfold patch at done
  split at done
  · rename_i unpatched
    cases done
    refine ⟨rfl, .refl _ _, ?_, fun _ => rfl⟩
    intro index patched
    rw [unpatched] at patched
    cases patched
  · rename_i index patched
    have length := Instruction.length_of_isLoad decoded (load (by rw [patched]; rfl))
    have never : site.index = none → out = code := by simp [patched]
    dsimp only at done
    split at done
    · rename_i narrow
      rw [if_pos narrow] at length
      obtain ⟨size, stands, agrees⟩ := overwrite_agrees done
      refine ⟨size, agrees.mono fun first last outside => ?_, fun other same => ?_, never⟩
      · rwa [Instruction.stop, length] at outside
      · rw [patched, Option.some.injEq] at same
        have bound : index.toNat ≤ 0xFF := by
          simpa [isWidened, narrow, patched, UInt16.le_iff_toNat_le] using small
        rw [Instruction.loadIndex, if_pos narrow]
        refine bind_eq_ok.mpr ⟨_, Access.u1_eq_ok.mpr stands, congrArg Except.ok ?_⟩
        apply UInt16.toNat_inj.mp
        rw [UInt8.toNat_toUInt16, UInt16.toNat_toUInt8, ← same]
        omega
    · rename_i wide
      rw [if_neg wide] at length
      obtain ⟨size, stands, agrees⟩ := overwrite_agrees done
      refine ⟨size, agrees.mono fun first last outside => ?_, fun other same => ?_, never⟩
      · rwa [Instruction.stop, length] at outside
      · rw [patched, Option.some.injEq] at same
        rw [Instruction.loadIndex, if_neg wide, ← same]
        exact Access.u2_eq_ok.mpr stands

theorem size_patch (done : site.patch code = .ok out) : out.size = code.size := by
  unfold patch at done
  split at done
  · cases done
    rfl
  · dsimp only at done
    split at done
    · exact (overwrite_agrees done).1
    · exact (overwrite_agrees done).1

theorem size_patchAll {sites : List Site} (done : patchAll sites code = .ok out) :
    out.size = code.size := by
  unfold patchAll at done
  induction sites generalizing code with
  | nil =>
    cases done
    rfl
  | cons site rest inductionHypothesis =>
    obtain ⟨middle, first, later⟩ := bind_eq_ok.mp done
    exact (inductionHypothesis later).trans (size_patch first)

/-- The operand of a load is overwritten inside the load, whatever was patched before it. -/
theorem exists_patch {current : ByteArray} (size : current.size = code.size)
    (decoded : Instruction.decode code site.instruction.offset = .ok site.instruction)
    (load : site.index.isSome → Opcode.isLoad site.instruction.opcode = true) :
    ∃ out, site.patch current = .ok out := by
  have stop := (Instruction.decode_eq_ok.mp decoded).2.2.2
  unfold Instruction.stop at stop
  unfold patch
  split
  · exact ⟨current, rfl⟩
  · rename_i index patched
    have length := Instruction.length_of_isLoad decoded (load (by rw [patched]; rfl))
    dsimp only
    split
    · rename_i narrow
      rw [if_pos narrow] at length
      refine ⟨_, if_pos ?_⟩
      rw [size_mk, List.length_singleton]
      omega
    · rename_i wide
      rw [if_neg wide] at length
      refine ⟨_, if_pos ?_⟩
      rw [BigEndian.size_encode16]
      omega

/-- The size of the code is the invariant of the patches. -/
theorem exists_patchAll {sites : List Site} {current : ByteArray}
    (decoded : ∀ site ∈ sites,
      Instruction.decode code site.instruction.offset = .ok site.instruction)
    (loads : ∀ site ∈ sites, site.index.isSome → Opcode.isLoad site.instruction.opcode = true)
    (size : current.size = code.size) : ∃ out, patchAll sites current = .ok out := by
  induction sites generalizing current with
  | nil => exact ⟨current, rfl⟩
  | cons site rest inductionHypothesis =>
    rw [List.forall_mem_cons] at decoded loads
    obtain ⟨middle, first⟩ := exists_patch size decoded.1 loads.1
    obtain ⟨out, later⟩ :=
      inductionHypothesis decoded.2 loads.2 ((size_patch first).trans size)
    exact ⟨out, bind_eq_ok.mpr ⟨middle, first, later⟩⟩

/-- An instruction whose bytes agree decodes alike. -/
theorem decode_of_agrees {instruction : Instruction}
    (decoded : Instruction.decode code instruction.offset = .ok instruction)
    (agrees : Agrees code out fun first last =>
      instruction.offset ≤ first ∧ last ≤ instruction.stop) :
    Instruction.decode out instruction.offset = .ok instruction := by
  obtain ⟨text, whole, stands⟩ := Stands.exists_of_le (Instruction.decode_eq_ok.mp decoded).2.2.2
  have moved := agrees _ text ⟨Nat.le_refl _, by rw [whole]; exact Nat.le_refl _⟩ stands
  exact Instruction.decode_moved decoded stands whole moved fun _ => rfl

/-- Sites tile any bytes that agree from their offset on. -/
theorem Tile.of_agrees {old : Nat} {sites : List Site} (tile : Tile code old sites)
    (size : out.size = code.size) (agrees : Agrees code out fun first _ => old ≤ first) :
    Tile out old sites := by
  induction tile with
  | done => exact size ▸ .done
  | @next site rest decoded tile inductionHypothesis =>
    refine .next (decode_of_agrees decoded (agrees.mono fun _ _ both => both.1)) ?_
    refine inductionHypothesis (agrees.mono fun first _ behind => Nat.le_trans ?_ behind)
    exact Nat.le_add_right _ _

/-- The operand of a load lies inside the load. -/
theorem loadIndex_of_agrees {instruction : Instruction} {index : UInt16}
    (length : instruction.length = if instruction.opcode = Opcode.loadConstant then 2 else 3)
    (agrees : Agrees code out fun first last =>
      instruction.offset ≤ first ∧ last ≤ instruction.stop)
    (found : instruction.loadIndex code = .ok index) :
    instruction.loadIndex out = .ok index := by
  unfold Instruction.loadIndex at found ⊢
  split at found
  · rename_i narrow
    rw [if_pos narrow] at length ⊢
    obtain ⟨byte, read, same⟩ := bind_eq_ok.mp found
    refine bind_eq_ok.mpr ⟨byte, Access.u1_eq_ok.mpr ?_, same⟩
    refine agrees _ _ ⟨Nat.le_succ _, ?_⟩ (Access.u1_eq_ok.mp read)
    rw [Instruction.stop, length]
    exact Nat.le_refl _
  · rename_i wide
    rw [if_neg wide] at length ⊢
    refine Access.u2_eq_ok.mpr (agrees _ _ ⟨Nat.le_succ _, ?_⟩ (Access.u2_eq_ok.mp found))
    rw [Instruction.stop, length]
    exact Nat.le_refl _

/-- A patched site loads its index, and any other one keeps its bytes. -/
structure Patched (code out : ByteArray) (site : Site) : Prop where
  load : ∀ index, site.index = some index → site.instruction.loadIndex out = .ok index
  kept : site.index = none → Agrees code out fun first last =>
    site.instruction.offset ≤ first ∧ last ≤ site.instruction.stop

/-- A region is untouched when it contains no operand of a patched site. -/
def Untouched (sites : List Site) (first last : Nat) : Prop :=
  ∀ site ∈ sites, site.index.isSome →
    last ≤ site.instruction.offset + 1 ∨ site.instruction.stop ≤ first

/-- A patched instruction still decodes, since its opcode fixes its length. -/
theorem decode_of_patch
    (decoded : Instruction.decode code site.instruction.offset = .ok site.instruction)
    (load : site.index.isSome → Opcode.isLoad site.instruction.opcode = true)
    (small : site.isWidened = false) (done : site.patch code = .ok out) :
    Instruction.decode out site.instruction.offset = .ok site.instruction := by
  obtain ⟨size, agrees, _, never⟩ := patch_eq_ok decoded load small done
  cases patched : site.index with
  | none => rwa [never patched]
  | some index =>
    obtain ⟨_, opcode, length, inside⟩ := Instruction.decode_eq_ok.mp decoded
    refine Instruction.decode_eq_ok.mpr ⟨rfl, agrees _ _ (.inl (Nat.le_refl _)) opcode, ?_, ?_⟩
    · have shape := (Opcode.shape_of_isLoad (load (by rw [patched]; rfl))).2
      obtain ⟨width, positive, fixed⟩ : ∃ width positive,
          Opcode.shape site.instruction.opcode = .fixed width positive := by
        split at shape <;> exact ⟨_, _, shape⟩
      rw [Instruction.decodeLength, fixed] at length ⊢
      exact length
    · rwa [size]

/-- The induction is on the sites: what was patched already is not touched again, and what is still
to be patched decodes as in the beginning. -/
theorem patchAll_eq_ok {old : Nat} {sites : List Site} (tile : Tile code old sites)
    (loads : ∀ site ∈ sites, site.index.isSome → Opcode.isLoad site.instruction.opcode = true)
    (small : ∀ site ∈ sites, site.isWidened = false) (done : patchAll sites code = .ok out) :
    out.size = code.size ∧ Tile out old sites ∧ Agrees code out (Untouched sites) ∧
      ∀ site ∈ sites, Patched code out site := by
  induction sites generalizing code old with
  | nil =>
    cases done
    exact ⟨rfl, tile, .refl _ _, by simp⟩
  | cons site rest inductionHypothesis =>
    obtain ⟨middle, first, later⟩ := bind_eq_ok.mp done
    cases tile with
    | next decoded tile =>
    rw [List.forall_mem_cons] at loads small
    obtain ⟨size, agrees, load, never⟩ := patch_eq_ok decoded loads.1 small.1 first
    have middleTile : Tile middle site.instruction.stop rest :=
      tile.of_agrees size (agrees.mono fun _ _ behind => .inr behind)
    obtain ⟨laterSize, outTile, laterAgrees, each⟩ :=
      inductionHypothesis middleTile loads.2 small.2 later
    have behind := tile.le_offset
    have positive := site.instruction.positive
    have settled : Agrees middle out fun _ last => last ≤ site.instruction.stop := by
      refine laterAgrees.mono fun first last early other member _ => .inl ?_
      exact Nat.le_succ_of_le (Nat.le_trans early (behind other member))
    have unmoved : Agrees middle out fun first last =>
        site.instruction.offset ≤ first ∧ last ≤ site.instruction.stop :=
      settled.mono fun _ _ both => both.2
    refine ⟨laterSize.trans size, ?_, ?_, List.forall_mem_cons.mpr ⟨⟨?_, ?_⟩, ?_⟩⟩
    · exact .next (decode_of_agrees (decode_of_patch decoded loads.1 small.1 first) unmoved) outTile
    · refine .trans ?_ (laterAgrees.mono fun first last free other member =>
        free other (List.mem_cons_of_mem _ member))
      cases patched : site.index with
      | none =>
        rw [never patched]
        exact .refl _ _
      | some index =>
        exact agrees.mono fun first last free => free site List.mem_cons_self (by rw [patched]; rfl)
    · intro index patched
      have length := Instruction.length_of_isLoad decoded (loads.1 (by rw [patched]; rfl))
      exact loadIndex_of_agrees length unmoved (load index patched)
    · intro unpatched
      rw [← never unpatched]
      exact unmoved
    · intro other member
      obtain ⟨found, kept⟩ := each other member
      refine ⟨found, fun unpatched => .trans (agrees.mono fun first last both => .inr ?_)
        (kept unpatched)⟩
      exact Nat.le_trans (behind other member) both.1

end Site

end EnumNames
