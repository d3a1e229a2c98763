import EnumNames.Proofs.Bytecode.InsideCode

/-!
When code can be laid out again. Main statement: a relocation succeeds exactly when the new code is
short enough, every jump leads to the start of an instruction or to the end of the code, and every
short jump still reaches its target; otherwise it is refused in the name of the unit.
-/

namespace EnumNames

namespace Branch

/-- The distances of all jumps, the default of a switch first. -/
def distances : Branch → List Int
  | .none => []
  | .jump distance => [distance]
  | .table default _ _ cases => default :: cases
  | .lookup default pairs => default :: pairs.map Prod.snd

end Branch

namespace Instruction

/-- Some jump of the instruction leads to this place, which may lie in front of the code. -/
def JumpsTo (code : ByteArray) (instruction : Instruction) (target : Int) : Prop :=
  ∃ branch distance, instruction.branch code = .ok branch ∧ distance ∈ branch.distances ∧
    target = instruction.offset + distance

/-- An instruction starts at this place, or the code ends there. -/
def IsBoundary (code : ByteArray) (instructions : List Instruction) (target : Int) : Prop :=
  (∃ instruction ∈ instructions, (instruction.offset : Int) = target) ∨ (code.size : Int) = target

/-- Four bytes inside the code can be read as a word. -/
theorem exists_word {code : ByteArray} {index : Nat} (inside : index + 4 ≤ code.size)
    (offset : Nat) : ∃ word, switchWord code index offset = .ok word := by
  obtain ⟨piece, size, stands⟩ := Stands.exists_of_le inside
  obtain ⟨word, read, _⟩ := exists_word_of_stands stands size offset
  exact ⟨word, read⟩

end Instruction

namespace Site

/-- The instructions are placed in their order. -/
theorem map_instruction_placeFrom (sites : List Site) :
    (placeFrom 0 sites).map (·.site.instruction) = sites.map instruction := by
  have all := congrArg (List.map instruction) (map_site_place sites)
  rwa [place_eq, List.map_map] at all

/-- This is the new offset of a boundary of the old code. -/
def Puts (code : ByteArray) (sites : List Site) (old new : Nat) : Prop :=
  (∃ placed ∈ placeFrom 0 sites, placed.site.instruction.offset = old ∧ placed.start = new) ∨
    (code.size = old ∧ endFrom 0 sites = new)

end Site

namespace Relocation

/-- The operation succeeds under a condition, and without it it is refused in the name of a unit. -/
inductive Hinges (unit : String) (condition : Prop) {α : Type} : Except Failure α → Prop where
  | done (value : α) (holds : condition) : Hinges unit condition (.ok value)
  | refused (fault : RelocationFault) (fails : ¬ condition) :
      Hinges unit condition (.error (.relocation unit fault))

namespace Hinges

variable {α β κ ι : Type} {unit : String} {condition other : Prop} {result : Except Failure α}

theorem isOk_iff (hinges : Hinges unit condition result) :
    (∃ value, result = .ok value) ↔ condition := by
  cases hinges with
  | done value holds => exact ⟨fun _ => holds, fun _ => ⟨value, rfl⟩⟩
  | refused fault fails => exact ⟨fun ⟨_, same⟩ => (nomatch same), fun holds => absurd holds fails⟩

theorem refusal (hinges : Hinges unit condition result) {failure : Failure}
    (failed : result = .error failure) : ∃ fault, failure = .relocation unit fault := by
  cases hinges with
  | done value holds => cases failed
  | refused fault fails => exact ⟨fault, (Except.error.inj failed).symm⟩

theorem congr (hinges : Hinges unit condition result) (same : condition ↔ other) :
    Hinges unit other result := by
  cases hinges with
  | done value holds => exact .done value (same.mp holds)
  | refused fault fails => exact .refused fault fun holds => fails (same.mpr holds)

/-- Both operations have to succeed, and the first one that does not is the one refused. -/
theorem bind {second : α → Except Failure β} (first : Hinges unit condition result)
    (next : ∀ value, result = .ok value → Hinges unit other (second value)) :
    Hinges unit (condition ∧ other) (result >>= second) := by
  cases first with
  | done value holds => exact (next value rfl).congr (and_iff_right holds).symm
  | refused fault fails => exact .refused fault fun both => fails both.1

/-- The condition is that of the first operation when the second one cannot fail. -/
theorem made (hinges : Hinges unit condition result) (make : α → β) :
    Hinges unit condition (result >>= fun value => pure (make value)) := by
  cases hinges with
  | done value holds => exact .done (make value) holds
  | refused fault fails => exact .refused fault fails

/-- The condition on each item may speak of what belongs to the item. -/
theorem mapM {related : κ → ι → Prop} {holds : ι → Prop} {operation : κ → Except Failure α}
    {keys : List κ} {items : List ι} (all : List.Forall₂ related keys items)
    (each : ∀ key item, key ∈ keys → related key item → Hinges unit (holds item) (operation key)) :
    Hinges unit (∀ item ∈ items, holds item) (keys.mapM operation) := by
  induction all with
  | nil => exact .done [] (by simp)
  | @cons key item keys items head tail inductionHypothesis =>
    rw [List.mapM_cons]
    have rest := inductionHypothesis fun other value member =>
      each other value (List.mem_cons_of_mem _ member)
    refine ((each key item List.mem_cons_self head).bind fun value _ => ?_).congr
      List.forall_mem_cons.symm
    exact rest.made _

end Hinges

variable {relocation : Relocation} {code : ByteArray} {placed : PlacedSite}

/-- The distance leads to an offset that is mapped. -/
def Reaches (relocation : Relocation) (instruction : Instruction) (distance : Int) : Prop :=
  ∃ old new : Nat, (old : Int) = instruction.offset + distance ∧ relocation.map old = .ok new

theorem hinges_map (old : Nat) :
    Hinges relocation.unit (∃ new, relocation.map old = .ok new) (relocation.map old) := by
  unfold map
  split
  · exact .done _ ⟨_, rfl⟩
  · exact .refused _ fun ⟨_, same⟩ => nomatch same

/-- A target in front of the code wraps around to an offset that is far too large to be mapped. -/
theorem target_mapped (bounded : relocation.Bounded)
    (located : relocation.map placed.site.instruction.offset = .ok placed.start) {distance : Int}
    (fits : Instruction.FitsWord distance) {new : Nat} :
    relocation.map (target placed.site.instruction.offset distance) = .ok new ↔
      ∃ old : Nat, (old : Int) = placed.site.instruction.offset + distance ∧
        relocation.map old = .ok new := by
  have offsetBound := (bounded _ _ located).1
  unfold Instruction.FitsWord at fits
  constructor
  · intro mapped
    refine ⟨_, ?_, mapped⟩
    have targetBound := (bounded _ _ mapped).1
    unfold target at targetBound ⊢
    omega
  · rintro ⟨old, same, mapped⟩
    have oldBound := (bounded _ _ mapped).1
    have unwrapped : target placed.site.instruction.offset distance = old := by
      unfold target
      omega
    rwa [unwrapped]

theorem hinges_distance (bounded : relocation.Bounded)
    (located : relocation.map placed.site.instruction.offset = .ok placed.start) {distance : Int}
    (fits : Instruction.FitsWord distance) :
    Hinges relocation.unit (relocation.Reaches placed.site.instruction distance)
      (relocation.distance placed distance) := by
  refine ((hinges_map _).made _).congr ?_
  simp only [target_mapped bounded located fits, Reaches]
  exact exists_comm

theorem hinges_emitCase (bounded : relocation.Bounded)
    (located : relocation.map placed.site.instruction.offset = .ok placed.start) {index : Nat}
    {distance : Int} (read : placed.site.instruction.word code index = .ok distance) :
    Hinges relocation.unit (relocation.Reaches placed.site.instruction distance)
      (relocation.emitCase code placed index) := by
  have fits := (Instruction.switchWord_eq_ok.mp read).1
  unfold emitCase
  rw [show Instruction.switchWord code index placed.site.instruction.offset = .ok distance from read,
    ok_bind]
  exact (hinges_distance bounded located fits).made _

/-- What holds of a placed instruction that can be emitted: its jumps lead to mapped offsets, and a
short one is near enough. -/
structure Emittable (relocation : Relocation) (code : ByteArray) (placed : PlacedSite) : Prop where
  reaches : ∀ branch, placed.site.instruction.branch code = .ok branch →
    ∀ distance ∈ branch.distances, relocation.Reaches placed.site.instruction distance
  near : placed.site.instruction.jump? = some .short →
    ∀ target new : Nat, placed.site.instruction.JumpsTo code target →
    relocation.map target = .ok new → -32768 ≤ (new : Int) - placed.start ∧ (new : Int) - placed.start ≤ 32767

/-- Only the distances matter for an instruction that is no short jump. -/
theorem emittable_iff {branch : Branch} (notShort : placed.site.instruction.jump? ≠ some .short)
    (read : placed.site.instruction.branch code = .ok branch) :
    relocation.Emittable code placed ↔
      ∀ distance ∈ branch.distances, relocation.Reaches placed.site.instruction distance := by
  constructor
  · exact fun emittable => emittable.reaches branch read
  · intro all
    refine ⟨fun other same => ?_, fun short => absurd short notShort⟩
    obtain rfl := Except.ok.inj (read.symm.trans same)
    exact all

theorem emittable_of_plain (plain : placed.site.instruction.jump? = none) :
    relocation.Emittable code placed := by
  refine (emittable_iff ?_ (branch_of_none plain)).mpr (by simp [Branch.distances])
  rw [plain]
  exact nofun

theorem hinges_emitShort (bounded : relocation.Bounded)
    (located : relocation.map placed.site.instruction.offset = .ok placed.start)
    (decoded : Instruction.decode code placed.site.instruction.offset = .ok placed.site.instruction)
    (short : placed.site.instruction.jump? = some .short) :
    Hinges relocation.unit (relocation.Emittable code placed)
      (relocation.emitShort code placed) := by
  have length := Instruction.length_of_fixed decoded (Opcode.shape_of_short short)
  have stop := (Instruction.decode_eq_ok.mp decoded).2.2.2
  have inside : placed.site.instruction.offset + 1 + 1 < code.size := by
    unfold Instruction.stop at stop
    omega
  obtain ⟨number, read⟩ : ∃ number, placed.site.instruction.index code = .ok number :=
    ⟨_, dif_pos inside⟩
  have branch : placed.site.instruction.branch code = .ok (.jump number.toInt16.toInt) := by
    rw [Instruction.branch, short]
    exact bind_eq_ok.mpr ⟨number, read, rfl⟩
  have low := number.toInt16.le_toInt
  have high := number.toInt16.toInt_lt
  have fits : Instruction.FitsWord number.toInt16.toInt := by
    unfold Instruction.FitsWord
    omega
  unfold emitShort
  dsimp only
  rw [read, ok_bind]
  rcases found : relocation.distance placed number.toInt16.toInt with failure | distance
  · have hinges := hinges_distance bounded located fits
    rw [found] at hinges
    obtain ⟨fault, rfl⟩ := hinges.refusal rfl
    refine .refused fault fun emittable => ?_
    obtain ⟨_, same⟩ := hinges.isOk_iff.mpr (emittable.reaches _ branch _ List.mem_cons_self)
    cases same
  · obtain ⟨new, mapped, same⟩ := bind_eq_ok.mp found
    cases same
    obtain ⟨old, leads, oldMapped⟩ := (target_mapped bounded located fits).mp mapped
    have near : relocation.Emittable code placed ↔
        -32768 ≤ (new : Int) - placed.start ∧ (new : Int) - placed.start ≤ 32767 := by
      constructor
      · exact fun emittable =>
          emittable.near short old new ⟨_, _, branch, List.mem_cons_self, leads⟩ oldMapped
      · intro near
        refine ⟨fun other same => ?_, fun _ target moved jumps mapped => ?_⟩
        · obtain rfl := Except.ok.inj (branch.symm.trans same)
          simp only [Branch.distances, List.mem_singleton, forall_eq]
          exact ⟨old, new, leads, oldMapped⟩
        · obtain ⟨other, distance, same, among, leadsToo⟩ := jumps
          obtain rfl := Except.ok.inj (branch.symm.trans same)
          obtain rfl := List.mem_singleton.mp among
          obtain rfl : target = old := by omega
          obtain rfl := Except.ok.inj (oldMapped.symm.trans mapped)
          exact near
    rw [ok_bind]
    split
    · rename_i fits
      exact .done _ (near.mpr fits)
    · rename_i far
      exact .refused _ fun emittable => far (near.mp emittable)

theorem hinges_emitLong (bounded : relocation.Bounded)
    (located : relocation.map placed.site.instruction.offset = .ok placed.start)
    (decoded : Instruction.decode code placed.site.instruction.offset = .ok placed.site.instruction)
    (long : placed.site.instruction.jump? = some .long) :
    Hinges relocation.unit (relocation.Emittable code placed)
      (relocation.emitLong code placed) := by
  have length := Instruction.length_of_fixed decoded (Opcode.shape_of_long long)
  have stop := (Instruction.decode_eq_ok.mp decoded).2.2.2
  have inside : placed.site.instruction.offset + 1 + 4 ≤ code.size := by
    unfold Instruction.stop at stop
    omega
  obtain ⟨distance, read⟩ := Instruction.exists_word inside placed.site.instruction.offset
  have branch : placed.site.instruction.branch code = .ok (.jump distance) := by
    rw [Instruction.branch, long]
    exact bind_eq_ok.mpr ⟨distance, read, rfl⟩
  have fits := (Instruction.switchWord_eq_ok.mp read).1
  unfold emitLong
  dsimp only
  rw [read, ok_bind]
  refine ((hinges_distance bounded located fits).made _).congr ?_
  rw [emittable_iff (by simp [long]) branch]
  simp [Branch.distances]

theorem hinges_emitTable (bounded : relocation.Bounded)
    (located : relocation.map placed.site.instruction.offset = .ok placed.start) {index : Nat}
    {low high : Int} {cases : List Int}
    (lowRead : placed.site.instruction.word code index = .ok low)
    (highRead : placed.site.instruction.word code (index + 4) = .ok high)
    (casesRead : ((List.range (high - low + 1).toNat).mapM fun number =>
      placed.site.instruction.word code (index + 8 + 4 * number)) = .ok cases) :
    Hinges relocation.unit
      (∀ distance ∈ cases, relocation.Reaches placed.site.instruction distance)
      (relocation.emitTable code placed index) := by
  have inside := (Instruction.switchWord_eq_ok.mp highRead).2.within
  have bounds : Access.slice code ⟨index, index + 8⟩ = .ok (code.extract index (index + 8)) :=
    if_pos ⟨Nat.le_add_right index 8, inside⟩
  unfold Instruction.word at lowRead highRead
  unfold emitTable
  dsimp only
  rw [lowRead, ok_bind, highRead, ok_bind, bounds, ok_bind]
  refine (Hinges.mapM (mapM_eq_ok.mp casesRead) fun number distance _ read => ?_).made _
  exact hinges_emitCase bounded located read

/-- The key of a pair is copied, and its distance has to be mapped. -/
theorem hinges_emitPair (bounded : relocation.Bounded)
    (located : relocation.map placed.site.instruction.offset = .ok placed.start) {index : Nat}
    {pair : Int × Int} (read : placed.site.instruction.pair code index = .ok pair) :
    Hinges relocation.unit (relocation.Reaches placed.site.instruction pair.2)
      (relocation.emitPair code placed index) := by
  obtain ⟨key, keyRead, read⟩ := bind_eq_ok.mp read
  obtain ⟨distance, distanceRead, same⟩ := bind_eq_ok.mp read
  cases same
  have inside := (Instruction.switchWord_eq_ok.mp keyRead).2.within
  have copied : Access.slice code ⟨index, index + 4⟩ = .ok (code.extract index (index + 4)) :=
    if_pos ⟨Nat.le_add_right index 4, inside⟩
  unfold emitPair
  rw [copied, ok_bind]
  exact (hinges_emitCase bounded located distanceRead).made _

theorem hinges_emitPairs (bounded : relocation.Bounded)
    (located : relocation.map placed.site.instruction.offset = .ok placed.start) {index : Nat}
    {count : Int} {pairs : List (Int × Int)}
    (countRead : placed.site.instruction.word code index = .ok count)
    (pairsRead : ((List.range count.toNat).mapM fun number =>
      placed.site.instruction.pair code (index + 4 + 8 * number)) = .ok pairs) :
    Hinges relocation.unit
      (∀ pair ∈ pairs, relocation.Reaches placed.site.instruction pair.2)
      (relocation.emitPairs code placed index) := by
  have inside := (Instruction.switchWord_eq_ok.mp countRead).2.within
  have copied : Access.slice code ⟨index, index + 4⟩ = .ok (code.extract index (index + 4)) :=
    if_pos ⟨Nat.le_add_right index 4, inside⟩
  unfold Instruction.word at countRead
  unfold emitPairs
  rw [countRead, ok_bind, copied, ok_bind]
  refine (Hinges.mapM (mapM_eq_ok.mp pairsRead) fun number pair _ read => ?_).made _
  exact hinges_emitPair bounded located read

/-- A table has a word for each of its cases. -/
theorem exists_tableBranch
    (decoded : Instruction.decode code placed.site.instruction.offset = .ok placed.site.instruction)
    (kind : placed.site.instruction.opcode = Opcode.tableSwitch) : ∃ default low high cases,
      placed.site.instruction.word code placed.site.instruction.operands = .ok default ∧
      placed.site.instruction.word code (placed.site.instruction.operands + 4) = .ok low ∧
      placed.site.instruction.word code (placed.site.instruction.operands + 8) = .ok high ∧
      ((List.range (high - low + 1).toNat).mapM fun number =>
        placed.site.instruction.word code (placed.site.instruction.operands + 12 + 4 * number)) =
          .ok cases := by
  obtain ⟨_, _, length, stop⟩ := Instruction.decode_eq_ok.mp decoded
  rw [Instruction.decodeLength, Opcode.shape_eq_tableSwitch_iff.mpr kind] at length
  obtain ⟨low, high, lowRead, highRead, _, size⟩ := Instruction.tableSwitchLength_eq_ok.mp length
  unfold Instruction.stop at stop
  dsimp only at size
  obtain ⟨default, defaultRead⟩ := Instruction.exists_word
    (show placed.site.instruction.operands + 4 ≤ code.size by unfold Instruction.operands; omega)
    placed.site.instruction.offset
  obtain ⟨cases, casesRead⟩ := exists_mapM fun number
      (member : number ∈ List.range (high - low + 1).toNat) =>
    have few := List.mem_range.mp member
    Instruction.exists_word (show placed.site.instruction.operands + 12 + 4 * number + 4 ≤ code.size by
      unfold Instruction.operands; omega) placed.site.instruction.offset
  exact ⟨default, low, high, cases, defaultRead, lowRead, highRead, casesRead⟩

/-- A lookup has a key and a distance for each of its pairs. -/
theorem exists_lookupBranch
    (decoded : Instruction.decode code placed.site.instruction.offset = .ok placed.site.instruction)
    (kind : placed.site.instruction.opcode = Opcode.lookupSwitch) : ∃ default count pairs,
      placed.site.instruction.word code placed.site.instruction.operands = .ok default ∧
      placed.site.instruction.word code (placed.site.instruction.operands + 4) = .ok count ∧
      ((List.range count.toNat).mapM fun number =>
        placed.site.instruction.pair code (placed.site.instruction.operands + 8 + 8 * number)) =
          .ok pairs := by
  obtain ⟨_, _, length, stop⟩ := Instruction.decode_eq_ok.mp decoded
  rw [Instruction.decodeLength, Opcode.shape_eq_lookupSwitch_iff.mpr kind] at length
  obtain ⟨count, countRead, _, size⟩ := Instruction.lookupSwitchLength_eq_ok.mp length
  unfold Instruction.stop at stop
  dsimp only at size
  obtain ⟨default, defaultRead⟩ := Instruction.exists_word
    (show placed.site.instruction.operands + 4 ≤ code.size by unfold Instruction.operands; omega)
    placed.site.instruction.offset
  have each (number : Nat) (member : number ∈ List.range count.toNat) : ∃ pair,
      placed.site.instruction.pair code (placed.site.instruction.operands + 8 + 8 * number) =
        .ok pair := by
    have few := List.mem_range.mp member
    have room : placed.site.instruction.operands + 8 + 8 * number + 8 ≤ code.size := by
      unfold Instruction.operands
      omega
    obtain ⟨key, keyRead⟩ := Instruction.exists_word (Nat.le_trans (Nat.add_le_add_left
      (by decide : 4 ≤ 8) _) room) placed.site.instruction.offset
    obtain ⟨distance, distanceRead⟩ :=
      Instruction.exists_word (Nat.add_assoc _ 4 4 ▸ room) placed.site.instruction.offset
    exact ⟨(key, distance), bind_eq_ok.mpr ⟨key, keyRead, bind_eq_ok.mpr ⟨distance, distanceRead, rfl⟩⟩⟩
  obtain ⟨pairs, pairsRead⟩ := exists_mapM each
  exact ⟨default, count, pairs, defaultRead, countRead, pairsRead⟩

/-- The default and all cases of a switch have to be mapped. -/
theorem hinges_emitSwitch (bounded : relocation.Bounded)
    (located : relocation.map placed.site.instruction.offset = .ok placed.start)
    (decoded : Instruction.decode code placed.site.instruction.offset = .ok placed.site.instruction)
    (switch : placed.site.instruction.jump? = some .switch) :
    Hinges relocation.unit (relocation.Emittable code placed)
      (relocation.emitSwitch code placed) := by
  have notShort : placed.site.instruction.jump? ≠ some .short := by simp [switch]
  unfold emitSwitch
  dsimp only
  rcases Opcode.jump?_eq_switch_iff.mp switch with kind | kind
  · obtain ⟨default, low, high, cases, defaultRead, lowRead, highRead, casesRead⟩ :=
      exists_tableBranch decoded kind
    have branch : placed.site.instruction.branch code = .ok (.table default low high cases) := by
      rw [Instruction.branch, switch]
      exact (if_pos kind).trans (bind_eq_ok.mpr ⟨_, defaultRead, bind_eq_ok.mpr ⟨_, lowRead,
        bind_eq_ok.mpr ⟨_, highRead, bind_eq_ok.mpr ⟨_, casesRead, rfl⟩⟩⟩⟩)
    refine ((hinges_emitCase bounded located defaultRead).bind fun _ _ => ?_).congr
      (List.forall_mem_cons.symm.trans (emittable_iff notShort branch).symm)
    rw [if_pos kind]
    exact (hinges_emitTable bounded located lowRead highRead casesRead).made _
  · have other : placed.site.instruction.opcode ≠ Opcode.tableSwitch := by
      rw [kind]
      decide
    obtain ⟨default, count, pairs, defaultRead, countRead, pairsRead⟩ :=
      exists_lookupBranch decoded kind
    have branch : placed.site.instruction.branch code = .ok (.lookup default pairs) := by
      rw [Instruction.branch, switch]
      exact (if_neg other).trans (bind_eq_ok.mpr ⟨_, defaultRead, bind_eq_ok.mpr ⟨_, countRead,
        bind_eq_ok.mpr ⟨_, pairsRead, rfl⟩⟩⟩)
    have table : Hinges relocation.unit
        (∀ distance ∈ pairs.map Prod.snd, relocation.Reaches placed.site.instruction distance)
        (relocation.emitPairs code placed (placed.site.instruction.operands + 4)) :=
      (hinges_emitPairs bounded located countRead pairsRead).congr (by rw [List.forall_mem_map])
    refine ((hinges_emitCase bounded located defaultRead).bind fun _ _ => ?_).congr
      (List.forall_mem_cons.symm.trans (emittable_iff notShort branch).symm)
    rw [if_neg other]
    exact table.made _

/-- A placed instruction is emitted exactly when its jumps allow it. -/
theorem hinges_emit (bounded : relocation.Bounded)
    (located : relocation.map placed.site.instruction.offset = .ok placed.start)
    (decoded : Instruction.decode code placed.site.instruction.offset = .ok placed.site.instruction)
    (loads : placed.site.index.isSome → Opcode.isLoad placed.site.instruction.opcode = true) :
    Hinges relocation.unit (relocation.Emittable code placed) (relocation.emit code placed) := by
  unfold emit
  split
  · rename_i index patched
    have load := loads (by rw [patched]; rfl)
    exact .done _ (emittable_of_plain (Opcode.shape_of_isLoad load).1)
  · dsimp only
    split
    · rename_i plain
      have stop := (Instruction.decode_eq_ok.mp decoded).2.2.2
      rw [Access.slice, if_pos ⟨Nat.le_add_right _ _, stop⟩]
      exact .done _ (emittable_of_plain plain)
    · rename_i short
      exact hinges_emitShort bounded located decoded short
    · rename_i long
      exact hinges_emitLong bounded located decoded long
    · rename_i switch
      exact hinges_emitSwitch bounded located decoded switch

/-- What some code needs in order to be laid out again with some patches. -/
structure Relocatable (patches : Nat → Option UInt16) (code : ByteArray)
    (instructions : List Instruction) : Prop where
  fits : Site.endFrom 0 (patchedSites patches instructions) ≤ 65535
  targets : ∀ instruction ∈ instructions, ∀ target, instruction.JumpsTo code target →
    Instruction.IsBoundary code instructions target
  near : ∀ instruction ∈ instructions, instruction.jump? = some .short →
    ∀ target start new : Nat, instruction.JumpsTo code target →
    Site.Puts code (patchedSites patches instructions) instruction.offset start →
    Site.Puts code (patchedSites patches instructions) target new →
    -32768 ≤ (new : Int) - start ∧ (new : Int) - start ≤ 32767

section Sites

variable {unit : String} {sites : List Site}

/-- The mapped offsets are the boundaries of the old code. -/
theorem exists_map_iff (tile : Site.Tile code 0 sites) (old : Nat) :
    (∃ new, (ofSites unit sites).map old = .ok new) ↔
      Instruction.IsBoundary code (sites.map Site.instruction) old := by
  simp only [map_eq_ok tile, Instruction.IsBoundary, ← Site.map_instruction_placeFrom sites,
    List.mem_map, exists_or, Int.ofNat_inj]
  simp

theorem reaches_iff (tile : Site.Tile code 0 sites) (instruction : Instruction) (distance : Int) :
    (ofSites unit sites).Reaches instruction distance ↔
      Instruction.IsBoundary code (sites.map Site.instruction) (instruction.offset + distance) := by
  unfold Reaches
  constructor
  · rintro ⟨old, new, same, mapped⟩
    rw [← same]
    exact (exists_map_iff tile old).mp ⟨new, mapped⟩
  · intro boundary
    obtain ⟨old, same⟩ : ∃ old : Nat, (old : Int) = instruction.offset + distance := by
      rcases boundary with ⟨target, _, same⟩ | same
      · exact ⟨target.offset, same⟩
      · exact ⟨code.size, same⟩
    rw [← same] at boundary
    obtain ⟨new, mapped⟩ := (exists_map_iff tile old).mpr boundary
    exact ⟨old, new, same, mapped⟩

/-- A relocation succeeds when there is room for the new code and each site can be emitted. -/
theorem hinges_relocate (tile : Site.Tile code 0 sites)
    (loads : ∀ site ∈ sites, site.index.isSome → Opcode.isLoad site.instruction.opcode = true) :
    Hinges unit (Site.endFrom 0 sites ≤ 65535 ∧
        ∀ placed ∈ Site.placeFrom 0 sites, (ofSites unit sites).Emittable code placed)
      (relocate unit code sites) := by
  unfold relocate
  rw [Site.place_eq]
  dsimp only
  split
  · rename_i long
    exact .refused _ fun both => Nat.not_le.mpr long both.1
  · rename_i short
    have fits := Nat.not_lt.mp short
    refine Hinges.congr ?_ (and_iff_right fits).symm
    have same : List.Forall₂ Eq (Site.placeFrom 0 sites) (Site.placeFrom 0 sites) :=
      List.forall₂_same.mpr fun _ _ => rfl
    refine (Hinges.mapM same ?_).made _
    rintro placed _ member rfl
    obtain ⟨_, _, _, decoded, among⟩ := (tile.bounds 0).2.2 placed member
    exact hinges_emit (bounded_ofSites tile fits)
      ((map_eq_ok tile _ _).mpr (.inl ⟨placed, member, rfl, rfl⟩)) decoded (loads placed.site among)

/-- The jumps of the placed sites allow it when those of the instructions do. -/
theorem forall_emittable_iff {patches : Nat → Option UInt16} {instructions : List Instruction}
    (tile : Site.Tile code 0 (patchedSites patches instructions)) :
    (Site.endFrom 0 (patchedSites patches instructions) ≤ 65535 ∧
      ∀ placed ∈ Site.placeFrom 0 (patchedSites patches instructions),
        (ofSites unit (patchedSites patches instructions)).Emittable code placed) ↔
      Relocatable patches code instructions := by
  have same : (patchedSites patches instructions).map Site.instruction = instructions := by
    rw [patchedSites, List.map_map]
    exact List.map_id instructions
  have puts (old new : Nat) : (ofSites unit (patchedSites patches instructions)).map old = .ok new ↔
      Site.Puts code (patchedSites patches instructions) old new := map_eq_ok tile old new
  have starts (placed : PlacedSite)
      (member : placed ∈ Site.placeFrom 0 (patchedSites patches instructions)) :
      Site.Puts code (patchedSites patches instructions) placed.site.instruction.offset
        placed.start := .inl ⟨placed, member, rfl, rfl⟩
  have placed (instruction : Instruction) : instruction ∈ instructions ↔
      ∃ placed ∈ Site.placeFrom 0 (patchedSites patches instructions),
        placed.site.instruction = instruction := by
    rw [← List.mem_map, Site.map_instruction_placeFrom, same]
  constructor
  · rintro ⟨fits, each⟩
    refine ⟨fits, fun instruction member => ?_, fun instruction member short => ?_⟩
    · rintro target ⟨branch, distance, read, jump, rfl⟩
      obtain ⟨site, among, rfl⟩ := (placed instruction).mp member
      have reaches := (each site among).reaches branch read distance jump
      rwa [reaches_iff tile, same] at reaches
    · intro target start new jumps here there
      obtain ⟨site, among, rfl⟩ := (placed instruction).mp member
      have first := (puts _ _).mpr (starts site among)
      obtain rfl := Except.ok.inj (first.symm.trans ((puts _ _).mpr here))
      exact (each site among).near short target new jumps ((puts _ _).mpr there)
  · intro relocatable
    refine ⟨relocatable.fits, fun site member => ?_⟩
    have among := (placed _).mpr ⟨site, member, rfl⟩
    refine ⟨fun branch read distance jump => ?_, fun short target new jumps there => ?_⟩
    · rw [reaches_iff tile, same]
      exact relocatable.targets _ among _ ⟨branch, distance, read, jump, rfl⟩
    · exact relocatable.near _ among short target _ new jumps (starts site member)
        ((puts _ _).mp there)

end Sites

/-- The instructions of some code tile it whatever is patched. -/
theorem tile_patchedSites {patches : Nat → Option UInt16} {instructions : List Instruction}
    (tiles : Instruction.Tiles code 0 instructions) :
    Site.Tile code 0 (patchedSites patches instructions) := by
  rw [Site.tile_iff, patchedSites, List.map_map]
  exact (List.map_id instructions).symm ▸ tiles

/-- Only loads are patched, since decoding tells which instruction stands at an offset. -/
theorem isLoad_patchedSites {patches : Nat → Option UInt16} {instructions : List Instruction}
    (decoded : ∀ instruction ∈ instructions,
      Instruction.decode code instruction.offset = .ok instruction)
    (loads : ∀ offset index, patches offset = some index → ∃ instruction ∈ instructions,
      instruction.offset = offset ∧ Opcode.isLoad instruction.opcode = true) :
    ∀ site ∈ patchedSites patches instructions,
      site.index.isSome → Opcode.isLoad site.instruction.opcode = true := by
  intro site member patched
  obtain ⟨instruction, among, rfl⟩ := List.mem_map.mp member
  obtain ⟨index, same⟩ := Option.isSome_iff_exists.mp patched
  obtain ⟨other, otherAmong, sameOffset, load⟩ := loads _ _ same
  have found := decoded other otherAmong
  rw [sameOffset, decoded instruction among] at found
  rwa [Except.ok.inj found]

/-- Code is relocated exactly when it can be laid out again: there is room for it, its jumps lead to
boundaries, and its short jumps stay near. Otherwise it is refused in the name of the unit. -/
theorem relocate_succeeds_iff (unit : String) {patches : Nat → Option UInt16}
    {instructions : List Instruction} (decoded : Instruction.decodeAll code = .ok instructions)
    (loads : ∀ offset index, patches offset = some index → ∃ instruction ∈ instructions,
      instruction.offset = offset ∧ (instruction.opcode = Opcode.loadConstant ∨
        instruction.opcode = Opcode.loadConstantWide)) :
    ((∃ out relocation, relocate unit code (patchedSites patches instructions) =
        .ok (out, relocation)) ↔ Relocatable patches code instructions) ∧
      ∀ failure, relocate unit code (patchedSites patches instructions) = .error failure →
        ∃ fault, failure = .relocation unit fault := by
  have tiles := Instruction.decodeAll_eq_ok.mp decoded
  have tile : Site.Tile code 0 (patchedSites patches instructions) := tile_patchedSites tiles
  have isLoad (site : Site) (member : site ∈ patchedSites patches instructions)
      (patched : site.index.isSome) : Opcode.isLoad site.instruction.opcode = true := by
    obtain ⟨instruction, among, rfl⟩ := List.mem_map.mp member
    obtain ⟨index, same⟩ := Option.isSome_iff_exists.mp patched
    obtain ⟨other, otherAmong, sameOffset, kind⟩ := loads _ _ same
    have found := tiles.decoded other otherAmong
    rw [sameOffset, tiles.decoded instruction among] at found
    obtain rfl := Except.ok.inj found
    rcases kind with narrow | wide
    · exact narrow ▸ by decide
    · exact wide ▸ by decide
  have relocated : Hinges unit _ _ := hinges_relocate tile isLoad
  have hinges := relocated.congr (forall_emittable_iff tile)
  refine ⟨?_, fun failure => hinges.refusal⟩
  rw [← hinges.isOk_iff, Prod.exists]

/-- A jump over a widened load can be relocated, because the load has room to grow. -/
theorem relocate_succeeds_iff_jump :
    let code : ByteArray := ⟨#[0xA7, 0, 5, 0x12, 1, 0xB1]⟩
    let instructions : List Instruction :=
      [⟨0, 0xA7, 3, by decide⟩, ⟨3, 0x12, 2, by decide⟩, ⟨5, 0xB1, 1, by decide⟩]
    let patches : Nat → Option UInt16 := fun offset => if offset = 3 then some 300 else none
    Instruction.decodeAll code = .ok instructions ∧ Relocatable patches code instructions := by
  intro code instructions patches
  have decoded : Instruction.decodeAll code = .ok instructions :=
    Instruction.decodeAll_eq_ok.mpr (.step rfl (.step rfl (.step rfl .done)))
  have loads (offset : Nat) (index : UInt16) (patched : patches offset = some index) :
      ∃ instruction ∈ instructions, instruction.offset = offset ∧
        (instruction.opcode = Opcode.loadConstant ∨
          instruction.opcode = Opcode.loadConstantWide) := by
    by_cases here : offset = 3
    · subst here
      exact ⟨⟨3, 0x12, 2, by decide⟩, by simp [instructions], rfl, .inl rfl⟩
    · simp [patches, here] at patched
  have done : (relocate "Example" code (patchedSites patches instructions)).isOk = true := by
    decide +kernel
  refine ⟨decoded, (relocate_succeeds_iff "Example" decoded loads).1.mp ?_⟩
  cases found : relocate "Example" code (patchedSites patches instructions) with
  | error failure =>
    rw [found] at done
    cases done
  | ok result => exact ⟨result.1, result.2, rfl⟩

end Relocation

end EnumNames
