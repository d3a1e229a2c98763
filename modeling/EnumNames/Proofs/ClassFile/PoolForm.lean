import EnumNames.ClassFile.ConstantPool
import EnumNames.Proofs.Bytes.Concat
import EnumNames.Proofs.ClassFile.ConstantForm

/-!
The written form of a constant pool. The bytes of a pool are its count and its constants one after
the other, and the slots follow from the constants.
-/

namespace EnumNames

/-- A constant together with the bytes it is written with. -/
structure WrittenConstant where
  constant : Constant
  bytes : ByteArray
  written : constant.WrittenAs bytes

/-- A wide constant is followed by an empty slot. -/
def Constant.slots (constant : Constant) : List (Option Constant) :=
  if constant.isWide then [some constant, none] else [some constant]

namespace WrittenConstant

/-- These are the slots of the pool behind the one at index zero. -/
def slots (constants : List WrittenConstant) : List (Option Constant) :=
  constants.flatMap fun item => item.constant.slots

def encode (constants : List WrittenConstant) : ByteArray :=
  Relocation.concat (constants.map bytes)

@[simp] theorem slots_nil : slots [] = [] := rfl

@[simp] theorem slots_cons (item : WrittenConstant) (rest : List WrittenConstant) :
    slots (item :: rest) = item.constant.slots ++ slots rest := rfl

@[simp] theorem slots_append (first second : List WrittenConstant) :
    slots (first ++ second) = slots first ++ slots second := List.flatMap_append

@[simp] theorem encode_nil : encode [] = .empty := rfl

@[simp] theorem encode_cons (item : WrittenConstant) (rest : List WrittenConstant) :
    encode (item :: rest) = item.bytes ++ encode rest := Relocation.concat_cons _ _

@[simp] theorem encode_append (first second : List WrittenConstant) :
    encode (first ++ second) = encode first ++ encode second := by
  rw [encode, List.map_append, Relocation.concat_append]
  rfl

end WrittenConstant

namespace ConstantPool

/-- This is the pool that is read from some constants. -/
def ofConstants (constants : List WrittenConstant) : ConstantPool :=
  ⟨(none :: WrittenConstant.slots constants).toArray, .empty⟩

@[simp] theorem count_ofConstants (constants : List WrittenConstant) :
    (ofConstants constants).count = (WrittenConstant.slots constants).length + 1 := by
  simp [count, ofConstants]

def slotsForm (missing : Nat) (slots : Array (Option Constant)) :
    Form (Array (Option Constant)) := fun _ text found =>
  ∃ constants, text = WrittenConstant.encode constants ∧
    found = slots ++ (WrittenConstant.slots constants).toArray ∧
    (WrittenConstant.slots constants).length = missing

theorem slotsForm_succ {missing start : Nat} {slots found : Array (Option Constant)}
    {text : ByteArray} :
    slotsForm (missing + 1) slots start text found ↔
      ∃ (item : WrittenConstant) (rest : ByteArray), text = item.bytes ++ rest ∧
        item.constant.slots.length ≤ missing + 1 ∧
        slotsForm (missing + 1 - item.constant.slots.length)
          (slots ++ item.constant.slots.toArray) (start + item.bytes.size) rest found := by
  constructor
  · rintro ⟨constants, rfl, rfl, length⟩
    match constants, length with
    | item :: constants, length =>
      rw [WrittenConstant.slots_cons, List.length_append] at length
      refine ⟨item, _, WrittenConstant.encode_cons _ _, by omega, constants, rfl, ?_, by omega⟩
      simp
  · rintro ⟨item, _, rfl, fits, constants, rfl, rfl, length⟩
    refine ⟨item :: constants, (WrittenConstant.encode_cons _ _).symm, by simp, ?_⟩
    rw [WrittenConstant.slots_cons, List.length_append]
    omega

theorem readSlots_succ (missing : Nat) (slots : Array (Option Constant)) :
    readSlots (missing + 1) slots = Constant.read >>= fun constant =>
      if missing + 1 < constant.slots.length then Reader.fail .poolOverrun
      else readSlots (missing + 1 - constant.slots.length) (slots ++ constant.slots.toArray) := by
  funext cursor
  rw [Reader.bind_apply]
  simp only [readSlots]
  cases Constant.read cursor with
  | error failure next => rfl
  | ok constant next =>
    by_cases wide : constant.isWide
    · cases missing with
      | zero => simp [Constant.slots, wide]
      | succ missing =>
        have two : slots ++ #[some constant, none] = (slots.push (some constant)).push none := rfl
        have room : ¬ missing + 1 + 1 < 2 := by omega
        simp [Constant.slots, wide, two, room]
    · simp [Constant.slots, wide]

/-- The induction is on the missing slots, of which one constant takes one or two. -/
theorem takes_readSlots (missing : Nat) (slots : Array (Option Constant)) :
    (readSlots missing slots).Takes (slotsForm missing slots) := by
  induction missing using Nat.strongRecOn generalizing slots with
  | ind missing inductionHypothesis =>
    have positive (constant : Constant) : 0 < constant.slots.length := by
      unfold Constant.slots
      split <;> simp
    cases missing with
    | zero =>
      refine (Reader.takes_pure slots).congr fun start text found => ?_
      constructor
      · rintro ⟨rfl, rfl⟩
        exact ⟨[], rfl, by simp, rfl⟩
      · rintro ⟨constants, rfl, rfl, length⟩
        match constants, length with
        | [], _ => exact ⟨rfl, by simp⟩
        | item :: rest, length =>
          have := positive item.constant
          rw [WrittenConstant.slots_cons, List.length_append] at length
          omega
    | succ missing =>
      rw [readSlots_succ]
      refine (Constant.takes_read.bind fun constant => (Reader.takes_fail _).unless
        (inductionHypothesis (missing + 1 - constant.slots.length) (by
          have := positive constant
          omega) _)).congr fun start text found => ?_
      rw [slotsForm_succ]
      constructor
      · rintro ⟨left, right, constant, rfl, written, fits, holds⟩
        exact ⟨⟨constant, left, written⟩, right, rfl, Nat.le_of_not_lt fits, holds⟩
      · rintro ⟨item, rest, rfl, fits, holds⟩
        exact ⟨item.bytes, rest, item.constant, rfl, item.written, Nat.not_lt.mpr fits, holds⟩

/-- A pool is read from its count and its constants. -/
theorem takes_read : read.Takes fun _ text pool => ∃ constants, pool = ofConstants constants ∧
    pool.count < 65536 ∧
    text = BigEndian.encodeCount pool.count ++ WrittenConstant.encode constants := by
  refine (Reader.takes_position.bind fun offset => Reader.takes_u2.bind fun count =>
    ((Reader.takes_failAt offset .emptyPool).refused_bind _).unless
      ((takes_readSlots (count.toNat - 1) #[none]).bind fun slots =>
        Reader.takes_pure (ConstantPool.mk slots .empty))).congr fun start text pool => ?_
  constructor
  · rintro ⟨_, _, _, rfl, ⟨rfl, rfl⟩, _, _, count, rfl, rfl, positive, _, _, _, rfl,
      ⟨constants, rfl, rfl, length⟩, rfl, rfl⟩
    have nonzero : count.toNat ≠ 0 := fun zero => positive (UInt16.toNat_inj.mp zero)
    have bound := count.toNat_lt
    have size : (ofConstants constants).count = count.toNat := by
      rw [count_ofConstants]
      omega
    have found : ConstantPool.mk (#[none] ++ (WrittenConstant.slots constants).toArray) .empty =
        ofConstants constants := by simp [ofConstants]
    rw [found, size]
    refine ⟨constants, rfl, bound, ?_⟩
    rw [ByteArray.empty_append, ByteArray.append_empty,
      (BigEndian.encodeCount_eq_encode16_iff bound count).mpr rfl]
  · rintro ⟨constants, rfl, fits, rfl⟩
    have count := BigEndian.toNat_ofNat_count fits
    refine ⟨_, _, start, ByteArray.empty_append.symm, ⟨rfl, rfl⟩, _, _, _, rfl, rfl, ?_, _, _, _,
      ByteArray.append_empty.symm, ⟨constants, rfl, rfl, ?_⟩, rfl, ?_⟩
    · intro zero
      rw [zero, count_ofConstants] at count
      exact absurd count (by simp)
    · rw [count, count_ofConstants]
      rfl
    · simp [ofConstants]

end ConstantPool

end EnumNames
