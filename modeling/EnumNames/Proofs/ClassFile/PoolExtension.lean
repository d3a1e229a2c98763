import EnumNames.Proofs.ClassFile.PoolForm
import EnumNames.Proofs.Outcome
import Mathlib.Order.Bounds.Defs

/-!
A pool only grows at its end. Every lookup that succeeded keeps its result, the appended bytes are
the written form of the appended constants, and an interned value is found at its index.
-/

namespace EnumNames

namespace ConstantPool

/-- A pool extends another one when it keeps all slots of that pool at their indices. -/
def Extends (pool source : ConstantPool) : Prop :=
  ∃ added : List (Option Constant), pool.slots.toList = source.slots.toList ++ added

namespace Extends

theorem refl (pool : ConstantPool) : pool.Extends pool := ⟨[], (List.append_nil _).symm⟩

theorem trans {first second third : ConstantPool} (later : third.Extends second)
    (earlier : second.Extends first) : third.Extends first := by
  obtain ⟨more, same⟩ := later
  obtain ⟨added, equal⟩ := earlier
  exact ⟨added ++ more, by rw [same, equal, List.append_assoc]⟩

variable {pool source : ConstantPool}

/-- A slot keeps its content, also when it is empty. -/
theorem slot (extension : pool.Extends source) {index : Nat} {content : Option Constant}
    (found : source.slots[index]? = some content) : pool.slots[index]? = some content := by
  obtain ⟨added, same⟩ := extension
  rw [← Array.getElem?_toList] at found ⊢
  obtain ⟨inside, _⟩ := List.getElem?_eq_some_iff.mp found
  rw [same, List.getElem?_append_left inside]
  exact found

end Extends

theorem get_eq_ok {pool : ConstantPool} {index : UInt16} {constant : Constant} :
    pool.get index = .ok constant ↔ pool.slots[index.toNat]? = some (some constant) := by
  unfold get
  split
  · rename_i found same
    rw [same, Except.ok.injEq, Option.some.injEq, Option.some.injEq]
  · rename_i missing
    constructor
    · intro done
      cases done
    · intro found
      exact absurd found (missing constant)

theorem utf8_eq_ok {pool : ConstantPool} {index : UInt16} {text : String} :
    pool.utf8 index = .ok text ↔ pool.get index = .ok (.utf8 text) := by
  unfold utf8
  rw [bind_eq_ok]
  constructor
  · rintro ⟨constant, found, read⟩
    cases constant <;> cases read
    exact found
  · intro found
    exact ⟨_, found, rfl⟩

theorem className_eq_ok {pool : ConstantPool} {index : UInt16} {name : String} :
    pool.className index = .ok name ↔
      ∃ text, pool.get index = .ok (.classRef text) ∧ pool.utf8 text = .ok name := by
  unfold className
  rw [bind_eq_ok]
  constructor
  · rintro ⟨constant, found, read⟩
    cases constant with
    | classRef text => exact ⟨text, found, read⟩
    | _ => cases read
  · rintro ⟨text, found, read⟩
    exact ⟨_, found, read⟩

theorem stringValue_eq_some {pool : ConstantPool} {index : UInt16} {value : String} :
    pool.stringValue index = .ok (some value) ↔
      ∃ text, pool.get index = .ok (.string text) ∧ pool.utf8 text = .ok value := by
  unfold stringValue
  rw [bind_eq_ok]
  constructor
  · rintro ⟨constant, found, read⟩
    cases constant with
    | string text =>
      obtain ⟨found', text', same⟩ := bind_eq_ok.mp read
      cases same
      exact ⟨text, found, text'⟩
    | _ => cases read
  · rintro ⟨text, found, read⟩
    exact ⟨_, found, bind_eq_ok.mpr ⟨_, read, rfl⟩⟩

theorem stringValue_eq_none {pool : ConstantPool} {index : UInt16} :
    pool.stringValue index = .ok none ↔
      ∃ constant, pool.get index = .ok constant ∧ ∀ text, constant ≠ .string text := by
  unfold stringValue
  rw [bind_eq_ok]
  constructor
  · rintro ⟨constant, found, read⟩
    refine ⟨constant, found, ?_⟩
    rintro text rfl
    obtain ⟨value, _, same⟩ := bind_eq_ok.mp read
    cases same
  · rintro ⟨constant, found, other⟩
    refine ⟨constant, found, ?_⟩
    cases constant with
    | string text => exact absurd rfl (other text)
    | _ => rfl

theorem nameAndType_eq_ok {pool : ConstantPool} {index : UInt16} {pair : UInt16 × UInt16} :
    pool.nameAndType index = .ok pair ↔ pool.get index = .ok (.nameAndType pair.1 pair.2) := by
  unfold nameAndType
  rw [bind_eq_ok]
  constructor
  · rintro ⟨constant, found, read⟩
    cases constant <;> cases read
    exact found
  · intro found
    exact ⟨_, found, rfl⟩

theorem memberRef_eq_ok {pool : ConstantPool} {index : UInt16} {member : MemberRef} :
    pool.memberRef index = .ok member ↔ ∃ kind owner nameAndType name descriptor,
      pool.get index = .ok (.member kind owner nameAndType) ∧
        pool.nameAndType nameAndType = .ok (name, descriptor) ∧
        pool.className owner = .ok member.owner ∧ pool.utf8 name = .ok member.name ∧
        pool.utf8 descriptor = .ok member.descriptor := by
  unfold memberRef
  rw [bind_eq_ok]
  constructor
  · rintro ⟨constant, found, read⟩
    cases constant with
    | member kind owner nameAndType =>
      obtain ⟨⟨name, descriptor⟩, pair, read⟩ := bind_eq_ok.mp read
      obtain ⟨ownerName, ownerFound, read⟩ := bind_eq_ok.mp read
      obtain ⟨memberName, nameFound, read⟩ := bind_eq_ok.mp read
      obtain ⟨memberDescriptor, descriptorFound, same⟩ := bind_eq_ok.mp read
      cases same
      exact ⟨kind, owner, nameAndType, name, descriptor, found, pair, ownerFound, nameFound,
        descriptorFound⟩
    | _ => cases read
  · rintro ⟨kind, owner, nameAndType, name, descriptor, found, pair, ownerFound, nameFound,
      descriptorFound⟩
    refine ⟨_, found, bind_eq_ok.mpr ⟨_, pair, ?_⟩⟩
    refine bind_eq_ok.mpr ⟨_, ownerFound, bind_eq_ok.mpr ⟨_, nameFound, ?_⟩⟩
    exact bind_eq_ok.mpr ⟨_, descriptorFound, rfl⟩

namespace Extends

variable {pool source : ConstantPool}

theorem get (extension : pool.Extends source) {index : UInt16} {constant : Constant}
    (found : source.get index = .ok constant) : pool.get index = .ok constant :=
  get_eq_ok.mpr (extension.slot (get_eq_ok.mp found))

theorem utf8 (extension : pool.Extends source) {index : UInt16} {text : String}
    (found : source.utf8 index = .ok text) : pool.utf8 index = .ok text :=
  utf8_eq_ok.mpr (extension.get (utf8_eq_ok.mp found))

theorem className (extension : pool.Extends source) {index : UInt16} {name : String}
    (found : source.className index = .ok name) : pool.className index = .ok name := by
  obtain ⟨text, reference, read⟩ := className_eq_ok.mp found
  exact className_eq_ok.mpr ⟨text, extension.get reference, extension.utf8 read⟩

theorem stringValue (extension : pool.Extends source) {index : UInt16} {value : Option String}
    (found : source.stringValue index = .ok value) : pool.stringValue index = .ok value := by
  cases value with
  | some value =>
    obtain ⟨text, reference, read⟩ := stringValue_eq_some.mp found
    exact stringValue_eq_some.mpr ⟨text, extension.get reference, extension.utf8 read⟩
  | none =>
    obtain ⟨constant, reference, other⟩ := stringValue_eq_none.mp found
    exact stringValue_eq_none.mpr ⟨constant, extension.get reference, other⟩

theorem memberRef (extension : pool.Extends source) {index : UInt16} {member : MemberRef}
    (found : source.memberRef index = .ok member) : pool.memberRef index = .ok member := by
  obtain ⟨kind, owner, nameAndType, name, descriptor, reference, pair, ownerFound, nameFound,
    descriptorFound⟩ := memberRef_eq_ok.mp found
  exact memberRef_eq_ok.mpr ⟨kind, owner, nameAndType, name, descriptor, extension.get reference,
    nameAndType_eq_ok.mpr (extension.get (nameAndType_eq_ok.mp pair)),
    extension.className ownerFound, extension.utf8 nameFound, extension.utf8 descriptorFound⟩

end Extends

/-- Some constants were appended, to the slots and to the bytes alike. -/
def Appended (source pool : ConstantPool) (constants : List WrittenConstant) : Prop :=
  pool.slots.toList = source.slots.toList ++ WrittenConstant.slots constants ∧
    pool.appended = source.appended ++ WrittenConstant.encode constants

namespace Appended

theorem none (pool : ConstantPool) : Appended pool pool [] := by
  constructor
  · exact (List.append_nil _).symm
  · exact ByteArray.append_empty.symm

variable {first second third source pool : ConstantPool}
  {earlier later constants : List WrittenConstant}

theorem trans (early : Appended first second earlier) (late : Appended second third later) :
    Appended first third (earlier ++ later) := by
  constructor
  · rw [late.1, early.1, WrittenConstant.slots_append, List.append_assoc]
  · rw [late.2, early.2, WrittenConstant.encode_append, ByteArray.append_assoc]

theorem extension (grown : Appended source pool constants) : pool.Extends source := ⟨_, grown.1⟩

/-- A pool that was read and then grew has the slots of the pool that is read with all constants. -/
theorem slots (grown : Appended (ofConstants earlier) pool later) :
    pool.slots = (ofConstants (earlier ++ later)).slots := by
  apply Array.toList_inj.mp
  rw [grown.1]
  simp [ofConstants]

end Appended

namespace Edit

variable {α β : Type} {first : Edit α} {second : α → Edit β} {pool next : ConstantPool}

theorem bind_eq_ok {result : β} : (first >>= second) pool = .ok result next ↔
    ∃ item middle, first pool = .ok item middle ∧ second item middle = .ok result next := by
  change EStateM.bind first second pool = _ ↔ _
  unfold EStateM.bind
  cases first pool with
  | ok item middle => simp
  | error failure middle => simp

/-- An edit of two steps fails at one of them. -/
theorem bind_eq_error {failure : Failure} (failed : (first >>= second) pool = .error failure next) :
    first pool = .error failure next ∨
      ∃ item middle, first pool = .ok item middle ∧ second item middle = .error failure next := by
  change EStateM.bind first second pool = _ at failed
  unfold EStateM.bind at failed
  cases done : first pool with
  | ok item middle =>
    rw [done] at failed
    exact .inr ⟨item, middle, rfl, failed⟩
  | error other middle =>
    rw [done] at failed
    cases failed
    exact .inl rfl

end Edit

/-- Appending a constant of one slot appends its written form. -/
theorem append_eq_ok {constant : Constant} {pool next : ConstantPool} {index : UInt16}
    (narrow : constant.isWide = false) (written : constant.WrittenAs constant.encode)
    (done : append constant pool = .ok index next) :
    Appended pool next [⟨constant, constant.encode, written⟩] ∧ next.count < 65536 ∧
      next.get index = .ok constant := by
  unfold append at done
  split at done
  · rename_i room
    cases done
    have grown : Appended pool ⟨pool.slots.push (some constant), pool.appended ++ constant.encode⟩
        [⟨constant, constant.encode, written⟩] := by
      constructor
      · simp [Constant.slots, narrow]
      · simp
    refine ⟨grown, ?_, ?_⟩
    · simp only [count, Array.size_push]
      omega
    · rw [get_eq_ok, BigEndian.toNat_ofNat_count (by omega)]
      exact Array.getElem?_push_size
  · cases done

/-- A search ends with the lowest of the wanted indices, and without a result if there are none. -/
def Finds (wanted : UInt16 → Prop) : Option UInt16 → Prop
  | some index => IsLeast {other | wanted other} index
  | none => ∀ index, ¬ wanted index

theorem Finds.congr {wanted other : UInt16 → Prop} {result : Option UInt16}
    (found : Finds wanted result) (same : ∀ index, wanted index ↔ other index) :
    Finds other result := by
  rwa [funext fun index => propext (same index)] at found

theorem finds_findIdx? {pool : ConstantPool} (fits : pool.count < 65536)
    (passes : Option Constant → Bool) :
    Finds (fun index => ∃ slot, pool.slots[index.toNat]? = some slot ∧ passes slot = true)
      ((pool.slots.findIdx? passes).map UInt16.ofNat) := by
  cases first : pool.slots.findIdx? passes with
  | none =>
    rintro index ⟨slot, here, passed⟩
    have failed := Array.findIdx?_eq_none_iff.mp first slot (Array.mem_of_getElem? here)
    rw [passed] at failed
    cases failed
  | some position =>
    obtain ⟨inside, passed, before⟩ := Array.findIdx?_eq_some_iff_getElem.mp first
    have number := BigEndian.toNat_ofNat_count (Nat.lt_trans inside fits)
    constructor
    · refine ⟨_, ?_, passed⟩
      rw [number, Array.getElem?_eq_getElem inside]
    · rintro other ⟨slot, here, passedToo⟩
      rw [UInt16.le_iff_toNat_le, number]
      refine Nat.le_of_not_lt fun lower => before other.toNat lower ?_
      obtain ⟨_, rfl⟩ := Array.getElem?_eq_some_iff.mp here
      exact passedToo

theorem finds_findText? {pool : ConstantPool} (fits : pool.count < 65536) (text : String) :
    Finds (fun index => pool.utf8 index = .ok text) (pool.findText? text) := by
  refine (finds_findIdx? fits _).congr fun index => ?_
  rw [utf8_eq_ok, get_eq_ok]
  constructor
  · rintro ⟨slot, here, passed⟩
    split at passed
    · rw [here, eq_of_beq passed]
    · cases passed
  · intro here
    exact ⟨_, here, beq_self_eq_true text⟩

theorem finds_findString? {pool : ConstantPool} (fits : pool.count < 65536) (value : String) :
    Finds (fun index => pool.stringValue index = .ok (some value)) (pool.findString? value) := by
  refine (finds_findIdx? fits _).congr fun index => ?_
  rw [stringValue_eq_some]
  constructor
  · rintro ⟨slot, here, passed⟩
    split at passed
    · rename_i text
      split at passed
      · rename_i found read
        exact ⟨text, get_eq_ok.mpr here, by rw [read, eq_of_beq passed]⟩
      · cases passed
    · cases passed
  · rintro ⟨text, here, read⟩
    refine ⟨_, get_eq_ok.mp here, ?_⟩
    simp only [read, beq_self_eq_true]

theorem findOrAppendText_eq_ok {pool next : ConstantPool} {text : String} {index : UInt16}
    (fits : pool.count < 65536) (done : findOrAppendText text pool = .ok index next) :
    ∃ constants, Appended pool next constants ∧ next.count < 65536 ∧
      next.utf8 index = .ok text := by
  unfold findOrAppendText at done
  split at done
  · rename_i found
    cases done
    have lowest := finds_findText? fits text
    rw [found] at lowest
    exact ⟨[], .none _, fits, lowest.1⟩
  · simp only at done
    split at done
    · rename_i short
      have written : (Constant.utf8 text).WrittenAs (Constant.utf8 text).encode :=
        ⟨ModifiedUtf8.encode text, short, ModifiedUtf8.decode_encode text 0, rfl⟩
      obtain ⟨grown, room, found⟩ := append_eq_ok rfl written done
      exact ⟨_, grown, room, utf8_eq_ok.mpr found⟩
    · cases done

/-- An interned value is found at its index, and the pool only grew. -/
theorem intern_eq_ok {pool next : ConstantPool} {value : String} {index : UInt16}
    (fits : pool.count < 65536) (done : intern value pool = .ok index next) :
    ∃ constants, Appended pool next constants ∧ next.count < 65536 ∧
      next.stringValue index = .ok (some value) := by
  unfold intern at done
  split at done
  · rename_i found
    cases done
    have lowest := finds_findString? fits value
    rw [found] at lowest
    exact ⟨[], .none _, fits, lowest.1⟩
  · obtain ⟨text, middle, textDone, done⟩ := Edit.bind_eq_ok.mp done
    obtain ⟨texts, textGrown, textFits, textFound⟩ := findOrAppendText_eq_ok fits textDone
    have written : (Constant.string text).WrittenAs (Constant.string text).encode := rfl
    obtain ⟨grown, room, found⟩ := append_eq_ok rfl written done
    refine ⟨_, textGrown.trans grown, room, ?_⟩
    exact stringValue_eq_some.mpr ⟨text, found, grown.extension.utf8 textFound⟩

end ConstantPool

end EnumNames
