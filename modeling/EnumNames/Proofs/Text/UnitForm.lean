import EnumNames.Text.ModifiedUtf8
import EnumNames.Proofs.Bytes.Form

/-!
The grammar of texts in class files. A 16-bit unit is one byte, a pair or a triple of bytes whose
free bits are the bits of the unit. The units are split off exactly when the bytes are such forms
one after the other, and otherwise the first byte that no form allows is blamed.
-/

namespace EnumNames.ModifiedUtf8

/-- The bytes are `0xxxxxxx`, `110xxxxx 10xxxxxx` or `1110xxxx 10xxxxxx 10xxxxxx`, and the free bits
put together are the unit. A unit may be written with more bytes than it needs. -/
inductive UnitForm : List UInt8 → UInt16 → Prop where
  | single {lead : UInt8} {unit : UInt16} (bits : lead.toNat < 0x80)
      (value : unit.toNat = lead.toNat) : UnitForm [lead] unit
  | pair {lead second : UInt8} {unit : UInt16} (high low : Nat) (bits : high < 0x20 ∧ low < 0x40)
      (first : lead.toNat = 0xC0 + high) (last : second.toNat = 0x80 + low)
      (value : unit.toNat = high * 0x40 + low) : UnitForm [lead, second] unit
  | triple {lead second third : UInt8} {unit : UInt16} (high middle low : Nat)
      (bits : high < 0x10 ∧ middle < 0x40 ∧ low < 0x40) (first : lead.toNat = 0xE0 + high)
      (next : second.toNat = 0x80 + middle) (last : third.toNat = 0x80 + low)
      (value : unit.toNat = high * 0x1000 + middle * 0x40 + low) :
      UnitForm [lead, second, third] unit

/-- The bytes are the forms of the units, one after the other, and nothing else. -/
inductive Joined (form : List UInt8 → UInt16 → Prop) : List UInt8 → List UInt16 → Prop where
  | nil : Joined form [] []
  | cons {piece bytes : List UInt8} {unit : UInt16} {units : List UInt16} (first : form piece unit)
      (rest : Joined form bytes units) : Joined form (piece ++ bytes) (unit :: units)

/-- This byte can only stand behind the first byte of a form. -/
def Continues (byte : UInt8) : Prop := 0x80 ≤ byte.toNat ∧ byte.toNat < 0xC0

/-- The bytes end, or go on with a byte that starts something new. -/
def Stops : List UInt8 → Prop
  | [] => True
  | byte :: _ => ¬ Continues byte

/-- No form starts these bytes. So many bytes could still start one, and the byte behind them, or
their end, is the fault. -/
inductive Breaks : List UInt8 → Nat → ClassFault → Prop where
  | lead {lead : UInt8} {rest : List UInt8} (noLead : Continues lead ∨ 0xF0 ≤ lead.toNat) :
      Breaks (lead :: rest) 0 (.invalidLeadByte lead)
  | second {lead : UInt8} {rest : List UInt8} (isLead : 0xC0 ≤ lead.toNat ∧ lead.toNat < 0xF0)
      (stops : Stops rest) : Breaks (lead :: rest) 1 .truncatedCharacter
  | third {lead second : UInt8} {rest : List UInt8}
      (isLead : 0xE0 ≤ lead.toNat ∧ lead.toNat < 0xF0) (continues : Continues second)
      (stops : Stops rest) : Breaks (lead :: second :: rest) 2 .truncatedCharacter

/-- The leading bits of a byte tell its range. This is checked byte by byte. -/
theorem leading_bits (byte : UInt8) :
    (isSingle byte = true ↔ byte.toNat < 0x80) ∧
    (isPairLead byte = true ↔ 0xC0 ≤ byte.toNat ∧ byte.toNat < 0xE0) ∧
    (isTripleLead byte = true ↔ 0xE0 ≤ byte.toNat ∧ byte.toNat < 0xF0) ∧
    (isContinuation byte = true ↔ 0x80 ≤ byte.toNat ∧ byte.toNat < 0xC0) := by
  induction byte using forall_byte with
  | each number =>
    revert number
    decide +kernel

theorem isSingle_iff (byte : UInt8) : isSingle byte = true ↔ byte.toNat < 0x80 :=
  (leading_bits byte).1

theorem isPairLead_iff (byte : UInt8) :
    isPairLead byte = true ↔ 0xC0 ≤ byte.toNat ∧ byte.toNat < 0xE0 := (leading_bits byte).2.1

theorem isTripleLead_iff (byte : UInt8) :
    isTripleLead byte = true ↔ 0xE0 ≤ byte.toNat ∧ byte.toNat < 0xF0 := (leading_bits byte).2.2.1

theorem isContinuation_iff (byte : UInt8) : isContinuation byte = true ↔ Continues byte :=
  (leading_bits byte).2.2.2

section Equations

variable {lead second third : UInt8} {rest : List UInt8} (done : List UInt16) (offset : Nat)

/-- One byte is a unit by itself. -/
theorem unitsOnto_single (isLead : lead.toNat < 0x80) : unitsOnto done offset (lead :: rest) =
    unitsOnto (lead.toUInt16 :: done) (offset + 1) rest := by
  rw [unitsOnto.eq_def]
  exact if_pos ((isSingle_iff lead).mpr isLead)

/-- What follows a first byte depends on the range of that byte. -/
theorem unitsOnto_pairLead (isLead : 0xC0 ≤ lead.toNat ∧ lead.toNat < 0xE0) :
    unitsOnto done offset (lead :: rest) =
      match rest with
      | [] => .error (.malformedClass (offset + 1) .truncatedCharacter)
      | second :: rest =>
        if isContinuation second then
          unitsOnto (pairUnit lead second :: done) (offset + 2) rest
        else
          .error (.malformedClass (offset + 1) .truncatedCharacter) := by
  have notSingle : ¬ isSingle lead = true := by
    rw [isSingle_iff]
    omega
  rw [unitsOnto.eq_def]
  exact (if_neg notSingle).trans (if_pos ((isPairLead_iff lead).mpr isLead))

theorem unitsOnto_tripleLead (isLead : 0xE0 ≤ lead.toNat ∧ lead.toNat < 0xF0) :
    unitsOnto done offset (lead :: rest) =
      match rest with
      | [] => .error (.malformedClass (offset + 1) .truncatedCharacter)
      | [second] =>
        .error (.malformedClass (offset + if isContinuation second then 2 else 1)
          .truncatedCharacter)
      | second :: third :: rest =>
        if isContinuation second then
          if isContinuation third then
            unitsOnto (tripleUnit lead second third :: done) (offset + 3) rest
          else
            .error (.malformedClass (offset + 2) .truncatedCharacter)
        else
          .error (.malformedClass (offset + 1) .truncatedCharacter) := by
  have notSingle : ¬ isSingle lead = true := by
    rw [isSingle_iff]
    omega
  have notPair : ¬ isPairLead lead = true := by
    rw [isPairLead_iff]
    omega
  rw [unitsOnto.eq_def]
  exact (if_neg notSingle).trans ((if_neg notPair).trans
    (if_pos ((isTripleLead_iff lead).mpr isLead)))

theorem unitsOnto_noLead (noLead : Continues lead ∨ 0xF0 ≤ lead.toNat) :
    unitsOnto done offset (lead :: rest) =
      .error (.malformedClass offset (.invalidLeadByte lead)) := by
  have bits : ¬ isSingle lead = true ∧ ¬ isPairLead lead = true ∧ ¬ isTripleLead lead = true := by
    rw [isSingle_iff, isPairLead_iff, isTripleLead_iff]
    unfold Continues at noLead
    omega
  rw [unitsOnto.eq_def]
  exact (if_neg bits.1).trans ((if_neg bits.2.1).trans (if_neg bits.2.2))

/-- The free bits of two bytes are put together. -/
theorem toNat_pairUnit {high low : Nat} (bits : high < 0x20 ∧ low < 0x40)
    (first : lead.toNat = 0xC0 + high) (last : second.toNat = 0x80 + low) :
    (pairUnit lead second).toNat = high * 0x40 + low := by
  rw [pairUnit, UInt16.toNat_ofNat', first, last]
  omega

theorem toNat_tripleUnit {high middle low : Nat} (bits : high < 0x10 ∧ middle < 0x40 ∧ low < 0x40)
    (first : lead.toNat = 0xE0 + high) (next : second.toNat = 0x80 + middle)
    (last : third.toNat = 0x80 + low) :
    (tripleUnit lead second third).toNat = high * 0x1000 + middle * 0x40 + low := by
  rw [tripleUnit, UInt16.toNat_ofNat', first, next, last]
  omega

/-- A form is read as its unit, whatever follows it. -/
theorem unitsOnto_form {piece : List UInt8} {unit : UInt16} (form : UnitForm piece unit) :
    unitsOnto done offset (piece ++ rest) =
      unitsOnto (unit :: done) (offset + piece.length) rest := by
  cases form with
  | single bits value =>
    rename_i lead
    have same : lead.toUInt16 = unit := by
      rw [← UInt16.toNat_inj, value, UInt8.toNat_toUInt16]
    rw [List.singleton_append, unitsOnto_single done offset bits, same]
    rfl
  | pair high low bits first last value =>
    rename_i lead second
    have continues : isContinuation second = true := by
      rw [isContinuation_iff, Continues]
      omega
    have same : pairUnit lead second = unit := by
      rw [← UInt16.toNat_inj, value, toNat_pairUnit bits first last]
    rw [List.cons_append, unitsOnto_pairLead done offset (by omega)]
    exact (if_pos continues).trans (by rw [same]; rfl)
  | triple high middle low bits first next last value =>
    rename_i lead second third
    have continues : isContinuation second = true ∧ isContinuation third = true := by
      rw [isContinuation_iff, isContinuation_iff, Continues, Continues]
      omega
    have same : tripleUnit lead second third = unit := by
      rw [← UInt16.toNat_inj, value, toNat_tripleUnit bits first next last]
    rw [List.cons_append, unitsOnto_tripleLead done offset (by omega)]
    exact (if_pos continues.1).trans ((if_pos continues.2).trans (by rw [same]; rfl))

/-- The fault is found and blamed on its position. -/
theorem unitsOnto_breaks {step : Nat} {fault : ClassFault} (breaks : Breaks rest step fault) :
    unitsOnto done offset rest = .error (.malformedClass (offset + step) fault) := by
  have stopped {byte : UInt8} (noMore : ¬ Continues byte) : ¬ isContinuation byte = true :=
    fun continues => noMore ((isContinuation_iff byte).mp continues)
  cases breaks with
  | lead noLead => exact unitsOnto_noLead done offset noLead
  | second isLead stops =>
    rename_i lead rest
    by_cases pair : lead.toNat < 0xE0
    · rw [unitsOnto_pairLead done offset ⟨isLead.1, pair⟩]
      cases rest with
      | nil => rfl
      | cons second rest => exact if_neg (stopped stops)
    · rw [unitsOnto_tripleLead done offset ⟨by omega, isLead.2⟩]
      match rest with
      | [] => rfl
      | [second] => simp only [if_neg (stopped stops)]
      | second :: third :: rest => exact if_neg (stopped stops)
  | third isLead continues stops =>
    rename_i lead second rest
    have isSecond := (isContinuation_iff second).mpr continues
    rw [unitsOnto_tripleLead done offset isLead]
    cases rest with
    | nil => simp only [if_pos isSecond]
    | cons third rest => exact (if_pos isSecond).trans (if_neg (stopped stops))

end Equations

/-- The free bits of a byte behind the first one. -/
theorem Continues.exists_low {byte : UInt8} (continues : Continues byte) :
    ∃ low, low < 0x40 ∧ byte.toNat = 0x80 + low := by
  obtain ⟨low, same⟩ := Nat.exists_eq_add_of_le continues.1
  have bound := continues.2
  exact ⟨low, by omega, same⟩

/-- Bytes start with a form, or they break. -/
theorem form_or_breaks (lead : UInt8) (rest : List UInt8) :
    (∃ piece unit later, UnitForm piece unit ∧ lead :: rest = piece ++ later) ∨
      ∃ step fault, Breaks (lead :: rest) step fault := by
  by_cases single : lead.toNat < 0x80
  · exact .inl ⟨[lead], lead.toUInt16, rest, .single single lead.toNat_toUInt16, rfl⟩
  by_cases noLead : Continues lead ∨ 0xF0 ≤ lead.toNat
  · exact .inr ⟨0, _, .lead noLead⟩
  have isLead : 0xC0 ≤ lead.toNat ∧ lead.toNat < 0xF0 := by
    unfold Continues at noLead
    omega
  match rest with
  | [] => exact .inr ⟨1, _, .second isLead trivial⟩
  | second :: rest =>
    by_cases isSecond : Continues second
    · obtain ⟨middle, middleBits, next⟩ := isSecond.exists_low
      by_cases pair : lead.toNat < 0xE0
      · obtain ⟨high, first⟩ := Nat.exists_eq_add_of_le isLead.1
        have bits : high < 0x20 ∧ middle < 0x40 := ⟨by omega, middleBits⟩
        exact .inl ⟨[lead, second], _, rest,
          .pair high middle bits first next (toNat_pairUnit bits first next), rfl⟩
      · have isTriple : 0xE0 ≤ lead.toNat ∧ lead.toNat < 0xF0 := ⟨by omega, isLead.2⟩
        match rest with
        | [] => exact .inr ⟨2, _, .third isTriple isSecond trivial⟩
        | third :: rest =>
          by_cases isThird : Continues third
          · obtain ⟨high, first⟩ := Nat.exists_eq_add_of_le isTriple.1
            obtain ⟨low, lowBits, last⟩ := isThird.exists_low
            have bits : high < 0x10 ∧ middle < 0x40 ∧ low < 0x40 := ⟨by omega, middleBits, lowBits⟩
            exact .inl ⟨[lead, second, third], _, rest, .triple high middle low bits first next last
              (toNat_tripleUnit bits first next last), rfl⟩
          · exact .inr ⟨2, _, .third isTriple isSecond isThird⟩
    · exact .inr ⟨1, _, .second isLead isSecond⟩

/-- Where bytes break no form starts, however it goes on. -/
theorem Breaks.noForm {bytes : List UInt8} {step : Nat} {fault : ClassFault}
    (breaks : Breaks bytes step fault) {piece later : List UInt8} {unit : UInt16}
    (form : UnitForm piece unit) : bytes ≠ piece ++ later := by
  intro same
  cases breaks <;> cases form <;> grind [Continues, Stops]

theorem Breaks.le_length {bytes : List UInt8} {step : Nat} {fault : ClassFault}
    (breaks : Breaks bytes step fault) : step ≤ bytes.length := by
  cases breaks <;> simp

theorem UnitForm.length_pos {piece : List UInt8} {unit : UInt16} (form : UnitForm piece unit) :
    0 < piece.length := by
  cases form <;> simp

/-- A form has no byte of those that start four bytes of plain UTF-8. -/
theorem UnitForm.small {piece : List UInt8} {unit : UInt16} (form : UnitForm piece unit) :
    ∀ byte ∈ piece, byte.toNat < 0xF0 := by
  cases form <;> grind

namespace Joined

variable {form : List UInt8 → UInt16 → Prop} {bytes : List UInt8} {units : List UInt16}

theorem small (joined : Joined UnitForm bytes units) : ∀ byte ∈ bytes, byte.toNat < 0xF0 := by
  induction joined with
  | nil => simp
  | cons first rest inductionHypothesis =>
    intro byte member
    exact (List.mem_append.mp member).elim (first.small byte) (inductionHypothesis byte)

/-- The units are split off in turn; the induction is on the forms. -/
theorem unitsOnto_append (joined : Joined UnitForm bytes units) (done : List UInt16) (offset : Nat)
    (rest : List UInt8) : unitsOnto done offset (bytes ++ rest) =
      unitsOnto (units.reverse ++ done) (offset + bytes.length) rest := by
  induction joined generalizing done offset with
  | nil => rfl
  | cons first later inductionHypothesis =>
    rw [List.append_assoc, unitsOnto_form done offset first, inductionHypothesis]
    simp [Nat.add_assoc]

/-- Items are written one after the other. -/
theorem flatMap {α : Type} {encode : α → List UInt8} {unit : α → UInt16} {items : List α}
    (each : ∀ item ∈ items, form (encode item) (unit item)) :
    Joined form (items.flatMap encode) (items.map unit) := by
  induction items with
  | nil => exact .nil
  | cons item rest inductionHypothesis =>
    have ⟨first, later⟩ := List.forall_mem_cons.mp each
    exact .cons first (inductionHypothesis later)

theorem flatMap_units {encode : UInt16 → List UInt8} (each : ∀ unit, form (encode unit) unit)
    (units : List UInt16) : Joined form (units.flatMap encode) units := by
  have joined : Joined form (units.flatMap encode) (units.map fun unit => unit) :=
    flatMap fun unit _ => each unit
  rwa [List.map_id'] at joined

theorem unitsOnto_eq_ok (joined : Joined UnitForm bytes units) (offset : Nat) :
    unitsOnto [] offset bytes = .ok units := by
  have read := joined.unitsOnto_append [] offset []
  rw [List.append_nil, List.append_nil] at read
  rw [read, unitsOnto, List.reverse_reverse]

end Joined

/-- The induction is on the number of bytes; every form has at least one. -/
theorem joined_or_breaks (bytes : List UInt8) : (∃ units, Joined UnitForm bytes units) ∨
    ∃ before rest units step fault, bytes = before ++ rest ∧ Joined UnitForm before units ∧
      Breaks rest step fault := by
  match bytes with
  | [] => exact .inl ⟨[], .nil⟩
  | lead :: rest =>
    rcases form_or_breaks lead rest with ⟨piece, unit, later, form, same⟩ | ⟨step, fault, breaks⟩
    · have positive := form.length_pos
      rcases joined_or_breaks later with ⟨units, joined⟩ |
        ⟨before, rest, units, step, fault, split, joined, breaks⟩
      · exact .inl ⟨unit :: units, same ▸ .cons form joined⟩
      · refine .inr ⟨piece ++ before, rest, unit :: units, step, fault, ?_, .cons form joined,
          breaks⟩
        rw [same, split, List.append_assoc]
    · exact .inr ⟨[], lead :: rest, [], step, fault, rfl, .nil, breaks⟩
termination_by bytes.length
decreasing_by
  rw [same, List.length_append]
  exact Nat.lt_add_of_pos_left positive

/-- Exactly the units are found whose forms the bytes are. -/
theorem units_eq_ok {bytes : ByteArray} {offset : Nat} {list : List UInt16} :
    units bytes offset = .ok list ↔ Joined UnitForm bytes.data.toList list := by
  refine ⟨fun read => ?_, fun joined => joined.unitsOnto_eq_ok offset⟩
  rcases joined_or_breaks bytes.data.toList with ⟨other, joined⟩ |
    ⟨before, rest, other, step, fault, split, joined, breaks⟩
  · rw [units, joined.unitsOnto_eq_ok offset] at read
    rwa [← Except.ok.inj read]
  · rw [units, split, joined.unitsOnto_append, unitsOnto_breaks _ _ breaks] at read
    cases read

/-- Bytes that cannot be split break behind their last form, and the failure says where. -/
theorem units_eq_error {bytes : ByteArray} {offset : Nat} {failure : Failure}
    (failed : units bytes offset = .error failure) :
    ∃ before rest list step fault, bytes.data.toList = before ++ rest ∧
      Joined UnitForm before list ∧ Breaks rest step fault ∧
      failure = .malformedClass (offset + before.length + step) fault := by
  rcases joined_or_breaks bytes.data.toList with ⟨list, joined⟩ |
    ⟨before, rest, list, step, fault, split, joined, breaks⟩
  · rw [units, joined.unitsOnto_eq_ok offset] at failed
    cases failed
  · rw [units, split, joined.unitsOnto_append, unitsOnto_breaks _ _ breaks] at failed
    exact ⟨before, rest, list, step, fault, split, joined, breaks, (Except.error.inj failed).symm⟩

end EnumNames.ModifiedUtf8
