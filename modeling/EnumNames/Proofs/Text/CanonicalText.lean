import EnumNames.Proofs.Text.LoneSurrogate

/-!
The bytes that a text is written with, among all the bytes it is read from. Main statements: bytes
come back unchanged exactly when they are canonical, and bytes are read as the same text exactly
when their units differ in nothing but lone surrogates.
-/

namespace EnumNames.ModifiedUtf8

/-- No other form of the unit is shorter, the zero byte apart: a zero unit is never written as a
single byte. -/
structure ShortestForm (piece : List UInt8) (unit : UInt16) : Prop where
  form : UnitForm piece unit
  nonzero : piece ≠ [0]
  shortest : ∀ other, UnitForm other unit → other ≠ [0] → piece.length ≤ other.length

/-- Every unit has its shortest form, and every surrogate has a partner. -/
def IsCanonical (bytes : List UInt8) : Prop :=
  ∃ list, Joined ShortestForm bytes list ∧ ∀ index, Utf16.isLone list index = false

/-- A unit has at most one form of each length. -/
theorem UnitForm.unique {piece other : List UInt8} {unit : UInt16} (form : UnitForm piece unit)
    (otherForm : UnitForm other unit) (sameLength : piece.length = other.length) :
    piece = other := by
  cases form with
  | single =>
    cases otherForm with
    | single =>
      rw [List.cons.injEq, ← UInt8.toNat_inj]
      exact ⟨by omega, rfl⟩
    | _ => simp at sameLength
  | pair =>
    cases otherForm with
    | pair =>
      rw [List.cons.injEq, List.cons.injEq, ← UInt8.toNat_inj, ← UInt8.toNat_inj]
      exact ⟨by omega, by omega, rfl⟩
    | _ => simp at sameLength
  | triple =>
    cases otherForm with
    | triple =>
      rw [List.cons.injEq, List.cons.injEq, List.cons.injEq, ← UInt8.toNat_inj,
        ← UInt8.toNat_inj, ← UInt8.toNat_inj]
      exact ⟨by omega, by omega, by omega, rfl⟩
    | _ => simp at sameLength

theorem length_encodeUnit (unit : UInt16) : (encodeUnit unit).length =
    if unit.toNat ≠ 0 ∧ unit.toNat < 0x80 then 1 else if unit.toNat < 0x800 then 2 else 3 := by
  unfold encodeUnit
  dsimp only
  split_ifs <;> rfl

theorem shortestForm_encodeUnit (unit : UInt16) : ShortestForm (encodeUnit unit) unit where
  form := unitForm_encodeUnit unit
  nonzero := by
    intro zero
    have length := length_encodeUnit unit
    have form := unitForm_encodeUnit unit
    rw [zero] at length form
    cases form with
    | single bits value =>
      rw [if_neg fun single => single.1 value] at length
      split_ifs at length <;> cases length
  shortest other form nonzero := by
    rw [length_encodeUnit]
    cases form with
    | single bits value =>
      rename_i lead
      have positive : unit.toNat ≠ 0 := by
        intro zero
        have byte : lead = 0 := UInt8.toNat_inj.mp (value.symm.trans zero)
        exact nonzero (by rw [byte])
      rw [if_pos ⟨positive, by omega⟩]
      exact Nat.le_refl 1
    | pair high low bits first last value =>
      have short : unit.toNat < 0x800 := by omega
      split_ifs <;> simp
    | triple =>
      split_ifs <;> simp

/-- The shortest form is the one that is written. -/
theorem shortestForm_iff {piece : List UInt8} {unit : UInt16} :
    ShortestForm piece unit ↔ piece = encodeUnit unit := by
  have written := shortestForm_encodeUnit unit
  constructor
  · intro short
    have atMost := short.shortest _ written.form written.nonzero
    have atLeast := written.shortest _ short.form short.nonzero
    exact short.form.unique written.form (Nat.le_antisymm atMost atLeast)
  · rintro rfl
    exact written

theorem joined_shortest_iff {bytes : List UInt8} {list : List UInt16} :
    Joined ShortestForm bytes list ↔ bytes = list.flatMap encodeUnit := by
  constructor
  · intro joined
    induction joined with
    | nil => rfl
    | cons first rest inductionHypothesis =>
      rw [List.flatMap_cons, shortestForm_iff.mp first, inductionHypothesis]
  · rintro rfl
    exact .flatMap_units shortestForm_encodeUnit list

/-- Canonical bytes are the written texts. -/
theorem isCanonical_iff {bytes : ByteArray} :
    IsCanonical bytes.data.toList ↔ ∃ text, encode text = bytes := by
  constructor
  · rintro ⟨list, joined, paired⟩
    refine ⟨Utf16.decode list, ?_⟩
    rw [encode, Utf16.encode_decode, Utf16.mend_eq_self_iff.mpr paired,
      ← joined_shortest_iff.mp joined]
    exact ByteArray.ext (by rw [List.data_toByteArray, Array.toArray_toList])
  · rintro ⟨text, rfl⟩
    refine ⟨Utf16.encode text, ?_, ?_⟩
    · rw [joined_shortest_iff, encode, List.data_toByteArray]
    · rw [← Utf16.mend_eq_self_iff, ← Utf16.encode_decode, Utf16.decode_encode]

/-- Every text is read back from the bytes it is written with, and bytes that are read at all come
back unchanged exactly when they are canonical. -/
theorem encode_eq_iff_isCanonical (offset : Nat) :
    (∀ text, decode (encode text) offset = .ok text) ∧
      ∀ bytes text, decode bytes offset = .ok text →
        (encode text = bytes ↔ IsCanonical bytes.data.toList) := by
  refine ⟨fun text => decode_encode text offset, fun bytes text read => ?_⟩
  rw [isCanonical_iff]
  constructor
  · intro same
    exact ⟨text, same⟩
  · rintro ⟨other, rfl⟩
    rw [decode_encode] at read
    rw [Except.ok.inj read]

/-- A zero and a character beyond the basic plane: the canonical bytes come back, the shorter ones
of plain UTF-8 do not. -/
theorem encode_eq_iff_isCanonical_supplementary :
    decode ⟨#[0xC0, 0x80, 0xED, 0xA0, 0xBD, 0xED, 0xB8, 0x80]⟩ 7 = .ok "\x00😀" ∧
      IsCanonical [0xC0, 0x80, 0xED, 0xA0, 0xBD, 0xED, 0xB8, 0x80] ∧
      decode ⟨#[0x00, 0xF0, 0x9F, 0x98, 0x80]⟩ 7 = .ok "\x00😀" ∧
      ¬ IsCanonical [0x00, 0xF0, 0x9F, 0x98, 0x80] := by
  have canonical : decode ⟨#[0xC0, 0x80, 0xED, 0xA0, 0xBD, 0xED, 0xB8, 0x80]⟩ 7 = .ok "\x00😀" := rfl
  have plain : decode ⟨#[0x00, 0xF0, 0x9F, 0x98, 0x80]⟩ 7 = .ok "\x00😀" := rfl
  have same := ((encode_eq_iff_isCanonical 7).2 _ _ canonical).mp (by decide +kernel)
  refine ⟨canonical, same, plain, ?_⟩
  rw [← (encode_eq_iff_isCanonical 7).2 _ _ plain]
  decide +kernel

/-- Bytes made of units are always read, and they are read as the same text exactly when their units
differ in nothing but lone surrogates and the replacement character. Without lone surrogates they
have the same units. -/
theorem same_text_iff {first second : ByteArray} {units others : List UInt16}
    (firstJoined : Joined UnitForm first.data.toList units)
    (secondJoined : Joined UnitForm second.data.toList others) (offset otherOffset : Nat) :
    ∃ text other, decode first offset = .ok text ∧ decode second otherOffset = .ok other ∧
      (text = other ↔ Utf16.mend units = Utf16.mend others) ∧
      ((∀ index, Utf16.isLone units index = false) →
        (∀ index, Utf16.isLone others index = false) → text = other → units = others) := by
  refine ⟨_, _, decode_of_joined firstJoined offset, decode_of_joined secondJoined otherOffset,
    Utf16.decode_eq_iff, ?_⟩
  intro paired otherPaired same
  rw [Utf16.decode_eq_iff, Utf16.mend_eq_self_iff.mpr paired,
    Utf16.mend_eq_self_iff.mpr otherPaired] at same
  exact same

/-- A lone surrogate is read as the replacement character. -/
theorem same_text_iff_replacement :
    ∃ text other, decode ⟨#[0xED, 0xA0, 0x80]⟩ 12 = .ok text ∧
      decode ⟨#[0xEF, 0xBF, 0xBD]⟩ 25 = .ok other ∧
      (text = other ↔ Utf16.mend [0xD800] = Utf16.mend [0xFFFD]) ∧
      ((∀ index, Utf16.isLone [0xD800] index = false) →
        (∀ index, Utf16.isLone [0xFFFD] index = false) → text = other →
        [0xD800] = [(0xFFFD : UInt16)]) :=
  same_text_iff (units_eq_ok.mp (rfl : units _ 0 = _)) (units_eq_ok.mp (rfl : units _ 0 = _)) 12 25

/-- Two strings of one lone surrogate each are different, and they are read as the same text. -/
theorem lone_surrogates_read_alike :
    Joined ShortestForm [0xED, 0xA0, 0x80] [0xD800] ∧
      Joined ShortestForm [0xED, 0xA0, 0x81] [0xD801] ∧ [0xD800] ≠ [(0xD801 : UInt16)] ∧
      decode ⟨#[0xED, 0xA0, 0x80]⟩ 12 = .ok "\uFFFD" ∧
      decode ⟨#[0xED, 0xA0, 0x81]⟩ 25 = .ok "\uFFFD" :=
  ⟨joined_shortest_iff.mpr rfl, joined_shortest_iff.mpr rfl, by decide, rfl, rfl⟩

end EnumNames.ModifiedUtf8
