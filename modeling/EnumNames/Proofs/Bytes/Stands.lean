import EnumNames.Bytes.Access
import EnumNames.Proofs.Bytes.Concat
import EnumNames.Proofs.Outcome

/-!
Which bytes stand at an index. Every access to bytes by their position succeeds exactly when the
accessed piece stands there.
-/

namespace EnumNames

/-- The piece stands in the bytes at an index, between whatever is before and after it. -/
def Stands (bytes : ByteArray) (index : Nat) (piece : ByteArray) : Prop :=
  ∃ before after, bytes = before ++ (piece ++ after) ∧ before.size = index

namespace Stands

variable {bytes first second piece : ByteArray} {index : Nat}

theorem within (stands : Stands bytes index piece) : index + piece.size ≤ bytes.size := by
  obtain ⟨before, after, rfl, rfl⟩ := stands
  simp only [ByteArray.size_append]
  omega

theorem self (bytes : ByteArray) : Stands bytes 0 bytes :=
  ⟨.empty, .empty, by simp, rfl⟩

theorem between (before piece after : ByteArray) :
    Stands (before ++ (piece ++ after)) before.size piece := ⟨before, after, rfl, rfl⟩

/-- Some piece of any width stands at an index when there is room for it. -/
theorem exists_of_le {width : Nat} (inside : index + width ≤ bytes.size) :
    ∃ piece, piece.size = width ∧ Stands bytes index piece := by
  obtain ⟨before, rest, rfl, rfl⟩ :=
    exists_append_of_le_size (show index ≤ bytes.size by omega)
  rw [ByteArray.size_append] at inside
  obtain ⟨piece, after, rfl, rfl⟩ := exists_append_of_le_size (show width ≤ rest.size by omega)
  exact ⟨piece, rfl, between before piece after⟩

/-- More bytes at the end move nothing. -/
theorem append_right (stands : Stands bytes index piece) (more : ByteArray) :
    Stands (bytes ++ more) index piece := by
  obtain ⟨before, after, rfl, rfl⟩ := stands
  exact ⟨before, after ++ more, by simp only [ByteArray.append_assoc], rfl⟩

theorem extract (stands : Stands bytes index piece) :
    bytes.extract index (index + piece.size) = piece := by
  obtain ⟨before, after, rfl, rfl⟩ := stands
  exact extract_middle before piece after

/-- Only one piece of a size stands at an index. -/
theorem unique (one : Stands bytes index first) (other : Stands bytes index second)
    (size : first.size = second.size) : first = second := by
  rw [← one.extract, ← other.extract, size]

end Stands

/-- A concatenation stands where its parts stand one after the other. -/
theorem stands_append {bytes first second : ByteArray} {index : Nat} :
    Stands bytes index (first ++ second) ↔
      Stands bytes index first ∧ Stands bytes (index + first.size) second := by
  constructor
  · rintro ⟨before, after, rfl, rfl⟩
    refine ⟨⟨before, second ++ after, by rw [ByteArray.append_assoc], rfl⟩, ?_⟩
    refine ⟨before ++ first, after, ?_, ByteArray.size_append⟩
    rw [ByteArray.append_assoc, ByteArray.append_assoc]
  · rintro ⟨⟨before, rest, rfl, rfl⟩, left, after, same, size⟩
    have joined : before ++ first ++ rest = left ++ (second ++ after) := by
      rw [ByteArray.append_assoc, same]
    have front : before ++ first = left :=
      ByteArray.append_inj_left joined (by rw [ByteArray.size_append, size])
    have back : rest = second ++ after := by
      rw [← front, ← ByteArray.append_assoc] at same
      exact (ByteArray.append_right_inj _).mp same
    exact ⟨before, after, by rw [back, ByteArray.append_assoc], rfl⟩

namespace Stands

variable {bytes outer piece : ByteArray} {index : Nat}

/-- What stands inside a piece stands in the bytes around the piece as well. -/
theorem inside (stands : Stands bytes index outer) (offset : Nat)
    (inner : Stands outer offset piece) : Stands bytes (index + offset) piece := by
  obtain ⟨before, after, rfl, rfl⟩ := inner
  rw [stands_append, stands_append] at stands
  exact stands.2.1

/-- A piece of a part stands in the part. -/
theorem restrict (stands : Stands bytes index outer) (offset : Nat)
    (inner : Stands bytes (index + offset) piece) (fits : offset + piece.size ≤ outer.size) :
    Stands outer offset piece := by
  obtain ⟨found, size, holds⟩ := exists_of_le fits
  rw [inner.unique (stands.inside offset holds) size.symm]
  exact holds

/-- Pieces of one width stand at equal distances. -/
theorem item {pieces : List ByteArray} {width : Nat}
    (stands : Stands bytes index (Relocation.concat pieces))
    (equal : ∀ piece ∈ pieces, piece.size = width) {number : Nat}
    (found : pieces[number]? = some piece) : Stands bytes (index + width * number) piece := by
  induction pieces generalizing index number with
  | nil => cases found
  | cons first rest inductionHypothesis =>
    rw [Relocation.concat_cons, stands_append, equal first List.mem_cons_self] at stands
    cases number with
    | zero =>
      cases found
      exact stands.1
    | succ number =>
      have later := inductionHypothesis stands.2
        (fun piece member => equal piece (List.mem_cons_of_mem _ member)) found
      rwa [Nat.add_assoc, Nat.add_comm width, ← Nat.mul_succ] at later

end Stands

namespace Access

variable {bytes piece : ByteArray} {index : Nat}

theorem u1_eq_ok {byte : UInt8} : u1 bytes index = .ok byte ↔ Stands bytes index ⟨#[byte]⟩ := by
  constructor
  · intro done
    unfold u1 at done
    split at done
    · rename_i inside
      cases done
      obtain ⟨⟨⟨list⟩⟩, size, before, after, rfl, rfl⟩ :=
        Stands.exists_of_le (show index + 1 ≤ bytes.size from inside)
      obtain ⟨byte, rfl⟩ := List.length_eq_one_iff.mp size
      refine ⟨before, after, ?_, rfl⟩
      simp [ByteArray.getElem_append_right, ByteArray.getElem_append_left]
    · cases done
  · rintro ⟨before, after, rfl, rfl⟩
    have inside : before.size < (before ++ ((⟨#[byte]⟩ : ByteArray) ++ after)).size := by
      have one : (⟨#[byte]⟩ : ByteArray).size = 1 := rfl
      rw [ByteArray.size_append, ByteArray.size_append, one]
      omega
    rw [u1, dif_pos inside]
    simp [ByteArray.getElem_append_right, ByteArray.getElem_append_left]

/-- A byte is the same in bytes of one size in which it stands alike. -/
theorem u1_congr {other : ByteArray} (size : other.size = bytes.size)
    (same : ∀ byte, Stands bytes index ⟨#[byte]⟩ → Stands other index ⟨#[byte]⟩) :
    u1 other index = u1 bytes index := by
  by_cases inside : index < bytes.size
  · have found : u1 bytes index = .ok bytes[index] := dif_pos inside
    rw [found, u1_eq_ok]
    exact same _ (u1_eq_ok.mp found)
  · rw [u1, u1, dif_neg inside, dif_neg (by rwa [size]), size]

theorem u2_eq_ok {number : UInt16} :
    u2 bytes index = .ok number ↔ Stands bytes index (BigEndian.encode16 number) := by
  have read (before after : ByteArray) (high low : UInt8) :
      u2 (before ++ ((⟨#[high, low]⟩ : ByteArray) ++ after)) before.size =
        .ok (BigEndian.decode16 high low) := by
    rw [u2, dif_pos (by simp; omega)]
    simp [ByteArray.getElem_append_right, ByteArray.getElem_append_left]
  constructor
  · intro done
    by_cases inside : index + 2 ≤ bytes.size
    · obtain ⟨⟨⟨list⟩⟩, size, before, after, rfl, rfl⟩ := Stands.exists_of_le inside
      match list, size with
      | [high, low], _ =>
        rw [read, Except.ok.injEq] at done
        rw [← done, BigEndian.encode16_decode16]
        exact .between _ _ _
    · rw [u2, dif_neg (by omega)] at done
      cases done
  · rintro ⟨before, after, rfl, rfl⟩
    rw [BigEndian.encode16, read, BigEndian.decode16_encode16]

theorem i4?_eq_some {word : Int32} :
    i4? bytes index = some word ↔ Stands bytes index (BigEndian.encode32 word.toUInt32) := by
  have read (before after : ByteArray) (first second third fourth : UInt8) :
      i4? (before ++ ((⟨#[first, second, third, fourth]⟩ : ByteArray) ++ after)) before.size =
        some (BigEndian.decode32 first second third fourth).toInt32 := by
    rw [i4?, dif_pos (by simp; omega)]
    simp [ByteArray.getElem_append_right, ByteArray.getElem_append_left]
  constructor
  · intro done
    by_cases inside : index + 4 ≤ bytes.size
    · obtain ⟨⟨⟨list⟩⟩, size, before, after, rfl, rfl⟩ := Stands.exists_of_le inside
      match list, size with
      | [first, second, third, fourth], _ =>
        rw [read, Option.some.injEq] at done
        rw [← done, UInt32.toUInt32_toInt32, BigEndian.encode32_decode32]
        exact .between _ _ _
    · rw [i4?, dif_neg (by omega)] at done
      cases done
  · rintro ⟨before, after, rfl, rfl⟩
    rw [BigEndian.encode32, read, BigEndian.decode32_encode32, Int32.toInt32_toUInt32]

theorem slice_eq_ok {start stop : Nat} : slice bytes ⟨start, stop⟩ = .ok piece ↔
    stop = start + piece.size ∧ Stands bytes start piece := by
  constructor
  · intro done
    unfold slice at done
    split at done
    · rename_i inside
      change start ≤ stop ∧ stop ≤ bytes.size at inside
      cases done
      obtain ⟨found, size, stands⟩ :=
        Stands.exists_of_le (show start + (stop - start) ≤ bytes.size by omega)
      have width : stop = start + found.size := by omega
      rw [width, stands.extract]
      exact ⟨rfl, stands⟩
    · cases done
  · rintro ⟨rfl, stands⟩
    have inside := stands.within
    rw [slice, if_pos ⟨Nat.le_add_right _ _, inside⟩, stands.extract]

/-- An overwritten piece is replaced, and everything around it stays. -/
theorem overwrite_eq_ok {replacement result : ByteArray} :
    overwrite bytes index replacement = .ok result ↔ ∃ before old after,
      bytes = before ++ (old ++ after) ∧ before.size = index ∧ old.size = replacement.size ∧
        result = before ++ (replacement ++ after) := by
  have copied (before old after : ByteArray) (size : old.size = replacement.size) :
      replacement.copySlice 0 (before ++ (old ++ after)) before.size replacement.size =
        before ++ (replacement ++ after) := by
    have enough : min replacement.size (replacement.data.size - 0) = old.size := by
      rw [size]
      exact Nat.min_self _
    have front : (before ++ (old ++ after)).extract 0 before.size = before :=
      ByteArray.extract_append_eq_left rfl
    have back : (before ++ (old ++ after)).extract (before.size + old.size)
        (before ++ (old ++ after)).data.size = after := by
      rw [← ByteArray.append_assoc]
      exact ByteArray.extract_append_eq_right ByteArray.size_append.symm ByteArray.size_append
    rw [ByteArray.copySlice_eq_append, enough, front, back, Nat.zero_add,
      ByteArray.extract_zero_size, ByteArray.append_assoc]
  constructor
  · intro done
    unfold overwrite at done
    split at done
    · rename_i inside
      cases done
      obtain ⟨old, size, before, after, rfl, rfl⟩ := Stands.exists_of_le inside
      exact ⟨before, old, after, rfl, rfl, size, copied before old after size⟩
    · cases done
  · rintro ⟨before, old, after, rfl, rfl, size, rfl⟩
    rw [overwrite, if_pos, copied before old after size]
    simp only [ByteArray.size_append]
    omega

end Access

/-- What holds of every item where it stands holds of all placed items. -/
theorem Form.forall_mem_placeAll {α ω : Type} {encode : ω → ByteArray} {place : Nat → ω → α}
    {motive : α → Prop} {data : ByteArray} {start : Nat} {items : List ω}
    (stands : Stands data start (Relocation.concat (items.map encode)))
    (each : ∀ index item, start ≤ index → Stands data index (encode item) →
      motive (place index item)) :
    ∀ placed ∈ placeAll encode place start items, motive placed := by
  induction items generalizing start with
  | nil => simp [placeAll]
  | cons item rest inductionHypothesis =>
    rw [List.map_cons, Relocation.concat_cons, stands_append] at stands
    refine List.forall_mem_cons.mpr ⟨each _ _ (Nat.le_refl _) stands.1, ?_⟩
    exact inductionHypothesis stands.2 fun index item behind =>
      each index item (Nat.le_trans (Nat.le_add_right _ _) behind)

/-- Items that stand in two places are related wherever they are placed. -/
theorem Form.forall₂_placeAll {α ω : Type} {encode : ω → ByteArray} {place : Nat → ω → α}
    {related : α → α → Prop} {data out : ByteArray}
    (each : ∀ first second item, Stands data first (encode item) →
      Stands out second (encode item) → related (place first item) (place second item))
    {first second : Nat} {items : List ω}
    (stands : Stands data first (Relocation.concat (items.map encode)))
    (other : Stands out second (Relocation.concat (items.map encode))) :
    List.Forall₂ related (placeAll encode place first items) (placeAll encode place second items) := by
  induction items generalizing first second with
  | nil => exact .nil
  | cons item rest inductionHypothesis =>
    rw [List.map_cons, Relocation.concat_cons, stands_append] at stands other
    exact .cons (each _ _ _ stands.1 other.1) (inductionHypothesis stands.2 other.2)

end EnumNames
