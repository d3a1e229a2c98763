import EnumNames.Bytecode.Relocation
import EnumNames.Proofs.Bytes.Form
import Mathlib.Algebra.GroupWithZero.Nat

/-!
Pieces of bytes that follow one another without a gap.
-/

namespace EnumNames

namespace Relocation

@[simp] theorem concat_nil : concat [] = .empty := rfl

theorem foldl_append (start : ByteArray) (pieces : List ByteArray) :
    pieces.foldl (· ++ ·) start = start ++ concat pieces := by
  induction pieces generalizing start with
  | nil => exact ByteArray.append_empty.symm
  | cons piece rest inductionHypothesis =>
    have first : concat (piece :: rest) = piece ++ concat rest := by
      unfold concat
      rw [List.foldl_cons, ByteArray.empty_append]
      exact inductionHypothesis piece
    rw [List.foldl_cons, inductionHypothesis, first, ByteArray.append_assoc]

@[simp] theorem concat_cons (piece : ByteArray) (rest : List ByteArray) :
    concat (piece :: rest) = piece ++ concat rest := by
  rw [concat, List.foldl_cons, foldl_append, ByteArray.empty_append]

@[simp] theorem concat_append (first second : List ByteArray) :
    concat (first ++ second) = concat first ++ concat second := by
  induction first with
  | nil => exact ByteArray.empty_append.symm
  | cons piece rest inductionHypothesis =>
    rw [List.cons_append, concat_cons, inductionHypothesis, concat_cons, ByteArray.append_assoc]

theorem size_concat (pieces : List ByteArray) :
    (concat pieces).size = (pieces.map ByteArray.size).sum := by
  induction pieces with
  | nil => rfl
  | cons piece rest inductionHypothesis =>
    rw [concat_cons, ByteArray.size_append, inductionHypothesis, List.map_cons, List.sum_cons]

end Relocation

namespace BigEndian

@[simp] theorem size_encodeCount (count : Nat) : (encodeCount count).size = 2 := rfl

@[simp] theorem size_encodeSize (size : Nat) : (encodeSize size).size = 4 := rfl

theorem encodeCount_eq_encode16_iff {count : Nat} (fits : count < 65536) (number : UInt16) :
    encodeCount count = encode16 number ↔ count = number.toNat := by
  constructor
  · intro same
    have equal := congrArg UInt16.toNat (encode16_injective same)
    rwa [UInt16.toNat_ofNat', Nat.mod_eq_of_lt fits] at equal
  · rintro rfl
    rw [encodeCount, UInt16.ofNat_toNat]

theorem toNat_ofNat_count {count : Nat} (fits : count < 65536) :
    (UInt16.ofNat count).toNat = count := by
  rw [UInt16.toNat_ofNat']
  exact Nat.mod_eq_of_lt fits

end BigEndian

namespace Form

variable {α ω : Type}

/-- Things that are written one after the other, each placed at its own offset. -/
def placeAll (encode : ω → ByteArray) (place : Nat → ω → α) : Nat → List ω → List α
  | _, [] => []
  | start, item :: rest => place start item :: placeAll encode place (start + (encode item).size) rest

@[simp] theorem length_placeAll (encode : ω → ByteArray) (place : Nat → ω → α) (start : Nat)
    (items : List ω) : (placeAll encode place start items).length = items.length := by
  induction items generalizing start with
  | nil => rfl
  | cons item rest inductionHypothesis => simp [placeAll, inductionHypothesis]

theorem placeAll_append (encode : ω → ByteArray) (place : Nat → ω → α) (start : Nat)
    (first second : List ω) :
    placeAll encode place start (first ++ second) = placeAll encode place start first ++
      placeAll encode place (start + (Relocation.concat (first.map encode)).size) second := by
  induction first generalizing start with
  | nil => simp [placeAll]
  | cons item rest inductionHypothesis =>
    simp [placeAll, inductionHypothesis, Nat.add_assoc]

/-- A placed item comes from one item, with the items placed in front of it and behind it. -/
theorem placeAll_eq_append_cons {encode : ω → ByteArray} {place : Nat → ω → α} {start : Nat}
    {items : List ω} {left right : List α} {value : α}
    (same : placeAll encode place start items = left ++ value :: right) :
    ∃ first item second, items = first ++ item :: second ∧
      left = placeAll encode place start first ∧
      value = place (start + (Relocation.concat (first.map encode)).size) item := by
  induction left generalizing start items with
  | nil =>
    cases items with
    | nil => cases same
    | cons item rest =>
      cases same
      exact ⟨[], item, rest, rfl, rfl, rfl⟩
  | cons head left inductionHypothesis =>
    cases items with
    | nil => cases same
    | cons item rest =>
      obtain ⟨rfl, tail⟩ := List.cons.inj same
      obtain ⟨first, found, second, rfl, rfl, rfl⟩ := inductionHypothesis tail
      refine ⟨item :: first, found, second, rfl, rfl, ?_⟩
      rw [List.map_cons, Relocation.concat_cons, ByteArray.size_append, Nat.add_assoc]

/-- What is true of items wherever they are placed is true of the placed items. -/
theorem forall_placeAll {encode : ω → ByteArray} {place : Nat → ω → α} {placed : α → Prop}
    {plain : ω → Prop} (same : ∀ start item, placed (place start item) ↔ plain item) (start : Nat)
    (items : List ω) :
    (∀ value ∈ placeAll encode place start items, placed value) ↔ ∀ item ∈ items, plain item := by
  induction items generalizing start with
  | nil => simp [placeAll]
  | cons item rest inductionHypothesis =>
    rw [placeAll, List.forall_mem_cons, List.forall_mem_cons, inductionHypothesis, same]

/-- What is kept of items wherever they are placed is the same for the placed items. -/
theorem map_placeAll {β : Type} {encode : ω → ByteArray} {place : Nat → ω → α} {placed : α → β}
    {plain : ω → β} (same : ∀ start item, placed (place start item) = plain item) (start : Nat)
    (items : List ω) : (placeAll encode place start items).map placed = items.map plain := by
  induction items generalizing start with
  | nil => rfl
  | cons item rest inductionHypothesis =>
    rw [placeAll, List.map_cons, List.map_cons, inductionHypothesis, same]

/-- Repeated items are those of a list of things, written one after the other. -/
theorem repeated_iff {item : Form α} {encode : ω → ByteArray} {place : Nat → ω → α}
    (same : ∀ start text value, item start text value ↔
      ∃ thing, text = encode thing ∧ value = place start thing)
    (count start : Nat) (text : ByteArray) (values : List α) :
    item.repeated count start text values ↔ ∃ things : List ω, things.length = count ∧
      text = Relocation.concat (things.map encode) ∧ values = placeAll encode place start things := by
  induction count generalizing start text values with
  | zero =>
    constructor
    · rintro ⟨rfl, rfl⟩
      exact ⟨[], rfl, rfl, rfl⟩
    · rintro ⟨things, none, rfl, rfl⟩
      rw [List.eq_nil_of_length_eq_zero none]
      exact ⟨rfl, rfl⟩
  | succ count inductionHypothesis =>
    constructor
    · rintro ⟨left, right, value, rest, rfl, rfl, head, tail⟩
      obtain ⟨thing, rfl, rfl⟩ := (same _ _ _).mp head
      obtain ⟨things, rfl, rfl, rfl⟩ := (inductionHypothesis _ _ _).mp tail
      exact ⟨thing :: things, rfl, by simp, rfl⟩
    · rintro ⟨things, length, rfl, rfl⟩
      match things, length with
      | thing :: things, length =>
        refine ⟨_, _, _, _, Relocation.concat_cons _ _, rfl, (same _ _ _).mpr ⟨thing, rfl, rfl⟩, ?_⟩
        exact (inductionHypothesis _ _ _).mpr ⟨things, Nat.succ.inj length, rfl, rfl⟩

end Form

end EnumNames
