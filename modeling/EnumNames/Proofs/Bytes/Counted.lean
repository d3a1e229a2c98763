import EnumNames.Proofs.Bytes.Concat
import Mathlib.Data.List.Forall2

/-!
Items behind their number. A counted list is read item by item, and a text is complete when a reader
stops exactly at its end.
-/

namespace EnumNames

variable {α β : Type}

namespace Form

/-- Items whose form does not depend on their offset stand in pieces, one piece for each item. -/
theorem repeated_iff_pieces {item : ByteArray → α → Prop} (count start : Nat) (text : ByteArray)
    (values : List α) : Form.repeated (fun _ => item) count start text values ↔
      ∃ pieces, List.Forall₂ item pieces values ∧ values.length = count ∧
        text = Relocation.concat pieces := by
  induction count generalizing start text values with
  | zero =>
    constructor
    · rintro ⟨rfl, rfl⟩
      exact ⟨[], .nil, rfl, rfl⟩
    · rintro ⟨pieces, all, length, rfl⟩
      rw [List.length_eq_zero_iff] at length
      subst length
      cases all
      exact ⟨rfl, rfl⟩
  | succ count inductionHypothesis =>
    simp only [Form.repeated, inductionHypothesis]
    constructor
    · rintro ⟨left, _, value, rest, rfl, rfl, head, pieces, all, length, rfl⟩
      exact ⟨left :: pieces, .cons head all, by simp [length], by simp⟩
    · rintro ⟨_, all, length, rfl⟩
      cases all with
      | nil => simp at length
      | @cons left value pieces rest head tail =>
        have others : rest.length = count := by simpa using length
        exact ⟨left, _, value, rest, by simp, rfl, head, pieces, tail, others, rfl⟩

end Form

/-- Pieces that are written for items are the encodings of these items. -/
theorem forall₂_encoded {encode : α → ByteArray} {valid : α → Prop} {pieces : List ByteArray}
    {values : List α} :
    List.Forall₂ (fun text value => valid value ∧ text = encode value) pieces values ↔
      (∀ value ∈ values, valid value) ∧ pieces = values.map encode := by
  constructor
  · intro all
    induction all with
    | nil => simp
    | cons head tail inductionHypothesis =>
      simp [head.1, head.2, inductionHypothesis.2]
      exact inductionHypothesis.1
  · rintro ⟨each, rfl⟩
    rw [List.forall₂_map_left_iff, List.forall₂_same]
    exact fun value member => ⟨each value member, rfl⟩

/-- Pieces that are written for moved items and what is made of them come from two lists. -/
theorem forall₂_moved {γ δ : Type} {first : α → γ} {second : β → δ} {moves : α → β → Prop}
    {pieces : List γ} {written : List δ} :
    List.Forall₂ (fun text made => ∃ old new, moves old new ∧ text = first old ∧ made = second new)
        pieces written ↔
      ∃ olds news, List.Forall₂ moves olds news ∧ pieces = olds.map first ∧
        written = news.map second := by
  constructor
  · intro all
    induction all with
    | nil => exact ⟨[], [], .nil, rfl, rfl⟩
    | cons head tail inductionHypothesis =>
      obtain ⟨old, new, moved, rfl, rfl⟩ := head
      obtain ⟨olds, news, others, rfl, rfl⟩ := inductionHypothesis
      exact ⟨old :: olds, new :: news, .cons moved others, rfl, rfl⟩
  · rintro ⟨olds, news, all, rfl, rfl⟩
    rw [List.forall₂_map_left_iff, List.forall₂_map_right_iff]
    exact all.imp fun old new moved => ⟨old, new, moved, rfl, rfl⟩

/-- Values for all items are found when there is one for each item. -/
theorem exists_forall₂_iff {related : α → β → Prop} {items : List α} :
    (∃ values, List.Forall₂ related items values) ↔
      ∀ item ∈ items, ∃ value, related item value := by
  induction items with
  | nil => simp
  | cons item rest inductionHypothesis =>
    rw [List.forall_mem_cons, ← inductionHypothesis]
    constructor
    · rintro ⟨_, all⟩
      cases all with
      | cons head tail => exact ⟨⟨_, head⟩, _, tail⟩
    · rintro ⟨⟨value, head⟩, values, tail⟩
      exact ⟨value :: values, .cons head tail⟩

/-- A number below the bound can be written with 16 bits. -/
theorem exists_toNat_eq {number : Nat} (fits : number < 65536) :
    ∃ written : UInt16, written.toNat = number :=
  ⟨.ofNat number, UInt16.toNat_ofNat_of_lt' fits⟩

/-- A list is written as the number of its items and the items themselves. -/
def encodeCounted (encode : α → ByteArray) (items : List α) : ByteArray :=
  BigEndian.encodeCount items.length ++ Relocation.concat (items.map encode)

namespace Reader

/-- The items follow their number. -/
def counted (item : Reader α) : Reader (List α) := do
  let count ← u2
  replicate count.toNat item

/-- The reader reads the value and stops exactly at the end of the text. -/
def Parses (reader : Reader α) (text : ByteArray) (value : α) : Prop :=
  reader (.start text) = .ok value ⟨text, text.size⟩

theorem Takes.parses_iff {reader : Reader α} {form : Form α} (takes : reader.Takes form)
    {text : ByteArray} {value : α} : reader.Parses text value ↔ form 0 text value := by
  have last : (⟨text, text.size⟩ : Cursor) = .between text .empty := by simp [Cursor.between]
  rw [Parses, last, Cursor.start_eq_between, takes]
  constructor
  · rintro ⟨front, rest, same, stop, holds⟩
    have sizes := congrArg Cursor.position stop
    simp only [Cursor.position_between, ByteArray.empty_append] at sizes
    -- The reader stops at the end of the text, so the text in front of it is all there is.
    have whole : text = front := by
      apply ByteArray.append_inj_left (ByteArray.append_empty.trans same) sizes
    rw [whole]
    exact holds
  · intro holds
    exact ⟨text, .empty, by simp, by simp, holds⟩

/-- What a reader makes of some bytes is decided by the complete text in front of them. -/
theorem Takes.evaluate_iff {reader : Reader α} {form : Form α} (takes : reader.Takes form)
    {bytes : ByteArray} {value : α} : reader.evaluate bytes = .ok value ↔
      ∃ text rest, bytes = text ++ rest ∧ form 0 text value :=
  takes.accepts.evaluate bytes value

/-- Items whose form does not depend on their offset are read from their pieces. -/
theorem Takes.pieces {reader : Reader α} {item : ByteArray → α → Prop}
    (takes : reader.Takes fun _ => item) (count : Nat) :
    (Reader.replicate count reader).Takes fun _ text values => ∃ pieces,
      List.Forall₂ item pieces values ∧ values.length = count ∧
        text = Relocation.concat pieces :=
  (takes.replicate count).congr fun start text values =>
    Form.repeated_iff_pieces count start text values

/-- A number in front of items is the number of the items. -/
theorem counted_iff {count : UInt16} {length : Nat} :
    length = count.toNat ↔ length < 65536 ∧
      BigEndian.encodeCount length = BigEndian.encode16 count := by
  constructor
  · intro same
    have fits : length < 65536 := same ▸ count.toNat_lt
    exact ⟨fits, (BigEndian.encodeCount_eq_encode16_iff fits count).mpr same⟩
  · rintro ⟨fits, same⟩
    exact (BigEndian.encodeCount_eq_encode16_iff fits count).mp same

/-- A counted list is read from its written form. -/
theorem Takes.counted {reader : Reader α} {encode : α → ByteArray} {valid : α → Prop}
    (takes : reader.Takes fun _ text value => valid value ∧ text = encode value) :
    (Reader.counted reader).Takes fun _ text values => (∀ value ∈ values, valid value) ∧
      values.length < 65536 ∧ text = encodeCounted encode values := by
  refine (takes_u2.bind fun count => takes.pieces count.toNat).congr fun start text values => ?_
  simp only [forall₂_encoded]
  constructor
  · rintro ⟨_, _, count, rfl, rfl, _, ⟨each, rfl⟩, length, rfl⟩
    obtain ⟨fits, same⟩ := counted_iff.mp length
    exact ⟨each, fits, by rw [encodeCounted, same]⟩
  · rintro ⟨each, fits, rfl⟩
    have same : values.length = (UInt16.ofNat values.length).toNat := counted_iff.mpr ⟨fits, rfl⟩
    exact ⟨_, _, _, rfl, rfl, _, ⟨each, rfl⟩, same, rfl⟩

end Reader

end EnumNames
