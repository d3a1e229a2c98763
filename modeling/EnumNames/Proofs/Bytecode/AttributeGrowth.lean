import EnumNames.Bytecode.Relocation.SubAttribute
import EnumNames.Proofs.Bytecode.Emission

/-!
How much an attribute grows when the offsets that it names are moved. Tables keep their size. A
frame of a stack map grows by two bytes when its distance no longer fits into its tag, and then it
leads far enough ahead that only few frames of one map can do so.
-/

namespace EnumNames

namespace Reader

variable {α β : Type}

/-- Whenever the reader succeeds, the bytes it consumed and its value are related. -/
def Yields (reader : Reader α) (related : ByteArray → α → Prop) : Prop :=
  ∀ before rest value next, reader (.between before rest) = .ok value next →
    ∃ text after, rest = text ++ after ∧ next = .between (before ++ text) after ∧
      related text value

theorem Yields.mono {reader : Reader α} {first second : ByteArray → α → Prop}
    (yields : reader.Yields first) (implies : ∀ text value, first text value → second text value) :
    reader.Yields second := by
  intro before rest value next done
  obtain ⟨text, after, split, stop, holds⟩ := yields _ _ _ _ done
  exact ⟨text, after, split, stop, implies _ _ holds⟩

theorem Takes.yields {reader : Reader α} {form : Form α} (takes : reader.Takes form) :
    reader.Yields fun text value => ∃ start, form start text value := by
  intro before rest value next done
  obtain ⟨text, after, rfl, rfl, holds⟩ := (takes _ _ _ _).mp done
  exact ⟨text, after, rfl, rfl, _, holds⟩

theorem Yields.bind {first : Reader α} {second : α → Reader β} {head : ByteArray → α → Prop}
    {tail : α → ByteArray → β → Prop} (opens : first.Yields head)
    (closes : ∀ value, (second value).Yields (tail value)) :
    (first >>= second).Yields fun text value => ∃ left right middle, text = left ++ right ∧
      head left middle ∧ tail middle right value := by
  intro before rest value next done
  obtain ⟨middle, cursor, opened, closed⟩ := bind_eq_ok.mp done
  obtain ⟨left, after, rfl, rfl, headHolds⟩ := opens _ _ _ _ opened
  obtain ⟨right, after, rfl, rfl, tailHolds⟩ := closes _ _ _ _ _ closed
  exact ⟨left ++ right, after, by rw [ByteArray.append_assoc], by rw [ByteArray.append_assoc],
    left, right, middle, rfl, headHolds, tailHolds⟩

theorem Yields.evaluate {reader : Reader α} {related : ByteArray → α → Prop}
    (yields : reader.Yields related) {bytes : ByteArray} {value : α}
    (done : reader.evaluate bytes = .ok value) :
    ∃ text after, bytes = text ++ after ∧ related text value := by
  unfold Reader.evaluate at done
  rw [Cursor.start_eq_between] at done
  split at done
  · rename_i found next read
    cases done
    obtain ⟨text, after, same, _, holds⟩ := yields _ _ _ _ read
    exact ⟨text, after, same, holds⟩
  · cases done

theorem yields_pure (value : α) :
    (pure value : Reader α).Yields fun text found => text = .empty ∧ found = value :=
  (takes_pure value).yields.mono fun _ _ ⟨_, both⟩ => both

theorem yields_ofExcept (result : Except Failure α) :
    (ofExcept result).Yields fun text value => text = .empty ∧ result = .ok value :=
  (takes_ofExcept result).yields.mono fun _ _ ⟨_, both⟩ => both

theorem yields_failAt (offset : Nat) (fault : ClassFault) (related : ByteArray → α → Prop) :
    (failAt offset fault : Reader α).Yields related :=
  (takes_failAt offset fault).yields.mono fun _ _ ⟨_, impossible⟩ => impossible.elim

theorem Yields.ite {condition : Prop} [Decidable condition] {first second : Reader α}
    {related : ByteArray → α → Prop} (holds : condition → first.Yields related)
    (fails : ¬ condition → second.Yields related) :
    (if condition then first else second).Yields related := by
  split
  · exact holds ‹_›
  · exact fails ‹_›

/-- A number of 16 bits that becomes part of a value adds two bytes. -/
theorem yields_u2_made (make : UInt16 → α) : (u2 >>= fun number => pure (make number)).Yields
    fun text value => text.size = 2 ∧ ∃ number, value = make number := by
  refine (takes_u2.made make).yields.mono ?_
  rintro _ _ ⟨_, number, rfl, rfl⟩
  exact ⟨rfl, number, rfl⟩

theorem yields_u2 : u2.Yields fun text _ => text.size = 2 :=
  takes_u2.yields.mono fun _ _ ⟨_, same⟩ => by rw [same]; rfl

/-- Items whose sizes are preserved preserve their total size. -/
theorem Yields.replicate {reader : Reader α} {size : α → Nat}
    (yields : reader.Yields fun text value => size value = text.size) (count : Nat) :
    (Reader.replicate count reader).Yields fun text values =>
      (values.map size).sum = text.size ∧ values.length = count := by
  suffices onto : ∀ done, (repeatOnto reader count done).Yields fun text values =>
      ∃ rest, values = done.reverse ++ rest ∧ (rest.map size).sum = text.size ∧
        rest.length = count by
    intro before rest value next done
    obtain ⟨text, after, split, stop, values, same, sum⟩ := onto [] _ _ _ _ done
    exact ⟨text, after, split, stop, by simpa [same] using sum⟩
  induction count with
  | zero =>
    refine fun done => (yields_pure done.reverse).mono ?_
    rintro _ _ ⟨rfl, rfl⟩
    exact ⟨[], by simp, rfl, rfl⟩
  | succ count inductionHypothesis =>
    intro done
    rw [repeatOnto_succ]
    refine (yields.bind fun value => inductionHypothesis (value :: done)).mono ?_
    rintro _ _ ⟨left, right, value, rfl, head, rest, rfl, sum, length⟩
    refine ⟨value :: rest, by simp, ?_, congrArg (· + 1) length⟩
    rw [List.map_cons, List.sum_cons, ByteArray.size_append, head, sum]

end Reader

namespace Relocation

variable {relocation : Relocation}

/-- A table keeps its size when each of its rows does. -/
theorem rows_yields {row : Reader ByteArray}
    (yields : row.Yields fun text bytes => bytes.size = text.size) :
    (rows row).Yields fun text bytes => bytes.size = text.size := by
  refine (Reader.yields_u2.bind fun count => (yields.replicate count.toNat).bind fun written =>
    Reader.yields_pure (BigEndian.encode16 count ++ concat written)).mono ?_
  rintro _ _ ⟨_, _, count, rfl, two, _, _, written, rfl, ⟨sum, _⟩, rfl, rfl⟩
  rw [ByteArray.size_append, size_concat, sum]
  simp [two]

theorem lineRow_yields :
    relocation.lineRow.Yields fun text bytes => bytes.size = text.size := by
  refine (Reader.takes_u2.bind fun start => Reader.takes_u2.bind fun line =>
    (Reader.takes_ofExcept (relocation.map16 start)).bind fun start =>
      Reader.takes_pure (BigEndian.encode16 start ++ BigEndian.encode16 line)).yields.mono ?_
  rintro _ _ ⟨_, _, _, start, rfl, rfl, _, _, line, rfl, rfl, _, _, moved, rfl, ⟨rfl, _⟩, rfl, rfl⟩
  simp

theorem variableRow_yields :
    relocation.variableRow.Yields fun text bytes => bytes.size = text.size := by
  refine (Reader.takes_u2.bind fun start => Reader.takes_u2.bind fun length =>
    (Reader.takes_bytes 6).bind fun rest =>
    (Reader.takes_ofExcept (relocation.map16 start)).bind fun newStart =>
    (Reader.takes_ofExcept (relocation.map16 (rangeStop start length))).bind fun newStop =>
    (Reader.takes_ofExcept (rangeLength newStart newStop)).bind fun newLength =>
      Reader.takes_pure (BigEndian.encode16 newStart ++ BigEndian.encode16 newLength ++
        rest)).yields.mono ?_
  rintro _ _ ⟨_, _, _, start, rfl, rfl, _, _, length, rfl, rfl, _, _, rest, rfl, ⟨size, rfl⟩, _, _,
    newStart, rfl, ⟨rfl, _⟩, _, _, newStop, rfl, ⟨rfl, _⟩, _, _, newLength, rfl, ⟨rfl, _⟩, rfl, rfl⟩
  simp
  omega

end Relocation

namespace Verification

theorem read_yields : read.Yields fun text item => item.encode.size = text.size := by
  have tagged (offset : Nat) (tag : UInt8) : Reader.Yields
      (if tag ≤ 6 then pure (simple tag)
      else if tag = 7 then Reader.u2 >>= fun constant => pure (object constant)
      else if tag = 8 then Reader.u2 >>= fun offset => pure (uninitialized offset)
      else Reader.failAt offset (.unknownVerification tag))
      fun text item => item.encode.size = 1 + text.size := by
    refine .ite (fun _ => ?_) fun _ => .ite (fun _ => ?_) fun _ => .ite (fun _ => ?_) fun _ =>
      Reader.yields_failAt _ _ _
    · refine (Reader.yields_pure _).mono ?_
      rintro _ _ ⟨rfl, rfl⟩
      rfl
    · refine (Reader.yields_u2_made _).mono ?_
      rintro _ _ ⟨size, number, rfl⟩
      rw [size]
      rfl
    · refine (Reader.yields_u2_made _).mono ?_
      rintro _ _ ⟨size, number, rfl⟩
      rw [size]
      rfl
  refine (Reader.takes_position.yields.bind fun offset => Reader.takes_u1.yields.bind fun tag =>
    tagged offset tag).mono ?_
  rintro _ _ ⟨_, _, offset, rfl, ⟨_, rfl, _⟩, _, _, tag, rfl, ⟨_, rfl⟩, size⟩
  simp [size]

end Verification

namespace Frame

/-- Only these frames have a form whose tag holds the distance. -/
def isShort : Frame → Bool
  | .same | .sameWithItem _ => true
  | _ => false

/-- This is the size of a frame apart from its tag and its distance. -/
def itemsSize : Frame → Nat
  | .same | .chop _ => 0
  | .sameWithItem item => item.encode.size
  | .append items => (encodeItems items).size
  | .full locals stack => 4 + (encodeItems locals).size + (encodeItems stack).size

theorem size_encode (distance : UInt16) (frame : Frame) : (frame.encode distance).size =
    (if frame.isShort ∧ distance ≤ 63 then 1 else 3) + frame.itemsSize := by
  cases frame with
  | same =>
    simp only [encode, isShort, itemsSize, true_and]
    split <;> rfl
  | sameWithItem item =>
    simp only [encode, isShort, itemsSize, true_and, ByteArray.size_append]
    split <;> rfl
  | chop count => rfl
  | append items =>
    simp [encode, isShort, itemsSize]
  | full locals stack =>
    simp [encode, isShort, itemsSize]
    omega

theorem readItems_yields : readItems.Yields fun text items =>
    2 + (encodeItems items).size = text.size := by
  refine (Reader.yields_u2.bind fun count =>
    Verification.read_yields.replicate count.toNat).mono ?_
  rintro _ items ⟨_, _, count, rfl, two, sum, _⟩
  rw [encodeItems, Relocation.size_concat, List.map_map, ByteArray.size_append, two, ← sum]
  rfl

/-- A frame is never written with less than its tag and its items. -/
theorem read_yields : read.Yields fun text found =>
    (if found.2.isShort then 1 else 3) + found.2.itemsSize ≤ text.size := by
  have tagged (offset : Nat) (tag : UInt8) : (readBody offset tag).Yields fun text found =>
      (if found.2.isShort then 0 else 2) + found.2.itemsSize ≤ text.size := by
    refine .ite (fun _ => ?_) fun _ => .ite (fun _ => ?_) fun _ => .ite (fun _ => ?_) fun _ => ?_
    · refine (Reader.yields_pure _).mono ?_
      rintro _ _ ⟨rfl, rfl⟩
      exact Nat.le_refl 0
    · refine (Verification.read_yields.bind fun item => Reader.yields_pure
        (tag.toUInt16 - 64, sameWithItem item)).mono ?_
      rintro _ _ ⟨_, _, item, rfl, size, rfl, rfl⟩
      simp [isShort, itemsSize, size]
    · exact Reader.yields_failAt _ _ _
    · refine (Reader.yields_u2.bind (?_ : ∀ distance, Reader.Yields _
        fun text (found : UInt16 × Frame) => found.2.itemsSize ≤ text.size)).mono ?_
      · intro distance
        refine .ite (fun _ => ?_) fun _ => .ite (fun _ => ?_) fun _ => .ite (fun _ => ?_) fun _ =>
          .ite (fun _ => ?_) fun _ => ?_
        · refine (Verification.read_yields.bind fun item => Reader.yields_pure
            (distance, sameWithItem item)).mono ?_
          rintro _ _ ⟨_, _, item, rfl, size, rfl, rfl⟩
          simp [itemsSize, size]
        · exact (Reader.yields_pure _).mono fun _ _ both => both.2 ▸ Nat.zero_le _
        · exact (Reader.yields_pure _).mono fun _ _ both => both.2 ▸ Nat.zero_le _
        · refine ((Verification.read_yields.replicate _).bind fun items => Reader.yields_pure
            (distance, append items)).mono ?_
          rintro _ _ ⟨_, _, items, rfl, ⟨sum, _⟩, rfl, rfl⟩
          rw [itemsSize, encodeItems, Relocation.size_concat, List.map_map, ByteArray.append_empty]
          exact Nat.le_of_eq sum
        · refine (readItems_yields.bind fun locals => readItems_yields.bind fun stack =>
            Reader.yields_pure (distance, full locals stack)).mono ?_
          rintro _ _ ⟨_, _, locals, rfl, localsSize, _, _, stack, rfl, stackSize, rfl, rfl⟩
          simp [itemsSize]
          omega
      · rintro _ found ⟨_, _, distance, rfl, two, size⟩
        rw [ByteArray.size_append, two]
        split <;> omega
  refine (Reader.takes_position.yields.bind fun offset => Reader.takes_u1.yields.bind fun tag =>
    tagged offset tag).mono ?_
  rintro _ _ ⟨_, _, offset, rfl, ⟨_, rfl, _⟩, _, _, tag, rfl, ⟨_, rfl⟩, size⟩
  simp only [ByteArray.size_append, size_mk, List.length_cons, List.length_nil]
  split at size <;> simp [*] <;> omega

theorem size_relocate_item {relocation : Relocation} {item moved : Verification}
    (done : item.relocate relocation = .ok moved) : moved.encode.size = item.encode.size := by
  cases item with
  | simple tag =>
    cases done
    rfl
  | object constant =>
    cases done
    rfl
  | uninitialized offset =>
    obtain ⟨offset, _, same⟩ := bind_eq_ok.mp done
    cases same
    rfl

theorem size_relocate_items {relocation : Relocation} {items moved : List Verification}
    (done : items.mapM (·.relocate relocation) = .ok moved) :
    (encodeItems moved).size = (encodeItems items).size := by
  rw [mapM_eq_ok] at done
  unfold encodeItems
  induction done with
  | nil => rfl
  | cons head tail inductionHypothesis =>
    rw [List.map_cons, List.map_cons, Relocation.concat_cons, Relocation.concat_cons,
      ByteArray.size_append, ByteArray.size_append, inductionHypothesis, size_relocate_item head]

/-- A moved frame has the form and the items of the frame. -/
theorem relocate_size {relocation : Relocation} {frame moved : Frame}
    (done : frame.relocate relocation = .ok moved) :
    moved.isShort = frame.isShort ∧ moved.itemsSize = frame.itemsSize := by
  cases frame with
  | same =>
    cases done
    exact ⟨rfl, rfl⟩
  | sameWithItem item =>
    obtain ⟨item, itemDone, same⟩ := bind_eq_ok.mp done
    cases same
    exact ⟨rfl, size_relocate_item itemDone⟩
  | chop count =>
    cases done
    exact ⟨rfl, rfl⟩
  | append items =>
    obtain ⟨items, itemsDone, same⟩ := bind_eq_ok.mp done
    cases same
    exact ⟨rfl, size_relocate_items itemsDone⟩
  | full locals stack =>
    obtain ⟨locals, localsDone, done⟩ := bind_eq_ok.mp done
    obtain ⟨stack, stackDone, same⟩ := bind_eq_ok.mp done
    cases same
    refine ⟨rfl, ?_⟩
    rw [itemsSize, itemsSize, size_relocate_items localsDone, size_relocate_items stackDone]

end Frame

namespace Relocation

variable {relocation : Relocation}

/-- This is the offset from which the next distance counts. -/
def frameBase (previous : Option Nat) : Nat := previous.elim 0 (· + 1)

theorem frameDistance_eq (previous : Option Nat) (offset : Nat) :
    relocation.frameDistance previous offset =
      if offset < frameBase previous then
        .error (.malformedClass offset (.outOfRange (frameBase previous) offset))
      else if offset - frameBase previous < 65536 then
        .ok (UInt16.ofNat (offset - frameBase previous))
      else refuse relocation.unit .frameDelta := by
  cases previous <;> rfl

theorem frameDistance_eq_ok {previous : Option Nat} {offset : Nat} {distance : UInt16}
    (done : relocation.frameDistance previous offset = .ok distance) :
    offset = frameBase previous + distance.toNat := by
  rw [frameDistance_eq] at done
  split at done
  · cases done
  · split at done
    · rename_i behind fits
      cases done
      rw [BigEndian.toNat_ofNat_count fits]
      omega
    · cases done

/-- A frame grows by two bytes, and only when it lies at least 64 offsets ahead. -/
theorem frame_yields (bounded : relocation.Bounded) (previous : Option (Nat × Nat)) :
    (relocation.frame previous).Yields fun text found =>
      frameBase (previous.map Prod.snd) ≤ found.1.2 ∧ found.1.2 < 0x10000 ∧
        (found.2.size ≤ text.size ∨ found.2.size ≤ text.size + 2 ∧
          frameBase (previous.map Prod.snd) + 64 ≤ found.1.2) := by
  refine (Frame.read_yields.bind fun taken =>
    (Reader.yields_ofExcept (relocation.map
      (frameOffset (previous.map Prod.fst) taken.1.toNat))).bind fun new =>
    (Reader.yields_ofExcept (relocation.frameDistance (previous.map Prod.snd) new)).bind
      fun distance => (Reader.yields_ofExcept (taken.2.relocate relocation)).bind fun frame =>
        Reader.yields_pure ((frameOffset (previous.map Prod.fst) taken.1.toNat, new),
          frame.encode distance)).mono ?_
  rintro _ _ ⟨_, _, taken, rfl, size, _, _, new, rfl, ⟨rfl, mapped⟩, _, _, distance, rfl,
    ⟨rfl, ahead⟩, _, _, frame, rfl, ⟨rfl, relocated⟩, rfl, rfl⟩
  have base := frameDistance_eq_ok ahead
  obtain ⟨short, items⟩ := Frame.relocate_size relocated
  have limit : distance ≤ 63 ↔ distance.toNat ≤ 63 := UInt16.le_iff_toNat_le
  dsimp only
  refine ⟨by omega, (bounded _ _ mapped).2, ?_⟩
  rw [Frame.size_encode, short, items]
  simp only [ByteArray.append_empty, limit]
  by_cases isShort : taken.2.isShort = true
  · simp only [isShort, true_and, if_true] at size ⊢
    split <;> omega
  · simp only [isShort, Bool.false_eq_true, false_and, if_false] at size ⊢
    exact .inl size

theorem framesOnto_succ (previous : Option (Nat × Nat)) (done : ByteArray) (count : Nat) :
    relocation.framesOnto previous done (count + 1) = relocation.frame previous >>= fun found =>
      relocation.framesOnto (some found.1) (done ++ found.2) count := by
  funext cursor
  rw [Reader.bind_apply, framesOnto]
  dsimp only
  cases relocation.frame previous cursor <;> rfl

/-- The frames grow by at most two bytes for every 65 offsets that they cover. -/
theorem framesOnto_yields (bounded : relocation.Bounded) (previous : Option (Nat × Nat))
    (done : ByteArray) (count : Nat) (small : frameBase (previous.map Prod.snd) ≤ 0x10000) :
    (relocation.framesOnto previous done count).Yields fun text bytes =>
      65 * bytes.size ≤ 65 * (done.size + text.size) +
        2 * (0x10000 - frameBase (previous.map Prod.snd)) := by
  induction count generalizing previous done with
  | zero =>
    refine (Reader.yields_pure done).mono ?_
    rintro _ _ ⟨rfl, rfl⟩
    omega
  | succ count inductionHypothesis =>
    rw [framesOnto_succ]
    intro before rest bytes next run
    obtain ⟨found, cursor, opened, closed⟩ := Reader.bind_eq_ok.mp run
    obtain ⟨left, after, rfl, rfl, ahead, below, grown⟩ :=
      frame_yields bounded previous _ _ _ _ opened
    have base : frameBase ((some found.1).map Prod.snd) = found.1.2 + 1 := rfl
    obtain ⟨right, after, rfl, rfl, size⟩ := inductionHypothesis (some found.1) (done ++ found.2)
      (by omega) _ _ _ _ closed
    refine ⟨left ++ right, after, by rw [ByteArray.append_assoc],
      by rw [ByteArray.append_assoc], ?_⟩
    rw [base] at size
    rw [ByteArray.size_append] at size ⊢
    omega

theorem stackMap_yields (bounded : relocation.Bounded) :
    relocation.stackMap.Yields fun text bytes => bytes.size ≤ text.size + 2016 := by
  refine (Reader.yields_u2.bind fun count => framesOnto_yields bounded none
    (BigEndian.encode16 count) count.toNat (Nat.zero_le _)).mono ?_
  rintro _ bytes ⟨_, _, count, rfl, two, size⟩
  have base : frameBase ((none : Option (Nat × Nat)).map Prod.snd) = 0 := rfl
  rw [base, BigEndian.size_encode16] at size
  rw [ByteArray.size_append]
  omega

/-- An attribute of any known kind grows only little. -/
theorem size_attributeBody (bounded : relocation.Bounded) {name : String} {body moved : ByteArray}
    (done : relocation.attributeBody name body = .ok moved) : moved.size ≤ body.size + 2016 := by
  have yields : (relocation.attributeReader name).Yields fun text bytes =>
      bytes.size ≤ text.size + 2016 := by
    have table {reader : Reader ByteArray}
        (same : reader.Yields fun text bytes => bytes.size = text.size) :
        reader.Yields fun text bytes => bytes.size ≤ text.size + 2016 :=
      same.mono fun _ _ size => by omega
    refine .ite (fun _ => table (rows_yields lineRow_yields)) fun _ =>
      .ite (fun _ => table (rows_yields variableRow_yields)) fun _ =>
      .ite (fun _ => stackMap_yields bounded) fun _ => ?_
    exact (Reader.takes_of_error fun cursor => ⟨_, cursor, rfl⟩).yields.mono
      fun _ _ ⟨_, impossible⟩ => impossible.elim
  obtain ⟨text, after, rfl, size⟩ := yields.evaluate done
  rw [ByteArray.size_append]
  omega

end Relocation

end EnumNames
