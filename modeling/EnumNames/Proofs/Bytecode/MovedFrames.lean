import EnumNames.Proofs.Bytecode.Boundaries
import EnumNames.Proofs.Bytecode.FrameForm
import EnumNames.Proofs.Bytecode.TableRows

/-!
The stack map of relocated code. Main statement: the frames stand at the new places of their old
offsets and are otherwise the same, and none of them is too far ahead of the frame before.
-/

namespace EnumNames

variable {relocation : Relocation}

/-- An uninitialized value was allocated at the new place of its instruction. -/
inductive Verification.Moves (relocation : Relocation) : Verification → Verification → Prop where
  | simple (tag : UInt8) : Moves relocation (.simple tag) (.simple tag)
  | object (constant : UInt16) : Moves relocation (.object constant) (.object constant)
  | uninitialized {old new : UInt16} (mapped : relocation.map old.toNat = .ok new.toNat) :
      Moves relocation (.uninitialized old) (.uninitialized new)

/-- The kind of a frame and the kinds and the order of its items are kept. -/
inductive Frame.Moves (relocation : Relocation) : Frame → Frame → Prop where
  | same : Moves relocation .same .same
  | sameWithItem {old new : Verification} (item : old.Moves relocation new) :
      Moves relocation (.sameWithItem old) (.sameWithItem new)
  | chop (count : Nat) : Moves relocation (.chop count) (.chop count)
  | append {olds news : List Verification}
      (items : List.Forall₂ (Verification.Moves relocation) olds news) :
      Moves relocation (.append olds) (.append news)
  | full {oldLocals newLocals oldStack newStack : List Verification}
      (locals : List.Forall₂ (Verification.Moves relocation) oldLocals newLocals)
      (stack : List.Forall₂ (Verification.Moves relocation) oldStack newStack) :
      Moves relocation (.full oldLocals oldStack) (.full newLocals newStack)

namespace Verification

theorem relocate_eq_ok {item moved : Verification} :
    item.relocate relocation = .ok moved ↔ item.Moves relocation moved := by
  constructor
  · intro done
    cases item with
    | simple tag =>
      cases done
      exact .simple tag
    | object constant =>
      cases done
      exact .object constant
    | uninitialized offset =>
      obtain ⟨new, mapped, same⟩ := bind_eq_ok.mp done
      cases same
      exact .uninitialized (Relocation.map16_eq_ok mapped)
  · intro moves
    cases moves with
    | simple tag => rfl
    | object constant => rfl
    | uninitialized mapped =>
      exact bind_eq_ok.mpr ⟨_, Relocation.map16_eq_ok_iff.mpr mapped, rfl⟩

theorem Moves.isWritten {item moved : Verification} (moves : item.Moves relocation moved)
    (written : item.IsWritten) : moved.IsWritten := by
  cases moves with
  | simple tag => exact written
  | object constant => trivial
  | uninitialized mapped => trivial

end Verification

namespace Frame

theorem relocateItems_eq_ok {items moved : List Verification} :
    items.mapM (·.relocate relocation) = .ok moved ↔
      List.Forall₂ (Verification.Moves relocation) items moved := by
  simp only [mapM_eq_ok, Verification.relocate_eq_ok]

theorem relocate_eq_ok {frame moved : Frame} :
    frame.relocate relocation = .ok moved ↔ frame.Moves relocation moved := by
  constructor
  · intro done
    cases frame with
    | same =>
      cases done
      exact .same
    | sameWithItem item =>
      obtain ⟨item, itemDone, same⟩ := bind_eq_ok.mp done
      cases same
      exact .sameWithItem (Verification.relocate_eq_ok.mp itemDone)
    | chop count =>
      cases done
      exact .chop count
    | append items =>
      obtain ⟨items, itemsDone, same⟩ := bind_eq_ok.mp done
      cases same
      exact .append (relocateItems_eq_ok.mp itemsDone)
    | full locals stack =>
      obtain ⟨locals, localsDone, done⟩ := bind_eq_ok.mp done
      obtain ⟨stack, stackDone, same⟩ := bind_eq_ok.mp done
      cases same
      exact .full (relocateItems_eq_ok.mp localsDone) (relocateItems_eq_ok.mp stackDone)
  · intro moves
    cases moves with
    | same => rfl
    | sameWithItem item => exact bind_eq_ok.mpr ⟨_, Verification.relocate_eq_ok.mpr item, rfl⟩
    | chop count => rfl
    | append items => exact bind_eq_ok.mpr ⟨_, relocateItems_eq_ok.mpr items, rfl⟩
    | full locals stack =>
      exact bind_eq_ok.mpr ⟨_, relocateItems_eq_ok.mpr locals,
        bind_eq_ok.mpr ⟨_, relocateItems_eq_ok.mpr stack, rfl⟩⟩

theorem Moves.items {frame moved : Frame} (moves : frame.Moves relocation moved) :
    List.Forall₂ (Verification.Moves relocation) frame.items moved.items := by
  cases moves with
  | same => exact .nil
  | sameWithItem item => exact .cons item .nil
  | chop count => exact .nil
  | append items => exact items
  | full locals stack => exact List.rel_append locals stack

theorem Moves.isWritten {frame moved : Frame} (moves : frame.Moves relocation moved)
    (written : ∀ item ∈ frame.items, item.IsWritten) : ∀ item ∈ moved.items, item.IsWritten :=
  forall_mem_of_forall₂ (forall₂_mem moves.items) fun _ _ ⟨among, _, itemMoves⟩ =>
    itemMoves.isWritten (written _ among)

/-- The lengths of the lists are kept, and they are all that the tag depends on. -/
theorem Moves.taggedBy {frame moved : Frame} (moves : frame.Moves relocation moved) {tag : UInt8}
    {distance : UInt16} (tagged : frame.TaggedBy tag distance) : moved.TaggedBy tag distance := by
  cases moves with
  | same => exact tagged
  | sameWithItem item => exact tagged
  | chop count => exact tagged
  | append items => simpa only [TaggedBy, items.length_eq] using tagged
  | full locals stack => simpa only [TaggedBy, locals.length_eq, stack.length_eq] using tagged

end Frame

namespace WrittenFrame

/-- The frame is written in the shortest form it has. -/
def IsCanonical (written : WrittenFrame) : Prop :=
  written.tag = written.frame.writtenTag written.distance

theorem IsCanonical.encode_eq {written : WrittenFrame} (canonical : written.IsCanonical) :
    written.frame.encode written.distance = written.encode := by
  rw [written.tagged.encode_eq, encode, ← canonical]

theorem IsCanonical.isCompact_iff {written : WrittenFrame} (canonical : written.IsCanonical) :
    written.IsCompact ↔ written.frame.isShort ∧ written.distance.toNat ≤ 63 := by
  rw [IsCompact, canonical, written.tagged.compact_iff]

/-- A moved frame may need another tag for its new distance. -/
def move (old : WrittenFrame) {frame : Frame} (moves : old.frame.Moves relocation frame)
    (distance : UInt16) : WrittenFrame where
  tag := frame.writtenTag distance
  distance
  frame
  tagged := (moves.taggedBy old.tagged).written distance
  written := moves.isWritten old.written

theorem isCanonical_move (old : WrittenFrame) {frame : Frame}
    (moves : old.frame.Moves relocation frame) (distance : UInt16) :
    (old.move moves distance).IsCanonical := rfl

/-- The frames stand at their offsets. -/
def placed (previous : Option Nat) : List WrittenFrame → List (Nat × Frame)
  | [] => []
  | written :: rest =>
    let offset := Relocation.frameOffset previous written.distance.toNat
    (offset, written.frame) :: placed (some offset) rest

theorem length_placed (previous : Option Nat) (frames : List WrittenFrame) :
    (placed previous frames).length = frames.length := by
  induction frames generalizing previous with
  | nil => rfl
  | cons written rest inductionHypothesis => simp [placed, inductionHypothesis]

end WrittenFrame

namespace Relocation

/-- The frame stands at the new place of its old offset. -/
structure MovesFrame (relocation : Relocation) (old new : Nat × Frame) : Prop where
  offset : relocation.map old.1 = .ok new.1
  frame : old.2.Moves relocation new.2

theorem frameOffset_eq (previous : Option Nat) (distance : Nat) :
    frameOffset previous distance = frameBase previous + distance := by
  cases previous with
  | none => simp [frameOffset, frameBase]
  | some previous =>
    simp only [frameOffset, frameBase, Option.elim_some]
    omega

theorem frameDistance_eq_ok_iff {previous : Option Nat} {offset : Nat} {distance : UInt16} :
    relocation.frameDistance previous offset = .ok distance ↔
      offset = frameOffset previous distance.toNat := by
  rw [frameOffset_eq]
  constructor
  · exact frameDistance_eq_ok
  · rintro rfl
    have bound := distance.toNat_lt
    rw [frameDistance_eq, if_neg (by omega), if_pos (by omega), Nat.add_sub_cancel_left,
      UInt16.ofNat_toNat]

/-- One frame is read and the moved frame is written. -/
theorem takes_frame (previous : Option (Nat × Nat)) : (relocation.frame previous).Takes
    fun _ text found => ∃ old new : WrittenFrame, new.IsCanonical ∧ text = old.encode ∧
      found.2 = new.encode ∧
      found.1.1 = frameOffset (previous.map Prod.fst) old.distance.toNat ∧
      found.1.2 = frameOffset (previous.map Prod.snd) new.distance.toNat ∧
      relocation.MovesFrame (found.1.1, old.frame) (found.1.2, new.frame) := by
  refine (Frame.takes_read.bind fun taken => (Reader.takes_ofExcept (relocation.map
      (frameOffset (previous.map Prod.fst) taken.1.toNat))).bind fun new =>
    (Reader.takes_ofExcept (relocation.frameDistance (previous.map Prod.snd) new)).bind
      fun distance => (Reader.takes_ofExcept (taken.2.relocate relocation)).bind_pure fun frame =>
        ((frameOffset (previous.map Prod.fst) taken.1.toNat, new), frame.encode distance)).congr ?_
  rintro _ text ⟨⟨oldOffset, newOffset⟩, bytes⟩
  constructor
  · rintro ⟨_, _, _, rfl, ⟨old, rfl, rfl⟩, _, _, new, rfl, ⟨rfl, mapped⟩, _, _, distance, rfl,
      ⟨rfl, ahead⟩, moved, ⟨rfl, relocated⟩, same⟩
    cases same
    have moves := Frame.relocate_eq_ok.mp relocated
    have canonical := old.isCanonical_move moves distance
    exact ⟨old, old.move moves distance, canonical, by simp, canonical.encode_eq, rfl,
      frameDistance_eq_ok_iff.mp ahead, mapped, moves⟩
  · rintro ⟨old, new, canonical, rfl, rfl, rfl, rfl, mapped, moves⟩
    have distance : relocation.frameDistance (previous.map Prod.snd) _ = .ok new.distance :=
      frameDistance_eq_ok_iff.mpr rfl
    have relocated := Frame.relocate_eq_ok.mpr moves
    refine ⟨old.encode, .empty, old.content, ByteArray.append_empty.symm, ⟨old, rfl, rfl⟩, .empty,
      .empty, _, ByteArray.append_empty.symm, ⟨rfl, mapped⟩, .empty, .empty, new.distance,
      ByteArray.append_empty.symm, ⟨rfl, distance⟩, new.frame, ⟨rfl, relocated⟩, ?_⟩
    rw [canonical.encode_eq]
    rfl

/-- The induction is on the number of frames; the offsets of the frame before are carried along. -/
theorem takes_framesOnto (previous : Option (Nat × Nat)) (done : ByteArray) (count : Nat) :
    (relocation.framesOnto previous done count).Takes fun _ text bytes =>
      ∃ olds news : List WrittenFrame, (∀ new ∈ news, new.IsCanonical) ∧
        List.Forall₂ relocation.MovesFrame (WrittenFrame.placed (previous.map Prod.fst) olds)
          (WrittenFrame.placed (previous.map Prod.snd) news) ∧
        olds.length = count ∧ text = concat (olds.map WrittenFrame.encode) ∧
        bytes = done ++ concat (news.map WrittenFrame.encode) := by
  induction count generalizing previous done with
  | zero =>
    refine (Reader.takes_pure done).congr fun _ text bytes => ?_
    constructor
    · rintro ⟨rfl, rfl⟩
      exact ⟨[], [], by simp, .nil, rfl, rfl, by simp⟩
    · rintro ⟨olds, news, _, all, empty, rfl, rfl⟩
      obtain rfl := List.length_eq_zero_iff.mp empty
      have length := all.length_eq
      rw [WrittenFrame.length_placed, WrittenFrame.length_placed] at length
      obtain rfl := List.length_eq_zero_iff.mp length.symm
      simp
  | succ count inductionHypothesis =>
    rw [framesOnto_succ]
    refine ((takes_frame previous).bind fun found =>
      inductionHypothesis (some found.1) (done ++ found.2)).congr fun _ text bytes => ?_
    constructor
    · rintro ⟨_, _, ⟨⟨oldOffset, newOffset⟩, written⟩, rfl, ⟨old, new, canonical, rfl, rfl, rfl,
        rfl, moves⟩, olds, news, others, all, length, rfl, rfl⟩
      refine ⟨old :: olds, new :: news, List.forall_mem_cons.mpr ⟨canonical, others⟩,
        .cons moves all, congrArg (· + 1) length, by simp, by simp [ByteArray.append_assoc]⟩
    · rintro ⟨olds, news, canonical, all, length, rfl, rfl⟩
      obtain ⟨old, olds, rfl⟩ := List.exists_cons_of_length_eq_add_one length
      cases news with
      | nil => cases all
      | cons new news =>
        obtain ⟨first, others⟩ := List.forall_mem_cons.mp canonical
        obtain _ | ⟨moves, all⟩ := all
        exact ⟨_, _, ((_, _), new.encode), by simp, ⟨old, new, first, rfl, rfl, rfl, rfl, moves⟩,
          olds, news, others, all, Nat.succ.inj length, rfl, by simp [ByteArray.append_assoc]⟩

theorem takes_stackMap : relocation.stackMap.Takes fun _ text bytes =>
    ∃ olds news : List WrittenFrame, (∀ new ∈ news, new.IsCanonical) ∧
      List.Forall₂ relocation.MovesFrame (WrittenFrame.placed none olds)
        (WrittenFrame.placed none news) ∧
      olds.length < 65536 ∧ text = encodeCounted WrittenFrame.encode olds ∧
      bytes = encodeCounted WrittenFrame.encode news := by
  refine (Reader.takes_u2.bind fun count =>
    takes_framesOnto none (BigEndian.encode16 count) count.toNat).congr fun _ text bytes => ?_
  constructor
  · rintro ⟨_, _, count, rfl, rfl, olds, news, canonical, all, length, rfl, rfl⟩
    obtain ⟨fits, same⟩ := Reader.counted_iff.mp length
    have lengths := all.length_eq
    rw [WrittenFrame.length_placed, WrittenFrame.length_placed] at lengths
    exact ⟨olds, news, canonical, all, fits, by rw [encodeCounted, same],
      by rw [encodeCounted, ← lengths, same]⟩
  · rintro ⟨olds, news, canonical, all, fits, rfl, rfl⟩
    have length : olds.length = (UInt16.ofNat olds.length).toNat :=
      Reader.counted_iff.mpr ⟨fits, rfl⟩
    have lengths := all.length_eq
    rw [WrittenFrame.length_placed, WrittenFrame.length_placed] at lengths
    refine ⟨_, _, _, rfl, rfl, olds, news, canonical, all, length, rfl, ?_⟩
    rw [encodeCounted, ← lengths]
    rfl

/-- The frames of a body become the frames of a moved body. -/
def MovesFrames (relocation : Relocation) (body moved : ByteArray) : Prop :=
  ∃ olds news rest, (∀ new ∈ news, WrittenFrame.IsCanonical new) ∧
    List.Forall₂ relocation.MovesFrame (WrittenFrame.placed none olds)
      (WrittenFrame.placed none news) ∧
    olds.length < 65536 ∧ body = encodeCounted WrittenFrame.encode olds ++ rest ∧
    moved = encodeCounted WrittenFrame.encode news

theorem MovesFrames.append {body moved : ByteArray} (frames : relocation.MovesFrames body moved)
    (behind : ByteArray) : relocation.MovesFrames (body ++ behind) moved := by
  obtain ⟨olds, news, rest, canonical, all, fits, rfl, written⟩ := frames
  exact ⟨olds, news, rest ++ behind, canonical, all, fits, ByteArray.append_assoc, written⟩

theorem attributeBody_frames {body moved : ByteArray} :
    relocation.attributeBody "StackMapTable" body = .ok moved ↔
      relocation.MovesFrames body moved := by
  have reader : relocation.attributeBody "StackMapTable" body =
      relocation.stackMap.evaluate body := by
    simp [attributeBody, attributeReader]
  rw [reader, takes_stackMap.evaluate_iff]
  constructor
  · rintro ⟨_, rest, rfl, olds, news, canonical, all, fits, rfl, rfl⟩
    exact ⟨olds, news, rest, canonical, all, fits, rfl, rfl⟩
  · rintro ⟨olds, news, rest, canonical, all, fits, rfl, rfl⟩
    exact ⟨_, rest, rfl, olds, news, canonical, all, fits, rfl, rfl⟩

/-- A stack map is refused for its form, or for an offset at which no instruction starts. -/
inductive RefusesFrame (relocation : Relocation) : Failure → Prop where
  | form (offset : Nat) (fault : ClassFault) :
      RefusesFrame relocation (.malformedClass offset fault)
  | boundary (old : Nat) : RefusesFrame relocation (.relocation relocation.unit (.notBoundary old))

section Failures

theorem failsWithin_map (old : Nat) : FailsWithin relocation.RefusesFrame (relocation.map old) := by
  unfold map
  split
  · exact failsWithin_ok _
  · exact failsWithin_error (.boundary old)

variable (bounded : relocation.Bounded)

include bounded

/-- A mapped offset is small enough to be written. -/
theorem failsWithin_map16 (old : UInt16) :
    FailsWithin relocation.RefusesFrame (relocation.map16 old) := by
  refine (failsWithin_map old.toNat).bind fun new mapped => ?_
  rw [if_pos (bounded _ _ mapped).2]
  exact failsWithin_ok _

theorem failsWithin_relocateItem (item : Verification) :
    FailsWithin relocation.RefusesFrame (item.relocate relocation) := by
  unfold Verification.relocate
  split
  · exact (failsWithin_map16 bounded _).bind fun _ _ => failsWithin_ok _
  · exact failsWithin_ok _

theorem failsWithin_relocateFrame (frame : Frame) :
    FailsWithin relocation.RefusesFrame (frame.relocate relocation) := by
  have items (items : List Verification) :
      FailsWithin relocation.RefusesFrame (items.mapM (·.relocate relocation)) :=
    FailsWithin.mapM fun item _ => failsWithin_relocateItem bounded item
  unfold Frame.relocate
  split
  · exact (failsWithin_relocateItem bounded _).bind fun _ _ => failsWithin_ok _
  · exact (items _).bind fun _ _ => failsWithin_ok _
  · exact (items _).bind fun _ _ => (items _).bind fun _ _ => failsWithin_ok _
  · exact failsWithin_ok _

/-- No offset of short code is further ahead than a distance can tell. -/
theorem failsWithin_frame (previous : Option (Nat × Nat)) :
    (relocation.frame previous).FailsWithin relocation.RefusesFrame := by
  refine (Frame.failsWithin_read fun _ _ _ => .form _ _).bind fun found _ => ?_
  refine (Reader.failsWithin_ofExcept (failsWithin_map _)).bind fun new mapped => ?_
  have small := (bounded _ _ (Reader.gives_ofExcept mapped)).2
  have distance : FailsWithin relocation.RefusesFrame
      (relocation.frameDistance (previous.map Prod.snd) new) := by
    rw [frameDistance_eq]
    refine .ite (fun _ => failsWithin_error (.form _ _)) fun _ => ?_
    -- The distance is at most the new offset, which is short.
    rw [if_pos (by omega)]
    exact failsWithin_ok _
  refine (Reader.failsWithin_ofExcept distance).bind fun distance _ => ?_
  exact (Reader.failsWithin_ofExcept (failsWithin_relocateFrame bounded found.2)).made _

theorem failsWithin_framesOnto (count : Nat) (previous : Option (Nat × Nat)) (done : ByteArray) :
    (relocation.framesOnto previous done count).FailsWithin relocation.RefusesFrame := by
  induction count generalizing previous done with
  | zero => exact Reader.failsWithin_pure done
  | succ count inductionHypothesis =>
    rw [framesOnto_succ]
    exact (failsWithin_frame bounded previous).bind fun found _ => inductionHypothesis _ _

theorem failsWithin_stackMap : relocation.stackMap.FailsWithin relocation.RefusesFrame :=
  (Reader.failsWithin_u2 fun _ _ _ => .form _ _).bind fun count _ =>
    failsWithin_framesOnto bounded count.toNat none _

end Failures

theorem attributeBody_frames_refused (bounded : relocation.Bounded) {body : ByteArray}
    {failure : Failure} (failed : relocation.attributeBody "StackMapTable" body = .error failure) :
    relocation.RefusesFrame failure := by
  have within := (failsWithin_stackMap bounded).evaluate body
  refine within failure ?_
  simpa [attributeBody, attributeReader] using failed

/-- After a relocation the frames of a stack map stand at the new places of their old offsets, in
their old order and with their old items; near frames are compact, and no frame is too far ahead. -/
theorem relocate_keeps_frames {unit : String} {code out : ByteArray}
    {patches : Nat → Option UInt16} {instructions : List Instruction}
    (decoded : Instruction.decodeAll code = .ok instructions)
    (done : relocate unit code (patchedSites patches instructions) = .ok (out, relocation)) :
    (∀ body moved, relocation.attributeBody "StackMapTable" body = .ok moved →
      ∃ olds news : List WrittenFrame,
        (Reader.counted Frame.read).evaluate body = .ok (olds.map WrittenFrame.content) ∧
        (Reader.counted Frame.read).Parses moved (news.map WrittenFrame.content) ∧
        moved = encodeCounted WrittenFrame.encode news ∧
        List.Forall₂ relocation.MovesFrame (WrittenFrame.placed none olds)
          (WrittenFrame.placed none news) ∧
        ∀ new ∈ news, new.IsCompact ↔ new.frame.isShort ∧ new.distance.toNat ≤ 63) ∧
    ∀ body name, relocation.attributeBody "StackMapTable" body ≠
      .error (.relocation name .frameDelta) := by
  have laysOut := laysOut_of_relocate decoded done
  constructor
  · intro body moved frames
    obtain ⟨olds, news, rest, canonical, all, fits, rfl, rfl⟩ := attributeBody_frames.mp frames
    have lengths := all.length_eq
    rw [WrittenFrame.length_placed, WrittenFrame.length_placed] at lengths
    refine ⟨olds, news, ?_, ?_, rfl, all, fun new member => (canonical new member).isCompact_iff⟩
    · exact Frame.takes_counted.evaluate_iff.mpr ⟨_, rest, rfl, olds, fits, rfl, rfl⟩
    · exact Frame.takes_counted.parses_iff.mpr ⟨news, lengths ▸ fits, rfl, rfl⟩
  · intro body name failed
    cases attributeBody_frames_refused laysOut.bounded failed

/-- The frame and the value it names both move behind the load that becomes longer. -/
theorem relocate_keeps_frames_load :
    let code : ByteArray := ⟨#[0x12, 1, 0xB1]⟩
    let instructions : List Instruction := [⟨0, 0x12, 2, by decide⟩, ⟨2, 0xB1, 1, by decide⟩]
    let patches : Nat → Option UInt16 := fun offset => if offset = 0 then some 300 else none
    let relocation : Relocation := ⟨"Example", #[some 0, none, some 3, some 4], 4⟩
    relocate "Example" code (patchedSites patches instructions) =
        .ok (⟨#[0x13, 1, 44, 0xB1]⟩, relocation) ∧
      ∃ olds news : List WrittenFrame,
        (Reader.counted Frame.read).evaluate ⟨#[0, 1, 66, 8, 0, 2]⟩ =
          .ok (olds.map WrittenFrame.content) ∧
        (Reader.counted Frame.read).Parses ⟨#[0, 1, 67, 8, 0, 3]⟩
          (news.map WrittenFrame.content) ∧
        List.Forall₂ relocation.MovesFrame (WrittenFrame.placed none olds)
          (WrittenFrame.placed none news) := by
  intro code instructions patches relocation
  have decoded : Instruction.decodeAll code = .ok instructions :=
    Instruction.decodeAll_eq_ok.mpr (.step rfl (.step rfl .done))
  have done : relocate "Example" code (patchedSites patches instructions) =
      .ok (⟨#[0x13, 1, 44, 0xB1]⟩, relocation) :=
    relocate_eq_of_parts (by decide +kernel)
  have frames : relocation.attributeBody "StackMapTable" ⟨#[0, 1, 66, 8, 0, 2]⟩ =
      .ok ⟨#[0, 1, 67, 8, 0, 3]⟩ := by
    decide +kernel
  obtain ⟨olds, news, before, after, _, all, _⟩ :=
    (relocate_keeps_frames decoded done).1 _ _ frames
  exact ⟨done, olds, news, before, after, all⟩

end Relocation

end EnumNames
