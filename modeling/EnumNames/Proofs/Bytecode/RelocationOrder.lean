import EnumNames.Proofs.Bytecode.AttributeGrowth
import EnumNames.Proofs.Bytecode.Placement
import EnumNames.Proofs.Bytes.InRange

/-!
A relocation keeps the order of the offsets it maps. The lengths and distances that are written anew
are therefore never below zero, whatever bytes the moved attributes consist of.
-/

namespace EnumNames

namespace Site

theorem le_start_of_mem_placeFrom {start : Nat} {sites : List Site} :
    ∀ placed ∈ placeFrom start sites, start ≤ placed.start := by
  induction sites generalizing start with
  | nil => simp [placeFrom]
  | cons site rest inductionHypothesis =>
    refine List.forall_mem_cons.mpr ⟨Nat.le_refl start, fun placed member => ?_⟩
    exact Nat.le_trans (Nat.le_add_right _ _) (inductionHypothesis placed member)

/-- Of two instructions the one that was in front is put in front. -/
theorem Tile.start_lt {code : ByteArray} {old : Nat} {sites : List Site}
    (tile : Tile code old sites) (start : Nat) :
    ∀ placed ∈ placeFrom start sites, ∀ other ∈ placeFrom start sites,
      placed.site.instruction.offset < other.site.instruction.offset →
        placed.start < other.start := by
  induction tile generalizing start with
  | done => simp [placeFrom]
  | @next site rest decoded tile inductionHypothesis =>
    have positive := (length_le_lengthAt decoded start).1
    have later := (tile.bounds (start + site.lengthAt start)).2.2
    intro placed member other among ordered
    rcases List.mem_cons.mp member with rfl | member
    · rcases List.mem_cons.mp among with rfl | among
      · exact absurd ordered (Nat.lt_irrefl _)
      · have behind := le_start_of_mem_placeFrom other among
        change start < other.start
        omega
    · rcases List.mem_cons.mp among with rfl | among
      · have behind := (later placed member).1
        change placed.site.instruction.offset < site.instruction.offset at ordered
        unfold Instruction.stop at behind
        omega
      · exact inductionHypothesis _ placed member other among ordered

end Site

namespace Relocation

/-- Of two offsets that are mapped the smaller one is mapped to the smaller one. -/
def Increasing (relocation : Relocation) : Prop :=
  ∀ old later new moved, relocation.map old = .ok new → relocation.map later = .ok moved →
    old < later → new < moved

/-- The induction over the sites is done already; the end of the code comes in addition. -/
theorem increasing_ofSites {unit : String} {code : ByteArray} {sites : List Site}
    (tile : Site.Tile code 0 sites) : (ofSites unit sites).Increasing := by
  intro old later new moved mapped laterMapped ordered
  have bounds := (tile.bounds 0).2.2
  rcases (map_eq_ok tile _ _).mp mapped with ⟨placed, member, rfl, rfl⟩ | ⟨rfl, rfl⟩
  · rcases (map_eq_ok tile _ _).mp laterMapped with ⟨other, among, rfl, rfl⟩ | ⟨rfl, rfl⟩
    · exact tile.start_lt 0 placed member other among ordered
    · exact (bounds placed member).2.2.1
  · rcases (map_eq_ok tile _ _).mp laterMapped with ⟨other, among, rfl, rfl⟩ | ⟨rfl, rfl⟩
    · have inside := (bounds other among).2.1
      unfold Instruction.stop at inside
      omega
    · exact absurd ordered (Nat.lt_irrefl _)

section InRange

variable (relocation : Relocation)

theorem inRange_refuse {α : Type} (unit : String) (fault : RelocationFault) :
    InRange (refuse unit fault : Except Failure α) := inRange_error rfl

theorem inRange_map (old : Nat) : InRange (relocation.map old) := by
  unfold map
  split
  · exact inRange_ok _
  · exact inRange_refuse _ _

theorem inRange_map16 (old : UInt16) : InRange (relocation.map16 old) := by
  apply (relocation.inRange_map _).bind
  intro new _
  apply InRange.ite
  · intro _
    exact inRange_ok _
  · intro _
    exact inRange_refuse _ _

theorem inRange_exceptionRow (row : ExceptionRow) : InRange (relocation.exceptionRow row) := by
  apply (relocation.inRange_map16 row.start).bind
  intro start _
  apply (relocation.inRange_map16 row.stop).bind
  intro stop _
  exact (relocation.inRange_map16 row.handler).bind fun handler _ => inRange_ok _

theorem inRange_rows {row : Reader ByteArray} (inRange : row.InRange) : (rows row).InRange := by
  apply Reader.inRange_u2.bind
  intro count _
  exact (inRange.replicate count.toNat).made _

theorem inRange_lineRow : relocation.lineRow.InRange := by
  apply Reader.inRange_u2.bind
  intro start _
  apply Reader.inRange_u2.bind
  intro line _
  exact (Reader.inRange_ofExcept (relocation.inRange_map16 start)).made _

theorem inRange_relocate_item (item : Verification) : InRange (item.relocate relocation) := by
  unfold Verification.relocate
  split
  · exact (relocation.inRange_map16 _).bind fun offset _ => inRange_ok _
  · exact inRange_ok _

theorem inRange_relocate_frame (frame : Frame) : InRange (frame.relocate relocation) := by
  have items (items : List Verification) : InRange (items.mapM (·.relocate relocation)) :=
    InRange.mapM fun item _ => relocation.inRange_relocate_item item
  unfold Frame.relocate
  split
  · exact (relocation.inRange_relocate_item _).bind fun item _ => inRange_ok _
  · exact (items _).bind fun moved _ => inRange_ok _
  · exact (items _).bind fun locals _ => (items _).bind fun stack _ => inRange_ok _
  · exact inRange_ok _

end InRange

variable {relocation : Relocation}

theorem map16_eq_ok {old new : UInt16} (done : relocation.map16 old = .ok new) :
    relocation.map old.toNat = .ok new.toNat := by
  obtain ⟨offset, mapped, done⟩ := bind_eq_ok.mp done
  split at done
  · rename_i fits
    cases done
    rw [mapped, UInt16.toNat_ofNat_of_lt' fits]
  · cases done

theorem Increasing.le (increasing : relocation.Increasing) {old later new moved : Nat}
    (mapped : relocation.map old = .ok new) (laterMapped : relocation.map later = .ok moved)
    (ordered : old ≤ later) : new ≤ moved := by
  rcases Nat.eq_or_lt_of_le ordered with rfl | before
  · rw [mapped] at laterMapped
    exact Nat.le_of_eq (Except.ok.inj laterMapped)
  · exact Nat.le_of_lt (increasing _ _ _ _ mapped laterMapped before)

/-- A range still ends at its start or behind it. -/
theorem inRange_variableRow (increasing : relocation.Increasing) :
    relocation.variableRow.InRange := by
  apply Reader.inRange_u2.bind
  intro start _
  apply Reader.inRange_u2.bind
  intro length _
  apply (Reader.inRange_bytes 6).bind
  intro rest _
  apply (Reader.inRange_ofExcept (relocation.inRange_map16 start)).bind
  intro newStart startMoved
  apply (Reader.inRange_ofExcept (relocation.inRange_map16 (rangeStop start length))).bind
  intro newStop stopMoved
  have startMapped := map16_eq_ok (Reader.gives_ofExcept startMoved)
  have stopMapped := map16_eq_ok (Reader.gives_ofExcept stopMoved)
  have ordered : start.toNat ≤ (rangeStop start length).toNat := by
    have bound := start.toNat_lt
    have fits : min (start.toNat + length.toNat) 65535 < 65536 := by omega
    rw [rangeStop, UInt16.toNat_ofNat_of_lt' fits]
    omega
  have moved := UInt16.le_iff_toNat_le.mpr (increasing.le startMapped stopMapped ordered)
  refine (Reader.inRange_ofExcept ?_).made _
  rw [rangeLength, if_pos moved]
  exact inRange_ok _

end Relocation

/-- Reading fails when there are too few bytes and when a tag has no meaning. -/
theorem Verification.failsWithin_read {allowed : Failure → Prop}
    (form : ∀ offset fault, fault.isOverrun = false → allowed (.malformedClass offset fault)) :
    read.FailsWithin allowed := by
  refine Reader.failsWithin_position.bind fun offset _ => ?_
  refine (Reader.failsWithin_u1 fun _ _ _ => form _ _ rfl).bind fun tag _ => ?_
  have operand : Reader.u2.FailsWithin allowed := Reader.failsWithin_u2 fun _ _ _ => form _ _ rfl
  refine .ite (fun _ => ?_) fun _ => .ite (fun _ => ?_) fun _ => .ite (fun _ => ?_) fun _ => ?_
  · exact Reader.failsWithin_pure _
  · exact operand.made _
  · exact operand.made _
  · exact Reader.failsWithin_failAt (form _ _ rfl)

namespace Frame

/-- The tags of chops and appends have room for one, two or three locals. -/
def FitsTag : Frame → Prop
  | .chop count => 1 ≤ count ∧ count ≤ 3
  | .append items => 1 ≤ items.length ∧ items.length ≤ 3
  | _ => True

section FailsWithin

variable {allowed : Failure → Prop}
  (form : ∀ offset fault, fault.isOverrun = false → allowed (.malformedClass offset fault))

include form

theorem failsWithin_readItems : readItems.FailsWithin allowed := by
  refine (Reader.failsWithin_u2 fun _ _ _ => form _ _ rfl).bind fun count _ => ?_
  exact (Verification.failsWithin_read form).replicate count.toNat

theorem failsWithin_readBody (offset : Nat) (tag : UInt8) :
    (readBody offset tag).FailsWithin allowed := by
  have item := Verification.failsWithin_read form
  have items := failsWithin_readItems form
  refine .ite (fun _ => ?_) fun _ => .ite (fun _ => ?_) fun _ => .ite (fun _ => ?_) fun _ => ?_
  · exact Reader.failsWithin_pure _
  · exact item.made _
  · exact Reader.failsWithin_failAt (form _ _ rfl)
  · refine (Reader.failsWithin_u2 fun _ _ _ => form _ _ rfl).bind fun distance _ => ?_
    refine .ite (fun _ => ?_) fun _ => .ite (fun _ => ?_) fun _ => .ite (fun _ => ?_) fun _ =>
      .ite (fun _ => ?_) fun _ => ?_
    · exact item.made _
    · exact Reader.failsWithin_pure _
    · exact Reader.failsWithin_pure _
    · exact (item.replicate _).made _
    · exact items.bind fun locals _ => items.made _

theorem failsWithin_read : read.FailsWithin allowed := by
  refine Reader.failsWithin_position.bind fun offset _ => ?_
  refine (Reader.failsWithin_u1 fun _ _ _ => form _ _ rfl).bind fun tag _ => ?_
  exact failsWithin_readBody form offset tag

end FailsWithin

theorem inRange_read : read.InRange := failsWithin_read fun _ _ other => other

/-- The count is what is left of the tag, which was compared with its bounds before. -/
theorem fitsTag_of_gives {distance : UInt16} {frame : Frame} (gives : read.Gives (distance, frame)) :
    frame.FitsTag := by
  obtain ⟨offset, _, gives⟩ := Reader.gives_bind gives
  obtain ⟨tag, _, gives⟩ := Reader.gives_bind gives
  unfold readBody at gives
  dsimp only at gives
  split at gives
  · cases Reader.gives_pure gives
    trivial
  · split at gives
    · obtain ⟨item, _, gives⟩ := Reader.gives_bind gives
      cases Reader.gives_pure gives
      trivial
    · split at gives
      · obtain ⟨_, _, done⟩ := gives
        cases done
      · rename_i extended
        obtain ⟨_, _, gives⟩ := Reader.gives_bind gives
        split at gives
        · obtain ⟨item, _, gives⟩ := Reader.gives_bind gives
          cases Reader.gives_pure gives
          trivial
        · split at gives
          · rename_i notItem chop
            cases Reader.gives_pure gives
            change 1 ≤ 251 - tag.toNat ∧ 251 - tag.toNat ≤ 3
            omega
          · split at gives
            · cases Reader.gives_pure gives
              trivial
            · split at gives
              · rename_i notSame append
                obtain ⟨items, read, gives⟩ := Reader.gives_bind gives
                cases Reader.gives_pure gives
                have length := Reader.length_of_gives_replicate read
                change 1 ≤ items.length ∧ items.length ≤ 3
                omega
              · obtain ⟨locals, _, gives⟩ := Reader.gives_bind gives
                obtain ⟨stack, _, gives⟩ := Reader.gives_bind gives
                cases Reader.gives_pure gives
                trivial

end Frame

namespace Relocation

variable {relocation : Relocation}

/-- The frame before was mapped, and this one lies behind it. -/
theorem inRange_frame (increasing : relocation.Increasing) {previous : Option (Nat × Nat)}
    (mapped : ∀ offsets, previous = some offsets → relocation.map offsets.1 = .ok offsets.2) :
    (relocation.frame previous).InRange := by
  apply Frame.inRange_read.bind
  intro found _
  apply (Reader.inRange_ofExcept (relocation.inRange_map _)).bind
  intro new newMapped
  have moved := Reader.gives_ofExcept newMapped
  have behind : ¬ new < frameBase (previous.map Prod.snd) := by
    cases previous with
    | none => exact Nat.not_lt_zero new
    | some offsets =>
      have before : offsets.1 < frameOffset (some offsets.1) found.1.toNat := by
        rw [frameOffset]
        omega
      exact Nat.not_lt.mpr (increasing _ _ _ _ (mapped offsets rfl) moved before)
  have distance : InRange (relocation.frameDistance (previous.map Prod.snd) new) := by
    rw [frameDistance_eq, if_neg behind]
    apply InRange.ite
    · intro _
      exact inRange_ok _
    · intro _
      exact inRange_refuse _ _
  apply (Reader.inRange_ofExcept distance).bind
  intro distance _
  exact (Reader.inRange_ofExcept (relocation.inRange_relocate_frame found.2)).made _

theorem map_of_gives_frame {previous : Option (Nat × Nat)} {offsets : Nat × Nat}
    {bytes : ByteArray} (gives : (relocation.frame previous).Gives (offsets, bytes)) :
    relocation.map offsets.1 = .ok offsets.2 := by
  obtain ⟨found, _, gives⟩ := Reader.gives_bind gives
  obtain ⟨new, moved, gives⟩ := Reader.gives_bind gives
  obtain ⟨distance, _, gives⟩ := Reader.gives_bind gives
  obtain ⟨frame, _, gives⟩ := Reader.gives_bind gives
  cases Reader.gives_pure gives
  exact Reader.gives_ofExcept moved

/-- The induction is on the number of frames; each one is mapped before the next one is read. -/
theorem inRange_framesOnto (increasing : relocation.Increasing) (count : Nat)
    {previous : Option (Nat × Nat)} (done : ByteArray)
    (mapped : ∀ offsets, previous = some offsets → relocation.map offsets.1 = .ok offsets.2) :
    (relocation.framesOnto previous done count).InRange := by
  induction count generalizing previous done with
  | zero => exact Reader.inRange_pure done
  | succ count inductionHypothesis =>
    rw [framesOnto_succ]
    apply (inRange_frame increasing mapped).bind
    intro found gives
    apply inductionHypothesis
    intro offsets same
    cases same
    exact map_of_gives_frame gives

theorem inRange_stackMap (increasing : relocation.Increasing) : relocation.stackMap.InRange := by
  apply Reader.inRange_u2.bind
  intro count _
  exact inRange_framesOnto increasing count.toNat _ (by simp)

/-- Whatever the body of an attribute is, it is moved or refused. -/
theorem inRange_attributeBody (increasing : relocation.Increasing) (name : String)
    (body : ByteArray) : InRange (relocation.attributeBody name body) := by
  have reader : (relocation.attributeReader name).InRange := by
    apply Reader.InRange.ite
    · intro _
      exact inRange_rows relocation.inRange_lineRow
    · intro _
      apply Reader.InRange.ite
      · intro _
        exact inRange_rows (inRange_variableRow increasing)
      · intro _
        apply Reader.InRange.ite
        · intro _
          exact inRange_stackMap increasing
        · intro _
          exact Reader.inRange_throw rfl
  exact reader.evaluate body

end Relocation

end EnumNames
