import EnumNames.Proofs.Bytecode.MovedFrames
import EnumNames.Proofs.EnumUnit.RepairInRange
import EnumNames.Proofs.EnumUnit.StringGrowth

/-!
Numbers that a repair writes with fewer bits than it computes them with. Main statement: in a class
of less than 2^31 bytes every one of them fits, so that no repair writes a number other than the one
it means, and the checks for a full pool and for an offset beyond 16 bits never fail.
-/

namespace EnumNames

namespace BigEndian

/-- The number of items keeps its value in 16 bits. -/
def FitsCount (count : Nat) : Prop := (UInt16.ofNat count).toNat = count

/-- The number of bytes keeps its value in 32 bits. -/
def FitsSize (size : Nat) : Prop := (UInt32.ofNat size).toNat = size

theorem fitsCount_of_lt {count : Nat} (few : count < 65536) : FitsCount count :=
  toNat_ofNat_count few

theorem fitsSize_of_lt {size : Nat} (few : size < 0x100000000) : FitsSize size :=
  UInt32.toNat_ofNat_of_lt' few

end BigEndian

open BigEndian (FitsCount FitsSize)

namespace ConstantPool

/-- The pool has at most 65535 slots, so every position in it and every position that a new entry
gets is below the largest number of 16 bits. -/
structure IndicesFit (pool : ConstantPool) : Prop where
  few : pool.count ≤ 65535
  found : ∀ passes position, pool.slots.findIdx? passes = some position →
    position < 65535 ∧ FitsCount position
  appended : ∀ constant index next, append constant pool = .ok index next →
    index.toNat = pool.count ∧ index.toNat < 65535

variable {pool : ConstantPool}

theorem indicesFit_of_count (fits : pool.count < 65536) : pool.IndicesFit where
  few := Nat.le_of_lt_succ fits
  found := by
    intro passes position found
    obtain ⟨inside, _⟩ := Array.findIdx?_eq_some_iff_getElem.mp found
    change position < pool.count at inside
    exact ⟨by omega, BigEndian.fitsCount_of_lt (by omega)⟩
  appended := by
    intro constant index next done
    have last := (append_push done).1
    unfold append at done
    split at done
    · rename_i room
      change pool.count < 65535 at room
      exact ⟨last, by omega⟩
    · cases done

theorem findOrAppendText_after (text : String) (fits : pool.count < 65536) :
    ((findOrAppendText text).after pool).count < 65536 := by
  unfold Edit.after
  cases done : findOrAppendText text pool with
  | ok index next =>
    obtain ⟨_, _, room, _⟩ := findOrAppendText_eq_ok fits done
    exact room
  | error failure next =>
    rw [findOrAppendText_eq_error done]
    exact fits

theorem lt_count_of_stringValue {index : UInt16} {value : Option String}
    (found : pool.stringValue index = .ok value) : index.toNat < pool.count := by
  obtain ⟨constant, read, _⟩ := bind_eq_ok.mp found
  obtain ⟨inside, _⟩ := Array.getElem?_eq_some_iff.mp (get_eq_ok.mp read)
  exact inside

end ConstantPool

namespace Progress

variable {source pool : ConstantPool} {code : ByteArray}

/-- The indices fit in the pool of a run, in the pools that interning a name comes through, and for
the loads that have been given one. -/
structure IndicesFit (progress : Progress) : Prop where
  pool : progress.pool.IndicesFit
  texts : ∀ name, ((ConstantPool.findOrAppendText name).after progress.pool).IndicesFit
  strings : ∀ name, ((ConstantPool.intern name).after progress.pool).IndicesFit
  chosen : ∀ site ∈ progress.sites, ∀ index, site.index = some index →
    index.toNat < progress.pool.count

theorem Run.lt_count {machine last : Construction} {sites : List Site} {found : List Substitution}
    (run : Run source pool code machine sites found last) :
    ∀ site ∈ sites, ∀ index, site.index = some index → index.toNat < pool.count := by
  induction run with
  | done => simp
  | forward taken observed rest inductionHypothesis =>
    exact List.forall_mem_cons.mpr ⟨by simp, inductionHypothesis⟩
  | substitute taken observed chosen rest inductionHypothesis =>
    refine List.forall_mem_cons.mpr ⟨?_, inductionHypothesis⟩
    rintro index rfl
    exact ConstantPool.lt_count_of_stringValue chosen.2

theorem indicesFit_of_observeAll {unit : EnumUnit} {instructions : List Instruction}
    {progress : Progress} (fits : source.count < 65536)
    (observed : observeAll source code unit instructions = .ok progress) :
    progress.IndicesFit := by
  obtain ⟨_, sites, _, _, room, held, _, run⟩ := observeAll_run observed (.refl _) fits
  refine ⟨ConstantPool.indicesFit_of_count room, fun name => ?_, fun name => ?_, ?_⟩
  · exact ConstantPool.indicesFit_of_count (ConstantPool.findOrAppendText_after name room)
  · obtain ⟨_, _, limit⟩ := ConstantPool.intern_after name room
    exact ConstantPool.indicesFit_of_count limit
  · intro site member
    rw [held, List.append_nil, List.mem_reverse] at member
    exact run.lt_count site member

end Progress

/-- A narrow load gets an index of one byte, whether it is overwritten where it stands, because no
load has to grow, or written into moved code. -/
structure Site.NarrowFits (sites : List Site) : Prop where
  patched : sites.any isWidened = false → ∀ site ∈ sites, ∀ index, site.index = some index →
    site.instruction.opcode = Opcode.loadConstant →
      index.toNat ≤ 255 ∧ index.toUInt8.toNat = index.toNat
  emitted : ∀ site ∈ sites, ∀ index byte, site.index = some index →
    Relocation.emitLoad site.instruction index = ⟨#[Opcode.loadConstant, byte]⟩ →
      index.toNat ≤ 255 ∧ byte.toNat = index.toNat

theorem toNat_toUInt8_of_le {index : UInt16} (narrow : index.toNat ≤ 255) :
    index.toUInt8.toNat = index.toNat := by
  rw [UInt16.toNat_toUInt8]
  omega

theorem Site.narrowFits (sites : List Site) : NarrowFits sites where
  patched := by
    intro none site member index chosen narrow
    have small : ¬ site.isWidened = true := List.any_eq_false.mp none site member
    have bound : index.toNat ≤ 255 := by
      simpa [isWidened, narrow, chosen, UInt16.lt_iff_toNat_lt] using small
    exact ⟨bound, toNat_toUInt8_of_le bound⟩
  emitted := by
    intro site _ index byte _ written
    unfold Relocation.emitLoad at written
    split at written
    · rename_i narrow
      have bound : index.toNat ≤ 255 := UInt16.le_iff_toNat_le.mp narrow.2
      cases written
      exact ⟨bound, toNat_toUInt8_of_le bound⟩
    · cases congrArg ByteArray.size written

namespace Relocation

/-- What a relocation computes fits where it is written: offsets in 16 bits, the distances of its
placed sites in 32 bits, the sizes of moved attributes and the numbers in the tags of moved frames. -/
structure NumbersFit (relocation : Relocation) (placed : List PlacedSite) : Prop where
  offsets : ∀ old new, relocation.map old = .ok new → new ≤ 65535
  refused : ∀ (old : UInt16) failure, relocation.map16 old = .error failure →
    failure = .relocation relocation.unit (.notBoundary old.toNat)
  distances : ∀ site ∈ placed, ∀ relative distance,
    relocation.distance site relative = .ok distance →
      -65535 ≤ distance ∧ distance ≤ 65535 ∧ (Int32.ofInt distance).toInt = distance
  payloads : ∀ name body payload, body.size < 0x80000000 →
    relocation.attributeBody name body = .ok payload → FitsSize payload.size
  frames : ∀ before rest distance frame next moved, Frame.read (.between before rest) =
    .ok (distance, frame) next → frame.relocate relocation = .ok moved →
      ∀ new, moved.TaggedBy (moved.writtenTag new) new

variable {relocation : Relocation} {placed : List PlacedSite}

theorem numbersFit_of_bounded (bounded : relocation.Bounded)
    (located : ∀ site ∈ placed, ∃ old, relocation.map old = .ok site.start) :
    relocation.NumbersFit placed where
  offsets := fun old new mapped => Nat.le_of_lt_succ (bounded old new mapped).2
  refused := by
    intro old failure failed
    rcases bind_eq_error.mp failed with unmapped | ⟨new, mapped, failed⟩
    · unfold map at unmapped
      split at unmapped
      · cases unmapped
      · cases unmapped
        rfl
    · rw [if_pos (bounded _ _ mapped).2] at failed
      cases failed
  distances := by
    intro site member relative distance done
    obtain ⟨old, start⟩ := located site member
    obtain ⟨new, mapped, same⟩ := bind_eq_ok.mp done
    cases same
    have startBound := (bounded _ _ start).2
    have newBound := (bounded _ _ mapped).2
    exact ⟨by omega, by omega, Int32.toInt_ofInt_of_le (by omega) (by omega)⟩
  payloads := by
    intro name body payload small done
    have grown := size_attributeBody bounded done
    exact BigEndian.fitsSize_of_lt (by omega)
  frames := by
    intro before rest distance frame next moved read relocated new
    obtain ⟨_, _, _, _, written, _, same⟩ := (Frame.takes_read _ _ _ _).mp read
    cases same
    exact ((Frame.relocate_eq_ok.mp relocated).taggedBy written.tagged).written new

/-- Sites that tile some code are placed at mapped offsets. -/
theorem numbersFit_ofSites {unit : String} {code : ByteArray} {sites : List Site}
    (tile : Site.Tile code 0 sites) (short : Site.endFrom 0 sites ≤ 65535) :
    (ofSites unit sites).NumbersFit (Site.placeFrom 0 sites) :=
  numbersFit_of_bounded (bounded_ofSites tile short) fun site member =>
    ⟨_, (map_eq_ok tile _ _).mpr (.inl ⟨site, member, rfl, rfl⟩)⟩

end Relocation

namespace StaticInitializer

variable {data : ByteArray}

/-- The numbers in the attribute that is written around repaired code fit. -/
structure CodeFits (initializer : StaticInitializer data) (out : ByteArray)
    (relocation : Option Relocation) : Prop where
  short : out.size ≤ 65535
  code : FitsSize out.size
  exceptions : FitsCount initializer.source.exceptions.length
  attributes : FitsCount initializer.source.attributes.length
  payloads : ∀ found span name body payload, relocation = some found →
    Access.slice data span = .ok body → found.attributeBody name body = .ok payload →
      FitsSize payload.size
  body : ∀ replacement, initializer.source.encode data initializer.location.name
    initializer.layout.pool out relocation = .ok replacement →
      ∃ body, replacement = BigEndian.encode16 initializer.location.name ++
        (BigEndian.encodeSize body.size ++ body) ∧ FitsSize body.size

/-- Behind the run the numbers fit in every step that the repair gets to: in the patched loads, in
the moved code, in the attribute around it and in the count of the extended pool. -/
structure NumbersFit (initializer : StaticInitializer data) (unit : EnumUnit)
    (progress : Progress) : Prop where
  narrow : Site.NarrowFits progress.sites.reverse
  relocated : ∀ placed length, Site.place progress.sites.reverse = (placed, length) →
    length ≤ 65535 → (Relocation.ofPlaced unit.name placed length).NumbersFit placed
  coded : ∀ out relocation, unit.repairCode initializer.code progress.sites.reverse =
    .ok (out, relocation) → initializer.CodeFits out relocation
  count : FitsCount progress.pool.count
  spliced : ∀ replaced replacement, initializer.layout.splice data progress.pool replaced
    replacement ≠ .error (.malformedClass 8 .poolOverflow)

theorem splice_ne_poolOverflow {layout : ClassLayout} {pool : ConstantPool} (few : pool.count ≤ 65535)
    (replaced : Span) (replacement : ByteArray) :
    layout.splice data pool replaced replacement ≠ .error (.malformedClass 8 .poolOverflow) := by
  have sliced (span : Span) :
      Access.slice data span ≠ .error (.malformedClass 8 .poolOverflow) := by
    intro failed
    unfold Access.slice at failed
    split at failed
    · cases failed
    · injection failed with failed
      injection failed with _ fault
      cases fault
  intro failed
  unfold ClassLayout.splice at failed
  rw [if_neg (Nat.not_lt.mpr few)] at failed
  rcases bind_eq_error.mp failed with head | ⟨_, _, failed⟩
  · exact sliced _ head
  rcases bind_eq_error.mp failed with entries | ⟨_, _, failed⟩
  · exact sliced _ entries
  rcases bind_eq_error.mp failed with before | ⟨_, _, failed⟩
  · exact sliced _ before
  rcases bind_eq_error.mp failed with behind | ⟨_, _, failed⟩
  · exact sliced _ behind
  · cases failed

/-- The sizes are bounded by the size of the class, and by the little that a moved attribute may
grow. -/
theorem codeFits_of_repaired {initializer : StaticInitializer data} {sites : List Site}
    {moved : List Instruction} {out : ByteArray} {relocation : Option Relocation}
    (small : data.size < 0x80000000)
    (repaired : Site.Repaired sites initializer.code out relocation moved) :
    initializer.CodeFits out relocation := by
  obtain ⟨form, rfl, layout, location, source, code⟩ := InitializerForm.exists_form initializer
  have filled : 0 < out.size := by
    have quarter := repaired.quarter
    have old := form.body.filled
    rw [code] at quarter
    omega
  have short := repaired.short
  refine ⟨by omega, BigEndian.fitsSize_of_lt (by omega), ?_, ?_, ?_, ?_⟩
  · rw [source]
    exact BigEndian.fitsCount_of_lt form.body.fewExceptions
  · have length := Form.length_placeAll WrittenAttribute.encode WrittenAttribute.place
      (form.itemStart + 6 + form.body.encodeFront.size + 2) form.body.attributes
    rw [source]
    exact BigEndian.fitsCount_of_lt (length.trans_lt form.body.fewAttributes)
  · intro found span name body payload same sliced done
    have grown := Relocation.size_attributeBody (repaired.bounded found same) done
    have within := (Access.slice_eq_ok.mp sliced).2.within
    exact BigEndian.fitsSize_of_lt (by omega)
  · intro replacement encoded
    rw [source] at encoded
    obtain ⟨body, item, rfl, named, _⟩ := CodeAttribute.encode_eq_ok small repaired.bounded filled
      repaired.short form.stands_body encoded
    exact ⟨item.body, by rw [WrittenAttribute.encode, named],
      BigEndian.fitsSize_of_lt item.fits⟩

/-- In a class of less than 2^31 bytes no number that a repair narrows loses its value: at every
point of the run the pool has room for its indices, and behind the run all sizes, counts, distances
and offsets fit where they are written. -/
theorem numbers_fit (small : data.size < 0x80000000) (initializer : StaticInitializer data)
    (unit : EnumUnit) :
    (∀ taken progress, taken <+: initializer.instructions →
      Progress.observeAll initializer.layout.pool initializer.code unit taken = .ok progress →
        progress.IndicesFit) ∧
    ∀ progress, Progress.observeAll initializer.layout.pool initializer.code unit
      initializer.instructions = .ok progress → initializer.NumbersFit unit progress := by
  have fits : initializer.layout.pool.count < 65536 := ClassLayout.count_of_parse initializer.parsed
  have short : initializer.code.size < 0x10000 := by
    obtain ⟨form, _, _, _, _, code⟩ := InitializerForm.exists_form initializer
    rw [code]
    exact form.body.short
  refine ⟨fun taken progress _ => Progress.indicesFit_of_observeAll fits, fun progress observed => ?_⟩
  have indices := Progress.indicesFit_of_observeAll fits observed
  obtain ⟨same, loads⟩ := Progress.sites_of_observeAll fits observed
  have tile : Site.Tile initializer.code 0 progress.sites.reverse :=
    Site.tile_iff.mpr (same ▸ Instruction.decodeAll_eq_ok.mp initializer.decoded)
  refine ⟨Site.narrowFits _, ?_, ?_, ?_, ?_⟩
  · intro placed length found limit
    rw [Site.place_eq] at found
    cases found
    exact Relocation.numbersFit_ofSites tile limit
  · intro out relocation repaired
    obtain ⟨moved, repaired⟩ := EnumUnit.repairCode_eq_ok tile short loads repaired
    exact codeFits_of_repaired small repaired
  · exact BigEndian.fitsCount_of_lt (Nat.lt_succ_of_le indices.pool.few)
  · exact splice_ne_poolOverflow indices.pool.few

/-- The class is repaired, so its run is not empty and its pool is spliced. -/
theorem numbers_fit_example :
    let data := exampleClass 14 [] 11
    data.size < 0x80000000 ∧
      (∃ repaired, exampleUnit.repair data = .ok repaired ∧ repaired.changed = 1) ∧
      ∃ initializer : StaticInitializer data,
        (∀ taken progress, taken <+: initializer.instructions →
          Progress.observeAll initializer.layout.pool initializer.code exampleUnit taken =
            .ok progress → progress.IndicesFit) ∧
        ∀ progress, Progress.observeAll initializer.layout.pool initializer.code exampleUnit
          initializer.instructions = .ok progress →
            initializer.NumbersFit exampleUnit progress := by
  intro data
  have small : data.size < 0x80000000 := by
    rw [size_exampleClass]
    decide
  have classified : EnumUnit.classify data = .ok (some exampleUnit) := by decide +kernel
  obtain ⟨initializer⟩ := EnumUnit.exists_initializer classified repair_exampleClass
  exact ⟨small, ⟨_, repair_exampleClass, rfl⟩, initializer, numbers_fit small initializer exampleUnit⟩

end StaticInitializer

end EnumNames
