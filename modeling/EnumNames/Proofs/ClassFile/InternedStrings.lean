import EnumNames.Proofs.ClassFile.MinimalInterning

/-!
Interning names whose texts are in the pool already. Only strings are appended, one for each name
that no string of the pool resolves to, and each of them is over a text of the pool as it was before.
-/

namespace EnumNames.ConstantPool

/-- The names are interned one after the other, and each of them finds its place. -/
inductive Interned : ConstantPool → List String → ConstantPool → Prop where
  | none (pool : ConstantPool) : Interned pool [] pool
  | next {pool middle last : ConstantPool} {name : String} {names : List String} {index : UInt16}
      (done : intern name pool = .ok index middle) (rest : Interned middle names last) :
      Interned pool (name :: names) last

theorem Interned.eq_of_nil {pool last : ConstantPool} (interned : Interned pool [] last) :
    last = pool := by
  cases interned
  rfl

/-- Some string of the pool resolves to the name. -/
def Resolves (pool : ConstantPool) (name : String) : Prop :=
  ∃ index, pool.stringValue index = .ok (some name)

/-- The text is the first one of the pool that equals the name. -/
def FirstText (pool : ConstantPool) (name : String) (text : UInt16) : Prop :=
  IsLeast {index | pool.utf8 index = .ok name} text

theorem push_extends (pool : ConstantPool) (constant : Constant) :
    (pool.push constant).Extends pool := ⟨[some constant], Array.toList_push⟩

/-- These are the bytes of strings over some texts. -/
def encodeStrings (texts : List UInt16) : ByteArray :=
  Relocation.concat (texts.map fun text => ⟨#[8]⟩ ++ BigEndian.encode16 text)

theorem size_encodeStrings (texts : List UInt16) : (encodeStrings texts).size = 3 * texts.length := by
  induction texts with
  | nil => rfl
  | cons text rest inductionHypothesis =>
    rw [encodeStrings, List.map_cons, Relocation.concat_cons, ByteArray.size_append,
      ← encodeStrings, inductionHypothesis, ByteArray.size_append, BigEndian.size_encode16]
    simp only [size_mk, List.length_cons, List.length_nil]
    omega

/-- A pool is a source pool with strings behind it, one for each fresh name. -/
structure WithStrings (source pool : ConstantPool) (fresh : List String)
    (texts : List UInt16) : Prop where
  slots : pool.slots.toList = source.slots.toList ++ texts.map fun text => some (.string text)
  appended : pool.appended = source.appended ++ encodeStrings texts
  first : List.Forall₂ source.FirstText fresh texts
  nodup : fresh.Nodup
  unresolved : ∀ name ∈ fresh, ¬ source.Resolves name
  resolved : ∀ name ∈ fresh, pool.Resolves name

namespace WithStrings

variable {source pool next : ConstantPool} {fresh : List String} {texts : List UInt16}
  {name : String}

theorem refl (source : ConstantPool) : WithStrings source source [] [] :=
  ⟨(List.append_nil _).symm, ByteArray.append_empty.symm, .nil, .nil, by simp, by simp⟩

theorem extension (grown : WithStrings source pool fresh texts) : pool.Extends source :=
  ⟨_, grown.slots⟩

/-- An entry of the grown pool is one of the source or one of the strings. -/
theorem get (grown : WithStrings source pool fresh texts) {index : UInt16} {constant : Constant}
    (found : pool.get index = .ok constant) :
    source.get index = .ok constant ∨ ∃ text ∈ texts, constant = .string text := by
  rw [get_eq_ok, ← Array.getElem?_toList, grown.slots] at found
  rcases Nat.lt_or_ge index.toNat source.slots.toList.length with inside | behind
  · rw [List.getElem?_append_left inside, Array.getElem?_toList] at found
    exact .inl (get_eq_ok.mpr found)
  · rw [List.getElem?_append_right behind] at found
    obtain ⟨text, member, same⟩ := List.mem_map.mp (List.mem_of_getElem? found)
    exact .inr ⟨text, member, (Option.some.inj same).symm⟩

/-- No string is a text. -/
theorem utf8_iff (grown : WithStrings source pool fresh texts) {index : UInt16} {text : String} :
    pool.utf8 index = .ok text ↔ source.utf8 index = .ok text := by
  refine ⟨fun read => ?_, grown.extension.utf8⟩
  rcases grown.get (utf8_eq_ok.mp read) with found | ⟨_, _, impossible⟩
  · exact utf8_eq_ok.mpr found
  · cases impossible

theorem firstText_eq (grown : WithStrings source pool fresh texts) :
    pool.FirstText = source.FirstText := by
  funext name text
  unfold FirstText
  simp only [grown.utf8_iff]

/-- A string of the source that dangles there dangles in the grown pool as well. -/
theorem resolves_iff (grown : WithStrings source pool fresh texts) :
    pool.Resolves name ↔ source.Resolves name ∨ name ∈ fresh := by
  have named : ∀ text ∈ texts, ∃ other ∈ fresh, source.utf8 text = .ok other :=
    forall_mem_of_forall₂ (forall₂_mem grown.first)
      fun other _ ⟨member, _, first⟩ => ⟨other, member, first.1⟩
  constructor
  · rintro ⟨index, resolved⟩
    obtain ⟨text, found, read⟩ := stringValue_eq_some.mp resolved
    rw [grown.utf8_iff] at read
    rcases grown.get found with found | ⟨_, member, same⟩
    · exact .inl ⟨index, stringValue_eq_some.mpr ⟨text, found, read⟩⟩
    · cases same
      obtain ⟨other, otherMember, otherRead⟩ := named text member
      cases otherRead.symm.trans read
      exact .inr otherMember
  · rintro (⟨index, resolved⟩ | member)
    · exact ⟨index, grown.extension.stringValue resolved⟩
    · exact grown.resolved name member

/-- One more string follows, over the first text of a name that nothing resolved to so far. -/
theorem push {text : UInt16} (grown : WithStrings source pool fresh texts)
    (first : source.FirstText name text) (missing : ¬ pool.Resolves name)
    (found : (pool.push (.string text)).Resolves name) :
    WithStrings source (pool.push (.string text)) (fresh ++ [name]) (texts ++ [text]) where
  slots := by
    rw [ConstantPool.push, Array.toList_push, grown.slots, List.map_append, List.append_assoc]
    rfl
  appended := by
    have one : encodeStrings (texts ++ [text]) =
        encodeStrings texts ++ (Constant.string text).encode := by
      rw [encodeStrings, List.map_append, Relocation.concat_append, List.map_singleton,
        Relocation.concat_cons, Relocation.concat_nil, ByteArray.append_empty]
      rfl
    rw [ConstantPool.push, grown.appended, one, ByteArray.append_assoc]
  first := List.rel_append grown.first (.cons first .nil)
  nodup := by
    refine List.nodup_append.mpr ⟨grown.nodup, List.nodup_singleton _, fun other member _ single => ?_⟩
    rintro rfl
    rw [List.mem_singleton.mp single] at member
    exact missing (grown.resolved name member)
  unresolved := by
    rw [List.forall_mem_append, List.forall_mem_singleton]
    exact ⟨grown.unresolved, fun resolves => missing (grown.resolves_iff.mpr (.inl resolves))⟩
  resolved := by
    rw [List.forall_mem_append, List.forall_mem_singleton]
    refine ⟨fun other member => ?_, found⟩
    obtain ⟨index, resolved⟩ := grown.resolved other member
    exact ⟨index, (pool.push_extends _).stringValue resolved⟩

/-- A name with a text in the source adds at most one string, and no text. -/
theorem intern {index : UInt16} (grown : WithStrings source pool fresh texts)
    (fits : pool.count < 65536) (present : ∃ text, source.utf8 text = .ok name)
    (done : ConstantPool.intern name pool = .ok index next) :
    ∃ more others, next.count < 65536 ∧ WithStrings source next (fresh ++ more) (texts ++ others) ∧
      more.Sublist [name] ∧
      ∀ other, other ∈ fresh ++ more ↔ other ∈ fresh ∨ other = name ∧ ¬ source.Resolves name := by
  obtain ⟨_, _, room, resolved⟩ := intern_eq_ok fits done
  cases interns_of_ok fits done with
  | found lowest =>
    refine ⟨[], [], fits, by simpa using grown, List.nil_sublist _, fun other => ?_⟩
    rw [List.append_nil, iff_self_or]
    rintro ⟨rfl, missing⟩
    exact (grown.resolves_iff.mp ⟨_, lowest.1⟩).resolve_left missing
  | overText text missing lowest last =>
    have unresolved : ¬ pool.Resolves name := fun ⟨other, found⟩ => missing other found
    have first : source.FirstText name text := by
      rw [← grown.firstText_eq]
      exact lowest
    refine ⟨[name], [text], room, grown.push first unresolved ⟨_, resolved⟩,
      .refl _, fun other => ?_⟩
    have away : ¬ source.Resolves name := fun found => unresolved (grown.resolves_iff.mpr (.inl found))
    simp [away]
  | overNewText text missing noText first last =>
    obtain ⟨text, read⟩ := present
    exact absurd (grown.extension.utf8 read) (noText text)

end WithStrings

/-- Names with texts in the source are interned by appending strings, one for each of them that
nothing in the source resolves to, in the order in which they come first. -/
theorem Interned.withStrings {source pool last : ConstantPool} {names fresh : List String}
    {texts : List UInt16} (interned : Interned pool names last)
    (grown : WithStrings source pool fresh texts) (fits : pool.count < 65536)
    (present : ∀ name ∈ names, ∃ text, source.utf8 text = .ok name) :
    ∃ more others, WithStrings source last (fresh ++ more) (texts ++ others) ∧
      more.Sublist names ∧
      ∀ name, name ∈ fresh ++ more ↔ name ∈ fresh ∨ name ∈ names ∧ ¬ source.Resolves name := by
  induction interned generalizing fresh texts with
  | none => exact ⟨[], [], by simpa using grown, .refl _, by simp⟩
  | @next pool middle last name names index done rest inductionHypothesis =>
    obtain ⟨head, tail⟩ := List.forall_mem_cons.mp present
    obtain ⟨one, oneText, room, grown, oneSub, oneNeeded⟩ := grown.intern fits head done
    obtain ⟨more, others, grown, sub, needed⟩ := inductionHypothesis grown room tail
    refine ⟨one ++ more, oneText ++ others, ?_, oneSub.append sub, fun other => ?_⟩
    · rwa [← List.append_assoc, ← List.append_assoc]
    · rw [← List.append_assoc, needed, oneNeeded, List.mem_cons]
      constructor
      · rintro ((old | ⟨rfl, missing⟩) | ⟨member, missing⟩)
        · exact .inl old
        · exact .inr ⟨.inl rfl, missing⟩
        · exact .inr ⟨.inr member, missing⟩
      · rintro (old | ⟨rfl | member, missing⟩)
        · exact .inl (.inl old)
        · exact .inl (.inr ⟨rfl, missing⟩)
        · exact .inr ⟨member, missing⟩

end EnumNames.ConstantPool
