import EnumNames.Proofs.ClassFile.MinimalInterning

/-!
Interning a string that does not fit. A failure leaves the pool as it was, except where there is room
for one more entry and two are needed: the text is appended before the string is refused.
-/

namespace EnumNames.ConstantPool

/-- The value needs a text and a string over it, and only the text has room. -/
structure LacksOne (pool : ConstantPool) (value : String) : Prop where
  last : pool.count = 65534
  noText : ∀ index, pool.utf8 index ≠ .ok value
  short : (ModifiedUtf8.encode value).size < 65536

/-- A value is refused with a failure, and the pool becomes the last argument. -/
inductive Refuses (pool : ConstantPool) (value : String) : Failure → ConstantPool → Prop where
  | tooLong (noText : ∀ index, pool.utf8 index ≠ .ok value)
      (long : 65536 ≤ (ModifiedUtf8.encode value).size) :
      Refuses pool value (.malformedClass 0 (.textTooLong (ModifiedUtf8.encode value).size)) pool
  | full (missing : ∀ index, pool.stringValue index ≠ .ok (some value)) (last : pool.count = 65535)
      (writable : (∃ index, pool.utf8 index = .ok value) ∨
        (ModifiedUtf8.encode value).size < 65536) :
      Refuses pool value (.malformedClass 0 .poolFull) pool
  | halfway (lacking : pool.LacksOne value) :
      Refuses pool value (.malformedClass 0 .poolFull) (pool.push (.utf8 value))

variable {pool next : ConstantPool} {value : String} {failure : Failure}

theorem append_eq (constant : Constant) (pool : ConstantPool) : append constant pool =
    if pool.count < 65535 then .ok (UInt16.ofNat pool.count) (pool.push constant)
    else .error (.malformedClass 0 .poolFull) pool := rfl

theorem count_push (pool : ConstantPool) (constant : Constant) :
    (pool.push constant).count = pool.count + 1 := Array.size_push _

theorem Edit.bind_of_ok {α β : Type} {first : Edit α} {second : α → Edit β} {item : α}
    (done : first pool = .ok item next) : (first >>= second) pool = second item next := by
  change EStateM.bind first second pool = _
  rw [EStateM.bind, done]

theorem Edit.bind_of_error {α β : Type} {first : Edit α} {second : α → Edit β}
    (failed : first pool = .error failure next) :
    (first >>= second) pool = .error failure next := by
  change EStateM.bind first second pool = _
  rw [EStateM.bind, failed]

/-- A string that resolves to a value refers to a text that equals it. -/
theorem stringValue_ne_of_noText (noText : ∀ index, pool.utf8 index ≠ .ok value) (index : UInt16) :
    pool.stringValue index ≠ .ok (some value) := by
  intro resolved
  obtain ⟨text, _, found⟩ := stringValue_eq_some.mp resolved
  exact noText text found

/-- A missing string goes over a present text, or over one that is appended first if it is short. -/
theorem intern_of_missing (fits : pool.count < 65536)
    (missing : ∀ index, pool.stringValue index ≠ .ok (some value)) :
    (∃ text, pool.utf8 text = .ok value ∧ intern value pool = append (.string text) pool) ∨
      (∀ index, pool.utf8 index ≠ .ok value) ∧
        ((ModifiedUtf8.encode value).size < 65536 → intern value pool =
          (append (.utf8 value) >>= fun text => append (.string text)) pool) ∧
        (65536 ≤ (ModifiedUtf8.encode value).size → intern value pool =
          .error (.malformedClass 0 (.textTooLong (ModifiedUtf8.encode value).size)) pool) := by
  have strings := finds_findString? fits value
  have texts := finds_findText? fits value
  have unfolded : intern value pool =
      (findOrAppendText value >>= fun text => append (.string text)) pool := by
    cases search : pool.findString? value with
    | none => rw [intern, search]
    | some index =>
      rw [search] at strings
      exact absurd strings.1 (missing index)
  cases search : pool.findText? value with
  | some text =>
    rw [search] at texts
    have found : findOrAppendText value pool = .ok text pool := by
      rw [findOrAppendText, search]
    exact .inl ⟨text, texts.1, unfolded.trans (Edit.bind_of_ok found)⟩
  | none =>
    rw [search] at texts
    refine .inr ⟨texts, fun short => ?_, fun long => ?_⟩
    · have appended : findOrAppendText value pool = append (.utf8 value) pool := by
        rw [findOrAppendText, search]
        exact if_pos short
      rw [unfolded]
      change EStateM.bind _ _ pool = EStateM.bind _ _ pool
      rw [EStateM.bind, EStateM.bind, appended]
    · have refused : findOrAppendText value pool =
          .error (.malformedClass 0 (.textTooLong (ModifiedUtf8.encode value).size)) pool := by
        rw [findOrAppendText, search]
        exact if_neg (Nat.not_lt.mpr long)
      exact unfolded.trans (Edit.bind_of_error refused)

theorem append_of_full (full : 65535 ≤ pool.count) (constant : Constant) :
    append constant pool = .error (.malformedClass 0 .poolFull) pool := by
  rw [append_eq, if_neg (Nat.not_lt.mpr full)]

theorem append_of_room (room : pool.count < 65535) (constant : Constant) :
    append constant pool = .ok (UInt16.ofNat pool.count) (pool.push constant) := by
  rw [append_eq, if_pos room]

/-- What is refused depends on the room that is left. -/
theorem refuses_of_error (fits : pool.count < 65536)
    (failed : intern value pool = .error failure next) : Refuses pool value failure next := by
  have missing (index : UInt16) : pool.stringValue index ≠ .ok (some value) := by
    intro resolved
    obtain ⟨found, done⟩ := intern_of_resolved fits resolved
    rw [done] at failed
    cases failed
  rcases intern_of_missing fits missing with ⟨text, found, same⟩ | ⟨noText, whenShort, whenLong⟩
  · rcases Nat.lt_or_ge pool.count 65535 with room | full
    · rw [same, append_of_room room] at failed
      cases failed
    · rw [same, append_of_full full] at failed
      cases failed
      exact .full missing (by omega) (.inl ⟨text, found⟩)
  rcases Nat.lt_or_ge (ModifiedUtf8.encode value).size 65536 with short | long
  · rw [whenShort short] at failed
    rcases Nat.lt_or_ge pool.count 65535 with room | full
    · rw [Edit.bind_of_ok (append_of_room room _)] at failed
      rcases Nat.lt_or_ge (pool.count + 1) 65535 with stillRoom | full
      · rw [append_of_room (by rwa [count_push])] at failed
        cases failed
      · rw [append_of_full (by rwa [count_push])] at failed
        cases failed
        exact .halfway ⟨by omega, noText, short⟩
    · rw [Edit.bind_of_error (append_of_full full _)] at failed
      cases failed
      exact .full missing (by omega) (.inr short)
  · rw [whenLong long] at failed
    cases failed
    exact .tooLong noText long

theorem error_of_refuses (fits : pool.count < 65536)
    (refused : Refuses pool value failure next) : intern value pool = .error failure next := by
  cases refused with
  | tooLong noText long =>
    rcases intern_of_missing fits (stringValue_ne_of_noText noText) with
      ⟨text, found, _⟩ | ⟨_, _, whenLong⟩
    · exact absurd found (noText text)
    · exact whenLong long
  | full missing last writable =>
    have full : 65535 ≤ pool.count := Nat.le_of_eq last.symm
    rcases intern_of_missing fits missing with ⟨text, _, same⟩ | ⟨noText, whenShort, _⟩
    · rw [same, append_of_full full]
    · rcases writable with ⟨index, found⟩ | short
      · exact absurd found (noText index)
      · rw [whenShort short, Edit.bind_of_error (append_of_full full _)]
  | halfway lacking =>
    obtain ⟨last, noText, short⟩ := lacking
    rcases intern_of_missing fits (stringValue_ne_of_noText noText) with
      ⟨text, found, _⟩ | ⟨_, whenShort, _⟩
    · exact absurd found (noText text)
    · rw [whenShort short, Edit.bind_of_ok (append_of_room (by omega) _)]
      exact append_of_full (by rw [count_push, last]) _

/-- In a pool that was read and has grown by any interned strings, a value is refused because it is
too long or because there is no room for it. The pool is then as it was, unless it lacks one entry:
there the text stays behind, and no lookup loses its result. -/
theorem intern_failure {cursor next : Cursor} {source : ConstantPool}
    (parsed : read cursor = .ok source next) (earlier : List String) (value : String) :
    let pool := source.internAll earlier
    pool.count ≤ 65535 ∧ ∀ failure after,
      (intern value pool = .error failure after ↔ Refuses pool value failure after) ∧
      (intern value pool = .error failure after →
        (¬ pool.LacksOne value → after = pool) ∧
        (pool.LacksOne value → after = pool.push (.utf8 value) ∧ KeepsLookups pool after)) := by
  intro pool
  obtain ⟨_, _, fits⟩ := internAll_appended earlier (count_of_read parsed)
  refine ⟨Nat.le_of_lt_succ fits, fun failure after =>
    ⟨⟨refuses_of_error fits, error_of_refuses fits⟩, fun failed => ⟨?_, ?_⟩⟩⟩
  · intro complete
    cases refuses_of_error fits failed with
    | tooLong => rfl
    | full => rfl
    | halfway lacking => exact absurd lacking complete
  · intro lacking
    cases (error_of_refuses fits (.halfway lacking)).symm.trans failed
    exact ⟨rfl, Extends.keepsLookups ⟨[some (.utf8 value)], Array.toList_push⟩⟩

/-- These references fill a pool up to its last entry but one. -/
def crowd : List WrittenConstant :=
  List.replicate 65533 ⟨.classRef 0, (Constant.classRef 0).encode, rfl⟩

def crowdBytes : ByteArray := BigEndian.encodeCount 65534 ++ WrittenConstant.encode crowd

theorem slots_crowd : WrittenConstant.slots crowd = List.replicate 65533 (some (.classRef 0)) := by
  rw [WrittenConstant.slots, crowd, List.flatMap_replicate]
  exact List.flatten_replicate_singleton

theorem count_crowd : (ofConstants crowd).count = 65534 := by
  rw [count_ofConstants, slots_crowd, List.length_replicate]

theorem read_crowd :
    read (.start crowdBytes) = .ok (ofConstants crowd) ⟨crowdBytes, crowdBytes.size⟩ := by
  rw [Cursor.start_eq_between]
  refine (takes_read _ _ _ _).mpr
    ⟨crowdBytes, .empty, ByteArray.append_empty.symm, ?_, _, rfl, ?_, ?_⟩
  · simp [Cursor.between]
  · rw [count_crowd]
    decide
  · rw [count_crowd]
    rfl

theorem lacksOne_crowd : (ofConstants crowd).LacksOne "A" where
  last := count_crowd
  noText := by
    intro index found
    have here := Array.mem_of_getElem? (get_eq_ok.mp (utf8_eq_ok.mp found))
    rw [ofConstants, slots_crowd, List.mem_toArray, List.mem_cons] at here
    rcases here with first | later
    · cases first
    · cases List.eq_of_mem_replicate later
  short := by decide

/-- The text of the value is appended to the crowded pool before its string is refused. -/
theorem intern_failure_crowded :
    let pool := ofConstants crowd
    let after := pool.push (.utf8 "A")
    read (.start crowdBytes) = .ok pool ⟨crowdBytes, crowdBytes.size⟩ ∧ pool.count ≤ 65535 ∧
      pool.LacksOne "A" ∧ Refuses pool "A" (.malformedClass 0 .poolFull) after ∧
      intern "A" pool = .error (.malformedClass 0 .poolFull) after ∧ KeepsLookups pool after := by
  intro pool after
  obtain ⟨room, fails⟩ := intern_failure read_crowd [] "A"
  have refused : Refuses pool "A" (.malformedClass 0 .poolFull) after := .halfway lacksOne_crowd
  obtain ⟨same, left⟩ := fails (.malformedClass 0 .poolFull) after
  have failed : intern "A" pool = .error (.malformedClass 0 .poolFull) after := same.mpr refused
  exact ⟨read_crowd, room, lacksOne_crowd, refused, failed, ((left failed).2 lacksOne_crowd).2⟩

/-- A refused value does not always leave the pool as it was. -/
theorem failed_intern_leaves_text :
    let pool := ofConstants crowd
    ∃ failure after, read (.start crowdBytes) = .ok pool ⟨crowdBytes, crowdBytes.size⟩ ∧
      intern "A" pool = .error failure after ∧ after.count ≠ pool.count ∧
      after.appended ≠ pool.appended ∧ after.utf8 65534 = .ok "A" ∧ pool.utf8 65534 ≠ .ok "A" := by
  intro pool
  have fits : pool.count < 65536 := by
    rw [count_crowd]
    decide
  refine ⟨_, _, read_crowd, error_of_refuses fits (.halfway lacksOne_crowd), ?_, ?_, ?_,
    lacksOne_crowd.noText 65534⟩
  · rw [count_push]
    exact Nat.succ_ne_self _
  · intro same
    have size := congrArg ByteArray.size same
    rw [push, ByteArray.size_append] at size
    have four : (Constant.utf8 "A").encode.size = 4 := by decide
    omega
  · rw [utf8_eq_ok, get_eq_ok, push]
    have last : (65534 : UInt16).toNat = pool.slots.size := count_crowd.symm
    rw [last]
    exact Array.getElem?_push_size

end EnumNames.ConstantPool
