import EnumNames.Proofs.ClassFile.InternedPool
import Mathlib

/-!
Interning a string appends as little as it can. A string that some entry resolves to is found at its
lowest index; otherwise a string entry is appended, over the lowest text that equals it, and a text
only when there is none. Whatever is interned, a lookup that has succeeded keeps its result.
-/

namespace EnumNames.ConstantPool

/-- One more constant, in the slots and in the bytes. -/
def push (pool : ConstantPool) (constant : Constant) : ConstantPool where
  slots := pool.slots.push (some constant)
  appended := pool.appended ++ constant.encode

/-- A value is interned at an index, and the pool becomes the last argument. Entries of a pool that
only the new text makes resolve to the value do not count. -/
inductive Interns (pool : ConstantPool) (value : String) (index : UInt16) :
    ConstantPool → Prop where
  | found (lowest : IsLeast {other | pool.stringValue other = .ok (some value)} index) :
      Interns pool value index pool
  | overText (text : UInt16) (missing : ∀ other, pool.stringValue other ≠ .ok (some value))
      (lowest : IsLeast {other | pool.utf8 other = .ok value} text)
      (last : index.toNat = pool.count) : Interns pool value index (pool.push (.string text))
  | overNewText (text : UInt16) (missing : ∀ other, pool.stringValue other ≠ .ok (some value))
      (noText : ∀ other, pool.utf8 other ≠ .ok value) (first : text.toNat = pool.count)
      (last : index.toNat = pool.count + 1) :
      Interns pool value index ((pool.push (.utf8 value)).push (.string text))

/-- The lookups that succeed in a pool have the same results in another one. -/
structure KeepsLookups (pool next : ConstantPool) : Prop where
  get : ∀ index constant, pool.get index = .ok constant → next.get index = .ok constant
  utf8 : ∀ index text, pool.utf8 index = .ok text → next.utf8 index = .ok text
  className : ∀ index name, pool.className index = .ok name → next.className index = .ok name
  stringValue : ∀ index value, pool.stringValue index = .ok value →
    next.stringValue index = .ok value
  memberRef : ∀ index member, pool.memberRef index = .ok member → next.memberRef index = .ok member

theorem Extends.keepsLookups {pool next : ConstantPool} (extension : next.Extends pool) :
    KeepsLookups pool next where
  get _ _ := extension.get
  utf8 _ _ := extension.utf8
  className _ _ := extension.className
  stringValue _ _ := extension.stringValue
  memberRef _ _ := extension.memberRef

theorem append_push {constant : Constant} {pool next : ConstantPool} {index : UInt16}
    (done : append constant pool = .ok index next) :
    index.toNat = pool.count ∧ next = pool.push constant := by
  unfold append at done
  split at done
  · rename_i room
    cases done
    exact ⟨BigEndian.toNat_ofNat_count (by omega), rfl⟩
  · cases done

/-- Each search that fails leaves one entry to append. -/
theorem interns_of_ok {pool after : ConstantPool} {value : String} {index : UInt16}
    (fits : pool.count < 65536) (done : intern value pool = .ok index after) :
    Interns pool value index after := by
  have strings := finds_findString? fits value
  have texts := finds_findText? fits value
  unfold intern at done
  split at done
  · rename_i same
    rw [same] at strings
    cases done
    exact .found strings
  · rename_i noString
    rw [noString] at strings
    obtain ⟨text, middle, textDone, done⟩ := Edit.bind_eq_ok.mp done
    obtain ⟨last, rfl⟩ := append_push done
    unfold findOrAppendText at textDone
    split at textDone
    · rename_i same
      rw [same] at texts
      cases textDone
      exact .overText text strings texts last
    · rename_i noText
      rw [noText] at texts
      simp only at textDone
      split at textDone
      · obtain ⟨first, rfl⟩ := append_push textDone
        -- The string stands behind the new text, which is the last entry so far.
        refine .overNewText text strings texts first ?_
        rw [last, count, push, Array.size_push]
        rfl
      · cases textDone

/-- A value that some entry resolves to is found, and the pool stays as it is. -/
theorem intern_of_resolved {pool : ConstantPool} {value : String} {index : UInt16}
    (fits : pool.count < 65536) (resolved : pool.stringValue index = .ok (some value)) :
    ∃ found, intern value pool = .ok found pool := by
  have strings := finds_findString? fits value
  cases search : pool.findString? value with
  | none =>
    rw [search] at strings
    exact absurd resolved (strings index)
  | some found =>
    refine ⟨found, ?_⟩
    rw [intern, search]

theorem count_of_read {cursor next : Cursor} {pool : ConstantPool}
    (parsed : read cursor = .ok pool next) : pool.count < 65536 := by
  obtain ⟨before, rest, rfl⟩ := Cursor.exists_between (read_inside parsed)
  obtain ⟨_, after, rfl, rfl, constants, rfl, fits, _⟩ := (takes_read _ _ _ _).mp parsed
  exact fits

/-- In a pool that was read and has grown by any interned strings, an interned value is found at its
index, which is the lowest one there was or that of the only entry that had to be appended behind
its text. No lookup loses its result, and after any further strings the value is found without
another entry. -/
theorem intern_minimal {cursor next : Cursor} {source : ConstantPool}
    (parsed : read cursor = .ok source next) (earlier : List String) (value : String) :
    let pool := source.internAll earlier
    KeepsLookups pool ((intern value).after pool) ∧
      ∀ index after, intern value pool = .ok index after →
        after.stringValue index = .ok (some value) ∧ Interns pool value index after ∧
          ∀ later : List String, ∃ found,
            intern value (after.internAll later) = .ok found (after.internAll later) := by
  intro pool
  obtain ⟨_, _, fits⟩ := internAll_appended earlier (count_of_read parsed)
  obtain ⟨_, grown, _⟩ := intern_after value fits
  refine ⟨grown.extension.keepsLookups, fun index after done => ?_⟩
  obtain ⟨_, _, room, resolved⟩ := intern_eq_ok fits done
  refine ⟨resolved, interns_of_ok fits done, fun later => ?_⟩
  obtain ⟨_, further, limit⟩ := internAll_appended later room
  exact intern_of_resolved limit (further.extension.stringValue resolved)

/-- The pool holds one string, of a text that does not exist. The interned value brings that text,
so the old string resolves to the value as well, and from then on it is the one that is found. -/
theorem intern_minimal_dangling :
    let cursor : Cursor := .start ⟨#[0, 2, 8, 0, 2]⟩
    let pool : ConstantPool := ⟨#[none, some (.string 2)], .empty⟩
    let after := (pool.push (.utf8 "A")).push (.string 2)
    read cursor = .ok pool { cursor with position := 5 } ∧ intern "A" pool = .ok 3 after ∧
      KeepsLookups pool ((intern "A").after pool) ∧ Interns pool "A" 3 after ∧
      after.stringValue 3 = .ok (some "A") ∧ intern "A" after = .ok 1 after ∧
      ∃ found, intern "A" (after.internAll ["B"]) = .ok found (after.internAll ["B"]) := by
  intro cursor pool after
  have parsed : read cursor = .ok pool { cursor with position := 5 } := by cbv
  have done : intern "A" (pool.internAll []) = .ok 3 after := by cbv
  obtain ⟨keeps, settled⟩ := intern_minimal parsed [] "A"
  obtain ⟨resolved, interns, again⟩ := settled 3 after done
  exact ⟨parsed, done, keeps, interns, resolved, by cbv, again ["B"]⟩

end EnumNames.ConstantPool
