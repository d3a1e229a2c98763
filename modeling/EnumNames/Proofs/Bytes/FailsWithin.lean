import EnumNames.Bytes.Access
import EnumNames.Proofs.Bytes.Form
import EnumNames.Proofs.Outcome

/-!
Operations that fail for known reasons only. A chain of operations does when each of them does on
the results of those before it, whatever the operations are given.
-/

namespace EnumNames

variable {α β : Type} {allowed : Failure → Prop}

/-- Whenever the operation fails, the failure is allowed. -/
def FailsWithin (allowed : Failure → Prop) (outcome : Except Failure α) : Prop :=
  ∀ failure, outcome = .error failure → allowed failure

theorem failsWithin_ok (value : α) : FailsWithin allowed (.ok value : Except Failure α) := by
  intro failure failed
  cases failed

theorem failsWithin_error {failure : Failure} (holds : allowed failure) :
    FailsWithin allowed (.error failure : Except Failure α) := by
  intro found failed
  cases failed
  exact holds

namespace FailsWithin

theorem bind {first : Except Failure α} {second : α → Except Failure β}
    (head : FailsWithin allowed first)
    (tail : ∀ value, first = .ok value → FailsWithin allowed (second value)) :
    FailsWithin allowed (first >>= second) := by
  intro failure failed
  rcases bind_eq_error.mp failed with failed | ⟨value, done, failed⟩
  · exact head failure failed
  · exact tail value done failure failed

theorem ite {condition : Prop} [Decidable condition] {first second : Except Failure α}
    (holds : condition → FailsWithin allowed first)
    (fails : ¬ condition → FailsWithin allowed second) :
    FailsWithin allowed (if condition then first else second) := by
  split
  · exact holds ‹_›
  · exact fails ‹_›

theorem mapM {operation : α → Except Failure β} {items : List α}
    (each : ∀ item ∈ items, FailsWithin allowed (operation item)) :
    FailsWithin allowed (items.mapM operation) := by
  induction items with
  | nil => exact failsWithin_ok []
  | cons item rest inductionHypothesis =>
    rw [List.forall_mem_cons] at each
    rw [List.mapM_cons]
    exact each.1.bind fun value _ =>
      (inductionHypothesis each.2).bind fun others _ => failsWithin_ok _

end FailsWithin

namespace Reader

/-- Whenever the reader fails, wherever its cursor stands, the failure is allowed. -/
def FailsWithin (allowed : Failure → Prop) (reader : Reader α) : Prop :=
  ∀ cursor failure next, reader cursor = .error failure next → allowed failure

/-- Some cursor makes the reader give the value. -/
def Gives (reader : Reader α) (value : α) : Prop :=
  ∃ cursor next, reader cursor = .ok value next

theorem failsWithin_pure (value : α) : (pure value : Reader α).FailsWithin allowed := by
  intro cursor failure next failed
  cases failed

theorem failsWithin_throw {failure : Failure} (holds : allowed failure) :
    (throw failure : Reader α).FailsWithin allowed := by
  intro cursor found next failed
  cases failed
  exact holds

theorem failsWithin_failAt {offset : Nat} {fault : ClassFault}
    (holds : allowed (.malformedClass offset fault)) :
    (failAt offset fault : Reader α).FailsWithin allowed := by
  intro cursor failure next failed
  cases failed
  exact holds

theorem failsWithin_position : position.FailsWithin allowed := by
  intro cursor failure next failed
  cases failed

theorem failsWithin_ofExcept {result : Except Failure α}
    (within : EnumNames.FailsWithin allowed result) : (ofExcept result).FailsWithin allowed := by
  intro cursor failure next failed
  cases result with
  | ok value => cases failed
  | error other =>
    cases failed
    exact within _ rfl

section Reads

variable (holds : ∀ offset width room, allowed (.malformedClass offset (.needBytes width room)))

include holds

/-- A read that wants more bytes than there are says so. -/
theorem failsWithin_of_short {reader : Reader α} (width : Nat)
    (reads : ∀ cursor, (∃ value next, reader cursor = .ok value next) ∨
      reader cursor = short width cursor) : reader.FailsWithin allowed := by
  intro cursor failure next failed
  rcases reads cursor with ⟨value, after, done⟩ | missing
  · rw [done] at failed
    cases failed
  · rw [missing] at failed
    cases failed
    exact holds _ _ _

theorem failsWithin_skip (width : Nat) : (skip width).FailsWithin allowed := by
  refine failsWithin_of_short holds width fun cursor => ?_
  unfold skip
  split
  · exact .inl ⟨_, _, rfl⟩
  · exact .inr rfl

theorem failsWithin_bytes (width : Nat) : (bytes width).FailsWithin allowed := by
  refine failsWithin_of_short holds width fun cursor => ?_
  unfold bytes
  split
  · exact .inl ⟨_, _, rfl⟩
  · exact .inr rfl

theorem failsWithin_u1 : u1.FailsWithin allowed := by
  refine failsWithin_of_short holds 1 fun cursor => ?_
  unfold u1
  split
  · exact .inl ⟨_, _, rfl⟩
  · exact .inr rfl

theorem failsWithin_u2 : u2.FailsWithin allowed := by
  refine failsWithin_of_short holds 2 fun cursor => ?_
  unfold u2
  split
  · exact .inl ⟨_, _, rfl⟩
  · exact .inr rfl

theorem failsWithin_u4 : u4.FailsWithin allowed := by
  refine failsWithin_of_short holds 4 fun cursor => ?_
  unfold u4
  split
  · exact .inl ⟨_, _, rfl⟩
  · exact .inr rfl

end Reads

theorem gives_ofExcept {result : Except Failure α} {value : α} :
    (ofExcept result).Gives value → result = .ok value := by
  rintro ⟨cursor, next, done⟩
  cases result with
  | ok found =>
    cases done
    rfl
  | error failure => cases done

theorem gives_pure {value found : α} : (pure value : Reader α).Gives found → found = value := by
  rintro ⟨cursor, next, done⟩
  cases done
  rfl

theorem gives_bind {first : Reader α} {second : α → Reader β} {value : β} :
    (first >>= second).Gives value →
      ∃ middle, first.Gives middle ∧ (second middle).Gives value := by
  rintro ⟨cursor, next, done⟩
  obtain ⟨middle, between, opened, closed⟩ := bind_eq_ok.mp done
  exact ⟨middle, ⟨cursor, between, opened⟩, ⟨between, next, closed⟩⟩

theorem length_of_gives_replicate {item : Reader α} {count : Nat} {values : List α}
    (gives : (replicate count item).Gives values) : values.length = count := by
  suffices onto : ∀ done, (repeatOnto item count done).Gives values →
      values.length = done.length + count by
    simpa using onto [] gives
  clear gives
  induction count with
  | zero =>
    intro done gives
    rw [gives_pure gives, List.length_reverse, Nat.add_zero]
  | succ count inductionHypothesis =>
    intro done gives
    rw [repeatOnto_succ] at gives
    obtain ⟨value, _, gives⟩ := gives_bind gives
    rw [inductionHypothesis (value :: done) gives, List.length_cons]
    omega

namespace FailsWithin

theorem bind {first : Reader α} {second : α → Reader β} (head : first.FailsWithin allowed)
    (tail : ∀ value, first.Gives value → (second value).FailsWithin allowed) :
    (first >>= second).FailsWithin allowed := by
  intro cursor failure next failed
  rw [bind_apply] at failed
  split at failed
  · rename_i value between done
    exact tail value ⟨cursor, between, done⟩ _ _ _ failed
  · rename_i other between headFailed
    cases failed
    exact head _ _ _ headFailed

/-- What is read is only made into something else. -/
theorem made {reader : Reader α} (within : reader.FailsWithin allowed) (make : α → β) :
    (reader >>= fun value => pure (make value)).FailsWithin allowed :=
  within.bind fun value _ => failsWithin_pure (make value)

theorem ite {condition : Prop} [Decidable condition] {first second : Reader α}
    (holds : condition → first.FailsWithin allowed)
    (fails : ¬ condition → second.FailsWithin allowed) :
    (if condition then first else second).FailsWithin allowed := by
  split
  · exact holds ‹_›
  · exact fails ‹_›

theorem replicate {item : Reader α} (within : item.FailsWithin allowed) (count : Nat) :
    (replicate count item).FailsWithin allowed := by
  suffices onto : ∀ done, (repeatOnto item count done).FailsWithin allowed from onto []
  induction count with
  | zero => exact fun done => failsWithin_pure done.reverse
  | succ count inductionHypothesis =>
    intro done
    rw [repeatOnto_succ]
    exact within.bind fun value _ => inductionHypothesis (value :: done)

theorem evaluate {reader : Reader α} (within : reader.FailsWithin allowed) (bytes : ByteArray) :
    EnumNames.FailsWithin allowed (reader.evaluate bytes) := by
  intro failure failed
  unfold Reader.evaluate at failed
  split at failed
  · cases failed
  · rename_i other next readerFailed
    cases failed
    exact within _ _ _ readerFailed

end FailsWithin

end Reader

end EnumNames
