import EnumNames.Proofs.Bytes.FailsWithin

/-!
Operations that stay in range. A position outside the bytes and a difference below zero are faults
of their own kind; an operation in range never ends with such a fault, whatever it is given. A chain
of operations stays in range when each of them does on the results of those before it.
-/

namespace EnumNames

variable {α β : Type}

/-- This fault is a position outside the bytes or a difference below zero. -/
def ClassFault.isOverrun : ClassFault → Bool
  | .outOfRange _ _ => true
  | _ => false

def Failure.isOverrun : Failure → Bool
  | .malformedClass _ fault => fault.isOverrun
  | _ => false

/-- The operation succeeds or fails for another reason than an overrun. -/
def InRange (outcome : Except Failure α) : Prop :=
  ∀ failure, outcome = .error failure → failure.isOverrun = false

theorem inRange_ok (value : α) : InRange (.ok value : Except Failure α) := failsWithin_ok value

theorem inRange_error {failure : Failure} (other : failure.isOverrun = false) :
    InRange (.error failure : Except Failure α) := by
  intro found failed
  cases failed
  exact other

namespace InRange

theorem bind {first : Except Failure α} {second : α → Except Failure β} (head : InRange first)
    (tail : ∀ value, first = .ok value → InRange (second value)) : InRange (first >>= second) :=
  FailsWithin.bind head tail

theorem ite {condition : Prop} [Decidable condition] {first second : Except Failure α}
    (holds : condition → InRange first) (fails : ¬ condition → InRange second) :
    InRange (if condition then first else second) :=
  FailsWithin.ite holds fails

theorem mapM {operation : α → Except Failure β} {items : List α}
    (each : ∀ item ∈ items, InRange (operation item)) : InRange (items.mapM operation) :=
  FailsWithin.mapM each

theorem findM? {test : α → Except Failure Bool} {items : List α}
    (each : ∀ item ∈ items, InRange (test item)) : InRange (items.findM? test) := by
  induction items with
  | nil => exact inRange_ok none
  | cons item rest inductionHypothesis =>
    rw [List.forall_mem_cons] at each
    refine each.1.bind fun passes _ => ?_
    cases passes with
    | true => exact inRange_ok _
    | false => exact inductionHypothesis each.2

/-- The invariant holds of the state before every step. -/
theorem foldlM {step : β → α → Except Failure β} {items : List α} {motive : β → Prop} {start : β}
    (holds : motive start)
    (each : ∀ state, motive state → ∀ item ∈ items, InRange (step state item) ∧
      ∀ next, step state item = .ok next → motive next) :
    InRange (items.foldlM step start) := by
  induction items generalizing start with
  | nil => exact inRange_ok start
  | cons item rest inductionHypothesis =>
    obtain ⟨head, keeps⟩ := each start holds item List.mem_cons_self
    rw [List.foldlM_cons]
    exact head.bind fun next done => inductionHypothesis (keeps next done)
      fun state holds other member => each state holds other (List.mem_cons_of_mem _ member)

end InRange

namespace Access

variable {bytes : ByteArray} {index : Nat}

theorem inRange_u1 (inside : index < bytes.size) : InRange (u1 bytes index) := by
  rw [u1, dif_pos inside]
  exact inRange_ok _

theorem inRange_u2 (inside : index + 1 < bytes.size) : InRange (u2 bytes index) := by
  rw [u2, dif_pos inside]
  exact inRange_ok _

theorem inRange_slice {start stop : Nat} (ordered : start ≤ stop) (inside : stop ≤ bytes.size) :
    InRange (slice bytes ⟨start, stop⟩) := by
  rw [slice, if_pos ⟨ordered, inside⟩]
  exact inRange_ok _

end Access

namespace Reader

/-- The reader stays in range wherever its cursor stands. -/
def InRange (reader : Reader α) : Prop :=
  ∀ cursor failure next, reader cursor = .error failure next → failure.isOverrun = false

theorem inRange_pure (value : α) : (pure value : Reader α).InRange := failsWithin_pure value

theorem inRange_failAt (offset : Nat) {fault : ClassFault} (other : fault.isOverrun = false) :
    (failAt offset fault : Reader α).InRange :=
  failsWithin_failAt other

theorem inRange_fail {fault : ClassFault} (other : fault.isOverrun = false) :
    (fail fault : Reader α).InRange := by
  intro cursor failure next failed
  cases failed
  exact other

theorem inRange_throw {failure : Failure} (other : failure.isOverrun = false) :
    (throw failure : Reader α).InRange :=
  failsWithin_throw other

theorem inRange_position : position.InRange := failsWithin_position

theorem inRange_remaining : remaining.InRange := by
  intro cursor failure next failed
  cases failed

theorem inRange_skip (width : Nat) : (skip width).InRange :=
  failsWithin_skip (fun _ _ _ => rfl) width

theorem inRange_bytes (width : Nat) : (bytes width).InRange :=
  failsWithin_bytes (fun _ _ _ => rfl) width

theorem inRange_u1 : u1.InRange := failsWithin_u1 fun _ _ _ => rfl

theorem inRange_u2 : u2.InRange := failsWithin_u2 fun _ _ _ => rfl

theorem inRange_u4 : u4.InRange := failsWithin_u4 fun _ _ _ => rfl

theorem inRange_ofExcept {result : Except Failure α} (inRange : EnumNames.InRange result) :
    (ofExcept result).InRange :=
  failsWithin_ofExcept inRange

namespace InRange

theorem bind {first : Reader α} {second : α → Reader β} (head : first.InRange)
    (tail : ∀ value, first.Gives value → (second value).InRange) : (first >>= second).InRange :=
  FailsWithin.bind head tail

/-- What is read is only made into something else. -/
theorem made {reader : Reader α} (inRange : reader.InRange) (make : α → β) :
    (reader >>= fun value => pure (make value)).InRange :=
  FailsWithin.made inRange make

theorem ite {condition : Prop} [Decidable condition] {first second : Reader α}
    (holds : condition → first.InRange) (fails : ¬ condition → second.InRange) :
    (if condition then first else second).InRange :=
  FailsWithin.ite holds fails

theorem replicate {item : Reader α} (inRange : item.InRange) (count : Nat) :
    (replicate count item).InRange :=
  FailsWithin.replicate inRange count

theorem evaluate {reader : Reader α} (inRange : reader.InRange) (bytes : ByteArray) :
    EnumNames.InRange (reader.evaluate bytes) :=
  FailsWithin.evaluate inRange bytes

end InRange

end Reader

end EnumNames
