import EnumNames.Failure
import Mathlib.Data.List.Forall2

/-!
Operations that may fail. A chain of operations succeeds when each of them does, and an operation
on every item of a list succeeds when it succeeds on each item.
-/

namespace EnumNames

variable {α β : Type}

theorem bind_eq_ok {ε : Type} {first : Except ε α} {second : α → Except ε β} {value : β} :
    (first >>= second) = .ok value ↔ ∃ middle, first = .ok middle ∧ second middle = .ok value := by
  cases first with
  | ok middle =>
    constructor
    · intro done
      exact ⟨middle, rfl, done⟩
    · rintro ⟨_, same, done⟩
      cases same
      exact done
  | error failure =>
    constructor
    · intro done
      cases done
    · rintro ⟨_, same, _⟩
      cases same

theorem bind_eq_error {first : Except Failure α} {second : α → Except Failure β}
    {failure : Failure} : (first >>= second) = .error failure ↔ first = .error failure ∨
      ∃ middle, first = .ok middle ∧ second middle = .error failure := by
  cases first with
  | ok middle =>
    constructor
    · intro failed
      exact .inr ⟨middle, rfl, failed⟩
    · rintro (same | ⟨_, same, failed⟩)
      · cases same
      · cases same
        exact failed
  | error other =>
    constructor
    · intro failed
      cases failed
      exact .inl rfl
    · rintro (same | ⟨_, same, _⟩)
      · cases same
        rfl
      · cases same

@[simp] theorem ok_bind (value : α) (next : α → Except Failure β) :
    ((Except.ok value : Except Failure α) >>= next) = next value := rfl

@[simp] theorem pure_eq_ok (value : α) : (pure value : Except Failure α) = .ok value := rfl

theorem mapM_cons_eq_ok {operation : α → Except Failure β} {item : α} {rest : List α}
    {values : List β} : (item :: rest).mapM operation = .ok values ↔
      ∃ value others, operation item = .ok value ∧ rest.mapM operation = .ok others ∧
        values = value :: others := by
  rw [List.mapM_cons, bind_eq_ok]
  constructor
  · rintro ⟨value, head, rest⟩
    obtain ⟨others, tail, same⟩ := bind_eq_ok.mp rest
    exact ⟨value, others, head, tail, (Except.ok.inj same).symm⟩
  · rintro ⟨value, others, head, tail, rfl⟩
    exact ⟨value, head, bind_eq_ok.mpr ⟨others, tail, rfl⟩⟩

/-- An operation on every item succeeds when it succeeds on each item. -/
theorem mapM_eq_ok {operation : α → Except Failure β} {items : List α} {values : List β} :
    items.mapM operation = .ok values ↔
      List.Forall₂ (fun item value => operation item = .ok value) items values := by
  induction items generalizing values with
  | nil =>
    rw [List.mapM_nil, List.forall₂_nil_left_iff]
    constructor
    · intro same
      cases same
      rfl
    · rintro rfl
      rfl
  | cons item rest inductionHypothesis =>
    rw [mapM_cons_eq_ok]
    constructor
    · rintro ⟨value, others, head, tail, rfl⟩
      exact .cons head (inductionHypothesis.mp tail)
    · rintro (_ | ⟨head, tail⟩)
      exact ⟨_, _, head, inductionHypothesis.mpr tail, rfl⟩

/-- An operation that succeeds on each item succeeds on all of them. -/
theorem mapM_of_forall {ε : Type} {operation : α → Except ε β} {value : α → β} {items : List α}
    (each : ∀ item ∈ items, operation item = .ok (value item)) :
    items.mapM operation = .ok (items.map value) := by
  induction items with
  | nil => rfl
  | cons item rest inductionHypothesis =>
    obtain ⟨first, others⟩ := List.forall_mem_cons.mp each
    rw [List.mapM_cons, first, inductionHypothesis others]
    rfl

/-- An operation that can succeed on each item can succeed on all of them. -/
theorem exists_mapM {operation : α → Except Failure β} {items : List α}
    (each : ∀ item ∈ items, ∃ value, operation item = .ok value) :
    ∃ values, items.mapM operation = .ok values := by
  induction items with
  | nil => exact ⟨[], rfl⟩
  | cons item rest inductionHypothesis =>
    obtain ⟨⟨value, head⟩, tail⟩ := List.forall_mem_cons.mp each
    obtain ⟨values, others⟩ := inductionHypothesis tail
    exact ⟨value :: values, mapM_cons_eq_ok.mpr ⟨value, values, head, others, rfl⟩⟩

theorem forall₂_imp_of_mem {first second : α → β → Prop} {items : List α} {values : List β}
    (all : List.Forall₂ first items values)
    (each : ∀ item ∈ items, ∀ value, first item value → second item value) :
    List.Forall₂ second items values :=
  ((List.forall₂_and_left items values).mpr ⟨fun _ member => member, all⟩).imp
    fun item value both => each item both.1 value both.2

theorem forall₂_mem {related : α → β → Prop} {items : List α} {values : List β}
    (all : List.Forall₂ related items values) :
    List.Forall₂ (fun item value => item ∈ items ∧ value ∈ values ∧ related item value) items
      values := by
  refine List.forall₂_iff_zip.mpr ⟨all.length_eq, fun inside => ?_⟩
  obtain ⟨left, right⟩ := List.of_mem_zip inside
  exact ⟨left, right, List.forall₂_zip all inside⟩

theorem forall₂_zipIdx {related : α → β → Prop} {items : List α} {values : List β}
    (all : List.Forall₂ related items values) :
    List.Forall₂ (fun item value => related item value.1 ∧ values[value.2]? = some value.1) items
      values.zipIdx := by
  rw [← List.zipIdx_map_fst 0 values, List.forall₂_map_right_iff] at all
  exact (forall₂_mem all).imp fun item value ⟨_, inside, holds⟩ =>
    ⟨holds, List.mk_mem_zipIdx_iff_getElem?.mp inside⟩

theorem forall_mem_of_forall₂ {related : α → β → Prop} {motive : β → Prop} {items : List α}
    {values : List β} (all : List.Forall₂ related items values)
    (each : ∀ item value, related item value → motive value) : ∀ value ∈ values, motive value := by
  induction all with
  | nil => simp
  | cons head tail inductionHypothesis =>
    exact List.forall_mem_cons.mpr ⟨each _ _ head, inductionHypothesis⟩

theorem countP_eq_of_forall₂ {first : α → Bool} {second : β → Bool} {items : List α}
    {values : List β} (all : List.Forall₂ (fun item value => second value = first item) items values) :
    values.countP second = items.countP first := by
  induction all with
  | nil => rfl
  | cons head tail inductionHypothesis => rw [List.countP_cons, List.countP_cons, inductionHypothesis, head]

/-- When each result of one operation is explained by a result of another one, so are all. -/
theorem mapM_explained {κ : Type} {first : κ → Except Failure β} {second : κ → Except Failure α}
    {γ : Type} {make : γ → β} {related : α → γ → Prop}
    (each : ∀ key value, first key = .ok value →
      ∃ before after, second key = .ok before ∧ value = make after ∧ related before after)
    {keys : List κ} {values : List β} (done : keys.mapM first = .ok values) :
    ∃ befores afters, keys.mapM second = .ok befores ∧ values = afters.map make ∧
      List.Forall₂ related befores afters := by
  rw [mapM_eq_ok] at done
  induction done with
  | nil => exact ⟨[], [], rfl, rfl, .nil⟩
  | cons head tail inductionHypothesis =>
    obtain ⟨befores, afters, read, rfl, all⟩ := inductionHypothesis
    obtain ⟨before, after, headRead, rfl, holds⟩ := each _ _ head
    exact ⟨before :: befores, after :: afters,
      mapM_cons_eq_ok.mpr ⟨before, befores, headRead, read, rfl⟩, rfl, .cons holds all⟩

/-- A search finds the first item that passes, and the test succeeds on all items before it. -/
theorem findM?_eq_some {test : α → Except Failure Bool} {items : List α} {item : α} :
    items.findM? test = .ok (some item) ↔ ∃ left right, items = left ++ item :: right ∧
      test item = .ok true ∧ ∀ other ∈ left, test other = .ok false := by
  induction items with
  | nil =>
    constructor
    · intro found
      cases found
    · rintro ⟨left, right, same, _⟩
      simp at same
  | cons head rest inductionHypothesis =>
    rw [List.findM?, bind_eq_ok]
    constructor
    · rintro ⟨passes, tested, found⟩
      cases passes with
      | true =>
        cases found
        exact ⟨[], rest, rfl, tested, by simp⟩
      | false =>
        obtain ⟨left, right, rfl, passed, others⟩ := inductionHypothesis.mp found
        refine ⟨head :: left, right, rfl, passed, ?_⟩
        rintro other (_ | member)
        · exact tested
        · exact others other ‹_›
    · rintro ⟨left, right, same, passed, others⟩
      cases left with
      | nil =>
        cases same
        exact ⟨true, passed, rfl⟩
      | cons first left =>
        cases same
        exact ⟨false, others _ List.mem_cons_self, inductionHypothesis.mpr
          ⟨left, right, rfl, passed, fun other member => others other (List.mem_cons_of_mem _ member)⟩⟩

end EnumNames
