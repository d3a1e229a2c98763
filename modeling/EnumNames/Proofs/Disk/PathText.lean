import EnumNames.Proofs.Disk.Canonical

/-!
Paths and the texts above them. Main statements: a path goes on behind everything that is above it, and
the first text above its parent is the parent itself.
-/

namespace EnumNames.Path

variable {absolute : Bool} {path parent text : String} {above body segments : List String}

theorem splitAtSlashes_eq_splitOn (chars : List Char) : splitAtSlashes chars = chars.splitOn '/' := by
  induction chars with
  | nil => rfl
  | cons char rest inductionHypothesis =>
    rw [splitAtSlashes, inductionHypothesis, List.splitOn_cons_eq_if_modifyHead]
    by_cases slash : char = '/'
    · rw [if_pos slash, if_pos (beq_iff_eq.mpr slash)]
    · rw [if_neg slash, if_neg (by simpa using slash)]
      cases split : rest.splitOn '/' with
      | nil => exact absurd split (List.splitOn_ne_nil _ _)
      | cons first others => rfl

/-- Segments that are divided by slashes are found again. -/
theorem segments_intercalate (noSlash : ∀ segment ∈ segments, '/' ∉ segment.toList)
    (filled : segments ≠ []) : Path.segments ("/".intercalate segments) = segments := by
  have split : (['/'].intercalate (segments.map String.toList)).splitOn '/' =
      segments.map String.toList := by
    apply List.splitOn_intercalate '/'
    · intro chars member
      obtain ⟨segment, inside, rfl⟩ := List.mem_map.mp member
      exact noSlash segment inside
    · simpa using filled
  rw [Path.segments, splitAtSlashes_eq_splitOn, String.toList_intercalate,
    show "/".toList = ['/'] from rfl, split, List.map_map]
  simp [Function.comp_def]

theorem segments_slash (text : String) : Path.segments ("/" ++ text) = "" :: Path.segments text := by
  rw [Path.segments, String.toList_append, show "/".toList = ['/'] from rfl, List.singleton_append,
    splitAtSlashes, if_pos rfl]
  rfl

theorem isAbsolute_iff : isAbsolute path = true ↔ ∃ text, path = "/" ++ text :=
  String.startsWith_char_iff_exists_append

/-- An absolute path starts with an empty segment, which its body does without. -/
theorem segments_eq_body (path : String) :
    Path.segments path = (if isAbsolute path then [""] else []) ++ (Path.body path).reverse := by
  unfold Path.body
  rw [List.reverse_reverse]
  split
  · rename_i isAbsolute
    obtain ⟨text, rfl⟩ := isAbsolute_iff.mp isAbsolute
    rw [segments_slash]
    rfl
  · rfl

/-- The body of some path: without slashes, and a relative path starts with a name. -/
structure IsBody (absolute : Bool) (body : List String) : Prop where
  noSlash : ∀ segment ∈ body, '/' ∉ segment.toList
  starts : absolute = false → body.getLast? ≠ some ""

theorem IsBody.suffix (isBody : IsBody absolute body) (suffix : above <:+ body) :
    IsBody absolute above where
  noSlash segment member := isBody.noSlash segment (suffix.mem member)
  starts relative := by
    obtain ⟨front, rfl⟩ := suffix
    have starts := isBody.starts relative
    cases above with
    | nil => simp
    | cons first rest => rwa [List.getLast?_append_of_ne_nil _ (List.cons_ne_nil _ _)] at starts

theorem isBody_body (filled : path ≠ "") : IsBody (isAbsolute path) (Path.body path) where
  noSlash segment member := by
    have inside : segment ∈ Path.segments path := by
      rw [segments_eq_body]
      exact List.mem_append_right _ (List.mem_reverse.mpr member)
    obtain ⟨chars, there, rfl⟩ := List.mem_map.mp inside
    rw [String.toList_ofList]
    exact slash_notMem_splitAtSlashes _ chars there
  starts relative := by
    have first : (Path.body path).getLast? = (Path.segments path).head? := by
      rw [segments_eq_body, relative, ← List.head?_reverse]
      rfl
    rw [first, Path.segments]
    cases chars : path.toList with
    | nil => exact absurd (String.toList_eq_nil_iff.mp chars) filled
    | cons char rest =>
      have noSlash : char ≠ '/' := by
        rintro rfl
        rw [isAbsolute, String.startsWith_char_eq_head?, chars] at relative
        cases relative
      rw [splitAtSlashes, if_neg noSlash]
      split <;> simp

theorem ofBody_slash (body : List String) : ofBody true body = "/" ++ ofBody false body := rfl

/-- The segments of a text with this body. -/
theorem segments_ofBody (isBody : IsBody absolute body) (filled : body ≠ []) :
    Path.segments (ofBody absolute body) = (if absolute then [""] else []) ++ body.reverse := by
  have relative : Path.segments (ofBody false body) = body.reverse := by
    apply segments_intercalate
    · intro segment member
      exact isBody.noSlash segment (List.mem_reverse.mp member)
    · simpa using filled
  cases absolute with
  | false => exact relative
  | true => rw [ofBody_slash, segments_slash, relative]; rfl

theorem isAbsolute_ofBody (isBody : IsBody absolute body) :
    isAbsolute (ofBody absolute body) = absolute := by
  cases absolute with
  | true => exact isAbsolute_iff.mpr ⟨_, rfl⟩
  | false =>
    rw [Bool.eq_false_iff]
    intro starts
    obtain ⟨text, same⟩ := isAbsolute_iff.mp starts
    by_cases filled : body = []
    · subst filled
      simp [ofBody] at same
    · have split := segments_ofBody isBody filled
      rw [same, segments_slash] at split
      have first : body.reverse.head? = some "" := (congrArg List.head? split).symm
      rw [List.head?_reverse] at first
      exact isBody.starts rfl first

theorem body_ofBody (isBody : IsBody absolute body) (filled : body ≠ []) :
    Path.body (ofBody absolute body) = body := by
  have split := segments_ofBody isBody filled
  rw [segments_eq_body, isAbsolute_ofBody isBody] at split
  exact List.reverse_injective (List.append_cancel_left split)

/-- An empty segment is no name. -/
theorem names_eq_body (path : String) :
    FileTree.names path = (Path.body path).reverse.filter (· ≠ "") := by
  rw [FileTree.names, segments_eq_body, List.filter_append]
  cases isAbsolute path <;> rfl

theorem names_ofBody (isBody : IsBody absolute body) :
    FileTree.names (ofBody absolute body) = body.reverse.filter (· ≠ "") := by
  by_cases filled : body = []
  · subst filled
    cases absolute <;> rfl
  · rw [names_eq_body, body_ofBody isBody filled]

theorem dropIdle_suffix (absolute : Bool) (body : List String) : dropIdle absolute body <:+ body := by
  fun_induction dropIdle absolute body with
  | case1 => exact List.suffix_rfl
  | case2 => exact List.nil_suffix
  | case3 => exact List.suffix_rfl
  | case4 segment next rest idle inductionHypothesis =>
    exact inductionHypothesis.trans (List.suffix_cons _ _)
  | case5 => exact List.suffix_rfl

theorem dropIdle_dropIdle (absolute : Bool) (body : List String) :
    dropIdle absolute (dropIdle absolute body) = dropIdle absolute body := by
  fun_induction dropIdle absolute body with
  | case1 => rfl
  | case2 => rfl
  | case3 segment kept => rw [dropIdle, if_neg kept]
  | case4 segment next rest idle inductionHypothesis => exact inductionHypothesis
  | case5 segment next rest kept => rw [dropIdle, if_neg kept]

/-- Only a single segment may be idle. -/
theorem isIdle_of_dropIdle {name : String} {before : List String}
    (dropped : dropIdle absolute body = name :: before) (filled : before ≠ []) :
    isIdle name = false := by
  fun_induction dropIdle absolute body with
  | case1 => cases dropped
  | case2 => cases dropped
  | case3 =>
    cases dropped
    exact absurd rfl filled
  | case4 segment next rest idle inductionHypothesis => exact inductionHypothesis dropped
  | case5 segment next rest kept =>
    cases dropped
    exact Bool.eq_false_iff.mpr kept

theorem exists_suffix_of_mem (member : text ∈ bodyAncestors absolute body) :
    ∃ above, above <:+ body ∧ text = ofBody absolute above := by
  induction body with
  | nil => cases member
  | cons segment rest inductionHypothesis =>
    have later (inside : text ∈ bodyAncestors absolute rest) :
        ∃ above, above <:+ segment :: rest ∧ text = ofBody absolute above := by
      obtain ⟨above, suffix, same⟩ := inductionHypothesis inside
      exact ⟨above, suffix.trans (List.suffix_cons _ _), same⟩
    rw [bodyAncestors] at member
    split at member
    · rcases List.mem_cons.mp member with same | inside
      · exact ⟨_, List.suffix_rfl, same⟩
      · exact later inside
    · exact later member

/-- The body of a parent is the body of the path without its last name and the idle segments around. -/
theorem exists_body_of_parent (isParent : parent? path = some parent) :
    path ≠ "" ∧ ∃ idle name between body, Path.body path = idle ++ name :: (between ++ body) ∧
      parent = ofBody (isAbsolute path) body ∧ IsBody (isAbsolute path) body ∧
      dropIdle (isAbsolute path) body = body ∧ (body ≠ [] → isIdle name = false) := by
  have filled : path ≠ "" := by
    rintro rfl
    have none : parent? "" = none := by decide
    cases none.symm.trans isParent
  refine ⟨filled, ?_⟩
  unfold parent? at isParent
  dsimp only at isParent
  split at isParent
  · cases isParent
  · rename_i name before dropped
    cases isParent
    obtain ⟨idle, split⟩ := dropIdle_suffix (isAbsolute path) (Path.body path)
    obtain ⟨between, beforeSplit⟩ := dropIdle_suffix (isAbsolute path) before
    have whole : Path.body path =
        idle ++ name :: (between ++ dropIdle (isAbsolute path) before) := by
      rw [beforeSplit, ← dropped, split]
    have suffix : dropIdle (isAbsolute path) before <:+ Path.body path := by
      refine ⟨idle ++ name :: between, ?_⟩
      rw [whole, List.append_assoc, List.cons_append]
    refine ⟨idle, name, between, _, whole, rfl, (isBody_body filled).suffix suffix,
      dropIdle_dropIdle _ before, fun some => isIdle_of_dropIdle dropped ?_⟩
    rintro rfl
    exact some rfl

/-- The path goes on behind the text above it by the names in the rest. -/
structure IsAbove (text : String) (rest : List String) (path : String) : Prop where
  isAbsolute : isAbsolute text = isAbsolute path
  names : FileTree.names path = FileTree.names text ++ rest

/-- Behind a part of its body a path goes on by the names in front of it. -/
theorem isAbove_of_append {front : List String} (filled : path ≠ "")
    (split : Path.body path = front ++ above) :
    IsAbove (ofBody (isAbsolute path) above) (front.reverse.filter (· ≠ "")) path := by
  have isBody := (isBody_body filled).suffix (split ▸ List.suffix_append front above)
  constructor
  · exact isAbsolute_ofBody isBody
  · rw [names_ofBody isBody, names_eq_body, split, List.reverse_append, List.filter_append]

theorem isAbove_ofBody {front : List String} (isBody : IsBody absolute (front ++ above)) :
    IsAbove (ofBody absolute above) (front.reverse.filter (· ≠ ""))
      (ofBody absolute (front ++ above)) := by
  have isBodyAbove := isBody.suffix (List.suffix_append front above)
  constructor
  · rw [isAbsolute_ofBody isBodyAbove, isAbsolute_ofBody isBody]
  · rw [names_ofBody isBodyAbove, names_ofBody isBody, List.reverse_append, List.filter_append]

theorem ancestors_ofBody (isBody : IsBody absolute body) :
    ancestors (ofBody absolute body) = bodyAncestors absolute body := by
  by_cases filled : body = []
  · subst filled
    cases absolute <;> decide
  · rw [ancestors, isAbsolute_ofBody isBody, body_ofBody isBody filled]

/-- A path goes on behind everything above its parent, at least by its own name. -/
theorem isAbove_of_mem_ancestors (isParent : parent? path = some parent)
    (member : text ∈ ancestors parent) :
    (∃ rest, IsAbove text rest parent) ∧
      ∃ rest, IsAbove text rest path ∧ ∃ name ∈ rest, name ≠ "." := by
  obtain ⟨filled, idle, name, between, body, whole, rfl, isBody, _, kept⟩ :=
    exists_body_of_parent isParent
  rw [ancestors_ofBody isBody] at member
  obtain ⟨above, ⟨front, rfl⟩, rfl⟩ := exists_suffix_of_mem member
  constructor
  · exact ⟨_, isAbove_ofBody isBody⟩
  · have named : isIdle name = false := by
      apply kept
      intro empty
      rw [empty] at member
      cases member
    rw [isIdle, Bool.or_eq_false_iff, beq_eq_false_iff_ne, beq_eq_false_iff_ne] at named
    have split : Path.body path = (idle ++ name :: (between ++ front)) ++ above := by
      rw [whole, List.append_assoc, List.cons_append, List.append_assoc]
    refine ⟨_, isAbove_of_append filled split, name, ?_, named.2⟩
    simp [named.1]

/-- What is above a parent begins with the parent itself, unless that is the root or has no text. -/
theorem ancestors_parent (isParent : parent? path = some parent) (named : parent ≠ "")
    (notRoot : parent ≠ "/") : ∃ above, ancestors parent = parent :: above := by
  obtain ⟨_, _, _, _, body, _, rfl, isBody, again, _⟩ := exists_body_of_parent isParent
  rw [ancestors_ofBody isBody]
  cases body with
  | nil =>
    cases absolute : isAbsolute path with
    | true =>
      rw [absolute] at notRoot
      exact absurd rfl notRoot
    | false =>
      rw [absolute] at named
      exact absurd rfl named
  | cons segment rest =>
    rw [bodyAncestors]
    exact ⟨_, if_pos again⟩

end EnumNames.Path
