/-!
Paths as texts. Segments are divided by slashes; a path that starts with a slash is absolute.
-/

namespace EnumNames.Path

def isAbsolute (path : String) : Bool := path.startsWith '/'

def splitAtSlashes : List Char → List (List Char)
  | [] => [[]]
  | char :: rest =>
    if char = '/' then [] :: splitAtSlashes rest
    else
      match splitAtSlashes rest with
      | [] => [[char]]
      | first :: others => (char :: first) :: others

/-- There is always at least one segment, and segments may be empty. -/
def segments (path : String) : List String := (splitAtSlashes path.toList).map String.ofList

/-- An empty segment or a single dot leads nowhere. -/
def isIdle (segment : String) : Bool := segment == "" || segment == "."

/-- A relative path may start with a dot; every other idle segment is skipped. -/
def components (path : String) : List String :=
  match segments path with
  | [] => []
  | first :: rest =>
    let rest := rest.filter (!isIdle ·)
    if isAbsolute path then "/" :: rest
    else if first == "" then rest
    else first :: rest

/-- Two texts name the same path when their components agree. -/
def isSame (first second : String) : Bool := components first == components second

/-- The segments are in reverse order. The dot at the start of a relative path is no idle one. -/
def dropIdle (absolute : Bool) : List String → List String
  | [] => []
  | [segment] => if segment == "" || (absolute && segment == ".") then [] else [segment]
  | segment :: next :: rest =>
    if isIdle segment then dropIdle absolute (next :: rest) else segment :: next :: rest

/-- The last segment comes first. The empty segment in front of an absolute path is left out. -/
def body (path : String) : List String :=
  (if isAbsolute path then (segments path).drop 1 else segments path).reverse

def ofBody (absolute : Bool) (body : List String) : String :=
  let text := "/".intercalate body.reverse
  if absolute then "/" ++ text else text

/-- The parent of a path is its text without the last component. -/
def parent? (path : String) : Option String :=
  let absolute := isAbsolute path
  match dropIdle absolute (body path) with
  | [] => none
  | _ :: before => some (ofBody absolute (dropIdle absolute before))

def bodyAncestors (absolute : Bool) : List String → List String
  | [] => []
  | segment :: above =>
    let body := segment :: above
    if dropIdle absolute body = body then ofBody absolute body :: bodyAncestors absolute above
    else bodyAncestors absolute above

/-- These are the texts of the path and of all paths above it, except for the root and for the
empty path. -/
def ancestors (path : String) : List String := bodyAncestors (isAbsolute path) (body path)

/-- A path with a slash behind its last component can only name a directory. -/
def endsWithSlash (path : String) : Bool := path.endsWith '/'

end EnumNames.Path
