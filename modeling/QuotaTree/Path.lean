/-
Paths as text.  An absolute path starts with a slash and may end in one; between
slashes stand components, none of them empty, a single or a double dot.
-/
import QuotaTree.Error
import QuotaTree.Name

namespace QuotaTree.Path

/-- The pieces of a text between slashes: always at least one. -/
def pieces : List Char → List (List Char)
  | [] => [[]]
  | char :: rest =>
    if char = '/' then [] :: pieces rest
    else
      match pieces rest with
      | [] => [[char]]
      | first :: others => (char :: first) :: others

theorem pieces_ne_nil (chars : List Char) : pieces chars ≠ [] := by
  cases chars with
  | nil => simp [pieces]
  | cons char rest =>
    rw [pieces]
    split
    · simp
    · split <;> simp

theorem pieces_slash (rest : List Char) :
    pieces ('/' :: rest) = [] :: pieces rest := by
  simp [pieces]

/-- A piece followed by a slash is the first of the pieces. -/
theorem pieces_append_slash {piece : List Char} (clean : '/' ∉ piece)
    (rest : List Char) :
    pieces (piece ++ '/' :: rest) = piece :: pieces rest := by
  induction piece with
  | nil => exact pieces_slash rest
  | cons char piece ih =>
    have hchar : char ≠ '/' := fun h => clean (h ▸ List.mem_cons_self)
    have hpiece : '/' ∉ piece := fun h => clean (List.mem_cons_of_mem _ h)
    rw [List.cons_append, pieces, if_neg hchar, ih hpiece]

/-- A text without a slash is its only piece. -/
theorem pieces_of_clean {piece : List Char} (clean : '/' ∉ piece) :
    pieces piece = [piece] := by
  induction piece with
  | nil => rfl
  | cons char piece ih =>
    have hchar : char ≠ '/' := fun h => clean (h ▸ List.mem_cons_self)
    have hpiece : '/' ∉ piece := fun h => clean (List.mem_cons_of_mem _ h)
    rw [pieces, if_neg hchar, ih hpiece]

/-- No piece holds a slash. -/
theorem slash_not_mem_of_mem_pieces {chars piece : List Char}
    (h : piece ∈ pieces chars) : '/' ∉ piece := by
  induction chars generalizing piece with
  | nil => simp_all [pieces]
  | cons char rest ih =>
    rw [pieces] at h
    split at h
    · rcases List.mem_cons.1 h with rfl | h
      · simp
      · exact ih h
    · split at h
      · exact absurd ‹_› (pieces_ne_nil rest)
      · rename_i first others hpieces
        rcases List.mem_cons.1 h with rfl | h
        · have := ih (hpieces ▸ List.mem_cons_self)
          simp_all [eq_comm]
        · exact ih (hpieces ▸ List.mem_cons_of_mem _ h)

/-- A component that a path may have. -/
def isComponent (piece : List Char) : Bool :=
  piece != [] && piece != ['.'] && piece != ['.', '.']

/-- Drop one slash from the end. -/
def dropEndSlash (chars : List Char) : List Char :=
  if chars.getLast? = some '/' then chars.dropLast else chars

/-- Drop all slashes from the end. -/
def dropEndSlashes (chars : List Char) : List Char :=
  (chars.reverse.dropWhile (· == '/')).reverse

/-- The components of an absolute path, of which the root has none. -/
def components (path : String) : Except Error (List Name) :=
  match pieces (dropEndSlash path.toList), path.toList.head? with
  | _ :: parts, some '/' =>
    if parts.all isComponent then
      .ok (parts.map fun part => Name.ofText (String.ofList part))
    else .error (.invalidPath path)
  | _, _ => .error (.invalidPath path)

/-- A component below a path. -/
def child (parent component : String) : String :=
  String.ofList (dropEndSlashes parent.toList) ++ "/" ++ component

/-- The path of names below the root. -/
def ofNames : List Name → String
  | [] => "/"
  | names => String.join (names.map fun name => "/" ++ name.text)

/-- Names between slashes, without one in front. -/
def joinNames (names : List Name) : String :=
  String.intercalate "/" (names.map Name.text)

namespace PathExamples

example : components "/a//b" = .error (.invalidPath "/a//b") := by rfl
example : components "a" = .error (.invalidPath "a") := by rfl
example : components "/a/b/" = .ok [Name.ofText "a", Name.ofText "b"] := by rfl
example : components "/" = .ok [] := by rfl
example : child "/" "a" = "/a" := by decide +kernel
example : ofNames [Name.ofText "a", Name.ofText "b"] = "/a/b" := by
  decide +kernel

end PathExamples

end QuotaTree.Path
