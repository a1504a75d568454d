/-
The parts that the text of a path is made of.  A path may end in one slash more;
going on from it by any text adds the names that the text is made of.
-/
import QuotaTree.Proofs.Tree.Address

namespace QuotaTree

namespace Path

variable {path : String} {names : List Name} {parts : List (List Char)}
  {chars first : List Char}

/-- A text is made of its pieces. -/
theorem eq_of_pieces (h : pieces chars = first :: parts) :
    chars = first ++ rooted parts := by
  induction chars generalizing first parts with
  | nil =>
    cases h
    rfl
  | cons char rest ih =>
    rw [pieces] at h
    split at h
    next hchar =>
      obtain ⟨rfl, rfl⟩ := List.cons.inj h
      obtain ⟨next, others, hrest⟩ :=
        List.exists_cons_of_ne_nil (pieces_ne_nil rest)
      rw [hrest, rooted_cons, hchar, ← ih hrest]
      rfl
    next =>
      split at h
      next hnil => exact absurd hnil (pieces_ne_nil rest)
      next next others hrest =>
        obtain ⟨rfl, rfl⟩ := List.cons.inj h
        rw [List.cons_append, ← ih hrest]

/-- One slash is dropped from the end, if there is one. -/
theorem eq_dropEndSlash (chars : List Char) :
    chars = dropEndSlash chars ∨ chars = dropEndSlash chars ++ ['/'] := by
  unfold dropEndSlash
  split
  next h =>
    right
    obtain ⟨front, hfront⟩ := List.getLast?_eq_some_iff.1 h
    rw [hfront, List.dropLast_concat]
  next => exact .inl rfl

/-- Parts without slashes are the first pieces of a text that goes on from them
after a slash. -/
theorem pieces_rooted_append (clean : ∀ part ∈ parts, '/' ∉ part)
    (chars : List Char) :
    pieces (rooted parts ++ '/' :: chars) = [] :: (parts ++ pieces chars) := by
  induction parts with
  | nil => exact pieces_slash chars
  | cons part rest ih =>
    have hpart := clean part List.mem_cons_self
    have hrest := ih fun other h => clean other (List.mem_cons_of_mem _ h)
    rw [rooted_cons, List.cons_append, pieces_slash, List.append_assoc]
    cases rest with
    | nil =>
      rw [rooted_nil, List.nil_append, pieces_append_slash hpart]
      rfl
    | cons next others =>
      rw [rooted_cons, List.cons_append, pieces_slash, List.cons.injEq] at hrest
      rw [rooted_cons, List.cons_append, pieces_append_slash hpart, hrest.2]
      rfl

/-- The slash that is dropped from the end stands in what was appended. -/
theorem dropEndSlash_append (first : List Char) (h : chars ≠ []) :
    dropEndSlash (first ++ chars) = first ++ dropEndSlash chars := by
  unfold dropEndSlash
  rw [List.getLast?_append_of_ne_nil _ h, List.dropLast_append_of_ne_nil h]
  split <;> rfl

theorem pieces_dropEndSlash (clean : ∀ part ∈ parts, '/' ∉ part)
    (chars : List Char) :
    pieces (dropEndSlash (rooted parts ++ '/' :: chars)) = [] ::
      (parts ++ if chars = [] then [] else pieces (dropEndSlash chars)) := by
  rw [dropEndSlash_append _ (List.cons_ne_nil _ _)]
  split
  next h =>
    have hslash : dropEndSlash ['/'] = [] := by decide
    rw [h, hslash, List.append_nil, List.append_nil, pieces_rooted clean]
  next h => rw [← List.singleton_append, dropEndSlash_append _ h,
    List.singleton_append, pieces_rooted_append clean]

/-- Parts that a path is made of: ordinary ones, with one slash more at its end
perhaps. -/
structure MadeOf (path : String) (parts : List (List Char)) : Prop where
  ordinary : ∀ part ∈ parts, isComponent part = true ∧ '/' ∉ part
  text : path.toList = rooted parts ∨ path.toList = rooted parts ++ ['/']
  absolute : path.toList.head? = some '/'

def namesOf (parts : List (List Char)) : List Name :=
  parts.map fun part => Name.ofText (String.ofList part)

theorem head_parts_ne
    (plain : (namesOf parts).head? ≠ some (Name.ofText reservedName)) :
    parts.head? ≠ some reservedName.toList := by
  intro h
  rw [namesOf, List.head?_map, h] at plain
  exact plain (by rw [Option.map_some, String.ofList_toList])

theorem exists_parts (h : components path = .ok names) :
    ∃ parts, MadeOf path parts ∧ names = namesOf parts := by
  unfold components at h
  split at h
  next first parts hpieces hhead =>
    split at h
    next hall =>
      cases h
      have hclean : ∀ part ∈ first :: parts, '/' ∉ part := fun part hpart =>
        slash_not_mem_of_mem_pieces (hpieces ▸ hpart)
      have htext := eq_of_pieces hpieces
      -- the text begins with a slash, so that nothing stands before it
      have hfirst : first = [] := by
        cases first with
        | nil => rfl
        | cons char others =>
          have hchar : char = '/' := by
            rcases eq_dropEndSlash path.toList with hpath | hpath <;>
              · rw [hpath, htext] at hhead
                exact Option.some.inj hhead
          exact absurd (hchar ▸ List.mem_cons_self)
            (hclean _ List.mem_cons_self)
      subst hfirst
      refine ⟨parts, ⟨fun part hpart => ⟨List.all_eq_true.1 hall part hpart,
        hclean part (List.mem_cons_of_mem _ hpart)⟩, ?_, hhead⟩, rfl⟩
      have hdrop := eq_dropEndSlash path.toList
      rwa [htext, List.nil_append] at hdrop
    next => cases h
  next => cases h

namespace MadeOf

variable (made : MadeOf path parts)

include made

theorem clean : ∀ part ∈ parts, '/' ∉ part :=
  fun part hpart => (made.ordinary part hpart).2

theorem full : ∀ part ∈ parts, part ≠ [] :=
  fun part hpart => isComponent_ne_nil (made.ordinary part hpart).1

theorem dropEndSlash_eq : dropEndSlash path.toList = rooted parts := by
  rcases made.text with htext | htext
  · rw [htext]
    exact dropEndSlash_rooted made.clean made.full
  · rw [htext, dropEndSlash, List.getLast?_concat, if_pos rfl,
      List.dropLast_concat]

theorem dropEndSlashes_eq : dropEndSlashes path.toList = rooted parts := by
  have hrooted := dropEndSlashes_rooted made.clean made.full
  rcases made.text with htext | htext
  · rw [htext, hrooted]
  · rw [htext]
    exact (congrArg List.reverse (by simp)).trans hrooted

theorem components_eq : components path = .ok (namesOf parts) := by
  have hall : parts.all isComponent = true :=
    List.all_eq_true.2 fun part hpart => (made.ordinary part hpart).1
  rw [components, made.dropEndSlash_eq, pieces_rooted made.clean, made.absolute]
  simp only [hall, if_true]
  rfl

theorem filter_pieces_eq : (pieces path.toList).filter (· ≠ []) = parts := by
  rcases made.text with htext | htext
  · exact filter_pieces made.clean made.full htext
  · have hrooted : path.toList = rooted (parts ++ [[]]) := by
      rw [htext, rooted_append]
      rfl
    have hclean : ∀ part ∈ parts ++ [[]], '/' ∉ part := by
      intro part hpart
      rcases List.mem_append.1 hpart with hpart | hpart
      · exact made.clean part hpart
      · rw [List.mem_singleton.1 hpart]
        exact List.not_mem_nil
    rw [hrooted, pieces_rooted hclean, List.filter_cons_of_neg (by simp),
      List.filter_append, List.filter_eq_self.2
        fun part hpart => decide_eq_true (made.full part hpart)]
    simp

theorem resolveReserved_eq {view : View}
    (plain : (namesOf parts).head? ≠ some (Name.ofText reservedName)) :
    resolveReserved view path = .ok path :=
  resolveReserved_of_head (made.filter_pieces_eq ▸ head_parts_ne plain)

section Child

variable (text : String)

theorem toList_child :
    (child path text).toList = rooted parts ++ '/' :: text.toList := by
  rw [child, String.toList_append, String.toList_append, String.toList_ofList,
    made.dropEndSlashes_eq, List.append_assoc]
  rfl

/-- Going on from a path adds the names that the text is made of, if it is made
of names. -/
theorem components_child :
    components (child path text) = .ok names ↔
      ∃ more, components ("/" ++ text) = .ok more ∧
        names = namesOf parts ++ more := by
  have hall : parts.all isComponent = true :=
    List.all_eq_true.2 fun part hpart => (made.ordinary part hpart).1
  have hhead : (rooted parts ++ '/' :: text.toList).head? = some '/' := by
    cases parts <;> rfl
  have htext : ("/" ++ text).toList = rooted [] ++ '/' :: text.toList := by
    rw [String.toList_append]
    rfl
  rw [components, components, made.toList_child, htext,
    pieces_dropEndSlash made.clean, pieces_dropEndSlash (by simp), hhead]
  generalize (if text.toList = [] then []
    else pieces (dropEndSlash text.toList)) = rest
  simp only [rooted_nil, List.nil_append, List.head?_cons, List.all_append,
    hall, Bool.true_and, List.map_append]
  split <;> simp [namesOf, eq_comm]

/-- Going on from a path that is not the root's leads no further than it to the
reserved name. -/
theorem resolveReserved_child {view : View} (further : parts ≠ [])
    (plain : (namesOf parts).head? ≠ some (Name.ofText reservedName)) :
    resolveReserved view (child path text) = .ok (child path text) := by
  refine resolveReserved_of_head ?_
  rw [made.toList_child, pieces_rooted_append made.clean,
    List.filter_cons_of_neg (by simp), List.filter_append,
    List.filter_eq_self.2 fun part hpart => decide_eq_true
      (made.full part hpart), List.head?_append_of_ne_nil _ further]
  exact head_parts_ne plain

end Child

end MadeOf

end Path

end QuotaTree
