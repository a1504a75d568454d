/-
Names that a path can name, and the paths that are made of them: taking such a
path apart gives the names back.
-/
import QuotaTree.Chain.Resolve
import QuotaTree.Proofs.Outcome

namespace QuotaTree

/-- A name that is a component of some path. -/
structure Name.Proper (name : Name) : Prop where
  ofText : Name.ofText name.text = name
  component : Path.isComponent name.text.toList = true
  clean : '/' ∉ name.text.toList

theorem Name.proper_ofText {text : String}
    (component : Path.isComponent text.toList = true)
    (clean : '/' ∉ text.toList) : (Name.ofText text).Proper :=
  ⟨by rw [text_ofText], by rwa [text_ofText], by rwa [text_ofText]⟩

namespace Path

variable {path : String} {names : List Name} {parts : List (List Char)}

def rooted (parts : List (List Char)) : List Char :=
  parts.flatMap ('/' :: ·)

@[simp] theorem rooted_nil : rooted [] = [] := rfl

theorem rooted_cons (part : List Char) (rest : List (List Char)) :
    rooted (part :: rest) = '/' :: (part ++ rooted rest) :=
  rfl

@[simp] theorem rooted_append (left right : List (List Char)) :
    rooted (left ++ right) = rooted left ++ rooted right :=
  List.flatMap_append

/-- Parts without slashes are found again as the pieces after the first
slash. -/
theorem pieces_rooted (clean : ∀ part ∈ parts, '/' ∉ part) :
    pieces (rooted parts) = [] :: parts := by
  induction parts with
  | nil => rfl
  | cons part rest ih =>
    have hpart := clean part List.mem_cons_self
    have hrest := ih fun other h => clean other (List.mem_cons_of_mem _ h)
    rw [rooted_cons, pieces_slash]
    cases rest with
    | nil => rw [rooted_nil, List.append_nil, pieces_of_clean hpart]
    | cons next others =>
      rw [rooted_cons, pieces_slash, List.cons.injEq] at hrest
      rw [rooted_cons, pieces_append_slash hpart, hrest.2]

theorem isComponent_ne_nil {part : List Char} (h : isComponent part = true) :
    part ≠ [] := by
  rintro rfl
  cases h

theorem proper_of_components (h : components path = .ok names) {name : Name}
    (hname : name ∈ names) : name.Proper := by
  unfold components at h
  split at h
  next parts hpieces _ =>
    split at h
    next hall =>
      cases h
      obtain ⟨part, hpart, rfl⟩ := List.mem_map.1 hname
      refine Name.proper_ofText ?_ ?_
      · rw [String.toList_ofList]
        exact List.all_eq_true.1 hall part hpart
      · rw [String.toList_ofList]
        exact slash_not_mem_of_mem_pieces
          (hpieces ▸ List.mem_cons_of_mem _ hpart)
    next => cases h
  next => cases h

end Path

end QuotaTree
