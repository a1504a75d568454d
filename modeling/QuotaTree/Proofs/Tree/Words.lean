/-
The words of a path, which are its pieces without the empty ones.  They alone
tell whether a path goes by the number of an inode, and going on from a path by
a name adds one word to them.
-/
import QuotaTree.Proofs.Tree.Home
import QuotaTree.Proofs.Tree.Moving

namespace QuotaTree

namespace Path

variable {chars piece : List Char} {parts : List (List Char)}
  {path text : String}

def words (chars : List Char) : List (List Char) :=
  (pieces chars).filter (· ≠ [])

/-- The pieces on both sides of a slash are pieces of the whole. -/
theorem pieces_append (left right : List Char) :
    pieces (left ++ '/' :: right) = pieces left ++ pieces right := by
  induction left with
  | nil => exact pieces_slash right
  | cons char left ih =>
    obtain ⟨first, others, hpieces⟩ :=
      List.exists_cons_of_ne_nil (pieces_ne_nil left)
    rw [List.cons_append, pieces, pieces, ih, hpieces]
    split <;> rfl

theorem words_append (left right : List Char) :
    words (left ++ '/' :: right) = words left ++ words right := by
  rw [words, pieces_append, List.filter_append]
  rfl

theorem words_of_clean (clean : '/' ∉ piece) (full : piece ≠ []) :
    words piece = [piece] := by
  simp [words, pieces_of_clean clean, full]

theorem clean_of_mem_words (h : piece ∈ words chars) :
    '/' ∉ piece ∧ piece ≠ [] := by
  obtain ⟨hpiece, hfull⟩ := List.mem_filter.1 h
  exact ⟨slash_not_mem_of_mem_pieces hpiece, of_decide_eq_true hfull⟩

theorem dropEndSlashes_concat (chars : List Char) (char : Char) :
    dropEndSlashes (chars ++ [char]) =
      if char = '/' then dropEndSlashes chars else chars ++ [char] := by
  rw [dropEndSlashes, List.reverse_concat, List.dropWhile_cons]
  by_cases h : char = '/'
  · rw [if_pos h, if_pos (beq_iff_eq.2 h)]
    rfl
  · rw [if_neg h, if_neg (mt beq_iff_eq.1 h), List.reverse_cons,
      List.reverse_reverse]

/-- Slashes at the end make no words. -/
theorem words_dropEndSlashes (chars : List Char) :
    words (dropEndSlashes chars) = words chars := by
  induction chars using List.reverseRecOn with
  | nil => rfl
  | append_singleton chars char ih =>
    rw [dropEndSlashes_concat]
    split
    next h =>
      have hslash := words_append chars []
      rw [show words [] = [] from rfl, List.append_nil] at hslash
      rw [ih, h, hslash]
    next => rfl

theorem toList_child (path text : String) :
    (child path text).toList =
      dropEndSlashes path.toList ++ '/' :: text.toList := by
  rw [child, String.toList_append, String.toList_append, String.toList_ofList,
    List.append_assoc]
  rfl

/-- Going on from a path by a name adds a word. -/
theorem words_child (clean : '/' ∉ text.toList) (full : text.toList ≠ []) :
    words (child path text).toList = words path.toList ++ [text.toList] := by
  rw [toList_child, words_append, words_dropEndSlashes,
    words_of_clean clean full]

theorem toList_intercalate_rooted (h : parts ≠ []) :
    '/' :: (String.intercalate "/" (parts.map String.ofList)).toList =
      rooted parts := by
  have hparts : (parts.map String.ofList).map String.toList = parts := by
    rw [List.map_map]
    exact List.map_id'' (fun _ => String.toList_ofList) parts
  rw [String.toList_intercalate, hparts, ← intercalate_eq_rooted h]
  rfl

theorem toList_child_intercalate (base : String) (h : parts ≠ []) :
    (child base (String.intercalate "/" (parts.map String.ofList))).toList =
      dropEndSlashes base.toList ++ rooted parts := by
  rw [toList_child, toList_intercalate_rooted h]

/-- To go on by parts and then by a name is to go on by all of them. -/
theorem child_child (base : String)
    (proper : ∀ part ∈ parts, '/' ∉ part ∧ part ≠ []) (h : parts ≠ []) :
    child (child base (String.intercalate "/" (parts.map String.ofList))) text =
      child base (String.intercalate "/"
        ((parts ++ [text.toList]).map String.ofList)) := by
  obtain ⟨front, char, hrooted, hchar⟩ :=
    exists_last_rooted (fun part hpart => (proper part hpart).1)
      (fun part hpart => (proper part hpart).2) h
  have hend : dropEndSlashes (dropEndSlashes base.toList ++ rooted parts) =
      dropEndSlashes base.toList ++ rooted parts := by
    rw [hrooted, ← List.append_assoc, dropEndSlashes_concat, if_neg hchar]
  rw [← String.toList_inj, toList_child, toList_child_intercalate base h,
    toList_child_intercalate base (by simp), hend, rooted_append,
    List.append_assoc]
  simp [rooted_cons]

/-- A path goes by a number, with what follows it. -/
def Numbers (path : String) (number : List Char) (rest : List (List Char)) :
    Prop :=
  words path.toList = reservedName.toList :: inodesName.toList :: number :: rest

namespace Numbers

variable {number : List Char} {rest : List (List Char)}
  (numbers : Numbers path number rest)

include numbers

theorem proper (mem : piece ∈ rest) : '/' ∉ piece ∧ piece ≠ [] := by
  have hmem : piece ∈ words path.toList := by
    rw [numbers]
    simp [mem]
  exact clean_of_mem_words hmem

theorem resolveReserved_eq {view : View} :
    resolveReserved view path = ofReserved view path number rest := by
  rw [Numbers, words] at numbers
  rw [resolveReserved, numbers]
  exact if_pos ⟨rfl, rfl⟩

/-- Going on by a name leaves the number. -/
theorem child (clean : '/' ∉ text.toList) (full : text.toList ≠ []) :
    Numbers (child path text) number (rest ++ [text.toList]) := by
  rw [Numbers, words_child clean full, numbers]
  rfl

end Numbers

/-- A path goes by number if its first two words say so. -/
theorem isReserved_iff :
    isReserved path = true ↔ ∃ number rest, Numbers path number rest := by
  unfold isReserved Numbers
  rw [words]
  split
  next hwords =>
    rw [hwords, Bool.and_eq_true, beq_iff_eq, beq_iff_eq]
    constructor
    · rintro ⟨rfl, rfl⟩
      exact ⟨_, _, rfl⟩
    · rintro ⟨number, rest, heq⟩
      simp only [List.cons.injEq] at heq
      exact ⟨heq.1, heq.2.1⟩
  next hother =>
    constructor
    · intro h
      cases h
    · rintro ⟨number, rest, heq⟩
      exact absurd heq (hother _ _ _ _)

/-- A path names the parent of an inode that it numbers if its four words say
so. -/
theorem addressedParent?_eq_some {id : InodeId} :
    addressedParent? path = some id ↔
      ∃ number, Numbers path number [dotDot] ∧
        InodeId.parse (String.ofList number) = .ok id := by
  unfold addressedParent? Numbers
  rw [words]
  split
  next first second number last hwords =>
    rw [hwords]
    simp only [List.cons.injEq, and_true, Option.ite_none_right_eq_some]
    constructor
    · rintro ⟨⟨hfirst, hsecond, hlast⟩, hparse⟩
      refine ⟨number, ⟨hfirst, hsecond, rfl, hlast⟩, ?_⟩
      cases h : InodeId.parse (String.ofList number) with
      | error => simp [h, Except.toOption] at hparse
      | ok found => simpa [h, Except.toOption] using hparse
    · rintro ⟨_, ⟨hfirst, hsecond, rfl, hlast⟩, hparse⟩
      exact ⟨⟨hfirst, hsecond, hlast⟩, by rw [hparse]; rfl⟩
  next hother =>
    constructor
    · intro h
      cases h
    · rintro ⟨number, hwords, _⟩
      exact absurd hwords (hother _ _ _ _)

/-- What goes on by a name does not end in a double dot. -/
theorem addressedParent?_child (component : isComponent text.toList = true)
    (clean : '/' ∉ text.toList) :
    addressedParent? (child path text) = none := by
  rw [Option.eq_none_iff_forall_ne_some]
  intro id h
  obtain ⟨number, hwords, _⟩ := addressedParent?_eq_some.1 h
  rw [Numbers, words_child clean (isComponent_ne_nil component)] at hwords
  have hlast : words path.toList ++ [text.toList] =
      [reservedName.toList, inodesName.toList, number] ++ [dotDot] := hwords
  rw [(List.append_singleton_inj.1 hlast).2] at component
  cases component

end Path

namespace InodeTable

open QuotaTree.Path

variable {table : InodeTable} {number : List Char} {rest : List (List Char)}
  {path other resolved text : String} {id : InodeId}

theorem fullPath_root (wf : table.tree.WellFormed) :
    table.view.fullPath .root = .ok "/" :=
  fullPath_of_leads wf .root

/-- A number stands for the path of the inode, and for one that goes on from it
by names. -/
theorem ofReserved_eq_ok (wf : table.tree.WellFormed)
    (level : rest ≠ [dotDot]) :
    ofReserved table.view path number rest = .ok resolved ↔
      ∃ id inode base, InodeId.parse (String.ofList number) = .ok id ∧
        table.tree id = some inode ∧ table.view.fullPath id = .ok base ∧
        dotDot ∉ rest ∧
        resolved = if rest = [] then base
          else child base
            (String.intercalate "/" (rest.map String.ofList)) := by
  unfold ofReserved
  cases hparse : InodeId.parse (String.ofList number) with
  | error => simp
  | ok id =>
    simp only [Except.ok.injEq]
    constructor
    · intro h
      split at h
      next hroot =>
        obtain ⟨rfl, rfl⟩ := hroot
        obtain ⟨root, live, _⟩ := wf.root
        cases h
        exact ⟨.root, root, "/", rfl, live, fullPath_root wf, List.not_mem_nil,
          rfl⟩
      next =>
        cases hup : table.view.parentOf id with
        | error => simp [hup] at h
        | ok parent =>
          obtain ⟨inode, live, _⟩ := (parentOf_eq_ok wf).1 hup
          simp only [hup] at h
          split at h
          next hrest =>
            subst hrest
            exact ⟨id, inode, resolved, rfl, live, h, List.not_mem_nil, rfl⟩
          next hrest =>
            split at h
            next => cases h
            next hplain =>
              obtain ⟨base, hbase, hresolved⟩ := Outcome.except_bind_eq_ok.1 h
              cases hresolved
              exact ⟨id, inode, base, rfl, live, hbase, hplain,
                (if_neg hrest).symm⟩
    · rintro ⟨_, inode, base, rfl, live, hbase, hplain, rfl⟩
      rw [(parentOf_eq_ok wf).2 ⟨inode, live, rfl⟩, hbase]
      simp only [if_neg level, if_neg hplain]
      split
      next hroot =>
        obtain ⟨rfl, rfl⟩ := hroot
        exact (fullPath_root wf).symm.trans hbase
      next =>
        split
        next => rfl
        next => rfl

/-- What a number leads to, but for the parent of the inode, leads on by
names. -/
theorem ofReserved_child (wf : table.tree.WellFormed)
    (proper : ∀ part ∈ rest, '/' ∉ part ∧ part ≠ [])
    (component : isComponent text.toList = true) (level : rest ≠ [dotDot])
    (h : ofReserved table.view path number rest = .ok resolved) :
    ofReserved table.view other number (rest ++ [text.toList]) =
      .ok (child resolved text) := by
  have hdots : text.toList ≠ dotDot := by
    intro heq
    rw [heq] at component
    cases component
  have hlevel : rest ++ [text.toList] ≠ [dotDot] := fun heq =>
    hdots (List.append_singleton_inj.1 (heq.trans (List.nil_append _).symm)).2
  obtain ⟨id, inode, base, hparse, live, hbase, hplain, rfl⟩ :=
    (ofReserved_eq_ok wf level).1 h
  refine (ofReserved_eq_ok wf hlevel).2 ⟨id, inode, base, hparse, live, hbase,
    ?_, ?_⟩
  · rw [List.mem_append, List.mem_singleton, not_or]
    exact ⟨hplain, hdots.symm⟩
  · by_cases hrest : rest = []
    · simp [hrest]
    · rw [if_neg hrest, if_neg (by simp), child_child base proper hrest]

/-- Nothing goes on from a path that names the parent of the inode that it
numbers. -/
theorem resolveReserved_child_of_upward (clean : '/' ∉ text.toList)
    (full : text.toList ≠ []) (upward : addressedParent? path = some id)
    (hresolved : resolveReserved table.view path = .ok resolved) :
    resolveReserved table.view (child path text) =
      .error (.invalidPath (child path text)) := by
  obtain ⟨number, numbers, hparse⟩ := addressedParent?_eq_some.1 upward
  rw [numbers.resolveReserved_eq] at hresolved
  rw [(numbers.child clean full).resolveReserved_eq]
  cases hup : table.view.parentOf id with
  | error => simp [ofReserved, hparse, hup] at hresolved
  | ok parent =>
    simp [ofReserved, hparse, hup, throw, throwThe, MonadExceptOf.throw]

end InodeTable

namespace Namespace

open QuotaTree.Path

variable {ns : Namespace} {path resolved : String} {chain : Chain} {name : Name}
  {id : InodeId}

/-- Going on by a name from a path that leads somewhere is to go on from what it
stands for. -/
theorem resolveReserved_child (sound : ns.Sound) (proper : name.Proper)
    (level : addressedParent? path = none)
    (hresolved : resolveReserved ns.table.view path = .ok resolved)
    (h : Chain.resolve ns.table.view resolved false = .ok chain) :
    resolveReserved ns.table.view (child path name.text) =
      .ok (child resolved name.text) := by
  have full : name.text.toList ≠ [] := isComponent_ne_nil proper.component
  cases hreserved : isReserved path with
  | true =>
    obtain ⟨number, rest, numbers⟩ := isReserved_iff.1 hreserved
    rw [numbers.resolveReserved_eq] at hresolved
    have hrest : rest ≠ [dotDot] := by
      rintro rfl
      unfold ofReserved at hresolved
      cases hparse : InodeId.parse (String.ofList number) with
      | error => simp [hparse] at hresolved
      | ok id =>
        rw [addressedParent?_eq_some.2 ⟨number, numbers, hparse⟩] at level
        cases level
    rw [(numbers.child proper.clean full).resolveReserved_eq]
    exact InodeTable.ofReserved_child sound.books.wellFormed
      (fun _ hpart => numbers.proper hpart) proper.component hrest hresolved
  | false =>
    cases (resolveReserved_of_plain hreserved).symm.trans hresolved
    have leads :=
      Chain.Leads.resolve (InodeTable.view_reads sound.books.wellFormed) h
    obtain ⟨parts, made, hnames⟩ := exists_parts (Chain.components_of_resolve h)
    apply resolveReserved_of_plain
    by_contra hchild
    obtain ⟨number, rest, hnumber⟩ :=
      isReserved_iff.1 (Bool.eq_true_of_not_eq_false hchild)
    rw [Numbers, words_child proper.clean full,
      show words path.toList = parts from made.filter_pieces_eq] at hnumber
    -- a path that leads somewhere does not begin with the reserved name
    cases parts with
    | nil => simp at hnumber
    | cons first others =>
      have hfirst := head_parts_ne (hnames ▸ sound.books.head_names_ne leads)
      exact hfirst (congrArg some (List.cons.inj hnumber).1)

/-- Going on by the name of an entry leads to the entry, unless a path names the
parent of the inode that it numbers. -/
theorem locate_child (sound : ns.Sound) (level : addressedParent? path = none)
    (located : ns.table.locate path = .ok chain)
    (entry : ns.table.tree.entryAt chain.last name = some id) :
    ns.table.locate (child path name.text) = .ok (chain.child name id) := by
  have wf : ns.table.tree.WellFormed := sound.books.wellFormed
  have proper : name.Proper := sound.books.named entry
  obtain ⟨resolved, hresolved, h⟩ := InodeTable.locate_eq_ok.1 located
  have leads := Chain.Leads.resolve (InodeTable.view_reads wf) h
  obtain ⟨parts, made, hnames⟩ := exists_parts (Chain.components_of_resolve h)
  have hname : components ("/" ++ name.text) = .ok [name] := by
    have hsingle := @components_ofNames [name] fun other hother => by
      rwa [List.mem_singleton.1 hother]
    simpa [ofNames] using hsingle
  have hcomponents :
      components (child resolved name.text) = .ok (chain.names ++ [name]) :=
    (made.components_child name.text).2 ⟨[name], hname, hnames ▸ rfl⟩
  have hwalk : ns.table.tree.walk (chain.names ++ [name]) .root = some id := by
    rw [Nodes.walk_append, leads.walk, Option.bind_some, Nodes.walk, entry]
    rfl
  obtain ⟨found, hfound, hlast⟩ :=
    (InodeTable.exists_resolve_iff wf).2 ⟨_, hcomponents, hwalk⟩
  have hleads := Chain.Leads.resolve (InodeTable.view_reads wf) hfound
  have hsame : found = chain.child name id :=
    hleads.unique wf (leads.child entry) hlast
  exact InodeTable.locate_eq_ok.2
    ⟨_, resolveReserved_child sound proper level hresolved h, hsame ▸ hfound⟩

end Namespace

end QuotaTree
