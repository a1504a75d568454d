/-
Where inodes live, and how they are addressed by number.  A path below the
reserved directory stands for the full path of the inode that it numbers, and a
full path stands for itself.
-/
import QuotaTree.Path.Reserved
import QuotaTree.Proofs.Usage.Books
import QuotaTree.Proofs.Tree.Chain

namespace QuotaTree

namespace Text

variable {bound value : Nat} {chars : List Char}

theorem le_ofDigitChars (value : Nat) (chars : List Char) :
    value ≤ Nat.ofDigitChars 10 chars value := by
  induction chars generalizing value with
  | nil => exact Nat.le_refl _
  | cons digit rest ih =>
    rw [Nat.ofDigitChars_cons]
    have := ih (10 * value + (digit.toNat - '0'.toNat))
    omega

/-- Digits are read as long as the number that they make is within the bound. -/
theorem readDigits_eq_ok (digits : ∀ char ∈ chars, char.isDigit = true)
    (h : Nat.ofDigitChars 10 chars value ≤ bound) :
    readDigits bound value chars = .ok (Nat.ofDigitChars 10 chars value) := by
  induction chars generalizing value with
  | nil => rfl
  | cons digit rest ih =>
    have hcomm :
        value * 10 + digitValue digit =
          10 * value + (digit.toNat - '0'.toNat) := by
      rw [digitValue, Nat.mul_comm]
    rw [Nat.ofDigitChars_cons] at h ⊢
    have hle := Nat.le_trans (le_ofDigitChars _ rest) h
    rw [readDigits, if_pos (digits digit List.mem_cons_self)]
    dsimp only
    rw [hcomm, if_pos hle]
    exact ih (fun char hchar => digits char (List.mem_cons_of_mem _ hchar)) h

/-- A number within the bound is read back from its decimal form. -/
theorem readNat_toDigits {number : Nat} (h : number ≤ bound) :
    readNat bound (Nat.toDigits 10 number) = .ok number := by
  have digits : ∀ char ∈ Nat.toDigits 10 number, char.isDigit = true :=
    fun char hchar => Nat.isDigit_of_mem_toDigits (by decide) (by decide) hchar
  have hvalue : Nat.ofDigitChars 10 (Nat.toDigits 10 number) 0 = number :=
    Nat.ofDigitChars_ten_toDigits
  have hread := readDigits_eq_ok digits (hvalue.trans_le h)
  rw [hvalue] at hread
  unfold readNat
  split
  next hnil => exact absurd hnil Nat.toDigits_ne_nil
  next hplus =>
    exact absurd (digits '+' (hplus ▸ List.mem_cons_self)) (by decide)
  next rest hplus =>
    exact absurd (digits '+' (hplus ▸ List.mem_cons_self)) (by decide)
  next => exact hread

end Text

namespace InodeId

variable {id : InodeId}

theorem toList_text (id : InodeId) :
    id.text.toList = Nat.toDigits 10 id.val := by
  rw [text, Nat.toString_eq_ofList_toDigits, String.toList_ofList]

theorem parse_text (h : id.val ≤ maxVal) : parse id.text = .ok id := by
  rw [parse, toList_text, Text.readNat_toDigits h]
  rfl

theorem slash_not_mem_text (id : InodeId) : '/' ∉ id.text.toList := by
  rw [toList_text]
  intro h
  exact absurd (Nat.isDigit_of_mem_toDigits (by decide) (by decide) h)
    (by decide)

end InodeId

namespace Path

variable {view : View} {parts : List (List Char)} {path : String}
  {names : List Name}

def isOrdinary (component : String) : Bool :=
  isComponent component.toList && !component.toList.contains '/'

def suffix (components : List String) : String :=
  String.join (components.map ("/" ++ ·))

theorem toList_suffix (components : List String) :
    (suffix components).toList = rooted (components.map String.toList) := by
  rw [suffix, String.toList_join, List.flatMap_map, rooted, List.flatMap_map]
  exact List.flatMap_congr fun component _ => by rw [String.toList_append]; rfl

theorem ofNames_eq_suffix (h : names ≠ []) :
    ofNames names = suffix (names.map Name.text) := by
  cases names with
  | nil => exact absurd rfl h
  | cons name rest => rw [ofNames, suffix, List.map_map]; rfl; simp

theorem intercalate_eq_rooted (h : parts ≠ []) :
    '/' :: ['/'].intercalate parts = rooted parts := by
  induction parts with
  | nil => exact absurd rfl h
  | cons part rest ih =>
    cases rest with
    | nil => simp [rooted]
    | cons next others =>
      rw [List.intercalate_cons_cons, rooted_cons, ← ih (List.cons_ne_nil _ _)]
      simp

/-- A path of proper parts does not end in a slash. -/
theorem exists_last_rooted (clean : ∀ part ∈ parts, '/' ∉ part)
    (full : ∀ part ∈ parts, part ≠ []) (h : parts ≠ []) :
    ∃ front char, rooted parts = front ++ [char] ∧ char ≠ '/' := by
  obtain ⟨others, last, rfl⟩ := (List.eq_nil_or_concat' parts).resolve_left h
  have hlast : last ∈ others ++ [last] :=
    List.mem_append_right _ List.mem_cons_self
  obtain ⟨front, char, rfl⟩ :=
    (List.eq_nil_or_concat' last).resolve_left (full last hlast)
  refine ⟨rooted others ++ '/' :: front, char, by simp [rooted_cons], ?_⟩
  rintro rfl
  exact clean _ hlast (List.mem_append_right _ List.mem_cons_self)

theorem dropEndSlashes_rooted (clean : ∀ part ∈ parts, '/' ∉ part)
    (full : ∀ part ∈ parts, part ≠ []) :
    dropEndSlashes (rooted parts) = rooted parts := by
  by_cases h : parts = []
  · subst h
    rfl
  · obtain ⟨front, char, hrooted, hchar⟩ := exists_last_rooted clean full h
    rw [hrooted, dropEndSlashes]
    simp [hchar]

theorem dropEndSlash_rooted (clean : ∀ part ∈ parts, '/' ∉ part)
    (full : ∀ part ∈ parts, part ≠ []) :
    dropEndSlash (rooted parts) = rooted parts := by
  by_cases h : parts = []
  · subst h
    rfl
  · obtain ⟨front, char, hrooted, hchar⟩ := exists_last_rooted clean full h
    rw [hrooted, dropEndSlash, List.getLast?_concat,
      if_neg fun heq => hchar (Option.some.inj heq)]

/-- The parts of a path without empty ones. -/
theorem filter_pieces (clean : ∀ part ∈ parts, '/' ∉ part)
    (full : ∀ part ∈ parts, part ≠ []) (h : path.toList = rooted parts) :
    (pieces path.toList).filter (· ≠ []) = parts := by
  rw [h, pieces_rooted clean, List.filter_cons_of_neg (by simp)]
  exact List.filter_eq_self.2 fun part hpart => decide_eq_true (full part hpart)

/-- A path that does not begin with the reserved name stands for itself. -/
theorem resolveReserved_of_head
    (plain : ((pieces path.toList).filter (· ≠ [])).head? ≠
      some reservedName.toList) :
    resolveReserved view path = .ok path := by
  unfold resolveReserved
  split
  next hpieces =>
    rw [if_neg fun hreserved => plain (hpieces ▸ congrArg some hreserved.1)]
    rfl
  next => rfl

def isReserved (path : String) : Bool :=
  match (pieces path.toList).filter (· ≠ []) with
  | first :: second :: _ :: _ =>
    first == reservedName.toList && second == inodesName.toList
  | _ => false

/-- Any other path stands for itself. -/
theorem resolveReserved_of_plain (plain : isReserved path = false) :
    resolveReserved view path = .ok path := by
  unfold isReserved at plain
  unfold resolveReserved
  split
  next first second number rest hpieces =>
    simp only [hpieces, Bool.and_eq_false_iff, beq_eq_false_iff_ne] at plain
    rw [if_neg fun h => plain.elim (· h.1) (· h.2)]
    rfl
  next => rfl

theorem toList_ofNames (h : names ≠ []) :
    (ofNames names).toList = rooted (names.map (·.text.toList)) := by
  rw [ofNames_eq_suffix h, toList_suffix, List.map_map]
  rfl

section Proper

variable (proper : ∀ name ∈ names, name.Proper)

include proper

theorem clean_names :
    ∀ part ∈ names.map (·.text.toList), '/' ∉ part ∧ part ≠ [] := by
  intro part hpart
  obtain ⟨name, hname, rfl⟩ := List.mem_map.1 hpart
  exact ⟨(proper name hname).clean,
    isComponent_ne_nil (proper name hname).component⟩

/-- The path of proper names is made of these names. -/
theorem components_ofNames : components (ofNames names) = .ok names := by
  by_cases hnil : names = []
  · subst hnil
    rfl
  · have hclean := clean_names proper
    have hall : (names.map (·.text.toList)).all isComponent = true := by
      rw [List.all_map, List.all_eq_true]
      exact fun name hname => (proper name hname).component
    have hnames :
        (names.map (·.text.toList)).map
          (fun part => Name.ofText (String.ofList part)) = names := by
      rw [List.map_map]
      refine (List.map_congr_left fun name hname => ?_).trans
        (List.map_id names)
      rw [Function.comp_apply, String.ofList_toList, (proper name hname).ofText]
      rfl
    have hhead : (rooted (names.map (·.text.toList))).head? = some '/' := by
      cases names with
      | nil => exact absurd rfl hnil
      | cons name rest => rfl
    rw [components, toList_ofNames hnil, dropEndSlash_rooted
      (fun part h => (hclean part h).1) (fun part h => (hclean part h).2),
      pieces_rooted fun part h => (hclean part h).1, hhead]
    simp only [hall, if_true, hnames]

theorem isReserved_ofNames
    (first : names.head? ≠ some (Name.ofText reservedName)) :
    isReserved (ofNames names) = false := by
  by_cases hnil : names = []
  · subst hnil
    rfl
  · have hclean := clean_names proper
    rw [isReserved, filter_pieces (fun part h => (hclean part h).1)
      (fun part h => (hclean part h).2) (toList_ofNames hnil)]
    cases names with
    | nil => rfl
    | cons name rest =>
      have hname : name.text.toList ≠ reservedName.toList := by
        intro h
        refine first ?_
        rw [List.head?_cons, ← (proper name List.mem_cons_self).ofText,
          String.toList_inj.1 h]
      split
      next heq =>
        obtain ⟨rfl, _⟩ := List.cons.inj heq
        simp [hname]
      next => rfl

end Proper

end Path

namespace Chain

variable {nodes : Nodes} {view : View} {chain : Chain} {id : InodeId}
  {inode : Inode}

/-- A chain leads to every inode there is. -/
theorem exists_leads (wf : nodes.WellFormed) (live : nodes id = some inode) :
    ∃ chain, Leads nodes chain ∧ chain.last = id := by
  obtain ⟨depth, hdepth⟩ := wf.descends live
  clear live
  induction hdepth with
  | root => exact ⟨.root, .root, rfl⟩
  | @child id parent depth link above ih =>
    obtain ⟨chain, leads, rfl⟩ := ih
    obtain ⟨inode, live, hparent⟩ := link
    exact ⟨chain.child inode.name id,
      .child leads (wf.edge.2 ⟨inode, live, rfl, hparent⟩), rfl⟩

namespace Leads

theorem depth (leads : Leads nodes chain) (wf : nodes.WellFormed) :
    ∃ depth, nodes.Depth chain.last depth ∧ chain.length = depth + 1 := by
  induction leads with
  | root => exact ⟨0, .root, rfl⟩
  | child above entry ih =>
    obtain ⟨depth, hdepth, hlength⟩ := ih
    exact ⟨depth + 1,
      .child ((Leads.child above entry).link wf) hdepth, by simp [hlength]⟩

/-- Going up from the end of a chain finds its names. -/
theorem namesDownTo (leads : Leads nodes chain) (wf : nodes.WellFormed)
    (opens : ∀ x, view.Opens nodes x) {steps : Nat}
    (enough : chain.length ≤ steps) (below : List Name) :
    view.namesDownTo steps chain.last below = .ok (chain.names ++ below) := by
  induction leads generalizing steps below with
  | root =>
    obtain ⟨root, hroot, _, hparent⟩ := wf.root
    obtain ⟨steps, rfl⟩ := Nat.exists_eq_succ_of_ne_zero (Nat.ne_of_gt enough)
    simp [View.namesDownTo, (opens .root).get hroot, hparent, names, pure,
      Except.pure, bind, Except.bind]
  | @child parent name id above entry ih =>
    obtain ⟨inode, live, rfl, hparent⟩ := wf.edge.1 entry
    obtain ⟨steps, rfl⟩ := Nat.exists_eq_succ_of_ne_zero
      (Nat.ne_of_gt (Nat.lt_of_lt_of_le (Nat.succ_pos _) enough))
    have hrest := ih (Nat.le_of_succ_le_succ enough) (inode.name :: below)
    simp [View.namesDownTo, (opens id).get live, hparent, hrest, bind,
      Except.bind]

end Leads

end Chain

namespace InodeTable

variable {table : InodeTable} {chain : Chain}

/-- The full path of an inode is the path of the chain that leads to it. -/
theorem fullPath_of_leads (wf : table.tree.WellFormed)
    (leads : Chain.Leads table.tree chain) :
    table.view.fullPath chain.last = .ok chain.path := by
  obtain ⟨depth, hdepth, hlength⟩ := leads.depth wf
  obtain ⟨inode, live⟩ := leads.live wf
  have hdeep := (view_reads wf).deep live hdepth
  rw [View.fullPath, leads.namesDownTo wf view_opens (by omega) [],
    List.append_nil]
  rfl

end InodeTable

namespace Books.Sound

variable {books : Books} {chain : Chain}

theorem proper_names (sound : books.Sound)
    (leads : Chain.Leads books.nodes chain) :
    ∀ name ∈ chain.names, name.Proper := by
  induction leads with
  | root =>
    intro name h
    cases h
  | child above entry ih =>
    intro name h
    rcases List.mem_append.1 h with h | h
    · exact ih name h
    · rw [List.mem_singleton.1 h]
      exact sound.named entry

/-- The first name below the root is not the reserved one. -/
theorem head_names_ne (sound : books.Sound)
    (leads : Chain.Leads books.nodes chain) :
    chain.names.head? ≠ some (Name.ofText reservedName) := by
  induction leads with
  | root => simp [Chain.names]
  | @child parent name id above entry ih =>
    intro h
    rw [Chain.names_child, List.head?_append] at h
    cases hhead : parent.names.head? with
    | some first => exact ih (by rwa [hhead] at h ⊢)
    | none =>
      rw [hhead] at h
      have hroot : parent = .root := by
        cases parent with
        | root => rfl
        | child => simp [Chain.names] at hhead
      obtain rfl : name = Name.ofText reservedName := by simpa using h
      subst hroot
      rw [Chain.last_root, sound.unreserved] at entry
      cases entry

end Books.Sound

end QuotaTree
