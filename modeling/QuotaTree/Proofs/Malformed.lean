/-
Paths that are not absolute, or not clean.  A request refuses such a path and
leaves the namespace as it was, but a path that goes by the number of an inode
is taken by its words alone: it is refused for a dot, and not for a slash that
is missing or doubled.
-/
import QuotaTree.Proofs.Addressing
import QuotaTree.Proofs.Faults.Planning
import QuotaTree.Proofs.Tree.Words

namespace QuotaTree

namespace Path

variable {path : String} {parts : List (List Char)} {part number : List Char}
  {rest : List (List Char)} {view : View} {error : Error}

/-- A path that is not absolute, or of which a component is empty, a single or a
double dot; one slash at its end does not count. -/
def Malformed (path : String) : Prop :=
  path.toList.head? ≠ some '/' ∨
    ∃ piece ∈
        (pieces (dropEndSlash path.toList)).tail, isComponent piece = false

instance (path : String) : Decidable (Malformed path) :=
  inferInstanceAs (Decidable (_ ∨ _))

theorem components_of_malformed (malformed : Malformed path) :
    components path = .error (.invalidPath path) := by
  unfold components
  split
  next parts hpieces habsolute =>
    obtain ⟨piece, hpiece, hbad⟩ :=
      malformed.resolve_left (not_not_intro habsolute)
    rw [hpieces] at hpiece
    refine if_neg fun hall => ?_
    rw [List.all_eq_true.1 hall piece hpiece] at hbad
    cases hbad
  next => rfl

theorem exists_names_of_not_malformed (h : ¬ Malformed path) :
    ∃ names, components path = .ok names := by
  simp only [Malformed, not_or, not_not, not_exists, not_and,
    Bool.not_eq_false] at h
  obtain ⟨habsolute, hall⟩ := h
  obtain ⟨first, parts, hpieces⟩ :=
    List.exists_cons_of_ne_nil (pieces_ne_nil (dropEndSlash path.toList))
  rw [hpieces] at hall
  refine ⟨parts.map fun part => Name.ofText (String.ofList part), ?_⟩
  rw [components, hpieces, habsolute]
  exact if_pos (List.all_eq_true.2 hall)

example : Malformed "/a//b" ∧ Malformed "a/b" ∧ ¬ Malformed "/a/b/" := by decide

theorem malformed_of_rooted (clean : ∀ part ∈ parts, '/' ∉ part)
    (full : ∀ part ∈ parts, part ≠ []) (h : path.toList = rooted parts)
    (mem : part ∈ parts) (bad : isComponent part = false) : Malformed path := by
  refine .inr ⟨part, ?_, bad⟩
  rw [h, dropEndSlash_rooted clean full, pieces_rooted clean]
  exact mem

/-- The path of the same words, with one slash before each. -/
def respelled (path : String) : String :=
  String.ofList (rooted (words path.toList))

theorem words_respelled (path : String) :
    words (respelled path).toList = words path.toList :=
  filter_pieces (fun _ hword => (clean_of_mem_words hword).1)
    (fun _ hword => (clean_of_mem_words hword).2) String.toList_ofList

theorem not_malformed_respelled (hne : words path.toList ≠ [])
    (plain : ∀ word ∈ words path.toList, isComponent word = true) :
    ¬ Malformed (respelled path) := by
  have made : MadeOf (respelled path) (words path.toList) := by
    refine ⟨fun word hword => ⟨plain word hword, (clean_of_mem_words hword).1⟩,
      .inl String.toList_ofList, ?_⟩
    rw [respelled, String.toList_ofList]
    obtain ⟨first, others, hwords⟩ := List.exists_cons_of_ne_nil hne
    rw [hwords]
    rfl
  intro malformed
  cases made.components_eq.symm.trans (components_of_malformed malformed)

theorem Numbers.respell (numbers : Numbers path number rest) :
    Numbers (respelled path) number rest :=
  (words_respelled path).trans numbers

/-- A number that is none leads nowhere. -/
theorem Numbers.resolveReserved_of_error {cause : Text.DecimalError}
    (numbers : Numbers path number rest)
    (parsed : InodeId.parse (String.ofList number) = .error cause) :
    resolveReserved view path =
      .error (.missing ("Invalid inode path: " ++ path)) := by
  rw [numbers.resolveReserved_eq, ofReserved, parsed]
  rfl

/-- The words of a path by number make a clean path, unless there are dots after
the number. -/
theorem Numbers.not_malformed_respelled {id : InodeId}
    (numbers : Numbers path number rest)
    (parsed : InodeId.parse (String.ofList number) = .ok id)
    (plain : ∀ part ∈ rest, isComponent part = true) :
    ¬ Malformed (respelled path) := by
  have hnumber : isComponent number = true := by
    by_contra hbad
    simp only [isComponent, Bool.and_eq_true, bne_iff_ne, not_and_or,
      not_not] at hbad
    rcases hbad with (rfl | rfl) | rfl <;> cases parsed
  refine Path.not_malformed_respelled (by rw [numbers]; simp)
    fun word hword => ?_
  rw [numbers] at hword
  simp only [List.mem_cons] at hword
  rcases hword with rfl | rfl | rfl | hrest
  · decide
  · decide
  · exact hnumber
  · exact plain word hrest

def readNames (view : View) (path : String) : Except Error (List Name) := do
  let resolved ← resolveReserved view path
  components resolved

theorem readNames_eq_error : readNames view path = .error error ↔
    resolveReserved view path = .error error ∨
      ∃ resolved, resolveReserved view path = .ok resolved ∧
        components resolved = .error error := by
  unfold readNames
  cases resolveReserved view path with
  | error cause => simp [bind, Except.bind]
  | ok resolved => simp [bind, Except.bind]

end Path

theorem Chain.resolveExisting_of_unnamed {view : View} {path : String}
    {error : Error} (h : Path.components path = .error error) :
    resolveExisting view path false = .error error := by
  simp only [resolveExisting, h]
  rfl

namespace PathCall

variable {α : Type}

/-- A request that goes along its path, and does more than to tell what the path
stands for. -/
def walks : PathCall α → Bool
  | .resolvePath => false
  | _ => true

/-- What is given besides the path is in order.  Of a renaming, the other path
stands for one, and if it is gone along first, it crosses no symlink. -/
def Valid (ns : Namespace) : PathCall α → Prop
  | .create options =>
    options.replication.getD ns.config.defaultReplication ≠ 0 ∧
      options.blockSize.getD ns.config.defaultBlockSize ≠ 0
  | .createSymlink target _ _ => target ≠ ""
  | .writeInline _ length =>
    ns.config.maxInline ≠ 0 ∧ length ≤ ns.config.maxInline
  | .renameFrom destination =>
    ∃ resolved, Path.resolveReserved ns.table.view destination = .ok resolved
  | .renameTo source =>
    ∃ resolved found, Path.resolveReserved ns.table.view source = .ok resolved ∧
      Chain.resolveExisting ns.table.view resolved false = .ok found
  | .setQuota inodes bytes =>
    Limit.isLegal inodes = true ∧ Limit.isLegal bytes = true ∧ inodes ≠ 0
  | .setTypeQuota type limit => type ≠ .ramDisk ∧ Limit.isLegal limit = true
  | .setReplication replication => replication ≠ 0
  | _ => True

/-- The namespace after the request has failed: a block that was to be added has
used up its numbers. -/
def drawn : PathCall α → Namespace → Namespace
  | .addBlock _ _, ns =>
    { ns with nextBlock := ns.nextBlock + 1, nextStamp := ns.nextStamp + 1 }
  | _, ns => ns

end PathCall

namespace Namespace

open QuotaTree.Path

variable {ns : Namespace} {path : String} {error : Error}
  {operation : Operation} {α : Type}

theorem transact_of_unnamed {work : Work α} {lock : PathLock}
    (free : ns.locks = ∅) (h : components lock.path = .error error) :
    transact operation (.ofPath lock) work ns = .error error ns :=
  transact_of_unplanned free
    (LockDemand.plan_of_error (Chain.resolveExisting_of_unnamed h))

section Refused

variable (free : ns.locks = ∅)
  (refused : readNames ns.table.view path = .error error)

include refused

/-- A request that begins with its path fails if it does not get along what the
path stands for. -/
theorem bind_of_refused {next : String → Request α}
    (stops : ∀ resolved, components resolved = .error error →
      next resolved ns = .error error ns) :
    (resolvePath path >>= next) ns = .error error ns := by
  rcases readNames_eq_error.1 refused with h | ⟨resolved, h, hnames⟩
  · exact Outcome.bind_of_error (resolvePath_of_error h)
  · rw [Outcome.bind_of_ok (resolvePath_eq_ok.2 ⟨h, rfl⟩)]
    exact stops resolved hnames

include free

theorem onFile_of_refused (operation : Operation) (work : Chain → Work α) :
    onFile operation path work ns = .error error ns :=
  bind_of_refused refused fun _ h => transact_of_unnamed free h

theorem changeLimits_of_refused (edit : Edit) (liftsInodes : Bool)
    (change : Counts → Counts) :
    changeLimits path edit liftsInodes change ns = .error error ns :=
  bind_of_refused refused fun _ h => transact_of_unnamed free h

theorem create_of_refused {options : CreateOptions}
    (valid : (PathCall.create options).Valid ns) :
    create path options ns = .error error ns := by
  refine bind_of_refused refused fun resolved h => ?_
  rw [Outcome.get_bind]
  dsimp only
  rw [if_neg valid.1, if_neg valid.2]
  exact Outcome.bind_of_error (transact_of_unnamed free h)

/-- The numbers of a block are drawn before the path is looked at. -/
theorem addBlock_of_refused (client : String) (targets : List String) :
    addBlock path client targets ns =
      .error error ((PathCall.addBlock client targets).drawn ns) := by
  set drawn := (PathCall.addBlock client targets).drawn ns with hdrawn
  let block : Block := ⟨ns.nextBlock, 0, ns.nextStamp⟩
  have hdraw : nextBlockOut ns = .ok block drawn := rfl
  -- the numbers are greater than those of the block already
  have hraise : (modify fun ns =>
      { ns with
        nextBlock := max ns.nextBlock (block.id + 1)
        nextStamp := max ns.nextStamp (block.stamp + 1) } :
          Request Unit) drawn = .ok () drawn := by
    simp [hdrawn, PathCall.drawn, block]
  have hfile :
      onFile .addBlock path (Work.addBlockAt client block targets) drawn =
        .error error drawn :=
    @onFile_of_refused drawn path error InodeId free refused .addBlock _
  have hadd :
      addBlockAs path client block targets drawn = .error error drawn := by
    unfold addBlockAs
    rw [Outcome.bind_of_ok hraise, Outcome.bind_of_error hfile]
  unfold addBlock
  rw [Outcome.bind_of_ok hdraw, Outcome.bind_of_error hadd]

end Refused

theorem requireLegal_of_legal {value : Int}
    (legal : Limit.isLegal value = true) : requireLegal value ns = .ok () ns :=
  requireLegal_eq_ok.2 ⟨legal, rfl⟩

/-- Of two paths of a renaming the first is refused, or the second when the
first is not. -/
theorem rename_of_refused (sound : ns.Sound)
    {source destination resolved resolved' : String}
    (hsource : resolveReserved ns.table.view source = .ok resolved)
    (hdestination : resolveReserved ns.table.view destination = .ok resolved')
    (refused : components resolved = .error error ∨
      (∃ found, Chain.resolveExisting ns.table.view resolved false =
        .ok found) ∧
        components resolved' = .error error) :
    rename source destination ns = .error error ns := by
  unfold rename
  rw [Outcome.bind_of_ok (resolvePath_eq_ok.2 ⟨hsource, rfl⟩),
    Outcome.bind_of_ok (resolvePath_eq_ok.2 ⟨hdestination, rfl⟩)]
  apply transact_of_unplanned sound.locks
  have hunlisted {lock : PathLock} (h : components lock.path = .error error) :
      lock.demands ns.table.view = .error error :=
    PathLock.demands_of_error (Chain.resolveExisting_of_unnamed h)
  rcases refused with h | ⟨⟨⟨chain, rest⟩, hfound⟩, h⟩
  · exact LockDemand.plan_of_first_error (hunlisted h)
  · refine @LockDemand.plan_of_demands_error _ ns.table.view [_] [] error
      (fun other hmem => ?_) (hunlisted h)
    obtain rfl := List.mem_singleton.1 hmem
    exact InodeTable.exists_demands sound.books.wellFormed rfl hfound

/-- A request fails as reading its path does. -/
theorem run_of_refused (sound : ns.Sound) (call : PathCall α)
    (walks : call.walks = true) (valid : call.Valid ns)
    (refused : readNames ns.table.view path = .error error) :
    call.run path ns = .error error (call.drawn ns) := by
  have free := sound.locks
  cases call with
  | resolvePath => cases walks
  | mkdirs | setStoragePolicy | status | listing | quotaUsage | computeUsage
  | chainOf =>
    exact bind_of_refused refused fun _ h => transact_of_unnamed free h
  | truncate | delete | summary =>
    refine bind_of_refused refused fun _ h => ?_
    exact Outcome.bind_of_error (transact_of_unnamed free h)
  | complete | append => exact onFile_of_refused free refused _ _
  | abandonBlock =>
    exact Outcome.bind_of_error (onFile_of_refused free refused _ _)
  | create => exact create_of_refused free refused valid
  | addBlock client targets =>
    exact addBlock_of_refused free refused client targets
  | createSymlink target permission createParent =>
    change createSymlink target path permission createParent ns = _
    unfold createSymlink
    dsimp only
    rw [if_neg valid]
    exact bind_of_refused refused fun _ h => transact_of_unnamed free h
  | writeInline client length =>
    change writeInline path client length ns = _
    unfold writeInline
    rw [Outcome.get_bind]
    dsimp only
    rw [if_neg (not_or.2 ⟨valid.1, Nat.not_lt.2 valid.2⟩)]
    exact onFile_of_refused free refused _ _
  | renameFrom destination =>
    change rename path destination ns = _
    obtain ⟨resolved', hdestination⟩ := valid
    rcases readNames_eq_error.1 refused with h | ⟨resolved, hsource, h⟩
    · exact Outcome.bind_of_error (resolvePath_of_error h)
    · exact rename_of_refused sound hsource hdestination (.inl h)
  | renameTo source =>
    change rename source path ns = _
    obtain ⟨resolved, found, hsource, hfound⟩ := valid
    rcases readNames_eq_error.1 refused with h | ⟨resolved', hdestination, h⟩
    · unfold rename
      rw [Outcome.bind_of_ok (resolvePath_eq_ok.2 ⟨hsource, rfl⟩)]
      exact Outcome.bind_of_error (resolvePath_of_error h)
    · exact rename_of_refused sound hsource hdestination
        (.inr ⟨⟨found, hfound⟩, h⟩)
  | setQuota inodes bytes =>
    obtain ⟨hinodes, hbytes, hzero⟩ := valid
    change setQuota path inodes bytes ns = _
    unfold setQuota
    rw [Outcome.bind_of_ok (requireLegal_of_legal hinodes),
      Outcome.bind_of_ok (requireLegal_of_legal hbytes)]
    dsimp only
    rw [if_neg hzero]
    exact changeLimits_of_refused free refused _ _ _
  | setTypeQuota type limit =>
    obtain ⟨htype, hlimit⟩ := valid
    change setTypeQuota path type limit ns = _
    unfold setTypeQuota
    dsimp only
    rw [if_neg htype, Outcome.bind_of_ok (requireLegal_of_legal hlimit)]
    exact changeLimits_of_refused free refused _ _ _
  | setReplication replication =>
    change setReplication path replication ns = _
    unfold setReplication
    dsimp only
    rw [if_neg valid]
    exact bind_of_refused refused fun _ h => transact_of_unnamed free h

section Numbered

variable {number : List Char} {rest : List (List Char)} {id : InodeId}
  (numbers : Numbers path number rest)

include numbers

theorem resolveReserved_of_gone (sound : ns.Sound)
    (parsed : InodeId.parse (String.ofList number) = .ok id)
    (gone : ns.table.contains id = false) :
    resolveReserved ns.table.view path = .error
      (.missing ("File for given inode path does not exist: " ++ path)) := by
  have hid : id ≠ .root := by
    rintro rfl
    obtain ⟨root, live, _⟩ := sound.books.wellFormed.root
    exact Bool.false_ne_true
      (gone.symm.trans (Option.isSome_iff_exists.2 ⟨root, live⟩))
  rw [numbers.resolveReserved_eq, ofReserved, parsed]
  dsimp only
  rw [if_neg fun h => hid h.1]
  cases hup : ns.table.view.parentOf id with
  | error => rfl
  | ok parent =>
    obtain ⟨inode, live, _⟩ :=
      (InodeTable.parentOf_eq_ok sound.books.wellFormed).1 hup
    have hlive : ns.table.contains id = true :=
      Option.isSome_iff_exists.2 ⟨inode, live⟩
    rw [gone] at hlive
    cases hlive

variable (sound : ns.Sound)
  (parsed : InodeId.parse (String.ofList number) = .ok id)
  (live : ns.table.contains id = true)

include sound parsed live

/-- Dots after a number are refused, but for two that are all that stands
there. -/
theorem readNames_of_dotted (level : rest ≠ [dotDot]) {part : List Char}
    (mem : part ∈ rest) (bad : isComponent part = false) :
    ∃ text, (text = path ∨ resolveReserved ns.table.view path = .ok text) ∧
      readNames ns.table.view path = .error (.invalidPath text) := by
  have wf : ns.table.tree.WellFormed := sound.books.wellFormed
  obtain ⟨inode, hlive⟩ := Option.isSome_iff_exists.1 live
  have hrest : rest ≠ [] := List.ne_nil_of_mem mem
  by_cases hdots : dotDot ∈ rest
  · refine ⟨path, .inl rfl, readNames_eq_error.2 (.inl ?_)⟩
    rw [numbers.resolveReserved_eq, ofReserved, parsed]
    dsimp only
    rw [if_neg fun h => hrest h.2,
      (InodeTable.parentOf_eq_ok wf).2 ⟨inode, hlive, rfl⟩]
    dsimp only
    rw [if_neg hrest, if_neg level, if_pos hdots]
    rfl
  · obtain ⟨chain, leads, rfl⟩ := Chain.exists_leads wf hlive
    have hbase := InodeTable.fullPath_of_leads wf leads
    have hresolved : resolveReserved ns.table.view path = .ok (child chain.path
          (String.intercalate "/" (rest.map String.ofList))) := by
      rw [numbers.resolveReserved_eq]
      exact (InodeTable.ofReserved_eq_ok wf level).2 ⟨chain.last, inode,
        chain.path, parsed, hlive, hbase, hdots, (if_neg hrest).symm⟩
    refine ⟨_, .inr hresolved, readNames_eq_error.2 (.inr ⟨_, hresolved, ?_⟩)⟩
    apply components_of_malformed
    by_contra hwell
    -- what goes on from the path of an inode is no better than what it goes on
    -- by
    obtain ⟨names, hnames⟩ := exists_names_of_not_malformed hwell
    obtain ⟨parts, made, _⟩ :=
      exists_parts (components_ofNames (sound.books.proper_names leads))
    obtain ⟨more, hmore, _⟩ := (made.components_child _).1 hnames
    have htext :
        ("/" ++ String.intercalate "/" (rest.map String.ofList)).toList =
          rooted rest := by
      rw [String.toList_append, ← toList_intercalate_rooted hrest]
      rfl
    have hbad :=
      malformed_of_rooted (fun part hpart => (numbers.proper hpart).1)
        (fun part hpart => (numbers.proper hpart).2) htext mem bad
    cases hmore.symm.trans (components_of_malformed hbad)

/-- Where the number of an inode stands for a path, how the words were put
together does not matter. -/
theorem coincide_respelled (plain : dotDot ∈ rest → rest = [dotDot]) :
    ns.Coincide path (respelled path) := by
  obtain ⟨inode, hlive⟩ := Option.isSome_iff_exists.1 live
  have hup :=
    (InodeTable.parentOf_eq_ok sound.books.wellFormed).2 ⟨inode, hlive, rfl⟩
  unfold Coincide
  rw [numbers.resolveReserved_eq, numbers.respell.resolveReserved_eq,
    ofReserved, ofReserved, parsed]
  dsimp only
  rw [hup]
  dsimp only
  by_cases hrest : rest = [dotDot]
  · simp only [if_pos hrest]
  · simp only [if_neg hrest, if_neg (mt plain hrest)]

end Numbered

/-- What a request makes of a malformed path: it is refused, unless it goes by
the number of an inode and nothing is amiss but its slashes. -/
structure Rejects (ns : Namespace) (call : PathCall α) (path : String) :
    Prop where
  plain : isReserved path = false →
    call.run path ns = .error (.invalidPath path) (call.drawn ns)
  unnumbered : ∀ {number rest cause}, Numbers path number rest →
    InodeId.parse (String.ofList number) = .error cause →
      call.run path ns =
        .error (.missing ("Invalid inode path: " ++ path)) (call.drawn ns)
  gone : ∀ {number rest id}, Numbers path number rest →
    InodeId.parse (String.ofList number) = .ok id →
    ns.table.contains id = false →
      call.run path ns =
        .error (.missing ("File for given inode path does not exist: " ++ path))
        (call.drawn ns)
  dotted : ∀ {number rest id}, Numbers path number rest →
    InodeId.parse (String.ofList number) = .ok id →
    ns.table.contains id = true →
      rest ≠ [dotDot] → (∃ part ∈ rest, isComponent part = false) →
        ∃ text, (text = path ∨ resolveReserved ns.table.view path = .ok text) ∧
          call.run path ns = .error (.invalidPath text) (call.drawn ns)
  /-- The request does what it does with the clean path of the same words, or
  with the one for the parent of the inode. -/
  respelled : ∀ {number rest id}, Numbers path number rest →
    InodeId.parse (String.ofList number) = .ok id →
    ns.table.contains id = true →
      rest = [dotDot] ∨ (∀ part ∈ rest, isComponent part = true) →
        (rest ≠ [dotDot] → ¬ Malformed (respelled path)) ∧
          call.Agrees path (respelled path) (call.run path ns)
            (call.run (respelled path) ns)

/-- In every namespace that can come about, a request whose other arguments are
in order refuses a malformed path as the rules for paths have it, and one that
goes by number for what is wrong with its number or for its dots; it does not
refuse it for its slashes. -/
theorem rejects_malformed (config : Config) (events : List Event)
    (call : PathCall α) (walks : call.walks = true)
    (valid : call.Valid ((fresh config).after (events.map Event.run)))
    (malformed : Malformed path) :
    ((fresh config).after (events.map Event.run)).Rejects call path := by
  have sound := (sound_fresh config).after events
  generalize (fresh config).after (events.map Event.run) = ns at valid sound ⊢
  have hrun {error : Error} (h : readNames ns.table.view path = .error error) :
      call.run path ns = .error error (call.drawn ns) :=
    run_of_refused sound call walks valid h
  constructor
  case plain =>
    intro plain
    exact hrun (readNames_eq_error.2 (.inr ⟨path,
      resolveReserved_of_plain plain, components_of_malformed malformed⟩))
  case unnumbered =>
    intro number rest cause numbers parsed
    exact hrun
      (readNames_eq_error.2 (.inl (numbers.resolveReserved_of_error parsed)))
  case gone =>
    intro number rest id numbers parsed gone
    exact hrun (readNames_eq_error.2
      (.inl (resolveReserved_of_gone numbers sound parsed gone)))
  case dotted =>
    rintro number rest id numbers parsed live level ⟨part, mem, bad⟩
    obtain ⟨text, htext, hrefused⟩ :=
      readNames_of_dotted numbers sound parsed live level mem bad
    exact ⟨text, htext, hrun hrefused⟩
  case respelled =>
    intro number rest id numbers parsed live plain
    refine ⟨fun level => ?_, ?_⟩
    · exact numbers.not_malformed_respelled parsed (plain.resolve_left level)
    · refine (coincide_respelled numbers sound parsed live
        fun hdots => ?_).agrees call
      refine plain.resolve_right fun hall => ?_
      exact absurd (hall dotDot hdots) (by decide)

def directoryRun : List Event :=
  [.call (.mkdirs "/a" {})]

theorem rejects_directoryRun :
    Malformed "/a//b" ∧ Malformed "//.reserved/.inodes/2" ∧
      addBlock "/a//b" "c" [] ((fresh {}).after (directoryRun.map Event.run)) =
        .error (.invalidPath "/a//b") ((PathCall.addBlock "c" []).drawn
          ((fresh {}).after (directoryRun.map Event.run))) ∧
      ((fresh {}).after (directoryRun.map Event.run)).Rejects
        (.setQuota 1 Limit.none)
        "//.reserved/.inodes/2" := by
  refine ⟨by decide, by decide, ?_, ?_⟩
  · exact (rejects_malformed {} directoryRun
      (.addBlock "c" []) rfl trivial (by decide)).plain (by decide)
  · exact rejects_malformed {} directoryRun (.setQuota 1 Limit.none) rfl
      ⟨by decide, by decide, by decide⟩ (by decide)

/-- A path by number is taken without the slash in front, though no other path
is. -/
theorem not_refused_directoryRun :
    let ns := (fresh {}).after (directoryRun.map Event.run)
    Malformed ".reserved/.inodes/2" ∧ Malformed "//.reserved//.inodes/2/b" ∧
      (Outcome.answer (status ".reserved/.inodes/2" false ns)).toOption.map
        Status.id =
        some ⟨2⟩ ∧
      (Outcome.state (mkdirs "//.reserved//.inodes/2/b" {} ns)).inodeCount = 3 ∧
      Outcome.error? (status "a" false ns) = some (.invalidPath "a") := by
  decide +kernel

end Namespace

end QuotaTree
