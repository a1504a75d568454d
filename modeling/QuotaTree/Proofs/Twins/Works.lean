/-
Doing the same work twice, on trees that differ at most in what their quotas
have cached.  Both keep quotas, so that each of them may refuse what the other
allows. Where both succeed they have done the same, because either could have
been done again on one and the same tree that keeps none.
-/
import QuotaTree.Proofs.Replay.Retrace
import QuotaTree.Proofs.Work.Recount

namespace QuotaTree

open Outcome (Mirrors)

/-- Directories that match a third under the same identities match each
other. -/
theorem Directory.Matches.euclidean {left right new : Directory}
    (h : left.Matches .same new) (h' : right.Matches .same new) :
    left.Matches .same right where
  children name := rel_euclidean (fun ha hb => ha.trans hb.symm)
    (h.children name) (h'.children name)
  limits := h.limits.trans h'.limits.symm
  policy := h.policy.trans h'.policy.symm

theorem Content.Matches.euclidean {left right new : Content}
    (h : left.Matches .same new) (h' : right.Matches .same new) :
    left.Matches .same right := by
  cases h with
  | directory directories =>
    cases h' with
    | directory directories' =>
      exact .directory (directories.euclidean directories')
  | file file =>
    cases h'
    exact .file file
  | symlink target =>
    cases h'
    exact .symlink target

theorem Inode.Matches.euclidean {left right new : Inode}
    (h : left.Matches .same new) (h' : right.Matches .same new) :
    left.Matches .same right where
  id := h.id.trans h'.id.symm
  name := h.name.trans h'.name.symm
  parent := rel_euclidean (fun ha hb => ha.trans hb.symm) h.parent h'.parent
  permission := h.permission.trans h'.permission.symm
  content := h.content.euclidean h'.content

namespace Nodes.Matches

variable {left right new : Nodes}

theorem euclidean (h : left.Matches .same new) (h' : right.Matches .same new) :
    left.Matches .same right where
  at_pair {a b} hab := by
    obtain rfl : a = b := hab
    exact rel_euclidean .euclidean (h.at_pair rfl) (h'.at_pair rfl)
  left_total {a _} _ := ⟨a, rfl⟩
  right_total {b _} _ := ⟨b, rfl⟩

theorem symm (h : left.Matches .same right) : right.Matches .same left :=
  (Nodes.matches_same right).euclidean h

end Nodes.Matches

namespace Chain

theorem matches_same : ∀ chain : Chain, chain.Matches .same chain
  | .root => .root
  | .child parent _ _ => .child parent.matches_same rfl

theorem Matches.eq {left right : Chain} (chains : left.Matches .same right) :
    left = right := by
  induction chains with
  | root => rfl
  | child _ ids ih => rw [ih, show _ = _ from ids]

theorem Found.eq {left right : Chain × List Name}
    (found : Found .same left right) : left = right :=
  Prod.ext found.chains.eq found.rest

end Chain

/-- Transactions that have written the same edits, and whose further work could
be done again on one tree. -/
structure Transaction.Twins (left right : Transaction) : Prop where
  edits : left.edits = right.edits
  again : ∃ again, left.Matches .same again ∧ right.Matches .same again

namespace Transaction.Twins

variable {left right : Transaction} (twins : left.Twins right)

include twins

theorem nodes : left.tree.Matches .same right.tree := by
  obtain ⟨again, hleft, hright⟩ := twins.again
  exact hleft.nodes.euclidean hright.nodes

theorem next : left.base.table.next = right.base.table.next := by
  obtain ⟨again, hleft, hright⟩ := twins.again
  exact (hleft.fresh 0).trans (hright.fresh 0).symm

end Transaction.Twins

namespace Work

variable {α β γ δ ε : Type} {Q : α → β → Prop} {R : γ → δ → Prop}
  {edits : List Edit} {chain : Chain}

/-- Where both works succeed their answers are related, and they have done the
same. -/
def Concurs (Q : α → β → Prop) (work : Work α) (other : Work β) : Prop :=
  ∀ left right, Transaction.Twins left right →
    ∀ a left' b right', work left = .ok a left' →
    other right = .ok b right' → Q a b ∧ left'.Twins right'

namespace Concurs

theorem pure {a : α} {b : β} (h : Q a b) :
    Concurs Q (Pure.pure a) (Pure.pure b) := by
  intro left right twins a' left' b' right' ha hb
  obtain ⟨rfl, rfl⟩ := Outcome.pure_eq_ok.1 ha
  obtain ⟨rfl, rfl⟩ := Outcome.pure_eq_ok.1 hb
  exact ⟨h, twins⟩

theorem throw (error : Error) (other : Work β) :
    Concurs Q (MonadExcept.throw error : Work α) other := by
  intro left right _ a left' b right' ha _
  cases ha

theorem bind {work : Work α} {other : Work β} {next : α → Work γ}
    {next' : β → Work δ} (first : Concurs Q work other)
    (rest : ∀ {a b}, Q a b → Concurs R (next a) (next' b)) :
    Concurs R (work >>= next) (other >>= next') := by
  intro left right twins c left' d right' hc hd
  obtain ⟨a, mid, ha, hnext⟩ := Outcome.bind_eq_ok.1 hc
  obtain ⟨b, mid', hb, hnext'⟩ := Outcome.bind_eq_ok.1 hd
  obtain ⟨hab, twins'⟩ := first left right twins a mid b mid' ha hb
  exact rest hab mid mid' twins' c left' d right' hnext hnext'

theorem ite {c : Prop} [Decidable c] {work work' : Work α}
    {other other' : Work β} (first : c → Concurs Q work other)
    (second : ¬ c → Concurs Q work' other') :
    Concurs Q (if c then work else work') (if c then other else other') := by
  split
  next h => exact first h
  next h => exact second h

/-- What both works can be done again as, they have both done. -/
theorem of_repeats {P : α → ε → Prop} {P' : β → ε → Prop} {work : Work α}
    {other : Work β} {again : Work ε} (first : Repeats .same P edits work again)
    (second : Repeats .same P' edits other again)
    (common : ∀ {a b e}, P a e → P' b e → Q a b) : Concurs Q work other := by
  intro left right ⟨hedits, again, hleft, hright⟩ a left' b right' ha hb
  obtain ⟨e, last, he, hae, matched, hmore⟩ := first left again hleft a left' ha
  obtain ⟨e', last', he', hbe, matched', hmore'⟩ :=
    second right again hright b right' hb
  cases he.symm.trans he'
  exact ⟨common hae hbe,
    ⟨by rw [hmore, hmore', hedits], last, matched, matched'⟩⟩

/-- One work that can be done again with an answer that belongs to no other. -/
theorem repeated {P : α → ε → Prop} {work : Work α} {again : Work ε}
    (repeats : Repeats .same P edits work again)
    (only : ∀ {a b e}, P a e → P b e → a = b) : Concurs Eq work work :=
  of_repeats repeats repeats only

theorem done {work : Work Unit} {P : Unit → Unit → Prop}
    (repeats : Repeats .same P edits work work) : Concurs Eq work work :=
  repeated repeats fun _ _ => rfl

/-- The same reading of the tree. -/
theorem read {reading : View → Except Error α} {P : α → α → Prop}
    (mirrors : ∀ {left right}, View.Matches .same left right →
      Mirrors P (reading left) (reading right))
    (same : ∀ {a b}, P a b → a = b) :
    Concurs Eq (Work.read reading) (Work.read reading) :=
  repeated (.read mirrors) fun ha hb => (same ha).trans (same hb).symm

theorem get (id : InodeId) :
    Concurs (Inode.Matches .same) (Work.get id) (Work.get id) :=
  of_repeats (.get rfl) (.get rfl) .euclidean

theorem resolveExisting (path : String) (following : Bool) :
    Concurs Eq (Work.read (Chain.resolveExisting · path following))
      (Work.read (Chain.resolveExisting · path following)) :=
  read (fun views => Chain.mirrors_resolveExisting views following)
    Chain.Found.eq

theorem resolve (path : String) (following : Bool) :
    Concurs Eq (Work.read (Chain.resolve · path following))
      (Work.read (Chain.resolve · path following)) :=
  read (fun views => Chain.mirrors_resolve views following) Chain.Matches.eq

theorem makePath (path : String) (permission : Permission) :
    Concurs Eq (Work.makePath path permission)
      (Work.makePath path permission) := by
  refine (resolveExisting path false).bind fun {found _} same => ?_
  subst same
  obtain ⟨chain, rest⟩ := found
  cases rest with
  | nil =>
    refine (get chain.last).bind fun inodes => ?_
    rw [inodes.isDirectory]
    exact ite (fun _ => pure rfl) fun _ => throw _ _
  | cons name rest =>
    exact done ((Repeats.makeDirectories permission chain.matches_same _).bind
      fun _ => Repeats.journal _ _)

theorem deletePath (path : String) (recursive : Bool) :
    Concurs Eq (Work.deletePath path recursive)
      (Work.deletePath path recursive) := by
  refine (resolveExisting path false).bind fun {found _} same => ?_
  subst same
  obtain ⟨chain, rest⟩ := found
  cases rest with
  | nil =>
    simp only [map_eq_pure_bind]
    refine bind (repeated (.deleteTree chain.matches_same path recursive)
      fun ha hb => ha.trans hb.symm) fun same => ?_
    exact pure (congrArg some same)
  | cons name rest => exact pure rfl

theorem renamePath (source destination : String) :
    Concurs Eq (Work.renamePath source destination)
      (Work.renamePath source destination) := by
  refine (resolve source false).bind fun {chain _} same => ?_
  subst same
  split
  next => exact throw _ _
  next sourceParent _ =>
    refine (resolveExisting destination false).bind fun {found _} same => ?_
    subst same
    obtain ⟨existing, rest⟩ := found
    refine (get existing.last).bind fun {inode inode'} inodes => ?_
    simp only [inodes.isDirectory]
    refine bind (repeated (.answer (.refl _)) fun ha hb => ha.trans hb.symm)
      fun {place _} same => ?_
    subst same
    cases place with
    | here => exact pure rfl
    | into parent name =>
      simp only [Outcome.throw_bind]
      refine ite (fun _ => throw _ _) fun _ => ?_
      refine ite (fun _ => pure rfl) fun _ => ?_
      exact done ((Repeats.move chain.matches_same sourceParent.matches_same
        parent.matches_same name).bind fun _ => Repeats.journal _ _)

theorem abandonAt (client : String) (block : Nat) (chain : Chain) :
    Concurs Eq (Work.abandonAt client block chain)
      (Work.abandonAt client block chain) := by
  have leased :
      Concurs (fun x y => x.Matches .same y) (Work.leased chain client)
        (Work.leased chain client) :=
    of_repeats (.leased chain.matches_same client)
      (.leased chain.matches_same client) fun ha hb => ha.euclidean hb
  refine leased.bind fun {inode inode'} inodes => ?_
  simp only [inodes.asFile]
  split
  next => exact pure rfl
  next info _ =>
    refine bind (repeated (.dropBlockIfLast chain.matches_same block)
      fun ha hb => ha.trans hb.symm) fun {dropped _} same => ?_
    subst same
    cases dropped with
    | false => exact pure rfl
    | true => exact bind (done (.journal _ _)) fun _ => pure rfl

theorem truncateAt (path : String) (length : Int) (chain : Chain) :
    Concurs Eq (Work.truncateAt path length chain)
      (Work.truncateAt path length chain) := by
  refine (get chain.last).bind fun {inode inode'} inodes => ?_
  simp only [inodes.asFile]
  split
  · exact throw _ _
  · split
    · exact throw _ _
    next file _ _ _ =>
      simp only [Outcome.throw_bind]
      refine ite (fun _ => throw _ _) fun _ => ?_
      refine ite (fun _ => throw _ _) fun _ => ?_
      refine ite (fun _ => pure rfl) fun _ => ?_
      have put :
          Concurs (fun _ _ => True)
            (Work.put (inode.withFile (file.truncate length.toNat).1))
            (Work.put (inode'.withFile (file.truncate length.toNat).1)) :=
        of_repeats (.put (inodes.withFile _))
          (.put (inode'.matches_same.withFile _)) fun _ _ => trivial
      refine put.bind fun _ => ?_
      refine (done (.accountAbove _ _ _ _ _ _)).bind fun _ => ?_
      exact (done (.journal _ _)).bind fun _ => pure rfl

end Concurs

end Work

/-- What two reports have to say about the tree alone. -/
structure RecountReport.Agrees (left right : RecountReport) : Prop where
  directories : left.directories = right.directories
  violations : left.violations = right.violations

structure Recounted.Agrees (left right : Recounted) : Prop where
  used : left.used = right.used
  report : left.report.Agrees right.report

namespace RecountReport.Agrees

theorem add {first first' second second' : RecountReport}
    (early : first.Agrees first') (late : second.Agrees second') :
    (first.add second).Agrees (first'.add second') where
  directories := congrArg₂ _ early.directories late.directories
  violations := congrArg₂ _ early.violations late.violations

theorem ofQuota {quota quota' : Quota} (limits : quota.limits = quota'.limits)
    (pending pending' used : Counts) :
    (RecountReport.ofQuota quota pending used).Agrees
      (.ofQuota quota' pending' used) where
  directories := rfl
  violations := by
    simp only [RecountReport.ofQuota, limits]

theorem eq {left right : RecountReport} (agrees : left.Agrees right)
    (same : left.inconsistencies = right.inconsistencies) : left = right := by
  obtain ⟨hdirectories, hviolations⟩ := agrees
  cases left
  cases right
  simp_all

end RecountReport.Agrees

theorem Recounted.Agrees.foldl {parts parts' : List Recounted}
    {start start' : Recounted}
    (all : List.Forall₂ Recounted.Agrees parts parts')
    (first : start.Agrees start') :
    (parts.foldl Recounted.add start).Agrees
      (parts'.foldl Recounted.add start') := by
  induction all generalizing start start' with
  | nil => exact first
  | cons head _ ih =>
    exact ih ⟨congrArg₂ (· + ·) first.used head.used,
      first.report.add head.report⟩

theorem Inode.Matches.withQuota {p : Pairing} {inode inode' : Inode}
    {quota quota' : Quota} (inodes : inode.Matches p inode')
    (limits : quota.limits = quota'.limits) :
    (inode.withQuota quota).Matches p (inode'.withQuota quota') := by
  rcases inodes.kinds with ⟨directory, directory', h, h', directories⟩ |
    ⟨file, h, h'⟩ | ⟨target, h, h'⟩ <;> simp only [Inode.withQuota, h, h']
  · exact inodes.withDirectory ⟨directories.children, congrArg some limits,
      directories.policy⟩
  · exact inodes
  · exact inodes

namespace Work

variable {p : Pairing} {a b : InodeId}

/-- Recounting finds the same usage and the same quotas, whatever was cached and
pending. -/
theorem Repeats.recount (depth : Nat) (ids : p a b) : Repeats p Recounted.Agrees
    [] (Work.recount depth a) (Work.recount depth b) := by
  induction depth generalizing a b with
  | zero => exact throw _ _
  | succ depth ih =>
    refine (get ids).bind fun {inode inode'} inodes => ?_
    refine (pendingFor _ _).bind fun _ => ?_
    refine (mapM inodes.children ih).bind fun {parts parts'} all => ?_
    have whole (pending pending' : Counts) :
        (parts.foldl Recounted.add { used := inode.ownUsage, pending }).Agrees
          (parts'.foldl
            Recounted.add { used := inode'.ownUsage, pending := pending' }) :=
      .foldl all ⟨inodes.ownUsage, rfl, rfl⟩
    have quotas := rel_of_map_eq inodes.limits
    cases hleft : inode.quota with
    | none =>
      rw [right_none_of_rel quotas hleft]
      exact pure (whole _ _)
    | some quota =>
      obtain ⟨quota', hright, same⟩ := exists_right_of_rel quotas hleft
      rw [hright]
      have stored (cached cached' : Counts) :
          (inode.withQuota { quota with cached }).Matches p
            (inode'.withQuota { quota' with cached := cached' }) :=
        inodes.withQuota same
      refine (put (stored _ _)).bind fun _ => pure ⟨(whole _ _).used, ?_⟩
      rw [← (whole _ _).used]
      exact (whole _ _).report.add (.ofQuota same _ _ _)

theorem Repeats.clearLedger :
    Repeats p (fun _ _ => True) [] Work.clearLedger Work.clearLedger := by
  intro left right matched _ left' h
  cases h
  exact ⟨⟨⟩, { right with clearing := true }, rfl, trivial,
    ⟨matched.nodes, matched.allows, matched.fresh, matched.behind, matched.size,
      matched.written, matched.writes, matched.config, matched.replaying⟩,
    (List.append_nil _).symm⟩

theorem Repeats.recountAll :
    Repeats p RecountReport.Agrees [] Work.recountAll Work.recountAll := by
  refine maxDepth.bind fun {depth _} same => ?_
  subst same
  refine (recount depth p.root).bind fun whole => ?_
  exact clearLedger.bind fun _ => pure whole.report

end Work

end QuotaTree
