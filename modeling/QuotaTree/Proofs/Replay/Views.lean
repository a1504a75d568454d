/-
Reading two matching trees.  What can be read of the one can be read of the
other, with a matching answer.
-/
import QuotaTree.Proofs.Replay.Pairing
import QuotaTree.Proofs.Tree.Follow
import QuotaTree.Request.Create

namespace QuotaTree

namespace Outcome

variable {α β γ δ : Type} {Q : α → β → Prop} {R : γ → δ → Prop}

/-- If the first reading succeeds so does the second, with a related answer. -/
def Mirrors (Q : α → β → Prop) (x : Except Error α) (y : Except Error β) :
    Prop :=
  ∀ a, x = .ok a → ∃ b, y = .ok b ∧ Q a b

namespace Mirrors

theorem pure {a : α} {b : β} (h : Q a b) :
    Mirrors Q (Pure.pure a) (Pure.pure b) := by
  intro a' ha
  cases ha
  exact ⟨b, rfl, h⟩

theorem throw (error : Error) (y : Except Error β) :
    Mirrors Q (MonadExcept.throw error : Except Error α) y := by
  intro a ha
  cases ha

theorem refl (x : Except Error α) : Mirrors Eq x x :=
  fun a ha => ⟨a, ha, rfl⟩

theorem bind {x : Except Error α} {y : Except Error β} {f : α → Except Error γ}
    {g : β → Except Error δ} (first : Mirrors Q x y)
    (rest : ∀ {a b}, Q a b → Mirrors R (f a) (g b)) :
    Mirrors R (x >>= f) (y >>= g) := by
  intro c hc
  obtain ⟨a, ha, hf⟩ := except_bind_eq_ok.1 hc
  obtain ⟨b, hb, hab⟩ := first a ha
  obtain ⟨d, hd, hcd⟩ := rest hab c hf
  exact ⟨d, except_bind_eq_ok.2 ⟨b, hb, hd⟩, hcd⟩

theorem map {x : Except Error α} {y : Except Error β} {f : α → γ} {g : β → δ}
    (first : Mirrors Q x y) (rest : ∀ {a b}, Q a b → R (f a) (g b)) :
    Mirrors R (f <$> x) (g <$> y) := by
  intro c hc
  obtain ⟨a, ha, rfl⟩ := except_map_eq_ok.1 hc
  obtain ⟨b, hb, hab⟩ := first a ha
  exact ⟨g b, except_map_eq_ok.2 ⟨b, hb, rfl⟩, rest hab⟩

theorem ite {c : Prop} [Decidable c] {x x' : Except Error α}
    {y y' : Except Error β} (first : c → Mirrors Q x y)
    (second : ¬ c → Mirrors Q x' y') :
    Mirrors Q (if c then x else x') (if c then y else y') := by
  split
  next h => exact first h
  next h => exact second h

theorem mapM {ε ζ : Type} {P : ε → ζ → Prop} {xs : List ε} {ys : List ζ}
    {f : ε → Except Error α} {g : ζ → Except Error β}
    (lists : List.Forall₂ P xs ys)
    (each : ∀ {x y}, P x y → Mirrors Q (f x) (g y)) :
    Mirrors (List.Forall₂ Q) (xs.mapM f) (ys.mapM g) := by
  induction lists with
  | nil => exact pure .nil
  | cons head _ ih =>
    rw [List.mapM_cons, List.mapM_cons]
    refine (each head).bind fun hhead => ?_
    refine ih.bind fun hrest => ?_
    exact pure (.cons hhead hrest)

end Mirrors

end Outcome

open Outcome (Mirrors)

theorem Inode.Matches.policy {p : Pairing} {left right : Inode}
    (inodes : left.Matches p right) : left.policy = right.policy := by
  unfold Inode.policy
  rcases inodes.kinds with ⟨_, _, h, h', directories⟩ | ⟨_, h, h'⟩ |
    ⟨_, h, h'⟩ <;> rw [h, h']
  exact directories.policy

/-- Views that show paired identities as matching inodes, as far as the first
shows anything. -/
structure View.Matches (p : Pairing) (left right : View) : Prop where
  find : ∀ {a b}, p a b →
    Mirrors (Option.Rel (Inode.Matches p)) (left.find a) (right.find b)
  size : left.size = right.size

namespace View.Matches

variable {p : Pairing} {left right : View} (views : left.Matches p right)

include views

theorem get {a b : InodeId} (ids : p a b) :
    Mirrors (Inode.Matches p) (left.get a) (right.get b) := by
  refine (views.find ids).bind fun {found found'} hfound => ?_
  cases hfound with
  | some inodes => exact .pure inodes
  | none => exact .throw _ _

theorem childrenOf {a b : InodeId} (ids : p a b) :
    Mirrors (List.Forall₂ p) (left.childrenOf a) (right.childrenOf b) :=
  (views.get ids).bind fun inodes => .pure inodes.children

theorem levels {steps : Nat} {xs ys : List InodeId}
    (lists : List.Forall₂ p xs ys) :
    Mirrors (List.Forall₂ p) (left.levels steps xs)
      (right.levels steps ys) := by
  induction steps generalizing xs ys with
  | zero =>
    cases lists with
    | nil => exact .pure .nil
    | cons => exact .throw _ _
  | succ steps ih =>
    cases lists with
    | nil => exact .pure .nil
    | cons head tail =>
      rw [View.levels.eq_3 _ _ _ (by simp), View.levels.eq_3 _ _ _ (by simp)]
      have lists := List.Forall₂.cons head tail
      refine (Mirrors.mapM lists views.childrenOf).bind fun below => ?_
      exact (ih (List.rel_flatten below)).bind fun deeper =>
        .pure (List.rel_append lists deeper)

theorem subtree {a b : InodeId} (ids : p a b) :
    Mirrors (List.Forall₂ p) (left.subtree a) (right.subtree b) := by
  unfold View.subtree
  rw [views.size]
  exact views.levels (.cons ids .nil)

theorem usage {a b : InodeId} (ids : p a b) :
    Mirrors Eq (left.usage a) (right.usage b) := by
  refine (views.subtree ids).bind fun {xs ys} lists => ?_
  have husages :
      Mirrors (List.Forall₂ Eq) (xs.mapM fun x => Inode.ownUsage <$> left.get x)
        (ys.mapM fun y => Inode.ownUsage <$> right.get y) := Mirrors.mapM lists
    fun hpair => (views.get hpair).map fun inodes => inodes.ownUsage
  refine husages.bind fun h => .pure ?_
  rw [List.forall₂_eq_eq_eq] at h
  rw [h]

end View.Matches

namespace Chain

/-- What a walk has found, in two matching trees. -/
structure Found (p : Pairing) (left right : Chain × List Name) : Prop where
  chains : left.1.Matches p right.1
  rest : left.2 = right.2

variable {p : Pairing} {left right : View} {chain chain' : Chain}
  {path path' : String} {names : List Name} {hops : Nat}

theorem mirrors_descend (views : left.Matches p right)
    (chains : chain.Matches p chain') :
    Mirrors (Found p) (descend left path chain names)
      (descend right path' chain' names) := by
  induction names generalizing chain chain' with
  | nil => exact .pure ⟨chains, rfl⟩
  | cons name rest ih =>
    rw [descend, descend]
    refine (views.get chains.last).bind fun inodes => ?_
    rcases inodes.kinds with ⟨directory, directory', h, h', directories⟩ |
      ⟨_, h, h'⟩ | ⟨_, h, h'⟩
    · rw [h, h']
      dsimp only
      have hchild := directories.children name
      generalize directory.children[name]? = child at hchild
      generalize directory'.children[name]? = child' at hchild
      cases hchild with
      | some ids => exact ih (.child chains ids)
      | none => exact .pure ⟨chains, rfl⟩
    · rw [h, h']
      exact .pure ⟨chains, rfl⟩
    · rw [h]
      exact .throw _ _

theorem Matches.targetPath (chains : chain.Matches p chain') (target : String) :
    chain.targetPath target = chain'.targetPath target := by
  unfold Chain.targetPath
  cases chains with
  | root => rfl
  | child parents =>
    simp only [Chain.parent?, parents.path]

theorem mirrors_arrive (views : left.Matches p right)
    {found found' : Chain × List Name} (hfound : Found p found found')
    (next : ∀ {chain chain'} target, chain.Matches p chain' →
      Mirrors (Found p) (onward left path chain target hops)
        (onward right path chain' target hops)) :
    Mirrors (Found p) (arrive left hops path found.1 found.2)
      (arrive right hops path found'.1 found'.2) := by
  obtain ⟨chain, rest⟩ := found
  obtain ⟨chain', rest'⟩ := found'
  obtain ⟨chains, rfl⟩ := hfound
  cases rest with
  | cons name rest => exact .pure ⟨chains, rfl⟩
  | nil =>
    rw [arrive, arrive]
    refine (views.get chains.last).bind fun inodes => ?_
    rcases inodes.kinds with ⟨_, _, h, h', _⟩ | ⟨_, h, h'⟩ |
      ⟨target, h, h'⟩ <;> rw [h, h']
    · exact .pure ⟨chains, rfl⟩
    · exact .pure ⟨chains, rfl⟩
    · exact next target chains

theorem mirrors_follow (views : left.Matches p right) :
    Mirrors (Found p) (follow left hops path) (follow right hops path) := by
  induction hops generalizing path with
  | zero =>
    rw [follow_eq, follow_eq]
    refine (Mirrors.refl (Path.components path)).bind fun hnames => ?_
    subst hnames
    refine (mirrors_descend views .root).bind fun hfound => ?_
    exact mirrors_arrive views hfound fun target _ => .throw _ _
  | succ hops ih =>
    rw [follow_eq, follow_eq]
    refine (Mirrors.refl (Path.components path)).bind fun hnames => ?_
    subst hnames
    refine (mirrors_descend views .root).bind fun hfound => ?_
    refine mirrors_arrive views hfound fun target chains => ?_
    rw [onward, onward, chains.targetPath]
    exact ih

theorem mirrors_resolveExisting (views : left.Matches p right)
    (following : Bool) :
    Mirrors (Found p) (resolveExisting left path following)
      (resolveExisting right path following) := by
  unfold resolveExisting
  split
  · exact mirrors_follow views
  · refine (Mirrors.refl (Path.components path)).bind fun hnames => ?_
    subst hnames
    exact mirrors_descend views .root

theorem mirrors_resolve (views : left.Matches p right) (following : Bool) :
    Mirrors (Chain.Matches p) (resolve left path following)
      (resolve right path following) := by
  refine (mirrors_resolveExisting views following).bind
    fun {found found'} hfound => ?_
  obtain ⟨chain, rest⟩ := found
  obtain ⟨chain', rest'⟩ := found'
  obtain ⟨chains, rfl⟩ := hfound
  cases rest with
  | nil => exact .pure chains
  | cons => exact .throw _ _

theorem mirrors_policy (views : left.Matches p right)
    (chains : chain.Matches p chain') :
    Mirrors Eq (chain.policy left) (chain'.policy right) := by
  unfold Chain.policy
  have hancestry := chains.ancestry
  generalize chain.ancestry = above at hancestry
  generalize chain'.ancestry = above' at hancestry
  induction hancestry with
  | nil => exact .refl _
  | cons head _ ih =>
    rw [firstPolicy, firstPolicy]
    refine (views.get head.last).bind fun inodes => ?_
    rw [inodes.policy]
    split
    · exact .refl _
    · exact ih

end Chain

end QuotaTree
