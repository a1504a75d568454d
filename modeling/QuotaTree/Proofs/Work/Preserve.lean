/-
What a unit of work preserves when it succeeds and what its answer is like, told
from its parts.
-/
import QuotaTree.Proofs.Work.Steps

namespace QuotaTree

namespace Work

variable {α β : Type} {holds : Transaction → Prop} {good : α → Prop}
  {better : β → Prop}

/-- Work after which, when it succeeds, what held before it holds again, and
whose answer is of a kind. -/
def Ensures (holds : Transaction → Prop) (work : Work α) (good : α → Prop) :
    Prop :=
  ∀ tx a tx', holds tx → work tx = .ok a tx' → holds tx' ∧ good a

abbrev Preserves (holds : Transaction → Prop) (work : Work α) : Prop :=
  Ensures holds work fun _ => True

namespace Ensures

theorem pure {a : α} (h : good a) :
    Ensures holds (Pure.pure a : Work α) good := by
  intro tx b tx' held hpure
  obtain ⟨rfl, rfl⟩ := Outcome.pure_eq_ok.1 hpure
  exact ⟨held, h⟩

theorem throw (error : Error) :
    Ensures holds (MonadExcept.throw error : Work α) good :=
  fun _ _ _ _ h => absurd h Outcome.throw_ne_ok

theorem bind {work : Work α} {next : α → Work β}
    (first : Ensures holds work good)
    (rest : ∀ a, good a → Ensures holds (next a) better) :
    Ensures holds (work >>= next) better := by
  intro tx b tx' held h
  obtain ⟨a, mid, hfirst, hrest⟩ := Outcome.bind_eq_ok.1 h
  obtain ⟨hmid, ha⟩ := first tx a mid held hfirst
  exact rest a ha mid b tx' hmid hrest

/-- What follows does not depend on what the answer is like. -/
theorem andThen {work : Work α} {next : α → Work β}
    (first : Preserves holds work) (rest : ∀ a, Ensures holds (next a) better) :
    Ensures holds (work >>= next) better :=
  first.bind fun a _ => rest a

theorem map {work : Work α} {f : α → β}
    (ensures : Ensures holds work fun a => better (f a)) :
    Ensures holds (f <$> work) better := by
  rw [map_eq_pure_bind]
  exact ensures.bind fun _ h => pure h

theorem ite {p : Prop} [Decidable p] {left right : Work α}
    (hleft : p → Ensures holds left good)
    (hright : ¬ p → Ensures holds right good) :
    Ensures holds (if p then left else right) good := by
  split
  next h => exact hleft h
  next h => exact hright h

/-- Work that is refused on a condition. -/
theorem guarded {p : Prop} [Decidable p] {error : Error} {rest : PUnit → Work α}
    (accepted : ¬ p → Ensures holds (rest ⟨⟩) good) :
    Ensures holds (if p then MonadExcept.throw error >>= rest
      else rest ⟨⟩) good := by
  split
  next =>
    rw [Outcome.throw_bind]
    exact throw error
  next h => exact accepted h

/-- Work that is accepted only on a condition. -/
theorem required {p : Prop} [Decidable p] {error : Error}
    {rest : PUnit → Work α} (accepted : p → Ensures holds (rest ⟨⟩) good) :
    Ensures holds
      (if p then rest ⟨⟩ else MonadExcept.throw error >>= rest) good := by
  split
  next h => exact accepted h
  next =>
    rw [Outcome.throw_bind]
    exact throw error

/-- A step that is taken on a condition. -/
theorem optional {p : Prop} [Decidable p] {first : Work PUnit} {rest : Work α}
    (hfirst : Preserves holds first) (hrest : Ensures holds rest good) :
    Ensures holds (if p then first >>= fun _ => rest else rest) good :=
  ite (fun _ => hfirst.bind fun _ _ => hrest) fun _ => hrest

theorem mapM {list : List α} {work : α → Work β}
    (each : ∀ a ∈ list, Ensures holds (work a) better) :
    Ensures holds (list.mapM work) fun answers => ∀ b ∈ answers, better b := by
  induction list with
  | nil => exact pure fun _ h => absurd h List.not_mem_nil
  | cons head tail ih =>
    rw [List.mapM_cons]
    refine (each head List.mem_cons_self).bind fun b hb => ?_
    refine (ih fun a ha => each a (List.mem_cons_of_mem head ha)).bind
      fun answers hanswers => ?_
    exact pure (List.forall_mem_cons.2 ⟨hb, hanswers⟩)

theorem ofExcept (x : Except Error α) :
    Ensures holds (MonadExcept.ofExcept x : Work α) fun a => x = .ok a := by
  intro tx a tx' held h
  obtain ⟨hx, rfl⟩ := Outcome.ofExcept_eq_ok.1 h
  exact ⟨held, hx⟩

theorem read (reading : View → Except Error α) :
    Preserves holds (Work.read reading) :=
  fun _ _ _ held h => ⟨(read_eq_ok.1 h).2 ▸ held, trivial⟩

theorem getState : Ensures holds (MonadState.get : Work Transaction) holds := by
  intro tx found tx' held h
  obtain ⟨rfl, rfl⟩ := Outcome.get_eq_ok.1 h
  exact ⟨held, held⟩

end Ensures

end Work

end QuotaTree
