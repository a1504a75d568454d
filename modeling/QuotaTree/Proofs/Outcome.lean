/-
When work succeeds, and what it leaves.  A request and a unit of work are both
programs that carry a state; each lemma says for one way of building such a
program under which condition it succeeds, so that a larger program is taken
apart by rewriting with them.
-/
import QuotaTree.Transaction
import Mathlib.Data.List.Forall2

namespace QuotaTree

namespace Outcome

variable {σ α β : Type} {s t : σ} {a : α} {b : β}

@[simp] theorem bind_eq_ok {x : EStateM Error σ α} {f : α → EStateM Error σ β} :
    (x >>= f) s = .ok b t ↔ ∃ a mid, x s = .ok a mid ∧ f a mid = .ok b t := by
  change EStateM.bind x f s = _ ↔ _
  unfold EStateM.bind
  cases h : x s with
  | ok a mid =>
    constructor
    · exact fun hrest => ⟨a, mid, rfl, hrest⟩
    · rintro ⟨a', mid', hfirst, hrest⟩
      cases hfirst
      exact hrest
  | error error mid => simp

theorem bind_of_ok {x : EStateM Error σ α} {f : α → EStateM Error σ β}
    (h : x s = .ok a t) : (x >>= f) s = f a t := by
  change EStateM.bind x f s = _
  rw [EStateM.bind, h]

theorem bind_of_error {x : EStateM Error σ α} {f : α → EStateM Error σ β}
    {error : Error} (h : x s = .error error t) :
    (x >>= f) s = .error error t := by
  change EStateM.bind x f s = _
  rw [EStateM.bind, h]

theorem tryCatch_of_ok {x : EStateM Error σ α}
    {handler : Error → EStateM Error σ α} (h : x s = .ok a t) :
    (tryCatch x handler) s = .ok a t := by
  change EStateM.tryCatch x handler s = _
  rw [EStateM.tryCatch, h]

/-- What was done up to the error stays done. -/
theorem tryCatch_of_error {x : EStateM Error σ α}
    {handler : Error → EStateM Error σ α} {error : Error}
    (h : x s = .error error t) : (tryCatch x handler) s = handler error t := by
  change EStateM.tryCatch x handler s = _
  rw [EStateM.tryCatch, h]
  rfl

/-- A program fails in its first part, or in the rest after that part has
succeeded. -/
theorem bind_eq_error {x : EStateM Error σ α} {f : α → EStateM Error σ β}
    {error : Error} :
    (x >>= f) s = .error error t ↔
      x s = .error error t ∨ ∃ a mid, x s = .ok a mid ∧
      f a mid = .error error t := by
  change EStateM.bind x f s = _ ↔ _
  unfold EStateM.bind
  cases h : x s with
  | ok a mid => simp
  | error cause mid => simp

@[simp] theorem pure_eq_ok {b : α} :
    (pure a : EStateM Error σ α) s = .ok b t ↔ a = b ∧ s = t := by
  change EStateM.Result.ok a s = _ ↔ _
  simp

@[simp] theorem throw_ne_ok {error : Error} :
    ¬ (throw error : EStateM Error σ α) s = .ok a t := by
  intro h
  cases h

@[simp] theorem throw_bind {error : Error} {f : α → EStateM Error σ β} :
    ((throw error : EStateM Error σ α) >>= f) = throw error :=
  rfl

@[simp] theorem map_eq_ok {f : α → β} {x : EStateM Error σ α} :
    (f <$> x) s = .ok b t ↔ ∃ a, x s = .ok a t ∧ f a = b := by
  change EStateM.map f x s = _ ↔ _
  unfold EStateM.map
  cases h : x s with
  | ok a mid =>
    constructor
    · intro hmap
      cases hmap
      exact ⟨a, rfl, rfl⟩
    · rintro ⟨a', hfirst, rfl⟩
      cases hfirst
      rfl
  | error error mid => simp

@[simp] theorem ite_eq_ok {p : Prop} [Decidable p] {x y : EStateM Error σ α} :
    (if p then x else y) s = .ok a t ↔
    (if p then x s = .ok a t else y s = .ok a t) := by
  by_cases h : p <;> simp [h]

/-- A first step that is taken on a condition. -/
theorem when_eq_ok {p : Prop} [Decidable p] {x : EStateM Error σ PUnit}
    {rest : EStateM Error σ α} :
    (if p then (x >>= fun _ => rest) else rest) s = .ok a t ↔
      ∃ mid, (if p then x s = .ok ⟨⟩ mid else mid = s) ∧
        rest mid = .ok a t := by
  by_cases h : p
  · simp only [h, if_true, bind_eq_ok]
    constructor
    · rintro ⟨_, mid, hfirst, hrest⟩
      exact ⟨mid, hfirst, hrest⟩
    · rintro ⟨mid, hfirst, hrest⟩
      exact ⟨⟨⟩, mid, hfirst, hrest⟩
  · simp [h]

/-- A first step that is taken on a condition can fail only then. -/
theorem when_eq_error {p : Prop} [Decidable p] {x : EStateM Error σ PUnit}
    {rest : EStateM Error σ α} {error : Error} :
    (if p then (x >>= fun _ => rest) else rest) s = .error error t ↔
      (p ∧ x s = .error error t) ∨
        ∃ mid, (if p then x s = .ok ⟨⟩ mid else mid = s) ∧
          rest mid = .error error t := by
  by_cases h : p
  · simp only [h, if_true, true_and, bind_eq_error]
    constructor
    · rintro (hfirst | ⟨_, mid, hfirst, hrest⟩)
      · exact .inl hfirst
      · exact .inr ⟨mid, hfirst, hrest⟩
    · rintro (hfirst | ⟨mid, hfirst, hrest⟩)
      · exact .inl hfirst
      · exact .inr ⟨⟨⟩, mid, hfirst, hrest⟩
  · simp [h]

@[simp] theorem get_eq_ok {found : σ} :
    (get : EStateM Error σ σ) s = .ok found t ↔ found = s ∧ t = s := by
  change EStateM.Result.ok s s = _ ↔ _
  simp [eq_comm]

/-- Work that begins by looking at the state goes on from there. -/
@[simp] theorem get_bind {f : σ → EStateM Error σ α} :
    ((get : EStateM Error σ σ) >>= f) s = f s s :=
  rfl

@[simp] theorem set_eq_ok {new : σ} {value : PUnit} :
    (set new : EStateM Error σ PUnit) s = .ok value t ↔ t = new := by
  change EStateM.Result.ok PUnit.unit new = _ ↔ _
  simp [eq_comm]

@[simp] theorem modify_eq_ok {f : σ → σ} {value : PUnit} :
    (modify f : EStateM Error σ PUnit) s = .ok value t ↔ t = f s := by
  change EStateM.Result.ok PUnit.unit (f s) = _ ↔ _
  simp [eq_comm]

@[simp] theorem ofExcept_eq_ok {x : Except Error α} :
    (ofExcept x : EStateM Error σ α) s = .ok a t ↔ x = .ok a ∧ t = s := by
  cases x with
  | error error =>
    change EStateM.Result.error error s = _ ↔ _
    simp
  | ok value =>
    change EStateM.Result.ok value s = _ ↔ _
    simp [eq_comm]

@[simp] theorem discard_eq_ok {x : EStateM Error σ α} {value : PUnit} :
    (discard x : EStateM Error σ PUnit) s = .ok value t ↔
    ∃ a, x s = .ok a t := by
  unfold discard
  change EStateM.map (Function.const α PUnit.unit) x s = _ ↔ _
  unfold EStateM.map
  cases h : x s <;> simp

theorem discard_of_error {x : EStateM Error σ α} {error : Error}
    (h : x s = .error error t) :
    (discard x : EStateM Error σ PUnit) s = .error error t := by
  change EStateM.map (Function.const α PUnit.unit) x s = _
  rw [EStateM.map, h]

/-- What never fails does not add to the errors of what it comes after. -/
theorem error_bind_iff {x : EStateM Error σ α} {f : α → EStateM Error σ β}
    {error : Error} (sure : ∀ a t, ∃ b t', f a t = .ok b t') :
    (∃ t, (x >>= f) s = .error error t) ↔ ∃ t, x s = .error error t := by
  change (∃ t, EStateM.bind x f s = _) ↔ _
  unfold EStateM.bind
  cases x s with
  | ok a mid =>
    obtain ⟨b, t, h⟩ := sure a mid
    simp [h]
  | error cause mid => simp

/-- An error is caught only to do something else; the answer is then that of the
handler. -/
theorem tryCatch_eq_ok {x : EStateM Error σ α}
    {handler : Error → EStateM Error σ α} :
    (tryCatch x handler) s = .ok a t ↔
      x s = .ok a t ∨ ∃ error mid, x s = .error error mid ∧
      handler error mid = .ok a t := by
  change EStateM.tryCatch x handler s = _ ↔ _
  unfold EStateM.tryCatch
  cases h : x s with
  | ok value mid => simp
  | error error mid =>
    simp only [reduceCtorEq, false_or]
    constructor
    · exact fun hhandler => ⟨error, mid, rfl, hhandler⟩
    · rintro ⟨error', mid', hfirst, hhandler⟩
      cases hfirst
      exact hhandler

def error? : EStateM.Result Error σ α → Option Error
  | .ok _ _ => none
  | .error error _ => some error

theorem error?_eq_some {result : EStateM.Result Error σ α} {error : Error} :
    error? result = some error ↔ ∃ state, result = .error error state := by
  cases result <;> simp [error?]

theorem error?_eq_none {result : EStateM.Result Error σ α} :
    error? result = none ↔ ∃ a state, result = .ok a state := by
  cases result <;> simp [error?]

def answer : EStateM.Result Error σ α → Except Error α
  | .ok a _ => .ok a
  | .error error _ => .error error

theorem exists_of_isOk {result : EStateM.Result Error σ α}
    (h : (answer result).isOk = true) : ∃ a state, result = .ok a state := by
  cases result with
  | ok a state => exact ⟨a, state, rfl⟩
  | error error state => cases h

theorem exists_of_answer {result : EStateM.Result Error σ α}
    (h : answer result = .ok a) : ∃ state, result = .ok a state := by
  cases result with
  | ok a state => exact ⟨state, Except.ok.inj h ▸ rfl⟩
  | error error state => cases h

end Outcome

namespace Outcome

variable {α β : Type}

/-- Readings answer without a state. -/
@[simp] theorem except_bind_eq_ok {x : Except Error α} {f : α → Except Error β}
    {b : β} : (x >>= f) = .ok b ↔ ∃ a, x = .ok a ∧ f a = .ok b := by
  cases x <;> simp [bind, Except.bind]

@[simp] theorem except_pure_eq_ok {a b : α} :
    (pure a : Except Error α) = .ok b ↔ a = b := by
  simp [pure, Except.pure]

@[simp] theorem except_throw_ne_ok {error : Error} {a : α} :
    ¬ (throw error : Except Error α) = .ok a := by
  intro h
  cases h

@[simp] theorem except_map_eq_ok {f : α → β} {x : Except Error α} {b : β} :
    (f <$> x) = .ok b ↔ ∃ a, x = .ok a ∧ f a = b := by
  cases x <;> simp [Functor.map, Except.map]

/-- A list of readings succeeds with the list of their answers. -/
theorem except_mapM_eq_ok {f : α → Except Error β} {list : List α}
    {answers : List β} : list.mapM f = .ok answers ↔
    List.Forall₂ (fun a b => f a = .ok b) list answers := by
  induction list generalizing answers with
  | nil => cases answers <;> simp [pure, Except.pure]
  | cons head tail ih =>
    rw [List.mapM_cons]
    simp only [except_bind_eq_ok, except_pure_eq_ok, List.forall₂_cons_left_iff,
      ih]
    constructor
    · rintro ⟨b, hhead, rest, htail, rfl⟩
      exact ⟨b, rest, hhead, htail, rfl⟩
    · rintro ⟨b, rest, hhead, htail, rfl⟩
      exact ⟨b, hhead, rest, htail, rfl⟩

/-- Every reading of the list has its answer among the answers. -/
theorem exists_answer_of_mapM {f : α → Except Error β} {list : List α}
    {answers : List β} {a : α} (h : list.mapM f = .ok answers)
    (mem : a ∈ list) : ∃ b ∈ answers, f a = .ok b := by
  have hall := except_mapM_eq_ok.1 h
  clear h
  induction hall with
  | nil => cases mem
  | @cons head b tail answers hhead _ ih =>
    rcases List.mem_cons.1 mem with rfl | mem
    · exact ⟨b, List.mem_cons_self, hhead⟩
    · obtain ⟨b, hb, hanswer⟩ := ih mem
      exact ⟨b, List.mem_cons_of_mem _ hb, hanswer⟩

end Outcome

end QuotaTree
