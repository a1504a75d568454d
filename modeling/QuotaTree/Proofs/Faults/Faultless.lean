/-
Programs and readings that do not fail inside: if they fail at all it is for a
reason of the request, or because all identities are used up.
-/
import QuotaTree.Proofs.Outcome

namespace QuotaTree

/-- A failure inside the program, the identities being used up apart. -/
def Error.isInternal : Error → Bool
  | .fault .idsExhausted => false
  | .fault _ => true
  | _ => false

def Error.isQuota : Error → Bool
  | .quotaExceeded _ => true
  | _ => false

/-- A reading fails for a reason of the request if it fails. -/
def Harmless {α : Type} (reading : Except Error α) : Prop :=
  ∀ error, reading = .error error → error.isInternal = false

/-- What is so whenever a program that starts from a state fails, of the error
and of the state that is left. -/
def Fails {σ α : Type} (program : EStateM Error σ α) (state : σ)
    (post : Error → σ → Prop) : Prop :=
  ∀ error after, program state = .error error after → post error after

/-- A program that starts from a state fails for a reason of the request if it
fails. -/
abbrev Faultless {σ α : Type} (program : EStateM Error σ α) (state : σ) :
    Prop :=
  Fails program state fun error _ => error.isInternal = false

namespace Harmless

variable {α β : Type} {reading : Except Error α} {next : α → Except Error β}

theorem of_ok {a : α} (h : reading = .ok a) : Harmless reading := by
  rintro error rfl
  cases h

theorem pure (a : α) : Harmless (Pure.pure a : Except Error α) :=
  of_ok rfl

theorem throw {error : Error} (h : error.isInternal = false) :
    Harmless (MonadExcept.throw error : Except Error α) := by
  intro other hother
  cases hother
  exact h

theorem bind (first : Harmless reading)
    (rest : ∀ a, reading = .ok a → Harmless (next a)) :
    Harmless (reading >>= next) := by
  cases h : reading with
  | ok a => exact rest a h
  | error error => exact throw (first error h)

theorem mapM {list : List α} {f : α → Except Error β}
    (harmless : ∀ a ∈ list, Harmless (f a)) : Harmless (list.mapM f) := by
  induction list with
  | nil => exact pure []
  | cons head rest ih =>
    rw [List.mapM_cons]
    refine bind (harmless head List.mem_cons_self) fun _ _ => ?_
    exact bind (ih fun a ha => harmless a (List.mem_cons_of_mem _ ha))
      fun _ _ => pure _

end Harmless

namespace Fails

variable {σ α β : Type} {program : EStateM Error σ α}
  {next : α → EStateM Error σ β} {state : σ} {post weaker : Error → σ → Prop}

theorem mono (fails : Fails program state post)
    (h : ∀ error after, post error after → weaker error after) :
    Fails program state weaker :=
  fun error after herror => h error after (fails error after herror)

theorem of_ok {a : α} {after : σ} (h : program state = .ok a after) :
    Fails program state post := by
  intro error last hlast
  rw [h] at hlast
  cases hlast

theorem pure (a : α) (state : σ) : Fails (Pure.pure a) state post :=
  of_ok rfl

theorem throw {error : Error} (h : post error state) :
    Fails (MonadExcept.throw error : EStateM Error σ α) state post := by
  intro other after hother
  cases hother
  exact h

theorem throw_bind {error : Error} {f : β → EStateM Error σ α}
    (h : post error state) :
    Fails (MonadExcept.throw error >>= f) state post := by
  rw [Outcome.throw_bind]
  exact throw h

theorem bind (first : Fails program state post)
    (rest : ∀ a after, program state = .ok a after →
      Fails (next a) after post) :
    Fails (program >>= next) state post := by
  intro error last h
  cases hprogram : program state with
  | ok a after =>
    rw [Outcome.bind_of_ok hprogram] at h
    exact rest a after hprogram error last h
  | error cause after =>
    rw [Outcome.bind_of_error hprogram] at h
    cases h
    exact first _ _ hprogram

/-- What is known to succeed comes first. -/
theorem bind_of_ok {a : α} {after : σ} (h : program state = .ok a after)
    (rest : Fails (next a) after post) : Fails (program >>= next) state post :=
  .bind (.of_ok h) fun _ _ h' => by
    rw [h] at h'
    cases h'
    exact rest

/-- A first step without an answer that is known to succeed. -/
theorem step {first : EStateM Error σ Unit} {rest : Unit → EStateM Error σ α}
    {after : σ} (h : first state = .ok () after)
    (fails : Fails (rest ()) after post) : Fails (first >>= rest) state post :=
  bind_of_ok h fails

/-- A program that begins by looking at the state. -/
theorem get_bind {f : σ → EStateM Error σ α}
    (rest : Fails (f state) state post) :
    Fails (MonadState.get >>= f) state post :=
  bind_of_ok rfl rest

theorem ite {p : Prop} [Decidable p] {left right : EStateM Error σ α}
    (hleft : p → Fails left state post)
    (hright : ¬ p → Fails right state post) :
    Fails (if p then left else right) state post := by
  split
  next h => exact hleft h
  next h => exact hright h

/-- A program that is refused on a condition. -/
theorem guarded {p : Prop} [Decidable p] {error : Error}
    {rest : PUnit → EStateM Error σ α} (h : post error state)
    (accepted : ¬ p → Fails (rest ⟨⟩) state post) :
    Fails (if p then MonadExcept.throw error >>= rest
      else rest ⟨⟩) state post :=
  .ite (fun _ => .throw_bind h) accepted

/-- A first step that is taken on a condition. -/
theorem when {p : Prop} [Decidable p] {first : EStateM Error σ PUnit}
    {rest : EStateM Error σ α} (taken : p → Fails first state post)
    (after : ∀ mid, (if p then first state = .ok ⟨⟩ mid else mid = state) →
      Fails rest mid post) :
    Fails (if p then first >>= fun _ => rest else rest) state post := by
  split
  next h =>
    refine .bind (taken h) fun _ mid hmid => ?_
    exact after mid (by rwa [if_pos h])
  next h => exact after state (by rw [if_neg h])

theorem map {f : α → β} (fails : Fails program state post) :
    Fails (f <$> program) state post := by
  rw [map_eq_pure_bind]
  exact .bind fails fun _ _ _ => .pure _ _

theorem ofExcept {reading : Except Error α}
    (h : ∀ error, reading = .error error → post error state) :
    Fails (MonadExcept.ofExcept reading : EStateM Error σ α) state post := by
  cases hreading : reading with
  | ok a => exact .of_ok rfl
  | error error => exact .throw (h error hreading)

/-- A handler may do something of its own before it fails with the same
error. -/
theorem tryCatch {handler : Error → EStateM Error σ α}
    {caught : Error → σ → Prop} (first : Fails program state caught)
    (rest : ∀ error mid, caught error mid → Fails (handler error) mid post) :
    Fails (MonadExcept.tryCatch program handler) state post := by
  intro error last h
  change EStateM.tryCatch program handler state = .error error last at h
  cases hprogram : program state with
  | ok a after =>
    simp [EStateM.tryCatch, hprogram] at h
  | error cause mid =>
    simp only [EStateM.tryCatch, hprogram] at h
    exact rest cause mid (first _ _ hprogram) error last h

theorem discarded (fails : Fails program state post) :
    Fails (discard program) state post :=
  .map fails

end Fails

end QuotaTree
