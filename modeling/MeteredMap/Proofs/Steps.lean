import MeteredMap.Fault

/-!
# Steps of a computation

Every operation of a map is a sequence of steps, each of which succeeds or ends the run. A run that
is known to succeed is followed step by step with `ok_bind`, and a run that did succeed is taken
apart with `bind_eq_ok_iff`. Two runs whose results differ by a change that every step goes along
with are compared with `bind_eq_map_bind` and `bind_eq_map_bind_of_map`.
-/

namespace MeteredMap

variable {φ σ ρ : Type}

@[simp] theorem ok_bind (a : σ) (f : σ → Except φ ρ) : (Except.ok a >>= f) = f a := rfl

@[simp] theorem error_bind (e : φ) (f : σ → Except φ ρ) :
    ((Except.error e : Except φ σ) >>= f) = .error e := rfl

@[simp] theorem pure_eq_ok (a : σ) : (pure a : Except φ σ) = .ok a := rfl

@[simp] theorem map_ok (f : σ → ρ) (a : σ) : f <$> (Except.ok a : Except φ σ) = .ok (f a) := rfl

theorem bind_eq_ok_iff {x : Except φ σ} {f : σ → Except φ ρ} {b : ρ} :
    (x >>= f) = .ok b ↔ ∃ a, x = .ok a ∧ f a = .ok b := by
  cases x with
  | error e => simp
  | ok a => simp

/-! ### Steps that differ by a change of their results -/

section

variable {σ' ρ' : Type} {x : Except φ σ} {f : σ → Except φ ρ} {u : σ → σ'} {v : ρ → ρ'}

theorem bind_eq_map_bind {f' : σ → Except φ ρ'} (h : ∀ a, f' a = v <$> f a) :
    (x >>= f') = v <$> (x >>= f) := by
  cases x with
  | error e => rfl
  | ok a => exact h a

theorem bind_eq_map_bind_of_map {x' : Except φ σ'} {f' : σ' → Except φ ρ'} (hx : x' = u <$> x)
    (h : ∀ a, f' (u a) = v <$> f a) : (x' >>= f') = v <$> (x >>= f) := by
  subst hx
  cases x with
  | error e => rfl
  | ok a => exact h a

end

end MeteredMap
