/-! # Runs that succeed

A run of a sequence succeeds exactly if its first part succeeds and the rest succeeds from there.
-/

namespace LyaLang

variable {ε σ α β : Type}

theorem bind_eq_ok {x : EStateM ε σ α} {f : α → EStateM ε σ β} {s s' : σ} {b : β} :
    (x >>= f) s = .ok b s' ↔ ∃ a t, x s = .ok a t ∧ f a t = .ok b s' := by
  change EStateM.bind x f s = _ ↔ _
  unfold EStateM.bind
  cases x s with
  | ok a t =>
    constructor
    · intro run
      exact ⟨a, t, rfl, run⟩
    · rintro ⟨a', t', same, run⟩
      cases same
      exact run
  | error _ _ => simp

theorem pure_eq_ok {a b : α} {s s' : σ} :
    (pure a : EStateM ε σ α) s = .ok b s' ↔ a = b ∧ s = s' := by
  change EStateM.Result.ok a s = _ ↔ _
  simp

end LyaLang
