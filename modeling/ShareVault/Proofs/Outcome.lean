import ShareVault.Vault.Perform

/-!
# How computations end

A computation of the vault is a value of `Except`, or a step that also carries a state.  The rules
below open one from the outside in: from the way a composed computation has ended they give the way
each of its parts has ended.

* `Attempt` — rules for `Except`, and `Attempt.carry` for a state that an error leaves as it is;
* `Effectful` — rules for steps with a state, such as `LedgerStep` and `Operation`;
* `Operation.lift_eq_ok`, `Operation.consult_eq_ok` — the two ways an operation obtains a value.
-/

namespace ShareVault

/-! ### Values that may be missing -/

namespace Attempt

variable {ε ε' α β : Type}

theorem bind_eq_ok {x : Except ε α} {f : α → Except ε β} {b : β} :
    (x >>= f) = .ok b ↔ ∃ a, x = .ok a ∧ f a = .ok b := by
  cases x with
  | error e => simp [bind, Except.bind]
  | ok a => simp [bind, Except.bind]

theorem pure_eq_ok {a b : α} : (pure a : Except ε α) = .ok b ↔ a = b := by
  simp [pure, Except.pure]

theorem ok_bind {a : α} {f : α → Except ε β} : (Except.ok a >>= f) = f a := rfl

theorem mapError_ok {a : α} {f : ε → ε'} : (Except.ok a).mapError f = .ok a := rfl

theorem mapError_error {e : ε} {f : ε → ε'} :
    (.error e : Except ε α).mapError f = .error (f e) := rfl

theorem mapError_eq_ok {x : Except ε α} {f : ε → ε'} {a : α} :
    x.mapError f = .ok a ↔ x = .ok a := by
  cases x with
  | error e =>
    show Except.error (f e) = _ ↔ _
    simp
  | ok b =>
    show Except.ok b = _ ↔ _
    simp

theorem mapError_eq_error {x : Except ε α} {f : ε → ε'} {e : ε'} :
    x.mapError f = .error e ↔ ∃ e₀, x = .error e₀ ∧ f e₀ = e := by
  cases x with
  | error e₁ =>
    show Except.error (f e₁) = _ ↔ _
    simp
  | ok b =>
    show Except.ok b = _ ↔ _
    simp

/-- What an attempt to change a state comes to: its answer and the new state, or its error and the
state as it was. -/
def carry {σ : Type} (s : σ) : Except ε σ → Except ε Unit × σ
  | .ok s' => (.ok (), s')
  | .error e => (.error e, s)

theorem carry_eq_ok {σ : Type} {s : σ} {x : Except ε σ} :
    (carry s x).1 = .ok () ↔ x = .ok (carry s x).2 := by
  cases x with
  | ok s' => simp [carry]
  | error e => simp [carry]

theorem carry_eq_error {σ : Type} {s : σ} {x : Except ε σ} {e : ε} :
    (carry s x).1 = .error e ↔ x = .error e := by
  cases x with
  | ok s' => simp [carry]
  | error e => simp [carry]

theorem carry_failed {σ : Type} {s : σ} {x : Except ε σ} {e : ε}
    (h : (carry s x).1 = .error e) : (carry s x).2 = s := by
  rw [carry_eq_error] at h
  rw [h]
  rfl

/-- What holds of a state, and of the new one if there is one, holds of what becomes of it. -/
theorem carry_keeps {σ : Type} {P : σ → Prop} {s : σ} {x : Except ε σ} (hs : P s)
    (h : ∀ s', x = .ok s' → P s') : P (carry s x).2 := by
  cases x with
  | ok s' => exact h s' rfl
  | error e => exact hs

/-- Checks one after another pass when each of them does. -/
theorem forM_eq_ok {f : α → Except ε Unit} {l : List α} :
    l.forM f = .ok () ↔ ∀ a ∈ l, f a = .ok () := by
  induction l with
  | nil => exact ⟨fun _ a ha => (List.not_mem_nil ha).elim, fun _ => rfl⟩
  | cons a rest ih =>
    rw [List.forM, bind_eq_ok, List.forall_mem_cons, ← ih]
    constructor
    · rintro ⟨_, hfirst, hrest⟩
      exact ⟨hfirst, hrest⟩
    · rintro ⟨hfirst, hrest⟩
      exact ⟨(), hfirst, hrest⟩

end Attempt

/-! ### Steps with a state -/

namespace Effectful

variable {ε σ α β : Type} {s s' s'' : σ}

theorem bind_eq_ok {m : EStateM ε σ α} {f : α → EStateM ε σ β} {b : β} :
    (m >>= f) s = .ok b s'' ↔ ∃ a s', m s = .ok a s' ∧ f a s' = .ok b s'' := by
  show EStateM.bind m f s = _ ↔ _
  unfold EStateM.bind
  cases m s <;> simp [and_assoc]

theorem bind_eq_error {m : EStateM ε σ α} {f : α → EStateM ε σ β} {e : ε} :
    (m >>= f) s = .error e s'' ↔
      m s = .error e s'' ∨ ∃ a s', m s = .ok a s' ∧ f a s' = .error e s'' := by
  show EStateM.bind m f s = _ ↔ _
  unfold EStateM.bind
  cases m s <;> simp [and_assoc]

theorem pure_eq_ok {a b : α} :
    (pure a : EStateM ε σ α) s = .ok b s' ↔ a = b ∧ s = s' := by
  show EStateM.Result.ok a s = _ ↔ _
  simp

theorem throw_eq_ok {e : ε} {b : α} : (throw e : EStateM ε σ α) s = .ok b s' ↔ False := by
  show EStateM.Result.error e s = _ ↔ _
  simp

theorem get_eq_ok {t : σ} : (get : EStateM ε σ σ) s = .ok t s' ↔ t = s ∧ s' = s := by
  show EStateM.Result.ok s s = _ ↔ _
  simp [eq_comm]

theorem get_eq_error {e : ε} : (get : EStateM ε σ σ) s = .error e s' ↔ False := by
  show EStateM.Result.ok s s = _ ↔ _
  simp

theorem pure_eq_error {a : α} {e : ε} : (pure a : EStateM ε σ α) s = .error e s' ↔ False := by
  show EStateM.Result.ok a s = _ ↔ _
  simp

theorem set_eq_error {t : σ} {e : ε} : (set t : EStateM ε σ PUnit) s = .error e s' ↔ False := by
  show EStateM.Result.ok PUnit.unit t = _ ↔ _
  simp

theorem set_eq_ok {t : σ} {u : PUnit} : (set t : EStateM ε σ PUnit) s = .ok u s' ↔ s' = t := by
  show EStateM.Result.ok PUnit.unit t = _ ↔ _
  simp [eq_comm]

theorem modify_eq_ok {f : σ → σ} {u : PUnit} :
    (modify f : EStateM ε σ PUnit) s = .ok u s' ↔ s' = f s := by
  show EStateM.Result.ok PUnit.unit (f s) = _ ↔ _
  simp [eq_comm]

theorem bind_of_ok {m : EStateM ε σ α} {f : α → EStateM ε σ β} {a : α} (h : m s = .ok a s') :
    (m >>= f) s = f a s' := by
  show EStateM.bind m f s = _
  unfold EStateM.bind
  rw [h]

/-- Steps that go on in the same way come to the same. -/
theorem bind_congr {m : EStateM ε σ α} {f g : α → EStateM ε σ β}
    (h : ∀ a s', m s = .ok a s' → f a s' = g a s') : (m >>= f) s = (m >>= g) s := by
  cases hm : m s with
  | ok a s' => rw [bind_of_ok hm, bind_of_ok hm, h a s' hm]
  | error e s' =>
    show EStateM.bind m f s = EStateM.bind m g s
    unfold EStateM.bind
    rw [hm]

/-- Both branches of a step, each with what led to it. -/
theorem ite_eq_ok {c : Prop} [Decidable c] {m m' : EStateM ε σ α} {b : α} :
    (if c then m else m') s = .ok b s' ↔ c ∧ m s = .ok b s' ∨ ¬ c ∧ m' s = .ok b s' := by
  by_cases h : c <;> simp [h]

end Effectful

namespace LedgerStep

variable {α : Type} {l l' : ShareLedger}

theorem lift_eq_ok {x : Except VaultError α} {a : α} :
    LedgerStep.lift x l = .ok a l' ↔ x = .ok a ∧ l' = l := by
  cases x with
  | ok b =>
    show EStateM.Result.ok b l = _ ↔ _
    simp [eq_comm]
  | error e =>
    show EStateM.Result.error e l = _ ↔ _
    simp

end LedgerStep

namespace Operation

variable {σ A α : Type} {w w' : World σ A}

theorem lift_eq_ok {x : Except VaultError α} {a : α} :
    Operation.lift x w = .ok a w' ↔ x = .ok a ∧ w' = w := by
  cases x with
  | ok b =>
    show EStateM.Result.ok b w = _ ↔ _
    simp [eq_comm]
  | error e =>
    show EStateM.Result.error e w = _ ↔ _
    simp

theorem lift_eq_error {x : Except VaultError α} {e : VaultError} :
    (Operation.lift x : Operation σ A α) w = .error e w' ↔ x = .error e ∧ w' = w := by
  cases x with
  | ok b =>
    show EStateM.Result.ok b w = _ ↔ _
    simp
  | error e₀ =>
    show EStateM.Result.error e₀ w = _ ↔ _
    simp [eq_comm]

/-- Outside code answers what its script comes to. -/
theorem consult_eq_ok {nested : Performer σ A} {script : σ → Script σ A α} {a : α} :
    consult nested script w = .ok a w' ↔
      (script w.host).run nested w.vault w.store = (a, w') := by
  show EStateM.Result.ok _ _ = _ ↔ _
  simp [Prod.ext_iff]

theorem adapterOf_eq_ok {reference : Reference} {adapter : A} :
    adapterOf reference w = .ok adapter w' ↔
      w.vault.adapters.get? reference = some adapter ∧ w' = w := by
  unfold adapterOf
  simp only [Effectful.bind_eq_ok, Effectful.get_eq_ok]
  constructor
  · rintro ⟨w₀, w₁, ⟨h₀, h₁⟩, h⟩
    rw [h₀, h₁] at h
    cases hfound : w.vault.adapters.get? reference with
    | none =>
      rw [hfound] at h
      exact (Effectful.throw_eq_ok.mp h).elim
    | some found =>
      rw [hfound] at h
      obtain ⟨hfound, hw⟩ := Effectful.pure_eq_ok.mp h
      exact ⟨congrArg some hfound, hw.symm⟩
  · rintro ⟨hfound, rfl⟩
    refine ⟨w', w', ⟨rfl, rfl⟩, ?_⟩
    rw [hfound]
    rfl

end Operation

end ShareVault
