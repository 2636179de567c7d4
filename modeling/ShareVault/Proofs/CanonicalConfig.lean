import ShareVault.Proofs.ByteOrder
import ShareVault.Proofs.FeeCaps
import ShareVault.Proofs.Overflow

/-!
# Canonical configurations

A configuration is accepted exactly if it is canonical: every defect is found, whichever others there
are, and nothing else is refused.  The tokens are compared with their neighbours only; that they all
ascend follows, and so does which pair is named when they do not.

* `GovernanceSettings.Within`, `Exceeds` — settings within the hard maxima, and settings that are not;
* `VaultConfig.FirstDisorder`, `ConfigError.ofNeighbours` — the first neighbours that do not ascend,
  and what is said of them;
* `checkOrder_eq_ok`, `checkOrder_eq_error` — how the scan of the neighbours ends;
* `VaultConfig.Canonical` — all that a configuration has to be;
* `canonical_configs_accepted` — the result.
-/

namespace ShareVault

/-! ### Settings -/

namespace GovernanceSettings

variable {s : GovernanceSettings}

/-- No number is above its hard maximum. -/
structure Within (s : GovernanceSettings) : Prop where
  delay : s.delay ≤ maxGovernanceDelay
  caps : ∀ fee, s.cap fee ≤ fee.max

/-- The error names a number that is above its hard maximum. -/
inductive Exceeds (s : GovernanceSettings) : ConfigError → Prop where
  | delay (above : maxGovernanceDelay < s.delay) :
      Exceeds s (.delayTooLong s.delay maxGovernanceDelay)
  | cap {fee : CappedFee} (above : fee.max < s.cap fee) :
      Exceeds s (.capTooHigh fee (s.cap fee) fee.max)

theorem checkCap_eq_ok {fee : CappedFee} {u : Unit} :
    s.checkCap fee fee.max = .ok u ↔ s.cap fee ≤ fee.max :=
  ⟨checkCap_ok, fun h => if_neg (Nat.not_lt.mpr h)⟩

theorem checkCap_failsOnly (fee : CappedFee) :
    Attempt.FailsOnly s.Exceeds (s.checkCap fee fee.max) :=
  Attempt.failsOnly_ite (fun above => Attempt.failsOnly_error (.cap above))
    fun _ => Attempt.failsOnly_ok ()

theorem validate_eq_ok : s.validate = .ok () ↔ s.Within := by
  constructor
  · intro h
    refine ⟨?_, cap_le_max h⟩
    unfold validate at h
    split at h
    next => cases h
    next hdelay => exact Nat.not_lt.mp hdelay
  · intro h
    have hdelay : ¬ maxGovernanceDelay < s.delay := Nat.not_lt.mpr h.delay
    unfold validate
    rw [if_neg hdelay]
    simp only [Attempt.bind_eq_ok]
    exact ⟨(), checkCap_eq_ok.mpr (h.caps .management), (),
      checkCap_eq_ok.mpr (h.caps .performance), checkCap_eq_ok.mpr (h.caps .protocol)⟩

/-- Settings that are refused are refused for a number that is too large. -/
theorem validate_failsOnly : Attempt.FailsOnly s.Exceeds s.validate := by
  apply Attempt.failsOnly_ite
  · exact fun above => Attempt.failsOnly_throw_bind (.delay above)
  · intro _
    refine Attempt.failsOnly_bind (checkCap_failsOnly .management) fun _ _ => ?_
    refine Attempt.failsOnly_bind (checkCap_failsOnly .performance) fun _ _ => ?_
    exact checkCap_failsOnly .protocol

end GovernanceSettings

/-! ### Order -/

/-- What is said of two neighbours that do not ascend. -/
def ConfigError.ofNeighbours (a b : String) : ConfigError :=
  if a = b then .duplicateToken b else .unsortedTokens b a

/-- Whether an error is about the order of the tokens. -/
def ConfigError.aboutOrder : ConfigError → Bool
  | .unsortedTokens .. => true
  | .duplicateToken _ => true
  | _ => false

namespace VaultConfig

variable {tokens rest : List String} {a b x y : String} {i : Nat} {e : ConfigError}

/-- The tokens at this place and the next do not ascend, and all neighbours before them do. -/
structure FirstDisorder (tokens : List String) (i : Nat) (a b : String) : Prop where
  left : tokens[i]? = some a
  right : tokens[i + 1]? = some b
  disordered : ¬ textBytes a < textBytes b
  first : ∀ j x y, j < i → tokens[j]? = some x → tokens[j + 1]? = some y →
    textBytes x < textBytes y

/-- Neighbours that ascend are passed over. -/
theorem firstDisorder_cons (h : textBytes a < textBytes b) :
    FirstDisorder (a :: b :: rest) i x y ↔ ∃ k, i = k + 1 ∧ FirstDisorder (b :: rest) k x y := by
  constructor
  · intro hfirst
    cases i with
    | zero =>
      cases hfirst.left
      cases hfirst.right
      exact absurd h hfirst.disordered
    | succ k =>
      refine ⟨k, rfl, hfirst.left, hfirst.right, hfirst.disordered, fun j x y hj => ?_⟩
      exact hfirst.first (j + 1) x y (Nat.succ_lt_succ hj)
  · rintro ⟨k, rfl, hfirst⟩
    refine ⟨hfirst.left, hfirst.right, hfirst.disordered, fun j x y hj hx hy => ?_⟩
    cases j with
    | zero =>
      cases hx
      cases hy
      exact h
    | succ j => exact hfirst.first j x y (Nat.lt_of_succ_lt_succ hj) hx hy

/-- Neighbours that do not ascend are the first ones where they stand at the beginning. -/
theorem firstDisorder_head (h : ¬ textBytes a < textBytes b) :
    FirstDisorder (a :: b :: rest) i x y ↔ i = 0 ∧ x = a ∧ y = b := by
  constructor
  · intro hfirst
    cases i with
    | zero =>
      cases hfirst.left
      cases hfirst.right
      exact ⟨rfl, rfl, rfl⟩
    | succ k => exact absurd (hfirst.first 0 a b (Nat.succ_pos k) rfl rfl) h
  · rintro ⟨rfl, rfl, rfl⟩
    exact ⟨rfl, rfl, h, fun j _ _ hj => absurd hj (Nat.not_lt_zero j)⟩

theorem compare_eq_lt_iff : compare a b = .lt ↔ textBytes a < textBytes b := by
  rw [textBytes_lt_iff]
  exact compareOfLessAndEq_eq_lt

/-- A step of the scan. -/
theorem checkOrder_cons (a b : String) (rest : List String) :
    checkOrder (a :: b :: rest) =
      if textBytes a < textBytes b then checkOrder (b :: rest)
      else .error (.ofNeighbours a b) := by
  rw [checkOrder]
  unfold ConfigError.ofNeighbours
  cases hcompare : compare a b with
  | lt => rw [if_pos (compare_eq_lt_iff.mp hcompare)]
  | eq =>
    obtain rfl := Std.LawfulEqOrd.eq_of_compare hcompare
    rw [if_neg (List.lt_irrefl _), if_pos rfl]
  | gt =>
    have hnot : ¬ textBytes a < textBytes b := by
      rw [← compare_eq_lt_iff, hcompare]
      rintro ⟨⟩
    have hne : a ≠ b := by
      rintro rfl
      rw [Std.ReflOrd.compare_self] at hcompare
      cases hcompare
    rw [if_neg hnot, if_neg hne]

/-- The scan accepts tokens of which each comes before all that follow. -/
theorem checkOrder_eq_ok :
    checkOrder tokens = .ok () ↔ tokens.Pairwise fun a b => textBytes a < textBytes b := by
  induction tokens with
  | nil => exact ⟨fun _ => .nil, fun _ => rfl⟩
  | cons a rest ih =>
    cases rest with
    | nil => exact ⟨fun _ => List.pairwise_singleton _ a, fun _ => rfl⟩
    | cons b rest =>
      rw [checkOrder_cons, List.pairwise_cons]
      constructor
      · intro h
        split at h
        next hlt =>
          have hrest := ih.mp h
          refine ⟨fun c hc => ?_, hrest⟩
          rcases List.mem_cons.mp hc with rfl | hc
          · exact hlt
          · exact List.lt_trans hlt ((List.pairwise_cons.mp hrest).1 c hc)
        next => cases h
      · rintro ⟨hhead, hrest⟩
        rw [if_pos (hhead b List.mem_cons_self)]
        exact ih.mpr hrest

/-- The scan stops at the first neighbours that do not ascend. -/
theorem checkOrder_eq_error :
    checkOrder tokens = .error e ↔
      ∃ i a b, FirstDisorder tokens i a b ∧ e = .ofNeighbours a b := by
  induction tokens with
  | nil =>
    constructor
    · rintro ⟨⟩
    · rintro ⟨i, a, b, hfirst, _⟩
      cases hfirst.left
  | cons a rest ih =>
    cases rest with
    | nil =>
      constructor
      · rintro ⟨⟩
      · rintro ⟨i, x, y, hfirst, _⟩
        cases hfirst.right
    | cons b rest =>
      rw [checkOrder_cons]
      by_cases hlt : textBytes a < textBytes b
      · rw [if_pos hlt, ih]
        constructor
        · rintro ⟨k, x, y, hfirst, he⟩
          exact ⟨k + 1, x, y, (firstDisorder_cons hlt).mpr ⟨k, rfl, hfirst⟩, he⟩
        · rintro ⟨i, x, y, hfirst, he⟩
          obtain ⟨k, _, hfirst⟩ := (firstDisorder_cons hlt).mp hfirst
          exact ⟨k, x, y, hfirst, he⟩
      · rw [if_neg hlt]
        constructor
        · rintro ⟨⟩
          exact ⟨0, a, b, (firstDisorder_head hlt).mpr ⟨rfl, rfl, rfl⟩, rfl⟩
        · rintro ⟨i, x, y, hfirst, rfl⟩
          obtain ⟨_, rfl, rfl⟩ := (firstDisorder_head hlt).mp hfirst
          rfl

/-! ### Whole configurations -/

variable {c : VaultConfig}

/-- A configuration that a vault can run with. -/
structure Canonical (c : VaultConfig) : Prop where
  tokens : 0 < c.tokens.length
  lengths : c.tokens.length = c.existentials.length
  /-- Each token comes before all that follow, by their bytes. -/
  ascending : ∀ i j (hi : i < c.tokens.length) (hj : j < c.tokens.length), i < j →
    textBytes c.tokens[i] < textBytes c.tokens[j]
  existentials : ∀ existential ∈ c.existentials, existential ≠ 0
  delay : c.settings.delay ≤ maxGovernanceDelay
  caps : ∀ fee, c.settings.cap fee ≤ fee.max

theorem checkExistentials_eq_ok {entries : List (String × Amount)} :
    checkExistentials entries = .ok () ↔ ∀ entry ∈ entries, entry.2 ≠ 0 := by
  refine ⟨checkExistentials_ok, fun h => ?_⟩
  induction entries with
  | nil => rfl
  | cons entry rest ih =>
    rw [List.forall_mem_cons] at h
    rw [checkExistentials, if_neg h.1]
    exact ih h.2

theorem checkExistentials_failsOnly (entries : List (String × Amount)) :
    Attempt.FailsOnly (fun e => ∃ token, e = .zeroExistential token)
      (checkExistentials entries) := by
  induction entries with
  | nil => exact Attempt.failsOnly_ok ()
  | cons entry rest ih =>
    exact Attempt.failsOnly_ite (fun _ => Attempt.failsOnly_error ⟨entry.1, rfl⟩) fun _ => ih

/-- What is checked of a configuration that has tokens, and as many thresholds. -/
theorem validate_eq (htokens : c.tokens ≠ []) (hlengths : c.tokens.length = c.existentials.length) :
    c.validate = (do
      checkOrder c.tokens
      checkExistentials (c.tokens.zip c.existentials)
      c.settings.validate) := by
  unfold validate
  rw [if_neg htokens, if_neg (fun h => h hlengths)]

theorem validate_of_lengths_ne (htokens : c.tokens ≠ [])
    (hlengths : c.tokens.length ≠ c.existentials.length) :
    c.validate = .error (.lengthMismatch c.tokens.length c.existentials.length) := by
  unfold validate
  rw [if_neg htokens, if_pos hlengths]
  rfl

/-- The thresholds stand beside the tokens. -/
theorem forall_mem_zip (hlengths : c.tokens.length = c.existentials.length) :
    (∀ entry ∈ c.tokens.zip c.existentials, entry.2 ≠ 0) ↔
      ∀ existential ∈ c.existentials, existential ≠ 0 := by
  have hseconds : (c.tokens.zip c.existentials).map (·.2) = c.existentials :=
    List.map_snd_zip (Nat.le_of_eq hlengths.symm)
  constructor
  · intro h existential hmem
    rw [← hseconds] at hmem
    obtain ⟨entry, hentry, rfl⟩ := List.mem_map.mp hmem
    exact h entry hentry
  · intro h entry hentry
    apply h
    rw [← hseconds]
    exact List.mem_map_of_mem hentry

theorem validate_eq_ok : c.validate = .ok () ↔ c.Canonical := by
  by_cases htokens : c.tokens = []
  · have hvalidate : c.validate = .error .noTokens := if_pos htokens
    rw [hvalidate]
    constructor
    · rintro ⟨⟩
    · intro h
      have hpos := h.tokens
      rw [htokens] at hpos
      exact absurd hpos (Nat.lt_irrefl 0)
  by_cases hlengths : c.tokens.length = c.existentials.length
  · rw [validate_eq htokens hlengths]
    simp only [Attempt.bind_eq_ok]
    constructor
    · rintro ⟨_, horder, _, hexistentials, hsettings⟩
      have hwithin := GovernanceSettings.validate_eq_ok.mp hsettings
      exact {
        tokens := List.length_pos_iff.mpr htokens
        lengths := hlengths
        ascending := List.pairwise_iff_getElem.mp (checkOrder_eq_ok.mp horder)
        existentials := (forall_mem_zip hlengths).mp (checkExistentials_eq_ok.mp hexistentials)
        delay := hwithin.delay
        caps := hwithin.caps }
    · intro h
      have horder := checkOrder_eq_ok.mpr (List.pairwise_iff_getElem.mpr h.ascending)
      have hexistentials := checkExistentials_eq_ok.mpr ((forall_mem_zip hlengths).mpr h.existentials)
      have hsettings := GovernanceSettings.validate_eq_ok.mpr ⟨h.delay, h.caps⟩
      exact ⟨(), horder, (), hexistentials, hsettings⟩
  · rw [validate_of_lengths_ne htokens hlengths]
    constructor
    · rintro ⟨⟩
    · exact fun h => absurd h.lengths hlengths

/-- After the order nothing else is refused for the order. -/
theorem validate_eq_order_error (he : e.aboutOrder = true) :
    c.validate = .error e ↔ c.tokens ≠ [] ∧ c.tokens.length = c.existentials.length ∧
      checkOrder c.tokens = .error e := by
  by_cases htokens : c.tokens = []
  · have hvalidate : c.validate = .error .noTokens := if_pos htokens
    rw [hvalidate]
    constructor
    · rintro ⟨⟩
      cases he
    · exact fun h => absurd htokens h.1
  by_cases hlengths : c.tokens.length = c.existentials.length
  · rw [validate_eq htokens hlengths]
    have hrest : Attempt.FailsOnly (fun e => e.aboutOrder = false) (do
        checkExistentials (c.tokens.zip c.existentials)
        c.settings.validate) := by
      refine Attempt.failsOnly_bind ?_ fun _ _ => ?_
      · intro e h
        obtain ⟨token, rfl⟩ := checkExistentials_failsOnly _ e h
        rfl
      · intro e h
        cases GovernanceSettings.validate_failsOnly e h <;> rfl
    cases horder : checkOrder c.tokens with
    | error e' => simp [htokens, hlengths, bind, Except.bind]
    | ok u =>
      constructor
      · intro h
        rw [hrest e h] at he
        cases he
      · rintro ⟨_, _, ⟨⟩⟩
  · rw [validate_of_lengths_ne htokens hlengths]
    constructor
    · rintro ⟨⟩
      cases he
    · exact fun h => absurd h.2.1 hlengths

end VaultConfig

/-! ### The result -/

open VaultConfig in
/-- A configuration is accepted exactly if it is canonical.  It is refused for its order exactly if
it has tokens, and as many thresholds, and some neighbours do not ascend by their bytes; the first
such pair is named, as one token twice exactly if the two are equal. -/
theorem canonical_configs_accepted (c : VaultConfig) :
    (c.validate = .ok () ↔ c.Canonical) ∧
      ∀ e, e.aboutOrder = true →
        (c.validate = .error e ↔ 0 < c.tokens.length ∧
          c.tokens.length = c.existentials.length ∧
          ∃ i a b, FirstDisorder c.tokens i a b ∧
            e = if a = b then .duplicateToken b else .unsortedTokens b a) := by
  refine ⟨validate_eq_ok, fun e he => ?_⟩
  rw [validate_eq_order_error he, checkOrder_eq_error, ← List.length_pos_iff]
  rfl

/-- Bytes decide: the second token has a larger first byte than the third, and more of them. -/
example : VaultConfig.checkOrder ["a", "é", "z"] = .error (.unsortedTokens "z" "é") := rfl

end ShareVault
