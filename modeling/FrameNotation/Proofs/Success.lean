import Mathlib.Data.List.Forall2

namespace FrameNotation

variable {ε δ α β : Type}

-- A chain of steps succeeds exactly if its first step and what follows from it do.
theorem bind_eq_ok {step : Except ε α} {next : α → Except ε β} {b : β} :
    step >>= next = .ok b ↔ ∃ a, step = .ok a ∧ next a = .ok b := by
  cases step with
  | ok a =>
      constructor
      · intro h
        exact ⟨a, rfl, h⟩
      · rintro ⟨_, ha, h⟩
        cases ha
        exact h
  | error e =>
      constructor
      · intro h
        cases h
      · rintro ⟨_, ha, _⟩
        cases ha

-- What a step yields may not matter for whether the next one succeeds.
theorem exists_bind_iff {step : Except ε α} {next : α → Except ε β} {p : Prop}
    (hnext : ∀ a, (∃ b, next a = .ok b) ↔ p) :
    (∃ b, step >>= next = .ok b) ↔ (∃ a, step = .ok a) ∧ p := by
  constructor
  · rintro ⟨b, h⟩
    obtain ⟨a, ha, hb⟩ := bind_eq_ok.mp h
    exact ⟨⟨a, ha⟩, (hnext a).mp ⟨b, hb⟩⟩
  · rintro ⟨⟨a, ha⟩, hp⟩
    obtain ⟨b, hb⟩ := (hnext a).mpr hp
    exact ⟨b, bind_eq_ok.mpr ⟨a, ha, hb⟩⟩

theorem exists_bind_pure_iff {step : Except ε α} {f : α → β} :
    (∃ b, (step >>= fun a => pure (f a)) = .ok b) ↔ ∃ a, step = .ok a := by
  have hpure (a : α) : (∃ b, (pure (f a) : Except ε β) = .ok b) ↔ True :=
    iff_true_intro ⟨f a, rfl⟩
  rw [exists_bind_iff hpure, and_true]

-- A list that is made item by item is made exactly if its first item and all others are.
theorem bind_cons_eq_ok {step : Except ε α} {more : Except ε (List β)} {f : α → β} {bs : List β} :
    (step >>= fun a => more >>= fun rest => pure (f a :: rest)) = .ok bs ↔
      ∃ a rest, step = .ok a ∧ more = .ok rest ∧ bs = f a :: rest := by
  constructor
  · intro h
    obtain ⟨a, ha, h⟩ := bind_eq_ok.mp h
    obtain ⟨rest, hrest, h⟩ := bind_eq_ok.mp h
    cases h
    exact ⟨a, rest, ha, hrest, rfl⟩
  · rintro ⟨a, rest, rfl, rfl, rfl⟩
    rfl

theorem map_eq_ok {step : Except ε α} {f : α → β} {b : β} :
    step.map f = .ok b ↔ ∃ a, step = .ok a ∧ f a = b := by
  cases step <;> simp [Except.map]

-- It fails where the first of its steps fails that does.
theorem bind_eq_error {step : Except ε α} {next : α → Except ε β} {e : ε} :
    step >>= next = .error e ↔ step = .error e ∨ ∃ a, step = .ok a ∧ next a = .error e := by
  cases step with
  | ok a =>
      constructor
      · intro h
        exact .inr ⟨a, rfl, h⟩
      · rintro (h | ⟨_, ha, h⟩)
        · cases h
        · cases ha
          exact h
  | error cause =>
      constructor
      · intro h
        cases h
        exact .inl rfl
      · rintro (h | ⟨_, ha, _⟩)
        · cases h
          rfl
        · cases ha

theorem map_eq_error {step : Except ε α} {f : α → β} {e : ε} :
    step.map f = .error e ↔ step = .error e := by
  cases step <;> simp [Except.map]

theorem exists_map_iff {step : Except ε α} {f : α → β} :
    (∃ b, step.map f = .ok b) ↔ ∃ a, step = .ok a := by
  cases step <;> simp [Except.map]

theorem mapError_eq_ok {step : Except ε α} {f : ε → δ} {a : α} :
    step.mapError f = .ok a ↔ step = .ok a := by
  cases step <;> simp [Except.mapError]

@[simp] theorem ok_bind {a : α} {next : α → Except ε β} :
    (Except.ok a : Except ε α) >>= next = next a := rfl

@[simp] theorem pure_eq_ok {a : α} : (pure a : Except ε α) = .ok a := rfl

@[simp] theorem map_ok {a : α} {f : α → β} : (Except.ok a : Except ε α).map f = .ok (f a) := rfl

@[simp] theorem mapError_ok {a : α} {f : ε → δ} :
    (Except.ok a : Except ε α).mapError f = .ok a := rfl

-- Of two lists that are related item by item, each item of the second has one in the first.
theorem exists_mem_of_forall₂ {related : α → β → Prop} {as : List α} {bs : List β}
    (h : List.Forall₂ related as bs) {b : β} (hb : b ∈ bs) : ∃ a ∈ as, related a b := by
  induction h with
  | nil => cases hb
  | cons hfirst _ ih =>
      rcases List.mem_cons.mp hb with rfl | hb
      · exact ⟨_, by simp, hfirst⟩
      · obtain ⟨a, ha, hrelated⟩ := ih hb
        exact ⟨a, by simp [ha], hrelated⟩

-- If each item of a list is related to something, there is a list of such things.
theorem exists_forall₂ {related : α → β → Prop} {as : List α} (h : ∀ a ∈ as, ∃ b, related a b) :
    ∃ bs, List.Forall₂ related as bs := by
  induction as with
  | nil => exact ⟨[], .nil⟩
  | cons a rest ih =>
      obtain ⟨b, hb⟩ := h a (by simp)
      obtain ⟨bs, hbs⟩ := ih fun other hother => h other (by simp [hother])
      exact ⟨b :: bs, .cons hb hbs⟩

theorem exists_forall₂_iff {related : α → β → Prop} {as : List α} :
    (∃ bs, List.Forall₂ related as bs) ↔ ∀ a ∈ as, ∃ b, related a b := by
  constructor
  · rintro ⟨bs, hbs⟩ a ha
    have hflip : List.Forall₂ (flip related) bs as := hbs.flip
    obtain ⟨b, -, hb⟩ := exists_mem_of_forall₂ hflip ha
    exact ⟨b, hb⟩
  · exact exists_forall₂

theorem intercalate_cons_eq {separator first : List α} {parts : List (List α)} :
    separator.intercalate (first :: parts) = first ++ parts.flatMap (separator ++ ·) := by
  induction parts generalizing first with
  | nil => simp
  | cons second parts ih => simp [List.intercalate_cons_cons, ih]

end FrameNotation
