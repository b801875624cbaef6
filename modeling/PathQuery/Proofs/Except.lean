namespace PathQuery

variable {ε α β : Type}

theorem bind_eq_ok {x : Except ε α} {f : α → Except ε β} {b : β} (h : x >>= f = .ok b) :
    ∃ a, x = .ok a ∧ f a = .ok b := by
  cases x with
  | error e => cases h
  | ok a => exact ⟨a, rfl, h⟩

theorem map_eq_ok {x : Except ε α} {f : α → β} {b : β} (h : x.map f = .ok b) : ∃ a, x = .ok a ∧ f a = b := by
  cases x with
  | error e => cases h
  | ok a =>
    cases h
    exact ⟨a, rfl, rfl⟩

theorem mapError_eq_ok {x : Except ε α} {f : ε → β} {a : α} (h : x.mapError f = .ok a) : x = .ok a := by
  cases x with
  | error e => cases h
  | ok b =>
    cases h
    rfl

theorem mapError_eq_error {x : Except ε α} {f : ε → β} {b : β} (h : x.mapError f = .error b) :
    ∃ e, x = .error e ∧ f e = b := by
  cases x with
  | error e =>
    cases h
    exact ⟨e, rfl, rfl⟩
  | ok a => cases h

/-- Mapping succeeds element by element. -/
theorem mapM_cons_eq_ok {f : α → Except ε β} {a : α} {as : List α} {bs : List β} (h : (a :: as).mapM f = .ok bs) :
    ∃ b cs, f a = .ok b ∧ as.mapM f = .ok cs ∧ bs = b :: cs := by
  rw [List.mapM_cons] at h
  obtain ⟨b, hb, h⟩ := bind_eq_ok h
  obtain ⟨cs, hcs, h⟩ := bind_eq_ok h
  cases h
  exact ⟨b, cs, hb, hcs, rfl⟩

theorem exists_of_mem_mapM {f : α → Except ε β} {as : List α} {bs : List β} (h : as.mapM f = .ok bs) {b : β}
    (hb : b ∈ bs) : ∃ a ∈ as, f a = .ok b := by
  induction as generalizing bs with
  | nil =>
    cases h
    simp at hb
  | cons a as ih =>
    obtain ⟨c, cs, hc, hcs, rfl⟩ := mapM_cons_eq_ok h
    rcases List.mem_cons.1 hb with rfl | hb
    · exact ⟨a, by simp, hc⟩
    · obtain ⟨d, hd, he⟩ := ih hcs hb
      exact ⟨d, List.mem_cons_of_mem _ hd, he⟩

/-- A computation that does not end with some errors. -/
def Spares (bad : ε → Prop) (x : Except ε α) : Prop := ∀ e, x = .error e → ¬bad e

section spares

variable {bad : ε → Prop}

@[simp] theorem spares_ok (a : α) : Spares bad (.ok a) := by
  intro e he
  cases he

@[simp] theorem spares_error {e : ε} : Spares bad (.error e : Except ε α) ↔ ¬bad e := by
  constructor
  · intro h
    exact h e rfl
  · rintro h _ ⟨⟩
    exact h

@[simp] theorem spares_ite {p : Prop} [Decidable p] {x y : Except ε α} :
    Spares bad (if p then x else y) ↔ (p → Spares bad x) ∧ (¬p → Spares bad y) := by
  split <;> simp [*]

theorem Spares.bind {x : Except ε α} {f : α → Except ε β} (h : Spares bad x) (hf : ∀ a, Spares bad (f a)) :
    Spares bad (x >>= f) := by
  cases x with
  | ok a => exact hf a
  | error e =>
    rintro _ ⟨⟩
    exact h e rfl

theorem Spares.map {x : Except ε α} (h : Spares bad x) (f : α → β) : Spares bad (x.map f) := by
  cases x with
  | ok a => exact spares_ok _
  | error e =>
    rintro _ ⟨⟩
    exact h e rfl

theorem Spares.mapM {f : α → Except ε β} (hf : ∀ a, Spares bad (f a)) (as : List α) :
    Spares bad (as.mapM f) := by
  induction as with
  | nil => exact spares_ok _
  | cons a as ih =>
    rw [List.mapM_cons]
    exact (hf a).bind fun b => ih.bind fun bs => spares_ok _

theorem Spares.mapError {δ : Type} {bad : δ → Prop} {x : Except ε α} {f : ε → δ} (h : Spares (bad ∘ f) x) :
    Spares bad (x.mapError f) := by
  cases x with
  | ok a => exact spares_ok _
  | error e => exact spares_error.2 (h e rfl)

end spares

/-- Two computations both fail, or succeed with things in a relation. -/
inductive Coupled {ε δ α β : Type} (R : α → β → Prop) : Except ε α → Except δ β → Prop
  | ok {a : α} {b : β} (h : R a b) : Coupled R (.ok a) (.ok b)
  | error (e : ε) (d : δ) : Coupled R (.error e) (.error d)

namespace Coupled

variable {δ α' β' : Type} {R : α → β → Prop} {S : α' → β' → Prop} {x : Except ε α} {y : Except δ β}

theorem bind (h : Coupled R x y) {f : α → Except ε α'} {g : β → Except δ β'}
    (hf : ∀ a b, R a b → Coupled S (f a) (g b)) : Coupled S (x >>= f) (y >>= g) := by
  cases h with
  | ok h => exact hf _ _ h
  | error e d => exact .error e d

theorem map (h : Coupled R x y) {f : α → α'} {g : β → β'} (hf : ∀ a b, R a b → S (f a) (g b)) :
    Coupled S (x.map f) (y.map g) := by
  cases h with
  | ok h => exact .ok (hf _ _ h)
  | error e d => exact .error e d

theorem exists_right (h : Coupled R x y) {a : α} (ha : x = .ok a) : ∃ b, y = .ok b ∧ R a b := by
  cases h with
  | ok h =>
    cases ha
    exact ⟨_, rfl, h⟩
  | error => cases ha

theorem exists_left (h : Coupled R x y) {b : β} (hb : y = .ok b) : ∃ a, x = .ok a ∧ R a b := by
  cases h with
  | ok h =>
    cases hb
    exact ⟨_, rfl, h⟩
  | error => cases hb

theorem of_map (x : Except ε α) (f : α → β) : Coupled (fun a b => b = f a) x (x.map f) := by
  cases x with
  | ok a => exact .ok rfl
  | error e => exact .error e e

end Coupled

/-- Mapping after a change of the elements is a change of the results. -/
theorem mapM_map_eq {α' β' : Type} {f : α → Except ε β} {f' : α' → Except ε β'} {g : α → α'} {k : β → β'}
    (h : ∀ a, f' (g a) = (f a).map k) (as : List α) : (as.map g).mapM f' = (as.mapM f).map (List.map k) := by
  induction as with
  | nil => rfl
  | cons a as ih =>
    rw [List.map_cons, List.mapM_cons, List.mapM_cons, h, ih]
    cases f a with
    | error e => rfl
    | ok b => cases as.mapM f <;> rfl

end PathQuery
