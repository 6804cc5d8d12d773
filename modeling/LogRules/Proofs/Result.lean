import Mathlib.Data.List.Forall2

/-! # Results

When a step of an `Except` computation succeeds, and what is left of a result when the error does not
matter. -/

namespace LogRules

variable {ε α β : Type}

/-! ### Success -/

theorem bind_eq_ok {x : Except ε α} {f : α → Except ε β} {b : β} :
    x >>= f = .ok b ↔ ∃ a, x = .ok a ∧ f a = .ok b := by
  cases x with
  | error e =>
      constructor
      · exact fun h => nomatch h
      · exact fun ⟨_, h, _⟩ => nomatch h
  | ok a =>
      constructor
      · exact fun h => ⟨a, rfl, h⟩
      · rintro ⟨a', ha, h⟩
        cases ha
        exact h

theorem map_eq_ok {x : Except ε α} {f : α → β} {b : β} :
    f <$> x = .ok b ↔ ∃ a, x = .ok a ∧ f a = b := by
  cases x with
  | error e =>
      constructor
      · exact fun h => nomatch h
      · exact fun ⟨_, h, _⟩ => nomatch h
  | ok a =>
      constructor
      · exact fun h => ⟨a, rfl, Except.ok.inj h⟩
      · rintro ⟨a', ha, rfl⟩
        cases ha
        rfl

theorem exists_map_eq_ok {x : Except ε α} {f : α → β} :
    (∃ b, f <$> x = .ok b) ↔ ∃ a, x = .ok a := by
  constructor
  · rintro ⟨b, h⟩
    obtain ⟨a, ha, -⟩ := map_eq_ok.mp h
    exact ⟨a, ha⟩
  · rintro ⟨a, ha⟩
    exact ⟨f a, map_eq_ok.mpr ⟨a, ha, rfl⟩⟩

/-- A check of a list succeeds when it does on every element. -/
theorem forM_eq_ok {xs : List α} {f : α → Except ε Unit} :
    xs.forM f = .ok () ↔ ∀ x ∈ xs, f x = .ok () := by
  induction xs with
  | nil =>
      constructor
      · exact fun _ _ h => nomatch h
      · exact fun _ => rfl
  | cons x rest ih =>
      change (f x >>= fun _ => rest.forM f) = .ok () ↔ _
      rw [bind_eq_ok, List.forall_mem_cons]
      constructor
      · rintro ⟨_, hx, hrest⟩
        exact ⟨hx, ih.mp hrest⟩
      · rintro ⟨hx, hrest⟩
        exact ⟨(), hx, ih.mpr hrest⟩

/-- A map over a list succeeds when it does on every element. -/
theorem mapM_eq_ok {xs : List α} {f : α → Except ε β} {ys : List β} :
    xs.mapM f = .ok ys ↔ List.Forall₂ (fun x y => f x = .ok y) xs ys := by
  induction xs generalizing ys with
  | nil =>
      rw [List.mapM_nil, List.forall₂_nil_left_iff]
      constructor
      · exact fun h => (Except.ok.inj h).symm
      · exact fun h => congrArg Except.ok h.symm
  | cons x rest ih =>
      rw [List.mapM_cons, bind_eq_ok]
      constructor
      · rintro ⟨y, hy, h⟩
        obtain ⟨others, hothers, heq⟩ := bind_eq_ok.mp h
        cases heq
        exact .cons hy (ih.mp hothers)
      · intro h
        cases h with
        | cons hy hothers => exact ⟨_, hy, bind_eq_ok.mpr ⟨_, ih.mpr hothers, rfl⟩⟩

/-- Every element of a list that is mapped gives something. -/
theorem exists_of_mapM_eq_ok {xs : List α} {f : α → Except ε β} {ys : List β}
    (h : xs.mapM f = .ok ys) {x : α} (hx : x ∈ xs) : ∃ y, f x = .ok y := by
  have hall := mapM_eq_ok.mp h
  clear h
  induction hall with
  | nil => cases hx
  | cons hy _ ih =>
      rcases List.mem_cons.mp hx with rfl | hx
      · exact ⟨_, hy⟩
      · exact ih hx

/-- A map over a list succeeds when every element gives something. -/
theorem exists_mapM_eq_ok {xs : List α} {f : α → Except ε β} :
    (∃ ys, xs.mapM f = .ok ys) ↔ ∀ x ∈ xs, ∃ y, f x = .ok y := by
  constructor
  · rintro ⟨ys, h⟩ x hx
    exact exists_of_mapM_eq_ok h hx
  · intro h
    induction xs with
    | nil => exact ⟨[], rfl⟩
    | cons x rest ih =>
        rw [List.forall_mem_cons] at h
        obtain ⟨y, hy⟩ := h.1
        obtain ⟨ys, hys⟩ := ih h.2
        refine ⟨y :: ys, ?_⟩
        rw [List.mapM_cons, hy, hys]
        rfl

/-- What a map over a list gives comes from an element of the list. -/
theorem exists_of_mem_mapM {xs : List α} {f : α → Except ε β} {ys : List β}
    (h : xs.mapM f = .ok ys) {y : β} (hy : y ∈ ys) : ∃ x ∈ xs, f x = .ok y := by
  have hall := mapM_eq_ok.mp h
  clear h
  induction hall with
  | nil => cases hy
  | @cons x z xs ys hx _ ih =>
      rcases List.mem_cons.mp hy with rfl | hy
      · exact ⟨x, List.mem_cons_self, hx⟩
      · obtain ⟨w, hw, hwy⟩ := ih hy
        exact ⟨w, List.mem_cons_of_mem _ hw, hwy⟩

theorem mapError_eq_ok {δ : Type} {x : Except ε α} {f : ε → δ} {a : α} :
    x.mapError f = .ok a ↔ x = .ok a := by
  cases x with
  | error e =>
      constructor
      · exact fun h => nomatch h
      · exact fun h => nomatch h
  | ok b =>
      constructor
      · exact fun h => congrArg Except.ok (Except.ok.inj h)
      · exact fun h => congrArg Except.ok (Except.ok.inj h)

/-! ### Failure -/

/-- If the computation fails, then with an error of this kind. -/
def FailsOnlyWith (P : ε → Prop) (x : Except ε α) : Prop := ∀ e, x = .error e → P e

theorem map_eq_error {x : Except ε α} {f : α → β} {e : ε} : f <$> x = .error e ↔ x = .error e := by
  cases x with
  | error e' =>
      constructor
      · exact fun h => congrArg Except.error (Except.error.inj h)
      · exact fun h => congrArg Except.error (Except.error.inj h)
  | ok a =>
      constructor
      · exact fun h => nomatch h
      · exact fun h => nomatch h

theorem bind_eq_error {x : Except ε α} {f : α → Except ε β} {e : ε} :
    x >>= f = .error e ↔ x = .error e ∨ ∃ a, x = .ok a ∧ f a = .error e := by
  cases x with
  | error e' =>
      constructor
      · exact fun h => .inl (congrArg Except.error (Except.error.inj h))
      · rintro (h | ⟨_, h, _⟩)
        · exact congrArg Except.error (Except.error.inj h)
        · cases h
  | ok a =>
      constructor
      · exact fun h => .inr ⟨a, rfl, h⟩
      · rintro (h | ⟨a', ha, h⟩)
        · cases h
        · cases ha
          exact h

theorem mapError_eq_error {δ : Type} {x : Except ε α} {f : ε → δ} {e : δ} :
    x.mapError f = .error e ↔ ∃ e', x = .error e' ∧ f e' = e := by
  cases x with
  | error e' =>
      constructor
      · exact fun h => ⟨e', rfl, Except.error.inj h⟩
      · rintro ⟨e'', he, rfl⟩
        cases he
        rfl
  | ok a =>
      constructor
      · exact fun h => nomatch h
      · exact fun ⟨_, h, _⟩ => nomatch h

/-- A map over a list fails as it does on the first element where it fails. -/
theorem exists_of_mapM_eq_error {xs : List α} {f : α → Except ε β} {e : ε}
    (h : xs.mapM f = .error e) :
    ∃ before x after, xs = before ++ x :: after ∧ (∀ y ∈ before, ∃ b, f y = .ok b) ∧
      f x = .error e := by
  induction xs with
  | nil => cases h
  | cons x rest ih =>
      rw [List.mapM_cons, bind_eq_error] at h
      rcases h with hx | ⟨b, hb, h⟩
      · exact ⟨[], x, rest, rfl, (fun _ hy => nomatch hy), hx⟩
      · rcases bind_eq_error.mp h with hrest | ⟨bs, -, h⟩
        · obtain ⟨before, y, after, rfl, hbefore, hy⟩ := ih hrest
          exact ⟨x :: before, y, after, rfl, List.forall_mem_cons.mpr ⟨⟨b, hb⟩, hbefore⟩, hy⟩
        · cases h

variable {P : ε → Prop}

theorem failsOnlyWith_ok (a : α) : FailsOnlyWith P (.ok a : Except ε α) := fun _ h => nomatch h

theorem failsOnlyWith_error {e : ε} (h : P e) : FailsOnlyWith P (.error e : Except ε α) := by
  intro e' heq
  cases heq
  exact h

theorem FailsOnlyWith.bind {x : Except ε α} {f : α → Except ε β} (hx : FailsOnlyWith P x)
    (hf : ∀ a, x = .ok a → FailsOnlyWith P (f a)) : FailsOnlyWith P (x >>= f) := by
  cases x with
  | error e => exact failsOnlyWith_error (hx e rfl)
  | ok a => exact hf a rfl

theorem FailsOnlyWith.map {x : Except ε α} (hx : FailsOnlyWith P x) (f : α → β) :
    FailsOnlyWith P (f <$> x) := by
  cases x with
  | error e => exact failsOnlyWith_error (hx e rfl)
  | ok a => exact failsOnlyWith_ok _

theorem failsOnlyWith_mapM {xs : List α} {f : α → Except ε β} (h : ∀ x ∈ xs, FailsOnlyWith P (f x)) :
    FailsOnlyWith P (xs.mapM f) := by
  induction xs with
  | nil => exact failsOnlyWith_ok []
  | cons x rest ih =>
      rw [List.mapM_cons]
      refine (h x List.mem_cons_self).bind fun y _ => ?_
      refine (ih fun z hz => h z (List.mem_cons_of_mem _ hz)).bind fun ys _ => ?_
      exact failsOnlyWith_ok _

/-! ### Results without errors -/

theorem toOption_map (f : α → β) (x : Except ε α) : (f <$> x).toOption = x.toOption.map f := by
  cases x <;> rfl

theorem toOption_bind (x : Except ε α) (f : α → Except ε β) :
    (x >>= f).toOption = x.toOption.bind fun a => (f a).toOption := by
  cases x <;> rfl

theorem toOption_mapM {f g : α → Except ε β} {xs : List α}
    (h : ∀ x ∈ xs, (f x).toOption = (g x).toOption) :
    (xs.mapM f).toOption = (xs.mapM g).toOption := by
  induction xs with
  | nil => rfl
  | cons x rest ih =>
      have hrest := ih fun y hy => h y (List.mem_cons_of_mem _ hy)
      rw [List.mapM_cons, List.mapM_cons, toOption_bind, toOption_bind, h x List.mem_cons_self]
      simp only [toOption_bind, hrest]

theorem eq_ok_of_toOption {x : Except ε α} {a : α} (h : x.toOption = some a) : x = .ok a := by
  cases x with
  | error e => cases h
  | ok b => cases h; rfl

end LogRules
