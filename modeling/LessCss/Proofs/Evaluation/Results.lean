import LessCss.Error
import Mathlib.Data.List.Basic

/-!
# Results

A computation gives a value or an error.  `Ensures x P` says that `P` holds of the value if there is
one, `Succeeds x` that there is one, `Fails x F` that `F` holds of the error if there is one, and
`Finished x` that the error is not an exhausted bound.  `Ends x P F` says both what holds of the
value and what holds of the error.  All are proved along the steps of a computation, with one rule
for each way of putting computations together.
-/

namespace LessCss

/-! ## Steps -/

/-- A computation in two steps has a value only if both have one. -/
theorem exists_of_bind_eq_ok {α β : Type} {x : Except Error α} {f : α → Except Error β} {b : β}
    (h : x >>= f = .ok b) : ∃ a, x = .ok a ∧ f a = .ok b := by
  cases x with
  | ok a => exact ⟨a, rfl, h⟩
  | error e => cases h

/-- Changing the errors of a computation does not make it succeed. -/
theorem eq_ok_of_mapError {α : Type} {x : Except Error α} {f : Error → Error} {a : α}
    (h : x.mapError f = .ok a) : x = .ok a := by
  cases x with
  | ok b =>
    cases h
    rfl
  | error e => cases h

/-- An error that was changed comes from an error of the computation. -/
theorem eq_error_of_mapError {α ε : Type} {x : Except Error α} {f : Error → ε} {e : ε}
    (h : x.mapError f = .error e) : ∃ e', x = .error e' ∧ f e' = e := by
  cases x with
  | ok a => cases h
  | error e' => exact ⟨e', rfl, Except.error.inj h⟩

/-- Results are the same if a function that loses nothing makes the same of them. -/
theorem eq_of_return_eq {α β : Type} {f : α → β} (hf : ∀ a b, f a = f b → a = b)
    {x y : Except Error α} (h : (do return f (← x) : Except Error β) = do return f (← y)) :
    x = y := by
  cases x with
  | ok a =>
    cases y with
    | ok b => rw [hf a b (Except.ok.inj h)]
    | error e => cases h
  | error e =>
    cases y with
    | ok b => cases h
    | error e' => rw [Except.error.inj h]

/-- The values of the items of a row: there are as many, and each is that of some item. -/
theorem values_of_mapM {α β : Type} {f : α → Except Error β} {xs : List α} {ys : List β}
    (h : xs.mapM f = .ok ys) : ys.length = xs.length ∧ ∀ y ∈ ys, ∃ x ∈ xs, f x = .ok y := by
  induction xs generalizing ys with
  | nil =>
    cases h
    exact ⟨rfl, nofun⟩
  | cons x xs ih =>
    rw [List.mapM_cons] at h
    obtain ⟨y, hy, h⟩ := exists_of_bind_eq_ok h
    obtain ⟨ys, hys, h⟩ := exists_of_bind_eq_ok h
    cases h
    obtain ⟨hlength, hvalues⟩ := ih hys
    refine ⟨congrArg Nat.succ hlength, List.forall_mem_cons.mpr ⟨⟨x, List.mem_cons_self, hy⟩, ?_⟩⟩
    intro z hz
    obtain ⟨w, hw, hfw⟩ := hvalues z hz
    exact ⟨w, List.mem_cons_of_mem _ hw, hfw⟩

/-! ## What holds of a value -/

/-- What holds of the value of a result, if it has one. -/
def Ensures {α : Type} (x : Except Error α) (P : α → Prop) : Prop := ∀ a, x = .ok a → P a

namespace Ensures

variable {α β : Type} {P : α → Prop} {Q : β → Prop}

theorem ok {a : α} (h : P a) : Ensures (.ok a) P := by
  intro b hb
  cases hb
  exact h

theorem error {e : Error} : Ensures (.error e) P := by
  intro a ha
  cases ha

/-- What is ensured of a result carries over to the next step. -/
theorem bind {x : Except Error α} {f : α → Except Error β} (hx : Ensures x P)
    (hf : ∀ a, P a → Ensures (f a) Q) : Ensures (x >>= f) Q := by
  cases x with
  | ok a => exact hf a (hx a rfl)
  | error e => exact error

/-- For a step whose value does not matter. -/
theorem seq {x : Except Error α} {f : α → Except Error β} (hf : ∀ a, Ensures (f a) Q) :
    Ensures (x >>= f) Q :=
  bind (P := fun _ => True) (fun _ _ => trivial) fun a _ => hf a

theorem map {x : Except Error α} {f : α → β} (hx : Ensures x P) (hf : ∀ a, P a → Q (f a)) :
    Ensures (f <$> x) Q := by
  cases x with
  | ok a => exact ok (hf a (hx a rfl))
  | error e => exact error

/-- What is ensured of the result for each of a row is ensured of all results. -/
theorem mapM {f : β → Except Error α} {xs : List β} (h : ∀ x ∈ xs, Ensures (f x) P) :
    Ensures (xs.mapM f) fun ys => ∀ y ∈ ys, P y := by
  induction xs with
  | nil => exact ok nofun
  | cons x xs ih =>
    rw [List.mapM_cons]
    obtain ⟨hx, hxs⟩ := List.forall_mem_cons.mp h
    exact bind hx fun y hy => bind (ih hxs) fun ys hys => ok (List.forall_mem_cons.mpr ⟨hy, hys⟩)

/-- Changing the errors leaves what is ensured of the result. -/
theorem mapError {x : Except Error α} (h : Ensures x P) (f : Error → Error) :
    Ensures (x.mapError f) P := by
  cases x with
  | ok a => exact ok (h a rfl)
  | error e => exact error

end Ensures

/-! ## What holds of an error -/

/-- What holds of the error of a result, if it has one. -/
def Fails {α : Type} (x : Except Error α) (F : Error → Prop) : Prop := ∀ e, x = .error e → F e

namespace Fails

variable {α β : Type} {F G : Error → Prop} {P : α → Prop}

theorem ok (a : α) : Fails (.ok a) F := by
  intro e he
  cases he

theorem error {e : Error} (h : F e) : Fails (.error e : Except Error α) F := by
  intro e' he
  cases he
  exact h

theorem mono {x : Except Error α} (hx : Fails x F) (h : ∀ e, F e → G e) : Fails x G :=
  fun e he => h e (hx e he)

/-- Two steps fail in some ways only if both of them do. -/
theorem bind {x : Except Error α} {f : α → Except Error β} (hx : Fails x F)
    (hf : ∀ a, Fails (f a) F) :
    Fails (x >>= f) F := by
  cases x with
  | ok a => exact hf a
  | error e => exact error (hx e rfl)

theorem mapM {f : β → Except Error α} {xs : List β} (h : ∀ x ∈ xs, Fails (f x) F) :
    Fails (xs.mapM f) F := by
  induction xs with
  | nil => exact ok []
  | cons x xs ih =>
    rw [List.mapM_cons]
    obtain ⟨hx, hxs⟩ := List.forall_mem_cons.mp h
    exact hx.bind fun y => (ih hxs).bind fun ys => ok (y :: ys)

theorem mapError {x : Except Error α} {f : Error → Error} (hx : Fails x F)
    (h : ∀ e, F e → G (f e)) :
    Fails (x.mapError f) G := by
  cases x with
  | ok a => exact ok a
  | error e => exact error (h e (hx e rfl))

end Fails

/-- What holds of the value of a result if it has one, and of its error if it has one. -/
structure Ends {α : Type} (x : Except Error α) (P : α → Prop) (F : Error → Prop) : Prop where
  value : Ensures x P
  error : Fails x F

namespace Ends

variable {α β : Type} {F : Error → Prop} {P : α → Prop} {Q : β → Prop}

theorem ok {a : α} (h : P a) : Ends (.ok a) P F := ⟨.ok h, .ok a⟩

theorem raise {e : Error} (h : F e) : Ends (.error e) P F := ⟨.error, .error h⟩

/-- A computation ends as foreseen if the first step does and, from what is then known, the
second. -/
theorem bind {x : Except Error α} {f : α → Except Error β} (hx : Ends x P F)
    (hf : ∀ a, P a → Ends (f a) Q F) :
    Ends (x >>= f) Q F := by
  cases x with
  | ok a => exact hf a (hx.value a rfl)
  | error e => exact raise (hx.error e rfl)

/-- For a step whose value is known to be its value. -/
theorem of_fails {x : Except Error α} (hx : Fails x F) : Ends x (fun a => x = .ok a) F :=
  ⟨fun _ ha => ha, hx⟩

/-- What is known after a first step may be needed to know how the second one fails. -/
theorem fails {x : Except Error α} {f : α → Except Error β} (hx : Ends x P F)
    (hf : ∀ a, P a → Fails (f a) F) :
    Fails (x >>= f) F := by
  cases x with
  | ok a => exact hf a (hx.value a rfl)
  | error e => exact .error (hx.error e rfl)

end Ends

/-! ## Results with a value -/

/-- A result that is a value. -/
def Succeeds {α : Type} (x : Except Error α) : Prop := ∃ a, x = .ok a

namespace Succeeds

variable {α β : Type}

theorem ok (a : α) : Succeeds (.ok a) := ⟨a, rfl⟩

/-- Two steps succeed if each of them does. -/
theorem bind {x : Except Error α} {f : α → Except Error β} (hx : Succeeds x)
    (hf : ∀ a, Succeeds (f a)) :
    Succeeds (x >>= f) := by
  obtain ⟨a, rfl⟩ := hx
  exact hf a

theorem map {x : Except Error α} (hx : Succeeds x) (f : α → β) : Succeeds (f <$> x) := by
  obtain ⟨a, rfl⟩ := hx
  exact ⟨f a, rfl⟩

theorem mapM {f : β → Except Error α} {xs : List β} (h : ∀ x ∈ xs, Succeeds (f x)) :
    Succeeds (xs.mapM f) := by
  induction xs with
  | nil => exact ok []
  | cons x xs ih =>
    rw [List.mapM_cons]
    obtain ⟨hx, hxs⟩ := List.forall_mem_cons.mp h
    exact hx.bind fun y => (ih hxs).bind fun ys => ok (y :: ys)

end Succeeds

/-! ## Results other than an exhausted bound -/

/-- A result, be it a value or an error, other than that a bound was exhausted. -/
def Finished {α : Type} (x : Except Error α) : Prop := x ≠ .error .unfinished

namespace Finished

variable {α β : Type}

theorem ok (a : α) : Finished (.ok a) := by
  intro h
  cases h

theorem error {e : Error} (h : e ≠ .unfinished) : Finished (.error e : Except Error α) := by
  intro he
  cases he
  exact h rfl

/-- A computation that fails in some ways only has finished, if running out of depth is not one of
them. -/
theorem of_fails {x : Except Error α} {F : Error → Prop} (hx : Fails x F) (h : ¬ F .unfinished) :
    Finished x :=
  fun he => h (hx _ he)

theorem of_succeeds {x : Except Error α} (hx : Succeeds x) : Finished x := by
  obtain ⟨a, rfl⟩ := hx
  exact ok a

/-- Two steps finish if each of them does. -/
theorem bind {x : Except Error α} {f : α → Except Error β} (hx : Finished x)
    (hf : ∀ a, Finished (f a)) :
    Finished (x >>= f) := by
  cases x with
  | ok a => exact hf a
  | error e =>
    refine error fun he => hx ?_
    rw [he]

theorem locate {x : Except Error α} (hx : Finished x) (offset : Nat) :
    Finished (x.mapError (Error.locate offset)) := by
  cases x with
  | ok a => exact ok a
  | error e =>
    refine error fun he => hx ?_
    unfold Error.locate at he
    split at he
    · cases he
    · rw [he]

end Finished

end LessCss
