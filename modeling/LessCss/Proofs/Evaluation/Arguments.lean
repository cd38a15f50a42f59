import LessCss.Compile
import LessCss.Proofs.Evaluation.Reach

/-!
# Arguments and parameters

A call gives some values without name, in order, and some with a name (`Given`).  Binding goes along
the parameters once and keeps what is left of both.  Seen from outside there is no state: a
parameter *takes* one of the values without name if it has no name itself or no argument has its
name, and the one it takes is counted by the parameters before it that take one as well
(`Given.taken`).  So the value of each parameter is known from its place alone (`Given.value?`).

`bindParameters_cons` says what binding one parameter does, `Given.value?_cons_succ` that what is
known from the places is the same for the parameters behind it and what is left.  By induction along
the parameters a call is accepted just if every parameter has a value, every value without name is
taken and every name is that of a parameter (`Given.Fits`), and then each parameter has its value.

The scope of a call has the parameters first and `@arguments` last, with all their values in order.
A parameter of that very name has no value of its own: `@arguments` is bound over it.
-/

namespace LessCss

namespace Bindings

variable {α : Type} {b : Bindings α} {name : String}

/-- What a name is bound to without the bindings of another. -/
theorem lookup_remove (b : Bindings α) (name x : String) :
    (b.remove name).lookup x = if x = name then none else b.lookup x := by
  induction b with
  | nil => simp [remove]
  | cons entry rest ih =>
    obtain ⟨n, y⟩ := entry
    rw [remove] at ih ⊢
    rw [List.filter_cons, List.lookup_cons]
    by_cases hn : n = name
    · rw [if_neg (by simp [hn]), ih]
      by_cases hx : x = name
      · rw [if_pos hx, if_pos hx]
      · rw [if_neg hx, if_neg hx, beq_false_of_ne (hn ▸ hx)]
    · rw [if_pos (by simp [hn]), List.lookup_cons, ih]
      by_cases hx : x = n
      · subst hx
        simp [hn]
      · rw [beq_false_of_ne hx]

/-- Removing a name that is not bound changes nothing. -/
theorem remove_eq_self (h : b.lookup name = none) : b.remove name = b := by
  refine List.filter_eq_self.mpr fun entry hentry => ?_
  exact bne_iff_ne.mpr (Ne.symm (bne_iff_ne.mp (List.lookup_eq_none_iff.mp h entry hentry)))

/-- Without the bindings of a name, all names are among some just if they were among these and that
name. -/
theorem forall_lookup_remove {names : List String} :
    (∀ x a, (b.remove name).lookup x = some a → x ∈ names) ↔
      ∀ x a, b.lookup x = some a → x ∈ name :: names := by
  refine forall_congr' fun x => ?_
  rw [lookup_remove, List.mem_cons]
  by_cases hx : x = name
  · simp [hx]
  · simp [hx]

end Bindings

namespace Evaluation

/-! ## What a call gives -/

/-- The values that a call gives: those without name, in order, and those with a name. -/
structure Given where
  positional : List Node
  named : String → Option Node

namespace Given

/-- What a call gives by arguments with names and values: of several with one name, the last. -/
def ofArguments (args : List (Option String × Node)) : Given where
  positional := args.filterMap fun a => if a.1.isNone then some a.2 else none
  named name := (args.reverse.find? (·.1 == some name)).map Prod.snd

/-- Whether a parameter takes a value without name: it has no name, or no argument has its name. -/
def takes (g : Given) (param : Option String × Option Node) : Bool :=
  param.1.all fun name => (g.named name).isNone

/-- How many values without name are taken by the parameters before one. -/
def taken (g : Given) (params : List (Option String × Option Node)) (i : Nat) : Nat :=
  (params.take i).countP g.takes

/-- The value of a parameter with a name and perhaps a default: that of the argument of its name,
else the next value without name, else the default. -/
def value? (g : Given) (params : List (Option String × Option Node)) (i : Nat) (name : String)
    (default : Option Node) : Option Node :=
  ((g.named name).or g.positional[g.taken params i]?).or default

/-- The parameter at a place takes the value without name at another place. -/
def Takes (g : Given) (params : List (Option String × Option Node)) (i k : Nat) : Prop :=
  ∃ param, params[i]? = some param ∧ g.takes param ∧ g.taken params i = k

/-- Every parameter with a name has a value. -/
def Complete (g : Given) (params : List (Option String × Option Node)) : Prop :=
  ∀ i name default, params[i]? = some (some name, default) →
    ∃ v, g.value? params i name default = some v

/-- What a call gives fits some parameters: each with a name has a value, every value without name
is taken, and every name is that of a parameter. -/
structure Fits (g : Given) (params : List (Option String × Option Node)) : Prop where
  complete : g.Complete params
  consumed : ∀ k < g.positional.length, ∃ i, g.Takes params i k
  known : ∀ name v, g.named name = some v → ∃ default, (some name, default) ∈ params

/-! ### One parameter after the other -/

/-- What is left for the other parameters. -/
def after (g : Given) (param : Option String × Option Node) : Given :=
  { g with positional := if g.takes param then g.positional.tail else g.positional }

variable {g : Given} {param : Option String × Option Node}
  {params : List (Option String × Option Node)}

@[simp] theorem taken_zero (g : Given) (params : List (Option String × Option Node)) :
    g.taken params 0 = 0 := rfl

/-- A parameter behind the first counts the values the first one takes, and those the others
take. -/
theorem taken_cons_succ (i : Nat) :
    g.taken (param :: params) (i + 1) = (if g.takes param then 1 else 0) + g.taken params i := by
  rw [taken, List.take_succ_cons, List.countP_cons, Nat.add_comm, taken]

/-- A parameter behind the first has the same value from what the first leaves. -/
theorem value?_cons_succ (i : Nat) (name : String) (default : Option Node) :
    g.value? (param :: params) (i + 1) name default =
      (g.after param).value? params i name default := by
  have htaken : (g.after param).taken params i = g.taken params i := rfl
  rw [value?, value?, taken_cons_succ, htaken, after]
  by_cases h : g.takes param
  · rw [if_pos h, if_pos h, List.getElem?_tail, Nat.add_comm]
  · rw [if_neg h, if_neg h, Nat.zero_add]

/-- A parameter without name never keeps a call from being complete. -/
theorem complete_cons_none {default : Option Node} :
    g.Complete ((none, default) :: params) ↔ (g.after (none, default)).Complete params := by
  constructor
  · intro h i name d hi
    rw [← value?_cons_succ]
    exact h (i + 1) name d hi
  · intro h i name d hi
    cases i with
    | zero => cases hi
    | succ i =>
      rw [value?_cons_succ]
      exact h i name d hi

/-- A call is complete if the first parameter has a value and the rest of the call is complete. -/
theorem complete_cons_some {name : String} {default : Option Node} :
    g.Complete ((some name, default) :: params) ↔
      (∃ v, g.value? ((some name, default) :: params) 0 name default = some v) ∧
        (g.after (some name, default)).Complete params := by
  constructor
  · intro h
    refine ⟨h 0 name default rfl, fun i x d hi => ?_⟩
    rw [← value?_cons_succ]
    exact h (i + 1) x d hi
  · rintro ⟨hfirst, hrest⟩ i x d hi
    cases i with
    | zero =>
      cases hi
      exact hfirst
    | succ i =>
      rw [value?_cons_succ]
      exact hrest i x d hi

/-- What is left behind a parameter is shorter by what the parameter takes. -/
theorem length_after_le {n : Nat} :
    (g.after param).positional.length ≤ n ↔
      g.positional.length ≤ n + if g.takes param then 1 else 0 := by
  rw [after]
  split
  · rw [List.length_tail]
    omega
  · rfl

/-! ### Every value is taken once -/

/-- The parameters that take a value are counted from zero on. -/
theorem exists_takes {k : Nat} (h : k < params.countP g.takes) : ∃ i, g.Takes params i k := by
  induction params generalizing k with
  | nil => cases h
  | cons param params ih =>
    rw [List.countP_cons] at h
    by_cases hp : g.takes param
    · rw [if_pos hp] at h
      cases k with
      | zero => exact ⟨0, param, rfl, hp, rfl⟩
      | succ k =>
        obtain ⟨i, p, hi, htakes, htaken⟩ := ih (Nat.lt_of_succ_lt_succ h)
        exact ⟨i + 1, p, hi, htakes, by rw [taken_cons_succ, if_pos hp, htaken, Nat.add_comm]⟩
    · rw [if_neg hp] at h
      obtain ⟨i, p, hi, htakes, htaken⟩ := ih h
      exact ⟨i + 1, p, hi, htakes, by rw [taken_cons_succ, if_neg hp, htaken, Nat.zero_add]⟩

/-- Before a parameter that takes a value there are fewer such than up to any later place. -/
theorem taken_lt {i j : Nat} {p : Option String × Option Node} (hi : params[i]? = some p)
    (hp : g.takes p) (hij : i < j) : g.taken params i < g.taken params j := by
  have hnext : g.taken params (i + 1) = g.taken params i + 1 := by
    rw [taken, List.take_add_one, hi, List.countP_append, Option.toList_some, List.countP_singleton,
      if_pos hp, taken]
  have hmono : g.taken params (i + 1) ≤ g.taken params j :=
    (List.take_sublist_take_left hij).countP_le
  omega

/-- No two parameters take the same value. -/
theorem Takes.unique {i j k : Nat} (hi : g.Takes params i k) (hj : g.Takes params j k) : i = j := by
  obtain ⟨p, hp, hptakes, hpk⟩ := hi
  obtain ⟨q, hq, hqtakes, hqk⟩ := hj
  rcases Nat.lt_trichotomy i j with h | h | h
  · have := taken_lt hp hptakes h
    omega
  · exact h
  · have := taken_lt hq hqtakes h
    omega

/-- All values without name are taken just if there are enough parameters that take one. -/
theorem consumed_iff :
    (∀ k < g.positional.length, ∃ i, g.Takes params i k) ↔
      g.positional.length ≤ params.countP g.takes := by
  constructor
  · intro h
    by_contra hlt
    -- the last value would be taken after all parameters that take one
    obtain ⟨i, p, hi, hp, htaken⟩ := h (g.positional.length - 1) (by omega)
    have hlast := taken_lt hi hp (List.getElem?_eq_some_iff.mp hi).1
    have hall : g.taken params params.length = params.countP g.takes := by
      rw [taken, List.take_length]
    omega
  · intro h k hk
    exact exists_takes (Nat.lt_of_lt_of_le hk h)

end Given

/-! ## Binding -/

section Binding

variable {mixin : String} {offset : Nat} {params : List (Option String × Option Node)}
  {positional : List Node} {named bound result : Bindings Node} {name : String}
  {default : Option Node}

/-- What binding a parameter with a name does: it gives the parameter a value, if there is one, and
goes on with what is left. -/
theorem bindParameters_cons :
    bindParameters mixin offset ((some name, default) :: params) positional named bound =
      match ((named.lookup name).or positional.head?).or default with
      | some v =>
        bindParameters mixin offset params
          (if (named.lookup name).isNone then positional.tail else positional) (named.remove name)
          (bound.put name v)
      | none => .error (.missingArgument mixin name offset) := by
  rw [bindParameters.eq_def]
  dsimp only
  cases hlookup : named.lookup name with
  | some v => rfl
  | none =>
    rw [Bindings.remove_eq_self hlookup]
    cases positional with
    | cons v rest => rfl
    | nil => cases default <;> rfl

/-- The arguments with a name that are left are those that the call gives, as far as parameters
ask. -/
def LeftOf (g : Given) (params : List (Option String × Option Node)) (named : Bindings Node) :
    Prop :=
  ∀ name ∈ params.filterMap Prod.fst, named.lookup name = g.named name

variable {g : Given}

/-- A parameter with a name gets the value that is known from its place. -/
theorem bindParameters_named (hnamed : LeftOf g ((some name, default) :: params) named) :
    bindParameters mixin offset ((some name, default) :: params) g.positional named bound =
      match g.value? ((some name, default) :: params) 0 name default with
      | some v =>
        bindParameters mixin offset params (g.after (some name, default)).positional
          (named.remove name)
          (bound.put name v)
      | none => .error (.missingArgument mixin name offset) := by
  rw [bindParameters_cons, hnamed name List.mem_cons_self, List.head?_eq_getElem?]
  rfl

/-- Removing the name of a parameter leaves the named arguments of the parameters behind it. -/
theorem LeftOf.remove (hnamed : LeftOf g ((some name, default) :: params) named)
    (hdistinct : (((some name, default) :: params).filterMap Prod.fst).Nodup) :
    LeftOf (g.after (some name, default)) params (named.remove name) := by
  intro x hx
  have hne : x ≠ name := fun h => (List.nodup_cons.mp hdistinct).1 (h ▸ hx)
  rw [Bindings.lookup_remove, if_neg hne]
  exact hnamed x (List.mem_cons_of_mem _ hx)

/-- When binding succeeds, in terms of what is left. -/
theorem bindParameters_succeeds (mixin : String) (offset : Nat) (hnamed : LeftOf g params named)
    (hdistinct : (params.filterMap Prod.fst).Nodup) (bound : Bindings Node) :
    Succeeds (bindParameters mixin offset params g.positional named bound) ↔
      g.Complete params ∧ g.positional.length ≤ params.countP g.takes ∧
        ∀ name v, named.lookup name = some v → name ∈ params.filterMap Prod.fst := by
  induction params generalizing g named bound with
  | nil =>
    have hcomplete : g.Complete [] := nofun
    rw [bindParameters]
    constructor
    · rintro ⟨result, h⟩
      split at h
      · next hempty =>
        simp only [Bool.and_eq_true, List.isEmpty_iff] at hempty
        simp [hcomplete, hempty]
      · cases h
    · rintro ⟨-, hlength, hknown⟩
      have hpositional : g.positional = [] := List.eq_nil_of_length_eq_zero (Nat.le_zero.mp hlength)
      cases named with
      | nil => exact ⟨bound, by simp [hpositional]⟩
      | cons entry rest =>
        exact absurd (hknown entry.1 entry.2 (by rw [List.lookup_cons, beq_self_eq_true]))
          List.not_mem_nil
  | cons param params ih =>
    obtain ⟨name, default⟩ := param
    rw [List.countP_cons]
    cases name with
    | none =>
      rw [bindParameters, Given.complete_cons_none, ← Given.length_after_le]
      exact ih (g := g.after (none, default)) hnamed hdistinct bound
    | some name =>
      have hrest := ih (hnamed.remove hdistinct) (List.nodup_cons.mp hdistinct).2
      rw [bindParameters_named hnamed, Given.complete_cons_some, ← Given.length_after_le]
      cases hvalue : g.value? ((some name, default) :: params) 0 name default with
      | none =>
        constructor
        · rintro ⟨result, h⟩
          cases h
        · rintro ⟨⟨⟨v, hv⟩, -⟩, -⟩
          cases hv
      | some v =>
        have hfirst : ∃ w, some v = some w := ⟨v, rfl⟩
        rw [hrest, Bindings.forall_lookup_remove, and_iff_right hfirst]
        rfl

/-- What binding gives: each parameter with a name has its value, and nothing else is bound. -/
theorem lookup_bindParameters (hnamed : LeftOf g params named)
    (hdistinct : (params.filterMap Prod.fst).Nodup)
    (h : bindParameters mixin offset params g.positional named bound = .ok result) :
    (∀ i name default, params[i]? = some (some name, default) →
      result.lookup name = g.value? params i name default) ∧
    ∀ name ∉ params.filterMap Prod.fst, result.lookup name = bound.lookup name := by
  induction params generalizing g named bound with
  | nil =>
    rw [bindParameters] at h
    split at h
    · cases h
      refine ⟨fun i name default hi => ?_, fun _ _ => rfl⟩
      rw [List.getElem?_nil] at hi
      cases hi
    · cases h
  | cons param params ih =>
    obtain ⟨name, default⟩ := param
    cases name with
    | none =>
      rw [bindParameters] at h
      obtain ⟨hvalues, hothers⟩ := ih (g := g.after (none, default)) hnamed hdistinct h
      refine ⟨fun i x d hi => ?_, hothers⟩
      cases i with
      | zero => cases hi
      | succ i => rw [Given.value?_cons_succ, hvalues i x d hi]
    | some name =>
      obtain ⟨hnotin, hdistinct'⟩ := List.nodup_cons.mp hdistinct
      rw [bindParameters_named hnamed] at h
      cases hvalue : g.value? ((some name, default) :: params) 0 name default with
      | none =>
        rw [hvalue] at h
        cases h
      | some v =>
        rw [hvalue] at h
        obtain ⟨hvalues, hothers⟩ := ih (hnamed.remove hdistinct) hdistinct' h
        refine ⟨fun i x d hi => ?_, fun x hx => ?_⟩
        · cases i with
          | zero =>
            cases hi
            -- no later parameter has the name, so the value stays
            rw [hothers name hnotin, Bindings.lookup_put, if_pos rfl, hvalue]
          | succ i => rw [Given.value?_cons_succ, hvalues i x d hi]
        · obtain ⟨hne, hx⟩ := not_or.mp (mt List.mem_cons.mpr hx)
          rw [hothers x hx, Bindings.lookup_put, if_neg hne]

end Binding

/-! ## The arguments of a call -/

/-- Some bindings and those of the arguments with a name. -/
def bindNamed (b : Bindings Node) (args : List (Option String × Node)) : Bindings Node :=
  args.foldl
    (fun b a => match a.1 with
      | some name => b.put name a.2
      | none => b) b

/-- Of several arguments with one name the last counts. -/
theorem lookup_bindNamed (args : List (Option String × Node)) (b : Bindings Node) (name : String) :
    (bindNamed b args).lookup name = ((Given.ofArguments args).named name).or (b.lookup name) := by
  induction args generalizing b with
  | nil => rfl
  | cons arg args ih =>
    obtain ⟨n, v⟩ := arg
    have hstep : bindNamed b ((n, v) :: args) =
        bindNamed (match n with | some name => b.put name v | none => b) args := rfl
    rw [hstep, ih]
    simp only [Given.ofArguments, List.reverse_cons, List.find?_append, List.find?_singleton]
    cases n with
    | none => simp
    | some n =>
      rw [Bindings.lookup_put]
      by_cases hn : name = n
      · subst hn
        cases args.reverse.find? _ <;> simp
      · cases args.reverse.find? _ <;> simp [hn, Ne.symm hn]

/-- There is one value for each argument. -/
theorem length_of_evalEach {d : Deeper} {c : Context} {args values : List Node}
    (h : evalEach d c args = .ok values) : values.length = args.length := by
  induction args generalizing values with
  | nil =>
    cases h
    rfl
  | cons arg args ih =>
    obtain ⟨y, -, h⟩ := exists_of_bind_eq_ok h
    obtain ⟨rest, hrest, h⟩ := exists_of_bind_eq_ok h
    cases h
    exact congrArg Nat.succ (ih hrest)

/-- Where names are distinct, a parameter is known by its name. -/
theorem place_of_name {params : List (Option String × Option Node)}
    (hdistinct : (params.filterMap Prod.fst).Nodup) {i j : Nat} {name : String} {a b : Option Node}
    (hi : params[i]? = some (some name, a)) (hj : params[j]? = some (some name, b)) : i = j := by
  have hne : ∀ {i j : Nat} {a b : Option Node}, params[i]? = some (some name, a) →
      params[j]? = some (some name, b) → ¬ i < j := by
    intro i j a b hi hj hij
    obtain ⟨hilt, hi⟩ := List.getElem?_eq_some_iff.mp hi
    obtain ⟨hjlt, hj⟩ := List.getElem?_eq_some_iff.mp hj
    have hpair :=
      List.pairwise_iff_getElem.mp (List.pairwise_filterMap.mp hdistinct) i j hilt hjlt hij
    exact hpair name (by rw [hi]) name (by rw [hj]) rfl
  exact Nat.le_antisymm (Nat.le_of_not_lt (hne hj hi)) (Nat.le_of_not_lt (hne hi hj))

/-- What a call binds: the scope of its arguments has the values of the parameters, then a variable
with all values, and nothing else. -/
theorem argumentFrame_eq_ok {m : Mixin} {mixin : String} {offset : Nat}
    {args : List (Option String × Node)} {frame : Frame}
    (h : argumentFrame m mixin offset args = .ok frame) :
    ∃ bound, bindParameters mixin offset m.params (Given.ofArguments args).positional
      (bindNamed [] args) [] =
        .ok bound ∧
      frame.mixins = [] ∧ frame.values.lookup "@arguments" = some (.row (args.map Prod.snd)) ∧
      ∀ name ≠ "@arguments", frame.values.lookup name = bound.lookup name := by
  obtain ⟨bound, hbound, h⟩ := exists_of_bind_eq_ok h
  cases h
  refine ⟨bound, hbound, rfl, ?_, fun name hname => ?_⟩
  · rw [Bindings.lookup_put, if_pos rfl]
  · rw [Bindings.lookup_put, if_neg hname]

/-- **Arguments are bound exactly.**  A call whose arguments have values is accepted just if what it
gives fits the parameters.  Then each parameter with a name has a value: that of the argument of its
name, else the next value without name, else its default; each value without name is taken by one
parameter, and each name is that of one.  In the scope of the call every parameter is bound to its
value, a variable holds all values in order, and no other name is bound.  Only a parameter that has
the name of this variable is hidden by it. -/
theorem argumentFrame_exact {d : Deeper} {c : Context} {m : Mixin} {args values : List Node}
    (hdistinct : (m.params.filterMap Prod.fst).Nodup) (hvalues : evalEach d c args = .ok values)
    (mixin : String) (offset : Nat) :
    let arguments := (args.map argumentName?).zip values
    let g := Given.ofArguments arguments
    (Succeeds (argumentFrame m mixin offset arguments) ↔ g.Fits m.params) ∧
      ∀ frame, argumentFrame m mixin offset arguments = .ok frame →
        (∀ i name default, m.params[i]? = some (some name, default) →
          ∃ v, g.value? m.params i name default = some v ∧
            (name ≠ "@arguments" → frame.values.lookup name = some v)) ∧
        frame.values.lookup "@arguments" = some (.row values) ∧
        (∀ name ≠ "@arguments", name ∉ m.params.filterMap Prod.fst →
          frame.values.lookup name = none) ∧
        frame.mixins = [] ∧
        (∀ k < g.positional.length, ∃! i, g.Takes m.params i k) ∧
        ∀ name v, g.named name = some v →
          ∃! i : Nat, ∃ default : Option Node, m.params[i]? = some (some name, default) := by
  intro arguments g
  have hrow : arguments.map Prod.snd = values := by
    refine List.map_snd_zip (Nat.le_of_eq ?_)
    rw [List.length_map, length_of_evalEach hvalues]
  have hlookup (name : String) : (bindNamed [] arguments).lookup name = g.named name := by
    rw [lookup_bindNamed, List.lookup_nil, Option.or_none]
  have hnamed : LeftOf g m.params (bindNamed [] arguments) := fun name _ => hlookup name
  have hsucceeds := bindParameters_succeeds mixin offset hnamed hdistinct []
  have hfits :
      Succeeds (bindParameters mixin offset m.params g.positional (bindNamed [] arguments) []) ↔
      g.Fits m.params := by
    rw [hsucceeds, ← Given.consumed_iff]
    constructor
    · rintro ⟨hcomplete, hconsumed, hknown⟩
      refine ⟨hcomplete, hconsumed, fun name v hname => ?_⟩
      have hin := hknown name v ((hlookup name).trans hname)
      obtain ⟨⟨x, default⟩, hparam, rfl⟩ := List.mem_filterMap.mp hin
      exact ⟨default, hparam⟩
    · rintro ⟨hcomplete, hconsumed, hknown⟩
      refine ⟨hcomplete, hconsumed, fun name v hname => ?_⟩
      obtain ⟨default, hparam⟩ := hknown name v ((hlookup name).symm.trans hname)
      exact List.mem_filterMap.mpr ⟨_, hparam, rfl⟩
  refine ⟨⟨fun h => ?_, fun h => ?_⟩, fun frame h => ?_⟩
  · obtain ⟨frame, h⟩ := h
    obtain ⟨bound, hbound, -⟩ := argumentFrame_eq_ok h
    exact hfits.mp ⟨bound, hbound⟩
  · exact (hfits.mpr h).bind fun bound => .ok _
  · obtain ⟨bound, hbound, hmixins, hall, hkept⟩ := argumentFrame_eq_ok h
    have hfit := hfits.mp ⟨bound, hbound⟩
    obtain ⟨hbinds, hothers⟩ := lookup_bindParameters hnamed hdistinct hbound
    refine ⟨fun i name default hi => ?_, hrow ▸ hall, fun name hname hnotin => ?_, hmixins,
      fun k hk => ?_, fun name v hname => ?_⟩
    · obtain ⟨v, hv⟩ := hfit.complete i name default hi
      refine ⟨v, hv, fun hname => ?_⟩
      rw [hkept name hname, hbinds i name default hi, hv]
    · rw [hkept name hname, hothers name hnotin, List.lookup_nil]
    · obtain ⟨i, hi⟩ := hfit.consumed k hk
      exact ⟨i, hi, fun j hj => hj.unique hi⟩
    · obtain ⟨default, hparam⟩ := hfit.known name v hname
      obtain ⟨i, hi⟩ := List.getElem?_of_mem hparam
      exact ⟨i, ⟨default, hi⟩, fun j ⟨_, hj⟩ => place_of_name hdistinct hj hi⟩

/-- A mixin with two names around a parameter without name, the last of which has a default. -/
def threeParameters : Mixin :=
  ⟨".m", [(some "@a", none), (none, some (.keyword "plain")), (some "@b", some (.keyword "d"))],
    none, []⟩

/-- A name that is given twice, a value for the parameter without name, and a default. -/
theorem argumentFrame_exact_mixed :
    (threeParameters.params.filterMap Prod.fst).Nodup ∧
    evalEach (.within 0) (.ofOptions {})
      [.keyword "x", .argument (some "@a") (.keyword "y"), .argument (some "@a") (.keyword "z")] =
      .ok [.keyword "x", .keyword "y", .keyword "z"] ∧
    ∃ frame, argumentFrame threeParameters ".m" 0
        [(none, .keyword "x"), (some "@a", .keyword "y"), (some "@a", .keyword "z")] = .ok frame ∧
      frame.values.lookup "@a" = some (.keyword "z") ∧
      frame.values.lookup "@b" = some (.keyword "d") ∧
      frame.values.lookup "@arguments" =
        some (.row [.keyword "x", .keyword "y", .keyword "z"]) := by
  have hdistinct : (threeParameters.params.filterMap Prod.fst).Nodup := by decide
  have hvalues : evalEach (.within 0) (.ofOptions {})
      [.keyword "x", .argument (some "@a") (.keyword "y"), .argument (some "@a") (.keyword "z")] =
      .ok [.keyword "x", .keyword "y", .keyword "z"] := rfl
  obtain ⟨-, hbound⟩ := argumentFrame_exact hdistinct hvalues ".m" 0
  obtain ⟨hbinds, hall, -⟩ := hbound _ rfl
  obtain ⟨a, ha, hlookup⟩ := hbinds 0 "@a" none rfl
  obtain ⟨b, hb, hlookup'⟩ := hbinds 2 "@b" (some (.keyword "d")) rfl
  cases ha
  cases hb
  exact ⟨hdistinct, hvalues, _, rfl, hlookup (by decide), hlookup' (by decide), hall⟩

/-- A mixin with a parameter that has the name of the variable with all values. -/
def hiddenParameter : Mixin := ⟨".m", [(some "@a", none), (some "@arguments", none)], none, []⟩

/-- The parameter gets the second value, but its name stands for both of them. -/
theorem argumentFrame_hides_parameter :
    let arguments := [(none, .keyword "x"), (none, .keyword "y")]
    (hiddenParameter.params.filterMap Prod.fst).Nodup ∧
    evalEach (.within 0) (.ofOptions {}) (arguments.map Prod.snd) = .ok (arguments.map Prod.snd) ∧
    (∃ frame, argumentFrame hiddenParameter ".m" 0 arguments = .ok frame ∧
      (Given.ofArguments arguments).value? hiddenParameter.params 1 "@arguments" none =
        some (.keyword "y") ∧
      frame.values.lookup "@arguments" = some (.row [.keyword "x", .keyword "y"])) ∧
    Node.row [.keyword "x", .keyword "y"] ≠ .keyword "y" ∧
    (compile { minify := true }
      ".m(@a, @arguments) \x7b w: @arguments; v: @a; \x7d .x \x7b .m(1, 2); \x7d").toOption =
      some ".x\x7bw:1 2;v:1\x7d" :=
  ⟨by decide, rfl, ⟨_, rfl, rfl, rfl⟩, nofun, by decide +kernel⟩

end Evaluation
end LessCss
