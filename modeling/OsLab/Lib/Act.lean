import Mathlib

/-!
# Sequential programs that may stop

Straight-line code that changes a state and can stop short of its end.  `Ensures` says what holds
of every result, together with a condition on the ways in which the program may stop.
-/

namespace OsLab

/-- Programs over the state `σ` that may stop with an `ε`. -/
abbrev Act (σ ε : Type) := StateT σ (Except ε)

namespace Act

variable {σ ε α β : Type} {safe : ε → Prop}

/-- From `s` the program returns with `post` or stops in a `safe` way. -/
structure Ensures (safe : ε → Prop) (program : Act σ ε α) (s : σ) (post : α → σ → Prop) : Prop where
  returns : ∀ result t, program s = .ok (result, t) → post result t
  stops : ∀ stop, program s = .error stop → safe stop

variable {program : Act σ ε α}

variable {post : α → σ → Prop}

theorem ensures_of_ok {s t : σ} {result : α} (outcome : program s = .ok (result, t)) :
    Ensures safe program s post ↔ post result t := by
  constructor
  · intro ensured
    exact ensured.returns result t outcome
  intro holds
  refine ⟨fun other u same => ?_, fun stop same => ?_⟩
  · rw [outcome] at same
    cases same
    exact holds
  · rw [outcome] at same
    cases same

variable {s : σ}

theorem ensures_of_error {stop : ε} (outcome : program s = .error stop) :
    Ensures safe program s post ↔ safe stop := by
  constructor
  · intro ensured
    exact ensured.stops stop outcome
  intro holds
  refine ⟨fun other u same => ?_, fun other same => ?_⟩
  · rw [outcome] at same
    cases same
  · rw [outcome] at same
    cases same
    exact holds

@[simp]
theorem ensures_pure (result : α) (s : σ) (post : α → σ → Prop) :
    Ensures safe (pure result : Act σ ε α) s post ↔ post result s :=
  ensures_of_ok rfl

@[simp]
theorem ensures_throw (stop : ε) (s : σ) (post : α → σ → Prop) :
    Ensures safe (throw stop : Act σ ε α) s post ↔ safe stop :=
  ensures_of_error rfl

@[simp]
theorem ensures_get (s : σ) (post : σ → σ → Prop) :
    Ensures safe (get : Act σ ε σ) s post ↔ post s s :=
  ensures_of_ok rfl

@[simp]
theorem ensures_set (t s : σ) (post : PUnit → σ → Prop) :
    Ensures safe (set t : Act σ ε PUnit) s post ↔ post ⟨⟩ t :=
  ensures_of_ok rfl

@[simp]
theorem ensures_modify (change : σ → σ) (s : σ) (post : PUnit → σ → Prop) :
    Ensures safe (modify change : Act σ ε PUnit) s post ↔ post ⟨⟩ (change s) :=
  ensures_of_ok rfl

theorem ensures_congr {program other : Act σ ε α} {s t : σ} (same : program s = other t) :
    Ensures safe program s post ↔ Ensures safe other t post := by
  constructor
  · intro ensured
    exact ⟨fun result u => same ▸ ensured.returns result u, fun stop => same ▸ ensured.stops stop⟩
  · intro ensured
    exact ⟨fun result u => same ▸ ensured.returns result u, fun stop => same ▸ ensured.stops stop⟩

variable {second : α → Act σ ε β} {first : Act σ ε α}

theorem bind_of_ok {s t : σ} {result : α} (outcome : first s = .ok (result, t)) :
    (first >>= second) s = second result t := by
  change (first s >>= fun (result, t) => second result t) = _
  rw [outcome]
  rfl

theorem bind_of_error {stop : ε} (outcome : first s = .error stop) :
    (first >>= second) s = .error stop := by
  change (first s >>= fun (result, t) => second result t) = _
  rw [outcome]
  rfl

/-- Sequencing: the second program starts where the first one ends. -/
@[simp]
theorem ensures_bind (first : Act σ ε α) (second : α → Act σ ε β) (s : σ) (post : β → σ → Prop) :
    Ensures safe (first >>= second) s post ↔
      Ensures safe first s fun result t => Ensures safe (second result) t post := by
  cases outcome : first s with
  | ok pair =>
    obtain ⟨result, t⟩ := pair
    rw [ensures_of_ok outcome]
    exact ensures_congr (bind_of_ok outcome)
  | error stop => rw [ensures_of_error outcome, ensures_of_error (bind_of_error outcome)]

@[simp]
theorem ensures_map (change : α → β) (program : Act σ ε α) (s : σ) (post : β → σ → Prop) :
    Ensures safe (change <$> program) s post ↔
      Ensures safe program s fun result t => post (change result) t := by
  rw [map_eq_pure_bind, ensures_bind]
  simp only [ensures_pure]

theorem ensures_any : Ensures (fun _ => True) program s fun _ _ => True :=
  ⟨fun _ _ _ => trivial, fun _ _ => trivial⟩

theorem Ensures.mono {strong weak : α → σ → Prop} (ensured : Ensures safe program s strong)
    (weaker : ∀ result t, strong result t → weak result t) : Ensures safe program s weak :=
  ⟨fun result t outcome => weaker result t (ensured.returns result t outcome), ensured.stops⟩

theorem Ensures.weaken {loose : ε → Prop} (ensured : Ensures safe program s post)
    (weaker : ∀ stop, safe stop → loose stop) : Ensures loose program s post :=
  ⟨ensured.returns, fun stop outcome => weaker stop (ensured.stops stop outcome)⟩

/-- Run one program after another from what the first one ensures. -/
theorem Ensures.bind {mid : α → σ → Prop} {post : β → σ → Prop} (ensured : Ensures safe first s mid)
    (next : ∀ result t, mid result t → Ensures safe (second result) t post) :
    Ensures safe (first >>= second) s post :=
  (ensures_bind first second s post).2 (ensured.mono next)

end Act

end OsLab
