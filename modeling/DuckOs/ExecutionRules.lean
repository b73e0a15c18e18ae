import Mathlib

/-! Pre- and postcondition rules for computations that either return or stop
with an exception. Both outcomes keep the state, so a rule can speak about what
was already written when the computation stopped. -/
namespace DuckOs.ExecutionRules

variable {ε σ α β : Type} {x : EStateM ε σ α} {s t s' : σ} {a : α} {Q Q' : α → σ → Prop}
  {E E' : ε → σ → Prop} {e : ε} {f : α → EStateM ε σ β}

/-- From `s`, the computation returns in `Q` or stops in `E`. -/
def Holds (x : EStateM ε σ α) (s : σ) (Q : α → σ → Prop) (E : ε → σ → Prop) : Prop :=
  match x s with
  | .ok a t => Q a t
  | .error e t => E e t

/-- The exception postcondition of a computation that must return. -/
def Never (ε σ : Type) : ε → σ → Prop := fun _ _ => False

theorem holds_ok (h : x s = .ok a t) (hq : Q a t) : Holds x s Q E := by
  unfold Holds
  rw [h]
  exact hq

theorem holds_error (h : x s = .error e t) (he : E e t) : Holds x s Q E := by
  unfold Holds
  rw [h]
  exact he

theorem Holds.of_ok (h : Holds x s Q E) (hx : x s = .ok a t) : Q a t := by
  unfold Holds at h
  rwa [hx] at h

theorem Holds.of_error (h : Holds x s Q E) (hx : x s = .error e t) : E e t := by
  unfold Holds at h
  rwa [hx] at h

theorem Holds.returns (h : Holds x s Q (Never ε σ)) : ∃ a t, x s = .ok a t ∧ Q a t := by
  unfold Holds at h
  cases hx : x s with
  | ok a t => rw [hx] at h; exact ⟨a,t,rfl,h⟩
  | error e t => rw [hx] at h; exact h.elim

/-- A program whose error postcondition refutes `P` returns exactly under `P`. -/
theorem Holds.returns_iff {P : Prop} (h : Holds x s Q E) (hq : ∀ a t, Q a t → P)
    (he : ∀ e t, E e t → ¬ P) : (∃ a t, x s = .ok a t) ↔ P := by
  constructor
  · rintro ⟨a,t,hx⟩
    exact hq a t (h.of_ok hx)
  · intro hP
    cases hx : x s with
    | ok a t => exact ⟨a,t,rfl⟩
    | error e t => exact (he e t (h.of_error hx) hP).elim

theorem Holds.mono (h : Holds x s Q E) (hq : ∀ a t, Q a t → Q' a t) (he : ∀ e t, E e t → E' e t) :
    Holds x s Q' E' := by
  unfold Holds at h ⊢
  cases hx : x s with
  | ok a t => rw [hx] at h; exact hq a t h
  | error e t => rw [hx] at h; exact he e t h

theorem Holds.imp (h : Holds x s Q E) (hq : ∀ a t, Q a t → Q' a t) : Holds x s Q' E :=
  h.mono hq fun _ _ he => he

theorem Holds.onError (h : Holds x s Q E) (he : ∀ e t, E e t → E' e t) : Holds x s Q E' :=
  h.mono (fun _ _ hq => hq) he

/-- Where nothing is asked of the errors. -/
theorem Holds.orAny (h : Holds x s Q E) : Holds x s Q fun _ _ => True :=
  h.onError fun _ _ _ => trivial

theorem Holds.weaken (h : Holds x s Q (Never ε σ)) : Holds x s Q E :=
  h.mono (fun _ _ hq => hq) fun _ _ he => he.elim

theorem Holds.and (h : Holds x s Q E) (h' : Holds x s Q' E') :
    Holds x s (fun a t => Q a t ∧ Q' a t) (fun e t => E e t ∧ E' e t) := by
  unfold Holds at h h' ⊢
  cases hx : x s with
  | ok a t => rw [hx] at h h'; exact ⟨h,h'⟩
  | error e t => rw [hx] at h h'; exact ⟨h,h'⟩

/-- For a step of which nothing is needed. -/
theorem holds_trivial (x : EStateM ε σ α) (s : σ) :
    Holds x s (fun _ _ => True) (fun _ _ => True) := by
  unfold Holds
  cases x s <;> trivial

theorem holds_pure (h : Q a s) : Holds (pure a : EStateM ε σ α) s Q E := h

theorem holds_throw (h : E e s) : Holds (throw e : EStateM ε σ α) s Q E := h

theorem bind_ok (h : x s = .ok a t) : (x >>= f) s = f a t := by
  change EStateM.bind x f s = _
  unfold EStateM.bind
  rw [h]

theorem bind_error (h : x s = .error e t) : (x >>= f) s = .error e t := by
  change EStateM.bind x f s = _
  unfold EStateM.bind
  rw [h]

theorem bind_eq_ok {u : σ} {b : β} (h : (x >>= f) s = .ok b u) :
    ∃ a t, x s = .ok a t ∧ f a t = .ok b u := by
  cases hx : x s with
  | ok a t => exact ⟨a,t,rfl,by rwa [bind_ok hx] at h⟩
  | error e t => rw [bind_error hx] at h; cases h

/-- Sequencing: the first computation must establish what the second one needs. -/
theorem Holds.bind {R : α → σ → Prop} {Q : β → σ → Prop} (h : Holds x s R E)
    (hf : ∀ a t, R a t → Holds (f a) t Q E) : Holds (x >>= f) s Q E := by
  cases hx : x s with
  | ok a t =>
    have hr := hf a t (h.of_ok hx)
    unfold Holds at hr ⊢
    rwa [bind_ok hx]
  | error e t => exact holds_error (bind_error hx) (h.of_error hx)

theorem get_bind (f : σ → EStateM ε σ β) (s : σ) : (get >>= f) s = f s s := rfl

theorem holds_get {f : σ → EStateM ε σ β} {Q : β → σ → Prop} (hf : Holds (f s) s Q E) :
    Holds (get >>= f) s Q E := hf

/-- A first step that is known. -/
theorem holds_bind_ok {Q : β → σ → Prop} (h : x s = .ok a t) (hf : Holds (f a) t Q E) :
    Holds (x >>= f) s Q E := by
  unfold Holds at hf ⊢
  rwa [bind_ok h]

theorem holds_bind_ite {b : Bool} {e : ε} {Q : β → σ → Prop}
    (h : x s = if b then .ok a s else .error e s) (ht : b = true → Holds (f a) s Q E)
    (he : b = false → E e s) : Holds (x >>= f) s Q E := by
  cases b with
  | false => exact holds_error (bind_error h) (he rfl)
  | true => exact holds_bind_ok h (ht rfl)

/-- Loop rule. The invariant may mention the elements still to be visited. -/
theorem holds_foldlM {f : β → α → EStateM ε σ β} (I : List α → β → σ → Prop)
    (step : ∀ a rest b s, I (a :: rest) b s → Holds (f b a) s (I rest) E) :
    ∀ (l : List α) (b : β) (s : σ), I l b s → Holds (l.foldlM f b) s (I []) E := by
  intro l
  induction l with
  | nil => intro b s h; exact holds_pure h
  | cons a rest ih =>
    intro b s h
    exact (step a rest b s h).bind fun b' t ht => ih b' t ht

/-- The invariant mentions the elements already visited. -/
theorem holds_foldlM_done {f : β → α → EStateM ε σ β} {l : List α} (I : List α → β → σ → Prop)
    (step : ∀ done a rest b s, l = done ++ a :: rest → I done b s →
      Holds (f b a) s (I (done ++ [a])) E) {b : β} (h : I [] b s) :
    Holds (l.foldlM f b) s (I l) E := by
  refine (holds_foldlM (fun rest b s => ∃ done, l = done ++ rest ∧ I done b s) ?_ l b s
    ⟨[],rfl,h⟩).imp ?_
  · rintro a rest b s ⟨done,hl,hI⟩
    refine (step done a rest b s hl hI).imp fun _ _ h' => ⟨done ++ [a],?_,h'⟩
    rw [hl,List.append_assoc,List.singleton_append]
  · rintro b s ⟨done,hl,hI⟩
    rwa [hl,List.append_nil]

/-- Whatever the state, a result that is returned satisfies `Q`. -/
def Yields (x : EStateM ε σ α) (Q : α → Prop) : Prop :=
  ∀ s, Holds x s (fun a _ => Q a) (fun _ _ => True)

theorem Yields.of_ok {Q : α → Prop} (h : Yields x Q) (hx : x s = .ok a t) : Q a :=
  (h s).of_ok hx

theorem yields_pure {Q : α → Prop} (h : Q a) : Yields (pure a : EStateM ε σ α) Q :=
  fun _ => holds_pure h

theorem yields_throw (e : ε) (Q : α → Prop) : Yields (throw e : EStateM ε σ α) Q :=
  fun _ => trivial

theorem yields_any (x : EStateM ε σ α) : Yields x fun _ => True := holds_trivial x

theorem Yields.imp {Q Q' : α → Prop} (h : Yields x Q) (hq : ∀ a, Q a → Q' a) : Yields x Q' :=
  fun s => (h s).imp fun a _ => hq a

theorem Yields.bind {R : α → Prop} {Q : β → Prop} (h : Yields x R)
    (hf : ∀ a, R a → Yields (f a) Q) :
    Yields (x >>= f) Q :=
  fun s => (h s).bind fun a t ha => hf a ha t

/-- A first step of whose result nothing is needed. -/
theorem yields_after {Q : β → Prop} (hf : ∀ a, Yields (f a) Q) : Yields (x >>= f) Q :=
  (yields_any x).bind fun a _ => hf a

theorem yields_foldlM {f : β → α → EStateM ε σ β} (I : β → Prop)
    (step : ∀ a b, I b → Yields (f b a) I) (l : List α) (b : β) (h : I b) :
    Yields (l.foldlM f b) I :=
  fun s => holds_foldlM (fun _ b _ => I b) (fun a _ b s hb => step a b hb s) l b s h

theorem yields_foldlM_foldl {τ : Type} {R : β → τ → Prop} {f : β → α → EStateM ε σ β}
    {g : τ → α → τ} (step : ∀ a b c, R b c → Yields (f b a) fun b' => R b' (g c a)) :
    ∀ (l : List α) {b : β} {c : τ}, R b c → Yields (l.foldlM f b) fun b' => R b' (l.foldl g c) := by
  intro l
  induction l with
  | nil => exact fun h => yields_pure h
  | cons a l ih => exact fun h => (step a _ _ h).bind fun _ h' => ih h'

section Lockstep

variable {τ α' β' : Type}

/-- Both computations return, with results and states in `R`, or both stop with one exception. -/
def InStep (x : EStateM ε σ α) (y : EStateM ε τ α') (s : σ) (t : τ)
    (R : α → α' → σ → τ → Prop) : Prop :=
  match x s, y t with
  | .ok a s', .ok a' t' => R a a' s' t'
  | .error e _, .error e' _ => e = e'
  | _, _ => False

theorem inStep_ok {y : EStateM ε τ α'} {t t' : τ} {a' : α'} {R : α → α' → σ → τ → Prop}
    (hx : x s = .ok a s') (hy : y t = .ok a' t') (h : R a a' s' t') : InStep x y s t R := by
  unfold InStep
  rw [hx,hy]
  exact h

theorem inStep_error {y : EStateM ε τ α'} {t t' : τ} {R : α → α' → σ → τ → Prop}
    (hx : x s = .error e s') (hy : y t = .error e t') : InStep x y s t R := by
  unfold InStep
  rw [hx,hy]

/-- Sequencing of computations that run in step. -/
theorem InStep.bind {y : EStateM ε τ α'} {g : α' → EStateM ε τ β'} {t : τ}
    {R : α → α' → σ → τ → Prop} {Q : β → β' → σ → τ → Prop} (h : InStep x y s t R)
    (hf : ∀ a a' s' t', R a a' s' t' → InStep (f a) (g a') s' t' Q) :
    InStep (x >>= f) (y >>= g) s t Q := by
  unfold InStep at h
  cases hx : x s with
  | ok a s' =>
    cases hy : y t with
    | ok a' t' =>
      rw [hx,hy] at h
      have hr := hf a a' s' t' h
      unfold InStep at hr ⊢
      rwa [bind_ok hx,bind_ok hy]
    | error e' t' =>
      rw [hx,hy] at h
      exact h.elim
  | error e s' =>
    cases hy : y t with
    | ok a' t' =>
      rw [hx,hy] at h
      exact h.elim
    | error e' t' =>
      rw [hx,hy] at h
      cases h
      exact inStep_error (bind_error hx) (bind_error hy)

end Lockstep

/-- The computation returns, and the result passes the test. -/
def returnsWith (x : EStateM ε σ α) (s : σ) (test : α → σ → Bool) : Bool :=
  match x s with
  | .ok a t => test a t
  | .error _ _ => false

theorem returnsWith_elim {test : α → σ → Bool} (h : returnsWith x s test = true) :
    ∃ a t, x s = .ok a t ∧ test a t = true := by
  unfold returnsWith at h
  cases hx : x s with
  | ok a t =>
    rw [hx] at h
    exact ⟨a,t,rfl,h⟩
  | error e t =>
    rw [hx] at h
    cases h

def stopsWith (x : EStateM ε σ α) (s : σ) (test : ε → σ → Bool) : Bool :=
  match x s with
  | .ok _ _ => false
  | .error e t => test e t

theorem stopsWith_elim {test : ε → σ → Bool} (h : stopsWith x s test = true) :
    ∃ e t, x s = .error e t ∧ test e t = true := by
  unfold stopsWith at h
  cases hx : x s with
  | ok a t =>
    rw [hx] at h
    cases h
  | error e t =>
    rw [hx] at h
    exact ⟨e,t,rfl,h⟩

section Runs

variable {ι : Type} {exec : ι → α → EStateM ε σ α} {C : ι → α → σ → Prop}

/-- What is reached from `a₀` and `s₀` by operations that return, each used where `C` allows it. -/
inductive Runs (exec : ι → α → EStateM ε σ α) (C : ι → α → σ → Prop) (a₀ : α) (s₀ : σ) :
    α → σ → Prop where
  | refl : Runs exec C a₀ s₀ a₀ s₀
  | next {a a' : α} {s s' : σ} {i : ι} (before : Runs exec C a₀ s₀ a s) (ok : C i a s)
      (step : exec i a s = .ok a' s') : Runs exec C a₀ s₀ a' s'

theorem Runs.invariant (I : α → σ → Prop)
    (step : ∀ i a s, I a s → C i a s → Holds (exec i a) s I fun _ _ => True) {a₀ : α} {s₀ : σ}
    (r : Runs exec C a₀ s₀ a s) (h : I a₀ s₀) : I a s := by
  induction r with
  | refl => exact h
  | next _ ok he ih => exact (step _ _ _ ih ok).of_ok he

/-- A list of operations that all return is a run. -/
theorem Runs.of_foldlM : ∀ (l : List ι) {a₀ a b : α} {s₀ s t : σ}, (∀ i ∈ l, ∀ a s, C i a s) →
    Runs exec C a₀ s₀ a s → l.foldlM (fun a i => exec i a) a s = .ok b t →
    Runs exec C a₀ s₀ b t := by
  intro l
  induction l with
  | nil =>
    intro a₀ a b s₀ s t _ before he
    cases he
    exact before
  | cons i l ih =>
    intro a₀ a b s₀ s t hC before he
    obtain ⟨a',s',hstep,hrest⟩ := bind_eq_ok he
    exact ih (fun j hj => hC j (List.mem_cons_of_mem _ hj))
      (before.next (hC i List.mem_cons_self a s) hstep) hrest

/-- An operation that stops where it may not be used. -/
def guarded (exec : ι → α → EStateM ε σ α) (C : ι → α → σ → Prop) [∀ i a s, Decidable (C i a s)]
    (e : ε) (a : α) (i : ι) : EStateM ε σ α := fun s =>
  if C i a s then exec i a s else .error e s

/-- A list of operations, each checked where it is used, is a run. -/
theorem Runs.of_guarded [∀ i a s, Decidable (C i a s)] (e : ε) :
    ∀ (l : List ι) {a₀ a b : α} {s₀ s t : σ}, Runs exec C a₀ s₀ a s →
    l.foldlM (guarded exec C e) a s = .ok b t → Runs exec C a₀ s₀ b t := by
  intro l
  induction l with
  | nil =>
    intro a₀ a b s₀ s t before he
    cases he
    exact before
  | cons i l ih =>
    intro a₀ a b s₀ s t before he
    obtain ⟨a',s',hstep,hrest⟩ := bind_eq_ok he
    unfold guarded at hstep
    split at hstep
    · rename_i hC
      exact ih (before.next hC hstep) hrest
    · cases hstep

end Runs

end DuckOs.ExecutionRules
