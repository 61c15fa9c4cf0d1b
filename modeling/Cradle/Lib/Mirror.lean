import Cradle.Lib.Decoder

/-!
# Readers with a state that mirror decoders

A reader moves through a state, which it keeps when it throws.  A `View` tells what of a state
is still to be read, and which states are good.  The reader mirrors a decoder when from every
good state it does what the decoder does on what is to be read, and goes to a good state again;
where the decoder fails, so does the reader, in a state that is at least safe.
-/

/-- A reader of values of type `α` with states of type `σ`. -/
abbrev Reader (ε σ α : Type) := ExceptT ε (StateM σ) α

namespace Reader

variable {ε σ α γ : Type}

/-- The outcome of a reader, and the state in which it ends. -/
def exec (m : Reader ε σ α) (s : σ) : Except ε α × σ := StateT.run (ExceptT.run m) s

@[simp] theorem exec_pure (x : α) (s : σ) : exec (pure x : Reader ε σ α) s = (.ok x, s) := rfl

@[simp] theorem exec_throw (e : ε) (s : σ) :
    exec (throw e : Reader ε σ α) s = (.error e, s) := rfl

@[simp] theorem exec_get (s : σ) : exec (get : Reader ε σ σ) s = (.ok s, s) := rfl

theorem exec_bind_ok {m : Reader ε σ α} {f : α → Reader ε σ γ} {s s' : σ} {x : α}
    (h : exec m s = (.ok x, s')) : exec (m >>= f) s = exec (f x) s' := by
  rw [exec, ExceptT.run_bind, StateT.run_bind]
  rw [exec] at h
  rw [h]
  rfl

theorem exec_bind_error {m : Reader ε σ α} {f : α → Reader ε σ γ} {s s' : σ} {e : ε}
    (h : exec m s = (.error e, s')) : exec (m >>= f) s = (.error e, s') := by
  rw [exec, ExceptT.run_bind, StateT.run_bind]
  rw [exec] at h
  rw [h]
  rfl

/-! ## What a reader throws -/

/-- Only such errors are thrown. -/
def Throws (E : ε → Prop) (m : Reader ε σ α) : Prop := ∀ s e, (exec m s).1 = .error e → E e

namespace Throws

variable {E : ε → Prop} {m : Reader ε σ α} {f : α → Reader ε σ γ}

theorem of_ok (h : ∀ s, ∃ x, (exec m s).1 = .ok x) : Throws E m := by
  intro s e he
  obtain ⟨x, hx⟩ := h s
  rw [hx] at he
  exact nomatch he

theorem pure (x : α) : Throws E (Pure.pure x : Reader ε σ α) := of_ok fun _ => ⟨x, rfl⟩

theorem throw {e : ε} (he : E e) : Throws E (MonadExcept.throw e : Reader ε σ α) := by
  intro s e' h
  cases h
  exact he

theorem bind (hm : Throws E m) (hf : ∀ x, Throws E (f x)) : Throws E (m >>= f) := by
  intro s e he
  rcases hexec : exec m s with ⟨outcome, s'⟩
  cases outcome with
  | error e' =>
      rw [exec_bind_error hexec] at he
      cases he
      exact hm s e (by rw [hexec])
  | ok x =>
      rw [exec_bind_ok hexec] at he
      exact hf x s' e he

end Throws

/-! ## What a reader only adds to -/

/-- Every state reached is related to the one before. -/
def Extends (r : σ → σ → Prop) (m : Reader ε σ α) : Prop := ∀ s, r s (exec m s).2

namespace Extends

variable {r : σ → σ → Prop} {m : Reader ε σ α} {f : α → Reader ε σ γ}

theorem pure [Std.Refl r] (x : α) : Extends r (Pure.pure x : Reader ε σ α) := fun s => refl_of r s

theorem throw [Std.Refl r] (e : ε) : Extends r (MonadExcept.throw e : Reader ε σ α) :=
  fun s => refl_of r s

theorem bind [IsTrans σ r] (hm : Extends r m) (hf : ∀ x, Extends r (f x)) :
    Extends r (m >>= f) := by
  intro s
  have hfirst := hm s
  rcases hexec : exec m s with ⟨outcome, s'⟩
  rw [hexec] at hfirst
  cases outcome with
  | error e => rwa [exec_bind_error hexec]
  | ok x =>
      rw [exec_bind_ok hexec]
      exact trans_of r hfirst (hf x s')

end Extends

theorem exec_map_snd (m : Reader ε σ α) (g : α → γ) (s : σ) :
    (exec (m >>= fun x => pure (g x)) s).2 = (exec m s).2 := by
  rcases hexec : exec m s with ⟨outcome, s'⟩
  cases outcome with
  | error e => rw [exec_bind_error hexec]
  | ok x => rw [exec_bind_ok hexec, exec_pure]

/-! ## Mirroring a decoder -/

/-- How states are read. -/
structure View (σ β : Type) where
  good : σ → Prop
  safe : σ → Prop
  rest : σ → List β
  safe_of_good : ∀ s, good s → safe s

/-- From every good state the reader does what the decoder does, unless that is to fail with
an excused error. -/
def Mirrors {β : Type} (view : View σ β) (excused : ε → Prop) (m : Reader ε σ α)
    (d : Decoder ε β α) : Prop :=
  ∀ s, view.good s →
    (∀ x rest, d.run (view.rest s) = .ok (x, rest) →
      ∃ s', exec m s = (.ok x, s') ∧ view.good s' ∧ view.rest s' = rest) ∧
    ∀ e, d.run (view.rest s) = .error e →
      excused e ∨ ∃ s', exec m s = (.error e, s') ∧ view.safe s'

namespace Mirrors

variable {β : Type} {view : View σ β} {excused : ε → Prop} {m : Reader ε σ α}
  {d : Decoder ε β α} {f : α → Reader ε σ γ} {g : α → Decoder ε β γ} {s : σ}

theorem pure (x : α) :
    Mirrors view excused (Pure.pure x) (Pure.pure x : Decoder ε β α) := by
  refine fun s hgood => ⟨fun y rest h => ?_, fun e h => nomatch h⟩
  cases h
  exact ⟨s, rfl, hgood, rfl⟩

theorem bind (hm : Mirrors view excused m d) (hf : ∀ x, Mirrors view excused (f x) (g x)) :
    Mirrors view excused (m >>= f) (d >>= g) := by
  intro s hgood
  obtain ⟨hok, herror⟩ := hm s hgood
  cases hrun : d.run (view.rest s) with
  | error e =>
      have hbind : (d >>= g).run (view.rest s) = .error e := by rw [StateT.run_bind, hrun]; rfl
      rw [hbind]
      refine ⟨fun y rest h => (nomatch h), fun e' h => ?_⟩
      cases h
      rcases herror e hrun with hexcused | ⟨s', hexec, hsafe⟩
      · exact .inl hexcused
      · exact .inr ⟨s', exec_bind_error hexec, hsafe⟩
  | ok result =>
      obtain ⟨x, rest⟩ := result
      obtain ⟨s', hexec, hgood', hrest⟩ := hok x rest hrun
      have hbind : (d >>= g).run (view.rest s) = (g x).run (view.rest s') := by
        rw [StateT.run_bind, hrun, hrest]
        rfl
      rw [hbind, exec_bind_ok hexec]
      exact hf x s' hgood'

theorem times {d : Decoder ε β α} (hm : Mirrors view excused m d) {ms : ℕ → Reader ε σ (List α)}
    (hzero : ms 0 = Pure.pure [])
    (hsucc : ∀ n, ms (n + 1) = m >>= fun x => ms n >>= fun xs => Pure.pure (x :: xs)) (n : ℕ) :
    Mirrors view excused (ms n) (Decoder.times d n) := by
  induction n with
  | zero =>
      rw [hzero]
      exact .pure []
  | succ n ih =>
      rw [hsucc]
      exact hm.bind fun x => ih.bind fun xs => .pure (x :: xs)

/-- The outcome is that of the decoder. -/
theorem outcome (hm : Mirrors view excused m d) (hgood : view.good s)
    (hexcused : ∀ e, d.run (view.rest s) = .error e → ¬ excused e) :
    (exec m s).1 = (d.run (view.rest s)).map Prod.fst ∧ view.safe (exec m s).2 := by
  obtain ⟨hok, herror⟩ := hm s hgood
  cases hrun : d.run (view.rest s) with
  | error e =>
      obtain ⟨s', hexec, hsafe⟩ := (herror e hrun).resolve_left (hexcused e hrun)
      rw [hexec]
      exact ⟨rfl, hsafe⟩
  | ok result =>
      obtain ⟨x, rest⟩ := result
      obtain ⟨s', hexec, hgood', -⟩ := hok x rest hrun
      rw [hexec]
      exact ⟨rfl, view.safe_of_good s' hgood'⟩

/-- What comes after a reader that mirrors a decoder decides whether the run is safe. -/
theorem safe_bind_iff {P : α → List β → Prop} (hm : Mirrors view (fun _ => False) m d)
    (hgood : view.good s)
    (hf : ∀ x s', view.good s' → (view.safe (exec (f x) s').2 ↔ P x (view.rest s'))) :
    view.safe (exec (m >>= f) s).2 ↔
      ∀ x rest, d.run (view.rest s) = .ok (x, rest) → P x rest := by
  obtain ⟨hok, herror⟩ := hm s hgood
  constructor
  · intro hsafe x rest hrun
    obtain ⟨s', hexec, hgood', rfl⟩ := hok x rest hrun
    rw [exec_bind_ok hexec] at hsafe
    exact (hf x s' hgood').mp hsafe
  · intro h
    cases hrun : d.run (view.rest s) with
    | error e =>
        obtain ⟨s', hexec, hsafe⟩ := (herror e hrun).resolve_left id
        rw [exec_bind_error hexec]
        exact hsafe
    | ok result =>
        obtain ⟨x, rest⟩ := result
        obtain ⟨s', hexec, hgood', rfl⟩ := hok x rest hrun
        rw [exec_bind_ok hexec]
        exact (hf x s' hgood').mpr (h x _ hrun)

end Mirrors

end Reader
