import Cradle.Lib.Decoder

/-!
# Predictive reading

A grammar that is read from left to right without looking ahead: what is expected is a list of
symbols, and a token at the first of them either replaces it by other symbols or is not
accepted.  The reading of an input tells where it stops: at a token that is not accepted
(`stuck`), at the end of the input with symbols left (`short`), or with no symbol left.

A decoder *follows* symbols when it stops where their reading does.
-/

namespace Predictive

/-- Where a reading stops. -/
inductive Outcome (T : Type)
  | stuck
  | short
  | done (rest : List T)
  deriving DecidableEq

section
variable {S T : Type} (next : S → T → Option (List S))

def read : List S → List T → Outcome T
  | [], ts => .done ts
  | _ :: _, [] => .short
  | s :: ss, t :: ts =>
      match next s t with
      | some symbols => read (symbols ++ ss) ts
      | none => .stuck

variable {next} {s : S} {ss ss' symbols : List S} {t : T} {ts : List T}

@[simp] theorem read_nil : read next [] ts = .done ts := by rw [read]

theorem read_cons (h : next s t = some symbols) :
    read next (s :: ss) (t :: ts) = read next (symbols ++ ss) ts := by rw [read, h]

theorem read_stuck (h : next s t = none) : read next (s :: ss) (t :: ts) = .stuck := by
  rw [read, h]

/-- The symbols that follow are read on what is left. -/
theorem read_append : read next (ss ++ ss') ts =
    match read next ss ts with
    | .done rest => read next ss' rest
    | outcome => outcome := by
  induction ts generalizing ss with
  | nil =>
      cases ss with
      | nil => rw [read_nil, List.nil_append]
      | cons s ss => rw [List.cons_append, read, read]
  | cons t ts ih =>
      cases ss with
      | nil => rw [read_nil, List.nil_append]
      | cons s ss =>
          rw [List.cons_append, read, read]
          cases hnext : next s t with
          | none => rfl
          | some symbols => exact (congrArg (read next · ts) (List.append_assoc ..)).symm.trans ih

theorem read_append_done {rest : List T} (h : read next ss ts = .done rest) :
    read next (ss ++ ss') ts = read next ss' rest := by rw [read_append, h]

theorem read_append_stuck (h : read next ss ts = .stuck) : read next (ss ++ ss') ts = .stuck := by
  rw [read_append, h]

theorem read_append_short (h : read next ss ts = .short) : read next (ss ++ ss') ts = .short := by
  rw [read_append, h]

end

/-! ## Decoders that follow symbols -/

section Decoders
variable {S T ε α β : Type}

/-- On an input of at most `n` tokens the decoder stops where the reading of the symbols does:
it throws a `missing` error where the input is too short, and a `bad` one at a token that is
not accepted. -/
def Follows (next : S → T → Option (List S)) (missing bad : ε → Prop) (n : ℕ) (d : Decoder ε T α)
    (ss : List S) : Prop :=
  ∀ ts : List T, ts.length ≤ n →
    match d.run ts with
    | .ok (_, rest) => read next ss ts = .done rest ∧ rest.length ≤ ts.length
    | .error e => (missing e ∧ read next ss ts = .short) ∨ (bad e ∧ read next ss ts = .stuck)

/-- What a decoder does for the symbols that replace another one: where there are none, the
token was not accepted, and it throws. -/
def FollowsFrom (next : S → T → Option (List S)) (missing bad : ε → Prop) (n : ℕ)
    (d : Decoder ε T α) : Option (List S) → Prop
  | some symbols => Follows next missing bad n d symbols
  | none => ∃ e, bad e ∧ ∀ ts, d.run ts = .error e

/-- A case distinction that the decoder and the grammar make alike. -/
theorem FollowsFrom.ite {next : S → T → Option (List S)} {missing bad : ε → Prop} {n : ℕ} {p : Prop}
    [Decidable p] {d d' : Decoder ε T α} {symbols symbols' : Option (List S)}
    (h : FollowsFrom next missing bad n d symbols) (h' : FollowsFrom next missing bad n d' symbols') :
    FollowsFrom next missing bad n (if p then d else d') (if p then symbols else symbols') := by
  split
  · exact h
  · exact h'

namespace Follows

variable {next : S → T → Option (List S)} {missing bad : ε → Prop} {n : ℕ} {d : Decoder ε T α}
  {f : α → Decoder ε T β} {ss ss' : List S} {s : S}

theorem mono {m : ℕ} (hd : Follows next missing bad n d ss) (h : m ≤ n) : Follows next missing bad m d ss :=
  fun ts hts => hd ts (Nat.le_trans hts h)

theorem pure (x : α) : Follows next missing bad n (Pure.pure x) [] := fun _ _ => ⟨read_nil, Nat.le_refl _⟩

theorem bind (hd : Follows next missing bad n d ss) (hf : ∀ x, Follows next missing bad n (f x) ss') :
    Follows next missing bad n (d >>= f) (ss ++ ss') := by
  intro ts hts
  have hfirst := hd ts hts
  rw [StateT.run_bind]
  cases hrun : d.run ts with
  | error e =>
      rw [hrun] at hfirst
      exact hfirst.imp (.imp_right read_append_short) (.imp_right read_append_stuck)
  | ok result =>
      obtain ⟨x, rest⟩ := result
      rw [hrun] at hfirst
      obtain ⟨hread, hlength⟩ := hfirst
      have hsecond := hf x rest (Nat.le_trans hlength hts)
      rw [read_append_done hread]
      change match (f x).run rest with
        | .ok (_, rest') => read next ss' rest = .done rest' ∧ rest'.length ≤ ts.length
        | .error e => _
      cases hrun' : (f x).run rest with
      | error e => rwa [hrun'] at hsecond
      | ok result =>
          rw [hrun'] at hsecond
          exact ⟨hsecond.1, Nat.le_trans hsecond.2 hlength⟩

/-- A last step that reads nothing. -/
theorem map (hd : Follows next missing bad n d ss) (g : α → β) :
    Follows next missing bad n (d >>= fun x => Pure.pure (g x)) ss := by
  have h := hd.bind (f := fun x => Pure.pure (g x)) fun x => pure (g x)
  rwa [List.append_nil] at h

/-- A decoder that takes a token, and goes on as the symbol does. -/
theorem token {take : Decoder ε T T} {f : T → Decoder ε T α} {e : ε} (he : missing e)
    (hnil : take.run [] = .error e) (hcons : ∀ t ts, take.run (t :: ts) = .ok (t, ts))
    (hf : ∀ t, FollowsFrom next missing bad n (f t) (next s t)) :
    Follows next missing bad (n + 1) (take >>= f) [s] := by
  intro ts hts
  cases ts with
  | nil =>
      rw [StateT.run_bind, hnil]
      exact .inl ⟨he, by rw [read]⟩
  | cons t ts =>
      have hstep := hf t
      have hrun : (take >>= f).run (t :: ts) = (f t).run ts := by
        rw [StateT.run_bind, hcons]
        rfl
      rw [hrun]
      cases hnext : next s t with
      | none =>
          rw [hnext] at hstep
          obtain ⟨e', he', herror⟩ := hstep
          rw [herror]
          exact .inr ⟨he', read_stuck hnext⟩
      | some symbols =>
          rw [hnext] at hstep
          have hrest := hstep ts (Nat.le_of_succ_le_succ hts)
          rw [read_cons hnext, List.append_nil]
          cases hrun' : (f t).run ts with
          | error e' => rwa [hrun'] at hrest
          | ok result =>
              rw [hrun'] at hrest
              exact ⟨hrest.1, Nat.le_succ_of_le hrest.2⟩

end Follows
end Decoders
end Predictive
