import Cradle.Lib.Predictive
import Cradle.Thinknode.UrlType

/-!
# What becomes of a URL that is no schema

`parse_url_type_string` turns the `char const*` exceptions of the parser into a
`parsing_error`.  An unknown type code is thrown as a `std::string`, and a count that is no
number as the exception of `lexical_cast`: these are not caught.  Where entries of a map have
one name, only the last of them is kept.

What the parser expects of the tokens is stated apart from it, as a grammar that is read from
left to right.
-/

namespace Cradle.Thinknode.UrlGrammar

open Predictive

/-! ## What the tokens are read as -/

/-- What is expected: a type, a name, a count, or the entries of a map, of which `seen` are the
names so far.  `typed` entries are a name and a type, the others only a name. -/
inductive Expected
  | type
  | name
  | count (typed : Bool)
  | entries (typed : Bool) (n : ℕ) (seen : List Text)

/-- The entries still to come. -/
def more (typed : Bool) (n : ℕ) (seen : List Text) : List Expected :=
  if n = 0 then [] else [.entries typed n seen]

/-- What comes after the name of an entry. -/
def ofName (typed : Bool) : List Expected := if typed then [.type] else []

/-- What comes after a type code, if it is one. -/
def ofTypeCode (typeCode : Text) : Option (List Expected) :=
  if typeCode = "array".toList then some [.type]
  else if typeCode = "blob".toList then some []
  else if typeCode = "boolean".toList then some []
  else if typeCode = "datetime".toList then some []
  else if typeCode = "dynamic".toList then some []
  else if typeCode = "enum".toList then some [.count false]
  else if typeCode = "float".toList then some []
  else if typeCode = "integer".toList then some []
  else if typeCode = "map".toList then some [.type, .type]
  else if typeCode = "named".toList then some [.name, .name, .name]
  else if typeCode = "nil".toList then some []
  else if typeCode = "optional".toList then some [.type]
  else if typeCode = "reference".toList then some [.type]
  else if typeCode = "string".toList then some []
  else if typeCode = "structure".toList then some [.count true]
  else if typeCode = "union".toList then some [.count true]
  else none

/-- A token at something expected.  If `strict`, a name is not accepted twice in one map. -/
def next (strict : Bool) : Expected → Text → Option (List Expected)
  | .type, typeCode => ofTypeCode typeCode
  | .name, _ => some []
  | .count typed, token =>
      match lexicalCastSize token with
      | .ok n => some (more typed n [])
      | .error _ => none
  | .entries typed n seen, name =>
      if strict = true ∧ name ∈ seen then none
      else some (ofName typed ++ more typed (n - 1) (name :: seen))

/-- The exceptions that are caught. -/
def Caught (e : Thrown) : Prop := ∃ what, e = .message what

/-- Those of an unknown type code and of a count that is no number. -/
def Uncaught (e : Thrown) : Prop := (∃ what, e = .string what) ∨ e = .badLexicalCast

/-! ## The parser stops where the reading does -/

section Following
variable {n : ℕ} {α : Type}

theorem follows_getToken : Follows (next false) Caught Uncaught n getToken [.name] := by
  intro ts _
  cases ts with
  | nil => exact .inl ⟨⟨_, rfl⟩, rfl⟩
  | cons token ts => exact ⟨(read_cons rfl).trans read_nil, Nat.le_succ _⟩

/-- A token that decides how to go on. -/
theorem follows_token {s : Expected} {f : Text → Decoder Thrown Text α}
    (hf : ∀ token, FollowsFrom (next false) Caught Uncaught n (f token) (next false s token)) :
    Follows (next false) Caught Uncaught (n + 1) (getToken >>= f) [s] :=
  .token (e := .message "missing type components".toList) ⟨_, rfl⟩ rfl (fun _ _ => rfl) hf

theorem error_of_lexicalCastSize {token : Text} {e : Thrown} (h : lexicalCastSize token = .error e) :
    e = .badLexicalCast := by
  have hite {p : Prop} [Decidable p] {count : ℕ}
      (h : (if p then Except.ok count else .error Thrown.badLexicalCast) = .error e) :
      e = .badLexicalCast := by
    split at h <;> cases h
    rfl
  exact hite h

/-- A count, and what is read for it. -/
theorem follows_count {typed : Bool} {d : ℕ → Decoder Thrown Text α}
    (hd : ∀ count, Follows (next false) Caught Uncaught n (d count) (more typed count [])) :
    Follows (next false) Caught Uncaught n (do
      let token ← getToken
      let count ← liftM (lexicalCastSize token)
      d count) [.count typed] := by
  refine (follows_token fun token => ?_).mono n.le_succ
  rw [next]
  cases hcast : lexicalCastSize token with
  | error e =>
      exact ⟨e, .inr (error_of_lexicalCastSize hcast), fun _ => rfl⟩
  | ok count => exact hd count

theorem follows_times {typed : Bool} {f : Text → Decoder Thrown Text α}
    (hf : ∀ name, Follows (next false) Caught Uncaught n (f name) (ofName typed)) (count : ℕ)
    (seen : List Text) :
    Follows (next false) Caught Uncaught n (Decoder.times (getToken >>= f) count) (more typed count seen) := by
  induction count generalizing seen with
  | zero => exact .pure []
  | succ count ih =>
      rw [Decoder.times, bind_assoc]
      refine (follows_token fun name => ?_).mono n.le_succ
      exact (hf name).bind fun x => (ih (name :: seen)).map (x :: ·)

theorem followsFrom_parsePayload {parseNested : Decoder Thrown Text TypeInfo}
    (hnested : Follows (next false) Caught Uncaught n parseNested [.type]) (typeCode : Text) :
    FollowsFrom (next false) Caught Uncaught n (parsePayload parseNested typeCode)
      (ofTypeCode typeCode) := by
  have hleaf (t : TypeInfo) :
      FollowsFrom (next false) Caught Uncaught n (pure t : Decoder Thrown Text TypeInfo) (some []) :=
    show Follows (next false) Caught Uncaught n (pure t : Decoder Thrown Text TypeInfo) [] from .pure t
  have hunary (f : TypeInfo → TypeInfo) :
      FollowsFrom (next false) Caught Uncaught n (parseNested >>= fun t => pure (f t)) (some [.type]) :=
    hnested.map f
  unfold parsePayload ofTypeCode
  refine .ite (hunary (TypeInfo.array · none)) ?_
  refine .ite (hleaf .blob) (.ite (hleaf .boolean) (.ite (hleaf .datetime) ?_))
  refine .ite (hleaf .dynamic) ?_
  refine .ite (follows_count fun count => (follows_times (fun name => .pure _) count []).map _) ?_
  refine .ite (hleaf .float) (.ite (hleaf .integer) ?_)
  refine .ite (hnested.bind fun keySchema => hnested.map _) ?_
  refine .ite ?_ (.ite (hleaf .nil) ?_)
  · refine follows_getToken.bind fun account => follows_getToken.bind fun app => ?_
    exact follows_getToken.map fun name => TypeInfo.named (some account) app name
  refine .ite (hunary TypeInfo.optional) (.ite (hunary TypeInfo.reference) ?_)
  refine .ite (hleaf .string) ?_
  refine .ite (follows_count fun count => (follows_times (fun name => hnested.map _) count []).map _) ?_
  refine .ite (follows_count fun count => (follows_times (fun name => hnested.map _) count []).map _) ?_
  exact ⟨_, .inl ⟨_, rfl⟩, fun _ => rfl⟩

theorem follows_parseUrlType (fuel : ℕ) :
    Follows (next false) Caught Uncaught fuel (parseUrlType fuel) [.type] := by
  induction fuel with
  | zero =>
      intro ts hts
      rw [List.length_eq_zero_iff.mp (Nat.le_zero.mp hts)]
      exact .inl ⟨⟨_, rfl⟩, rfl⟩
  | succ fuel ih =>
      refine follows_token fun typeCode => ?_
      exact followsFrom_parsePayload ih typeCode

end Following

/-! ## What a schema accounts for -/

/-- A token that stands for a component may be another spelling of a count. -/
def StandsFor (token component : Text) : Prop :=
  token = component ∨ ∃ n, lexicalCastSize token = .ok n ∧ component = Nat.toDigits 10 n

/-- The tokens stand for the components, in some order. -/
def AccountedFor (tokens components : List Text) : Prop :=
  ∃ ordered : List Text, ordered.Perm components ∧ List.Forall₂ StandsFor tokens ordered

/-- The schema has a component for every token, and no other components. -/
def AccountsFor (type : TypeInfo) (tokens : List Text) : Prop :=
  AccountedFor tokens (type.components [])

namespace AccountedFor

variable {tokens tokens' components components' : List Text} {t component : Text}

theorem length_eq (h : AccountedFor tokens components) : tokens.length = components.length := by
  obtain ⟨ordered, hperm, hstands⟩ := h
  exact hstands.length_eq.trans hperm.length_eq

theorem nil : AccountedFor [] [] := ⟨[], .nil, .nil⟩

theorem cons (hstands : StandsFor t component) (h : AccountedFor tokens components) :
    AccountedFor (t :: tokens) (component :: components) := by
  obtain ⟨ordered, hperm, hordered⟩ := h
  exact ⟨component :: ordered, hperm.cons component, .cons hstands hordered⟩

theorem append (h : AccountedFor tokens components) (h' : AccountedFor tokens' components') :
    AccountedFor (tokens ++ tokens') (components ++ components') := by
  obtain ⟨ordered, hperm, hstands⟩ := h
  obtain ⟨ordered', hperm', hstands'⟩ := h'
  exact ⟨ordered ++ ordered', hperm.append hperm', List.rel_append hstands hstands'⟩

theorem perm (h : AccountedFor tokens components) (hperm : components.Perm components') :
    AccountedFor tokens components' := by
  obtain ⟨ordered, hordered, hstands⟩ := h
  exact ⟨ordered, hordered.trans hperm, hstands⟩

end AccountedFor

/-- Either the components account for the tokens and no name is repeated in a map, or a
repeated name is read and there are fewer components than tokens. -/
def Verdict (symbols : List Expected) (components tokens : List Text) : Prop :=
  (AccountedFor tokens components ∧
    ∀ rest, read (next true) symbols (tokens ++ rest) = .done rest) ∨
  (components.length < tokens.length ∧
    ∀ rest, read (next true) symbols (tokens ++ rest) = .stuck)

namespace Verdict

variable {s : Expected} {symbols symbols' : List Expected}
  {tokens tokens' components components' : List Text} {t component : Text}

theorem length_le (h : Verdict symbols components tokens) :
    components.length ≤ tokens.length := by
  rcases h with ⟨haccounts, -⟩ | ⟨hlength, -⟩
  · exact Nat.le_of_eq haccounts.length_eq.symm
  · exact Nat.le_of_lt hlength

theorem nil : Verdict [] [] [] := .inl ⟨.nil, fun _ => read_nil⟩

theorem token (hnext : next true s t = some symbols) (hstands : StandsFor t component)
    (h : Verdict symbols components tokens) :
    Verdict [s] (component :: components) (t :: tokens) := by
  rcases h with ⟨haccounts, hread⟩ | ⟨hlength, hread⟩
  · refine .inl ⟨haccounts.cons hstands, fun rest => ?_⟩
    rw [List.cons_append, read_cons hnext, List.append_nil, hread]
  · refine .inr ⟨Nat.succ_lt_succ hlength, fun rest => ?_⟩
    rw [List.cons_append, read_cons hnext, List.append_nil, hread]

theorem append (h : Verdict symbols components tokens)
    (h' : Verdict symbols' components' tokens') :
    Verdict (symbols ++ symbols') (components ++ components') (tokens ++ tokens') := by
  have hlength' := h'.length_le
  rcases h with ⟨haccounts, hread⟩ | ⟨hlength, hread⟩
  · have hread (rest : List Text) : read (next true) (symbols ++ symbols') (tokens ++ tokens' ++ rest)
        = read (next true) symbols' (tokens' ++ rest) := by
      rw [List.append_assoc, read_append_done (hread _)]
    have hlength := haccounts.length_eq
    rcases h' with ⟨haccounts', hread'⟩ | ⟨hlength', hread'⟩
    · exact .inl ⟨haccounts.append haccounts', fun rest => (hread rest).trans (hread' rest)⟩
    · refine .inr ⟨?_, fun rest => (hread rest).trans (hread' rest)⟩
      rw [List.length_append, List.length_append]
      omega
  · refine .inr ⟨?_, fun rest => ?_⟩
    · rw [List.length_append, List.length_append]
      omega
    · rw [List.append_assoc, read_append_stuck (hread _)]

theorem perm (h : Verdict symbols components tokens) (hperm : components.Perm components') :
    Verdict symbols components' tokens := by
  rcases h with ⟨haccounts, hread⟩ | ⟨hlength, hread⟩
  · exact .inl ⟨haccounts.perm hperm, hread⟩
  · exact .inr ⟨hperm.length_eq ▸ hlength, hread⟩

end Verdict

/-! ### The entries of a map -/

section Entries
variable {α : Type} {typed : Bool} {g : α → List Text}

/-- The components of entries, of which `g` gives those after the name. -/
def entryComponents (g : α → List Text) (entries : List (Text × α)) : List Text :=
  entries.flatMap fun entry => entry.1 :: g entry.2

/-- An entry, and the tokens it is read from. -/
def ReadsEntry (typed : Bool) (g : α → List Text) (entry : Text × α) (tokens : List Text) : Prop :=
  ∃ rest, tokens = entry.1 :: rest ∧ Verdict (ofName typed) (g entry.2) rest

/-- Until a name is repeated. -/
theorem verdict_entries {entries : List (Text × α)} {outs : List (List Text)}
    (h : List.Forall₂ (ReadsEntry typed g) entries outs) (seen : List Text) :
    if (entries.map Prod.fst).Nodup ∧ ∀ name ∈ entries.map Prod.fst, name ∉ seen then
      Verdict (more typed entries.length seen) (entryComponents g entries) outs.flatten
    else (entryComponents g entries).length ≤ outs.flatten.length ∧
      ∀ rest, read (next true) (more typed entries.length seen) (outs.flatten ++ rest) = .stuck := by
  induction h generalizing seen with
  | nil =>
      rw [if_pos ⟨List.nodup_nil, fun _ h => nomatch h⟩]
      exact .nil
  | @cons entry out entries outs hentry _ ih =>
      obtain ⟨tokens, rfl, hentry⟩ := hentry
      obtain ⟨name, x⟩ := entry
      have hlength : (entryComponents g ((name, x) :: entries)).length
          ≤ ((name :: tokens) :: outs).flatten.length := by
        have hfirst : (g x).length ≤ tokens.length := hentry.length_le
        have hrest : (entryComponents g entries).length ≤ outs.flatten.length := by
          have h := ih seen
          split at h
          · exact h.length_le
          · exact h.1
        simp only [entryComponents, List.flatMap_cons, List.flatten_cons, List.length_append,
          List.length_cons] at hrest ⊢
        omega
      by_cases hname : name ∈ seen
      · rw [if_neg fun h => h.2 name List.mem_cons_self hname]
        exact ⟨hlength, fun rest => read_stuck (if_pos ⟨rfl, hname⟩)⟩
      · have hnext : next true (.entries typed (entries.length + 1) seen) name
            = some (ofName typed ++ more typed entries.length (name :: seen)) :=
          if_neg fun h => hname h.2
        have hentries := ih (name :: seen)
        by_cases hnames : (entries.map Prod.fst).Nodup ∧
            ∀ other ∈ entries.map Prod.fst, other ∉ name :: seen
        · have hnodup : (((name, x) :: entries).map Prod.fst).Nodup :=
            List.nodup_cons.mpr ⟨fun h => hnames.2 name h List.mem_cons_self, hnames.1⟩
          have hnew : ∀ other ∈ ((name, x) :: entries).map Prod.fst, other ∉ seen := by
            intro other hother
            rcases List.mem_cons.mp hother with rfl | hother
            · exact hname
            · exact fun h => hnames.2 other hother (List.mem_cons_of_mem _ h)
          rw [if_pos hnames] at hentries
          rw [if_pos ⟨hnodup, hnew⟩]
          exact .token hnext (.inl rfl) (hentry.append hentries)
        · rw [if_neg hnames] at hentries
          rw [if_neg]
          · refine ⟨hlength, fun rest => ?_⟩
            have hstuck := hentries.2 rest
            rw [List.flatten_cons, List.cons_append, List.cons_append, List.append_assoc]
            refine (read_cons hnext).trans ?_
            rw [List.append_nil]
            rcases hentry with ⟨-, hread⟩ | ⟨-, hread⟩
            · rw [read_append_done (hread _), hstuck]
            · exact read_append_stuck (hread _)
          · rintro ⟨hnodup, hnew⟩
            obtain ⟨hfresh, hnodup⟩ := List.nodup_cons.mp hnodup
            refine hnames ⟨hnodup, fun other hother hseen => ?_⟩
            rcases List.mem_cons.mp hseen with rfl | hseen
            · exact hfresh hother
            · exact hnew other (List.mem_cons_of_mem _ hother) hseen

/-- Every entry has a component at least, its name. -/
theorem length_entryComponents_sublist {kept entries : List (Text × α)}
    (h : kept.Sublist entries) :
    (entryComponents g kept).length + entries.length
      ≤ (entryComponents g entries).length + kept.length := by
  induction h with
  | slnil => exact Nat.le_refl _
  | cons entry _ ih =>
      simp only [entryComponents, List.flatMap_cons, List.length_append, List.length_cons] at ih ⊢
      omega
  | cons_cons entry _ ih =>
      simp only [entryComponents, List.flatMap_cons, List.length_append, List.length_cons] at ih ⊢
      omega

/-- An assignment to a name that was there before loses components. -/
theorem length_entryComponents_lt {entries : List (Text × α)}
    (h : ¬ (entries.map Prod.fst).Nodup) :
    (entryComponents g (Assoc.ofEntries entries)).length < (entryComponents g entries).length := by
  obtain ⟨kept, hperm, hsublist⟩ : List.Subperm (Assoc.ofEntries entries) entries :=
    Assoc.ofEntries_subperm
  have hkept : kept.length < entries.length := by
    refine Nat.lt_of_le_of_ne hsublist.length_le fun heq => h ?_
    rw [hsublist.eq_of_length heq] at hperm
    exact Assoc.ofEntries_perm_iff.mp hperm.symm
  have hlength := length_entryComponents_sublist (g := g) hsublist
  have hsame : (entryComponents g kept).length
      = (entryComponents g (Assoc.ofEntries entries)).length := (hperm.flatMap_right _).length_eq
  omega

/-- A count and so many entries. -/
theorem verdict_count {entries : List (Text × α)} {outs : List (List Text)} {token : Text}
    (h : List.Forall₂ (ReadsEntry typed g) entries outs)
    (hcount : lexicalCastSize token = .ok entries.length) :
    Verdict [.count typed]
      (Nat.toDigits 10 (Assoc.ofEntries entries).length
        :: entryComponents g (Assoc.ofEntries entries))
      (token :: outs.flatten) := by
  have hentries := verdict_entries h []
  have hnext : next true (.count typed) token = some (more typed entries.length []) := by
    rw [next, hcount]
  by_cases hnodup : (entries.map Prod.fst).Nodup
  · have hperm := Assoc.ofEntries_perm_iff.mpr hnodup
    rw [if_pos ⟨hnodup, fun _ _ h => nomatch h⟩] at hentries
    refine .token hnext (.inr ⟨_, hcount, by rw [hperm.length_eq]⟩) (hentries.perm ?_)
    exact (hperm.flatMap_right _).symm
  · rw [if_neg fun h => hnodup h.1] at hentries
    have hlength := length_entryComponents_lt (g := g) hnodup
    refine .inr ⟨Nat.succ_lt_succ (Nat.lt_of_lt_of_le hlength hentries.1), fun rest => ?_⟩
    rw [List.cons_append, read_cons hnext, List.append_nil, hentries.2]

end Entries

/-! ### The schema that is parsed -/

theorem fieldsComponents_eq (account : Text) (fields : List (Text × StructureFieldInfo TypeInfo)) :
    TypeInfo.fieldsComponents account fields =
      entryComponents (fun field => field.schema.components account) fields := by
  induction fields with
  | nil => rfl
  | cons field fields ih => rw [TypeInfo.fieldsComponents, ih]; rfl

theorem membersComponents_eq (account : Text) (members : List (Text × UnionMemberInfo TypeInfo)) :
    TypeInfo.membersComponents account members =
      entryComponents (fun member => member.schema.components account) members := by
  induction members with
  | nil => rfl
  | cons member members ih => rw [TypeInfo.membersComponents, ih]; rfl

theorem valuesComponents_eq (values : List (Text × EnumValueInfo)) :
    values.map Prod.fst = entryComponents (fun _ => []) values := by
  induction values with
  | nil => rfl
  | cons value values ih => rw [List.map_cons, ih]; rfl

theorem acceptsOnly_getToken : getToken.AcceptsOnly fun token out => out = [token] := by
  intro ts token rest h
  cases ts with
  | nil => cases h
  | cons t ts => cases h; exact ⟨[token], rfl, rfl⟩

/-- A count, and the map of as many entries. -/
theorem acceptsOnly_count {α : Type} (typed : Bool) (g : α → List Text)
    {f : Text → Decoder Thrown Text (Text × α)} (mk : List (Text × α) → TypeInfo)
    (hf : ∀ name, (f name).AcceptsOnly fun entry out =>
      entry.1 = name ∧ Verdict (ofName typed) (g entry.2) out) :
    Decoder.AcceptsOnly (do
      let token ← getToken
      let count ← liftM (lexicalCastSize token)
      let entries ← Decoder.times (getToken >>= f) count
      return mk (Assoc.ofEntries entries)) fun t out =>
        ∃ entries, t = mk entries ∧
          Verdict [.count typed]
            (Nat.toDigits 10 entries.length :: entryComponents g entries) out := by
  refine acceptsOnly_getToken.bind fun token _ htoken => ?_
  refine (Decoder.AcceptsOnly.lift _).bind fun count _ hcount => ?_
  obtain ⟨hcount, rfl⟩ := hcount
  have hentry : Decoder.AcceptsOnly (getToken >>= f) (ReadsEntry typed g) := by
    refine acceptsOnly_getToken.bind fun name _ hname => (hf name).mono fun entry out hout => ?_
    subst hname
    exact ⟨out, by rw [hout.1]; rfl, hout.2⟩
  refine (hentry.times count).map fun entries out hout => ?_
  obtain ⟨outs, houts, rfl, rfl⟩ := hout
  subst htoken
  exact ⟨Assoc.ofEntries entries, rfl, verdict_count houts hcount⟩

/-- What is read after a type code. -/
def AfterCode (typeCode : Text) (t : TypeInfo) (out : List Text) : Prop :=
  ∃ symbols components, ofTypeCode typeCode = some symbols ∧
    t.components [] = typeCode :: components ∧ Verdict symbols components out

theorem acceptsOnly_parsePayload {parseNested : Decoder Thrown Text TypeInfo}
    (hnested : parseNested.AcceptsOnly fun t out => Verdict [.type] (t.components []) out)
    (typeCode : Text) :
    (parsePayload parseNested typeCode).AcceptsOnly (AfterCode typeCode) := by
  have hleaf {code : Text} (t : TypeInfo) (hcode : ofTypeCode code = some [])
      (hcomponents : t.components [] = [code]) :
      (pure t : Decoder Thrown Text TypeInfo).AcceptsOnly (AfterCode code) :=
    .pure ⟨[], [], hcode, hcomponents, .nil⟩
  have hunary {code : Text} (f : TypeInfo → TypeInfo) (hcode : ofTypeCode code = some [.type])
      (hcomponents : ∀ t, (f t).components [] = code :: t.components []) :
      (parseNested >>= fun t => pure (f t)).AcceptsOnly (AfterCode code) :=
    hnested.map fun t out hout => ⟨_, _, hcode, hcomponents t, hout⟩
  have hentry {ι : Type} (mk : TypeInfo → ι) (schemaOf : ι → TypeInfo)
      (hmk : ∀ t, schemaOf (mk t) = t) (name : Text) :
      (parseNested >>= fun schema => pure (name, mk schema)).AcceptsOnly fun entry out =>
        entry.1 = name ∧ Verdict (ofName true) ((schemaOf entry.2).components []) out :=
    hnested.map fun schema out hout => ⟨rfl, (hmk schema).symm ▸ hout⟩
  unfold parsePayload
  refine .ite (fun h => h ▸ hunary (TypeInfo.array · none) rfl fun _ => rfl) fun _ => ?_
  refine .ite (fun h => h ▸ hleaf .blob rfl rfl) fun _ => ?_
  refine .ite (fun h => h ▸ hleaf .boolean rfl rfl) fun _ => ?_
  refine .ite (fun h => h ▸ hleaf .datetime rfl rfl) fun _ => ?_
  refine .ite (fun h => h ▸ hleaf .dynamic rfl rfl) fun _ => ?_
  refine .ite (fun h => ?_) fun _ => ?_
  · subst h
    refine (acceptsOnly_count false (fun _ => []) TypeInfo.enum fun name =>
      .pure ⟨rfl, .nil⟩).mono ?_
    rintro _ out ⟨entries, rfl, hout⟩
    refine ⟨_, _, rfl, ?_, hout⟩
    rw [TypeInfo.components, valuesComponents_eq]
  refine .ite (fun h => h ▸ hleaf .float rfl rfl) fun _ => ?_
  refine .ite (fun h => h ▸ hleaf .integer rfl rfl) fun _ => ?_
  refine .ite (fun h => ?_) fun _ => ?_
  · subst h
    refine hnested.bind fun keySchema out hout => hnested.map fun valueSchema out' hout' => ?_
    exact ⟨_, _, rfl, rfl, hout.append hout'⟩
  refine .ite (fun h => ?_) fun _ => ?_
  · subst h
    refine acceptsOnly_getToken.bind fun account _ haccount => ?_
    refine acceptsOnly_getToken.bind fun app _ happ => ?_
    refine acceptsOnly_getToken.map fun name _ hname => ?_
    subst haccount happ hname
    have hname (token : Text) : Verdict [.name] [token] [token] := .token rfl (.inl rfl) .nil
    exact ⟨_, _, rfl, rfl, (hname account).append ((hname app).append (hname name))⟩
  refine .ite (fun h => h ▸ hleaf .nil rfl rfl) fun _ => ?_
  refine .ite (fun h => h ▸ hunary .optional rfl fun _ => rfl) fun _ => ?_
  refine .ite (fun h => h ▸ hunary .reference rfl fun _ => rfl) fun _ => ?_
  refine .ite (fun h => h ▸ hleaf .string rfl rfl) fun _ => ?_
  refine .ite (fun h => ?_) fun _ => ?_
  · subst h
    refine (acceptsOnly_count true (fun field => field.schema.components []) TypeInfo.structure
      (hentry (StructureFieldInfo.mk [] none) StructureFieldInfo.schema fun _ => rfl)).mono ?_
    rintro _ out ⟨entries, rfl, hout⟩
    refine ⟨_, _, rfl, ?_, hout⟩
    rw [TypeInfo.components, fieldsComponents_eq]
  refine .ite (fun h => ?_) fun _ => ?_
  · subst h
    refine (acceptsOnly_count true (fun member => member.schema.components []) TypeInfo.union
      (hentry (UnionMemberInfo.mk []) UnionMemberInfo.schema fun _ => rfl)).mono ?_
    rintro _ out ⟨entries, rfl, hout⟩
    refine ⟨_, _, rfl, ?_, hout⟩
    rw [TypeInfo.components, membersComponents_eq]
  exact .throw

theorem acceptsOnly_parseUrlType (fuel : ℕ) :
    (parseUrlType fuel).AcceptsOnly fun t out => Verdict [.type] (t.components []) out := by
  induction fuel with
  | zero => exact .throw
  | succ fuel ih =>
      refine acceptsOnly_getToken.bind fun typeCode _ hcode => ?_
      refine (acceptsOnly_parsePayload ih typeCode).mono fun t out hout => ?_
      obtain ⟨symbols, components, hsymbols, hcomponents, hverdict⟩ := hout
      rw [hcomponents, hcode]
      exact .token hsymbols (.inl rfl) hverdict

/-! ## Termination

The recursion of the source is not bounded by anything but the tokens.  With as many nested
calls as there are tokens the parser does what it does with any more of them.
-/

open Decoder (AgreeUpTo)

section Agreement
variable {n : ℕ} {α : Type} {d d' : Decoder Thrown Text α}

theorem agreeUpTo_ite {p : Prop} [Decidable p] {e e' : Decoder Thrown Text α}
    (hd : AgreeUpTo n d d') (he : AgreeUpTo n e e') :
    AgreeUpTo n (if p then d else e) (if p then d' else e') := by
  split
  · exact hd
  · exact he

/-- A token is taken before. -/
theorem agreeUpTo_getToken {f f' : Text → Decoder Thrown Text α}
    (hf : ∀ token, AgreeUpTo n (f token) (f' token)) :
    AgreeUpTo (n + 1) (getToken >>= f) (getToken >>= f') := by
  intro ts hts
  cases ts with
  | nil => rfl
  | cons token ts => exact hf token ts (Nat.le_of_succ_le_succ hts)

theorem agreeUpTo_parsePayload {parseNested parseNested' : Decoder Thrown Text TypeInfo}
    (hnested : AgreeUpTo n parseNested parseNested')
    (hleft : parseNested.AcceptsOnly fun t out => Verdict [.type] (t.components []) out)
    (typeCode : Text) :
    AgreeUpTo n (parsePayload parseNested typeCode) (parsePayload parseNested' typeCode) := by
  have hunary (f : TypeInfo → TypeInfo) :
      AgreeUpTo n (parseNested >>= fun t => pure (f t)) (parseNested' >>= fun t => pure (f t)) :=
    hnested.bind hleft fun t => .refl _
  have hcount {ι : Type} (mk : TypeInfo → ι) (f : List (Text × ι) → TypeInfo) :
      AgreeUpTo n
        (do
          let token ← getToken
          let count ← liftM (lexicalCastSize token)
          let entries ← Decoder.times (do
            let name ← getToken
            let schema ← parseNested
            return (name, mk schema)) count
          return f (Assoc.ofEntries entries))
        (do
          let token ← getToken
          let count ← liftM (lexicalCastSize token)
          let entries ← Decoder.times (do
            let name ← getToken
            let schema ← parseNested'
            return (name, mk schema)) count
          return f (Assoc.ofEntries entries)) := by
    refine (AgreeUpTo.refl getToken).bind acceptsOnly_getToken fun token => ?_
    refine (AgreeUpTo.refl _).bind (.lift _) fun count => ?_
    have hentry := acceptsOnly_getToken.bind (M := fun _ _ => True) fun name _ _ =>
      hleft.map (g := fun schema => (name, mk schema)) fun _ _ _ => trivial
    refine AgreeUpTo.bind (.times ?_ hentry count) (hentry.times count) fun entries => .refl _
    exact (AgreeUpTo.refl getToken).bind acceptsOnly_getToken fun name =>
      hnested.bind hleft fun schema => .refl _
  unfold parsePayload
  refine agreeUpTo_ite (hunary (TypeInfo.array · none)) ?_
  refine agreeUpTo_ite (.refl _) (agreeUpTo_ite (.refl _) (agreeUpTo_ite (.refl _) ?_))
  refine agreeUpTo_ite (.refl _) (agreeUpTo_ite (.refl _) (agreeUpTo_ite (.refl _) ?_))
  refine agreeUpTo_ite (.refl _) ?_
  refine agreeUpTo_ite (hnested.bind hleft fun keySchema => hunary (TypeInfo.map keySchema)) ?_
  refine agreeUpTo_ite (.refl _) (agreeUpTo_ite (.refl _) ?_)
  refine agreeUpTo_ite (hunary TypeInfo.optional) (agreeUpTo_ite (hunary TypeInfo.reference) ?_)
  refine agreeUpTo_ite (.refl _) ?_
  refine agreeUpTo_ite (hcount (StructureFieldInfo.mk [] none) TypeInfo.structure) ?_
  exact agreeUpTo_ite (hcount (UnionMemberInfo.mk []) TypeInfo.union) (.refl _)

theorem parseUrlType_agreeUpTo {fuel : ℕ} (h : n ≤ fuel) :
    AgreeUpTo n (parseUrlType n) (parseUrlType fuel) := by
  induction n generalizing fuel with
  | zero =>
      intro ts hts
      rw [List.length_eq_zero_iff.mp (Nat.le_zero.mp hts)]
      cases fuel <;> rfl
  | succ n ih =>
      cases fuel with
      | zero => exact absurd h (Nat.not_succ_le_zero n)
      | succ fuel =>
          refine agreeUpTo_getToken fun typeCode => ?_
          exact agreeUpTo_parsePayload (ih (Nat.le_of_succ_le_succ h))
            (acceptsOnly_parseUrlType n) typeCode

end Agreement

/-! ## The outcome -/

/-- With fuel for as many nested calls as there are tokens, more of it changes nothing. -/
def Terminates (urlType : Text) : Prop :=
  ∀ fuel, (tokenize urlType).length ≤ fuel →
    (parseUrlType fuel).run (tokenize urlType)
      = (parseUrlType (tokenize urlType).length).run (tokenize urlType)

/-- A schema that accounts for every token, or a `parsing_error`. -/
def YieldsOrThrows (urlType : Text) : Prop :=
  (∃ type, parseUrlTypeString urlType = .ok type ∧ AccountsFor type (tokenize urlType)) ∨
    ∃ what, parseUrlTypeString urlType
      = .error (.parsingError "Thinknode-style URL type string".toList what urlType)

/-- No unknown type code is reached, and no count that is no number. -/
def NoBadToken (tokens : List Text) : Prop := read (next false) [.type] tokens ≠ .stuck

/-- If the tokens spell one type, no name is repeated in one of its maps. -/
def NoRepeatedName (tokens : List Text) : Prop :=
  read (next false) [.type] tokens = .done [] → read (next true) [.type] tokens ≠ .stuck

theorem terminates (urlType : Text) : Terminates urlType :=
  fun _ h => (parseUrlType_agreeUpTo h _ (Nat.le_refl _)).symm

/-- How the exceptions of the parser leave `parse_url_type_string`. -/
theorem parseUrlTypeString_error {urlType : Text} {e : Thrown}
    (h : (parseUrlType (tokenize urlType).length).run (tokenize urlType) = .error e) :
    parseUrlTypeString urlType =
      .error (match e with
        | .message what => .parsingError "Thinknode-style URL type string".toList what urlType
        | e => e) := by
  simp only [parseUrlTypeString, h]
  cases e <;> rfl

theorem parseUrlTypeString_ok {urlType : Text} {type : TypeInfo} {rest : List Text}
    (h : (parseUrlType (tokenize urlType).length).run (tokenize urlType) = .ok (type, rest)) :
    parseUrlTypeString urlType =
      if rest = [] then .ok type
      else .error (.parsingError "Thinknode-style URL type string".toList
        "extra type components".toList urlType) := by
  simp only [parseUrlTypeString, h]
  cases rest <;> rfl

theorem parseUrlTypeString_total_iff (urlType : Text) :
    Terminates urlType ∧ YieldsOrThrows urlType ↔
      NoBadToken (tokenize urlType) ∧ NoRepeatedName (tokenize urlType) := by
  rw [and_iff_right (terminates urlType)]
  have hfollows := follows_parseUrlType _ (tokenize urlType) (Nat.le_refl _)
  cases hrun : (parseUrlType (tokenize urlType).length).run (tokenize urlType) with
  | error e =>
      rw [hrun] at hfollows
      have hparse := parseUrlTypeString_error hrun
      rcases hfollows with ⟨⟨what, rfl⟩, hshort⟩ | ⟨huncaught, hstuck⟩
      · refine iff_of_true (.inr ⟨what, hparse⟩) ⟨fun hstuck => ?_, fun hdone => ?_⟩
        · rw [hshort] at hstuck
          exact nomatch hstuck
        · rw [hshort] at hdone
          exact nomatch hdone
      · refine iff_of_false ?_ fun h => h.1 hstuck
        rw [YieldsOrThrows, hparse]
        rcases huncaught with ⟨what, rfl⟩ | rfl
        · rintro (⟨_, h, -⟩ | ⟨_, h⟩) <;> exact nomatch h
        · rintro (⟨_, h, -⟩ | ⟨_, h⟩) <;> exact nomatch h
  | ok result =>
      obtain ⟨type, rest⟩ := result
      rw [hrun] at hfollows
      obtain ⟨hdone, -⟩ := hfollows
      have hparse := parseUrlTypeString_ok hrun
      have hbad : NoBadToken (tokenize urlType) := by
        intro hstuck
        rw [hdone] at hstuck
        exact nomatch hstuck
      rw [and_iff_right hbad]
      obtain ⟨out, hout, hverdict⟩ := acceptsOnly_parseUrlType _ hrun
      cases rest with
      | cons token rest =>
          rw [if_neg (List.cons_ne_nil token rest)] at hparse
          refine iff_of_true (.inr ⟨_, hparse⟩) fun hall => ?_
          rw [hdone] at hall
          exact nomatch hall
      | nil =>
          rw [if_pos rfl] at hparse
          rw [List.append_nil] at hout
          rw [NoRepeatedName, hdone, imp_iff_right rfl, YieldsOrThrows, hparse, hout]
          have hread : ∀ outcome, read (next true) [.type] (out ++ []) = outcome →
              read (next true) [.type] out = outcome := by
            intro outcome h
            rwa [List.append_nil] at h
          rcases hverdict with ⟨haccounts, hstrict⟩ | ⟨hlength, hstrict⟩
          · refine iff_of_true (.inl ⟨type, rfl, haccounts⟩) fun hstuck => ?_
            rw [hread _ (hstrict [])] at hstuck
            exact nomatch hstuck
          · refine iff_of_false ?_ fun h => h (hread _ (hstrict []))
            rintro (⟨_, h, haccounts⟩ | ⟨_, h⟩)
            · cases h
              exact absurd haccounts.length_eq (Nat.ne_of_gt hlength)
            · exact nomatch h

/-- The exception of an unknown type code is a `std::string`. -/
theorem unknown_typeCode_escapes :
    parseUrlTypeString "foo".toList
        = .error (.string "unrecognized type code: foo".toList) ∧
      ¬ YieldsOrThrows "foo".toList := by
  have hparse : parseUrlTypeString "foo".toList
      = .error (.string "unrecognized type code: foo".toList) := by rfl
  refine ⟨hparse, ?_⟩
  rintro (⟨type, h, -⟩ | ⟨what, h⟩)
  · rw [hparse] at h
    exact nomatch h
  · rw [hparse] at h
    exact nomatch h

end Cradle.Thinknode.UrlGrammar
