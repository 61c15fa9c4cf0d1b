import Cradle.Typing.KeyLaws

/-!
# Ids as keys

Ids of any types are compared by `operator==` and `operator<`: by their types, and where these
are the same by virtual functions, which know that the other id is of their own type.  In a
function request the types come in again: an argument that is a request has a type that does
not tell what kind of object is behind it.
-/

namespace Cradle.Ids

open Comparison

universe u v w x

/-! ## Ids and their types -/

mutual
/-- An argument that a function request stores: a plain value, a `value_request`, or a
`function_request` with its properties. -/
inductive Arg (V : Type u) (P : Type v) (F : Type w) : Type (max u v w)
  | value (v : V)
  | valueRequest (v : V)
  | request (props : P) (impl : Impl V P F)
/-- A `function_request_impl`.  `function` stands for its template arguments other than those
of its arguments; `uuid` is the full uuid. -/
inductive Impl (V : Type u) (P : Type v) (F : Type w) : Type (max u v w)
  | mk (function : F) (uuid : Bytes) (args : List (Arg V P F))
end

def Impl.function {V : Type u} {P : Type v} {F : Type w} : Impl V P F → F
  | .mk function _ _ => function

def Impl.args {V : Type u} {P : Type v} {F : Type w} : Impl V P F → List (Arg V P F)
  | .mk _ _ args => args

/-- An id. -/
inductive Id (V : Type u) (P : Type v) (F : Type w) : Type (max u v w)
  | simple (v : V)
  | simpleByReference (v : V)
  /-- The captured id is initialized, which the constructor asserts. -/
  | ref (id : Id V P F)
  | pair (id0 id1 : Id V P F)
  | request (impl : Impl V P F)

/-- The C++ type of an argument. -/
inductive ArgType (T : Type x) (P : Type v)
  | value (t : T)
  | valueRequest (t : T)
  | request (props : P)
  deriving DecidableEq

/-- The C++ type of an id, which `typeid` gives. -/
inductive IdType (T : Type x) (P : Type v) (F : Type w)
  | simple (t : T)
  | simpleByReference (t : T)
  | ref
  | pair (id0 id1 : IdType T P F)
  | request (function : F) (args : List (ArgType T P))
  deriving DecidableEq

/-- What ids rely on: the operators and the hash of the values, with the C++ types of these;
`before` and the names of `std::type_info`, of which `sameName` says that they are at one
address; which requests are one object; and the hashes of Boost. -/
structure Setting (V : Type u) (T : Type x) (P : Type v) (F : Type w) where
  type : V → T
  equals : V → V → Bool
  less : V → V → Bool
  hash : V → UInt64
  before : IdType T P F → IdType T P F → Bool
  sameName : IdType T P F → IdType T P F → Bool
  sameObject : Impl V P F → Impl V P F → Bool
  stringHash : Bytes → UInt64
  combine : UInt64 → UInt64 → UInt64

variable {V : Type u} {T : Type x} {P : Type v} {F : Type w} [DecidableEq T] [DecidableEq P]
  [DecidableEq F]

namespace Setting
variable (s : Setting V T P F)

def argType : Arg V P F → ArgType T P
  | .value v => .value (s.type v)
  | .valueRequest v => .valueRequest (s.type v)
  | .request props _ => .request props

def implType (i : Impl V P F) : IdType T P F := .request i.function (i.args.map s.argType)

def idType : Id V P F → IdType T P F
  | .simple v => .simple (s.type v)
  | .simpleByReference v => .simpleByReference (s.type v)
  | .ref _ => .ref
  | .pair id0 id1 => .pair (idType id0) (idType id1)
  | .request impl => s.implType impl

/-- `types_match`. -/
def typesMatch (a b : IdType T P F) : Bool := s.sameName a b || a == b

/-! ## Equality -/

mutual
/-- `operator==` on arguments of one type. -/
def argEquals : Arg V P F → Arg V P F → Bool
  | .value v, .value w => s.equals v w
  | .valueRequest v, .valueRequest w => s.equals v w
  | .request _ i, .request _ j => implEquals i j
  | _, _ => false
/-- `function_request_impl::equals`. -/
def implEquals : Impl V P F → Impl V P F → Bool
  | .mk f uuid args, .mk f' uuid' args' =>
      if s.implType (.mk f uuid args) = s.implType (.mk f' uuid' args') then
        if s.sameObject (.mk f uuid args) (.mk f' uuid' args') then true
        else if uuid ≠ uuid' then false
        else argsEqual args args'
      else false
/-- `operator==` on tuples of arguments. -/
def argsEqual : List (Arg V P F) → List (Arg V P F) → Bool
  | [], [] => true
  | x :: xs, y :: ys => argEquals x y && argsEqual xs ys
  | _, _ => false
end

/-- `equals`, which is given an id of the same type. -/
def idEquals : Id V P F → Id V P F → Bool
  | .simple v, .simple w => s.equals v w
  | .simpleByReference v, .simpleByReference w => s.equals v w
  -- `operator==` on the captured ids.
  | .ref a, .ref b => s.idType a == s.idType b && idEquals a b
  | .pair a0 a1, .pair b0 b1 => idEquals a0 b0 && idEquals a1 b1
  | .request i, .request j => s.implEquals i j
  | _, _ => false

/-- `operator==` on ids. -/
def operatorEq (a b : Id V P F) : Bool := s.idType a == s.idType b && s.idEquals a b

/-! ## Order -/

mutual
/-- `operator<` on arguments of one type. -/
def argLess : Arg V P F → Arg V P F → Bool
  | .value v, .value w => s.less v w
  | .valueRequest v, .valueRequest w => s.less v w
  | .request _ i, .request _ j => implLess i j
  | _, _ => false
termination_by x y => sizeOf x + sizeOf y
/-- `function_request_impl::less_than`. -/
def implLess : Impl V P F → Impl V P F → Bool
  | .mk f uuid args, .mk f' uuid' args' =>
      if s.implType (.mk f uuid args) = s.implType (.mk f' uuid' args') then
        if s.sameObject (.mk f uuid args) (.mk f' uuid' args') then false
        else if uuid ≠ uuid' then uuid < uuid'
        else argsLess args args'
      else s.before (s.implType (.mk f uuid args)) (s.implType (.mk f' uuid' args'))
termination_by i j => sizeOf i + sizeOf j
/-- `operator<` on tuples of arguments, which asks `operator<` of the arguments both ways. -/
def argsLess : List (Arg V P F) → List (Arg V P F) → Bool
  | x :: xs, y :: ys => argLess x y || (!argLess y x && argsLess xs ys)
  | _, _ => false
termination_by xs ys => sizeOf xs + sizeOf ys
end

/-- `less_than`, which is given an id of the same type. -/
def idLess : Id V P F → Id V P F → Bool
  | .simple v, .simple w => s.less v w
  | .simpleByReference v, .simpleByReference w => s.less v w
  -- `operator<` on the captured ids.
  | .ref a, .ref b =>
      s.before (s.idType a) (s.idType b) || (s.typesMatch (s.idType a) (s.idType b) && idLess a b)
  | .pair a0 a1, .pair b0 b1 => idLess a0 b0 || (s.idEquals a0 b0 && idLess a1 b1)
  | .request i, .request j => s.implLess i j
  | _, _ => false

/-- `operator<` on ids. -/
def operatorLt (a b : Id V P F) : Bool :=
  s.before (s.idType a) (s.idType b) || (s.typesMatch (s.idType a) (s.idType b) && s.idLess a b)

/-! ## Hash -/

mutual
/-- `invoke_hash` of an argument. -/
def argHash : Arg V P F → UInt64
  | .value v => s.hash v
  | .valueRequest v => s.hash v
  | .request _ i => implHash i
/-- `function_request_impl::hash`: `combine_hashes` of the uuid's hash and of that of the
arguments. -/
def implHash : Impl V P F → UInt64
  | .mk _ uuid args => s.combine (s.combine 0 (s.stringHash uuid)) (argsHash 0 args)
/-- `combine_hashes` of the arguments' hashes, from a seed on. -/
def argsHash (seed : UInt64) : List (Arg V P F) → UInt64
  | [] => seed
  | x :: xs => argsHash (s.combine seed (argHash x)) xs
end

/-- `hash`. -/
def idHash : Id V P F → UInt64
  | .simple v => s.hash v
  | .simpleByReference v => s.hash v
  | .ref id => idHash id
  | .pair id0 id1 => idHash id0 ^^^ idHash id1
  | .request i => s.implHash i

end Setting

/-! ## Ids of lawful values -/

mutual
/-- All values of an argument satisfy `ok`. -/
def Arg.Regular (ok : V → Prop) : Arg V P F → Prop
  | .value v => ok v
  | .valueRequest v => ok v
  | .request _ i => i.Regular ok
def Impl.Regular (ok : V → Prop) : Impl V P F → Prop
  | .mk _ _ args => argsRegular ok args
def argsRegular (ok : V → Prop) : List (Arg V P F) → Prop
  | [] => True
  | x :: xs => x.Regular ok ∧ argsRegular ok xs
end

/-- All values of an id satisfy `ok`. -/
def Id.Regular (ok : V → Prop) : Id V P F → Prop
  | .simple v => ok v
  | .simpleByReference v => ok v
  | .ref id => id.Regular ok
  | .pair id0 id1 => id0.Regular ok ∧ id1.Regular ok
  | .request i => i.Regular ok

/-- The values of each type that satisfy `ok` are lawful keys, as an id asks of them;
`type_info::before` orders the types; types whose names are at one address are one; and
a request at one address is one. -/
structure Setting.Lawful (s : Setting V T P F) (ok : V → Prop) : Prop where
  values : ∀ t, LawfulKeys (fun v => s.type v = t ∧ ok v) s.equals s.less s.hash
  types : LawfulKeys (fun _ => True) (· == ·) s.before fun _ => ()
  names : ∀ a b, s.sameName a b = true → a = b
  objects : ∀ i j, s.sameObject i j = true → i = j

namespace Setting
variable (s : Setting V T P F)

/-! ## One comparison -/

/-- How ids compare by their types. -/
def typeOrder (a b : IdType T P F) : Ordering := byLt s.before a b

/-- How requests compare by their uuids. -/
def uuidOrder (u v : Bytes) : Ordering := byLt (fun u v => decide (u < v)) u v

mutual
/-- How arguments of one type compare. -/
def argOrder : Arg V P F → Arg V P F → Ordering
  | .value v, .value w => byLt s.less v w
  | .valueRequest v, .valueRequest w => byLt s.less v w
  | .request _ i, .request _ j => implOrder i j
  | _, _ => .eq
/-- How requests compare. -/
def implOrder : Impl V P F → Impl V P F → Ordering
  | .mk f uuid args, .mk f' uuid' args' =>
      (s.typeOrder (s.implType (.mk f uuid args)) (s.implType (.mk f' uuid' args'))).then
        ((uuidOrder uuid uuid').then (argsOrder args args'))
/-- How tuples of arguments compare. -/
def argsOrder : List (Arg V P F) → List (Arg V P F) → Ordering
  | x :: xs, y :: ys => (argOrder x y).then (argsOrder xs ys)
  | _, _ => .eq
end

/-- How ids of one type compare. -/
def idOrder : Id V P F → Id V P F → Ordering
  | .simple v, .simple w => byLt s.less v w
  | .simpleByReference v, .simpleByReference w => byLt s.less v w
  | .ref a, .ref b => (s.typeOrder (s.idType a) (s.idType b)).then (idOrder a b)
  | .pair a0 a1, .pair b0 b1 => (idOrder a0 b0).then (idOrder a1 b1)
  | .request i, .request j => s.implOrder i j
  | _, _ => .eq

/-- How ids compare. -/
def order (a b : Id V P F) : Ordering :=
  (s.typeOrder (s.idType a) (s.idType b)).then (s.idOrder a b)

end Setting

section
variable {s : Setting V T P F} {ok : V → Prop}

theorem Setting.Lawful.reflects_types (h : s.Lawful ok) (a b : IdType T P F) :
    Reflects (· == ·) s.before a b (s.typeOrder a b) := h.types.reflects trivial trivial

theorem Setting.Lawful.typesMatch_eq (h : s.Lawful ok) (a b : IdType T P F) :
    s.typesMatch a b = (a == b) := by
  rw [Setting.typesMatch, Bool.or_eq_right_iff_imp]
  intro hname
  exact beq_iff_eq.mpr (h.names a b hname)

theorem Setting.Lawful.before_self (h : s.Lawful ok) (a : IdType T P F) : s.before a a = false :=
  h.types.lt_irrefl a trivial

theorem Setting.Lawful.eq_of_typeOrder (h : s.Lawful ok) {a b : IdType T P F}
    (htype : s.typeOrder a b = .eq) : a = b :=
  beq_iff_eq.mp ((h.reflects_types a b).equal_iff.mpr htype)

section
variable {a b c : V}

theorem Setting.Lawful.reflects_values (h : s.Lawful ok) (htype : s.type a = s.type b) (ha : ok a)
    (hb : ok b) : Reflects s.equals s.less a b (byLt s.less a b) :=
  (h.values (s.type b)).reflects ⟨htype, ha⟩ ⟨rfl, hb⟩

theorem Setting.Lawful.composes_values (h : s.Lawful ok) (hab : s.type a = s.type b)
    (hbc : s.type b = s.type c) (ha : ok a) (hb : ok b) (hc : ok c) :
    Composes (byLt s.less a b) (byLt s.less b c) (byLt s.less a c) :=
  (h.values (s.type b)).composes ⟨hab, ha⟩ ⟨rfl, hb⟩ ⟨hbc.symm, hc⟩

theorem Setting.Lawful.hash_eq (h : s.Lawful ok) (htype : s.type a = s.type b) (ha : ok a)
    (hb : ok b) (heq : s.equals a b = true) : s.hash a = s.hash b :=
  (h.values (s.type b)).hash_eq a b ⟨htype, ha⟩ ⟨rfl, hb⟩ heq

end

theorem uuids_lawful (hash : Bytes → UInt64) :
    LawfulKeys (fun _ => True) (· == ·) (fun u v : Bytes => decide (u < v)) hash :=
  .of_injective Function.injective_id hash

namespace Setting

/-! ## Requests and their arguments go by it -/

/-- Equality of two objects that have one type. -/
def contentsEqual (s : Setting V T P F) : Impl V P F → Impl V P F → Bool
  | .mk _ uuid xs, .mk _ uuid' ys => uuid == uuid' && s.argsEqual xs ys

/-- The order of two objects that have one type. -/
def contentsLess (s : Setting V T P F) : Impl V P F → Impl V P F → Bool
  | .mk _ uuid xs, .mk _ uuid' ys => uuid < uuid' || (uuid == uuid' && s.argsLess xs ys)

theorem implEquals_eq (i j : Impl V P F) : s.implEquals i j =
    (s.implType i == s.implType j && (s.sameObject i j || s.contentsEqual i j)) := by
  obtain ⟨f, uuid, xs⟩ := i
  obtain ⟨f', uuid', ys⟩ := j
  rw [implEquals]
  by_cases htype : s.implType (.mk f uuid xs) = s.implType (.mk f' uuid' ys)
  · rw [if_pos htype, beq_iff_eq.mpr htype, Bool.true_and]
    by_cases huuid : uuid = uuid' <;> simp [contentsEqual, huuid]
  · rw [if_neg htype, beq_eq_false_iff_ne.mpr htype, Bool.false_and]

theorem Lawful.implLess_eq (h : s.Lawful ok) (i j : Impl V P F) : s.implLess i j =
    (s.before (s.implType i) (s.implType j) ||
      (s.implType i == s.implType j && (!s.sameObject i j && s.contentsLess i j))) := by
  obtain ⟨f, uuid, xs⟩ := i
  obtain ⟨f', uuid', ys⟩ := j
  rw [implLess]
  by_cases htype : s.implType (.mk f uuid xs) = s.implType (.mk f' uuid' ys)
  · rw [if_pos htype, htype, h.before_self, beq_self_eq_true, Bool.true_and, Bool.false_or]
    by_cases huuid : uuid = uuid'
    · simp [contentsLess, huuid, List.lt_irrefl]
    · simp [contentsLess, huuid, beq_eq_false_iff_ne.mpr huuid]
  · rw [if_neg htype, beq_eq_false_iff_ne.mpr htype, Bool.false_and, Bool.or_false]

theorem reflects_contents (f g : F) (u v : Bytes) {xs ys : List (Arg V P F)}
    (hargs : Reflects s.argsEqual s.argsLess xs ys (s.argsOrder xs ys)) :
    Reflects s.contentsEqual s.contentsLess (.mk f u xs) (.mk g v ys)
      ((uuidOrder u v).then (s.argsOrder xs ys)) :=
  ((uuids_lawful s.stringHash).reflects trivial trivial).lex (fun _ => hargs) rfl rfl rfl rfl

mutual
theorem Lawful.reflects_arg (h : s.Lawful ok) : ∀ x y : Arg V P F, s.argType x = s.argType y →
    x.Regular ok → y.Regular ok → Reflects s.argEquals s.argLess x y (s.argOrder x y)
  | .value v, .value w, htype, hx, hy => by
      have hvalues := h.reflects_values (ArgType.value.inj htype) hx hy
      exact hvalues.map Arg.value (fun _ _ => by rw [argEquals]) fun _ _ => by rw [argLess]
  | .valueRequest v, .valueRequest w, htype, hx, hy => by
      have hvalues := h.reflects_values (ArgType.valueRequest.inj htype) hx hy
      exact hvalues.map Arg.valueRequest (fun _ _ => by rw [argEquals])
        fun _ _ => by rw [argLess]
  | .request props i, .request props' j, htype, hx, hy => by
      obtain rfl := ArgType.request.inj htype
      exact (Lawful.reflects_impl h i j hx hy).map (Arg.request props)
        (fun _ _ => by rw [argEquals]) fun _ _ => by rw [argLess]
theorem Lawful.reflects_impl (h : s.Lawful ok) : ∀ i j : Impl V P F, i.Regular ok → j.Regular ok →
    Reflects s.implEquals s.implLess i j (s.implOrder i j)
  | .mk f uuid xs, .mk f' uuid' ys, hi, hj => by
      have hargs (htype : s.typeOrder (s.implType (.mk f uuid xs))
          (s.implType (.mk f' uuid' ys)) = .eq) :=
        Lawful.reflects_args h xs ys (IdType.request.inj (h.eq_of_typeOrder htype)).2 hi hj
      have hcontents htype := (reflects_contents f f' uuid uuid' (hargs htype)).shortcut h.objects
      exact (h.reflects_types _ _).lex hcontents (implEquals_eq ..) (implEquals_eq ..)
        (h.implLess_eq ..) (h.implLess_eq ..)
theorem Lawful.reflects_args (h : s.Lawful ok) : ∀ xs ys : List (Arg V P F),
    xs.map s.argType = ys.map s.argType → argsRegular ok xs → argsRegular ok ys →
    Reflects s.argsEqual s.argsLess xs ys (s.argsOrder xs ys)
  | [], [], _, _, _ => by
      have hless : s.argsLess ([] : List (Arg V P F)) [] = false := by rw [argsLess]; nofun
      exact ⟨rfl, rfl, hless, hless⟩
  | x :: xs, y :: ys, htypes, hx, hy => by
      obtain ⟨htype, htypes⟩ := List.cons.inj htypes
      have hfirst := Lawful.reflects_arg h x y htype hx.1 hy.1
      have hrest := Lawful.reflects_args h xs ys htypes hx.2 hy.2
      refine hfirst.lex (fun _ => hrest) rfl rfl ?_ ?_
      · rw [argsLess, hfirst.less_or_not_less]
      · rw [argsLess, hfirst.swap.less_or_not_less]
end

mutual
theorem Lawful.composes_arg (h : s.Lawful ok) : ∀ x y z : Arg V P F, s.argType x = s.argType y →
    s.argType y = s.argType z → x.Regular ok → y.Regular ok → z.Regular ok →
    Composes (s.argOrder x y) (s.argOrder y z) (s.argOrder x z)
  | .value _, .value _, .value _, hxy, hyz, hx, hy, hz =>
      h.composes_values (ArgType.value.inj hxy) (ArgType.value.inj hyz) hx hy hz
  | .valueRequest _, .valueRequest _, .valueRequest _, hxy, hyz, hx, hy, hz =>
      h.composes_values (ArgType.valueRequest.inj hxy) (ArgType.valueRequest.inj hyz) hx hy hz
  | .request _ i, .request _ j, .request _ k, _, _, hx, hy, hz =>
      Lawful.composes_impl h i j k hx hy hz
theorem Lawful.composes_impl (h : s.Lawful ok) : ∀ i j k : Impl V P F, i.Regular ok →
    j.Regular ok → k.Regular ok → Composes (s.implOrder i j) (s.implOrder j k) (s.implOrder i k)
  | .mk f u xs, .mk g v ys, .mk f' w zs, hi, hj, hk => by
      refine (h.types.composes trivial trivial trivial).then fun hxy hyz => ?_
      have hxs := (IdType.request.inj (h.eq_of_typeOrder hxy)).2
      have hys := (IdType.request.inj (h.eq_of_typeOrder hyz)).2
      refine ((uuids_lawful s.stringHash).composes trivial trivial trivial).then fun _ _ => ?_
      exact Lawful.composes_args h xs ys zs hxs hys hi hj hk
theorem Lawful.composes_args (h : s.Lawful ok) : ∀ xs ys zs : List (Arg V P F),
    xs.map s.argType = ys.map s.argType → ys.map s.argType = zs.map s.argType →
    argsRegular ok xs → argsRegular ok ys → argsRegular ok zs →
    Composes (s.argsOrder xs ys) (s.argsOrder ys zs) (s.argsOrder xs zs)
  | [], [], [], _, _, _, _, _ => fun _ _ => rfl
  | x :: xs, y :: ys, z :: zs, hxy, hyz, hx, hy, hz => by
      obtain ⟨hxy, hxys⟩ := List.cons.inj hxy
      obtain ⟨hyz, hyzs⟩ := List.cons.inj hyz
      refine (Lawful.composes_arg h x y z hxy hyz hx.1 hy.1 hz.1).then fun _ _ => ?_
      exact Lawful.composes_args h xs ys zs hxys hyzs hx.2 hy.2 hz.2
end

mutual
theorem Lawful.argHash_eq (h : s.Lawful ok) : ∀ x y : Arg V P F, s.argType x = s.argType y →
    x.Regular ok → y.Regular ok → s.argEquals x y = true → s.argHash x = s.argHash y
  | .value _, .value _, htype, hx, hy, heq =>
      h.hash_eq (ArgType.value.inj htype) hx hy heq
  | .valueRequest _, .valueRequest _, htype, hx, hy, heq =>
      h.hash_eq (ArgType.valueRequest.inj htype) hx hy heq
  | .request _ i, .request _ j, _, hx, hy, heq => Lawful.implHash_eq h i j hx hy heq
theorem Lawful.implHash_eq (h : s.Lawful ok) : ∀ i j : Impl V P F, i.Regular ok → j.Regular ok →
    s.implEquals i j = true → s.implHash i = s.implHash j
  | .mk f u xs, .mk g v ys, hi, hj, heq => by
      rw [implEquals_eq, Bool.and_eq_true, Bool.or_eq_true, beq_iff_eq] at heq
      obtain ⟨htype, hsame | hcontents⟩ := heq
      · rw [h.objects _ _ hsame]
      · rw [contentsEqual, Bool.and_eq_true, beq_iff_eq] at hcontents
        have hargs := Lawful.argsHash_eq h xs ys (IdType.request.inj htype).2 hi hj hcontents.2 0
        rw [implHash, implHash, hcontents.1, hargs]
theorem Lawful.argsHash_eq (h : s.Lawful ok) : ∀ xs ys : List (Arg V P F),
    xs.map s.argType = ys.map s.argType → argsRegular ok xs → argsRegular ok ys →
    s.argsEqual xs ys = true → ∀ seed, s.argsHash seed xs = s.argsHash seed ys
  | [], [], _, _, _, _, _ => rfl
  | x :: xs, y :: ys, htypes, hx, hy, heq, seed => by
      obtain ⟨htype, htypes⟩ := List.cons.inj htypes
      rw [argsEqual, Bool.and_eq_true] at heq
      rw [argsHash, argsHash, Lawful.argHash_eq h x y htype hx.1 hy.1 heq.1]
      exact Lawful.argsHash_eq h xs ys htypes hx.2 hy.2 heq.2 _
end

/-! ## Ids go by it -/

theorem Lawful.reflects_id (h : s.Lawful ok) {a b : Id V P F} (htype : s.idType a = s.idType b)
    (ha : a.Regular ok) (hb : b.Regular ok) :
    Reflects s.idEquals s.idLess a b (s.idOrder a b) := by
  induction a generalizing b with
  | simple v =>
      cases b with
      | simple w =>
          have hvalues := h.reflects_values (IdType.simple.inj htype) ha hb
          exact hvalues.map Id.simple (fun _ _ => rfl) fun _ _ => rfl
      | _ => cases htype
  | simpleByReference v =>
      cases b with
      | simpleByReference w =>
          have hvalues := h.reflects_values (IdType.simpleByReference.inj htype) ha hb
          exact hvalues.map Id.simpleByReference (fun _ _ => rfl) fun _ _ => rfl
      | _ => cases htype
  | ref a ih =>
      cases b with
      | ref b =>
          have hcaptured (hcaptured : s.typeOrder (s.idType a) (s.idType b) = .eq) :=
            ih (h.eq_of_typeOrder hcaptured) ha hb
          refine (h.reflects_types _ _).lex hcaptured rfl rfl ?_ ?_
          · rw [idLess, h.typesMatch_eq]
          · rw [idLess, h.typesMatch_eq]
      | _ => cases htype
  | pair a0 a1 ih0 ih1 =>
      cases b with
      | pair b0 b1 =>
          obtain ⟨htype0, htype1⟩ := IdType.pair.inj htype
          exact (ih0 htype0 ha.1 hb.1).lex (fun _ => ih1 htype1 ha.2 hb.2) rfl rfl rfl rfl
      | _ => cases htype
  | request i =>
      cases b with
      | request j =>
          exact (h.reflects_impl i j ha hb).map Id.request (fun _ _ => rfl) fun _ _ => rfl
      | _ => cases htype

theorem Lawful.composes_id (h : s.Lawful ok) {a b c : Id V P F} (hab : s.idType a = s.idType b)
    (hbc : s.idType b = s.idType c) (ha : a.Regular ok) (hb : b.Regular ok) (hc : c.Regular ok) :
    Composes (s.idOrder a b) (s.idOrder b c) (s.idOrder a c) := by
  induction a generalizing b c with
  | simple v =>
      cases b with
      | simple w =>
          cases c with
          | simple x =>
              exact h.composes_values (IdType.simple.inj hab) (IdType.simple.inj hbc) ha hb hc
          | _ => cases hbc
      | _ => cases hab
  | simpleByReference v =>
      cases b with
      | simpleByReference w =>
          cases c with
          | simpleByReference x =>
              exact h.composes_values (IdType.simpleByReference.inj hab)
                (IdType.simpleByReference.inj hbc) ha hb hc
          | _ => cases hbc
      | _ => cases hab
  | ref a ih =>
      cases b with
      | ref b =>
          cases c with
          | ref c =>
              refine (h.types.composes trivial trivial trivial).then fun hab hbc => ?_
              exact ih (h.eq_of_typeOrder hab) (h.eq_of_typeOrder hbc) ha hb hc
          | _ => cases hbc
      | _ => cases hab
  | pair a0 a1 ih0 ih1 =>
      cases b with
      | pair b0 b1 =>
          cases c with
          | pair c0 c1 =>
              obtain ⟨hab0, hab1⟩ := IdType.pair.inj hab
              obtain ⟨hbc0, hbc1⟩ := IdType.pair.inj hbc
              exact (ih0 hab0 hbc0 ha.1 hb.1 hc.1).then fun _ _ => ih1 hab1 hbc1 ha.2 hb.2 hc.2
          | _ => cases hbc
      | _ => cases hab
  | request i =>
      cases b with
      | request j =>
          cases c with
          | request k => exact h.composes_impl i j k ha hb hc
          | _ => cases hbc
      | _ => cases hab

theorem Lawful.idHash_eq (h : s.Lawful ok) {a b : Id V P F} (htype : s.idType a = s.idType b)
    (ha : a.Regular ok) (hb : b.Regular ok) (heq : s.idEquals a b = true) :
    s.idHash a = s.idHash b := by
  induction a generalizing b with
  | simple v =>
      cases b with
      | simple w =>
          exact h.hash_eq (IdType.simple.inj htype) ha hb heq
      | _ => cases htype
  | simpleByReference v =>
      cases b with
      | simpleByReference w =>
          exact h.hash_eq (IdType.simpleByReference.inj htype) ha hb heq
      | _ => cases htype
  | ref a ih =>
      cases b with
      | ref b =>
          rw [idEquals, Bool.and_eq_true, beq_iff_eq] at heq
          rw [idHash, idHash, ih heq.1 ha hb heq.2]
      | _ => cases htype
  | pair a0 a1 ih0 ih1 =>
      cases b with
      | pair b0 b1 =>
          obtain ⟨htype0, htype1⟩ := IdType.pair.inj htype
          rw [idEquals, Bool.and_eq_true] at heq
          rw [idHash, idHash, ih0 htype0 ha.1 hb.1 heq.1, ih1 htype1 ha.2 hb.2 heq.2]
      | _ => cases htype
  | request i =>
      cases b with
      | request j => exact h.implHash_eq i j ha hb heq
      | _ => cases htype

/-! ## The laws -/

/-- `equals`, `less_than` and `hash` on the ids of one type. -/
theorem Lawful.virtuals_lawful (h : s.Lawful ok) (t : IdType T P F) :
    LawfulKeys (fun a => s.idType a = t ∧ a.Regular ok) s.idEquals s.idLess s.idHash := by
  apply LawfulKeys.of_reflects s.idOrder
  · intro a b ha hb
    exact h.reflects_id (ha.1.trans hb.1.symm) ha.2 hb.2
  · intro a b c ha hb hc
    exact h.composes_id (ha.1.trans hb.1.symm) (hb.1.trans hc.1.symm) ha.2 hb.2 hc.2
  · intro a b ha hb heq
    exact h.idHash_eq (ha.1.trans hb.1.symm) ha.2 hb.2 heq

/-- `operator==`, `operator<` and `hash` on ids of any types. -/
theorem Lawful.operators_lawful (h : s.Lawful ok) :
    LawfulKeys (Id.Regular ok) s.operatorEq s.operatorLt s.idHash := by
  apply LawfulKeys.of_reflects s.order
  · intro a b ha hb
    have hid (htype : s.typeOrder (s.idType a) (s.idType b) = .eq) :=
      h.reflects_id (h.eq_of_typeOrder htype) ha hb
    refine (h.reflects_types _ _).lex hid rfl rfl ?_ ?_
    · rw [operatorLt, h.typesMatch_eq]
    · rw [operatorLt, h.typesMatch_eq]
  · intro a b c ha hb hc
    refine (h.types.composes trivial trivial trivial).then fun hab hbc => ?_
    exact h.composes_id (h.eq_of_typeOrder hab) (h.eq_of_typeOrder hbc) ha hb hc
  · intro a b ha hb heq
    rw [operatorEq, Bool.and_eq_true, beq_iff_eq] at heq
    exact h.idHash_eq heq.1 ha hb heq.2

end Setting

/-- Ids of values that are lawful are lawful keys, whatever their types, however they nest and
whichever requests they share; and so a lookup in a hash map, however many buckets it has, and
one in an ordered map find what is equal. -/
theorem ids_lawful (s : Setting V T P F) (ok : V → Prop) (h : s.Lawful ok) :
    (∀ t, LawfulKeys (fun a => s.idType a = t ∧ a.Regular ok) s.idEquals s.idLess s.idHash) ∧
    LawfulKeys (Id.Regular ok) s.operatorEq s.operatorLt s.idHash ∧
    ∀ (keys : List (Id V P F)) (k : Id V P F), (∀ a ∈ keys, a.Regular ok) → k.Regular ok →
      (∀ bucket, findHashed s.operatorEq s.idHash bucket k keys = findEqual s.operatorEq k keys) ∧
      (keys.Pairwise (s.operatorLt · · = true) →
        findOrdered s.operatorLt k keys = findEqual s.operatorEq k keys) := by
  refine ⟨h.virtuals_lawful, h.operators_lawful, fun keys k hkeys hk => ⟨?_, ?_⟩⟩
  · exact h.operators_lawful.findHashed_eq hk hkeys
  · exact h.operators_lawful.findOrdered_eq hk hkeys

end

/-! ## Ids of dynamic values -/

open PrefixCode

/-- The name of a type of argument. -/
def mangleArg : ArgType ValueType ℕ → List ℕ
  | .value t => [0, t.index]
  | .valueRequest t => [1, t.index]
  | .request props => [2, props]

/-- The name of a type of id, which is told apart from whatever follows it. -/
def mangle : IdType ValueType ℕ ℕ → List ℕ
  | .simple t => [0, t.index]
  | .simpleByReference t => [1, t.index]
  | .ref => [2]
  | .pair id0 id1 => 3 :: (mangle id0 ++ mangle id1)
  | .request function args => 4 :: function :: args.length :: args.flatMap mangleArg

theorem index_injective : Function.Injective ValueType.index := by
  intro t t' h
  cases t <;> cases t' <;> first | rfl | cases h

theorem selfDelimiting_mangleArg : SelfDelimiting mangleArg (fun _ => True) Eq := by
  refine Separates.selfDelimiting (n := 2) ?_ ?_
  · intro t t' _ _ h
    cases t <;> cases t' <;> simp_all [mangleArg, index_injective.eq_iff]
  · intro t _
    cases t <;> rfl

theorem selfDelimiting_mangle : SelfDelimiting mangle (fun _ => True) Eq := by
  intro t
  induction t with
  | simple t =>
      intro t' _ _ r r' h
      cases t' <;> simp_all [mangle, index_injective.eq_iff]
  | simpleByReference t =>
      intro t' _ _ r r' h
      cases t' <;> simp_all [mangle, index_injective.eq_iff]
  | ref =>
      intro t' _ _ r r' h
      cases t' <;> simp_all [mangle]
  | pair id0 id1 ih0 ih1 =>
      intro t' _ _ r r' h
      cases t' with
      | pair id0' id1' =>
          simp only [mangle, List.cons_append, List.cons.injEq, List.append_assoc, true_and] at h
          obtain ⟨hid0, hrest⟩ := ih0 trivial trivial h
          obtain ⟨hid1, hr⟩ := ih1 trivial trivial hrest
          exact ⟨by rw [hid0, hid1], hr⟩
      | _ => simp [mangle] at h
  | request f args =>
      intro t' _ _ r r' h
      cases t' with
      | request f' args' =>
          simp only [mangle, List.cons_append, List.cons.injEq, true_and] at h
          obtain ⟨rfl, hlength, h⟩ := h
          obtain ⟨hargs, h⟩ := selfDelimiting_mangleArg.flatMap (by simp) (by simp) hlength h
          rw [List.forall₂_eq_eq_eq] at hargs
          exact ⟨by rw [hargs], h⟩
      | _ => simp [mangle] at h

theorem mangle_injective : Function.Injective mangle := by
  intro t t' h
  exact (selfDelimiting_mangle trivial trivial (congrArg (· ++ []) h)).1

/-- Types are ordered by their names, and a request without arguments is one object with every
other that is like it. -/
def dynamicIds : Setting Dynamic ValueType ℕ ℕ where
  type := Dynamic.type
  equals := Dynamic.equals
  less := Dynamic.lt
  hash := Dynamic.hashValue Dynamic.murmurHash
  before a b := mangle a < mangle b
  sameName a b := mangle a == mangle b
  sameObject
    | .mk f uuid [], .mk f' uuid' [] => f == f' && uuid == uuid'
    | _, _ => false
  stringHash := Dynamic.murmurHash.string
  combine := Dynamic.murmurCombine

theorem dynamicIds_lawful : dynamicIds.Lawful (Dynamic.Within Dynamic.withoutNaN) where
  values _ := Dynamic.keys_of_equals_self (fun _ hv => hv.2.equals_self fun _ hx => hx)
    fun _ _ => Dynamic.doubleHash_eq
  types := .of_injective mangle_injective _
  names _ _ h := mangle_injective (beq_iff_eq.mp h)
  objects i j h := by
    obtain ⟨f, uuid, xs⟩ := i
    obtain ⟨f', uuid', ys⟩ := j
    cases xs <;> cases ys <;> simp_all [dynamicIds]

/-- Two ids of values without NaN, in order. -/
def twoIds : List (Id Dynamic ℕ ℕ) := [.simple (.integer 1), .ref (.simple (.string [97]))]

theorem twoIds_regular : ∀ a ∈ twoIds, a.Regular (Dynamic.Within Dynamic.withoutNaN) := by
  intro a ha
  simp only [twoIds, List.mem_cons, List.not_mem_nil, or_false] at ha
  rcases ha with rfl | rfl
  · exact .integer (by decide)
  · exact .string trivial

theorem ids_lawful_dynamicIds :
    LawfulKeys (Id.Regular (Dynamic.Within Dynamic.withoutNaN)) dynamicIds.operatorEq
      dynamicIds.operatorLt dynamicIds.idHash ∧
    findOrdered dynamicIds.operatorLt (.simple (.integer 1)) twoIds =
      findEqual dynamicIds.operatorEq (.simple (.integer 1)) twoIds := by
  obtain ⟨-, hoperators, hlookups⟩ := ids_lawful dynamicIds _ dynamicIds_lawful
  refine ⟨hoperators, (hlookups twoIds _ twoIds_regular ?_).2 (by decide)⟩
  exact twoIds_regular _ (List.mem_cons_self ..)

/-- The id of a NaN is not equal to itself. -/
theorem not_lawful_nan :
    ¬ LawfulKeys (fun _ => True) dynamicIds.operatorEq dynamicIds.operatorLt dynamicIds.idHash := by
  intro h
  have hself := h.refl (.simple (.float ⟨0x7FF8000000000000⟩)) trivial
  exact absurd hself (by decide)

end Cradle.Ids
