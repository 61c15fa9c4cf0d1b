import Cradle.Thinknode.CalcValue
import Mathlib.Logic.Encodable.Basic
import Mathlib.Logic.Equiv.List

/-!
# A server whose IDs are the contents

The ID of an object is its value, written out.  Services and a submitter that look up and post
such objects go by the values of calculations.
-/

namespace Cradle

namespace Dynamic

mutual
/-- A value as a list of numbers. -/
def tokens : Dynamic → List ℕ
  | nil => [0]
  | boolean b => [1, Encodable.encode b]
  | integer i => [2, Encodable.encode i]
  | float x => [3, x.bits.toNat]
  | string s => [4, Encodable.encode (s.map UInt8.toNat)]
  | blob b =>
      [5, Encodable.encode (b.data.map UInt8.toNat),
        Encodable.encode (b.mappedFile.map (List.map UInt8.toNat)), Encodable.encode b.nullData]
  | datetime t => [6, Encodable.encode t]
  | array items => 7 :: itemsTokens items
  | map fields => 8 :: fieldsTokens fields
/-- Each item follows a 1, and a 0 follows the last. -/
def itemsTokens : List Dynamic → List ℕ
  | [] => [0]
  | item :: items => 1 :: (tokens item ++ itemsTokens items)
/-- Each field follows a 1, and a 0 follows the last. -/
def fieldsTokens : List (Dynamic × Dynamic) → List ℕ
  | [] => [0]
  | (key, value) :: fields => 1 :: (tokens key ++ (tokens value ++ fieldsTokens fields))
end

/-- The value is read off the front of any list of numbers. -/
def ReadOff (v : Dynamic) : Prop :=
  ∀ w r r', v.tokens ++ r = w.tokens ++ r' → v = w ∧ r = r'

theorem toNat_map_injective : Function.Injective (List.map UInt8.toNat) :=
  List.map_injective_iff.mpr fun _ _ => UInt8.toNat_inj.mp

theorem items_readOff {items : List Dynamic} (h : ∀ item ∈ items, item.ReadOff) :
    ∀ items' r r', itemsTokens items ++ r = itemsTokens items' ++ r' →
      items = items' ∧ r = r' := by
  induction items with
  | nil =>
      intro items' r r' heq
      cases items' with
      | nil => simpa [itemsTokens] using heq
      | cons item' items' => simp [itemsTokens] at heq
  | cons item items ih =>
      intro items' r r' heq
      obtain ⟨hitem, hitems⟩ := List.forall_mem_cons.mp h
      cases items' with
      | nil => simp [itemsTokens] at heq
      | cons item' items' =>
          simp only [itemsTokens, List.cons_append, List.cons.injEq, true_and,
            List.append_assoc] at heq
          obtain ⟨rfl, hrest⟩ := hitem _ _ _ heq
          obtain ⟨rfl, hr⟩ := ih hitems _ _ _ hrest
          exact ⟨rfl, hr⟩

theorem fields_readOff {fields : List (Dynamic × Dynamic)}
    (h : ∀ field ∈ fields, field.1.ReadOff ∧ field.2.ReadOff) :
    ∀ fields' r r', fieldsTokens fields ++ r = fieldsTokens fields' ++ r' →
      fields = fields' ∧ r = r' := by
  induction fields with
  | nil =>
      intro fields' r r' heq
      cases fields' with
      | nil => simpa [fieldsTokens] using heq
      | cons field' fields' => simp [fieldsTokens] at heq
  | cons field fields ih =>
      intro fields' r r' heq
      obtain ⟨⟨hkey, hvalue⟩, hfields⟩ := List.forall_mem_cons.mp h
      cases fields' with
      | nil => simp [fieldsTokens] at heq
      | cons field' fields' =>
          simp only [fieldsTokens, List.cons_append, List.cons.injEq, true_and,
            List.append_assoc] at heq
          obtain ⟨hkeys, hrest⟩ := hkey _ _ _ heq
          obtain ⟨hvalues, hrest⟩ := hvalue _ _ _ hrest
          obtain ⟨rfl, hr⟩ := ih hfields _ _ _ hrest
          exact ⟨by rw [← Prod.ext hkeys hvalues], hr⟩

theorem readOff (v : Dynamic) : v.ReadOff := by
  intro w r r' heq
  induction v generalizing w r r' with
  | nil => cases w <;> simp_all [tokens]
  | boolean b =>
      cases w with
      | boolean b' => simpa [tokens] using heq
      | _ => simp [tokens] at heq
  | integer i =>
      cases w with
      | integer i' => simpa [tokens] using heq
      | _ => simp [tokens] at heq
  | float x =>
      cases w with
      | float x' =>
          simp only [tokens, List.cons_append, List.nil_append, List.cons.injEq, true_and] at heq
          obtain ⟨x⟩ := x
          obtain ⟨x'⟩ := x'
          have hbits : x = x' := UInt64.toNat_inj.mp heq.1
          exact ⟨by rw [hbits], heq.2⟩
      | _ => simp [tokens] at heq
  | string s =>
      cases w with
      | string s' =>
          simp only [tokens, List.cons_append, List.nil_append, List.cons.injEq, true_and,
            Encodable.encode_inj] at heq
          exact ⟨by rw [toNat_map_injective heq.1], heq.2⟩
      | _ => simp [tokens] at heq
  | blob b =>
      cases w with
      | blob b' =>
          simp only [tokens, List.cons_append, List.nil_append, List.cons.injEq, true_and,
            Encodable.encode_inj] at heq
          obtain ⟨hdata, hfile, hnull, hr⟩ := heq
          obtain ⟨data, file, null, _⟩ := b
          obtain ⟨data', file', null', _⟩ := b'
          cases toNat_map_injective hdata
          cases Option.map_injective toNat_map_injective hfile
          cases hnull
          exact ⟨rfl, hr⟩
      | _ => simp [tokens] at heq
  | datetime t =>
      cases w with
      | datetime t' => simpa [tokens] using heq
      | _ => simp [tokens] at heq
  | array items ih =>
      cases w with
      | array items' =>
          simp only [tokens, List.cons_append, List.cons.injEq, true_and] at heq
          obtain ⟨rfl, hr⟩ := items_readOff ih items' r r' heq
          exact ⟨rfl, hr⟩
      | _ => simp [tokens] at heq
  | map fields ih =>
      cases w with
      | map fields' =>
          simp only [tokens, List.cons_append, List.cons.injEq, true_and] at heq
          obtain ⟨rfl, hr⟩ := fields_readOff ih fields' r r' heq
          exact ⟨rfl, hr⟩
      | _ => simp [tokens] at heq

end Dynamic

namespace Thinknode

def contentId (v : Dynamic) : Bytes := List.replicate (Encodable.encode v.tokens) 0

theorem contentId_injective : Function.Injective contentId := by
  intro v w h
  have htokens : v.tokens = w.tokens := by
    simpa [contentId, List.replicate_inj] using congrArg List.length h
  exact (v.readOff w [] [] (by simpa using htokens)).1

/-- The objects are all there; there are no functions, and coercions change nothing. -/
noncomputable def contentServer : Server where
  object id := open Classical in if h : ∃ v, contentId v = id then some h.choose else none
  apply _ _ _ _ _ := none
  coerce _ v := some v
  generated _ := none

@[simp] theorem contentServer_object {v w : Dynamic} :
    contentServer.object (contentId v) = some w ↔ v = w := by
  have h : ∃ w, contentId w = contentId v := ⟨v, rfl⟩
  simp only [contentServer, dif_pos h, Option.some.injEq]
  rw [contentId_injective h.choose_spec]

noncomputable def contentServices : Services where
  getIssObject _ id :=
    match contentServer.object id with
    | some v => .ok v
    | none => .error (.service [])
  postIssObject _ _ v := .ok (contentId v)
  postCalculation _ request := open Classical in
    if h : ∃ v, Value contentServer request v then .ok (contentId h.choose)
    else .error (.service [])
  performLocalFunctionCalc _ _ _ _ _ := .error (.service [])
  performLambdaCalc _ _ := .error (.service [])
  coerceLocalCalcResult _ _ v := .ok v
  requestFromDynamic _ := .error (.service [])

noncomputable def contentSubmitter : Submitter := fun _ submission =>
  open Classical in
  if h : ∃ v, Value contentServer submission.request v then .ok (some (contentId h.choose))
  else .error (.submission [])

theorem contentServices_faithful (contextId : Bytes) :
    contentServices.Faithful contextId contentServer where
  getIssObject h := by simp only [contentServices, h]
  postIssObject v := ⟨contentId v, rfl, contentServer_object.mpr rfl⟩
  postCalculation {request v} h := by
    have hvalue : ∃ v, Value contentServer request v := ⟨v, h⟩
    refine ⟨contentId hvalue.choose, by simp only [contentServices, dif_pos hvalue], ?_⟩
    exact contentServer_object.mpr (hvalue.choose_spec.unique h)
  performLocalFunctionCalc h := by cases h
  coerceLocalCalcResult h := by cases h; rfl
  requestFromDynamic h := by cases h

theorem contentSubmitter_ok {submissions : List Submission} {submission : Submission}
    {v : Dynamic} (h : Value contentServer submission.request v) :
    contentSubmitter submissions submission = .ok (some (contentId v)) := by
  have hvalue : ∃ v, Value contentServer submission.request v := ⟨v, h⟩
  rw [contentSubmitter, dif_pos hvalue, hvalue.choose_spec.unique h]

theorem contentSubmitter_faithful (contextId : Bytes) :
    Faithful contentSubmitter contextId contentServer := by
  intro submissions submission id _ h v
  by_cases hvalue : ∃ v, Value contentServer submission.request v
  · obtain ⟨w, hw⟩ := hvalue
    rw [contentSubmitter_ok hw] at h
    cases h
    rw [contentServer_object]
    exact ⟨fun heq => heq ▸ hw, fun hv => hw.unique hv⟩
  · rw [contentSubmitter, dif_neg hvalue] at h
    cases h

end Thinknode

end Cradle
