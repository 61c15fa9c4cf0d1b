import Cradle.Thinknode.CalcRequest

/-!
# Submission of let-calculations

`submitThinknodeLetCalc` takes the LETs of a request apart from the outside in.  It submits
the definitions one by one, each with references in the place of the variables before it, and
at last the request in the innermost LET.  Whatever the submitter answers, the requests
submitted come from the parts that this reaches (`submitted_reaches`), and where it answers all
of them every such part is submitted (`reaches_submitted`).
-/

namespace Cradle.Thinknode

/-- `thinknode_session`. -/
structure ThinknodeSession where
  apiUrl : Bytes
  accessToken : Bytes

/-- The arguments of a call of `calculation_submission_interface::submit`. -/
structure Submission where
  session : ThinknodeSession
  contextId : Bytes
  request : CalcRequest
  dryRun : Bool

/-- `calculation_submission_interface`.  An answer may depend on the earlier submissions. -/
abbrev Submitter := List Submission → Submission → Except CalcException (Option Bytes)

/-- Computations with the list of the submissions so far. -/
abbrev Submitting := ExceptT CalcException (StateM (List Submission))

def Submitting.exec {α : Type} (x : Submitting α) (submissions : List Submission) :
    Except CalcException α × List Submission := x.run.run submissions

def Submitting.ofExcept {α : Type} (x : Except CalcException α) : Submitting α := ExceptT.mk (pure x)

/-- `submit`. -/
def submit (submitter : Submitter) (submission : Submission) : Submitting (Option Bytes) := do
  let submissions ← getThe (List Submission)
  set (submissions ++ [submission])
  Submitting.ofExcept (submitter submissions submission)

/-- `reported_calculation_info`. -/
structure ReportedCalculationInfo where
  id : Bytes
  label : Bytes
  deriving DecidableEq

/-- `let_calculation_submission_info`. -/
structure LetCalculationSubmissionInfo where
  mainCalcId : Bytes := []
  reportedSubcalcs : List ReportedCalculationInfo := []
  otherSubcalcIds : List Bytes := []

/-- `augmented_calculation_request`. -/
structure AugmentedCalculationRequest where
  request : CalcRequest
  reportedVariables : List Bytes

/-- What `as_function(var.second).name` gives, if the definition is a function call. -/
def label : CalcRequest → Bytes
  | .function _ _ name _ _ => name
  | _ => "internal error: unrecognized reported calc".toUTF8.toList

/-- Record the ID of a variable. -/
def LetCalculationSubmissionInfo.record (result : LetCalculationSubmissionInfo)
    (reported : List Bytes) (name : Bytes) (definition : CalcRequest) (calculationId : Bytes) :
    LetCalculationSubmissionInfo :=
  if name ∈ reported then
    { result with
      reportedSubcalcs := result.reportedSubcalcs ++ [⟨calculationId, label definition⟩] }
  else { result with otherSubcalcIds := result.otherSubcalcIds ++ [calculationId] }

section
variable (submitter : Submitter) (session : ThinknodeSession) (contextId : Bytes)
  (reported : List Bytes) (dryRun : Bool)

/-- Apply the substitutions and submit the request. -/
def submitSubstituted (substitutions : Substitutions) (request : CalcRequest) :
    Submitting (Option Bytes) := do
  let request ← Submitting.ofExcept (substituteVariables substitutions request)
  submit submitter ⟨session, contextId, request, dryRun⟩

/-- The loop through the variables of a LET. -/
def submitVariables : List (Bytes × CalcRequest) → Substitutions × LetCalculationSubmissionInfo →
    Submitting (Option (Substitutions × LetCalculationSubmissionInfo))
  | [], state => return some state
  | (name, definition) :: definitions, (substitutions, result) => do
      match ← submitSubstituted submitter session contextId dryRun substitutions definition with
      | none => return none
      | some calculationId =>
          submitVariables definitions
            (Assoc.assign name (.reference calculationId) substitutions,
              result.record reported name definition calculationId)

/-- The loop through the LETs, and the submission of the actual request after it. -/
def submitLets : CalcRequest → Substitutions × LetCalculationSubmissionInfo →
    Submitting (Option LetCalculationSubmissionInfo)
  | .let definitions body, state => do
      match ← submitVariables submitter session contextId reported dryRun definitions state with
      | none => return none
      | some state => submitLets body state
  | currentRequest, (substitutions, result) => do
      match ← submitSubstituted submitter session contextId dryRun substitutions
        currentRequest with
      | none => return none
      | some mainCalcId => return some { result with mainCalcId }

end

/-- `submit_thinknode_let_calc`. -/
def submitThinknodeLetCalc (submitter : Submitter) (session : ThinknodeSession)
    (contextId : Bytes) (augmentedRequest : AugmentedCalculationRequest) (dryRun : Bool) :
    Submitting (Option LetCalculationSubmissionInfo) :=
  submitLets submitter session contextId augmentedRequest.reportedVariables dryRun
    augmentedRequest.request ([], {})

/-! ## What a computation submits -/

namespace Submitting

variable {α β : Type} {x : Submitting α} {f : α → Submitting β} {h h' : List Submission}

@[simp] theorem exec_pure {a : α} : (pure a : Submitting α).exec h = (.ok a, h) := rfl

@[simp] theorem exec_ofExcept {x : Except CalcException α} : (ofExcept x).exec h = (x, h) := rfl

@[simp] theorem exec_submit {submitter : Submitter} {submission : Submission} :
    (submit submitter submission).exec h = (submitter h submission, h ++ [submission]) := rfl

theorem exec_bind_ok {a : α} (hx : x.exec h = (.ok a, h')) :
    (x >>= f).exec h = (f a).exec h' := by
  rw [exec] at hx
  rw [exec, ExceptT.run_bind, StateT.run_bind, hx]
  rfl

theorem exec_bind_error {e : CalcException} (hx : x.exec h = (.error e, h')) :
    (x >>= f).exec h = (.error e, h') := by
  rw [exec] at hx
  rw [exec, ExceptT.run_bind, StateT.run_bind, hx]
  rfl

end Submitting

/-- Induction over the LETs from the outside in and the definitions of each in turn. -/
@[elab_as_elim]
theorem CalcRequest.letInduction {P : CalcRequest → Prop}
    (actual : ∀ request, request.isLet = false → P request)
    (inner : ∀ body, P body → P (.let [] body))
    (definition : ∀ name definition definitions body, P (.let definitions body) →
      P (.let ((name, definition) :: definitions) body))
    (request : CalcRequest) : P request := by
  induction request using childInduction with
  | step request ih =>
      cases request with
      | «let» definitions body =>
          have hbody : P body := ih body (by simp)
          clear ih
          induction definitions with
          | nil => exact inner body hbody
          | cons d definitions ih => exact definition d.1 d.2 definitions body ih
      | _ => exact actual _ rfl

section
variable {submitter : Submitter} {session : ThinknodeSession} {contextId : Bytes}
  {reported : List Bytes} {dryRun : Bool} {substitutions : Substitutions}
  {result : LetCalculationSubmissionInfo} {h h' : List Submission}

open Submitting

theorem exec_submitSubstituted_ok {request request' : CalcRequest}
    (hok : substituteVariables substitutions request = .ok request') :
    (submitSubstituted submitter session contextId dryRun substitutions request).exec h =
      (submitter h ⟨session, contextId, request', dryRun⟩,
        h ++ [⟨session, contextId, request', dryRun⟩]) := by
  rw [submitSubstituted, hok, exec_bind_ok exec_ofExcept, exec_submit]

theorem exec_submitSubstituted_error {request : CalcRequest} {e : CalcException}
    (herror : substituteVariables substitutions request = .error e) :
    (submitSubstituted submitter session contextId dryRun substitutions request).exec h =
      (.error e, h) := by
  rw [submitSubstituted, herror, exec_bind_error exec_ofExcept]

/-- A run ends with the substitution or with the submission, or goes on with the answer. -/
theorem exec_submitSubstituted_bind_cases {α : Type} (request : CalcRequest)
    (f : Option Bytes → Submitting α) (h : List Submission) :
    (∃ e, ((submitSubstituted submitter session contextId dryRun substitutions request) >>=
      f).exec h = (.error e, h))
    ∨ ∃ request', substituteVariables substitutions request = .ok request' ∧
      ((∃ e, ((submitSubstituted submitter session contextId dryRun substitutions request) >>=
          f).exec h = (.error e, h ++ [⟨session, contextId, request', dryRun⟩]))
        ∨ ∃ answer, submitter h ⟨session, contextId, request', dryRun⟩ = .ok answer ∧
          ((submitSubstituted submitter session contextId dryRun substitutions request) >>=
            f).exec h = (f answer).exec (h ++ [⟨session, contextId, request', dryRun⟩])) := by
  cases hsubst : substituteVariables substitutions request with
  | error e => exact .inl ⟨e, exec_bind_error (exec_submitSubstituted_error hsubst)⟩
  | ok request' =>
      have hexec : (submitSubstituted submitter session contextId dryRun substitutions
          request).exec h = _ := exec_submitSubstituted_ok hsubst
      refine .inr ⟨request', rfl, ?_⟩
      cases hanswer : submitter h ⟨session, contextId, request', dryRun⟩ with
      | error e =>
          rw [hanswer] at hexec
          exact .inl ⟨e, exec_bind_error hexec⟩
      | ok answer =>
          rw [hanswer] at hexec
          exact .inr ⟨answer, rfl, exec_bind_ok hexec⟩

/-- What is submitted was submitted before, is the request itself or comes after it. -/
theorem mem_exec_submitSubstituted_bind {α : Type} {request : CalcRequest}
    {f : Option Bytes → Submitting α} {submission : Submission}
    (hmem : submission ∈ ((submitSubstituted submitter session contextId dryRun substitutions
      request >>= f).exec h).2) :
    submission ∈ h ∨
      ∃ request', substituteVariables substitutions request = .ok request' ∧
        (submission ∈ h ++ [⟨session, contextId, request', dryRun⟩] ∨ ∃ answer,
          submission ∈ ((f answer).exec (h ++ [⟨session, contextId, request', dryRun⟩])).2) := by
  rcases exec_submitSubstituted_bind_cases request f h with
    ⟨e, heq⟩ | ⟨request', hsubst, ⟨e, heq⟩ | ⟨answer, hanswer, heq⟩⟩
  · rw [heq] at hmem
    exact .inl hmem
  · rw [heq] at hmem
    exact .inr ⟨request', hsubst, .inl hmem⟩
  · rw [heq] at hmem
    exact .inr ⟨request', hsubst, .inr ⟨answer, hmem⟩⟩

/-- A submission that was answered. -/
theorem exec_submitSubstituted_bind_ok {α : Type} {request : CalcRequest}
    {f : Option Bytes → Submitting α} {a : α}
    (hrun : (submitSubstituted submitter session contextId dryRun substitutions request >>=
      f).exec h = (.ok a, h')) :
    ∃ request' answer, substituteVariables substitutions request = .ok request' ∧
      submitter h ⟨session, contextId, request', dryRun⟩ = .ok answer ∧
      (f answer).exec (h ++ [⟨session, contextId, request', dryRun⟩]) = (.ok a, h') := by
  rcases exec_submitSubstituted_bind_cases request f h with
    ⟨e, heq⟩ | ⟨request', hsubst, ⟨e, heq⟩ | ⟨answer, hanswer, heq⟩⟩
  · rw [heq] at hrun
    cases hrun
  · rw [heq] at hrun
    cases hrun
  · exact ⟨request', answer, hsubst, hanswer, heq.symm.trans hrun⟩

/-- Submissions are not forgotten. -/
theorem mem_exec_submitSubstituted_bind_of_mem {α : Type} {request : CalcRequest}
    {f : Option Bytes → Submitting α} {submission : Submission} (hold : submission ∈ h)
    (hf : ∀ answer h', submission ∈ h' → submission ∈ ((f answer).exec h').2) :
    submission ∈ ((submitSubstituted submitter session contextId dryRun substitutions
      request >>= f).exec h).2 := by
  rcases exec_submitSubstituted_bind_cases request f h with
    ⟨e, heq⟩ | ⟨request', hsubst, ⟨e, heq⟩ | ⟨answer, hanswer, heq⟩⟩
  · rw [heq]
    exact hold
  · rw [heq]
    exact List.mem_append_left _ hold
  · rw [heq]
    exact hf answer _ (List.mem_append_left _ hold)

theorem submitLets_let_nil {body : CalcRequest} :
    submitLets submitter session contextId reported dryRun (.let [] body) (substitutions, result) =
      submitLets submitter session contextId reported dryRun body (substitutions, result) := rfl

theorem submitLets_actual {request : CalcRequest} (hlet : request.isLet = false) :
    submitLets submitter session contextId reported dryRun request (substitutions, result) = (do
      match ← submitSubstituted submitter session contextId dryRun substitutions request with
      | none => return none
      | some mainCalcId => return some { result with mainCalcId }) := by
  cases request <;> first | rfl | cases hlet

theorem submitLets_let_cons {name : Bytes} {definition body : CalcRequest}
    {definitions : List (Bytes × CalcRequest)} :
    submitLets submitter session contextId reported dryRun
        (.let ((name, definition) :: definitions) body) (substitutions, result) = (do
      match ← submitSubstituted submitter session contextId dryRun substitutions definition with
      | none => return none
      | some calculationId =>
          submitLets submitter session contextId reported dryRun (.let definitions body)
            (Assoc.assign name (.reference calculationId) substitutions,
              result.record reported name definition calculationId)) := by
  rw [submitLets, submitVariables, bind_assoc]
  refine bind_congr fun calculationId => ?_
  cases calculationId <;> rfl

end

/-! ## The parts that are submitted -/

/-- The submission of the request comes to `part`, where `names` have been defined: all the
parts before it and `part` itself can be substituted. -/
inductive Reaches : List Bytes → CalcRequest → CalcRequest → Prop
  | actual {names request} : request.isLet = false → request.Substitutable names →
      Reaches names request request
  | inner {names body part} : Reaches names body part → Reaches names (.let [] body) part
  | here {names name definition definitions body} : definition.Substitutable names →
      Reaches names (.let ((name, definition) :: definitions) body) definition
  | later {names name definition definitions body part} : definition.Substitutable names →
      Reaches (name :: names) (.let definitions body) part →
      Reaches names (.let ((name, definition) :: definitions) body) part

/-- The variables defined so far stand for references. -/
def References (names : List Bytes) (substitutions : Substitutions) : Prop :=
  (∀ name, name ∈ names ↔ name ∈ substitutions.map Prod.fst) ∧
    ∀ name request, Assoc.find name substitutions = some request → ∃ id, request = .reference id

section
variable {names : List Bytes} {substitutions : Substitutions}

theorem references_nil : References [] [] := ⟨fun _ => Iff.rfl, fun _ _ h => by cases h⟩

theorem References.assign (h : References names substitutions) (name id : Bytes) :
    References (name :: names) (Assoc.assign name (.reference id) substitutions) := by
  refine ⟨fun other => ?_, fun other request hfind => ?_⟩
  · rw [Assoc.mem_keys_assign, List.mem_cons, h.1]
  · rw [Assoc.find_assign] at hfind
    split at hfind
    · cases hfind
      exact ⟨id, rfl⟩
    · exact h.2 other request hfind

theorem References.closed (h : References names substitutions) {name : Bytes}
    {request : CalcRequest} (hfind : Assoc.find name substitutions = some request) :
    request.Closed := by
  obtain ⟨id, rfl⟩ := h.2 name request hfind
  rw [CalcRequest.closed_iff]
  simp [CalcRequest.isVariable, CalcRequest.isLet]

theorem References.substitutable_iff (h : References names substitutions) {request : CalcRequest} :
    request.Substitutable names ↔
      ∃ request', substituteVariables substitutions request = .ok request' := by
  rw [CalcRequest.exists_substituteVariables_iff]
  exact ⟨.mono fun x => (h.1 x).mp, .mono fun x => (h.1 x).mpr⟩

end

section
variable {submitter : Submitter} {session : ThinknodeSession} {contextId : Bytes}
  {reported : List Bytes} {dryRun : Bool} {request part : CalcRequest} {names : List Bytes}
  {substitutions : Substitutions} {result : LetCalculationSubmissionInfo} {h : List Submission}

/-- `request'` is `part` with references in the place of the variables. -/
def Instance (part request' : CalcRequest) : Prop :=
  ∃ names substitutions, References names substitutions ∧
    substituteVariables substitutions part = .ok request'

/-- Everything submitted comes from a part that is reached. -/
theorem submitted_reaches (hrefs : References names substitutions) {submission : Submission}
    (hmem : submission ∈ ((submitLets submitter session contextId reported dryRun request
      (substitutions, result)).exec h).2) :
    submission ∈ h ∨ ∃ part, Reaches names request part ∧ Instance part submission.request := by
  induction request using CalcRequest.letInduction generalizing names substitutions result h with
  | actual request hlet =>
      rw [submitLets_actual hlet] at hmem
      rcases mem_exec_submitSubstituted_bind hmem with hold | ⟨request', hsubst, hlog⟩
      · exact .inl hold
      · have hlog : submission ∈ h ++ [⟨session, contextId, request', dryRun⟩] := by
          rcases hlog with hlog | ⟨answer, hlog⟩
          · exact hlog
          · cases answer <;> exact hlog
        refine (List.mem_append.mp hlog).imp_right fun hnew => ?_
        have hreach := Reaches.actual hlet (hrefs.substitutable_iff.mpr ⟨request', hsubst⟩)
        rw [List.mem_singleton.mp hnew]
        exact ⟨request, hreach, names, substitutions, hrefs, hsubst⟩
  | inner body ih =>
      rw [submitLets_let_nil] at hmem
      exact (ih hrefs hmem).imp_right fun ⟨part, hreach, hpart⟩ => ⟨part, .inner hreach, hpart⟩
  | definition name definition definitions body ih =>
      rw [submitLets_let_cons] at hmem
      rcases mem_exec_submitSubstituted_bind hmem with hold | ⟨request', hsubst, hlog⟩
      · exact .inl hold
      · have hdefinition := hrefs.substitutable_iff.mpr ⟨request', hsubst⟩
        -- The definition itself was submitted, or the submission is one of those after it.
        have hnew : submission ∈ h ++ [⟨session, contextId, request', dryRun⟩] →
            submission ∈ h ∨ ∃ part, Reaches names
              (.let ((name, definition) :: definitions) body) part ∧
              Instance part submission.request := by
          refine fun hnew => (List.mem_append.mp hnew).imp_right fun hnew => ?_
          rw [List.mem_singleton.mp hnew]
          exact ⟨definition, .here hdefinition, names, substitutions, hrefs, hsubst⟩
        rcases hlog with hlog | ⟨answer, hlog⟩
        · exact hnew hlog
        · cases answer with
          | none => exact hnew hlog
          | some calculationId =>
              rcases ih (hrefs.assign name calculationId) hlog with hold | ⟨part, hreach, hpart⟩
              · exact hnew hold
              · exact .inr ⟨part, .later hdefinition hreach, hpart⟩

theorem mem_exec_of_mem {submission : Submission} (hold : submission ∈ h) :
    submission ∈ ((submitLets submitter session contextId reported dryRun request
      (substitutions, result)).exec h).2 := by
  induction request using CalcRequest.letInduction generalizing substitutions result h with
  | actual request hlet =>
      rw [submitLets_actual hlet]
      refine mem_exec_submitSubstituted_bind_of_mem hold fun answer h' hold => ?_
      cases answer <;> exact hold
  | inner body ih => exact ih hold
  | definition name definition definitions body ih =>
      rw [submitLets_let_cons]
      refine mem_exec_submitSubstituted_bind_of_mem hold fun answer h' hold => ?_
      cases answer with
      | none => exact hold
      | some calculationId => exact ih hold

/-- Where the submitter answers everything, each part that is reached is submitted. -/
theorem reaches_submitted (id : Bytes) (hrefs : References names substitutions)
    (hreach : Reaches names request part) :
    ∃ submission ∈ ((submitLets (fun _ _ => .ok (some id)) session contextId reported dryRun
      request (substitutions, result)).exec h).2, Instance part submission.request := by
  induction hreach generalizing substitutions result h with
  | actual hlet hsubst =>
      obtain ⟨request', hrequest⟩ := hrefs.substitutable_iff.mp hsubst
      refine ⟨⟨session, contextId, request', dryRun⟩, ?_, _, substitutions, hrefs, hrequest⟩
      rw [submitLets_actual hlet, Submitting.exec_bind_ok (exec_submitSubstituted_ok hrequest)]
      exact List.mem_append_right h List.mem_cons_self
  | inner hbody ih => exact ih hrefs
  | here hsubst =>
      obtain ⟨request', hrequest⟩ := hrefs.substitutable_iff.mp hsubst
      refine ⟨⟨session, contextId, request', dryRun⟩, ?_, _, substitutions, hrefs, hrequest⟩
      rw [submitLets_let_cons, Submitting.exec_bind_ok (exec_submitSubstituted_ok hrequest)]
      exact mem_exec_of_mem (List.mem_append_right h List.mem_cons_self)
  | later hsubst hbody ih =>
      obtain ⟨request', hrequest⟩ := hrefs.substitutable_iff.mp hsubst
      rw [submitLets_let_cons, Submitting.exec_bind_ok (exec_submitSubstituted_ok hrequest)]
      exact ih (hrefs.assign _ id)

end

/-! ## Closed submissions -/

/-- What `submitThinknodeLetCalc` submits. -/
def submissions (submitter : Submitter) (session : ThinknodeSession) (contextId : Bytes)
    (augmentedRequest : AugmentedCalculationRequest) (dryRun : Bool) : List Submission :=
  ((submitThinknodeLetCalc submitter session contextId augmentedRequest dryRun).exec []).2

theorem Instance.closed_iff {part request : CalcRequest} (h : Instance part request) :
    request.Closed ↔ part.CopiesClosed := by
  obtain ⟨names, substitutions, hrefs, hsubst⟩ := h
  exact CalcRequest.closed_substituted_iff (fun _ _ => hrefs.closed) hsubst

/-- All that is submitted is closed, whatever the submitter answers, just where no part that
is reached has a VARIABLE or a LET in the index of an ITEM or the field of a PROPERTY. -/
theorem submissions_closed_iff (session : ThinknodeSession) (contextId : Bytes)
    (augmentedRequest : AugmentedCalculationRequest) (dryRun : Bool) :
    (∀ submitter, ∀ submission ∈ submissions submitter session contextId augmentedRequest dryRun,
      submission.request.Closed) ↔
      ∀ part, Reaches [] augmentedRequest.request part → part.CopiesClosed := by
  refine ⟨fun hclosed part hreach => ?_, fun hcopies submitter submission hmem => ?_⟩
  · obtain ⟨submission, hmem, hpart⟩ := reaches_submitted [] references_nil hreach
    exact hpart.closed_iff.mp (hclosed _ submission hmem)
  · rcases submitted_reaches references_nil hmem with hnil | ⟨part, hreach, hpart⟩
    · cases hnil
    · exact hpart.closed_iff.mpr (hcopies part hreach)

/-- Each VARIABLE is in the scope of a LET of its name. -/
inductive Bound : List Bytes → CalcRequest → Prop
  | variable {names name} : name ∈ names → Bound names (.variable name)
  | let {names definitions body} : (∀ d ∈ definitions, Bound names d.2) →
      Bound (definitions.map Prod.fst ++ names) body → Bound names (.let definitions body)
  | other {names request} : request.isVariable = false → request.isLet = false →
      (∀ child ∈ request.children, Bound names child) → Bound names request

/-- `let x = 0 in [null][x]`. -/
def variableIndex : CalcRequest :=
  .let [([120], .value (.integer 0))]
    (.item (.array [.value .nil] .dynamic) (.variable [120]) .dynamic)

theorem not_submissions_closed :
    ¬ ∀ submitter session contextId augmentedRequest dryRun,
      Bound [] augmentedRequest.request →
      ∀ submission ∈ submissions submitter session contextId augmentedRequest dryRun,
        submission.request.Closed := by
  intro hclosed
  have hbound : Bound [] variableIndex := by
    refine .let (by simpa using .other rfl rfl (by simp)) (.other rfl rfl ?_)
    simp only [CalcRequest.children, List.forall_mem_cons]
    refine ⟨.other rfl rfl ?_, .variable List.mem_cons_self, by simp⟩
    simpa using .other rfl rfl (by simp)
  have h := hclosed (fun _ _ => .ok (some [])) ⟨[], []⟩ [] ⟨variableIndex, []⟩ false hbound
    ⟨⟨[], []⟩, [], .item (.array [.value .nil] .dynamic) (.variable [120]) .dynamic, false⟩
    (.tail _ (.head _))
  have := h (.variable [120]) (.single (.tail _ (.head _)))
  cases this.1

end Cradle.Thinknode
