import Cradle.Thinknode.ContentServer
import Cradle.Thinknode.ResolutionRules

/-!
# Let-calculations submitted and resolved

A let-calculation means the same to Thinknode, where its definitions are submitted one by one,
and to the websocket server, which resolves it in an environment, as long as the definition
that is in force where a variable stands is still in force where the variable is resolved.
-/

namespace Cradle.Thinknode

/-! ## Chains of LETs -/

namespace CalcRequest

/-- The definitions of the LETs that are around the actual request, from the outside in. -/
def chain : CalcRequest → List (Bytes × CalcRequest)
  | .let definitions body => definitions ++ body.chain
  | _ => []

/-- The request in the innermost LET. -/
def actual : CalcRequest → CalcRequest
  | .let _ body => body.actual
  | request => request

/-- The names that are looked up for the actual request, where each has its last definition. -/
inductive Needed (request : CalcRequest) : Bytes → Prop
  | actual {name} : request.actual.Visits (.variable name) → Needed request name
  | definition {name definition name'} : Needed request name →
      Assoc.find name request.chain.reverse = some definition →
      definition.Visits (.variable name') → Needed request name'

/-- No definition that is needed mentions a name that is defined by it or by a later one. -/
def Scoped (request : CalcRequest) : Prop :=
  ∀ before name definition after, request.chain = before ++ (name, definition) :: after →
    name ∉ after.map Prod.fst → request.Needed name →
    ∀ name', definition.Visits (.variable name') → name' ∉ name :: after.map Prod.fst

end CalcRequest

section
variable {services : Services} {contextId : Bytes} {server : Server} {submitter : Submitter}
  {session : ThinknodeSession} {reported : List Bytes} {dryRun : Bool}
  {host : Option ExecutionHostSelection} {v : Dynamic}

theorem extend_append {definitions definitions' : List (Bytes × CalcRequest)}
    {environment : Environment} :
    extend environment (genericEntries host (definitions ++ definitions')) =
      extend (extend environment (genericEntries host definitions))
        (genericEntries host definitions') := by
  rw [genericEntries_eq_map, List.map_append, ← genericEntries_eq_map, ← genericEntries_eq_map,
    extend, List.foldl_append]
  rfl

/-- What a LET has if its body has it after the definitions, a chain of LETs has if its actual
request has it where all is defined. -/
theorem of_actual {P : Environment → CalculationRequest → Prop}
    (hlet : ∀ environment definitions body,
      P (extend environment definitions) body → P environment (.let definitions body))
    {request : CalcRequest} {environment : Environment}
    (h : P (extend environment (genericEntries host request.chain))
      (genericCalc host request.actual)) : P environment (genericCalc host request) := by
  induction request using CalcRequest.childInduction generalizing environment with
  | step request ih =>
      cases request with
      | «let» definitions body =>
          rw [genericCalc]
          refine hlet _ _ _ (ih body (by simp) ?_)
          rwa [CalcRequest.chain, CalcRequest.actual, extend_append] at h
      | _ => exact h

theorem resolves_of_actual {request : CalcRequest} {environment : Environment}
    (h : Resolves services contextId server
      (extend environment (genericEntries host request.chain))
      (genericCalc host request.actual) v) :
    Resolves services contextId server environment (genericCalc host request) v :=
  of_actual (P := fun environment request =>
    Resolves services contextId server environment request v) (fun _ _ _ => .of_let) h

theorem terminates_of_actual {request : CalcRequest} {environment : Environment}
    (h : Terminates services contextId (extend environment (genericEntries host request.chain))
      (genericCalc host request.actual)) :
    Terminates services contextId environment (genericCalc host request) :=
  of_actual (P := Terminates services contextId) (fun _ _ _ => .of_let) h

/-- The environment of the actual request has the last definition of each name. -/
theorem find_extend {definitions : List (Bytes × CalcRequest)} {name : Bytes} :
    Assoc.find name (extend [] (genericEntries host definitions)) =
      (Assoc.find name definitions.reverse).map (genericCalc host) := by
  rw [extend, Assoc.find_foldl_assign, genericEntries_eq_map, ← List.map_reverse,
    Assoc.find_map_snd]
  exact Option.or_none

/-- The loop through the LETs, from any state of it.  What holds of a part and the ID given for
it, if it holds of the definitions it mentions and the IDs that stand for them, holds of the
actual request. -/
theorem submitLets_induction {P : CalcRequest → Bytes → Prop} {whole request : CalcRequest}
    (hscoped : whole.Scoped)
    (hstep : ∀ part ∈ whole.actual :: whole.chain.map Prod.snd,
      ∀ substitutions request' submissions id,
        substituteVariables substitutions part = .ok request' →
        submitter submissions ⟨session, contextId, request', dryRun⟩ = .ok (some id) →
        (∀ name, part.Visits (.variable name) →
          ∃ definition id', Assoc.find name whole.chain.reverse = some definition ∧
            Assoc.find name substitutions = some (.reference id') ∧ P definition id') →
        P part id)
    {before : List (Bytes × CalcRequest)} (hchain : whole.chain = before ++ request.chain)
    (hactual : whole.actual = request.actual)
    {substitutions : Substitutions} {result info : LetCalculationSubmissionInfo}
    {h h' : List Submission}
    (hsubsts : ∀ name, whole.Needed name → name ∉ request.chain.map Prod.fst →
      ∀ substitution, Assoc.find name substitutions = some substitution →
        ∃ definition id, Assoc.find name whole.chain.reverse = some definition ∧
          substitution = .reference id ∧ P definition id)
    (hrun : (submitLets submitter session contextId reported dryRun request
      (substitutions, result)).exec h = (.ok (some info), h')) :
    P whole.actual info.mainCalcId := by
  have hvisited : ∀ {substitutions : Substitutions} {part request' : CalcRequest} {name : Bytes},
      substituteVariables substitutions part = .ok request' → part.Visits (.variable name) →
      ∃ substitution, Assoc.find name substitutions = some substitution := by
    intro substitutions part request' name hsubst hname
    have hpart := CalcRequest.exists_substituteVariables_iff.mp ⟨request', hsubst⟩
    exact Option.isSome_iff_exists.mp
      (Assoc.find_isSome_iff.mpr ((hpart _ hname).2 name rfl))
  induction request using CalcRequest.letInduction
    generalizing before substitutions result h with
  | actual request hlet =>
      rw [submitLets_actual hlet] at hrun
      obtain ⟨request', answer, hsubst, hanswer, hrest⟩ := exec_submitSubstituted_bind_ok hrun
      cases answer with
      | none => cases hrest
      | some mainCalcId =>
          cases hrest
          have heq : whole.actual = request ∧ request.chain = [] := by
            cases request <;> first | exact ⟨hactual, rfl⟩ | cases hlet
          refine hstep _ List.mem_cons_self _ _ _ _ (heq.1 ▸ hsubst) hanswer fun name hname => ?_
          obtain ⟨substitution, hfind⟩ := hvisited (heq.1 ▸ hsubst) hname
          obtain ⟨definition, id, hlast, rfl, hP⟩ :=
            hsubsts name (.actual hname) (by simp [heq.2]) substitution hfind
          exact ⟨definition, id, hlast, hfind, hP⟩
  | inner body ih =>
      rw [submitLets_let_nil] at hrun
      exact ih hchain hactual hsubsts hrun
  | definition name definition definitions body ih =>
      rw [submitLets_let_cons] at hrun
      obtain ⟨request', answer, hsubst, hanswer, hrest⟩ := exec_submitSubstituted_bind_ok hrun
      cases answer with
      | none => cases hrest
      | some calculationId =>
          have hchain : whole.chain = before ++ (name, definition) ::
              (CalcRequest.let definitions body).chain := hchain
          have hchain' : whole.chain = (before ++ [(name, definition)]) ++
              (CalcRequest.let definitions body).chain := by simpa using hchain
          refine ih hchain' hactual (fun name' hneeded hname' substitution hfind => ?_) hrest
          rw [Assoc.find_assign] at hfind
          by_cases heq : name = name'
          · -- The definition that was submitted is the last one of its name.
            subst heq
            rw [if_pos rfl] at hfind
            cases hfind
            have hlast : Assoc.find name whole.chain.reverse = some definition := by
              rw [hchain, Assoc.find_reverse_append_cons hname']
            have hmem : definition ∈ whole.chain.map Prod.snd := by
              rw [hchain]
              simp
            refine ⟨definition, calculationId, hlast, rfl, ?_⟩
            refine hstep _ (List.mem_cons_of_mem _ hmem) _ _ _ _ hsubst hanswer
              fun other hother => ?_
            obtain ⟨substitution, hfind⟩ := hvisited hsubst hother
            obtain ⟨definition', id, hlast', rfl, hP⟩ :=
              hsubsts other (.definition hneeded hlast hother)
                (hscoped _ _ _ _ hchain hname' hneeded other hother) substitution hfind
            exact ⟨definition', id, hlast', hfind, hP⟩
          · rw [if_neg heq] at hfind
            refine hsubsts name' hneeded ?_ substitution hfind
            simpa [CalcRequest.chain, Ne.symm heq] using hname'

/-- A let-calculation that is submitted resolves to the value of the main calculation, if no
definition that is needed mentions a name that is defined by it or by a later one.  Without
META, and with nothing to substitute in what is copied, its resolution ends even where the main
calculation has no value. -/
theorem resolveCalcToValue_agrees (hservices : services.Faithful contextId server)
    (hsubmitter : Faithful submitter contextId server)
    {augmentedRequest : AugmentedCalculationRequest}
    (hscoped : augmentedRequest.request.Scoped) {info : LetCalculationSubmissionInfo}
    {submissions : List Submission}
    (hsubmit : (submitThinknodeLetCalc submitter session contextId augmentedRequest dryRun).exec []
      = (.ok (some info), submissions)) :
    (∀ v, server.object info.mainCalcId = some v →
      ∃ fuel, (resolveCalcToValue services contextId fuel []
        (asGenericCalc augmentedRequest.request)).Returns v) ∧
    ((∀ part ∈ augmentedRequest.request.actual :: augmentedRequest.request.chain.map Prod.snd,
        part.Plain) →
      ∃ fuel, (resolveCalcToValue services contextId fuel []
        (asGenericCalc augmentedRequest.request)).Ends) := by
  refine ⟨fun v hv => ?_, fun hplain => ?_⟩
  · refine (resolves_of_actual (submitLets_induction (P := fun part id => ∀ v,
      server.object id = some v → Resolves services contextId server
        (extend [] (genericEntries (some .thinknode) augmentedRequest.request.chain))
        (genericCalc (some .thinknode) part) v) hscoped ?_ (List.nil_append _).symm rfl
      (fun _ _ _ _ hfind => by cases hfind) hsubmit v hv)).value
    intro part _ substitutions request' submissions id hsubst hanswer hvars v hv
    have hvalue := (hsubmitter _ _ _ rfl hanswer v).mp hv
    refine resolves_of_value hservices hvalue hsubst fun name hname substitution hfind => ?_
    obtain ⟨definition, id', hlast, hfind', hdefinition⟩ := hvars name hname
    cases hfind.symm.trans hfind'
    refine ⟨id', rfl, fun v hv => .of_variable ?_ (hdefinition v hv)⟩
    rw [find_extend, hlast, Option.map_some]
  · have hends := terminates_of_actual (submitLets_induction (P := fun part _ =>
      Terminates services contextId
        (extend [] (genericEntries (some .thinknode) augmentedRequest.request.chain))
        (genericCalc (some .thinknode) part)) hscoped ?_ (List.nil_append _).symm rfl
      (fun _ _ _ _ hfind => by cases hfind) hsubmit)
    · obtain ⟨fuel, hvalue, -⟩ := hends
      exact ⟨fuel, hvalue⟩
    · intro part hpart substitutions request' submissions id hsubst _ hvars
      have hsubstitutable := CalcRequest.exists_substituteVariables_iff.mp ⟨request', hsubst⟩
      refine terminates_of_plain (hplain part hpart)
        (fun sub hsub => (hsubstitutable sub hsub).1) fun name hname => ?_
      obtain ⟨definition, -, hlast, -, hdefinition⟩ := hvars name hname
      refine .of_variable ?_ hdefinition
      rw [find_extend, hlast, Option.map_some]

end

/-! ## Two chains -/

section
variable {session : ThinknodeSession} {contextId : Bytes} {reported : List Bytes} {dryRun : Bool}
  {substitutions : Substitutions} {result : LetCalculationSubmissionInfo} {h : List Submission}
  {request' : CalcRequest} {v : Dynamic}

theorem exec_submitSubstituted_content {request : CalcRequest}
    (hsubst : substituteVariables substitutions request = .ok request')
    (hvalue : Value contentServer request' v) :
    (submitSubstituted contentSubmitter session contextId dryRun substitutions request).exec h =
      (.ok (some (contentId v)), h ++ [⟨session, contextId, request', dryRun⟩]) := by
  rw [exec_submitSubstituted_ok hsubst, contentSubmitter_ok hvalue]

theorem exec_let_content {name : Bytes} {definition body : CalcRequest}
    {definitions : List (Bytes × CalcRequest)}
    (hsubst : substituteVariables substitutions definition = .ok request')
    (hvalue : Value contentServer request' v) :
    (submitLets contentSubmitter session contextId reported dryRun
      (.let ((name, definition) :: definitions) body) (substitutions, result)).exec h =
      (submitLets contentSubmitter session contextId reported dryRun (.let definitions body)
        (Assoc.assign name (.reference (contentId v)) substitutions,
          result.record reported name definition (contentId v))).exec
            (h ++ [⟨session, contextId, request', dryRun⟩]) := by
  rw [submitLets_let_cons,
    Submitting.exec_bind_ok (exec_submitSubstituted_content hsubst hvalue)]

theorem exec_actual_content {request : CalcRequest} (hlet : request.isLet = false)
    (hsubst : substituteVariables substitutions request = .ok request')
    (hvalue : Value contentServer request' v) :
    (submitLets contentSubmitter session contextId reported dryRun request
      (substitutions, result)).exec h = (.ok (some { result with mainCalcId := contentId v }),
        h ++ [⟨session, contextId, request', dryRun⟩]) := by
  rw [submitLets_actual hlet,
    Submitting.exec_bind_ok (exec_submitSubstituted_content hsubst hvalue)]
  rfl

end

/-- `let a = 1 in let a = 2; b = [a] in b`. -/
def scopedLets : CalcRequest :=
  .let [([97], .value (.integer 1))]
    (.let [([97], .value (.integer 2)), ([98], .array [.variable [97]] .dynamic)]
      (.variable [98]))

theorem scoped_scopedLets : scopedLets.Scoped := by
  intro before name definition after hchain hname _ name' hvisits
  have hlets : scopedLets.chain = [([97], .value (.integer 1)), ([97], .value (.integer 2)),
    ([98], .array [.variable [97]] .dynamic)] := rfl
  rw [hlets] at hchain
  match before with
  | [] =>
      cases hchain
      exact absurd hname (by simp)
  | [_] =>
      cases hchain
      rcases hvisits.cases_head with h | ⟨part, hpart, -⟩
      · cases h
      · cases hpart
  | [_, _] =>
      cases hchain
      rcases hvisits.cases_head with h | ⟨part, hpart, hvisits⟩
      · cases h
      · cases List.mem_singleton.mp hpart
        rcases hvisits.cases_head with h | ⟨part, hpart, -⟩
        · cases h
          decide
        · cases hpart
  | _ :: _ :: _ :: _ => simp at hchain

theorem submit_scopedLets : ∃ info submissions,
    (submitThinknodeLetCalc contentSubmitter ⟨[], []⟩ [] ⟨scopedLets, []⟩ false).exec [] =
      (.ok (some info), submissions) ∧
      info.mainCalcId = contentId (.array [.integer 2]) := by
  have hobject : ∀ {v}, Value contentServer (.reference (contentId v)) v :=
    .reference (contentServer_object.mpr rfl)
  have harray : Value contentServer
      (.array [.reference (contentId (.integer 2))] .dynamic) (.array [.integer 2]) :=
    .array rfl (by simpa using hobject) (.cons rfl .nil)
  rw [submitThinknodeLetCalc, scopedLets, exec_let_content rfl .value, submitLets_let_nil,
    exec_let_content rfl .value, exec_let_content rfl harray, submitLets_let_nil,
    exec_actual_content rfl rfl hobject]
  exact ⟨_, _, rfl, rfl⟩

theorem resolveCalcToValue_scopedLets :
    ∃ fuel, (resolveCalcToValue contentServices [] fuel [] (asGenericCalc scopedLets)).Returns
      (.array [.integer 2]) := by
  obtain ⟨info, submissions, hsubmit, hmain⟩ := submit_scopedLets
  have hagrees := resolveCalcToValue_agrees (contentServices_faithful [])
    (contentSubmitter_faithful []) scoped_scopedLets hsubmit
  exact hagrees.1 _ (hmain ▸ contentServer_object.mpr rfl)

/-- `let a = 1; b = a in let a = 2 in b`. -/
def shadowedLets : CalcRequest :=
  .let [([97], .value (.integer 1)), ([98], .variable [97])]
    (.let [([97], .value (.integer 2))] (.variable [98]))

theorem submit_shadowedLets : ∃ info submissions,
    (submitThinknodeLetCalc contentSubmitter ⟨[], []⟩ [] ⟨shadowedLets, []⟩ false).exec [] =
      (.ok (some info), submissions) ∧ info.mainCalcId = contentId (.integer 1) := by
  have hobject : ∀ {v}, Value contentServer (.reference (contentId v)) v :=
    .reference (contentServer_object.mpr rfl)
  rw [submitThinknodeLetCalc, shadowedLets, exec_let_content rfl .value,
    exec_let_content rfl hobject, submitLets_let_nil, exec_let_content rfl .value,
    submitLets_let_nil, exec_actual_content rfl rfl hobject]
  exact ⟨_, _, rfl, rfl⟩

/-- `b` is submitted as a reference to the first `a` and resolved to the second. -/
theorem not_resolveCalcToValue_agrees :
    ¬ ∀ services contextId server submitter session augmentedRequest dryRun info submissions,
      Services.Faithful services contextId server → Faithful submitter contextId server →
      (submitThinknodeLetCalc submitter session contextId augmentedRequest dryRun).exec [] =
        (.ok (some info), submissions) →
      ∀ v, server.object info.mainCalcId = some v →
        ∃ fuel, (resolveCalcToValue services contextId fuel []
          (asGenericCalc augmentedRequest.request)).Returns v := by
  intro hagrees
  obtain ⟨info, submissions, hsubmit, hmain⟩ := submit_shadowedLets
  obtain ⟨fuel, hone⟩ := hagrees contentServices [] contentServer contentSubmitter ⟨[], []⟩
    ⟨shadowedLets, []⟩ false info submissions (contentServices_faithful [])
    (contentSubmitter_faithful []) hsubmit _ (hmain ▸ contentServer_object.mpr rfl)
  have htwo : (resolveCalcToValue contentServices [] 5 [] (asGenericCalc shadowedLets)).Returns
      (.integer 2) := rfl
  have heq := (value_of_le (Nat.le_max_left fuel 5) hone).unique
    (value_of_le (Nat.le_max_right fuel 5) htwo)
  cases heq

end Cradle.Thinknode
